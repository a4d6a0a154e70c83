import CardKeepr.Ingestion.EventPayloads
import CardKeepr.Reconciliation.PartitionManifest

namespace CardKeepr.Ingestion

open Lib Shared Reconciliation Reconciliation.Partitions List

variable {rest : JsString}

def recordTooLarge : JsString :=
  js "One reconciliation persistence record exceeds 512 KiB.".toList

/-- The loop of `byteBoundedJsonArrays` with the array it fills. -/
def boundedArrays (nfc : Nfc) (current : List JsString) (currentBytes : Nat) :
    List Json → Except JsString (List JsString)
  | [] => .ok (if current≠[] then [bracketed current] else [])
  | value::values => do
    let encoded ← canonicalJson nfc value
    let encodedBytes := byteLength encoded
    demand (decide (encodedBytes+2 ≤ maximumChunkBytes)) recordTooLarge
    let additionalBytes := encodedBytes+if current=[] then 0 else 1
    if current≠[] ∧ currentBytes+additionalBytes > maximumChunkBytes then
      let chunks ← boundedArrays nfc [encoded] (2+encodedBytes) values
      .ok (bracketed current::chunks)
    else boundedArrays nfc (current++[encoded]) (currentBytes+additionalBytes) values

def byteBoundedJsonArrays (nfc : Nfc) (values : List Json) : Except JsString (List JsString) := do
  let chunks ← boundedArrays nfc [] 2 values
  .ok (if values=[] then [bracketed []] else chunks)

theorem widest_two {n low high : Nat} (hl : 1 ≤ low) (hle : low ≤ high)
    (h2 : 2 ≤ high) (hn : high-low ≤ n) : 2 ≤ widest rest n low high := by
  induction n generalizing low high with
  | zero =>
    rw [widest]
    omega
  | succ n ih =>
    rw [widest]
    split
    · next hlt =>
      split
      · exact ih (by omega) (by omega) h2 (by omega)
      · next hfit =>
        have hbytes := utf8_length_le (rest.take ((low+high+1)/2))
        have hlen := length_take_le ((low+high+1)/2) rest
        rw [maximumChunkBytes] at hfit
        exact ih hl (by omega) (by omega) (by omega)
    · omega

theorem chunkEnd_pos (h : rest≠[]) : 0 < chunkEnd rest := by
  have hpos := length_pos_of_ne_nil h
  obtain ⟨-,hone,hle⟩ := widestSlice_fits h
  simp only [chunkEnd]
  split
  · next hc =>
    have htwo : 2 ≤ widestSlice rest :=
      widest_two (le_refl 1) (by rw [maximumChunkBytes]; omega) (by rw [maximumChunkBytes]; omega)
        (by omega)
    omega
  · omega

/-- Between two texts that follow each other no pair is split. -/
def Uncut (chunks : List JsString) : Prop := chunks.IsChain Apart

theorem take_head {k : Nat} (hk : 0 < k) : (rest.take k).head?=rest.head? := by
  cases rest with
  | nil => rw [take_nil]
  | cons u rest =>
    obtain ⟨k,rfl⟩ : ∃j,k=j+1 := ⟨k-1,by omega⟩
    rfl

theorem byteChunksFrom_lossless {n : Nat} {rest : JsString} (hn : rest.length ≤ n) :
    ∃chunks,byteChunksFrom n rest=.ok chunks ∧ chunks.flatten=rest ∧ Uncut chunks ∧
      ∀c∈chunks.head?,c.head?=rest.head? := by
  induction n generalizing rest with
  | zero =>
    have hr : rest=[] := length_eq_zero_iff.mp (by omega)
    exact ⟨[],rfl,hr.symm,.nil,fun _ h => by cases h⟩
  | succ n ih =>
    by_cases hr : rest=[]
    · exact ⟨[],by rw [byteChunksFrom,if_pos hr],hr.symm,.nil,fun _ h => by cases h⟩
    · have hpos := chunkEnd_pos hr
      have hapart := (chunkEnd_fits hr).2
      obtain ⟨chunks,hok,hflat,huncut,hhead⟩ := @ih (rest.drop (chunkEnd rest))
        (by rw [length_drop]; omega)
      refine ⟨rest.take (chunkEnd rest)::chunks,?_,?_,?_,?_⟩
      · have hend : (!(chunkEnd rest==0))=true := by simp; omega
        rw [byteChunksFrom,if_neg hr,hend,demand_true,ok_bind,hok]
        rfl
      · rw [flatten_cons,hflat,take_append_drop]
      · cases chunks with
        | nil => exact .singleton _
        | cons c chunks =>
          refine .cons_cons ?_ huncut
          intro u hu v hv
          rw [hhead c rfl] at hv
          exact hapart u hu v hv
      · intro c hc
        obtain rfl := Option.some.inj hc
        exact take_head hpos

theorem byteChunks_lossless (value : JsString) :
    ∃chunks,byteChunks value=.ok chunks ∧ chunks.flatten=value ∧ Uncut chunks := by
  obtain ⟨chunks,hok,hflat,huncut,-⟩ := byteChunksFrom_lossless (le_refl value.length)
  rw [byteChunks,hok,ok_bind]
  by_cases h : chunks=[]
  · rw [h] at hflat
    exact ⟨[[]],by rw [if_pos h],hflat,.singleton _⟩
  · exact ⟨chunks,by rw [if_neg h],hflat,huncut⟩

section
variable (nfc : Nfc)

/-- A record whose text fits an array of its own. -/
structure Record where
  value : Json
  text : JsString
  encoded : canonicalJson nfc value=.ok text
  fits : byteLength text+2 ≤ maximumChunkBytes

variable {nfc}

theorem Record.integral (r : Record nfc) : r.value.Integral :=
  integral_of_canonicalJsonAt nfc r.encoded

theorem Record.text_eq (r : Record nfc) : r.text=(r.value.canonical nfc).print := by
  have h := r.encoded
  rw [canonicalJson,canonicalJsonAt_eq nfc r.integral] at h
  exact (Except.ok.inj h).symm

theorem texts_wellFormed (rs : List (Record nfc)) : ∀t∈rs.map Record.text,wellFormed t=true := by
  intro t ht
  obtain ⟨r,-,rfl⟩ := mem_map.mp ht
  rw [r.text_eq]
  exact print_wellFormed _

theorem bracketed_records (rs : List (Record nfc)) : jsonParse (bracketed (rs.map Record.text))=
      some (.arr (rs.map fun r => (r.value.canonical nfc).own)) := by
  let whole : Json := .arr (rs.map Record.value)
  have hi : whole.Integral := (all_arr _).mpr fun v hv => by
    obtain ⟨r,-,rfl⟩ := mem_map.mp hv
    exact r.integral
  have hprint : bracketed (rs.map Record.text)=(whole.canonical nfc).print := by
    rw [canonical_arr,Json.print,printItems_map,map_map,map_map,bracketed,
      show Record.text=fun r : Record nfc => (r.value.canonical nfc).print from
        funext Record.text_eq]
    rfl
  rw [hprint,jsonParse_canonical nfc hi,canonical_arr,Json.own,ownItems_map,map_map,map_map]
  rfl

/-- The room of an array of at most `n` texts: no more of them, and no work to count. -/
def arrayRoom (n : Nat) : Room (Record nfc) where
  size r := byteLength r.text
  work _ := 0
  rim := 2
  maxSize := maximumChunkBytes
  maxCount := n
  maxWork := 1

theorem boundedArrays_cut {n : Nat} {f : Filling (Record nfc)} (rs : List (Record nfc))
    (hn : f.parts.length+rs.length < n) (hwork : f.work=0) :
    boundedArrays nfc (f.parts.map Record.text) f.size (rs.map Record.value)=
      .ok ((f.cut (arrayRoom n) rs).map fun p => bracketed (p.map Record.text)) := by
  induction rs generalizing f with
  | nil =>
    rw [map_nil,boundedArrays,Filling.cut]
    by_cases he : f.parts=[]
    · simp [he]
    · simp [he]
  | cons r rs ih =>
    rw [length_cons] at hn
    have hroomy : ∀g : Filling (Record nfc),g.parts.length+rs.length+1 < n → g.work=0 →
        ¬(g.add (arrayRoom n) r).Full (arrayRoom n) := by
      rintro g hg hw (hfull | hfull)
      · have hlen : (g.parts++[r]).length=n := hfull
        rw [length_append,length_singleton] at hlen
        omega
      · have hzero : 1 ≤ g.work+0 := hfull
        omega
    have hfit : decide (byteLength r.text+2 ≤ maximumChunkBytes)=true := decide_eq_true r.fits
    have hempty : (f.parts.map Record.text=[]) ↔ f.parts=[] := map_eq_nil_iff
    rw [map_cons,boundedArrays,r.encoded,ok_bind]
    simp only [hfit,demand_true,ok_bind,hempty,ne_eq]
    by_cases hc : f.Crowded (arrayRoom n) r
    · have hnot := hroomy (.empty (arrayRoom n)) (by simp; omega) rfl
      rw [Filling.cut_crowded hc,Filling.cut_add Filling.empty_roomy,if_neg hnot]
      have hgo := @ih ((Filling.empty (arrayRoom n)).add (arrayRoom n) r)
        (by simp; omega) rfl
      have hsize : 2+byteLength r.text=((Filling.empty (arrayRoom n)).add (arrayRoom n) r).size := rfl
      have hcrowd : ¬f.parts=[] ∧ f.size+(byteLength r.text+if f.parts=[] then 0 else 1) >
          maximumChunkBytes := by
        obtain ⟨hne,hlt⟩ := hc
        refine ⟨hne,?_⟩
        rw [if_neg hne]
        exact hlt
      rw [if_pos hcrowd,hsize]
      change (boundedArrays nfc (((Filling.empty (arrayRoom n)).add (arrayRoom n) r).parts.map
        Record.text) _ _ >>= _)=_
      rw [hgo]
      rfl
    · have hnot := hroomy f (by omega) hwork
      rw [Filling.cut_add hc,if_neg hnot]
      have hgo := @ih (f.add (arrayRoom n) r)
        (by rw [Filling.add_parts,length_append,length_singleton]; omega) (by
          change f.work+0=0
          omega)
      have hcrowd : ¬(¬f.parts=[] ∧ f.size+(byteLength r.text+if f.parts=[] then 0 else 1) >
          maximumChunkBytes) := by
        rintro ⟨hne,hlt⟩
        rw [if_neg hne] at hlt
        exact hc ⟨hne,hlt⟩
      rw [if_neg hcrowd]
      rw [Filling.add_parts,map_append] at hgo
      exact hgo

/-- The pieces: together the records, each within its bound. -/
structure Arrays (rs : List (Record nfc)) (groups : List (List (Record nfc))) : Prop where
  whole : groups.flatten=rs
  bounded : ∀g∈groups,byteLength (bracketed (g.map Record.text)) ≤ maximumChunkBytes
  read : ∀g∈groups,jsonParse (bracketed (g.map Record.text))=
    some (.arr (g.map fun r => (r.value.canonical nfc).own))

theorem byteBoundedJsonArrays_spec (rs : List (Record nfc)) :
    ∃groups,byteBoundedJsonArrays nfc (rs.map Record.value)=
      .ok (groups.map fun g => bracketed (g.map Record.text)) ∧ Arrays rs groups := by
  let room := @arrayRoom nfc (rs.length+1)
  have hrun := boundedArrays_cut (n := rs.length+1) (f := .empty room) rs (by simp) rfl
  have hrun : boundedArrays nfc [] 2 (rs.map Record.value)=_ := hrun
  rw [byteBoundedJsonArrays,hrun,ok_bind]
  by_cases h : rs=[]
  · subst h
    refine ⟨[[]],rfl,rfl,?_,fun g _ => bracketed_records g⟩
    intro g hg
    rw [mem_singleton.mp hg]
    change byteLength (bracketed []) ≤ maximumChunkBytes
    decide
  · refine ⟨(Filling.empty room).cut room rs,by rw [if_neg (by simpa using h)],?_,?_,
      fun g _ => bracketed_records g⟩
    · rw [Filling.cut_flatten,Filling.empty_parts,nil_append]
    · intro g hg
      have hrim : room.rim ≤ room.maxSize := by change 2 ≤ 524288; omega
      have hcount : 0 < room.maxCount := Nat.succ_pos _
      have hfits : ∀r∈rs,room.rim+room.size r ≤ room.maxSize := by
        intro r _
        have hr := r.fits
        change 2+byteLength r.text ≤ maximumChunkBytes
        omega
      have hpiece := Filling.cut_pieces hrim hcount (Filling.empty_sound hrim hcount) hfits g hg
      have hsize := hpiece.size
      rw [byteLength_bracketed (texts_wellFormed g),map_map,length_map]
      exact hsize

end

/-- Every text is cut into chunks that give it back, fit a row each and split no pair; every list
of records that fit is cut into consecutive arrays within the bound that give it back. -/
theorem payload_chunks_lossless :
    (∀value,∃chunks,byteChunks value=.ok chunks ∧ chunks.flatten=value ∧
      (∀c∈chunks,byteLength c ≤ maximumChunkBytes) ∧ Uncut chunks) ∧
    ∀(nfc : Nfc) (rs : List (Record nfc)),∃groups,byteBoundedJsonArrays nfc (rs.map Record.value)=
      .ok (groups.map fun g => bracketed (g.map Record.text)) ∧ Arrays rs groups := by
  constructor
  · intro value
    obtain ⟨chunks,hok,hflat,huncut⟩ := byteChunks_lossless value
    exact ⟨chunks,hok,hflat,(byteChunks_spec hok).2.2,huncut⟩
  · exact fun nfc rs => byteBoundedJsonArrays_spec rs

end CardKeepr.Ingestion
