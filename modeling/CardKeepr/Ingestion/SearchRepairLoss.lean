import CardKeepr.Ingestion.SearchRepair
import CardKeepr.Shared.CanonicalTies

namespace CardKeepr.Ingestion
open Shared List

section
variable {cs P Q : List Nat} {room : Nat}

theorem decodeFatal_bytesOf {ds : List Nat} (h : ∀c∈ds,isScalar c=true) :
    decodeFatal (bytesOf ds)=some (fromPoints (dropMark ds)) := by
  rw [decodeFatal,decodePoints_bytesOf h]
  rfl

theorem slice_behind (P Q : List Nat) (n : Nat) :
    ((bytesOf (P++Q)).take ((bytesOf P).length+n)).drop (bytesOf P).length=(bytesOf Q).take n := by
  rw [bytesOf_append,take_length_add_append,drop_left]

theorem decodeBackwards_fitting (hs : ∀c∈Q,isScalar c=true) {n : Nat}
    (hlo : (bytesOf (fitting room Q)).length ≤ n) (hhi : n ≤ room)
    (hlen : n ≤ (bytesOf Q).length) :
    decodeBackwards (bytesOf (P++Q)) (bytesOf P).length ((bytesOf P).length+n)=
      if fitting room Q=[] then .error "The Card search repair could not make bounded progress."
      else .ok (fromPoints (dropMark (fitting room Q))) := by
  have hp := fitting_prefix room Q
  induction n with
  | zero =>
    have hf : fitting room Q=[] := by
      by_contra hf
      have := bytesOf_pos hf
      omega
    rw [if_pos hf]
    cases hm : (bytesOf P).length+0 with
    | zero => rfl
    | succ m => rw [decodeBackwards,if_neg (by omega)]
  | succ n ih =>
    rw [←Nat.add_assoc,decodeBackwards,if_pos (by omega),Nat.add_assoc,slice_behind]
    by_cases hn : (bytesOf (fitting room Q)).length=n+1
    · have hne : fitting room Q≠[] := by
        intro h
        rw [h] at hn
        cases hn
      obtain ⟨R,hR⟩ := hp
      have hQ : bytesOf Q=bytesOf (fitting room Q)++bytesOf R := by rw [←bytesOf_append,hR]
      have ht : (bytesOf Q).take (n+1)=bytesOf (fitting room Q) := by
        rw [hQ,←hn,take_left]
      rw [ht,decodeFatal_bytesOf fun c hc => hs c ( fitting_prefix room Q |>.subset hc),
        if_neg hne]
    · have hnone : decodePoints ((bytesOf Q).take (n+1))=none := by
        by_contra hc
        obtain ⟨ds,hd⟩ := Option.ne_none_iff_exists'.mp hc
        obtain ⟨hq,hb⟩ := decodePoints_take hs hd
        have hl := congrArg List.length hb
        rw [length_take,Nat.min_eq_left hlen] at hl
        have hm : ds <+: fitting room Q := fitting_most hq (by omega)
        have := bytesOf_prefix hm
        omega
      rw [decodeFatal,hnone,Option.map_none]
      exact ih (by omega) (by omega) (by omega)

theorem utf8Chunk_fitting (hs : ∀c∈Q,isScalar c=true) (hr : 0 < room) :
    utf8Chunk (bytesOf (P++Q)) (bytesOf P).length room=
      if fitting room Q=[] then .error "The Card search repair could not make bounded progress."
      else .ok (fromPoints (dropMark (fitting room Q))) := by
  have hend : min (bytesOf (P++Q)).length ((bytesOf P).length+room)=
      (bytesOf P).length+min (bytesOf Q).length room := by
    rw [bytesOf_append,length_append]
    omega
  have hb := bytesOf_prefix ( fitting_prefix room Q)
  have hf := fitting_bytes room Q
  rw [utf8Chunk,if_neg (by omega),hend]
  exact decodeBackwards_fitting hs (by omega) (by omega) (by omega)

theorem dropMark_other {cs : List Nat} (h : cs.head?≠some byteOrderMark) : dropMark cs=cs :=
  if_neg h

theorem dropMark_mark (cs : List Nat) : dropMark (byteOrderMark::cs)=cs := if_pos rfl

theorem dropMark_subset (cs : List Nat) : dropMark cs⊆cs := by
  rw [dropMark]
  split_ifs
  · exact fun c hc => mem_of_mem_tail hc
  · exact List.Subset.refl cs

theorem dropMark_bytes (cs : List Nat) : (bytesOf (dropMark cs)).length ≤ (bytesOf cs).length := by
  rw [dropMark]
  split_ifs with h
  · obtain ⟨ds,rfl⟩ := List.head?_eq_some_iff.mp h
    rw [tail_cons,bytesOf_cons,length_append]
    omega
  · exact Nat.le_refl _
end

theorem decimal_length_mono {m n : Nat} (h : m ≤ n) : (decimal m).length ≤ (decimal n).length := by
  induction n using Nat.strong_induction_on generalizing m with
  | h n ih =>
    rcases Nat.lt_or_ge m 10 with hm | hm
    · obtain ⟨u,us,e,-⟩ := decimal_head n
      rw [decimal_small hm,e]
      simp
    · rw [decimal_step hm,decimal_step (hm.trans h),length_append,length_append]
      have := ih (n/10) (by omega) (Nat.div_le_div_right h)
      simpa using this

theorem utf8_decimal_length (n : Nat) : (utf8 (decimal n)).length=(decimal n).length :=
  utf8_length_ascii (decimal_ascii n)

section
variable {revisionId cardId searchText : JsString} {P Q : List Nat}
variable {r : Repair}

def SearchWritten (P : List Nat) (r : Repair) : Prop :=
  r.search_text=fromPoints P ∧ r.repair_search_offset=(bytesOf P).length

theorem scalars_of (h : codePoints searchText=P++Q) :
    (∀c∈P,isScalar c=true) ∧ ∀c∈Q,isScalar c=true := by
  have hs := codePoints_scalar searchText
  rw [h] at hs
  exact ⟨fun c hc => hs c (mem_append_left _ hc),fun c hc => hs c (mem_append_right _ hc)⟩

theorem SearchWritten.stored (h : codePoints searchText=P++Q) (hw : SearchWritten P r) :
    r.repair_search_offset=(utf8 r.search_text).length := by
  rw [hw.1,hw.2,utf8_fromPoints (scalars_of h).1]

theorem SearchWritten.unfinished (h : codePoints searchText=P++Q) (hw : SearchWritten P r) :
    r.repair_search_offset < (utf8 searchText).length ↔ Q≠[] := by
  rw [hw.2,utf8_bytesOf,h,bytesOf_append,length_append]
  constructor
  · rintro hlt rfl
    simp [bytesOf] at hlt
  · intro hne
    have := bytesOf_pos hne
    omega

theorem storeChunk_written {taken : List Nat} (hP : ∀c∈P,isScalar c=true)
    (ht : ∀c∈taken,isScalar c=true) (hw : SearchWritten P r)
    (hroom : 0 < chunkRoom revisionId cardId)
    (hb : (bytesOf taken).length ≤ chunkRoom revisionId cardId) :
    let out := storeChunk revisionId cardId (fromPoints taken) r
    if (decimal (bytesOf (P++taken)).length).length ≤ chunkRoom revisionId cardId
    then SearchWritten (P++taken) out.repair ∧ out.error=none else out.repair=r ∧ out.error≠none := by
  have hlen : (utf8 (fromPoints taken)).length=(bytesOf taken).length := by
    rw [utf8_fromPoints ht]
  have hnext : r.repair_search_offset+(bytesOf taken).length=(bytesOf (P++taken)).length := by
    rw [hw.2,bytesOf_append,length_append]
  have hfirst : (utf8 r.search_text).length=r.repair_search_offset := by
    rw [hw.1,hw.2,utf8_fromPoints hP]
  have htext : r.search_text++fromPoints taken=fromPoints (P++taken) := by
    rw [hw.1,fromPoints_append]
  have hPt : ∀c∈P++taken,isScalar c=true := fun c hc => (mem_append.mp hc).elim (hP c) (ht c)
  have hbound (value : JsString) :
      boundBytes [value,revisionId,cardId]=(utf8 value).length+boundBytes [revisionId,cardId] := by
    simp [boundBytes]
  rw [chunkRoom] at hroom hb ⊢
  simp only [storeChunk,hnext,hbound,hlen,utf8_decimal_length]
  split_ifs with hfits hmeasured hmeasured
  · omega
  · rw [appendRepairedCardSearchText,if_pos hfirst,advanceCardSearchOffset,if_pos]
    · exact ⟨⟨htext,rfl⟩,rfl⟩
    · exact ⟨rfl,by rw [htext,utf8_fromPoints hPt]⟩
  · exact ⟨rfl,by simp⟩
  · omega

theorem append_written (revisionId cardId : JsString) (h : codePoints searchText=P++Q) (hw : SearchWritten P r)
    (hQ : Q≠[]) :
    let room := chunkRoom revisionId cardId
    let taken := dropMark (fitting room Q)
    let out := appendSearchText revisionId cardId searchText r
    (fitting room Q≠[] ∧ (decimal (bytesOf (P++taken)).length).length ≤ room ∧
      SearchWritten (P++taken) out.repair ∧ out.error=none) ∨
    ((fitting room Q=[] ∨ room < (decimal (bytesOf (P++taken)).length).length) ∧
      out.repair=r ∧ out.error≠none) := by
  intro room taken out
  obtain ⟨hP,hs⟩ := scalars_of h
  have hlt := (hw.unfinished h).mpr hQ
  have hout : out=appendSearchText revisionId cardId searchText r := rfl
  rw [appendSearchText,if_pos hlt] at hout
  rcases Nat.eq_zero_or_pos room with h0 | h0
  · have hf : fitting room Q=[] := by
      have hb := fitting_bytes room Q
      by_contra hf
      have := bytesOf_pos hf
      omega
    rw [utf8Chunk,if_pos (show room < 1 by omega)] at hout
    exact .inr ⟨.inl hf,by rw [hout],by rw [hout]; simp⟩
  have hchunk : utf8Chunk (bytesOf (P++Q)) (bytesOf P).length room=_ := utf8Chunk_fitting hs h0
  rw [←h,←utf8_bytesOf,←hw.2] at hchunk
  rw [hchunk] at hout
  by_cases hf : fitting room Q=[]
  · rw [if_pos hf] at hout
    exact .inr ⟨.inl hf,by rw [hout],by rw [hout]; simp⟩
  rw [if_neg hf] at hout
  have htaken : ∀c∈taken,isScalar c=true := fun c hc =>
    hs c (( fitting_prefix room Q).subset (dropMark_subset _ hc))
  have hb : (bytesOf taken).length ≤ room := by
    have := fitting_bytes room Q
    have := dropMark_bytes (fitting room Q)
    change (bytesOf (dropMark (fitting room Q))).length ≤ room
    omega
  have hstore := storeChunk_written hP htaken hw h0 hb
  rw [show out=storeChunk revisionId cardId (fromPoints taken) r from hout]
  dsimp only at hstore
  split_ifs at hstore with hfits
  · exact .inl ⟨hf,hfits,hstore⟩
  · exact .inr ⟨.inr (by omega),hstore⟩
end

section
variable {revisionId cardId searchText : JsString} {P Q : List Nat}

theorem repairAfter_add (revisionId cardId searchText : JsString) (k n : Nat) : repairAfter revisionId cardId searchText (k+n)=
    (fun r => (appendSearchText revisionId cardId searchText r).repair)^[n]
      (repairAfter revisionId cardId searchText k) := by
  induction n with
  | zero => rfl
  | succ n ih => rw [Function.iterate_succ_apply',←ih]; rfl

theorem append_finished {r : Repair} (h : ¬r.repair_search_offset < (utf8 searchText).length) :
    appendSearchText revisionId cardId searchText r=⟨r,none⟩ := if_neg h

theorem finished_stays {r : Repair} (h : ¬r.repair_search_offset < (utf8 searchText).length)
    (n : Nat) : (fun r => (appendSearchText revisionId cardId searchText r).repair)^[n] r=r := by
  apply Function.iterate_fixed
  rw [append_finished h]

theorem append_grows (revisionId cardId searchText : JsString) (r : Repair) : ∃t,
    (appendSearchText revisionId cardId searchText r).repair.search_text=r.search_text++t := by
  have same : ∃t,r.search_text=r.search_text++t := ⟨[],(append_nil _).symm⟩
  rw [appendSearchText]
  split_ifs
  · split
    · exact same
    · rename_i chunk _
      simp only [storeChunk]
      split_ifs
      · exact same
      · rw [appendRepairedCardSearchText,advanceCardSearchOffset]
        split_ifs
        all_goals first | exact same | exact ⟨chunk,rfl⟩
  · exact same

theorem iterate_grows (revisionId cardId searchText : JsString) (n : Nat) (r : Repair) : ∃t,
    ((fun r => (appendSearchText revisionId cardId searchText r).repair)^[n] r).search_text=
      r.search_text++t := by
  induction n with
  | zero => exact ⟨[],(append_nil _).symm⟩
  | succ n ih =>
    obtain ⟨t,ht⟩ := ih
    obtain ⟨u,hu⟩ := append_grows revisionId cardId searchText _
    exact ⟨t++u,by rw [Function.iterate_succ_apply',hu,ht,append_assoc]⟩

theorem codePoints_fromPoints_append {F : List Nat} (hF : ∀c∈F,isScalar c=true) (t : JsString) :
    codePoints (fromPoints F++t)=F++codePoints t := by
  induction F with
  | nil => rfl
  | cons c F ih =>
    rw [fromPoints,flatMap_cons,append_assoc,codePoints_point (hF c (by simp)),
      cons_append]
    exact congrArg _ (ih fun d hd => hF d (by simp [hd]))

theorem shifted_replicate {α : Type} {a : α} {F X Y : List α} (h : F++X=a::(F++Y)) :
    F=List.replicate F.length a := by
  induction F with
  | nil => rfl
  | cons b F ih =>
    obtain ⟨rfl,ht⟩ := List.cons.inj h
    rw [length_cons,replicate_succ]
    exact congrArg _ (ih ht)

theorem mark_never (n : Nat) {r : Repair} {R : List Nat}
    (h : codePoints searchText=P++byteOrderMark::R) (hw : SearchWritten P r) :
    let s := (fun r => (appendSearchText revisionId cardId searchText r).repair)^[n] r
    ¬(¬s.repair_search_offset < (utf8 searchText).length ∧
      s.search_text=toWellFormed searchText) := by
  induction n generalizing r P R with
  | zero =>
    intro s
    rintro ⟨hfin,-⟩
    exact hfin ((hw.unfinished h).mpr (by simp))
  | succ n ih =>
    rw [Function.iterate_succ_apply]
    rcases append_written revisionId cardId h hw (by simp) with
      ⟨hf,-,hwritten,-⟩ | ⟨-,hsame,-⟩
    · obtain ⟨F,hF⟩ : ∃F,fitting (chunkRoom revisionId cardId) (byteOrderMark::R)=
          byteOrderMark::F := by
        rw [fitting] at hf ⊢
        split_ifs at hf ⊢
        · exact ⟨_,rfl⟩
        · exact absurd rfl hf
      have hpre := fitting_prefix (chunkRoom revisionId cardId) (byteOrderMark::R)
      rw [hF] at hpre
      obtain ⟨-,R',rfl⟩ := cons_prefix_cons.mp hpre
      rw [hF,dropMark_mark] at hwritten
      obtain ⟨hP,hQ⟩ := scalars_of h
      have hFs : ∀c∈F,isScalar c=true := fun c hc => hQ c (by simp [hc])
      intro s
      rintro ⟨hfin,htext⟩
      have hmarks : F=List.replicate F.length byteOrderMark := by
        obtain ⟨t,ht⟩ := iterate_grows revisionId cardId searchText n
          (appendSearchText revisionId cardId searchText r).repair
        rw [show _=toWellFormed searchText from htext,hwritten.1,toWellFormed,h,fromPoints_append,fromPoints_append,
          append_assoc] at ht
        have hc := congrArg codePoints (append_cancel_left ht)
        rw [codePoints_fromPoints hQ,codePoints_fromPoints_append hFs] at hc
        exact shifted_replicate hc.symm
      have hnext : codePoints searchText=(P++F)++byteOrderMark::R' := by
        have hcomm : byteOrderMark::F=F++[byteOrderMark] := by
          rw [hmarks,←replicate_succ,replicate_succ']
        rw [h,←cons_append,hcomm]
        simp
      exact ih hnext hwritten ⟨hfin,htext⟩
    · rw [hsame]
      exact ih h hw
end

section
variable {revisionId cardId searchText : JsString} {P Q : List Nat}

def Cut (room : Nat) (Q : List Nat) : Prop := ∀g∈pieces room Q,g≠[] ∧ g.head?≠some byteOrderMark

theorem Cut.head {room : Nat} (h : Cut room Q) (hQ : Q≠[]) : fitting room Q≠[] ∧
    (fitting room Q).head?≠some byteOrderMark ∧ Cut room (Q.drop (fitting room Q).length) := by
  have hf : fitting room Q≠[] := by
    intro hf
    have hp := pieces_stuck hQ hf
    exact (h [] (by rw [hp]; simp)).1 rfl
  rw [Cut,pieces_cons hf] at h
  exact ⟨hf,(h _ mem_cons_self).2,fun g hg => h g (mem_cons_of_mem _ hg)⟩

theorem split_fitting (room : Nat) (h : codePoints searchText=P++Q) :
    codePoints searchText=(P++fitting room Q)++Q.drop (fitting room Q).length := by
  rw [append_assoc,prefix_iff_eq_append.mp ( fitting_prefix room Q),h]

theorem append_cut {r : Repair} (h : codePoints searchText=P++Q) (hw : SearchWritten P r) (hQ : Q≠[])
    (hcut : Cut (chunkRoom revisionId cardId) Q)
    (hroom : (decimal (utf8 searchText).length).length ≤ chunkRoom revisionId cardId) :
    (appendSearchText revisionId cardId searchText r).error=none ∧
      SearchWritten (P++fitting (chunkRoom revisionId cardId) Q)
        (appendSearchText revisionId cardId searchText r).repair := by
  obtain ⟨hf,hmark,-⟩ := hcut.head hQ
  have hsplit := split_fitting (chunkRoom revisionId cardId) h
  rcases append_written revisionId cardId h hw hQ with ⟨-,-,hwritten,herror⟩ | ⟨hstuck,-⟩
  · rw [dropMark_other hmark] at hwritten
    exact ⟨herror,hwritten⟩
  · rw [dropMark_other hmark] at hstuck
    refine absurd hstuck (not_or.mpr ⟨hf,?_⟩)
    have hle : (bytesOf (P++fitting (chunkRoom revisionId cardId) Q)).length ≤
        (utf8 searchText).length := by
      rw [utf8_bytesOf,hsplit]
      exact bytesOf_prefix (prefix_append _ _)
    have := decimal_length_mono hle
    omega

def OnCourse (room : Nat) (searchText : JsString) (r : Repair) : Prop :=
  ∃P Q,codePoints searchText=P++Q ∧ SearchWritten P r ∧ Cut room Q

theorem OnCourse.next {r : Repair} (h : OnCourse (chunkRoom revisionId cardId) searchText r)
    (hroom : searchText≠[] →
      (decimal (utf8 searchText).length).length ≤ chunkRoom revisionId cardId) :
    (appendSearchText revisionId cardId searchText r).error=none ∧
      OnCourse (chunkRoom revisionId cardId) searchText
        (appendSearchText revisionId cardId searchText r).repair := by
  obtain ⟨P,Q,hpq,hw,hcut⟩ := h
  by_cases hQ : Q=[]
  · have hfin := mt (hw.unfinished hpq).mp (not_not.mpr hQ)
    rw [append_finished hfin]
    exact ⟨rfl,P,Q,hpq,hw,hcut⟩
  · have hne : searchText≠[] := by
      rintro rfl
      have : P=[] ∧ Q=[] := by simpa [codePoints] using hpq
      exact hQ this.2
    obtain ⟨herror,hwritten⟩ := append_cut hpq hw hQ hcut (hroom hne)
    exact ⟨herror,_,_,split_fitting _ hpq,hwritten,(hcut.head hQ).2.2⟩

theorem onCourse_ends {r : Repair} (h : codePoints searchText=P++Q) (hw : SearchWritten P r)
    (hcut : Cut (chunkRoom revisionId cardId) Q)
    (hroom : searchText≠[] →
      (decimal (utf8 searchText).length).length ≤ chunkRoom revisionId cardId) :
    ∃n,SearchWritten (codePoints searchText)
      ((fun r => (appendSearchText revisionId cardId searchText r).repair)^[n] r) := by
  induction hk : Q.length using Nat.strong_induction_on generalizing P Q r with
  | h k ih =>
    by_cases hQ : Q=[]
    · rw [hQ,append_nil] at h
      exact ⟨0,h ▸ hw⟩
    · have hne : searchText≠[] := by
        rintro rfl
        have : P=[] ∧ Q=[] := by simpa [codePoints] using h
        exact hQ this.2
      obtain ⟨-,hwritten⟩ := append_cut h hw hQ hcut (hroom hne)
      obtain ⟨hf,-,hrest⟩ := hcut.head hQ
      have hlen := length_pos_of_ne_nil hf
      have hlenQ := length_pos_of_ne_nil hQ
      obtain ⟨n,hn⟩ := ih (Q.drop (fitting (chunkRoom revisionId cardId) Q).length).length
        (by rw [length_drop]; omega) (split_fitting _ h) hwritten hrest rfl
      exact ⟨n+1,hn⟩

theorem lossless_of_cut (h : NoMarkAtCut (chunkRoom revisionId cardId) searchText) :
    Lossless revisionId cardId searchText := by
  have hstart : SearchWritten [] ⟨[],0⟩ := ⟨rfl,rfl⟩
  have course (n : Nat) : OnCourse (chunkRoom revisionId cardId) searchText
      (repairAfter revisionId cardId searchText n) := by
    induction n with
    | zero => exact ⟨[],_,rfl,hstart,h.1⟩
    | succ n ih => exact (ih.next h.2).2
  refine ⟨?_,fun n => ?_⟩
  · obtain ⟨n,hn⟩ := onCourse_ends rfl hstart h.1 h.2
    have hadd := repairAfter_add revisionId cardId searchText 0 n
    rw [Nat.zero_add] at hadd
    change SearchWritten _ (_^[n] (repairAfter revisionId cardId searchText 0)) at hn
    rw [←hadd] at hn
    refine ⟨n,?_,hn.1⟩
    rw [hn.2,utf8_bytesOf]
    exact Nat.lt_irrefl _
  · obtain ⟨P,Q,hpq,hw,-⟩ := course n
    exact ⟨((course n).next h.2).1,hw.stored hpq,P,⟨Q,hpq.symm⟩,hw.1⟩

theorem cut_of_lossless (h : Lossless revisionId cardId searchText) {k : Nat}
    (hpq : codePoints searchText=P++Q)
    (hw : SearchWritten P (repairAfter revisionId cardId searchText k)) :
    Cut (chunkRoom revisionId cardId) Q ∧ (Q≠[] →
      (decimal (utf8 searchText).length).length ≤ chunkRoom revisionId cardId) := by
  induction hlen : Q.length using Nat.strong_induction_on generalizing P Q k with
  | h m ih =>
    by_cases hQ : Q=[]
    · refine ⟨?_,fun hne => absurd hQ hne⟩
      rw [hQ,Cut,pieces]
      simp
    obtain ⟨hf,hroom,hwritten,-⟩ | ⟨-,-,herror⟩ := append_written revisionId cardId hpq hw hQ
    · have hmark : (fitting (chunkRoom revisionId cardId) Q).head?≠some byteOrderMark := by
        intro hm
        obtain ⟨F,hF⟩ := List.head?_eq_some_iff.mp hm
        obtain ⟨R,hR⟩ := fitting_prefix (chunkRoom revisionId cardId) Q
        rw [hF,cons_append] at hR
        rw [←hR] at hpq
        obtain ⟨n,hfin,htext⟩ := h.1
        rcases Nat.le_total n k with hle | hle
        · -- a repair that has ended stays as it is
          obtain ⟨d,rfl⟩ := Nat.exists_eq_add_of_le hle
          rw [repairAfter_add,finished_stays hfin] at hw
          exact hfin ((hw.unfinished hpq).mpr (by simp))
        · obtain ⟨d,rfl⟩ := Nat.exists_eq_add_of_le hle
          rw [repairAfter_add] at hfin htext
          exact mark_never d hpq hw ⟨hfin,htext⟩
      rw [dropMark_other hmark] at hroom hwritten
      have hsplit := split_fitting (chunkRoom revisionId cardId) hpq
      have hpos := length_pos_of_ne_nil hf
      have hposQ := length_pos_of_ne_nil hQ
      obtain ⟨hcut,hrest⟩ := ih _ (by rw [length_drop]; omega) hsplit
        (show SearchWritten _ (repairAfter revisionId cardId searchText (k+1)) from hwritten) rfl
      refine ⟨?_,fun _ => ?_⟩
      · intro g hg
        rw [pieces_cons hf] at hg
        rcases mem_cons.mp hg with rfl | hg
        · exact ⟨hf,hmark⟩
        · exact hcut g hg
      · by_cases hd : Q.drop (fitting (chunkRoom revisionId cardId) Q).length=[]
        · rw [hd,append_nil] at hsplit
          rw [utf8_bytesOf,hsplit]
          exact hroom
        · exact hrest hd
    · exact absurd (h.2 k).1 herror

/-- The repair of a card's search text is lossless exactly when no chunk is cut in front of a
U+FEFF, which the decoder would take for a byte order mark. -/
theorem lossless_iff (revisionId cardId searchText : JsString) : Lossless revisionId cardId
    searchText ↔ NoMarkAtCut (chunkRoom revisionId cardId) searchText := by
  refine ⟨fun h => ?_,lossless_of_cut⟩
  obtain ⟨hcut,hroom⟩ := cut_of_lossless (P := []) (Q := codePoints searchText) (k := 0) h rfl
    ⟨rfl,rfl⟩
  refine ⟨hcut,fun hne => hroom ?_⟩
  intro hnil
  have hpos : 0 < (codePoints searchText).length := by
    obtain ⟨u,us,rfl⟩ := exists_cons_of_ne_nil hne
    cases us with
    | nil => simp [codePoints]
    | cons v us =>
      rw [codePoints]
      split_ifs <;> simp
  rw [hnil] at hpos
  exact Nat.lt_irrefl 0 hpos

theorem mark_run_cut {room m : Nat} {R : List Nat}
    (h : codePoints searchText=P++(List.replicate m byteOrderMark++R))
    (hlo : (bytesOf P).length ≤ room) (hhi : room < (bytesOf P).length+3*m) :
    ¬NoMarkAtCut room searchText := by
  rintro ⟨hcut,-⟩
  have hmarks (k : Nat) : (bytesOf (List.replicate k byteOrderMark)).length=3*k := by
    induction k with
    | zero => rfl
    | succ k ih =>
      rw [replicate_succ,bytesOf_cons,length_append,ih,
        show (utf8Point byteOrderMark).length=3 by decide]
      omega
  obtain ⟨m',rfl⟩ : ∃m',m=m'+1 := ⟨m-1,by omega⟩
  have hne : P++(List.replicate (m'+1) byteOrderMark++R)≠[] := by simp
  rw [h] at hcut
  obtain ⟨-,-,hrest⟩ := Cut.head hcut hne
  obtain ⟨g,hg⟩ : P <+: fitting room (P++(List.replicate (m'+1) byteOrderMark++R)) :=
    fitting_most (prefix_append _ _) hlo
  have hpre := fitting_prefix room (P++(List.replicate (m'+1) byteOrderMark++R))
  have hb := fitting_bytes room (P++(List.replicate (m'+1) byteOrderMark++R))
  rw [←hg] at hpre hb hrest
  rw [prefix_append_right_inj] at hpre
  rw [bytesOf_append,length_append] at hb
  -- what the first chunk takes of the run is shorter than the run
  obtain ⟨k,hk,hgk⟩ : ∃k,k < m'+1 ∧ g=List.replicate k byteOrderMark := by
    rcases prefix_or_prefix_of_prefix hpre (prefix_append _ _) with hp | hp
    · obtain ⟨hle,heq⟩ := prefix_replicate_iff.mp hp
      refine ⟨g.length,?_,heq⟩
      rw [heq,hmarks] at hb
      omega
    · have := bytesOf_prefix hp
      rw [hmarks] at this
      omega
  have hdrop : (P++(List.replicate (m'+1) byteOrderMark++R)).drop (P++g).length=
      byteOrderMark::(List.replicate (m'-k) byteOrderMark++R) := by
    rw [hgk,length_append,length_replicate,drop_length_add_append,
      drop_append_of_le_length (by rw [length_replicate]; omega),drop_replicate,
      show m'+1-k=(m'-k)+1 by omega,replicate_succ,cons_append]
  rw [hdrop] at hrest
  obtain ⟨hf,hmark,-⟩ := hrest.head (by simp)
  rw [fitting] at hf hmark
  split_ifs at hf hmark
  · exact hmark rfl
  · exact hf rfl
end

-- A card whose rules text is 1980 times U+FDFA, which is searched as eighteen letters, and then a
-- hundred times U+FEFF.

def honorific : List Nat :=
  [0x635,0x644,0x649,0x20,0x627,0x644,0x644,0x647,0x20,0x639,0x644,0x64a,0x647,0x20,0x648,0x633,
    0x644,0x645]

/-- The text up to the rules: the identity `st1-01` and the name `a`. -/
def markedHead : List Nat := [91,34,115,116,49,45,48,49,34,44,34,97,34,44,34]

def markedPoints : List Nat :=
  (markedHead++(List.replicate 1980 honorific).flatten)++
    (List.replicate 100 byteOrderMark++[34,93])

theorem bytesOf_replicate (n : Nat) (cs : List Nat) :
    (bytesOf (List.replicate n cs).flatten).length=n*(bytesOf cs).length := by
  induction n with
  | zero => rw [Nat.zero_mul]; rfl
  | succ n ih =>
    rw [replicate_succ,flatten_cons,bytesOf_append,length_append,ih,Nat.succ_mul,Nat.add_comm]

theorem markedPoints_scalar : ∀c∈markedPoints,isScalar c=true := by
  have hhead : ∀c∈markedHead,isScalar c=true := by decide
  have hletters : ∀c∈honorific,isScalar c=true := by decide
  have htail : ∀c∈[34,93],isScalar c=true := by decide
  intro c hc
  rw [markedPoints,mem_append,mem_append,mem_append] at hc
  rcases hc with (hc | hc) | hc | hc
  · exact hhead c hc
  · obtain ⟨l,hl,hc⟩ := mem_flatten.mp hc
    rw [(mem_replicate.mp hl).2] at hc
    exact hletters c hc
  · rw [(mem_replicate.mp hc).2]
    decide
  · exact htail c hc

theorem marked_text_not_repaired :
    ¬Lossless (js "catalogue-1".toList) (js "card-1".toList) (fromPoints markedPoints) := by
  have hroom : chunkRoom (js "catalogue-1".toList) (js "card-1".toList)=65519 := by decide
  have hhead : (bytesOf markedHead).length=15 := by decide
  have hletters : (bytesOf honorific).length=33 := by decide
  have hpoints := codePoints_fromPoints markedPoints_scalar
  nth_rewrite 2 [markedPoints] at hpoints
  rw [lossless_iff,hroom]
  refine mark_run_cut hpoints ?_ ?_
  · rw [bytesOf_append,length_append,bytesOf_replicate,hhead,hletters]
    omega
  · rw [bytesOf_append,length_append,bytesOf_replicate,hhead,hletters]
    omega

end CardKeepr.Ingestion
