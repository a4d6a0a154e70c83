import CardKeepr.Lib.References
import CardKeepr.Shared.JsonParse
import Mathlib.Data.List.Pairwise

namespace CardKeepr.Adapters
open Shared Lib Lib.References List

def knownFields : List JsString :=
  ["announcement_id","ap","artwork_fingerprint","attribute","attributes","battle_attributes",
    "block_icon","block_icons","bucket","calendarEntryId","card_details","card_index",
    "card_number","card_pages","card_popups","card_type","cardcategory","cards","category",
    "code","color","colour","colours","combo_power","cost","count","counter","date","detail",
    "detailSearch","detail_pages","detail_path","digivolution_requirements","distribution","dp",
    "dual_colours","dual_cost","effect_text","entries","facets","filters","form","has_next","hp",
    "image","image_url","image_urls","kind","label","leader_faces","level","life",
    "link_condition","link_dp","name","normalizedRarity","normalized_rarity","number",
    "package_options","page","page_info","pages","partitions","path","play_cost","popup_id",
    "power","precision","printed_fields_digest","printed_rules","printing","product",
    "productCode","productId","productName","productTitle","product_code","product_codes",
    "product_name","products","rarity","region","release","releaseEventId","releaseId",
    "result_cap","revision","role","rules","series_options","sha256","skills","skills_text",
    "source_record_id","special_traits","specified_cost","status","text","text_sections","title",
    "total","traits","trigger_text","url","use_cost","value","variant","version_options",
    "zone"].map fun n => js n.toList

structure RawLeaf where
  path : JsString
  value : Json

mutual

def leafEntries : Json → JsString → List RawLeaf
  | .arr [],path => [⟨path,.arr []⟩]
  | .arr (v::vs),path => itemEntries (v::vs) 0 path
  | .obj [],path => [⟨path,.obj []⟩]
  | .obj (m::ms),path => memberEntries (m::ms) path
  | v,path => [⟨path,v⟩]

def itemEntries : List Json → Nat → JsString → List RawLeaf
  | [],_,_ => []
  | v::vs,i,path => leafEntries v (path++([91]++decimal i++[93]))++itemEntries vs (i+1) path

def memberEntries : List (JsString × Json) → JsString → List RawLeaf
  | [],_ => []
  | (k,v)::ms,path => leafEntries v (path++46::k)++memberEntries ms path

end

/-- `/\[\d+\]/gu` -/
def bracketAt : JsString → Option Nat
  | 91::s =>
    let digits := s.takeWhile isDigit
    if digits≠[] ∧ (s.drop digits.length).head?=some 93 then some (digits.length+2) else none
  | _ => none

def withoutBrackets (path : JsString) : JsString := replaceFound bracketAt (fun _ => []) path

def isMapped (rootDepth : Nat) (leaf : RawLeaf) : Bool :=
  (((withoutBrackets leaf.path).splitOn 46).drop rootDepth).all fun field => knownFields.contains field

structure Coverage where
  consumed : List JsString
  unmapped : List RawLeaf

def partitionMappedOfficialLeaves (value : Json) (path : JsString) : Coverage :=
  let rootDepth := (path.splitOn 46).length
  let leaves := leafEntries value path
  ⟨(leaves.filter (isMapped rootDepth)).map (·.path),leaves.filter fun leaf => !isMapped rootDepth leaf⟩

/-- A document as `JSON.parse` gives it. -/
structure Document where
  value : Json
  own : value.Own

inductive Step where
  | index (i : Nat)
  | key (k : JsString)
deriving DecidableEq

abbrev Route := List Step

def Step.text : Step → JsString
  | .index i => [91]++decimal i++[93]
  | .key k => 46::k

def spelt (r : Route) : JsString := r.flatMap Step.text

def Step.key? : Step → Option JsString
  | .index _ => none
  | .key k => some k

def keys (r : Route) : List JsString := r.filterMap Step.key?

mutual

def leaves : Json → List (Route × Json)
  | .arr [] => [([],.arr [])]
  | .arr (v::vs) => itemLeaves 0 (v::vs)
  | .obj [] => [([],.obj [])]
  | .obj (m::ms) => memberLeaves (m::ms)
  | v => [([],v)]

def itemLeaves : Nat → List Json → List (Route × Json)
  | _,[] => []
  | i,v::vs => (leaves v).map (fun l => (.index i::l.1,l.2))++itemLeaves (i+1) vs

def memberLeaves : List (JsString × Json) → List (Route × Json)
  | [] => []
  | (k,v)::ms => (leaves v).map (fun l => (.key k::l.1,l.2))++memberLeaves ms

end

def located (path : JsString) (l : Route × Json) : JsString := path++spelt l.1

/-- The report accounts for every leaf of the document. -/
structure Accounts (doc : Document) (path : JsString) (report : Coverage) : Prop where
  once : ∀l∈leaves doc.value,(located path l∈report.consumed ↔ ⟨located path l,l.2⟩∉report.unmapped)
  all : (report.consumed++report.unmapped.map (·.path)).Perm
    ((leaves doc.value).map (located path))
  distinct : ((leaves doc.value).map (located path)).Nodup
  mapped : ∀l∈leaves doc.value,(located path l∈report.consumed ↔ ∀k∈keys l.1,k∈knownFields)

def pieces (k : JsString) : List JsString := (withoutBrackets k).splitOn 46

/-- Some key of the route is unknown and all pieces of its keys are known. -/
def Disguised (r : Route) : Prop :=
  (∃k∈keys r,k∉knownFields) ∧ ∀k∈keys r,∀p∈pieces k,p∈knownFields

/-- Some object has a member whose name goes on from another one's by what a path below spells. -/
inductive Clashes : Json → Prop
  | here {ms : List (JsString × Json)} {m m' : JsString × Json} {w : JsString}
      {l l' : Route × Json} : m∈ms → m'∈ms → w≠[] → m'.1=m.1++w → l∈leaves m.2 →
      l'∈leaves m'.2 → spelt l.1=w++spelt l'.1 → Clashes (.obj ms)
  | item {vs : List Json} {v : Json} : v∈vs → Clashes v → Clashes (.arr vs)
  | member {ms : List (JsString × Json)} {m : JsString × Json} : m∈ms → Clashes m.2 →
      Clashes (.obj ms)

def entry (path : JsString) (l : Route × Json) : RawLeaf := ⟨located path l,l.2⟩

mutual

theorem leafEntries_eq (v : Json) (path : JsString) :
    leafEntries v path=(leaves v).map (entry path) := by
  cases v with
  | null | bool | num | str => simp [leafEntries,leaves,entry,located,spelt]
  | arr vs =>
    cases vs with
    | nil => simp [leafEntries,leaves,entry,located,spelt]
    | cons v vs =>
      rw [leafEntries,leaves]
      exact itemEntries_eq (v::vs) 0 path
  | obj ms =>
    cases ms with
    | nil => simp [leafEntries,leaves,entry,located,spelt]
    | cons m ms =>
      rw [leafEntries,leaves]
      exact memberEntries_eq (m::ms) path

theorem itemEntries_eq (vs : List Json) (i : Nat) (path : JsString) :
    itemEntries vs i path=(itemLeaves i vs).map (entry path) := by
  cases vs with
  | nil => simp [itemEntries,itemLeaves]
  | cons v vs =>
    rw [itemEntries,itemLeaves,leafEntries_eq v,itemEntries_eq vs (i+1) path,map_append,map_map]
    simp [entry,located,spelt,Step.text]

theorem memberEntries_eq (ms : List (JsString × Json)) (path : JsString) :
    memberEntries ms path=(memberLeaves ms).map (entry path) := by
  cases ms with
  | nil => simp [memberEntries,memberLeaves]
  | cons m ms =>
    obtain ⟨k,v⟩ := m
    rw [memberEntries,memberLeaves,leafEntries_eq v,memberEntries_eq ms path,map_append,map_map]
    simp [entry,located,spelt,Step.text]

end

theorem brackets : Delimits 91 93 isDigit where
  apart := by decide
  opening := by decide
  closing := by decide

def isIndex (b : JsString) : Bool := !b.isEmpty && b.all isDigit

theorem isIndex_iff {b : JsString} : isIndex b=true ↔ b≠[] ∧ ∀u∈b,isDigit u=true := by
  simp [isIndex]

theorem bracket_reads : Reads 91 93 isDigit bracketAt (fun b => isIndex b=true) where
  named _ h := (isIndex_iff.mp h).2
  other := by
    intro u s hu
    unfold bracketAt
    split
    · rename_i heq
      exact absurd (List.cons.inj heq).1 hu
    · rfl
  known := by
    intro b s h
    obtain ⟨hne,hdigits⟩ := isIndex_iff.mp h
    have hshape : reference 91 93 b++s=91::(b++93::s) := by simp [reference]
    have hdrop : (b++93::s).drop b.length=93::s := by simp
    have hbody : (b++93::s).takeWhile isDigit=b := takeWhile_body brackets.closing hdigits
    rw [hshape,bracketAt,hbody]
    simp [hne,hdrop,reference]
  only := by
    intro s n h
    rw [bracketAt] at h
    simp only [drop_takeWhile] at h
    split at h
    · rename_i hcond
      obtain ⟨hne,hhead⟩ := hcond
      obtain ⟨t,ht⟩ := head_closes hhead
      have hsplit := takeWhile_append_dropWhile (p := isDigit) (l := s)
      rw [ht] at hsplit
      exact ⟨_,t,isIndex_iff.mpr ⟨hne,fun u hu => mem_takeWhile_imp hu⟩,hsplit.symm⟩
    · cases h

theorem withoutBrackets_append (s : JsString) {t : JsString} (h : ∀u r,t=u::r → u=46 ∨ u=91) :
    withoutBrackets (s++t)=withoutBrackets s++withoutBrackets t := by
  apply replaceFound_append brackets bracket_reads
  intro u r ht
  rcases h u r ht with rfl | rfl <;> decide

theorem spelt_cons (x : Step) (r : Route) : spelt (x::r)=x.text++spelt r := rfl

theorem spelt_head (r : Route) : ∀u s,spelt r=u::s → u=46 ∨ u=91 := by
  intro u s h
  cases r with
  | nil => cases h
  | cons x r =>
    rw [spelt_cons] at h
    cases x with
    | index i => exact .inr (List.cons.inj h).1.symm
    | key k => exact .inl (List.cons.inj h).1.symm

theorem withoutBrackets_index (i : Nat) : withoutBrackets (Step.index i).text=[] := by
  have hk : isIndex (decimal i)=true := by
    obtain ⟨u,us,hu,-⟩ := decimal_head i
    exact isIndex_iff.mpr ⟨by rw [hu]; simp,decimal_digits i⟩
  have hts : Apart 91 93 isDigit [Token.ref (decimal i)] := ⟨decimal_digits i,trivial⟩
  have hflat : (Step.index i).text=flat 91 93 [Token.ref (decimal i)] := by
    simp [Step.text,Token.text,reference]
  rw [withoutBrackets,hflat,replaceFound_flat brackets bracket_reads _ hts]
  simp [Token.replaced,hk]

theorem withoutBrackets_key (k : JsString) :
    withoutBrackets (Step.key k).text=46::withoutBrackets k := by
  have hnone : bracketAt (46::k)=none := bracket_reads.other 46 k (by decide)
  rw [withoutBrackets,Step.text,replaceFound,parts_kept hnone]
  rfl

theorem withoutBrackets_spelt (r : Route) :
    withoutBrackets (spelt r)=(keys r).flatMap fun k => 46::withoutBrackets k := by
  induction r with
  | nil => rfl
  | cons x r ih =>
    rw [spelt_cons,withoutBrackets_append _ (spelt_head r),ih]
    cases x with
    | index i =>
      rw [withoutBrackets_index]
      rfl
    | key k =>
      rw [withoutBrackets_key]
      rfl

theorem splitOn_keys (s : JsString) (ks : List JsString) :
    (s++ks.flatMap fun k => 46::withoutBrackets k).splitOn 46= s.splitOn 46++ks.flatMap pieces := by
  induction ks generalizing s with
  | nil => simp
  | cons k ks ih =>
    rw [flatMap_cons,flatMap_cons,cons_append,splitOn_append_cons_self,ih]
    rfl

theorem length_splitOn (s : JsString) : (s.splitOn 46).length=s.count 46+1 := by
  induction s with
  | nil => simp
  | cons u s ih =>
    rw [splitOn_cons_eq_if_modifyHead,count_cons]
    split
    · simp [ih]
    · simp [ih]

theorem count_withoutBrackets (s : JsString) : (withoutBrackets s).count 46=s.count 46 := by
  obtain ⟨ts,hts,rfl⟩ := exists_apart 91 93 isDigit s
  rw [withoutBrackets,replaceFound_flat brackets bracket_reads _ hts]
  clear hts
  induction ts with
  | nil => rfl
  | cons t ts ih =>
    rw [flatMap_cons,flat_cons,count_append,count_append,ih]
    congr 1
    cases t with
    | unit u => rfl
    | ref b =>
      rw [Token.replaced]
      split
      · rename_i hk
        have hdot : (46 : UInt16)∉reference 91 93 b := by
          intro hm
          rcases mem_cons.mp hm with h | hm
          · cases h
          · rcases mem_append.mp hm with hm | hm
            · exact absurd ((isIndex_iff.mp hk).2 46 hm) (by decide)
            · exact absurd (mem_singleton.mp hm) (by decide)
        rw [Token.text,count_eq_zero_of_not_mem hdot]
        rfl
      · rfl

theorem lookedUp (path : JsString) (r : Route) : ((withoutBrackets (path++spelt r)).splitOn 46).drop
    (path.splitOn 46).length= (keys r).flatMap pieces := by
  have hlen : (path.splitOn 46).length=((withoutBrackets path).splitOn 46).length := by
    rw [length_splitOn,length_splitOn,count_withoutBrackets]
  rw [withoutBrackets_append _ (spelt_head r),withoutBrackets_spelt,splitOn_keys,hlen,drop_left]

theorem isMapped_iff (path : JsString) (l : Route × Json) : isMapped (path.splitOn 46).length
    (entry path l)=true ↔ ∀k∈keys l.1,∀p∈pieces k,p∈knownFields := by
  rw [isMapped,entry,located,lookedUp]
  simp only [all_eq_true,mem_flatMap,contains_iff_mem]
  constructor
  · intro h k hk p hp
    exact h p ⟨k,hk,hp⟩
  · rintro h p ⟨k,hk,hp⟩
    exact h k hk p hp

theorem known_plain {k : JsString} (h : k∈knownFields) : (46 : UInt16)∉k ∧ (91 : UInt16)∉k := by
  have hall : knownFields.all (fun k => !k.contains 46 && !k.contains 91)=true := by
    decide +kernel
  simpa using all_eq_true.mp hall k h

theorem pieces_known {k : JsString} (h : k∈knownFields) : pieces k=[k] := by
  obtain ⟨hdot,hopen⟩ := known_plain h
  have hkept : withoutBrackets k=k := by
    have hparts := parts_inert (s := []) bracket_reads hopen
    rw [append_nil] at hparts
    rw [withoutBrackets,replaceFound,hparts,flatMap_append,kept_substituted]
    simp [parts_nil]
  rw [pieces,hkept,splitOn_eq_singleton hdot]

def paths (v : Json) : List JsString := (leaves v).map fun l => spelt l.1

theorem paths_items (i : Nat) (vs : List Json) :
    ((itemLeaves i vs).map fun l => spelt l.1).Nodup ↔ ∀v∈vs,(paths v).Nodup := by
  have later : ∀(vs : List Json) (i : Nat),∀s∈(itemLeaves i vs).map (fun l => spelt l.1),
      ∃j p,i ≤ j ∧ s=(Step.index j).text++p := by
    intro vs
    induction vs with
    | nil => intro i s hs; cases hs
    | cons v vs ih =>
      intro i s hs
      rw [itemLeaves,map_append,mem_append,map_map] at hs
      rcases hs with hs | hs
      · obtain ⟨l,-,rfl⟩ := mem_map.mp hs
        exact ⟨i,spelt l.1,Nat.le_refl i,rfl⟩
      · obtain ⟨j,p,hj,rfl⟩ := ih (i+1) s hs
        exact ⟨j,p,by omega,rfl⟩
  induction vs generalizing i with
  | nil => simp [itemLeaves]
  | cons v vs ih =>
    have hfirst : ((leaves v).map fun l => (Step.index i::l.1,l.2)).map (fun l => spelt l.1)=
        (paths v).map ((Step.index i).text++·) := by
      simp [paths,spelt,map_map,Function.comp_def]
    have hapart : List.Disjoint ((paths v).map ((Step.index i).text++·))
        ((itemLeaves (i+1) vs).map fun l => spelt l.1) := by
      intro s hs hs'
      obtain ⟨p,-,rfl⟩ := mem_map.mp hs
      obtain ⟨j,q,hj,heq⟩ := later vs (i+1) _ hs'
      have hbody : decimal i++93::p=decimal j++93::q := by simpa [Step.text] using heq
      have hij := decimal_inj (body_unique brackets (decimal_digits i) (decimal_digits j) hbody).1
      omega
    have hinj : Function.Injective ((Step.index i).text++·) :=
      fun s t h => append_cancel_left h
    have hrest := ih (i+1)
    rw [itemLeaves,map_append,hfirst,nodup_append',nodup_map_iff hinj,forall_mem_cons]
    constructor
    · rintro ⟨hv,hvs,-⟩
      exact ⟨hv,hrest.mp hvs⟩
    · rintro ⟨hv,hvs⟩
      exact ⟨hv,hrest.mpr hvs,hapart⟩

theorem paths_members (ms : List (JsString × Json)) : ((memberLeaves ms).map fun l => spelt l.1)=
      ms.flatMap fun m => (paths m.2).map ((Step.key m.1).text++·) := by
  induction ms with
  | nil => rfl
  | cons m ms ih =>
    rw [memberLeaves,map_append,ih,flatMap_cons]
    simp [paths,spelt,map_map,Function.comp_def]

theorem clash_of_shared {ms : List (JsString × Json)} {m m' : JsString × Json} (hm : m∈ms)
    (hm' : m'∈ms) (hne : m.1≠m'.1) {l l' : Route × Json} (hl : l∈leaves m.2)
    (hl' : l'∈leaves m'.2) (h : m.1++spelt l.1=m'.1++spelt l'.1) : Clashes (.obj ms) := by
  rcases append_eq_append_iff.mp h with ⟨w,hw,hs⟩ | ⟨w,hw,hs⟩
  · have hnil : w≠[] := by
      rintro rfl
      exact hne (by rw [hw,append_nil])
    exact .here hm hm' hnil hw hl hl' hs
  · have hnil : w≠[] := by
      rintro rfl
      exact hne (by rw [hw,append_nil])
    exact .here hm' hm hnil hw hl' hl hs

theorem paths_object {ms : List (JsString × Json)} (hkeys : (ms.map Prod.fst).Nodup)
    (ih : ∀m∈ms,((paths m.2).Nodup ↔ ¬Clashes m.2)) :
    ((memberLeaves ms).map fun l => spelt l.1).Nodup ↔ ¬Clashes (.obj ms) := by
  have hinj : ∀k,Function.Injective ((Step.key k).text++·) :=
    fun k s t h => append_cancel_left h
  rw [paths_members,nodup_flatMap]
  constructor
  · rintro ⟨hall,hapart⟩ hclash
    cases hclash with
    | @here _ m m' w l l' hm hm' hw hname hl hl' hs =>
      have hne : m≠m' := by
        rintro rfl
        have hlen := congrArg List.length hname
        have hpos := length_pos_iff.mpr hw
        rw [length_append] at hlen
        omega
      have hsymm : Std.Symm (Function.onFun List.Disjoint fun m : JsString × Json =>
          (paths m.2).map ((Step.key m.1).text++·)) := ⟨fun _ _ h _ hs hs' => h hs' hs⟩
      have hdisjoint := hapart.forall hm hm' hne
      refine hdisjoint (a := (Step.key m.1).text++spelt l.1) ?_ ?_
      · exact mem_map.mpr ⟨_,mem_map.mpr ⟨l,hl,rfl⟩,rfl⟩
      · refine mem_map.mpr ⟨_,mem_map.mpr ⟨l',hl',rfl⟩,?_⟩
        rw [hs]
        simp [Step.text,hname]
    | member hm hc =>
      have hnodup := (nodup_map_iff (hinj _)).mp (hall _ hm)
      exact (ih _ hm).mp hnodup hc
  · intro h
    refine ⟨fun m hm => ?_,?_⟩
    · rw [nodup_map_iff (hinj _),ih m hm]
      exact fun hc => h (.member hm hc)
    · have hpair : ms.Pairwise fun m m' => m.1≠m'.1 := pairwise_map.mp hkeys
      refine hpair.imp_of_mem fun hm hm' hne => ?_
      intro s hs hs'
      obtain ⟨_,hp,rfl⟩ := mem_map.mp hs
      obtain ⟨_,hp',heq⟩ := mem_map.mp hs'
      obtain ⟨l,hl,rfl⟩ := mem_map.mp hp
      obtain ⟨l',hl',rfl⟩ := mem_map.mp hp'
      exact h (clash_of_shared hm hm' hne hl hl' (by simpa [Step.text] using heq.symm))

theorem paths_nodup (v : Json) (hv : v.Own) : (paths v).Nodup ↔ ¬Clashes v := by
  have alone : ∀w : Json,(paths w)=[[]] → (¬Clashes w) → ((paths w).Nodup ↔ ¬Clashes w) := by
    intro w hp hc
    rw [hp]
    simp [hc]
  induction v using Json.induct with
  | null => exact alone _ (by simp [paths,leaves,spelt]) fun h => by cases h
  | bool b => exact alone _ (by simp [paths,leaves,spelt]) fun h => by cases h
  | num q => exact alone _ (by simp [paths,leaves,spelt]) fun h => by cases h
  | str s => exact alone _ (by simp [paths,leaves,spelt]) fun h => by cases h
  | arr vs ih =>
    cases vs with
    | nil =>
      refine alone _ (by simp [paths,leaves,spelt]) fun h => ?_
      cases h with
      | item hv _ => cases hv
    | cons v vs =>
      have hown := (all_arr (v::vs)).mp hv
      rw [paths,leaves,paths_items]
      constructor
      · intro h hc
        cases hc with
        | item hw hc => exact (ih _ hw (hown _ hw)).mp (h _ hw) hc
      · intro h w hw
        exact (ih w hw (hown w hw)).mpr fun hc => h (.item hw hc)
  | obj ms ih =>
    cases ms with
    | nil =>
      refine alone _ (by simp [paths,leaves,spelt]) fun h => ?_
      cases h with
      | here hm _ _ _ _ _ _ => cases hm
      | member hm _ => cases hm
    | cons m ms =>
      have hown := (all_obj (m::ms)).mp hv
      rw [paths,leaves]
      exact paths_object hown.1.1 fun m hm => ih m hm (hown.2 m hm)

theorem consumed_iff (v : Json) (path : JsString) {l : Route × Json} (hl : l∈leaves v) :
    located path l∈(partitionMappedOfficialLeaves v path).consumed ↔
      isMapped (path.splitOn 46).length (entry path l)=true := by
  rw [partitionMappedOfficialLeaves,leafEntries_eq]
  constructor
  · intro h
    obtain ⟨e,he,hpath⟩ := mem_map.mp h
    obtain ⟨-,hmapped⟩ := mem_filter.mp he
    rw [isMapped,hpath] at hmapped
    exact hmapped
  · intro h
    exact mem_map.mpr ⟨entry path l,mem_filter.mpr ⟨mem_map_of_mem hl,h⟩,rfl⟩

theorem unmapped_iff (v : Json) (path : JsString) {l : Route × Json} (hl : l∈leaves v) :
    entry path l∈(partitionMappedOfficialLeaves v path).unmapped ↔
      ¬isMapped (path.splitOn 46).length (entry path l)=true := by
  rw [partitionMappedOfficialLeaves,leafEntries_eq,mem_filter]
  constructor
  · rintro ⟨-,h⟩ hm
    rw [hm] at h
    cases h
  · intro h
    rw [Bool.not_eq_true] at h
    exact ⟨mem_map_of_mem hl,by rw [h]; rfl⟩

theorem report_all (v : Json) (path : JsString) : ((partitionMappedOfficialLeaves v path).consumed++
      (partitionMappedOfficialLeaves v path).unmapped.map (·.path)).Perm
      ((leaves v).map (located path)) := by
  have hperm := filter_append_perm (isMapped (path.splitOn 46).length) (leafEntries v path)
  have hpaths : (leafEntries v path).map (·.path)=(leaves v).map (located path) := by
    rw [leafEntries_eq,map_map]
    rfl
  rw [partitionMappedOfficialLeaves,←map_append,←hpaths]
  exact hperm.map _

/-- The report accounts for every leaf exactly where no way is disguised by the pieces of its keys
and no two ways are spelt the same across the names of siblings. -/
theorem accounts_iff (doc : Document) (path : JsString) :
    Accounts doc path (partitionMappedOfficialLeaves doc.value path) ↔
      (∀l∈leaves doc.value,¬Disguised l.1) ∧ ¬Clashes doc.value := by
  have hdistinct : ((leaves doc.value).map (located path)).Nodup ↔ ¬Clashes doc.value := by
    have hinj : Function.Injective (path++·) := fun s t h => append_cancel_left h
    have hmap : (leaves doc.value).map (located path)=(paths doc.value).map (path++·) := by
      rw [paths,map_map]
      rfl
    rw [hmap,nodup_map_iff hinj,paths_nodup doc.value doc.own]
  constructor
  · intro h
    refine ⟨?_,hdistinct.mp h.distinct⟩
    rintro l hl ⟨⟨k,hk,hun⟩,hpieces⟩
    have hmapped := (consumed_iff doc.value path hl).mpr ((isMapped_iff path l).mpr hpieces)
    exact hun ((h.mapped l hl).mp hmapped k hk)
  · rintro ⟨hplain,hclash⟩
    refine ⟨fun l hl => ?_,report_all doc.value path,hdistinct.mpr hclash,fun l hl => ?_⟩
    · have hun := unmapped_iff doc.value path hl
      rw [consumed_iff doc.value path hl,show (⟨located path l,l.2⟩ : RawLeaf)=entry path l from rfl,
        hun,not_not]
    · rw [consumed_iff doc.value path hl,isMapped_iff]
      constructor
      · intro hpieces k hk
        by_contra hun
        exact hplain l hl ⟨⟨k,hk,hun⟩,hpieces⟩
      · intro hknown k hk p hp
        rw [pieces_known (hknown k hk),mem_singleton] at hp
        rw [hp]
        exact hknown k hk

/-- One unknown field whose pieces are known. -/
def dottedField : Document := ⟨_,Json.own_Own (.obj [(js "title.text".toList,.bool true)])⟩

/-- Two leaves that are both reported as `a.b`. -/
def sharedPath : Document := ⟨_,Json.own_Own
  (.obj [(js "a".toList,.obj [(js "b".toList,.bool true)]),(js "a.b".toList,.bool false)])⟩

theorem leaves_unaccounted :
    ¬Accounts dottedField (js "raw".toList)
        (partitionMappedOfficialLeaves dottedField.value (js "raw".toList)) ∧
      ¬Accounts sharedPath (js "raw".toList)
        (partitionMappedOfficialLeaves sharedPath.value (js "raw".toList)) := by
  constructor
  · intro h
    have hleaves : leaves dottedField.value=[([.key (js "title.text".toList)],.bool true)] := rfl
    have hleaf := h.mapped ([.key (js "title.text".toList)],.bool true) (by rw [hleaves]; simp)
    have hconsumed : (partitionMappedOfficialLeaves dottedField.value (js "raw".toList)).consumed=
        [js "raw.title.text".toList] := by decide +kernel
    have hknown := hleaf.mp (by rw [hconsumed]; exact mem_singleton.mpr rfl)
      (js "title.text".toList) (mem_singleton.mpr rfl)
    exact (known_plain hknown).1 (by decide)
  · intro h
    have hpaths : (leaves sharedPath.value).map (located (js "raw".toList))=
        [js "raw.a.b".toList,js "raw.a.b".toList] := by decide
    have hdistinct := h.distinct
    rw [hpaths] at hdistinct
    exact absurd hdistinct (by decide)

end CardKeepr.Adapters
