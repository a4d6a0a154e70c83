import Mathlib.Data.List.Dedup
import CardKeepr.Reconciliation.RulesTextErrata

namespace CardKeepr.Reconciliation.Errata
open Lib Shared Reconciliation.Product List

/-- The order of two keys by code units. -/
abbrev KeyLe {α : Type} (key : α → JsString) (a b : α) : Prop :=
  compareUnits (key a) (key b) ≤ 0

instance {α : Type} (key : α → JsString) : Std.Total (KeyLe key) where
  total a b := by
    have hs := compareUnits_swap (key a) (key b)
    rcases le_or_gt (compareUnits (key a) (key b)) 0 with h | h
    · exact .inl h
    · exact .inr (by omega)

instance {α : Type} (key : α → JsString) : IsTrans α (KeyLe key) where
  trans _ _ _ := compareUnits_trans

theorem keyLe_antisymm {a b : JsString} (h : compareUnits a b ≤ 0) (k : compareUnits b a ≤ 0) :
    a=b := by
  have hs := compareUnits_swap a b
  exact compareUnits_eq (by omega)

variable {C : Type} {nfc : Nfc} {locale : CodePointLocale}

theorem sort_units {α : Type} {key : α → JsString} {values : List α}
    (h : ∀a∈values,isAscii (key a)=true) :
    locale.sort key values=values.insertionSort (KeyLe key) := by
  refine insertionSort_congr (pairwise_of_forall_mem_list fun a ha b hb => ?_)
  exact locale.ascii _ _ (h a ha) (h b hb)

theorem sort_keys {α : Type} (key : α → JsString) {xs ys : List α} (h : xs.Perm ys) :
    (xs.insertionSort (KeyLe key)).map key=(ys.insertionSort (KeyLe key)).map key := by
  have hsorted : ∀l : List α,((l.insertionSort (KeyLe key)).map key).Pairwise
      fun a b => compareUnits a b ≤ 0 := by
    intro l
    exact pairwise_map.mpr (pairwise_insertionSort (KeyLe key) l)
  have hperm := (((perm_insertionSort (KeyLe key) xs).trans h).trans
    (perm_insertionSort (KeyLe key) ys).symm).map key
  exact hperm.eq_of_pairwise (fun a b _ _ => keyLe_antisymm) (hsorted xs) (hsorted ys)

theorem sorted_eq {α : Type} (key : α → JsString) {xs ys : List α}
    (hx : xs.Pairwise fun a b => compareUnits (key a) (key b) < 0)
    (hy : ys.Pairwise fun a b => compareUnits (key a) (key b) < 0) (h : ∀a,a∈xs ↔ a∈ys) :
    xs=ys := by
  have hself : ∀k,compareUnits k k=0 := by
    intro k
    have := compareUnits_swap k k
    omega
  have hirrefl : Std.Irrefl fun a b => compareUnits (key a) (key b) < 0 :=
    ⟨fun a ha => by rw [hself] at ha; omega⟩
  have hanti : Std.Antisymm fun a b => compareUnits (key a) (key b) < 0 := by
    refine ⟨fun a b hab hba => ?_⟩
    have := compareUnits_swap (key a) (key b)
    omega
  exact hx.eq_of_mem_iff hy h

theorem sorted_strict {α : Type} {key : α → JsString} {xs : List α} (h : (xs.map key).Nodup) :
    (xs.insertionSort (KeyLe key)).Pairwise fun a b => compareUnits (key a) (key b) < 0 := by
  have hnodup : ((xs.insertionSort (KeyLe key)).map key).Nodup :=
    ((perm_insertionSort (KeyLe key) xs).map key).nodup_iff.mpr h
  have hle := pairwise_insertionSort (KeyLe key) xs
  have hne : (xs.insertionSort (KeyLe key)).Pairwise fun a b => key a≠key b :=
    pairwise_map.mp hnodup
  refine (hle.and hne).imp fun {a b} hab => ?_
  have h0 : compareUnits (key a) (key b)≠0 := fun e => hab.2 (compareUnits_eq e)
  have h1 := hab.1
  omega

/-- The place of a date, before all others where there is none. -/
def datePoint (d : Option CalendarDate) : Nat := (d.map fun d => d.rank+1).getD 0

theorem CalendarDate.before {d e : CalendarDate} (h : d.rank < e.rank) (x y : JsString) :
    compareUnits (d.text++x) (e.text++y) < 0 := by
  obtain ⟨y1,m1,d1,hy1,hm1,hd1⟩ := d
  obtain ⟨y2,m2,d2,hy2,hm2,hd2⟩ := e
  simp only [CalendarDate.rank] at h
  simp only [CalendarDate.text,append_assoc,cons_append]
  rw [padded_before (w := 4) hy1 hy2,compareUnits_cons,padded_before (w := 2) hm1 hm2,
    compareUnits_cons,padded_before (w := 2) hd1 hd2]
  omega

theorem CalendarDate.text_inj {d e : CalendarDate} (h : d.text=e.text) : d=e := by
  have hself : compareUnits (d.text++[]) (e.text++[])=0 := by
    have := compareUnits_swap (d.text++[]) (e.text++[])
    rw [h] at this ⊢
    omega
  have hr : d.rank=e.rank := by
    rcases Nat.lt_trichotomy d.rank e.rank with hlt | he | hlt
    · have := CalendarDate.before hlt [] []
      omega
    · exact he
    · have := CalendarDate.before hlt [] []
      rw [compareUnits_swap] at this
      omega
  obtain ⟨y1,m1,d1,hy1,hm1,hd1⟩ := d
  obtain ⟨y2,m2,d2,hy2,hm2,hd2⟩ := e
  simp only [CalendarDate.rank] at hr
  obtain rfl : y1=y2 := by omega
  obtain rfl : m1=m2 := by omega
  obtain rfl : d1=d2 := by omega
  rfl

theorem CalendarDate.text_ne_nil (d : CalendarDate) : d.text≠[] := by
  intro h
  have := congrArg List.length h
  simp [CalendarDate.text] at this

theorem dateText_inj {d e : Option CalendarDate} (h : dateText d=dateText e) : d=e := by
  cases d with
  | none =>
    cases e with
    | none => rfl
    | some e => exact absurd h.symm e.text_ne_nil
  | some d =>
    cases e with
    | none => exact absurd h d.text_ne_nil
    | some e => rw [CalendarDate.text_inj h]

theorem quote_before {d e : Option CalendarDate} (h : datePoint d < datePoint e) (x y : JsString) :
    compareUnits (quote (dateText d)++x) (quote (dateText e)++y) < 0 := by
  cases e with
  | none => cases h
  | some e =>
    cases d with
    | none =>
      have hy := e.year_lt
      have hu : (UInt16.ofNat (48+e.year/10^3)).toNat=48+e.year/10^3 := by
        rw [UInt16.toNat_ofNat']
        omega
      show compareUnits (34::34::x) (quote e.text++y) < 0
      rw [quote_plain e.plain,cons_append,compareUnits_cons,CalendarDate.text,padded]
      simp only [cons_append,compareUnits]
      have h34 : (34 : UInt16).toNat=34 := rfl
      rw [hu,if_pos (by omega)]
      decide
    | some d =>
      have hlt : d.rank < e.rank := Nat.lt_of_succ_lt_succ h
      show compareUnits (quote d.text++x) (quote e.text++y) < 0
      rw [quote_plain d.plain,quote_plain e.plain,cons_append,cons_append,
        compareUnits_cons,append_assoc,append_assoc]
      exact CalendarDate.before hlt _ _

theorem place_ascii (e : CatalogueErratum C) :
    ∀s∈[dateText e.effective_from,e.id.1],isAscii s=true := by
  intro s hs
  rcases mem_pair.mp hs with rfl | rfl
  · exact dateText_ascii _
  · exact e.id.2

theorem placeKey_ascii (e : CatalogueErratum C) : isAscii (placeKey nfc e)=true :=
  textsKey_ascii nfc (place_ascii e)

theorem place_before (nfc : Nfc) {a b : CatalogueErratum C}
    (h : datePoint a.effective_from < datePoint b.effective_from) :
    compareUnits (placeKey nfc a) (placeKey nfc b) < 0 := by
  rw [placeKey,placeKey,textsKey_print nfc (place_ascii a),textsKey_print nfc (place_ascii b),
    compareUnits_cons]
  simp only [map_cons,map_nil,commas,append_assoc]
  exact quote_before h _ _

/-- The date and the id of an erratum, by which errata are listed. -/
def CatalogueErratum.place (e : CatalogueErratum C) : Option CalendarDate × AsciiText :=
  (e.effective_from,e.id)

theorem placeKey_inj {a b : CatalogueErratum C} (h : placeKey nfc a=placeKey nfc b) :
    a.place=b.place := by
  have he := textsKey_inj nfc (place_ascii a) (place_ascii b) h
  obtain ⟨hd,hi⟩ := List.cons.inj he
  exact Prod.ext (dateText_inj hd) (AsciiText.ext (List.cons.inj hi).1)

section
variable {card : RulesTextCard} {observedAt : JsString} {errata : List (CatalogueErratum C)}

/-- The errata that apply to a card at a time, in the order of their keys. -/
def applicableInOrder (nfc : Nfc) (card : RulesTextCard) (errata : List (CatalogueErratum C))
    (observedAt : JsString) : List (CatalogueErratum C) :=
  (errata.filter (applies card observedAt)).insertionSort (KeyLe (placeKey nfc))

theorem mem_applicable (nfc : Nfc) {e : CatalogueErratum C} :
    e∈applicableInOrder nfc card errata observedAt ↔ e∈errata ∧ applies card observedAt e=true := by
  rw [applicableInOrder,mem_insertionSort,mem_filter]

/-- An applicable erratum of the greatest date. -/
structure Latest (card : RulesTextCard) (observedAt : JsString) (errata : List (CatalogueErratum C))
    (e : CatalogueErratum C) : Prop where
  mem : e∈errata
  applies : applies card observedAt e=true
  greatest : ∀f∈errata,Errata.applies card observedAt f=true →
    datePoint f.effective_from ≤ datePoint e.effective_from

/-- Two applicable errata of the greatest date correct the text differently. -/
def Disagree (nfc : Nfc) (card : RulesTextCard) (observedAt : JsString)
    (errata : List (CatalogueErratum C)) : Prop :=
  ∃a b,Latest card observedAt errata a ∧ Latest card observedAt errata b ∧
    correctedKey nfc a≠correctedKey nfc b

theorem Latest.perm {errata' : List (CatalogueErratum C)} (h : errata.Perm errata')
    {e : CatalogueErratum C} (he : Latest card observedAt errata e) :
    Latest card observedAt errata' e :=
  ⟨h.mem_iff.mp he.mem,he.applies,fun f hf => he.greatest f (h.mem_iff.mpr hf)⟩

theorem Disagree.perm {errata' : List (CatalogueErratum C)} (h : errata.Perm errata') :
    Disagree nfc card observedAt errata ↔ Disagree nfc card observedAt errata' := by
  constructor
  · rintro ⟨a,b,ha,hb,hne⟩
    exact ⟨a,b,ha.perm h,hb.perm h,hne⟩
  · rintro ⟨a,b,ha,hb,hne⟩
    exact ⟨a,b,ha.perm h.symm,hb.perm h.symm,hne⟩

theorem datePoint_inj {d e : Option CalendarDate} (h : datePoint d=datePoint e) : d=e := by
  have hlt : ∀{d e : Option CalendarDate},datePoint d=datePoint e → dateText d=dateText e := by
    intro d e h
    cases d with
    | none =>
      cases e with
      | none => rfl
      | some e => cases h
    | some d =>
      cases e with
      | none => cases h
      | some e =>
        obtain ⟨y1,m1,d1,hy1,hm1,hd1⟩ := d
        obtain ⟨y2,m2,d2,hy2,hm2,hd2⟩ := e
        have hr : (y1*100+m1)*100+d1=(y2*100+m2)*100+d2 := Nat.succ.inj h
        obtain rfl : y1=y2 := by omega
        obtain rfl : m1=m2 := by omega
        obtain rfl : d1=d2 := by omega
        rfl
  exact dateText_inj (hlt h)

theorem place_le {a b : CatalogueErratum C}
    (h : compareUnits (placeKey nfc a) (placeKey nfc b) ≤ 0) :
    datePoint a.effective_from < datePoint b.effective_from ∨ a.effective_from=b.effective_from ∧
      compareUnits (textsKey nfc [a.id.1]) (textsKey nfc [b.id.1]) ≤ 0 := by
  rcases Nat.lt_trichotomy (datePoint a.effective_from) (datePoint b.effective_from) with hd | hd | hd
  · exact .inl hd
  · have he := datePoint_inj hd
    have hid : ∀e : CatalogueErratum C,∀s∈[e.id.1],isAscii s=true := fun e s hs =>
      mem_singleton.mp hs ▸ e.id.2
    refine .inr ⟨he,?_⟩
    rw [placeKey,placeKey,textsKey_print nfc (place_ascii a),textsKey_print nfc (place_ascii b),he] at h
    rw [textsKey_print nfc (hid a),textsKey_print nfc (hid b)]
    simpa only [map_cons,map_nil,commas,append_assoc,cons_append,
      compareUnits_cons,compareUnits_append] using h
  · have hbefore := place_before nfc hd
    have := compareUnits_swap (placeKey nfc a) (placeKey nfc b)
    omega

theorem latest_last {latest : CatalogueErratum C}
    (h : (applicableInOrder nfc card errata observedAt).getLast?=some latest) :
    Latest card observedAt errata latest := by
  have hmem := (mem_applicable nfc).mp (List.mem_of_getLast? h)
  refine ⟨hmem.1,hmem.2,fun f hf ha => ?_⟩
  by_contra hc
  have hbefore := place_before nfc (Nat.lt_of_not_le hc)
  obtain ⟨init,hinit⟩ := List.getLast?_eq_some_iff.mp h
  have hsorted := pairwise_insertionSort (KeyLe (placeKey nfc))
    (errata.filter (applies card observedAt))
  have hf : f∈applicableInOrder nfc card errata observedAt := (mem_applicable nfc).mpr ⟨hf,ha⟩
  rw [applicableInOrder] at hf hinit
  rw [hinit] at hsorted hf
  have hle : compareUnits (placeKey nfc f) (placeKey nfc latest) ≤ 0 := by
    rcases mem_append.mp hf with hf | hf
    · exact (pairwise_append.mp hsorted).2.2 f hf latest mem_cons_self
    · rw [mem_singleton.mp hf]
      have := compareUnits_swap (placeKey nfc latest) (placeKey nfc latest)
      omega
  have := compareUnits_swap (placeKey nfc latest) (placeKey nfc f)
  omega

theorem dedup_many {values : List JsString} :
    values.dedup.length > 1 ↔ ∃a∈values,∃b∈values,a≠b := by
  constructor
  · intro h
    match hd : values.dedup,h with
    | a::b::rest,_ =>
      have hnodup := nodup_dedup values
      have ha : a∈values := mem_dedup.mp (hd ▸ mem_cons_self)
      have hb : b∈values := mem_dedup.mp (hd ▸ mem_cons_of_mem a mem_cons_self)
      rw [hd] at hnodup
      refine ⟨a,ha,b,hb,?_⟩
      rintro rfl
      exact (nodup_cons.mp hnodup).1 mem_cons_self
  · rintro ⟨a,ha,b,hb,hne⟩
    by_contra hc
    have ha := mem_dedup.mpr ha
    have hb := mem_dedup.mpr hb
    match hd : values.dedup with
    | [] =>
      rw [hd] at ha
      cases ha
    | [v] =>
      rw [hd] at ha hb
      exact hne ((mem_singleton.mp ha).trans (mem_singleton.mp hb).symm)
    | u::v::rest =>
      rw [hd] at hc
      simp at hc

theorem applicable_eq [Decidable (Disagree nfc card observedAt errata)] :
    applicableRulesTextErrata nfc locale card errata observedAt=
      if Disagree nfc card observedAt errata then none
      else some (applicableInOrder nfc card errata observedAt) := by
  have hsort : locale.sort (placeKey nfc) (errata.filter (applies card observedAt))=
      applicableInOrder nfc card errata observedAt := sort_units fun e _ => placeKey_ascii e
  rw [applicableRulesTextErrata,hsort]
  dsimp only
  split
  · rename_i hnone
    rw [if_neg]
    rintro ⟨a,-,ha,-⟩
    have hmem : a∈applicableInOrder nfc card errata observedAt :=
      (mem_applicable nfc).mpr ⟨ha.mem,ha.applies⟩
    rw [List.getLast?_eq_none_iff.mp hnone] at hmem
    cases hmem
  · rename_i latest hlatest
    have hl := latest_last hlatest
    have hmem : ∀e,e∈(applicableInOrder nfc card errata observedAt).filter (fun e => decide
        (e.effective_from.map CalendarDate.text=latest.effective_from.map CalendarDate.text)) ↔
        Latest card observedAt errata e := by
      intro e
      rw [mem_filter,mem_applicable,decide_eq_true_iff]
      constructor
      · rintro ⟨⟨he,ha⟩,hd⟩
        have hd : e.effective_from=latest.effective_from :=
          Option.map_injective (fun _ _ => CalendarDate.text_inj) hd
        exact ⟨he,ha,fun f hf hfa => hd ▸ hl.greatest f hf hfa⟩
      · intro he
        have h1 := he.greatest latest hl.mem hl.applies
        have h2 := hl.greatest e he.mem he.applies
        refine ⟨⟨he.mem,he.applies⟩,?_⟩
        rw [datePoint_inj (Nat.le_antisymm h2 h1)]
    refine if_congr ?_ rfl rfl
    rw [dedup_many]
    constructor
    · rintro ⟨x,hx,y,hy,hne⟩
      obtain ⟨a,ha,rfl⟩ := mem_map.mp hx
      obtain ⟨b,hb,rfl⟩ := mem_map.mp hy
      exact ⟨a,b,(hmem a).mp ha,(hmem b).mp hb,hne⟩
    · rintro ⟨a,b,ha,hb,hne⟩
      exact ⟨_,mem_map_of_mem ((hmem a).mpr ha),_,mem_map_of_mem ((hmem b).mpr hb),hne⟩

theorem applicable_some {l : List (CatalogueErratum C)} :
    applicableRulesTextErrata nfc locale card errata observedAt=some l ↔
      ¬Disagree nfc card observedAt errata ∧ applicableInOrder nfc card errata observedAt=l := by
  classical
  rw [applicable_eq]
  split
  · rename_i h
    simp [h]
  · rename_i h
    simp [h]

theorem applicable_none : applicableRulesTextErrata nfc locale card errata observedAt=none ↔
    Disagree nfc card observedAt errata := by
  classical
  rw [applicable_eq]
  split
  · rename_i h
    simp [h]
  · rename_i h
    simp [h]

theorem applicable_places (nfc : Nfc) (card : RulesTextCard) (observedAt : JsString) {errata' : List (CatalogueErratum C)} (h : errata.Perm errata') :
    (applicableInOrder nfc card errata observedAt).map CatalogueErratum.place=
      (applicableInOrder nfc card errata' observedAt).map CatalogueErratum.place := by
  have hkeys := sort_keys (placeKey nfc) (h.filter (applies card observedAt))
  rw [←forall₂_eq_eq_eq,forall₂_map_left_iff,forall₂_map_right_iff] at hkeys ⊢
  exact hkeys.imp fun _ _ => placeKey_inj

end

end CardKeepr.Reconciliation.Errata
