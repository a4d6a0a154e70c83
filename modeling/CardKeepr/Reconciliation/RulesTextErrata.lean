import CardKeepr.Reconciliation.ProductResolution

namespace CardKeepr.Reconciliation.Errata
open Lib Shared Reconciliation.Product List

/-- A text of ASCII units, as the ids that are compared are. -/
@[ext] structure AsciiText where
  text : JsString
  ascii : isAscii text=true
  deriving DecidableEq

/-- What `nullableDate` lets through, and no day of a month is refused here. -/
structure CalendarDate where
  year : Nat
  month : Nat
  day : Nat
  year_lt : year < 10000
  month_lt : month < 100
  day_lt : day < 100

def CalendarDate.text (d : CalendarDate) : JsString :=
  padded 4 d.year++45::(padded 2 d.month++45::padded 2 d.day)

def CalendarDate.rank (d : CalendarDate) : Nat := (d.year*100+d.month)*100+d.day

inductive ErratumTarget where
  | card
  | printing
  deriving DecidableEq

structure ErratumProvenance where
  source_lineage : AsciiText
  source_observation_id : AsciiText

structure CatalogueErratum (C : Type) where
  id : AsciiText
  game : JsString
  target_type : ErratumTarget
  target_id : AsciiText
  effective_from : Option CalendarDate
  official_wording : JsString
  corrected_value : Option JsString
  provenance : List ErratumProvenance
  curated_provenance : C

/-- `{ ...erratum, provenance }`. -/
def CatalogueErratum.withProvenance {C : Type} (e : CatalogueErratum C)
    (provenance : List ErratumProvenance) : CatalogueErratum C :=
  { e with provenance := provenance }

structure RulesTextCard where
  id : JsString
  game : JsString
  effective_rules_text : Option JsString

/-- `String.prototype.localeCompare`, taken to order ASCII texts by their code points. -/
structure CodePointLocale where
  compare : JsString → JsString → Int
  ascii : ∀a b,isAscii a=true → isAscii b=true → (compare a b ≤ 0 ↔ compareUnits a b ≤ 0)

def CodePointLocale.sort (locale : CodePointLocale) {α : Type} (key : α → JsString)
    (values : List α) : List α :=
  values.insertionSort fun a b => locale.compare (key a) (key b) ≤ 0

def ErratumTarget.text : ErratumTarget → JsString
  | .card => js "card".toList
  | .printing => js "printing".toList

/-- `effective_from ?? ""`. -/
def dateText (d : Option CalendarDate) : JsString := (d.map CalendarDate.text).getD []

section
variable {C : Type} (nfc : Nfc) (locale : CodePointLocale)

/-- `canonicalJson` of a list of texts. -/
def textsKey (texts : List JsString) : JsString := canonicalText nfc (.arr (texts.map .str))

def exportErratum (e : CatalogueErratum C) : Json := .obj [
  (js "type".toList,.str (js "erratum".toList)),
  (js "id".toList,.str e.id.1),
  (js "game".toList,.str e.game),
  (js "target_type".toList,.str e.target_type.text),
  (js "target_id".toList,.str e.target_id.1),
  (js "effective_from".toList,optional .str (e.effective_from.map CalendarDate.text)),
  (js "official_wording".toList,.str e.official_wording),
  (js "corrected_value".toList,optional .str e.corrected_value)]

def canonicalErratum (e : CatalogueErratum C) : JsString := canonicalText nfc (exportErratum e)

def provenanceKey (p : ErratumProvenance) : JsString :=
  textsKey nfc [p.source_lineage.1,p.source_observation_id.1]

def uniqueProvenance (provenance : List ErratumProvenance) : List ErratumProvenance :=
  locale.sort (provenanceKey nfc)
    ((mapOf (provenance.map fun p => (provenanceKey nfc p,p))).map Prod.snd)

/-- One iteration of the merge; `none` is the error of changed wording. -/
def mergeErratum (merged : List (AsciiText × CatalogueErratum C)) (e : CatalogueErratum C) :
    Option (List (AsciiText × CatalogueErratum C)) :=
  let existing := merged.lookup e.id
  if existing.any fun x => decide (canonicalErratum nfc x≠canonicalErratum nfc e) then none
  else some (mapSet merged e.id (e.withProvenance (uniqueProvenance nfc locale
    (existing.elim [] CatalogueErratum.provenance++e.provenance))))

def mergedKey (e : CatalogueErratum C) : JsString :=
  textsKey nfc [dateText e.effective_from,e.target_type.text,e.target_id.1,e.id.1]

def mergeCatalogueErrata (carried observed : List (CatalogueErratum C)) :
    Option (List (CatalogueErratum C)) :=
  ((carried++observed).foldlM (mergeErratum nfc locale) []).map fun merged =>
    locale.sort (mergedKey nfc) (merged.map Prod.snd)

/-- The filter of `applicableRulesTextErrata`. -/
def applies (card : RulesTextCard) (observedAt : JsString) (e : CatalogueErratum C) : Bool :=
  decide (e.game=card.game) && decide (e.target_type=.card) && decide (e.target_id.1=card.id) &&
    e.effective_from.all fun d => decide (compareUnits d.text (observedAt.take 10) ≤ 0)

def placeKey (e : CatalogueErratum C) : JsString :=
  textsKey nfc [dateText e.effective_from,e.id.1]

def correctedKey (e : CatalogueErratum C) : JsString :=
  canonicalText nfc (optional .str e.corrected_value)

/-- `none` is the error of conflicting errata. -/
def applicableRulesTextErrata (card : RulesTextCard) (errata : List (CatalogueErratum C))
    (observedAt : JsString) : Option (List (CatalogueErratum C)) :=
  let applicable := locale.sort (placeKey nfc) (errata.filter (applies card observedAt))
  match applicable.getLast? with
  | none => some applicable
  | some latest =>
    let competing := applicable.filter fun e =>
      decide (e.effective_from.map CalendarDate.text=latest.effective_from.map CalendarDate.text)
    if (competing.map (correctedKey nfc)).dedup.length > 1 then none else some applicable

def deriveEffectiveRulesText (card : RulesTextCard) (errata : List (CatalogueErratum C))
    (observedAt : JsString) : Option (Option JsString) :=
  (applicableRulesTextErrata nfc locale card errata observedAt).map fun applicable =>
    applicable.getLast?.elim card.effective_rules_text CatalogueErratum.corrected_value

end

theorem padded_plain {w n : Nat} (h : n < 10^w) : plainText (padded w n)=true := by
  induction w generalizing n with
  | zero => rfl
  | succ w ih =>
    have hp : 0 < 10^w := Nat.pow_pos (by decide)
    have hd : n/10^w < 10 := by
      apply Nat.div_lt_of_lt_mul
      rwa [pow_succ] at h
    have ih : plainText (padded w (n%10^w))=true := ih (Nat.mod_lt n hp)
    rw [padded]
    generalize n/10^w=d at hd
    have hu : (UInt16.ofNat (48+d)).toNat=48+d := by
      rw [UInt16.toNat_ofNat']
      omega
    have hplain : 35 ≤ 48+d ∧ 48+d < 92 := by omega
    rw [plainText] at ih ⊢
    rw [all_cons,ih,hu,decide_eq_true hplain]
    rfl

theorem CalendarDate.plain (d : CalendarDate) : plainText d.text=true := by
  have h4 := padded_plain (w := 4) d.year_lt
  have h2 := padded_plain (w := 2) d.month_lt
  have h3 := padded_plain (w := 2) d.day_lt
  rw [plainText] at h4 h2 h3 ⊢
  rw [CalendarDate.text,all_append,all_cons,all_append,all_cons,h4,h2,h3]
  rfl

theorem isAscii_append {s t : JsString} (hs : isAscii s=true) (ht : isAscii t=true) :
    isAscii (s++t)=true := by
  rw [isAscii] at hs ht ⊢
  rw [all_append,hs,ht]
  rfl

theorem dateText_ascii (d : Option CalendarDate) : isAscii (dateText d)=true := by
  cases d with
  | none => rfl
  | some d => exact plainText_ascii d.plain

theorem ErratumTarget.text_ascii (t : ErratumTarget) : isAscii t.text=true := by
  cases t <;> decide

theorem escapeUnit_ascii {u : UInt16} (h : u.toNat < 0x80) : isAscii (escapeUnit u)=true := by
  have hex : isAscii (92::117::hex4 u)=true := by
    rw [isAscii_cons,isAscii_cons,hex4,isAscii,all_eq_true]
    refine ⟨by decide,by decide,fun v hv => ?_⟩
    obtain ⟨n,hn,rfl⟩ : ∃n < 16,v=hexDigit n := by
      simp only [mem_cons,not_mem_nil,or_false] at hv
      rcases hv with rfl | rfl | rfl | rfl
      all_goals exact ⟨_,by omega,rfl⟩
    exact decide_eq_true (hexDigit_ascii hn)
  have hself : isAscii [u]=true := by
    rw [isAscii_cons]
    exact ⟨h,rfl⟩
  unfold escapeUnit
  split_ifs
  all_goals first | exact hex | exact hself | decide

theorem quote_ascii {s : JsString} (h : isAscii s=true) : isAscii (quote s)=true := by
  have hbody : isAscii (quoteBody s)=true := by
    fun_induction quoteBody s with
    | case1 => rfl
    | case2 u => exact escapeUnit_ascii ((isAscii_cons u []).mp h).1
    | case3 u v us hp ih =>
      obtain ⟨hu,hv⟩ := (isAscii_cons u _).mp h
      obtain ⟨hv,hs⟩ := (isAscii_cons v _).mp hv
      exact (isAscii_cons u _).mpr ⟨hu,(isAscii_cons v _).mpr ⟨hv,ih hs⟩⟩
    | case4 u v us hp ih =>
      obtain ⟨hu,hv⟩ := (isAscii_cons u _).mp h
      exact isAscii_append (escapeUnit_ascii hu) (ih hv)
  rw [quote,isAscii_cons]
  exact ⟨by decide,isAscii_append hbody (by decide)⟩

section
variable (nfc : Nfc)
variable {texts : List JsString}

theorem canonicalText_print {v : Json} (h : v.Integral) :
    canonicalText nfc v=(v.canonical nfc).print := by
  rw [canonicalText,canonicalJson,canonicalJsonAt_eq nfc h]

theorem canonicalText_eq_iff {v w : Json} (hv : v.Integral) (hw : w.Integral) :
    canonicalText nfc v=canonicalText nfc w ↔ v.canonical nfc=w.canonical nfc := by
  rw [canonicalText_print nfc hv,canonicalText_print nfc hw]
  constructor
  · exact print_inj (canonical_integral nfc hv) (canonical_integral nfc hw)
  · intro h
    rw [h]

theorem textsKey_print (h : ∀s∈texts,isAscii s=true) :
    textsKey nfc texts=91::(commas (texts.map quote)++[93]) := by
  have hint : (Json.arr (texts.map .str)).Integral := by
    rw [Json.Integral,all_arr]
    intro v hv
    obtain ⟨s,-,rfl⟩ := mem_map.mp hv
    trivial
  have hcan : (texts.map Json.str).map (Json.canonical nfc)=texts.map Json.str := by
    rw [map_map]
    refine map_congr_left fun s hs => ?_
    show Json.str (nfc.normalize s)=Json.str s
    rw [nfc.ascii s (h s hs)]
  rw [textsKey,canonicalText_print nfc hint,canonical_arr,hcan,Json.print,printItems_map,map_map]
  rfl

theorem commas_ascii (h : ∀s∈texts,isAscii s=true) : isAscii (commas texts)=true := by
  fun_induction commas texts with
  | case1 => rfl
  | case2 s => exact h s mem_cons_self
  | case3 s ss hne ih =>
    refine isAscii_append (h s mem_cons_self) ?_
    rw [isAscii_cons]
    exact ⟨by decide,ih fun t ht => h t (mem_cons_of_mem s ht)⟩

theorem textsKey_ascii (h : ∀s∈texts,isAscii s=true) : isAscii (textsKey nfc texts)=true := by
  rw [textsKey_print nfc h,isAscii_cons]
  refine ⟨by decide,isAscii_append (commas_ascii fun t ht => ?_) (by decide)⟩
  obtain ⟨s,hs,rfl⟩ := mem_map.mp ht
  exact quote_ascii (h s hs)

theorem textsKey_inj {xs ys : List JsString} (hx : ∀s∈xs,isAscii s=true)
    (hy : ∀s∈ys,isAscii s=true) (h : textsKey nfc xs=textsKey nfc ys) : xs=ys := by
  have hint : ∀texts : List JsString,(Json.arr (texts.map .str)).Integral := by
    intro texts
    rw [Json.Integral,all_arr]
    intro v hv
    obtain ⟨s,-,rfl⟩ := mem_map.mp hv
    trivial
  have hcan : ∀texts : List JsString,(∀s∈texts,isAscii s=true) →
      (Json.arr (texts.map .str)).canonical nfc=.arr (texts.map .str) := by
    intro texts ht
    rw [canonical_arr,map_map]
    refine congrArg Json.arr (map_congr_left fun s hs => ?_)
    show Json.str (nfc.normalize s)=Json.str s
    rw [nfc.ascii s (ht s hs)]
  have he := (canonicalText_eq_iff nfc (hint xs) (hint ys)).mp h
  rw [hcan xs hx,hcan ys hy] at he
  injection he with he
  exact map_injective_iff.mpr (fun s t e => by injection e) he

end

end CardKeepr.Reconciliation.Errata
