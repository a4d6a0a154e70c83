import CardKeepr.Adapters.HtmlText

namespace CardKeepr.Adapters
open Shared Lib Lib.References List

variable {u : UInt16} {b value : JsString} {ts : List (Token UInt16)}

def isName (u : UInt16) : Bool := decide (97 ≤ u.toNat ∧ u.toNat ≤ 122) || isDigit u || u==35

/-- A body of name characters. -/
abbrev Named (b : JsString) : Prop := ∀u∈b,isName u=true

theorem named_of (h : b.all isName=true) : Named b :=
  fun u hu => all_eq_true.mp h u hu

theorem delimits : Delimits 38 59 isName where
  apart := by decide
  opening := by decide
  closing := by decide

theorem exists_tokens (s : JsString) :
    ∃ts : List (Token UInt16),Apart 38 59 isName ts ∧ flat 38 59 ts=s := exists_apart 38 59 isName s

theorem numeric_cases (h : isNumeric b=true) :
    ∃digits,b=35::digits ∧ digits≠[] ∧ ∀u∈digits,isDigit u=true := by
  unfold isNumeric at h
  split at h
  · rename_i digits
    rw [Bool.and_eq_true] at h
    have hne : digits≠[] := by simpa using h.1
    exact ⟨digits,rfl,hne,fun u hu => all_eq_true.mp h.2 u hu⟩
  · cases h

theorem numeric_names (h : isNumeric b=true) : ∀u∈b,isName u=true := by
  obtain ⟨digits,rfl,-,hd⟩ := numeric_cases h
  intro u hu
  rcases mem_cons.mp hu with rfl | hu
  · rfl
  · simp [isName,hd u hu]

theorem numeric_reads : Reads 38 59 isName numericAt (fun b => isNumeric b=true) where
  named _ h := numeric_names h
  other := by
    intro u s hu
    unfold numericAt
    split
    · rename_i heq
      exact absurd (List.cons.inj heq).1 hu
    · rfl
  known := by
    intro b s h
    obtain ⟨digits,rfl,hne,hd⟩ := numeric_cases h
    have hsemi : isDigit 59=false := by decide
    have hshape : reference 38 59 (35::digits)++s=38::35::(digits++59::s) := by simp [reference]
    have hdrop : (digits++59::s).drop digits.length=59::s := by simp
    have hbody : (digits++59::s).takeWhile isDigit=digits := takeWhile_body hsemi hd
    rw [hshape,numericAt,hbody]
    simp [hne,hdrop,reference]
  only := by
    intro s n h
    unfold numericAt at h
    split at h
    · rename_i rest heq
      obtain ⟨-,rfl⟩ := List.cons.inj heq
      simp only [drop_takeWhile] at h
      split at h
      · rename_i hcond
        obtain ⟨hne,hhead⟩ := hcond
        obtain ⟨t,ht⟩ := head_closes hhead
        refine ⟨35::rest.takeWhile isDigit,t,?_,?_⟩
        · have hall : (rest.takeWhile isDigit).all isDigit=true := all_takeWhile
          simp [isNumeric,hne,hall]
        · have hsplit := takeWhile_append_dropWhile (p := isDigit) (l := rest)
          rw [ht] at hsplit
          rw [cons_append,hsplit]
      · cases h
    · cases h

/-- The characters that a numeric reference stands for. -/
def numericText (b : JsString) : JsString :=
  match fromCodePoint (digitsValue (b.drop 1)) with
  | .ok t => t
  | .error _ => []

def huge : Token UInt16 → Bool
  | .unit _ => false
  | .ref b => isNumeric b && decide (0x10ffff < digitsValue (b.drop 1))

theorem fromParts_kept (w : JsString) (ps : List (Fragment UInt16)) :
    fromParts (w.map Fragment.kept++ps)=(do
      let t ← fromParts ps
      .ok (w++t)) := by
  induction w with
  | nil => cases h : fromParts ps <;> simp [h] <;> rfl
  | cons u w ih =>
    rw [map_cons,cons_append,fromParts,ih]
    cases fromParts ps <;> rfl

theorem digits_of_reference (h : isNumeric b=true) :
    ((reference 38 59 b).drop 2).dropLast=b.drop 1 := by
  obtain ⟨digits,rfl,-,-⟩ := numeric_cases h
  simp [reference]

theorem fromParts_tokens (ts : List (Token UInt16)) :
    fromParts (ts.flatMap (Token.parted 38 59 fun b => isNumeric b=true))=
      if ts.any huge then .error .rangeError
      else .ok (ts.flatMap (Token.replaced 38 59 (fun b => isNumeric b=true) numericText)) := by
  induction ts with
  | nil => rfl
  | cons t ts ih =>
    rw [flatMap_cons,any_cons,flatMap_cons]
    cases t with
    | unit u =>
      rw [Token.parted,singleton_append,fromParts,ih,huge,Bool.false_or]
      split <;> rfl
    | ref b =>
      by_cases hn : isNumeric b=true
      · rw [Token.parted,if_pos hn,singleton_append,fromParts,ih,digits_of_reference hn,
          Token.replaced,if_pos hn,huge,hn,Bool.true_and]
        by_cases hlarge : 0x10ffff < digitsValue (b.drop 1)
        · have hthrow : fromCodePoint (digitsValue (b.drop 1))=.error .rangeError := by
            rw [fromCodePoint,if_pos hlarge]
          rw [hthrow]
          simp only [hlarge,decide_true,Bool.true_or,if_true]
          rfl
        · obtain ⟨c,hc⟩ : ∃c,fromCodePoint (digitsValue (b.drop 1))=.ok c := by
            rw [fromCodePoint,if_neg hlarge]
            split <;> exact ⟨_,rfl⟩
          rw [numericText,hc]
          simp only [hlarge,decide_false,Bool.false_or]
          split <;> rfl
      · rw [Bool.not_eq_true] at hn
        simp only [Token.parted,Token.replaced,huge,hn,Bool.false_and,Bool.false_or,
          Bool.false_eq_true,if_false]
        rw [fromParts_kept,ih]
        split <;> rfl

def entity (b : JsString) (u : UInt16) : Token UInt16 → Token UInt16
  | .unit a => .unit a
  | .ref c => if c=b then .unit u else .ref c

theorem entity_exchanges (hu : Foreign 38 59 isName u) : Exchanges 38 59 isName (entity b u) where
  own _ _ := rfl
  foreign a ha := .inl ⟨a,ha,rfl⟩
  refs c hc := by
    by_cases h : c=b
    · exact .inl ⟨u,hu,by rw [entity,if_pos h]⟩
    · exact .inr ⟨c,hc,by rw [entity,if_neg h]⟩

theorem replaceAll_entity (hb : ∀a∈b,isName a=true) (hts : Apart 38 59 isName ts) :
    replaceAll (reference 38 59 b) [u] (flat 38 59 ts)=flat 38 59 (ts.map (entity b u)) := by
  rw [replaceAll,replaceFound_flat delimits (literal_reads hb) _ hts,flat,flatMap_map]
  congr 1
  funext t
  cases t with
  | unit a => rfl
  | ref c =>
    by_cases h : c=b
    · simp [Token.replaced,entity,h,Token.text]
    · simp [Token.replaced,entity,h,Token.text]

/-- The named replacements behind the one of the ampersands. -/
def entities (t : Token UInt16) : Token UInt16 :=
  entity (js "gt".toList) 62 (entity (js "lt".toList) 60 (entity (js "#39".toList) 39
    (entity (js "#039".toList) 39 (entity (js "quot".toList) 34 t))))

theorem decodeHtmlText_tokens
    (hts : Apart 38 59 isName ts) (hamp : replaceAll ampersand [38] value=flat 38 59 ts) :
    decodeHtmlText value=if (ts.map entities).any huge then .error .rangeError
      else .ok ((ts.map entities).flatMap
        (Token.replaced 38 59 (fun b => isNumeric b=true) numericText)) := by
  have h1 := (entity_exchanges (b := js "quot".toList) (u := 34) (by decide)).apart hts
  have h2 := (entity_exchanges (b := js "#039".toList) (u := 39) (by decide)).apart h1
  have h3 := (entity_exchanges (b := js "#39".toList) (u := 39) (by decide)).apart h2
  have h4 := (entity_exchanges (b := js "lt".toList) (u := 60) (by decide)).apart h3
  have h5 := (entity_exchanges (b := js "gt".toList) (u := 62) (by decide)).apart h4
  have e1 := replaceAll_entity (b := js "quot".toList) (u := 34) (named_of (by decide)) hts
  have e2 := replaceAll_entity (b := js "#039".toList) (u := 39) (named_of (by decide)) h1
  have e3 := replaceAll_entity (b := js "#39".toList) (u := 39) (named_of (by decide)) h2
  have e4 := replaceAll_entity (b := js "lt".toList) (u := 60) (named_of (by decide)) h3
  have e5 := replaceAll_entity (b := js "gt".toList) (u := 62) (named_of (by decide)) h4
  have hmap : ((((ts.map (entity (js "quot".toList) 34)).map (entity (js "#039".toList) 39)).map
      (entity (js "#39".toList) 39)).map (entity (js "lt".toList) 60)).map
      (entity (js "gt".toList) 62)=ts.map entities := by
    simp only [map_map]
    rfl
  calc decodeHtmlText value
      =fromParts (parts numericAt (replaceAll (reference 38 59 (js "gt".toList)) [62]
        (replaceAll (reference 38 59 (js "lt".toList)) [60]
        (replaceAll (reference 38 59 (js "#39".toList)) [39]
        (replaceAll (reference 38 59 (js "#039".toList)) [39]
        (replaceAll (reference 38 59 (js "quot".toList)) [34]
        (replaceAll ampersand [38] value))))))) := rfl
    _=fromParts (parts numericAt (flat 38 59 (ts.map entities))) := by
      rw [hamp,e1,e2,e3,e4,e5,hmap]
    _=_ := by
      rw [hmap] at h5
      rw [parts_flat delimits numeric_reads h5,fromParts_tokens]

theorem settled_tokens
    (hts : Apart 38 59 isName ts) (hamp : replaceAll ampersand [38] value=flat 38 59 ts) :
    Settled (decodeHtmlText value) ↔ (ts.map entities).any huge=false := by
  rw [decodeHtmlText_tokens hts hamp]
  cases h : (ts.map entities).any huge with
  | true =>
    refine ⟨?_,fun h => by cases h⟩
    rintro (⟨t,ht⟩ | ⟨m,hm⟩)
    · cases ht
    · cases hm
  | false => exact ⟨fun _ => rfl,fun _ => .inl ⟨_,rfl⟩⟩

def named : List JsString := ["quot","#039","#39","lt","gt"].map fun n => js n.toList

theorem entities_unit (u : UInt16) : entities (.unit u)=.unit u := rfl

theorem entities_named (h : b∈named) : ∃u,entities (.ref b)=.unit u := by
  simp only [named,map_cons,map_nil,mem_cons,not_mem_nil,or_false] at h
  rcases h with rfl | rfl | rfl | rfl | rfl
  · exact ⟨34,by decide⟩
  · exact ⟨39,by decide⟩
  · exact ⟨39,by decide⟩
  · exact ⟨60,by decide⟩
  · exact ⟨62,by decide⟩

theorem entities_other (h : b∉named) : entities (.ref b)=.ref b := by
  simp only [named,map_cons,map_nil,mem_cons,not_mem_nil,or_false,not_or] at h
  obtain ⟨h1,h2,h3,h4,h5⟩ := h
  simp only [entities,entity,if_neg h1,if_neg h2,if_neg h3,if_neg h4,if_neg h5]

theorem named_small (h : b∈named) : huge (.ref b)=false := by
  simp only [named,map_cons,map_nil,mem_cons,not_mem_nil,or_false] at h
  rcases h with rfl | rfl | rfl | rfl | rfl <;> decide

theorem huge_entities (t : Token UInt16) : huge (entities t)=huge t := by
  cases t with
  | unit u => rfl
  | ref b =>
    by_cases h : b∈named
    · obtain ⟨u,hu⟩ := entities_named h
      rw [hu,named_small h]
      rfl
    · rw [entities_other h]

theorem any_huge : (ts.map entities).any huge=true ↔
    ∃b,isNumeric b=true ∧ 0x10ffff < digitsValue (b.drop 1) ∧ .ref b∈ts := by
  rw [any_map,any_eq_true]
  constructor
  · rintro ⟨t,ht,h⟩
    rw [Function.comp_apply,huge_entities] at h
    cases t with
    | unit u => cases h
    | ref b =>
      rw [huge,Bool.and_eq_true,decide_eq_true_eq] at h
      exact ⟨b,h.1,h.2,ht⟩
  · rintro ⟨b,hn,hl,hb⟩
    refine ⟨.ref b,hb,?_⟩
    rw [Function.comp_apply,huge_entities,huge,hn,Bool.true_and,decide_eq_true_eq]
    exact hl

theorem amp_names : Named (js "amp".toList) := named_of (by decide)

theorem decodeHtmlText_settled (value : JsString) :
    Settled (decodeHtmlText value) ↔ ¬HugeReference value := by
  obtain ⟨ss,hss,hvalue⟩ := exists_tokens value
  have hamp : replaceAll ampersand [38] value=ss.flatMap (reopened 38 59 (js "amp".toList)) := by
    have hread : Reads 38 59 isName (literalAt ampersand) (· = js "amp".toList) :=
      literal_reads amp_names
    rw [replaceAll,←hvalue,replaceFound_flat delimits hread _ hss]
  obtain ⟨ts,hts,hflat⟩ := exists_tokens (replaceAll ampersand [38] value)
  rw [settled_tokens hts hflat.symm,←Bool.not_eq_true,not_iff_not,any_huge]
  refine exists_congr fun b => and_congr_right fun hn => and_congr_right fun _ => ?_
  have hne : b≠js "amp".toList := by
    rintro rfl
    exact absurd hn (by decide)
  rw [←mem_ref_iff delimits hts (numeric_names hn),hflat,hamp,
    reopened_iff delimits hss amp_names (numeric_names hn) hne,hvalue]
  rfl

/-- The token that a character is escaped to. -/
def escapedUnit (u : UInt16) : Token UInt16 :=
  if u=60 then .ref (js "lt".toList) else if u=62 then .ref (js "gt".toList)
  else if u=34 then .ref (js "quot".toList) else if u=39 then .ref (js "#39".toList)
  else .unit u

def escapedToken (u : UInt16) : Token UInt16 :=
  if u=38 then .ref (js "amp".toList) else escapedUnit u

theorem escaped_text (u : UInt16) : escaped u=(escapedToken u).text 38 59 := by
  unfold escaped
  split
  · rfl
  · rfl
  · rfl
  · rfl
  · rfl
  · rename_i h38 h60 h62 h34 h39
    have hplain : escapedToken u=.unit u := by
      rw [escapedToken,if_neg h38,escapedUnit,if_neg h60,if_neg h62,if_neg h34,if_neg h39]
    rw [hplain]
    rfl

theorem escapedToken_cases (u : UInt16) : (u≠38 ∧ escapedToken u=.unit u) ∨
    ∃b,(∀a∈b,isName a=true) ∧ escapedToken u=.ref b := by
  unfold escapedToken escapedUnit
  split_ifs with h
  · exact .inr ⟨_,amp_names,rfl⟩
  · exact .inr ⟨_,named_of (by decide),rfl⟩
  · exact .inr ⟨_,named_of (by decide),rfl⟩
  · exact .inr ⟨_,named_of (by decide),rfl⟩
  · exact .inr ⟨_,named_of (by decide),rfl⟩
  · exact .inl ⟨h,rfl⟩

theorem escaped_apart (t : JsString) : Apart 38 59 isName (t.map escapedToken) := by
  induction t with
  | nil => trivial
  | cons u t ih =>
    rw [map_cons]
    rcases escapedToken_cases u with ⟨hu,h⟩ | ⟨b,hb,h⟩
    · rw [h]
      exact ⟨fun he => absurd he hu,ih⟩
    · rw [h]
      exact ⟨hb,ih⟩

theorem escapeHtml_flat (t : JsString) : escapeHtml t=flat 38 59 (t.map escapedToken) := by
  rw [escapeHtml,flat,flatMap_map]
  congr 1
  funext u
  exact escaped_text u

theorem escapedUnit_named (h : escapedUnit u=.ref b) : b∈named := by
  unfold escapedUnit at h
  split_ifs at h
  · rw [←Token.ref.inj h]; decide
  · rw [←Token.ref.inj h]; decide
  · rw [←Token.ref.inj h]; decide
  · rw [←Token.ref.inj h]; decide

def halfEscaped (u : UInt16) : JsString := (escapedUnit u).text 38 59

theorem halfEscaped_plain (h : ¬Foreign 38 59 isName u) : halfEscaped u=[u] := by
  have hne : u≠60 ∧ u≠62 ∧ u≠34 ∧ u≠39 := by
    refine ⟨?_,?_,?_,?_⟩ <;>
    · rintro rfl
      exact h (by decide)
  rw [halfEscaped,escapedUnit,if_neg hne.1,if_neg hne.2.1,if_neg hne.2.2.1,if_neg hne.2.2.2]
  rfl

theorem ampersands_back (t : JsString) :
    replaceAll ampersand [38] (escapeHtml t)=t.flatMap halfEscaped := by
  have hread : Reads 38 59 isName (literalAt ampersand) (· = js "amp".toList) :=
    literal_reads amp_names
  rw [replaceAll,escapeHtml_flat,replaceFound_flat delimits hread _ (escaped_apart t),flatMap_map]
  congr 1
  funext u
  by_cases hu : u=38
  · subst hu
    decide
  · have hunit : escapedToken u=escapedUnit u := by rw [escapedToken,if_neg hu]
    rw [hunit,halfEscaped]
    unfold escapedUnit
    split_ifs <;> rfl

/-- The tokens of a text with its foreign characters escaped. -/
def escapedUnits : Token UInt16 → Token UInt16
  | .unit u => escapedUnit u
  | .ref b => .ref b

theorem escapedUnits_exchanges : Exchanges 38 59 isName escapedUnits where
  own u hu := by
    have hne : u≠60 ∧ u≠62 ∧ u≠34 ∧ u≠39 := by
      refine ⟨?_,?_,?_,?_⟩ <;>
      · rintro rfl
        exact hu (by decide)
    rw [escapedUnits,escapedUnit,if_neg hne.1,if_neg hne.2.1,if_neg hne.2.2.1,if_neg hne.2.2.2]
  foreign u hu := by
    rw [escapedUnits,escapedUnit]
    split_ifs
    · exact .inr ⟨_,named_of (by decide),rfl⟩
    · exact .inr ⟨_,named_of (by decide),rfl⟩
    · exact .inr ⟨_,named_of (by decide),rfl⟩
    · exact .inr ⟨_,named_of (by decide),rfl⟩
    · exact .inl ⟨u,hu,rfl⟩
  refs b hb := .inr ⟨b,hb,rfl⟩

theorem flatMap_same {f : UInt16 → JsString} {w : JsString} (h : ∀u∈w,f u=[u]) : w.flatMap f=w := by
  induction w with
  | nil => rfl
  | cons u w ih =>
    rw [flatMap_cons,h u mem_cons_self,ih fun v hv => h v (mem_cons_of_mem _ hv)]
    rfl

theorem halfEscaped_flat (hts : Apart 38 59 isName ts) :
    (flat 38 59 ts).flatMap halfEscaped=flat 38 59 (ts.map escapedUnits) := by
  induction ts with
  | nil => rfl
  | cons t ts ih =>
    rw [flat_cons,flatMap_append,map_cons,flat_cons]
    cases t with
    | unit u =>
      rw [ih hts.2,Token.text,List.flatMap_singleton]
      rfl
    | ref b =>
      have hplain : ∀u∈reference 38 59 b,¬Foreign 38 59 isName u := by
        intro u hu hf
        rcases mem_cons.mp hu with rfl | hu
        · exact hf.1 rfl
        · rcases mem_append.mp hu with hu | hu
          · have hn := hts.1 u hu
            rw [hf.2.2] at hn
            cases hn
          · exact hf.2.1 (mem_singleton.mp hu)
      rw [ih hts.2,Token.text,flatMap_same fun u hu => halfEscaped_plain (hplain u hu)]
      rfl

def outcome (t : Token UInt16) : JsString :=
  (entities (escapedUnits t)).replaced 38 59 (fun b => isNumeric b=true) numericText

def isDecoded (b : JsString) : Prop := b∈named ∨ isNumeric b=true

theorem unescaped (u : UInt16) : entities (escapedUnits (.unit u))=.unit u := by
  rw [escapedUnits,escapedUnit]
  split_ifs with h1 h2 h3 h4
  · rw [h1]; decide
  · rw [h2]; decide
  · rw [h3]; decide
  · rw [h4]; decide
  · rfl

theorem numericText_short (b : JsString) : (numericText b).length ≤ 2 := by
  rw [numericText,fromCodePoint]
  split_ifs <;> simp

theorem outcome_cases (t : Token UInt16) : (outcome t).length < (t.text 38 59).length ∨
    outcome t=t.text 38 59 := by
  cases t with
  | unit u =>
    right
    rw [outcome,unescaped]
    rfl
  | ref b =>
    rw [outcome,escapedUnits]
    by_cases hnamed : b∈named
    · left
      obtain ⟨u,hu⟩ := entities_named hnamed
      rw [hu]
      simp [Token.replaced,Token.text,reference]
    · rw [entities_other hnamed]
      by_cases hn : isNumeric b=true
      · left
        obtain ⟨digits,rfl,hne,-⟩ := numeric_cases hn
        have hpos : 0 < digits.length := length_pos_iff.mpr hne
        have hshort := numericText_short (35::digits)
        simp only [Token.replaced,if_pos hn,Token.text,reference,cons_append,
          length_cons,length_append,length_nil]
        omega
      · right
        simp [Token.replaced,Token.text,hn]

theorem outcome_ref : outcome (.ref b)=reference 38 59 b ↔ ¬isDecoded b := by
  rw [outcome,escapedUnits]
  constructor
  · rintro h (hnamed | hn)
    · obtain ⟨u,hu⟩ := entities_named hnamed
      rw [hu] at h
      have hlen := congrArg List.length h
      simp [Token.replaced,reference] at hlen
    · by_cases hnamed : b∈named
      · obtain ⟨u,hu⟩ := entities_named hnamed
        rw [hu] at h
        have hlen := congrArg List.length h
        simp [Token.replaced,reference] at hlen
      · rw [entities_other hnamed,Token.replaced,if_pos hn] at h
        obtain ⟨digits,rfl,hne,-⟩ := numeric_cases hn
        have hpos : 0 < digits.length := length_pos_iff.mpr hne
        have hshort := numericText_short (35::digits)
        have hlen := congrArg List.length h
        simp only [reference,cons_append,length_cons,length_append,length_nil] at hlen
        omega
  · intro h
    have hnamed : b∉named := fun hb => h (.inl hb)
    have hn : ¬isNumeric b=true := fun hb => h (.inr hb)
    rw [entities_other hnamed,Token.replaced,if_neg hn]

theorem flatMap_shorter {α β : Type} {f g : β → List α} (ts : List β)
    (h : ∀t,(f t).length < (g t).length ∨ f t=g t) :
    (ts.flatMap f).length ≤ (ts.flatMap g).length := by
  induction ts with
  | nil => exact Nat.le_refl _
  | cons t ts ih =>
    rw [flatMap_cons,flatMap_cons,length_append,length_append]
    rcases h t with ht | ht
    · omega
    · rw [ht]
      omega

theorem flatMap_unchanged {α β : Type} {f g : β → List α} {ts : List β}
    (h : ∀t,(f t).length < (g t).length ∨ f t=g t) : ts.flatMap f=ts.flatMap g ↔ ∀t∈ts,f t=g t := by
  induction ts with
  | nil => simp
  | cons t ts ih =>
    rw [flatMap_cons,flatMap_cons,forall_mem_cons,←ih]
    rcases h t with ht | ht
    · constructor
      · intro he
        have hlen := congrArg List.length he
        have hrest := flatMap_shorter ts h
        rw [length_append,length_append] at hlen
        omega
      · rintro ⟨he,-⟩
        rw [he] at ht
        exact absurd ht (Nat.lt_irrefl _)
    · rw [ht]
      simp

theorem spells_iff {t : JsString} (hts : Apart 38 59 isName ts)
    (ht : flat 38 59 ts=t) : SpellsReference t ↔ ∃b,isDecoded b ∧ .ref b∈ts := by
  have hall : named.all (fun b => b.all isName)=true := by decide
  have hnames : ∀b∈named,Named b := fun b hb => named_of (all_eq_true.mp hall b hb)
  subst ht
  constructor
  · rintro (⟨b,hb,h⟩ | ⟨b,hb,h⟩)
    · have hb' : b∈named := by
        simp only [named,map_cons,map_nil,mem_cons,not_mem_nil,or_false] at hb ⊢
        rcases hb with h | h | h
        · exact .inl h
        · exact .inr (.inr (.inr (.inl h)))
        · exact .inr (.inr (.inr (.inr h)))
      exact ⟨b,.inl hb',(mem_ref_iff delimits hts (hnames b hb')).mp h⟩
    · exact ⟨b,.inr hb,(mem_ref_iff delimits hts (numeric_names hb)).mp h⟩
  · rintro ⟨b,hb | hb,h⟩
    · have hin := (mem_ref_iff delimits hts (hnames b hb)).mpr h
      simp only [named,map_cons,map_nil,mem_cons,not_mem_nil,or_false] at hb
      rcases hb with rfl | rfl | rfl | rfl | rfl
      · exact .inl ⟨_,by simp,hin⟩
      · exact .inr ⟨_,by decide,hin⟩
      · exact .inr ⟨_,by decide,hin⟩
      · exact .inl ⟨_,by simp,hin⟩
      · exact .inl ⟨_,by simp,hin⟩
    · exact .inr ⟨b,hb,(mem_ref_iff delimits hts (numeric_names hb)).mpr h⟩

theorem decode_escapeHtml (t : JsString) :
    decodeHtmlText (escapeHtml t)=.ok t ↔ ¬SpellsReference t := by
  obtain ⟨ts,hts,ht⟩ := exists_tokens t
  have hamp : replaceAll ampersand [38] (escapeHtml t)=flat 38 59 (ts.map escapedUnits) := by
    rw [ampersands_back,←ht,halfEscaped_flat hts]
  rw [decodeHtmlText_tokens (escapedUnits_exchanges.apart hts) hamp,spells_iff hts ht]
  have hall : ((ts.map escapedUnits).map entities).flatMap
      (Token.replaced 38 59 (fun b => isNumeric b=true) numericText)=t ↔
      ∀τ∈ts,outcome τ=τ.text 38 59 := by
    rw [←flatMap_unchanged outcome_cases,map_map,flatMap_map,←ht]
    rfl
  constructor
  · rintro h ⟨b,hb,hmem⟩
    split at h
    · cases h
    · have hsame := hall.mp (Except.ok.inj h) _ hmem
      exact outcome_ref.mp hsame hb
  · intro h
    have hsame : ∀τ∈ts,outcome τ=τ.text 38 59 := by
      intro τ hτ
      cases τ with
      | unit u =>
        rw [outcome,unescaped]
        rfl
      | ref b => exact outcome_ref.mpr fun hb => h ⟨b,hb,hτ⟩
    have hsmall : ((ts.map escapedUnits).map entities).any huge=false := by
      rw [←Bool.not_eq_true,any_huge]
      rintro ⟨b,hn,hlarge,hmem⟩
      obtain ⟨τ,hτ,heq⟩ := mem_map.mp hmem
      cases τ with
      | unit u =>
        have hsmall := named_small (escapedUnit_named heq)
        rw [huge,hn,Bool.true_and,decide_eq_false_iff_not] at hsmall
        exact hsmall hlarge
      | ref c =>
        obtain rfl : c=b := Token.ref.inj heq
        exact h ⟨c,.inr hn,hτ⟩
    rw [hsmall,hall.mpr hsame]
    rfl

theorem htmlText_settled (value : JsString) :
    Settled (htmlText value) ↔ Settled (decodeHtmlText (withoutTags value)) := by
  rw [htmlText]
  cases decodeHtmlText (withoutTags value) with
  | ok t => exact ⟨fun _ => .inl ⟨t,rfl⟩,fun _ => .inl ⟨_,rfl⟩⟩
  | error e =>
    have hthrow : ∀f : JsString → Except Thrown JsString,((.error e : Except Thrown JsString) >>= f)=.error e :=
      fun f => rfl
    rw [hthrow]

/-- Decoding undoes escaping exactly for the texts that spell no reference behind the ampersands,
and the two readers settle exactly where no numeric reference is above the last code point. -/
theorem html_decoding (value : JsString) :
    (decodeHtmlText (escapeHtml value)=.ok value ↔ ¬SpellsReference value) ∧
      (Settled (decodeHtmlText value) ↔ ¬HugeReference value) ∧
      (Settled (htmlText value) ↔ ¬HugeReference (withoutTags value)) := by
  refine ⟨decode_escapeHtml value,decodeHtmlText_settled value,?_⟩
  rw [htmlText_settled,decodeHtmlText_settled]

/-- `&lt;` is escaped to `&amp;lt;` and decoded to `<`; `&#1114112;` is a `RangeError`. -/
theorem html_decoding_fails :
    decodeHtmlText (escapeHtml (js "&lt;".toList))≠.ok (js "&lt;".toList) ∧
      ¬Settled (decodeHtmlText (js "&#1114112;".toList)) ∧
      ¬Settled (htmlText (js "&#1114112;".toList)) := by
  have hthrow : decodeHtmlText (js "&#1114112;".toList)=.error .rangeError := by decide
  have hthrow' : htmlText (js "&#1114112;".toList)=.error .rangeError := by decide
  refine ⟨by decide,?_,?_⟩
  · rw [hthrow]
    rintro (⟨t,h⟩ | ⟨m,h⟩) <;> cases h
  · rw [hthrow']
    rintro (⟨t,h⟩ | ⟨m,h⟩) <;> cases h

end CardKeepr.Adapters
