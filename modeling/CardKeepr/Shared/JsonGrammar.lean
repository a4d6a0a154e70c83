import CardKeepr.Shared.Json
import Mathlib.Data.List.TakeDrop
import Mathlib.Data.List.TakeWhile

namespace CardKeepr.Shared

open List

variable {n : Nat} {u : UInt16} {f s t w x et ft rest : JsString}

/-- A string literal after its opening quote, closing quote included, and what it denotes. -/
inductive StringText : JsString → JsString → Prop
  | done : StringText [34] []
  | hex {a b c d v : UInt16} {t s : JsString} : unhex a b c d=some v → StringText t s →
      StringText (92::117::a::b::c::d::t) (v::s)
  | escape {e v : UInt16} {t s : JsString} : unescape e=some v → StringText t s →
      StringText (92::e::t) (v::s)
  | unit {u : UInt16} {t s : JsString} : u≠34 → u≠92 → ¬u.toNat < 32 → StringText t s →
      StringText (u::t) (u::s)

theorem stringBody_sound (h : stringBody s=some (t,rest)) : ∃l,s=l++rest ∧ StringText l t := by
  induction s using stringBody.induct generalizing t with
  | case1 => simp [stringBody.eq_def] at h
  | case2 us =>
    rw [stringBody.eq_def] at h
    simp only [if_true,Option.some.injEq,Prod.mk.injEq] at h
    exact ⟨[34],by simp [h.2],h.1 ▸ .done⟩
  | case3 a b c d us hx hq =>
    rw [stringBody.eq_def] at h
    simp [hx] at h
  | case4 a b c d us v hx hq ih =>
    rw [stringBody.eq_def] at h
    simp only [hx,hq,if_false,if_true] at h
    obtain ⟨r,hs,hr⟩ := Option.map_eq_some_iff.mp h
    cases hr
    obtain ⟨l,e,hl⟩ := ih hs
    exact ⟨_,by rw [e]; rfl,.hex hx hl⟩
  | case5 e us hn hx hq =>
    rw [stringBody.eq_def] at h
    simp [hx] at h
  | case6 e us hn v hx hq ih =>
    rw [stringBody.eq_def] at h
    simp only [hx,hq,if_false,if_true] at h
    obtain ⟨r,hs,hr⟩ := Option.map_eq_some_iff.mp h
    cases hr
    obtain ⟨l,e',hl⟩ := ih hs
    exact ⟨_,by rw [e']; rfl,.escape hx hl⟩
  | case7 =>
    rw [stringBody.eq_def] at h
    simp at h
  | case8 u us h1 h2 h3 =>
    rw [stringBody.eq_def] at h
    simp [h1,h2,h3] at h
  | case9 u us h1 h2 h3 ih =>
    rw [stringBody.eq_def] at h
    simp only [h1,h2,h3,if_false] at h
    obtain ⟨r,hs,hr⟩ := Option.map_eq_some_iff.mp h
    cases hr
    obtain ⟨l,e,hl⟩ := ih hs
    exact ⟨_,by rw [e]; rfl,.unit h1 h2 h3 hl⟩

theorem stringBody_complete {l : JsString} (h : StringText l t) (rest : JsString) :
    stringBody (l++rest)=some (t,rest) := by
  induction h with
  | done => rw [stringBody.eq_def]; simp
  | hex hx _ ih => rw [stringBody.eq_def]; simp [hx,ih]
  | @escape e v l s hx _ ih =>
    have he : e≠117 := by
      rintro rfl
      simp [unescape] at hx
    rw [stringBody.eq_def]
    simp only [cons_append]
    rw [if_neg (by decide),if_pos trivial]
    split
    · rename_i heq
      exact absurd (List.cons.inj heq).1 he
    · rename_i heq
      cases heq
      simp [hx,ih]
    · rename_i heq
      cases heq
  | unit h1 h2 h3 _ ih => rw [stringBody.eq_def]; simp [h1,h2,h3,ih]

def isNumberUnit (u : UInt16) : Bool := isDigit u || u==43 || u==45 || u==46 || u==69 || u==101

def NumberEnd (rest : JsString) : Prop := ∀u,rest.head?=some u → isNumberUnit u=false

def Digits (ds : JsString) : Prop := ∀u ∈ ds,isDigit u=true

inductive WholeText : JsString → Prop
  | zero : WholeText [48]
  | digits {u : UInt16} {us : JsString} : u≠48 → Digits (u::us) → WholeText (u::us)

inductive FractionText : JsString → JsString → Prop
  | none : FractionText [] []
  | digits {ds : JsString} : ds≠[] → Digits ds → FractionText ds (46::ds)

inductive ExponentText : Int → JsString → Prop
  | none : ExponentText 0 []
  | bare {e : UInt16} {ds : JsString} : e=101 ∨ e=69 → ds≠[] → Digits ds →
      ExponentText (digitsValue ds) (e::ds)
  | plus {e : UInt16} {ds : JsString} : e=101 ∨ e=69 → ds≠[] → Digits ds →
      ExponentText (digitsValue ds) (e::43::ds)
  | minus {e : UInt16} {ds : JsString} : e=101 ∨ e=69 → ds≠[] → Digits ds →
      ExponentText (-digitsValue ds) (e::45::ds)

/-- A number literal without its sign. -/
inductive UnsignedText : ℚ → JsString → Prop
  | mk {w f ft et : JsString} {e : Int} : WholeText w → FractionText f ft → ExponentText e et →
      UnsignedText (digitsValue (w++f)*(10:ℚ)^(e-f.length)) (w++ft++et)

inductive NumberText : ℚ → JsString → Prop
  | positive {q : ℚ} {t : JsString} : UnsignedText q t → NumberText q t
  | negative {q : ℚ} {t : JsString} : UnsignedText q t → NumberText (-q) (45::t)

theorem span_digits {ds : JsString} (hd : Digits ds)
    (hr : ∀u,rest.head?=some u → isDigit u=false) : (ds++rest).span isDigit=(ds,rest) := by
  rw [span_eq_takeWhile_dropWhile,takeWhile_append_of_pos hd,dropWhile_append_of_pos hd]
  cases rest with
  | nil => simp
  | cons u us => simp [hr u rfl]

theorem span_sound (s : JsString) :
    s=(s.span isDigit).1++(s.span isDigit).2 ∧ Digits (s.span isDigit).1 := by
  rw [span_eq_takeWhile_dropWhile]
  exact ⟨(takeWhile_append_dropWhile).symm,fun u hu => mem_takeWhile_imp hu⟩

theorem integerPart_sound (h : integerPart s=some (w,rest)) : s=w++rest ∧ WholeText w := by
  cases s with
  | nil => simp [integerPart] at h
  | cons u us =>
    simp only [integerPart] at h
    split at h
    · cases h
      rename_i hu
      exact ⟨by simp [hu],.zero⟩
    · rename_i hu
      split at h
      · rename_i hd
        obtain ⟨hs,hw⟩ := span_sound (u::us)
        have e := Option.some.inj h
        rw [e] at hs hw
        refine ⟨hs,?_⟩
        cases w with
        | nil => simp [span_eq_takeWhile_dropWhile,hd] at e
        | cons x xs =>
          have hx : u=x := (List.cons.inj hs).1
          exact .digits (hx ▸ hu) hw
      · cases h

theorem integerPart_complete (h : WholeText w)
    (hr : ∀u,rest.head?=some u → isDigit u=false) : integerPart (w++rest)=some (w,rest) := by
  cases h with
  | zero => simp [integerPart]
  | @digits u us hu hd =>
    have hs := span_digits hd hr
    simp only [cons_append] at hs ⊢
    simp [-span_eq_takeWhile_dropWhile,integerPart,hu,hd u (by simp),hs]

theorem fractionPart_sound (h : fractionPart s=some (f,rest)) :
    ∃ft,s=ft++rest ∧ FractionText f ft := by
  unfold fractionPart at h
  split at h
  · rename_i us
    split at h
    · cases h
    · rename_i hne
      obtain ⟨hs,hd⟩ := span_sound us
      have e := Option.some.inj h
      rw [e] at hs hd hne
      exact ⟨46::f,by simpa using hs,.digits hne hd⟩
  · cases h
    exact ⟨[],rfl,.none⟩

theorem fractionPart_complete (h : FractionText f ft)
    (hr : ∀u,rest.head?=some u → isDigit u=false ∧ u≠46) :
    fractionPart (ft++rest)=some (f,rest) := by
  cases h with
  | none =>
    cases rest with
    | nil => simp [fractionPart]
    | cons u us =>
      have hu := (hr u rfl).2
      unfold fractionPart
      split
      · rename_i heq
        exact absurd (List.cons.inj heq).1 hu
      · rfl
  | digits hne hd =>
    have hs := span_digits hd fun u hu => (hr u hu).1
    simp [-span_eq_takeWhile_dropWhile,fractionPart,hs,hne]

theorem exponentPart_sound {e : Int} (h : exponentPart s=some (e,rest)) :
    ∃et,s=et++rest ∧ ExponentText e et := by
  unfold exponentPart at h
  split at h
  · cases h
    exact ⟨[],rfl,.none⟩
  · rename_i u us
    split at h
    · rename_i hu
      split at h
      rename_i sign ds hsign
      split at h
      · cases h
      · rename_i hne
        obtain ⟨hs,hd⟩ := span_sound ds
        simp only [Option.some.injEq,Prod.mk.injEq] at h
        obtain ⟨rfl,rfl⟩ := h
        split at hsign
        · cases hsign
          refine ⟨u::43::(ds.span isDigit).1,by simp,?_⟩
          simpa using ExponentText.plus hu hne hd
        · cases hsign
          refine ⟨u::45::(ds.span isDigit).1,by simp,?_⟩
          simpa using ExponentText.minus hu hne hd
        · cases hsign
          refine ⟨u::(us.span isDigit).1,by simp,?_⟩
          simpa using ExponentText.bare hu hne hd
    · cases h
      exact ⟨[],rfl,.none⟩

theorem exponentPart_complete {e : Int} (h : ExponentText e et)
    (hr : NumberEnd rest) : exponentPart (et++rest)=some (e,rest) := by
  have hdr : ∀u,rest.head?=some u → isDigit u=false := by
    intro u hu
    have := hr u hu
    simp only [isNumberUnit,Bool.or_eq_false_iff] at this
    exact this.1.1.1.1.1
  cases h with
  | none =>
    cases rest with
    | nil => rfl
    | cons u us =>
      have := hr u rfl
      simp only [isNumberUnit,Bool.or_eq_false_iff,beq_eq_false_iff_ne] at this
      simp [exponentPart,this.2,this.1.2]
  | @bare e ds he hne hd =>
    have hs := span_digits hd hdr
    obtain ⟨x,xs,rfl⟩ := exists_cons_of_ne_nil hne
    have hx := hd x (by simp)
    have h43 : x≠43 := by rintro rfl; simp [isDigit] at hx
    have h45 : x≠45 := by rintro rfl; simp [isDigit] at hx
    simp only [exponentPart,cons_append,if_pos he] at hs ⊢
    split
    · rename_i heq
      exact absurd (List.cons.inj heq).1 h43
    · rename_i heq
      exact absurd (List.cons.inj heq).1 h45
    · simp [-span_eq_takeWhile_dropWhile,hs]
  | plus he hne hd => simp [-span_eq_takeWhile_dropWhile,exponentPart,he,span_digits hd hdr,hne]
  | minus he hne hd => simp [-span_eq_takeWhile_dropWhile,exponentPart,he,span_digits hd hdr,hne]

theorem WholeText.head (h : WholeText w) (rest : JsString) :
    ∃u us,w++rest=u::us ∧ isDigit u=true := by
  cases h with
  | zero => exact ⟨48,rest,rfl,by decide⟩
  | @digits u us hu hd => exact ⟨u,us++rest,rfl,hd u (by simp)⟩

theorem NumberText.units {q : ℚ} (h : NumberText q t) : ∀u ∈ t,isNumberUnit u=true := by
  have hdig : ∀{ds : JsString},Digits ds → ∀u ∈ ds,isNumberUnit u=true := fun hd u hu => by
    simp [isNumberUnit,hd u hu]
  have hun : ∀{q t},UnsignedText q t → ∀u ∈ t,isNumberUnit u=true := by
    rintro _ _ ⟨hw,hf,he⟩ u hu
    simp only [mem_append] at hu
    obtain (hu|hu)|hu := hu
    · cases hw with
      | zero => simp only [mem_singleton] at hu; subst hu; decide
      | digits _ hd => exact hdig hd u hu
    · cases hf with
      | none => simp at hu
      | digits _ hd =>
        obtain rfl|hu := mem_cons.mp hu
        · decide
        · exact hdig hd u hu
    · cases he with
      | none => simp at hu
      | bare he _ hd =>
        obtain rfl|hu := mem_cons.mp hu
        · rcases he with rfl|rfl <;> decide
        · exact hdig hd u hu
      | plus he _ hd =>
        obtain rfl|hu := mem_cons.mp hu
        · rcases he with rfl|rfl <;> decide
        · obtain rfl|hu := mem_cons.mp hu
          · decide
          · exact hdig hd u hu
      | minus he _ hd =>
        obtain rfl|hu := mem_cons.mp hu
        · rcases he with rfl|rfl <;> decide
        · obtain rfl|hu := mem_cons.mp hu
          · decide
          · exact hdig hd u hu
  cases h with
  | positive h => exact hun h
  | negative h =>
    intro u hu
    obtain rfl|hu := mem_cons.mp hu
    · decide
    · exact hun h u hu

theorem UnsignedText.head {q : ℚ} (h : UnsignedText q t) (rest : JsString) :
    ∃u us,t++rest=u::us ∧ isDigit u=true := by
  obtain @⟨w,f,ft,et,e,hw,hf,he⟩ := h
  obtain ⟨u,us,hu,hd⟩ := hw.head (ft++(et++rest))
  exact ⟨u,us,by rw [←hu]; simp,hd⟩

theorem NumberText.head {q : ℚ} (h : NumberText q t) (rest : JsString) :
    ∃u us,t++rest=u::us ∧ (isDigit u=true ∨ u=45) := by
  cases h with
  | positive h =>
    obtain ⟨u,us,hu,hd⟩ := h.head rest
    exact ⟨u,us,hu,.inl hd⟩
  | negative h => exact ⟨45,_,rfl,.inr rfl⟩

theorem unsignedNumber_sound {q : ℚ}
    (h : unsignedNumber s=some (q,rest)) : ∃t,s=t++rest ∧ UnsignedText q t := by
  simp only [unsignedNumber,Option.bind_eq_bind,Option.bind_eq_some_iff,Prod.exists] at h
  obtain ⟨w,r1,hw,f,r2,hf,e,r3,he,hq⟩ := h
  cases hq
  obtain ⟨rfl,tw⟩ := integerPart_sound hw
  obtain ⟨ft,rfl,tf⟩ := fractionPart_sound hf
  obtain ⟨et,rfl,te⟩ := exponentPart_sound he
  exact ⟨w++ft++et,by simp,⟨tw,tf,te⟩⟩

theorem parseNumber_sound {q : ℚ} (h : parseNumber s=some (q,rest)) :
    ∃t,s=t++rest ∧ NumberText q t := by
  unfold parseNumber at h
  split at h
  · obtain ⟨r,hr,e⟩ := Option.map_eq_some_iff.mp h
    cases e
    obtain ⟨t,rfl,ht⟩ := unsignedNumber_sound hr
    exact ⟨45::t,rfl,.negative ht⟩
  · obtain ⟨t,rfl,ht⟩ := unsignedNumber_sound h
    exact ⟨t,rfl,.positive ht⟩

theorem NumberEnd.digit (h : NumberEnd rest) : ∀u,rest.head?=some u → isDigit u=false ∧ u≠46 := by
  intro u hu
  have := h u hu
  simp only [isNumberUnit,Bool.or_eq_false_iff,beq_eq_false_iff_ne] at this
  exact ⟨this.1.1.1.1.1,this.1.1.2⟩

theorem ExponentText.end {e : Int} (h : ExponentText e et)
    (hr : NumberEnd rest) : ∀u,(et++rest).head?=some u → isDigit u=false ∧ u≠46 := by
  cases h with
  | none => exact hr.digit
  | bare he _ _ => intro u hu; cases hu; rcases he with rfl|rfl <;> decide
  | plus he _ _ => intro u hu; cases hu; rcases he with rfl|rfl <;> decide
  | minus he _ _ => intro u hu; cases hu; rcases he with rfl|rfl <;> decide

theorem FractionText.end (h : FractionText f ft)
    (hr : ∀u,rest.head?=some u → isDigit u=false ∧ u≠46) :
    ∀u,(ft++rest).head?=some u → isDigit u=false := by
  cases h with
  | none => exact fun u hu => (hr u hu).1
  | digits _ _ => intro u hu; cases hu; decide

theorem unsignedNumber_complete {q : ℚ} (h : UnsignedText q t)
    (hr : NumberEnd rest) : unsignedNumber (t++rest)=some (q,rest) := by
  obtain @⟨w,f,ft,et,e,hw,hf,he⟩ := h
  have hw := integerPart_complete hw (hf.end (he.end hr))
  have hf := fractionPart_complete hf (he.end hr)
  have he := exponentPart_complete he hr
  simp [unsignedNumber,hw,hf,he]

theorem parseNumber_complete {q : ℚ} (h : NumberText q t)
    (hr : NumberEnd rest) : parseNumber (t++rest)=some (q,rest) := by
  cases h with
  | positive h =>
    obtain ⟨u,us,hu,hd⟩ := h.head rest
    have hne : u≠45 := by rintro rfl; simp [isDigit] at hd
    unfold parseNumber
    split
    · rename_i heq
      exact absurd (List.cons.inj (hu.symm.trans heq)).1 hne
    · exact unsignedNumber_complete h hr
  | negative h => simp [parseNumber,unsignedNumber_complete h hr]

def Spaces (w : JsString) : Prop := ∀u ∈ w,isSpace u=true

theorem spaces_nil : Spaces [] := fun _ h => by cases h

theorem skipSpace_sound (s : JsString) : ∃w,Spaces w ∧ s=w++skipSpace s :=
  ⟨s.takeWhile isSpace,fun _ hu => mem_takeWhile_imp hu,takeWhile_append_dropWhile.symm⟩

theorem skipSpace_append (h : Spaces w) (s : JsString) :
    skipSpace (w++s)=skipSpace s := dropWhile_append_of_pos h

theorem skipSpace_cons (h : isSpace u=false) (s : JsString) : skipSpace (u::s)=u::s := by
  simp [skipSpace,h]

/-- What a text can stand for: a value, the rest of an array or the rest of an object. -/
inductive Node where
  | value (v : Json)
  | items (vs : List Json)
  | members (ms : List (JsString × Json))

/-- The JSON grammar without surrounding space. -/
inductive Text : Node → JsString → Prop
  | null : Text (.value .null) (js ['n','u','l','l'])
  | yes : Text (.value (.bool true)) (js ['t','r','u','e'])
  | no : Text (.value (.bool false)) (js ['f','a','l','s','e'])
  | number {q : ℚ} {t : JsString} : NumberText q t → Text (.value (.num q)) t
  | string {s t : JsString} : StringText t s → Text (.value (.str s)) (34::t)
  | emptyArray {w : JsString} : Spaces w → Text (.value (.arr [])) (91::(w++[93]))
  | array {vs : List Json} {t : JsString} : Text (.items vs) t → Text (.value (.arr vs)) (91::t)
  | emptyObject {w : JsString} : Spaces w → Text (.value (.obj [])) (123::(w++[125]))
  | object {ms : List (JsString × Json)} {t : JsString} : Text (.members ms) t →
      Text (.value (.obj ms)) (123::t)
  | lastItem {v : Json} {w x t : JsString} : Spaces w → Spaces x → Text (.value v) t →
      Text (.items [v]) (w++(t++(x++[93])))
  | item {v : Json} {vs : List Json} {w x t r : JsString} : Spaces w → Spaces x →
      Text (.value v) t → Text (.items vs) r → Text (.items (v::vs)) (w++(t++(x++44::r)))
  | lastMember {k : JsString} {v : Json} {w x y z kt t : JsString} : Spaces w → Spaces x →
      Spaces y → Spaces z → StringText kt k → Text (.value v) t →
      Text (.members [(k,v)]) (w++34::(kt++(x++58::(y++(t++(z++[125]))))))
  | member {k : JsString} {v : Json} {ms : List (JsString × Json)} {w x y z kt t r : JsString} :
      Spaces w → Spaces x → Spaces y → Spaces z → StringText kt k → Text (.value v) t →
      Text (.members ms) r →
      Text (.members ((k,v)::ms)) (w++34::(kt++(x++58::(y++(t++(z++44::r))))))

theorem Text.head {v : Json} (h : Text (.value v) t) :
    ∃u us,t=u::us ∧ isSpace u=false ∧ u≠93 ∧ u≠125 := by
  cases h with
  | null => exact ⟨_,_,rfl,by decide,by decide,by decide⟩
  | yes => exact ⟨_,_,rfl,by decide,by decide,by decide⟩
  | no => exact ⟨_,_,rfl,by decide,by decide,by decide⟩
  | number h =>
    obtain ⟨u,us,e,hu⟩ := h.head []
    refine ⟨u,us,by simpa using e,?_⟩
    rcases hu with hd|rfl
    · simp only [isDigit,decide_eq_true_eq] at hd
      simp only [isSpace,Bool.or_eq_false_iff,beq_eq_false_iff_ne]
      refine ⟨⟨⟨⟨?_,?_⟩,?_⟩,?_⟩,?_,?_⟩ <;> (rintro rfl; revert hd; decide)
    · decide
  | string _ => exact ⟨_,_,rfl,by decide,by decide,by decide⟩
  | emptyArray _ => exact ⟨_,_,rfl,by decide,by decide,by decide⟩
  | array _ => exact ⟨_,_,rfl,by decide,by decide,by decide⟩
  | emptyObject _ => exact ⟨_,_,rfl,by decide,by decide,by decide⟩
  | object _ => exact ⟨_,_,rfl,by decide,by decide,by decide⟩

theorem keyword_sound {word : List Char} (h : keyword word s=some rest) : s=js word++rest := by
  unfold keyword at h
  split at h
  · rename_i hp
    obtain ⟨r,rfl⟩ := isPrefixOf_iff_prefix.mp hp
    cases h
    have hl : word.length=(js word).length := by simp [js]
    rw [hl,drop_left]
  · cases h

theorem keyword_complete (word : List Char) (rest : JsString) :
    keyword word (js word++rest)=some rest := by
  have hp : (js word).isPrefixOf (js word++rest)=true :=
    isPrefixOf_iff_prefix.mpr (prefix_append _ _)
  have hl : word.length=(js word).length := by simp [js]
  rw [keyword,if_pos hp,hl,drop_left]

/-- Everything the parser accepts at fuel `n` is in the grammar. -/
structure Sound (n : Nat) : Prop where
  value {s rest : JsString} {v : Json} : parseValue n s=some (v,rest) →
    ∃t,s=t++rest ∧ Text (.value v) t
  items {s rest : JsString} {vs : List Json} : parseItems n s=some (vs,rest) →
    ∃t,s=t++rest ∧ Text (.items vs) t
  members {s rest : JsString} {ms : List (JsString × Json)} :
    parseMembers n s=some (ms,rest) → ∃t,s=t++rest ∧ Text (.members ms) t

theorem head_tail (h : s.head?=some u) : s=u::s.tail := by
  cases s with
  | nil => cases h
  | cons x xs => cases h; rfl

theorem parseValue_sound (ih : Sound n) {v : Json}
    (h : parseValue (n+1) s=some (v,rest)) : ∃t,s=t++rest ∧ Text (.value v) t := by
  cases s with
  | nil => simp [parseValue] at h
  | cons u us =>
    obtain ⟨w,hw,hus⟩ := skipSpace_sound us
    simp only [parseValue] at h
    split_ifs at h with h1 h2 h3 h4 h5 h6 h7 h8
    · obtain ⟨r,hr,e⟩ := Option.map_eq_some_iff.mp h
      cases e
      obtain ⟨l,rfl,hl⟩ := stringBody_sound hr
      exact ⟨34::l,by rw [h1]; rfl,.string hl⟩
    · cases h
      rw [head_tail h3] at hus
      exact ⟨91::(w++[93]),by rw [h2]; nth_rewrite 1 [hus]; simp,.emptyArray hw⟩
    · obtain ⟨r,hr,e⟩ := Option.map_eq_some_iff.mp h
      cases e
      obtain ⟨t,ht,hl⟩ := ih.items hr
      exact ⟨91::t,by rw [h2,ht]; rfl,.array hl⟩
    · cases h
      rw [head_tail h5] at hus
      exact ⟨123::(w++[125]),by rw [h4]; nth_rewrite 1 [hus]; simp,.emptyObject hw⟩
    · obtain ⟨r,hr,e⟩ := Option.map_eq_some_iff.mp h
      cases e
      obtain ⟨t,ht,hl⟩ := ih.members hr
      exact ⟨123::t,by rw [h4,ht]; rfl,.object hl⟩
    · obtain ⟨r,hr,e⟩ := Option.map_eq_some_iff.mp h
      cases e
      exact ⟨_,keyword_sound hr,.null⟩
    · obtain ⟨r,hr,e⟩ := Option.map_eq_some_iff.mp h
      cases e
      exact ⟨_,keyword_sound hr,.yes⟩
    · obtain ⟨r,hr,e⟩ := Option.map_eq_some_iff.mp h
      cases e
      exact ⟨_,keyword_sound hr,.no⟩
    · obtain ⟨r,hr,e⟩ := Option.map_eq_some_iff.mp h
      cases e
      obtain ⟨t,ht,hl⟩ := parseNumber_sound hr
      exact ⟨t,ht,.number hl⟩

theorem parseItems_sound (ih : Sound n) {vs : List Json}
    (h : parseItems (n+1) s=some (vs,rest)) : ∃t,s=t++rest ∧ Text (.items vs) t := by
  simp only [parseItems] at h
  split at h
  · cases h
  · rename_i v s1 hv
    obtain ⟨w,hw,es⟩ := skipSpace_sound s
    obtain ⟨t,et,ht⟩ := ih.value hv
    obtain ⟨x,hx,es1⟩ := skipSpace_sound s1
    split at h
    · cases h
    · rename_i u us hs1
      rw [hs1] at es1
      split_ifs at h with h1 h2
      · obtain ⟨r,hr,e⟩ := Option.map_eq_some_iff.mp h
        cases e
        obtain ⟨l,rfl,hl⟩ := ih.items hr
        refine ⟨w++(t++(x++44::l)),?_,.item hw hx ht hl⟩
        rw [es,et,es1,h1]
        simp
      · cases h
        refine ⟨w++(t++(x++[93])),?_,.lastItem hw hx ht⟩
        rw [es,et,es1,h2]
        simp

theorem parseMembers_sound (ih : Sound n) {ms : List (JsString × Json)}
    (h : parseMembers (n+1) s=some (ms,rest)) : ∃t,s=t++rest ∧ Text (.members ms) t := by
  obtain ⟨w,hw,es⟩ := skipSpace_sound s
  simp only [parseMembers] at h
  split at h
  · cases h
  · rename_i q s1 hs
    rw [hs] at es
    split_ifs at h with hq
    split at h
    · cases h
    · rename_i k s2 hk
      obtain ⟨kt,es1,hkt⟩ := stringBody_sound hk
      obtain ⟨x,hx,es2⟩ := skipSpace_sound s2
      split at h
      · cases h
      · rename_i c s3 hs2
        rw [hs2] at es2
        split_ifs at h with hc
        split at h
        · cases h
        · rename_i v s4 hv
          obtain ⟨y,hy,es3⟩ := skipSpace_sound s3
          obtain ⟨t,et,ht⟩ := ih.value hv
          obtain ⟨z,hz,es4⟩ := skipSpace_sound s4
          split at h
          · cases h
          · rename_i u us hs4
            rw [hs4] at es4
            split_ifs at h with h1 h2
            · obtain ⟨r,hr,e⟩ := Option.map_eq_some_iff.mp h
              cases e
              obtain ⟨l,rfl,hl⟩ := ih.members hr
              refine ⟨_,?_,.member hw hx hy hz hkt ht hl⟩
              rw [es,es1,es2,es3,et,es4,h1,not_not.mp hq,not_not.mp hc]
              simp
            · cases h
              refine ⟨_,?_,.lastMember hw hx hy hz hkt ht⟩
              rw [es,es1,es2,es3,et,es4,h2,not_not.mp hq,not_not.mp hc]
              simp

theorem parse_sound (n : Nat) : Sound n := by
  induction n with
  | zero => exact ⟨fun h => by simp [parseValue] at h,fun h => by simp [parseItems] at h,
      fun h => by simp [parseMembers] at h⟩
  | succ n ih => exact ⟨parseValue_sound ih,parseItems_sound ih,parseMembers_sound ih⟩

/-- How the parser reads a text of the grammar at fuel `n`. -/
def Reads (n : Nat) (rest : JsString) : Node → JsString → Prop
  | .value v,t => NumberEnd rest → parseValue n (t++rest)=some (v,rest)
  | .items vs,t => parseItems n (t++rest)=some (vs,rest)
  | .members ms,t => parseMembers n (t++rest)=some (ms,rest)

theorem space_not_number (h : isSpace u=true) : isNumberUnit u=false := by
  simp only [isSpace,Bool.or_eq_true,beq_iff_eq] at h
  rcases h with ((rfl|rfl)|rfl)|rfl <;> decide

theorem numberEnd_space (hx : Spaces x) (hu : isNumberUnit u=false)
    (r : JsString) : NumberEnd (x++u::r) := by
  intro y hy
  cases x with
  | nil => cases hy; exact hu
  | cons a x => cases hy; exact space_not_number (hx y (by simp))

theorem skipSpace_text {v : Json} (hw : Spaces w) (ht : Text (.value v) t)
    (r : JsString) : skipSpace (w++(t++r))=t++r := by
  obtain ⟨u,us,rfl,hu,_⟩ := ht.head
  rw [skipSpace_append hw,cons_append,skipSpace_cons hu]

theorem skipSpace_delimiter (hx : Spaces x) (hu : isSpace u=false)
    (r : JsString) : skipSpace (x++u::r)=u::r := by
  rw [skipSpace_append hx,skipSpace_cons hu]

theorem Text.inner_head {node : Node} (h : Text node t) (r : JsString) :
    match node with
    | .value _ => True
    | .items _ => (skipSpace (t++r)).head?≠some 93
    | .members _ => (skipSpace (t++r)).head?≠some 125 := by
  cases h with
  | lastItem hw _ ht =>
    obtain ⟨u,us,rfl,hu,h93,_⟩ := ht.head
    simp [skipSpace_append hw,skipSpace_cons hu,h93]
  | item hw _ ht _ =>
    obtain ⟨u,us,rfl,hu,h93,_⟩ := ht.head
    simp [skipSpace_append hw,skipSpace_cons hu,h93]
  | lastMember hw _ _ _ _ _ =>
    simp [skipSpace_append hw,skipSpace_cons (show isSpace 34=false by decide)]
  | member hw _ _ _ _ _ _ =>
    simp [skipSpace_append hw,skipSpace_cons (show isSpace 34=false by decide)]
  | _ => trivial

theorem parseValue_number {q : ℚ} (h : NumberText q t)
    (hr : NumberEnd rest) : parseValue (n+1) (t++rest)=some (.num q,rest) := by
  obtain ⟨u,us,e,hu⟩ := h.head rest
  have hp := parseNumber_complete h hr
  rw [e] at hp ⊢
  have hne : u≠34 ∧ u≠91 ∧ u≠123 ∧ u≠110 ∧ u≠116 ∧ u≠102 := by
    rcases hu with hd|rfl
    · simp only [isDigit,decide_eq_true_eq] at hd
      refine ⟨?_,?_,?_,?_,?_,?_⟩ <;> (rintro rfl; revert hd; decide)
    · decide
  obtain ⟨h1,h2,h3,h4,h5,h6⟩ := hne
  simp only [parseValue,h1,h2,h3,h4,h5,h6,if_false,hp,Option.map_some]

/-- Every text of the grammar is read back, with fuel for its length. -/
theorem Text.reads {node : Node} (h : Text node t) :
    ∀n rest,t.length ≤ n → Reads n rest node t := by
  induction h with
  | null =>
    intro n rest hn _
    obtain ⟨m,rfl⟩ : ∃m,n=m+1 := ⟨n-1,by simp [js] at hn; omega⟩
    exact congrArg (Option.map fun r => (Json.null,r)) (keyword_complete ['n','u','l','l'] rest)
  | yes =>
    intro n rest hn _
    obtain ⟨m,rfl⟩ : ∃m,n=m+1 := ⟨n-1,by simp [js] at hn; omega⟩
    exact congrArg (Option.map fun r => (Json.bool true,r)) (keyword_complete ['t','r','u','e'] rest)
  | no =>
    intro n rest hn _
    obtain ⟨m,rfl⟩ : ∃m,n=m+1 := ⟨n-1,by simp [js] at hn; omega⟩
    exact congrArg (Option.map fun r => (Json.bool false,r))
      (keyword_complete ['f','a','l','s','e'] rest)
  | number h =>
    intro n rest hn hr
    obtain ⟨u,us,e,_⟩ := h.head []
    rw [append_nil] at e
    obtain ⟨m,rfl⟩ : ∃m,n=m+1 := ⟨n-1,by simp [e] at hn; omega⟩
    exact parseValue_number h hr
  | string h =>
    intro n rest hn _
    obtain ⟨m,rfl⟩ : ∃m,n=m+1 := ⟨n-1,by simp at hn; omega⟩
    simp [parseValue,stringBody_complete h]
  | emptyArray hw =>
    intro n rest hn _
    obtain ⟨m,rfl⟩ : ∃m,n=m+1 := ⟨n-1,by simp at hn; omega⟩
    simp [parseValue,skipSpace_delimiter hw (show isSpace 93=false by decide)]
  | array h ih =>
    intro n rest hn _
    obtain ⟨m,rfl⟩ : ∃m,n=m+1 := ⟨n-1,by simp at hn; omega⟩
    have hi : parseItems m _=_ := ih m rest (by simp at hn; omega)
    simp [parseValue,h.inner_head rest,hi]
  | emptyObject hw =>
    intro n rest hn _
    obtain ⟨m,rfl⟩ : ∃m,n=m+1 := ⟨n-1,by simp at hn; omega⟩
    simp [parseValue,skipSpace_delimiter hw (show isSpace 125=false by decide)]
  | object h ih =>
    intro n rest hn _
    obtain ⟨m,rfl⟩ : ∃m,n=m+1 := ⟨n-1,by simp at hn; omega⟩
    have hi : parseMembers m _=_ := ih m rest (by simp at hn; omega)
    simp [parseValue,h.inner_head rest,hi]
  | @lastItem v w x t hw hx ht ih =>
    intro n rest hn
    simp only [length_append,length_singleton] at hn
    obtain ⟨m,rfl⟩ : ∃m,n=m+1 := ⟨n-1,by omega⟩
    have hv : parseValue m _=_ := ih m (x++93::rest) (by omega)
      (numberEnd_space hx (by decide) rest)
    simp [Reads,parseItems,skipSpace_text hw ht,hv,
      skipSpace_delimiter hx (show isSpace 93=false by decide)]
  | @item v vs w x t r hw hx ht _ ih1 ih2 =>
    intro n rest hn
    simp only [length_append,length_cons] at hn
    obtain ⟨m,rfl⟩ : ∃m,n=m+1 := ⟨n-1,by omega⟩
    have hv : parseValue m _=_ := ih1 m (x++44::(r++rest)) (by omega)
      (numberEnd_space hx (by decide) _)
    have hi : parseItems m _=_ := ih2 m rest (by omega)
    simp [Reads,parseItems,skipSpace_text hw ht,hv,hi,
      skipSpace_delimiter hx (show isSpace 44=false by decide)]
  | @lastMember k v w x y z kt t hw hx hy hz hk ht ih =>
    intro n rest hn
    simp only [length_append,length_cons,length_nil] at hn
    obtain ⟨m,rfl⟩ : ∃m,n=m+1 := ⟨n-1,by omega⟩
    have hv : parseValue m _=_ := ih m (z++125::rest) (by omega)
      (numberEnd_space hz (by decide) rest)
    simp [Reads,parseMembers,stringBody_complete hk,skipSpace_text hy ht,hv,
      skipSpace_delimiter hw (show isSpace 34=false by decide),
      skipSpace_delimiter hx (show isSpace 58=false by decide),
      skipSpace_delimiter hz (show isSpace 125=false by decide)]
  | @member k v ms w x y z kt t r hw hx hy hz hk ht _ ih1 ih2 =>
    intro n rest hn
    simp only [length_append,length_cons] at hn
    obtain ⟨m,rfl⟩ : ∃m,n=m+1 := ⟨n-1,by omega⟩
    have hv : parseValue m _=_ := ih1 m (z++44::(r++rest)) (by omega)
      (numberEnd_space hz (by decide) _)
    have hi : parseMembers m _=_ := ih2 m rest (by omega)
    simp [Reads,parseMembers,stringBody_complete hk,skipSpace_text hy ht,hv,hi,
      skipSpace_delimiter hw (show isSpace 34=false by decide),
      skipSpace_delimiter hx (show isSpace 58=false by decide),
      skipSpace_delimiter hz (show isSpace 44=false by decide)]

theorem jsonSyntax_iff (text : JsString) (v : Json) : jsonSyntax text=some v ↔
    ∃w t x,text=w++(t++x) ∧ Spaces w ∧ Spaces x ∧ Text (.value v) t := by
  constructor
  · intro h
    unfold jsonSyntax at h
    split at h
    · cases h
    · rename_i v' rest hp
      split_ifs at h with hx
      cases h
      obtain ⟨w,hw,e⟩ := skipSpace_sound text
      obtain ⟨t,et,ht⟩ := (parse_sound _).value hp
      obtain ⟨x,hsx,ex⟩ := skipSpace_sound rest
      rw [hx,append_nil] at ex
      refine ⟨w,t,rest,?_,hw,ex ▸ hsx,ht⟩
      rw [←et,←e]
  · rintro ⟨w,t,x,rfl,hw,hx,ht⟩
    have hend : NumberEnd x := by
      cases x with
      | nil => intro u hu; cases hu
      | cons a x =>
        intro u hu
        cases hu
        exact space_not_number (hx _ (by simp))
    have hp := ht.reads (2*(w++(t++x)).length+1) x (by simp; omega) hend
    have hxx : skipSpace x=[] := by
      have := skipSpace_append hx []
      rwa [append_nil] at this
    rw [jsonSyntax,skipSpace_text hw ht,hp]
    simp [hxx]

end CardKeepr.Shared
