import CardKeepr.Shared.CanonicalJson
import Mathlib.Tactic.FieldSimp
import Mathlib.Tactic.Ring

namespace CardKeepr.Shared

open List

variable {v w : Json}

theorem hexDigit_value {n : Nat} (h : n < 16) : hexValue (hexDigit n)=some n := by
  interval_cases n <;> decide

theorem hex4_unhex (u : UInt16) (t s : JsString) (h : StringText t s) :
    StringText (92::117::(hex4 u++t)) (u::s) := by
  have hu := u.toNat_lt
  refine StringText.hex ?_ h
  simp only [unhex,hexDigit_value (show u.toNat/4096 < 16 by omega),
    hexDigit_value (show u.toNat/256%16 < 16 by omega),
    hexDigit_value (show u.toNat/16%16 < 16 by omega),
    hexDigit_value (show u.toNat%16 < 16 by omega),bind,Option.bind]
  rw [show u.toNat/4096*4096+u.toNat/256%16*256+u.toNat/16%16*16+u.toNat%16=u.toNat by omega]
  simp

theorem escapeUnit_text (u : UInt16) {t s : JsString} (h : StringText t s) :
    StringText (escapeUnit u++t) (u::s) := by
  unfold escapeUnit
  split_ifs with h1 h2 h3 h4 h5 h6 h7 h8
  · subst h1; exact .escape rfl h
  · subst h2; exact .escape rfl h
  · subst h3; exact .escape rfl h
  · subst h4; exact .escape rfl h
  · subst h5; exact .escape rfl h
  · subst h6; exact .escape rfl h
  · subst h7; exact .escape rfl h
  · exact hex4_unhex u t s h
  · simp only [Bool.or_eq_true,not_or,decide_eq_true_eq] at h8
    exact .unit h1 h2 h8.1 h

theorem pair_units {u v : UInt16} (h : isPair u v=true) :
    (u≠34 ∧ u≠92 ∧ ¬u.toNat < 32) ∧ v≠34 ∧ v≠92 ∧ ¬v.toNat < 32 := by
  simp only [isPair,isHigh,isLow,Bool.and_eq_true,decide_eq_true_eq] at h
  refine ⟨⟨?_,?_,by omega⟩,?_,?_,by omega⟩ <;> (rintro rfl; simp at h)

theorem quoteBody_text (s : JsString) : StringText (quoteBody s++[34]) s := by
  induction s using quoteBody.induct with
  | case1 => exact .done
  | case2 u => exact escapeUnit_text u .done
  | case3 u v us h ih =>
    obtain ⟨⟨u1,u2,u3⟩,v1,v2,v3⟩ := pair_units h
    rw [quoteBody,if_pos h]
    exact .unit u1 u2 u3 (.unit v1 v2 v3 ih)
  | case4 u v us h ih =>
    rw [quoteBody,if_neg h,append_assoc]
    exact escapeUnit_text u ih

theorem quote_text (s : JsString) : Text (.value (.str s)) (quote s) := .string (quoteBody_text s)

theorem stripped_value (ds : JsString) :
    digitsValue ds=digitsValue (ds.reverse.dropWhile (·==48)).reverse*
      10^(ds.length-(ds.reverse.dropWhile (·==48)).length) := by
  have hs : ds=(ds.reverse.dropWhile (·==48)).reverse++(ds.reverse.takeWhile (·==48)).reverse := by
    rw [←reverse_append,takeWhile_append_dropWhile,reverse_reverse]
  have hz : ∀zs : JsString,(∀u ∈ zs,u=48) → digitsValue zs=0 := by
    intro zs
    induction zs with
    | nil => simp [digitsValue]
    | cons z zs ih =>
      intro h
      have : z::zs=[z]++zs := rfl
      rw [this,digitsValue_append,ih fun u hu => h u (by simp [hu]),h z (by simp)]
      simp [digitsValue,digitValue]
  have hzero : digitsValue (ds.reverse.takeWhile (·==48)).reverse=0 := by
    refine hz _ fun u hu => ?_
    simpa using mem_takeWhile_imp (mem_reverse.mp hu)
  nth_rewrite 1 [hs]
  rw [digitsValue_append,hzero,add_zero]
  congr 2
  have hl := congrArg List.length hs
  simp only [length_append,length_reverse] at hl ⊢
  omega

theorem fraction_text {us : JsString} (h : Digits us) :
    FractionText us (if us=[] then [] else 46::us) := by
  split
  · rename_i e
    exact e ▸ .none
  · rename_i e
    exact .digits e h

theorem exponential_text {n : Nat} (h : n≠0) : UnsignedText n (exponential (decimal n)) := by
  have hv := stripped_value (decimal n)
  rw [digitsValue_decimal] at hv
  obtain ⟨r,hr⟩ : (decimal n).reverse.dropWhile (·==48) <:+ (decimal n).reverse :=
    dropWhile_suffix _
  have hp : decimal n=((decimal n).reverse.dropWhile (·==48)).reverse++r.reverse := by
    rw [←reverse_append,hr,reverse_reverse]
  generalize hsig : ((decimal n).reverse.dropWhile (·==48)).reverse=sig at hv hp
  have hlen : ((decimal n).reverse.dropWhile (·==48)).length=sig.length := by
    rw [←hsig,length_reverse]
  rw [hlen] at hv
  cases sig with
  | nil =>
    simp [digitsValue] at hv
    exact absurd hv h
  | cons u us =>
    obtain ⟨x,xs,e,hx⟩ := decimal_head n
    have hd := decimal_digits n
    have hu : x=u := by
      rw [e] at hp
      exact (List.cons.inj hp).1
    have hdu : Digits (u::us) := fun y hy => hd y (by rw [hp]; simp at hy ⊢; tauto)
    have hw : WholeText [u] := .digits (hu ▸ hx h) fun y hy => hdu y (by simp at hy ⊢; tauto)
    have hf := fraction_text fun y hy => hdu y (mem_cons_of_mem u hy)
    have hne : decimal ((decimal n).length-1)≠[] := by
      obtain ⟨a,as,e,_⟩ := decimal_head ((decimal n).length-1)
      simp [e]
    have he := ExponentText.plus (.inl rfl : (101:UInt16)=101 ∨ (101:UInt16)=69) hne
      (decimal_digits _)
    have hle : us.length ≤ (decimal n).length-1 := by
      have := congrArg List.length hp
      simp at this
      omega
    have hq : (n:ℚ)=digitsValue ([u]++us)*(10:ℚ)^
        ((digitsValue (decimal ((decimal n).length-1)):Int)-us.length) := by
      rw [digitsValue_decimal,←Nat.cast_sub hle,zpow_natCast]
      nth_rewrite 1 [hv]
      rw [length_cons,Nat.sub_sub]
      push_cast
      rw [Nat.add_comm 1]
      rfl
    rw [hq]
    simpa [exponential,hsig] using UnsignedText.mk hw hf he

theorem integerText_text (m : Int) : NumberText m (integerText m) := by
  have ht : UnsignedText m.natAbs
      (if m.natAbs < 10^21 then decimal m.natAbs else exponential (decimal m.natAbs)) := by
    split
    · have := UnsignedText.mk (decimal_whole m.natAbs) .none .none
      simpa [digitsValue_decimal] using this
    · rename_i h
      exact exponential_text (by omega)
  simp only [integerText]
  split
  · rename_i h
    have hm : (m:ℚ)=-(m.natAbs:ℚ) := by
      rw [←Int.cast_natCast,←Int.cast_neg]
      congr 1
      omega
    rw [hm]
    exact .negative ht
  · rename_i h
    have hm : (m:ℚ)=(m.natAbs:ℚ) := by
      rw [←Int.cast_natCast]
      congr 1
      omega
    rw [hm]
    exact .positive ht

theorem printItems_text {vs : List Json} (h : ∀w ∈ v::vs,Text (.value w) w.print) :
    Text (.items (v::vs)) (commas ((v::vs).map Json.print)++[93]) := by
  induction vs generalizing v with
  | nil => simpa [commas] using Text.lastItem spaces_nil spaces_nil (h v (by simp))
  | cons w vs ih =>
    have hr := ih fun x hx => h x (mem_cons_of_mem v hx)
    simpa [commas] using Text.item spaces_nil spaces_nil (h v (by simp)) hr

theorem printMembers_text {m : JsString × Json} {ms : List (JsString × Json)}
    (h : ∀n ∈ m::ms,Text (.value n.2) n.2.print) : Text (.members (m::ms))
      (commas ((m::ms).map fun m => quote m.1++58::m.2.print)++[125]) := by
  induction ms generalizing m with
  | nil =>
    simpa [commas,quote] using Text.lastMember spaces_nil spaces_nil spaces_nil spaces_nil
      (quoteBody_text m.1) (h m (by simp))
  | cons n ms ih =>
    have hr := ih fun x hx => h x (mem_cons_of_mem m hx)
    simpa [commas,quote] using Text.member spaces_nil spaces_nil spaces_nil spaces_nil
      (quoteBody_text m.1) (h m (by simp)) hr

theorem print_text (h : v.Integral) : Text (.value v) v.print := by
  induction v using Json.induct with
  | null => exact .null
  | bool b =>
    cases b with
    | true => exact .yes
    | false => exact .no
  | num q =>
    have hq : (q.num:ℚ)=q := Rat.den_eq_one_iff q |>.mp h
    have ht := integerText_text q.num
    rw [hq] at ht
    exact .number ht
  | str s => exact quote_text s
  | arr vs ih =>
    have h := (all_arr vs).mp h
    rw [Json.print,printItems_map]
    cases vs with
    | nil => exact .emptyArray spaces_nil
    | cons v vs => exact .array (printItems_text fun w hw => ih w hw (h w hw))
  | obj ms ih =>
    have h := ((all_obj ms).mp h).2
    rw [Json.print,printMembers_map]
    cases ms with
    | nil => exact .emptyObject spaces_nil
    | cons m ms => exact .object (printMembers_text fun n hn => ih n hn (h n hn))

theorem jsonSyntax_print (h : v.Integral) : jsonSyntax v.print=some v :=
  (jsonSyntax_iff _ v).mpr ⟨[],v.print,[],by simp,spaces_nil,spaces_nil,print_text h⟩

theorem print_inj (hv : v.Integral) (hw : w.Integral) (h : v.print=w.print) : v=w := by
  have := jsonSyntax_print hv
  rw [h,jsonSyntax_print hw] at this
  exact (Option.some.inj this).symm

variable (nfc : Nfc)

theorem canonical_integral (h : v.Integral) : (v.canonical nfc).Integral := by
  induction v using Json.induct with
  | null => trivial
  | bool b => trivial
  | num q => exact h
  | str s => trivial
  | arr vs ih =>
    have h := (all_arr vs).mp h
    rw [canonical_arr]
    refine (all_arr _).mpr fun w hw => ?_
    obtain ⟨v,hv,rfl⟩ := mem_map.mp hw
    exact ih v hv (h v hv)
  | obj ms ih =>
    have h := ((all_obj ms).mp h).2
    rw [canonical_obj]
    refine (all_obj _).mpr ⟨trivial,fun n hn => ?_⟩
    obtain ⟨m,hm,rfl⟩ := mem_map.mp ((sortedMembers_perm nfc ms).mem_iff.mp hn)
    exact ih m hm (h m hm)

theorem canonicalJson_eq_iff (hv : v.Integral) (hw : w.Integral) :
    canonicalJson nfc v=canonicalJson nfc w ↔ v.canonical nfc=w.canonical nfc := by
  rw [canonicalJson,canonicalJson,canonicalJsonAt_eq nfc hv,canonicalJsonAt_eq nfc hw]
  constructor
  · intro h
    exact print_inj (canonical_integral nfc hv) (canonical_integral nfc hw) (Except.ok.inj h)
  · intro h
    rw [h]

theorem jsonParse_canonical (h : v.Integral) :
    jsonParse (v.canonical nfc).print=some (v.canonical nfc).own := by
  rw [jsonParse,jsonSyntax_print (canonical_integral nfc h)]
  rfl

end CardKeepr.Shared
