import CardKeepr.Shared.CanonicalText
import CardKeepr.Shared.Sha256

namespace CardKeepr.Shared

open List

variable {s : JsString} {u v : UInt16}

/-- `text.isWellFormed()`: every surrogate is half of a pair. -/
def wellFormed : JsString → Bool
  | [] => true
  | [u] => !isSurrogate u
  | u::v::us => if isPair u v then wellFormed us else !isSurrogate u && wellFormed (v::us)

theorem wellFormed_induct {P : JsString → Prop} (nil : P [])
    (unit : ∀u s,isSurrogate u=false → wellFormed s=true → P s → P (u::s))
    (pair : ∀u v s,isPair u v=true → wellFormed s=true → P s → P (u::v::s))
    (h : wellFormed s=true) : P s := by
  induction s using wellFormed.induct with
  | case1 => exact nil
  | case2 u =>
    rw [wellFormed] at h
    exact unit u [] (by simpa using h) rfl nil
  | case3 u v us hp ih =>
    rw [wellFormed,if_pos hp] at h
    exact pair u v us hp h (ih h)
  | case4 u v us hp ih =>
    rw [wellFormed,if_neg hp,Bool.and_eq_true] at h
    exact unit u (v::us) (by simpa using h.1) h.2 (ih h.2)

theorem not_pair_of_unit (h : isSurrogate u=false) : isPair u v=false := by
  rw [isSurrogate,Bool.or_eq_false_iff] at h
  rw [isPair,h.1,Bool.false_and]

theorem wellFormed_unit (h : isSurrogate u=false) (s : JsString) :
    wellFormed (u::s)=wellFormed s := by
  cases s with
  | nil => simp [wellFormed,h]
  | cons v s => simp [wellFormed,not_pair_of_unit h,h]

theorem wellFormed_pair (h : isPair u v=true) (s : JsString) :
    wellFormed (u::v::s)=wellFormed s := by rw [wellFormed,if_pos h]

theorem wellFormed_append (hs : wellFormed s=true) (t : JsString) :
    wellFormed (s++t)=wellFormed t := by
  refine wellFormed_induct (P := fun s => wellFormed (s++t)=wellFormed t) rfl
    (fun u s hu _ ih => ?_) (fun u v s hp _ ih => ?_) hs
  · rw [cons_append,wellFormed_unit hu,ih]
  · rw [cons_append,cons_append,wellFormed_pair hp,ih]

theorem wellFormed_ascii (h : isAscii s=true) : wellFormed s=true := by
  induction s with
  | nil => rfl
  | cons u s ih =>
    rw [isAscii_cons] at h
    obtain ⟨hh,hl⟩ := ascii_not_high h.1
    rw [wellFormed_unit (by rw [isSurrogate,hh,hl]; rfl),ih h.2]

theorem codePoints_unit (h : isSurrogate u=false) (s : JsString) :
    codePoints (u::s)=u.toNat::codePoints s := by
  cases s with
  | nil => simp [codePoints,h]
  | cons v s => simp [codePoints,not_pair_of_unit h,h]

theorem utf8_unit (h : isSurrogate u=false) (s : JsString) :
    utf8 (u::s)=utf8Point u.toNat++utf8 s := by
  rw [utf8,codePoints_unit h,flatMap_cons,utf8]

theorem utf8_pair (h : isPair u v=true) (s : JsString) : utf8 (u::v::s)=
      utf8Point (0x10000+(u.toNat-0xd800)*0x400+(v.toNat-0xdc00))++utf8 s := by
  rw [utf8,codePoints,if_pos h,flatMap_cons,utf8]

theorem utf8_append (hs : wellFormed s=true) (t : JsString) : utf8 (s++t)=utf8 s++utf8 t := by
  refine wellFormed_induct (P := fun s => utf8 (s++t)=utf8 s++utf8 t) rfl
    (fun u s hu _ ih => ?_) (fun u v s hp _ ih => ?_) hs
  · rw [cons_append,utf8_unit hu,utf8_unit hu,ih,append_assoc]
  · rw [cons_append,cons_append,utf8_pair hp,utf8_pair hp,ih,append_assoc]

theorem utf8Point_length (c : Nat) : (utf8Point c).length ≤ 4 := by
  rw [utf8Point]
  split_ifs <;> simp

theorem utf8Point_unit_length (u : UInt16) : (utf8Point u.toNat).length ≤ 3 := by
  have : u.toNat < 0x10000 := u.toNat_lt
  rw [utf8Point]
  split_ifs <;> simp

theorem utf8_length_ascii (h : isAscii s=true) : (utf8 s).length=s.length := by
  rw [utf8_ascii s h,length_map]

theorem escapeUnit_cases (u : UInt16) : (isAscii (escapeUnit u)=true ∧ (escapeUnit u).length ≤ 6) ∨
    (escapeUnit u=[u] ∧ isSurrogate u=false) := by
  rw [escapeUnit]
  split_ifs with h1 h2 h3 h4 h5 h6 h7 h8
  · exact .inl (by decide)
  · exact .inl (by decide)
  · exact .inl (by decide)
  · exact .inl (by decide)
  · exact .inl (by decide)
  · exact .inl (by decide)
  · exact .inl (by decide)
  · refine .inl ⟨?_,by simp [hex4]⟩
    have hu : u.toNat < 0x10000 := u.toNat_lt
    simp only [isAscii,hex4,all_cons,all_nil,Bool.and_true]
    have hd : ∀n,n < 16 → decide ((hexDigit n).toNat < 0x80)=true := fun n hn =>
      decide_eq_true (hexDigit_ascii hn)
    rw [hd _ (by omega),hd _ (by omega),hd _ (by omega),hd _ (by omega)]
    rfl
  · simp only [Bool.or_eq_true,not_or] at h8
    exact .inr ⟨rfl,by simpa using h8.2⟩

theorem escapeUnit_wellFormed (u : UInt16) : wellFormed (escapeUnit u)=true := by
  rcases escapeUnit_cases u with ⟨h,-⟩ | ⟨h,hu⟩
  · exact wellFormed_ascii h
  · rw [h,wellFormed_unit hu]
    rfl

theorem escapeUnit_bytes (u : UInt16) : (utf8 (escapeUnit u)).length ≤ 6 := by
  rcases escapeUnit_cases u with ⟨h,hl⟩ | ⟨h,hu⟩
  · rwa [utf8_length_ascii h]
  · rw [h,utf8_unit hu,length_append]
    have := utf8Point_unit_length u
    simp [utf8,codePoints]
    omega

theorem quoteBody_wellFormed (s : JsString) : wellFormed (quoteBody s)=true := by
  induction s using quoteBody.induct with
  | case1 => rfl
  | case2 u => exact escapeUnit_wellFormed u
  | case3 u v us hp ih => rw [quoteBody,if_pos hp,wellFormed_pair hp,ih]
  | case4 u v us hp ih =>
    rw [quoteBody,if_neg hp,wellFormed_append (escapeUnit_wellFormed u),ih]

theorem quote_wellFormed (s : JsString) : wellFormed (quote s)=true := by
  rw [quote,wellFormed_unit (by decide),wellFormed_append (quoteBody_wellFormed s)]
  rfl

theorem quoteBody_bytes (s : JsString) : (utf8 (quoteBody s)).length ≤ 6*s.length := by
  induction s using quoteBody.induct with
  | case1 => simp [quoteBody,utf8,codePoints]
  | case2 u => exact escapeUnit_bytes u
  | case3 u v us hp ih =>
    rw [quoteBody,if_pos hp,utf8_pair hp,length_append]
    have := utf8Point_length (0x10000+(u.toNat-0xd800)*0x400+(v.toNat-0xdc00))
    simp only [length_cons]
    omega
  | case4 u v us hp ih =>
    rw [quoteBody,if_neg hp,utf8_append (escapeUnit_wellFormed u),length_append]
    have := escapeUnit_bytes u
    simp only [length_cons] at ih ⊢
    omega

theorem quote_bytes (s : JsString) : (utf8 (quote s)).length ≤ 6*s.length+2 := by
  rw [quote,utf8_unit (by decide),utf8_append (quoteBody_wellFormed s)]
  have h := quoteBody_bytes s
  have h1 : (utf8Point (34 : UInt16).toNat).length=1 := by decide
  have h2 : (utf8 [34]).length=1 := by decide
  rw [length_append,length_append,h1,h2]
  omega

theorem commas_wellFormed {ts : List JsString} (h : ∀t∈ts,wellFormed t=true) :
    wellFormed (commas ts)=true := by
  induction ts using commas.induct with
  | case1 => rfl
  | case2 t => exact h t (by simp)
  | case3 t u ts ih =>
    rw [commas,wellFormed_append (h t (by simp)),wellFormed_unit (by decide)]
    exact ih fun u hu => h u (by simp [hu])

theorem utf8_commas {ts : List JsString} (h : ∀t∈ts,wellFormed t=true) :
    (utf8 (commas ts)).length=(ts.map fun t => (utf8 t).length).sum+(ts.length-1) := by
  induction ts with
  | nil => rfl
  | cons t ts ih =>
    have ht := h t mem_cons_self
    cases ts with
    | nil => simp [commas]
    | cons s ts =>
      have hs := ih fun x hx => h x (mem_cons_of_mem _ hx)
      rw [commas,utf8_append ht,utf8_unit (by decide),length_append,length_append,hs]
      simp only [map_cons,sum_cons,length_cons,utf8Point]
      simp
      omega

theorem integerText_ascii (m : Int) : isAscii (integerText m)=true := by
  rw [isAscii,all_eq_true]
  intro u hu
  have hn := (integerText_text m).units u hu
  apply decide_eq_true
  revert hn
  simp only [isNumberUnit,isDigit,Bool.or_eq_true,decide_eq_true_eq,beq_iff_eq]
  rintro ((((( h | rfl) | rfl) | rfl) | rfl) | rfl)
  · omega
  all_goals decide

theorem print_wellFormed (v : Json) : wellFormed v.print=true := by
  induction v using Json.induct with
  | null => decide
  | bool b => cases b <;> decide
  | num q => exact wellFormed_ascii (integerText_ascii _)
  | str s => exact quote_wellFormed s
  | arr vs ih =>
    rw [Json.print,wellFormed_unit (by decide),wellFormed_append]
    · rfl
    · rw [printItems_map]
      apply commas_wellFormed
      intro t ht
      obtain ⟨v,hv,rfl⟩ := mem_map.mp ht
      exact ih v hv
  | obj ms ih =>
    rw [Json.print,wellFormed_unit (by decide),wellFormed_append]
    · rfl
    · rw [printMembers_map]
      apply commas_wellFormed
      intro t ht
      obtain ⟨m,hm,rfl⟩ := mem_map.mp ht
      rw [wellFormed_append (quote_wellFormed _),wellFormed_unit (by decide)]
      exact ih m hm

end CardKeepr.Shared
