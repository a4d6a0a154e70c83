import Mathlib.Data.List.Basic
import Mathlib.Tactic.IntervalCases
import Mathlib.Tactic.Linarith

namespace CardKeepr.Shared

/-- A JavaScript string as its UTF-16 code units. -/
abbrev JsString := List UInt16

instance JsString.lawful : LawfulBEq JsString := inferInstance
instance JsString.lawful_pair : LawfulBEq (JsString × JsString) := inferInstance

/-- Text of the source, for literals inside the model. -/
def js (text : List Char) : JsString := text.map fun c => UInt16.ofNat c.toNat

def isHigh (u : UInt16) : Bool := decide (0xd800 ≤ u.toNat ∧ u.toNat ≤ 0xdbff)
def isLow (u : UInt16) : Bool := decide (0xdc00 ≤ u.toNat ∧ u.toNat ≤ 0xdfff)
def isSurrogate (u : UInt16) : Bool := isHigh u || isLow u
def isPair (u v : UInt16) : Bool := isHigh u && isLow v

/-- `!/[\u0080-\uffff]/.test(text)`. -/
def isAscii (s : JsString) : Bool := s.all fun u => decide (u.toNat < 0x80)

/-- Code points as `TextEncoder` reads them: a lone surrogate becomes U+FFFD. -/
def codePoints : JsString → List Nat
  | [] => []
  | [u] => [if isSurrogate u then 0xfffd else u.toNat]
  | u::v::us =>
    if isPair u v then (0x10000+(u.toNat-0xd800)*0x400+(v.toNat-0xdc00))::codePoints us
    else (if isSurrogate u then 0xfffd else u.toNat)::codePoints (v::us)

def utf8Point (c : Nat) : List UInt8 :=
  if c < 0x80 then [UInt8.ofNat c]
  else if c < 0x800 then [UInt8.ofNat (0xc0+c/0x40),UInt8.ofNat (0x80+c%0x40)]
  else if c < 0x10000 then
    [UInt8.ofNat (0xe0+c/0x1000),UInt8.ofNat (0x80+c/0x40%0x40),UInt8.ofNat (0x80+c%0x40)]
  else [UInt8.ofNat (0xf0+c/0x40000),UInt8.ofNat (0x80+c/0x1000%0x40),
    UInt8.ofNat (0x80+c/0x40%0x40),UInt8.ofNat (0x80+c%0x40)]

/-- `new TextEncoder().encode(text)`. -/
def utf8 (s : JsString) : List UInt8 := (codePoints s).flatMap utf8Point

/-- `left < right ? -1 : left > right ? 1 : 0` on code units. -/
def compareUnits : JsString → JsString → Int
  | [],[] => 0
  | [],_::_ => -1
  | _::_,[] => 1
  | a::l,b::r => if a.toNat < b.toNat then -1 else if b.toNat < a.toNat then 1 else compareUnits l r

/-- First differing byte, else the difference of the lengths. -/
def compareBytes : List UInt8 → List UInt8 → Int
  | [],r => -(r.length:Int)
  | l@(_::_),[] => l.length
  | a::l,b::r => if a≠b then (a.toNat:Int)-b.toNat else compareBytes l r

attribute [local simp] compareUnits compareBytes codePoints

theorem compareUnits_swap (a b : JsString) : compareUnits a b=-compareUnits b a := by
  induction a generalizing b with
  | nil => cases b <;> rfl
  | cons u a ih =>
    cases b with
    | nil => rfl
    | cons v b =>
      rw [compareUnits,compareUnits,ih b]
      split_ifs <;> omega

theorem compareUnits_trans {a b d : JsString} (h : compareUnits a b ≤ 0)
    (k : compareUnits b d ≤ 0) : compareUnits a d ≤ 0 := by
  induction a generalizing b d with
  | nil => cases d <;> simp [compareUnits]
  | cons u a ih =>
    cases b with
    | nil => simp [compareUnits] at h
    | cons v b =>
      cases d with
      | nil => simp [compareUnits] at k
      | cons w d =>
        rw [compareUnits] at h k ⊢
        split_ifs at h k ⊢
        all_goals first | omega | exact ih h k

theorem compareUnits_eq {a b : JsString} (h : compareUnits a b=0) : a=b := by
  induction a generalizing b with
  | nil =>
    cases b with
    | nil => rfl
    | cons v b => cases h
  | cons u a ih =>
    cases b with
    | nil => cases h
    | cons v b =>
      rw [compareUnits] at h
      by_cases h1 : u.toNat < v.toNat
      · rw [if_pos h1] at h
        cases h
      · by_cases h2 : v.toNat < u.toNat
        · rw [if_neg h1,if_pos h2] at h
          cases h
        · rw [if_neg h1,if_neg h2] at h
          have huv : u=v := UInt16.toNat_inj.mp (by omega)
          rw [huv,ih h]

theorem compareBytes_swap (l r : List UInt8) : compareBytes r l=-compareBytes l r := by
  induction l generalizing r with
  | nil => cases r <;> simp [compareBytes]
  | cons a l ih =>
    cases r with
    | nil => simp [compareBytes]
    | cons b r =>
      rw [compareBytes,compareBytes]
      by_cases h : a=b
      · simp [h,ih]
      · simp [h,Ne.symm h]

theorem compareBytes_eq_zero {l r : List UInt8} (h : compareBytes l r=0) : l=r := by
  induction l generalizing r with
  | nil => cases r with
    | nil => rfl
    | cons b r => simp [compareBytes] at h; omega
  | cons a l ih =>
    cases r with
    | nil => simp [compareBytes] at h; omega
    | cons b r =>
      rw [compareBytes] at h
      split at h
      · rename_i hne
        exfalso
        apply hne
        exact UInt8.toNat_inj.mp (by omega)
      · rename_i heq
        rw [ih h,not_not.mp heq]

@[simp] theorem compareBytes_self (l : List UInt8) : compareBytes l l=0 := by
  induction l with
  | nil => rfl
  | cons a l ih => simp [compareBytes,ih]

theorem compareBytes_trans {l m r : List UInt8} (h : compareBytes l m ≤ 0)
    (k : compareBytes m r ≤ 0) : compareBytes l r ≤ 0 := by
  induction l generalizing m r with
  | nil => simp only [compareBytes]; omega
  | cons a l ih =>
    cases m with
    | nil => simp only [compareBytes,List.length_cons] at h; omega
    | cons b m =>
      cases r with
      | nil => simp only [compareBytes,List.length_cons] at k; omega
      | cons c r =>
        rw [compareBytes] at h k ⊢
        by_cases hab : a=b
        · subst b
          by_cases hac : a=c
          · subst c
            simp only [ne_eq,not_true,if_false] at h k ⊢
            exact ih h k
          · simp only [ne_eq,hac,not_false_eq_true,if_true] at k ⊢
            exact k
        · simp only [ne_eq,hab,not_false_eq_true,if_true] at h
          by_cases hbc : b=c
          · subst c
            simp only [ne_eq,hab,not_false_eq_true,if_true]
            exact h
          · simp only [ne_eq,hbc,not_false_eq_true,if_true] at k
            have hb : a.toNat≠b.toNat := fun e => hab (UInt8.toNat_inj.mp e)
            have hac : a≠c := by
              rintro rfl
              omega
            simp only [ne_eq,hac,not_false_eq_true,if_true]
            omega

theorem isAscii_cons (u : UInt16) (s : JsString) :
    isAscii (u::s)=true ↔ u.toNat < 0x80 ∧ isAscii s=true := by
  simp [isAscii]

theorem ascii_not_high {u : UInt16} (h : u.toNat < 0x80) : isHigh u=false ∧ isLow u=false := by
  simp only [isHigh,isLow,decide_eq_false_iff_not]
  omega

theorem utf8_ascii (s : JsString) (h : isAscii s=true) :
    utf8 s=s.map fun u => UInt8.ofNat u.toNat := by
  induction s with
  | nil => rfl
  | cons u s ih =>
    obtain ⟨hu,hs⟩ := (isAscii_cons u s).mp h
    have hh := ascii_not_high hu
    have ih := ih hs
    unfold utf8 at ih ⊢
    have hcp : codePoints (u::s)=u.toNat::codePoints s := by
      cases s with
      | nil => simp [codePoints,isSurrogate,hh]
      | cons v s => simp [codePoints,isPair,isSurrogate,hh]
    rw [hcp,List.flatMap_cons,ih]
    simp [utf8Point,hu]

theorem compareUnits_sign (l r : JsString) (hl : isAscii l=true) (hr : isAscii r=true) :
    compareUnits l r ≤ 0 ↔ compareBytes (utf8 l) (utf8 r) ≤ 0 := by
  rw [utf8_ascii l hl,utf8_ascii r hr]
  induction l generalizing r with
  | nil =>
    cases r with
    | nil => simp [compareUnits]
    | cons b r => simp only [compareUnits,compareBytes,List.map_nil]; omega
  | cons a l ih =>
    cases r with
    | nil => simp [compareUnits,compareBytes]
    | cons b r =>
      obtain ⟨ha,hl⟩ := (isAscii_cons a l).mp hl
      obtain ⟨hb,hr⟩ := (isAscii_cons b r).mp hr
      have hna : (UInt8.ofNat a.toNat).toNat=a.toNat := by
        rw [UInt8.toNat_ofNat']; omega
      have hnb : (UInt8.ofNat b.toNat).toNat=b.toNat := by
        rw [UInt8.toNat_ofNat']; omega
      simp only [List.map_cons,compareUnits,compareBytes]
      by_cases h : UInt8.ofNat a.toNat=UInt8.ofNat b.toNat
      · have hab : a.toNat=b.toNat := by rw [←hna,←hnb,h]
        simp only [hab,lt_irrefl,if_false,ne_eq,not_true]
        exact ih r hl hr
      · have hab : a.toNat≠b.toNat := by
          intro e
          apply h
          rw [e]
        simp only [ne_eq,h,not_false_eq_true,if_true,hna,hnb]
        split_ifs <;> omega

def hexDigit (n : Nat) : UInt16 := UInt16.ofNat (if n < 10 then 48+n else 87+n)

def hex4 (u : UInt16) : JsString :=
  [hexDigit (u.toNat/4096),hexDigit (u.toNat/256%16),hexDigit (u.toNat/16%16),hexDigit (u.toNat%16)]

/-- How `JSON.stringify` writes one code unit that is not half of a surrogate pair. -/
def escapeUnit (u : UInt16) : JsString :=
  if u=34 then [92,34]
  else if u=92 then [92,92]
  else if u=8 then [92,98]
  else if u=12 then [92,102]
  else if u=10 then [92,110]
  else if u=13 then [92,114]
  else if u=9 then [92,116]
  else if u.toNat < 32 || isSurrogate u then 92::117::hex4 u
  else [u]

def quoteBody : JsString → JsString
  | [] => []
  | [u] => escapeUnit u
  | u::v::us => if isPair u v then u::v::quoteBody us else escapeUnit u++quoteBody (v::us)

/-- `JSON.stringify(text)`. -/
def quote (s : JsString) : JsString := 34::(quoteBody s++[34])

end CardKeepr.Shared
