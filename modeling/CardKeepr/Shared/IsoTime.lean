import CardKeepr.Shared.Json

namespace CardKeepr.Shared

open List

variable {a b n w : Nat}

theorem zero_lt_hundred : 0 < 100 := by decide
theorem one_lt_hundred : 1 < 100 := by decide
theorem zero_lt_thousand : 0 < 1000 := by decide

/-- A UTC time with a four-digit year, the only times that `z.string().datetime()` accepts. -/
structure DateTime where
  year : Nat
  month : Nat
  day : Nat
  hour : Nat
  minute : Nat
  second : Nat
  millisecond : Nat
  year_lt : year < 10000
  month_lt : month < 100
  day_lt : day < 100
  hour_lt : hour < 100
  minute_lt : minute < 100
  second_lt : second < 100
  millisecond_lt : millisecond < 1000
  deriving DecidableEq

/-- `String(n).padStart(width, "0")` for a number of at most `width` digits. -/
def padded : Nat → Nat → JsString
  | 0,_ => []
  | w+1,n => UInt16.ofNat (48+n/10^w)::padded w (n%10^w)

namespace DateTime

/-- `toISOString()`. -/
def iso (t : DateTime) : JsString :=
  padded 4 t.year++45::(padded 2 t.month++45::(padded 2 t.day++84::(padded 2 t.hour++58::
    (padded 2 t.minute++58::(padded 2 t.second++46::(padded 3 t.millisecond++[90]))))))

def rank (t : DateTime) : Nat :=
  (((((t.year*100+t.month)*100+t.day)*100+t.hour)*100+t.minute)*100+t.second)*1000+t.millisecond

/-- `left < right` on the texts. -/
def textBefore (a b : DateTime) : Bool := decide (compareUnits a.iso b.iso < 0)

end DateTime

theorem compareUnits_cons (u : UInt16) (x y : JsString) :
    compareUnits (u::x) (u::y)=compareUnits x y := by
  simp [compareUnits]

theorem compareUnits_append (x s t : JsString) : compareUnits (x++s) (x++t)=compareUnits s t := by
  induction x with
  | nil => rfl
  | cons u x ih => rw [cons_append,cons_append,compareUnits_cons,ih]

theorem compareUnits_padded (ha : a < 10^w) (hb : b < 10^w) (x y : JsString) :
    compareUnits (padded w a++x) (padded w b++y)=
      if a < b then -1 else if b < a then 1 else compareUnits x y := by
  induction w generalizing a b with
  | zero =>
    have h1 : a=0 := by omega
    have h2 : b=0 := by omega
    subst h1 h2
    rfl
  | succ w ih =>
    have hp : 0 < 10^w := Nat.pos_of_ne_zero (by positivity)
    have ha2 : a/10^w < 10 := by
      apply Nat.div_lt_of_lt_mul
      rwa [pow_succ] at ha
    have hb2 : b/10^w < 10 := by
      apply Nat.div_lt_of_lt_mul
      rwa [pow_succ] at hb
    have hunit : ∀d,d < 10 → (UInt16.ofNat (48+d)).toNat=48+d := by
      intro d hd
      rw [UInt16.toNat_ofNat']
      omega
    rw [padded,padded,cons_append,cons_append,compareUnits,hunit _ ha2,hunit _ hb2,
      ih (Nat.mod_lt a hp) (Nat.mod_lt b hp)]
    have ea := Nat.div_add_mod a (10^w)
    have eb := Nat.div_add_mod b (10^w)
    have hma := Nat.mod_lt a hp
    have hmb := Nat.mod_lt b hp
    rcases Nat.lt_trichotomy (a/10^w) (b/10^w) with h | h | h
    · have hlt : a < b := by
        by_contra hge
        exact absurd (Nat.div_le_div_right (c := 10^w) (Nat.le_of_not_lt hge)) (by omega)
      rw [if_pos (by omega),if_pos hlt]
    · rw [if_neg (by omega),if_neg (by omega)]
      rw [h] at ea
      have h1 : a%10^w < b%10^w ↔ a < b := by omega
      have h2 : b%10^w < a%10^w ↔ b < a := by omega
      simp only [h1,h2]
    · have hlt : b < a := by
        by_contra hge
        exact absurd (Nat.div_le_div_right (c := 10^w) (Nat.le_of_not_lt hge)) (by omega)
      rw [if_neg (by omega),if_pos (by omega),if_neg (by omega),if_pos hlt]

theorem padded_before (ha : a < 10^w) (hb : b < 10^w) (x y : JsString) :
    compareUnits (padded w a++x) (padded w b++y) < 0 ↔ a < b ∨ a=b ∧ compareUnits x y < 0 := by
  rw [compareUnits_padded ha hb]
  rcases Nat.lt_trichotomy a b with h | h | h
  · simp [h]
  · simp [h]
  · rw [if_neg (by omega),if_pos h]
    constructor
    · intro hc
      cases hc
    · intro hc
      omega

theorem textBefore_iff (a b : DateTime) : a.textBefore b=true ↔ a.rank < b.rank := by
  obtain ⟨y,m,d,h,i,s,n,hy,hm,hd,hh,hi,hs,hn⟩ := a
  obtain ⟨y',m',d',h',i',s',n',hy',hm',hd',hh',hi',hs',hn'⟩ := b
  rw [DateTime.textBefore,decide_eq_true_iff,DateTime.iso,DateTime.iso,DateTime.rank,DateTime.rank]
  have hlast : ¬compareUnits [90] [90] < 0 := by decide
  rw [padded_before (w := 4) hy hy',compareUnits_cons,padded_before (w := 2) hm hm',
    compareUnits_cons,padded_before (w := 2) hd hd',compareUnits_cons,
    padded_before (w := 2) hh hh',compareUnits_cons,padded_before (w := 2) hi hi',
    compareUnits_cons,padded_before (w := 2) hs hs',compareUnits_cons,
    padded_before (w := 3) hn hn']
  simp only [hlast,and_false,or_false]
  omega

def daysIn (year month : Nat) : Nat :=
  if month=2 then if year%4=0 ∧ (year%100≠0 ∨ year%400=0) then 29 else 28
  else if month=4 ∨ month=6 ∨ month=9 ∨ month=11 then 30 else 31

namespace DateTime

/-- The fields name a moment of the calendar. -/
def Real (t : DateTime) : Prop :=
  1 ≤ t.month ∧ t.month ≤ 12 ∧ 1 ≤ t.day ∧ t.day ≤ daysIn t.year t.month ∧
    t.hour < 24 ∧ t.minute < 60 ∧ t.second < 60

instance (t : DateTime) : Decidable t.Real := inferInstanceAs (Decidable (_ ∧ _))

end DateTime

/-- The number that the digits from `at` on spell. -/
def numberAt (s : JsString) (start width : Nat) : Nat := digitsValue ((s.drop start).take width)

/-- The fields of a text laid out as `toISOString` lays them out. -/
def DateTime.read (s : JsString) : Option DateTime :=
  if h : numberAt s 0 4 < 10000 ∧ numberAt s 5 2 < 100 ∧ numberAt s 8 2 < 100 ∧
      numberAt s 11 2 < 100 ∧ numberAt s 14 2 < 100 ∧ numberAt s 17 2 < 100 ∧
      numberAt s 20 3 < 1000 then
    some ⟨numberAt s 0 4,numberAt s 5 2,numberAt s 8 2,numberAt s 11 2,numberAt s 14 2,
      numberAt s 17 2,numberAt s 20 3,h.1,h.2.1,h.2.2.1,h.2.2.2.1,h.2.2.2.2.1,h.2.2.2.2.2.1,
      h.2.2.2.2.2.2⟩
  else none

/-- The text is `toISOString()` of a moment. -/
def isoInstant (s : JsString) : Bool :=
  match DateTime.read s with
  | none => false
  | some t => decide (t.Real ∧ t.iso=s)

/-- `Number.isFinite(Date.parse(s))`: the ISO texts are specified, and what an engine makes of any
other text is `other`. -/
def dateParses (other : JsString → Bool) (s : JsString) : Bool := isoInstant s || other s

/-- What `new Date().toISOString()` was asked of. -/
structure Instant where
  time : DateTime
  real : time.Real

def Instant.iso (t : Instant) : JsString := t.time.iso

theorem padded_length (w n : Nat) : (padded w n).length=w := by
  induction w generalizing n with
  | zero => rfl
  | succ w ih => simp [padded,ih]

theorem digits_padded {m : Nat} (h : n < 10^w) :
    (padded w n).foldl (fun n u => 10*n+digitValue u) m=m*10^w+n := by
  induction w generalizing n m with
  | zero =>
    have : n=0 := by omega
    simp [padded,this]
  | succ w ih =>
    have hp : 0 < 10^w := Nat.pos_of_ne_zero (by positivity)
    have hd : n/10^w < 10 := by
      apply Nat.div_lt_of_lt_mul
      rwa [pow_succ] at h
    have hu : digitValue (UInt16.ofNat (48+n/10^w))=n/10^w := by
      rw [digitValue,UInt16.toNat_ofNat',Nat.mod_eq_of_lt (by omega),Nat.add_sub_cancel_left]
    have hn := Nat.div_add_mod n (10^w)
    rw [padded,foldl_cons,hu,ih (Nat.mod_lt n hp),pow_succ]
    calc (10*m+n/10^w)*10^w+n%10^w=m*(10^w*10)+(10^w*(n/10^w)+n%10^w) := by ring
      _=m*(10^w*10)+n := by rw [hn]

theorem numberAt_padded (h : n < 10^w) (x y : JsString) :
    numberAt (x++(padded w n++y)) x.length w=n := by
  have ht : (padded w n++y).take w=padded w n := by
    rw [take_append_of_le_length (by rw [padded_length]),take_of_length_le]
    rw [padded_length]
  rw [numberAt,drop_left,ht,digitsValue,digits_padded h]
  omega

theorem isoInstant_iso (t : Instant) : isoInstant t.iso=true := by
  obtain ⟨⟨y,m,d,h,i,s,n,hy,hm,hd,hh,hi,hs,hn⟩,hr⟩ := t
  generalize ht : (⟨⟨y,m,d,h,i,s,n,hy,hm,hd,hh,hi,hs,hn⟩,hr⟩ : Instant).iso=text
  have field : ∀x z w k start,text=x++(padded w k++z) → x.length=start → k < 10^w →
      numberAt text start w=k := by
    intro x z w k start he hx hk
    rw [he,←hx]
    exact numberAt_padded hk x z
  have hyear : numberAt text 0 4=y := field [] _ 4 y 0 ht.symm rfl hy
  have hmonth : numberAt text 5 2=m := field (padded 4 y++[45]) _ 2 m 5
    (by rw [←ht,append_assoc]; rfl) (by simp [padded_length]) hm
  have hday : numberAt text 8 2=d := field (padded 4 y++45::(padded 2 m++[45])) _ 2 d 8
    (by simp [←ht,Instant.iso,DateTime.iso]; rfl) (by simp [padded_length]) hd
  have hhour : numberAt text 11 2=h := field
    (padded 4 y++45::(padded 2 m++45::(padded 2 d++[84]))) _ 2 h 11
    (by simp [←ht,Instant.iso,DateTime.iso]; rfl) (by simp [padded_length]) hh
  have hminute : numberAt text 14 2=i := field
    (padded 4 y++45::(padded 2 m++45::(padded 2 d++84::(padded 2 h++[58])))) _ 2 i 14
    (by simp [←ht,Instant.iso,DateTime.iso]; rfl) (by simp [padded_length]) hi
  have hsecond : numberAt text 17 2=s := field
    (padded 4 y++45::(padded 2 m++45::(padded 2 d++84::(padded 2 h++58::(padded 2 i++[58])))))
    _ 2 s 17 (by simp [←ht,Instant.iso,DateTime.iso]; rfl) (by simp [padded_length]) hs
  have hmilli : numberAt text 20 3=n := field
    (padded 4 y++45::(padded 2 m++45::(padded 2 d++84::(padded 2 h++58::(padded 2 i++58::
      (padded 2 s++[46])))))) _ 3 n 20
    (by simp [←ht,Instant.iso,DateTime.iso]; rfl) (by simp [padded_length]) hn
  have hread : DateTime.read text=some ⟨y,m,d,h,i,s,n,hy,hm,hd,hh,hi,hs,hn⟩ := by
    simp only [DateTime.read,hyear,hmonth,hday,hhour,hminute,hsecond,hmilli]
    rw [dif_pos ⟨hy,hm,hd,hh,hi,hs,hn⟩]
  rw [isoInstant,hread]
  exact decide_eq_true ⟨hr,ht⟩

end CardKeepr.Shared
