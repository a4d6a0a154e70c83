import CardKeepr.Shared.WellFormed

namespace CardKeepr.Shared

open List

variable {c n : Nat} {cs : List Nat}

def isScalar (c : Nat) : Bool := decide (c < 0xd800 ∨ (0xe000 ≤ c ∧ c < 0x110000))

def isTail (b : UInt8) : Bool := decide (0x80 ≤ b.toNat ∧ b.toNat < 0xc0)

def tailBits (b : UInt8) : Nat := b.toNat-0x80

/-- The code points of UTF-8 data; `none` is the `TypeError` of a fatal decoder. -/
def decodePoints : List UInt8 → Option (List Nat)
  | [] => some []
  | a::bs =>
    if a.toNat < 0x80 then (decodePoints bs).map (a.toNat::·)
    else if a.toNat < 0xc2 then none
    else if a.toNat < 0xe0 then
      match bs with
      | b::bs =>
        if isTail b then (decodePoints bs).map (((a.toNat-0xc0)*0x40+tailBits b)::·) else none
      | [] => none
    else if a.toNat < 0xf0 then
      match bs with
      | b::c::bs =>
        let point := (a.toNat-0xe0)*0x1000+tailBits b*0x40+tailBits c
        if isTail b && isTail c && decide (0x800 ≤ point) && isScalar point
        then (decodePoints bs).map (point::·) else none
      | _ => none
    else if a.toNat < 0xf5 then
      match bs with
      | b::c::d::bs =>
        let point := (a.toNat-0xf0)*0x40000+tailBits b*0x1000+tailBits c*0x40+tailBits d
        if isTail b && isTail c && isTail d && decide (0x10000 ≤ point) && isScalar point
        then (decodePoints bs).map (point::·) else none
      | _ => none
    else none

/-- `String.fromCodePoint(c)`. -/
def fromPoint (c : Nat) : JsString :=
  if c < 0x10000 then [UInt16.ofNat c]
  else [UInt16.ofNat (0xd800+(c-0x10000)/0x400),UInt16.ofNat (0xdc00+(c-0x10000)%0x400)]

def fromPoints (cs : List Nat) : JsString := cs.flatMap fromPoint

def byteOrderMark : Nat := 0xfeff

def dropMark (cs : List Nat) : List Nat := if cs.head?=some byteOrderMark then cs.tail else cs

/-- `new TextDecoder("utf-8", { fatal: true, ignoreBOM: false }).decode(bytes)`. -/
def decodeFatal (bytes : List UInt8) : Option JsString :=
  (decodePoints bytes).map fun cs => fromPoints (dropMark cs)

def bytesOf (cs : List Nat) : List UInt8 := cs.flatMap utf8Point

theorem bytesOf_append (cs ds : List Nat) : bytesOf (cs++ds)=bytesOf cs++bytesOf ds :=
  flatMap_append

theorem bytesOf_cons (c : Nat) (cs : List Nat) : bytesOf (c::cs)=utf8Point c++bytesOf cs := rfl

theorem fromPoints_append (cs ds : List Nat) :
    fromPoints (cs++ds)=fromPoints cs++fromPoints ds := flatMap_append

theorem isScalar_iff :
    isScalar c=true ↔ c < 0xd800 ∨ (0xe000 ≤ c ∧ c < 0x110000) := decide_eq_true_iff

theorem toNat_byte (h : n < 256) : (UInt8.ofNat n).toNat=n := by
  rw [UInt8.toNat_ofNat']
  omega

theorem isTail_byte (h : n < 0x40) : isTail (UInt8.ofNat (0x80+n))=true := by
  rw [isTail,toNat_byte (by omega)]
  exact decide_eq_true (by omega)

theorem tailBits_byte (h : n < 0x40) : tailBits (UInt8.ofNat (0x80+n))=n := by
  have ht : (UInt8.ofNat (0x80+n)).toNat=0x80+n := toNat_byte (by omega)
  unfold tailBits
  omega

theorem utf8Point_pos (c : Nat) : 0 < (utf8Point c).length := by
  rw [utf8Point]
  split_ifs <;> simp

theorem decodePoints_point (h : isScalar c=true) (bs : List UInt8) :
    decodePoints (utf8Point c++bs)=(decodePoints bs).map (c::·) := by
  have hc := isScalar_iff.mp h
  rw [utf8Point]
  split_ifs with h1 h2 h3
  · have ha : (UInt8.ofNat c).toNat=c := toNat_byte (by omega)
    rw [cons_append,nil_append,decodePoints.eq_def]
    simp only [ha,if_pos h1]
  · have ha : (UInt8.ofNat (0xc0+c/0x40)).toNat=0xc0+c/0x40 := toNat_byte (by omega)
    have hp : (0xc0+c/0x40-0xc0)*0x40+c%0x40=c := by omega
    rw [cons_append,cons_append,nil_append,decodePoints,ha,if_neg (by omega),
      if_neg (by omega),if_pos (by omega)]
    simp only [isTail_byte (show c%0x40 < 0x40 by omega),
      tailBits_byte (show c%0x40 < 0x40 by omega),if_true,hp]
  · have ha : (UInt8.ofNat (0xe0+c/0x1000)).toNat=0xe0+c/0x1000 := toNat_byte (by omega)
    have hb : c/0x40%0x40 < 0x40 := by omega
    have hd : c%0x40 < 0x40 := by omega
    have hp : (0xe0+c/0x1000-0xe0)*0x1000+c/0x40%0x40*0x40+c%0x40=c := by omega
    rw [cons_append,cons_append,cons_append,nil_append,decodePoints,ha,
      if_neg (by omega),if_neg (by omega),if_neg (by omega),if_pos (by omega)]
    simp only [isTail_byte hb,isTail_byte hd,tailBits_byte hb,tailBits_byte hd,hp,h,Bool.and_true,
      decide_eq_true (show 0x800 ≤ c by omega),if_true]
  · have ha : (UInt8.ofNat (0xf0+c/0x40000)).toNat=0xf0+c/0x40000 := toNat_byte (by omega)
    have hb : c/0x1000%0x40 < 0x40 := by omega
    have hd : c/0x40%0x40 < 0x40 := by omega
    have he : c%0x40 < 0x40 := by omega
    have hp : (0xf0+c/0x40000-0xf0)*0x40000+c/0x1000%0x40*0x1000+c/0x40%0x40*0x40+c%0x40=c := by
      omega
    rw [cons_append,cons_append,cons_append,cons_append,nil_append,
      decodePoints,ha,if_neg (by omega),if_neg (by omega),if_neg (by omega),if_neg (by omega),
      if_pos (by omega)]
    simp only [isTail_byte hb,isTail_byte hd,isTail_byte he,tailBits_byte hb,tailBits_byte hd,
      tailBits_byte he,hp,h,Bool.and_true,decide_eq_true (show 0x10000 ≤ c by omega),if_true]

theorem decodePoints_cut (h : isScalar c=true) (h0 : 0 < n)
    (hn : n < (utf8Point c).length) : decodePoints ((utf8Point c).take n)=none := by
  have hc := isScalar_iff.mp h
  revert hn
  rw [utf8Point]
  split_ifs with h1 h2 h3
  · intro hn
    simp at hn
    omega
  · intro hn
    have ha : (UInt8.ofNat (0xc0+c/0x40)).toNat=0xc0+c/0x40 := toNat_byte (by omega)
    obtain rfl : n=1 := by simp at hn; omega
    rw [take_succ_cons,take_zero,decodePoints,ha,if_neg (by omega),if_neg (by omega),
      if_pos (by omega)]
  · intro hn
    have ha : (UInt8.ofNat (0xe0+c/0x1000)).toNat=0xe0+c/0x1000 := toNat_byte (by omega)
    have hs : n=1 ∨ n=2 := by simp at hn; omega
    rcases hs with rfl | rfl
    · rw [take_succ_cons,take_zero,decodePoints,ha,if_neg (by omega),if_neg (by omega),
        if_neg (by omega),if_pos (by omega)]
    · rw [take_succ_cons,take_succ_cons,take_zero,decodePoints,ha,
        if_neg (by omega),if_neg (by omega),if_neg (by omega),if_pos (by omega)]
  · intro hn
    have ha : (UInt8.ofNat (0xf0+c/0x40000)).toNat=0xf0+c/0x40000 := toNat_byte (by omega)
    have hs : n=1 ∨ n=2 ∨ n=3 := by simp at hn; omega
    rcases hs with rfl | rfl | rfl
    · rw [take_succ_cons,take_zero,decodePoints,ha,if_neg (by omega),if_neg (by omega),
        if_neg (by omega),if_neg (by omega),if_pos (by omega)]
    · rw [take_succ_cons,take_succ_cons,take_zero,decodePoints,ha,
        if_neg (by omega),if_neg (by omega),if_neg (by omega),if_neg (by omega),if_pos (by omega)]
    · rw [take_succ_cons,take_succ_cons,take_succ_cons,take_zero,decodePoints,
        ha,if_neg (by omega),if_neg (by omega),if_neg (by omega),if_neg (by omega),
        if_pos (by omega)]

theorem decodePoints_bytesOf (h : ∀c∈cs,isScalar c=true) : decodePoints (bytesOf cs)=some cs := by
  induction cs with
  | nil => rfl
  | cons c cs ih =>
    rw [bytesOf_cons,decodePoints_point (h c (by simp)),ih fun d hd => h d (by simp [hd])]
    rfl

theorem decodePoints_take {ds : List Nat} (h : ∀c∈cs,isScalar c=true)
    (hd : decodePoints ((bytesOf cs).take n)=some ds) :
    ds <+: cs ∧ (bytesOf cs).take n=bytesOf ds := by
  induction cs generalizing n ds with
  | nil =>
    rw [show bytesOf []=[] from rfl,take_nil] at hd ⊢
    obtain rfl : []=ds := by simpa [decodePoints] using hd
    exact ⟨prefix_rfl,rfl⟩
  | cons c cs ih =>
    have hc : isScalar c=true := h c (by simp)
    rw [bytesOf_cons,take_append] at hd ⊢
    by_cases hn : (utf8Point c).length ≤ n
    · rw [take_of_length_le hn,decodePoints_point hc] at hd
      obtain ⟨es,he,rfl⟩ := Option.map_eq_some_iff.mp hd
      obtain ⟨hp,hb⟩ := ih (fun d hd => h d (by simp [hd])) he
      rw [take_of_length_le hn,hb]
      exact ⟨cons_prefix_cons.mpr ⟨rfl,hp⟩,rfl⟩
    · rw [Nat.sub_eq_zero_of_le (by omega),take_zero,append_nil] at hd ⊢
      rcases Nat.eq_zero_or_pos n with rfl | h0
      · obtain rfl : []=ds := by simpa [decodePoints] using hd
        exact ⟨ nil_prefix,rfl⟩
      · rw [decodePoints_cut hc h0 (by omega)] at hd
        cases hd

theorem codePoints_scalar (s : JsString) : ∀c∈codePoints s,isScalar c=true := by
  have unit (u : UInt16) : isScalar (if isSurrogate u then 0xfffd else u.toNat)=true := by
    have hu : u.toNat < 0x10000 := u.toNat_lt
    have hr : isScalar 0xfffd=true := by rw [isScalar]; exact decide_eq_true (by omega)
    by_cases h : isSurrogate u=true
    · rwa [if_pos h]
    · rw [if_neg h]
      simp only [isSurrogate,isHigh,isLow,Bool.or_eq_true,decide_eq_true_eq] at h
      exact isScalar_iff.mpr (by omega)
  induction s using codePoints.induct with
  | case1 => simp [codePoints]
  | case2 u =>
    intro c hc
    rw [codePoints,mem_singleton] at hc
    exact hc ▸ unit u
  | case3 u v us hp ih =>
    intro c hc
    rw [codePoints,if_pos hp] at hc
    rcases mem_cons.mp hc with hc | hc
    · simp only [isPair,isHigh,isLow,Bool.and_eq_true,decide_eq_true_eq] at hp
      exact isScalar_iff.mpr (by omega)
    · exact ih c hc
  | case4 u v us hp ih =>
    intro c hc
    rw [codePoints,if_neg hp] at hc
    rcases mem_cons.mp hc with hc | hc
    · exact hc ▸ unit u
    · exact ih c hc

theorem toNat_unit (h : n < 0x10000) : (UInt16.ofNat n).toNat=n := by
  rw [UInt16.toNat_ofNat']
  omega

theorem codePoints_point (h : isScalar c=true) (s : JsString) :
    codePoints (fromPoint c++s)=c::codePoints s := by
  have hc := isScalar_iff.mp h
  rw [fromPoint]
  split_ifs with h1
  · have hu : (UInt16.ofNat c).toNat=c := toNat_unit h1
    have hs : isSurrogate (UInt16.ofNat c)=false := by
      rw [isSurrogate,isHigh,isLow,hu,Bool.or_eq_false_iff]
      exact ⟨decide_eq_false (by omega),decide_eq_false (by omega)⟩
    rw [cons_append,nil_append,codePoints_unit hs,hu]
  · have hu : (UInt16.ofNat (0xd800+(c-0x10000)/0x400)).toNat=0xd800+(c-0x10000)/0x400 :=
      toNat_unit (by omega)
    have hv : (UInt16.ofNat (0xdc00+(c-0x10000)%0x400)).toNat=0xdc00+(c-0x10000)%0x400 :=
      toNat_unit (by omega)
    have hp : isPair (UInt16.ofNat (0xd800+(c-0x10000)/0x400))
        (UInt16.ofNat (0xdc00+(c-0x10000)%0x400))=true := by
      rw [isPair,isHigh,isLow,hu,hv,Bool.and_eq_true]
      exact ⟨decide_eq_true (by omega),decide_eq_true (by omega)⟩
    have hr : 0x10000+(0xd800+(c-0x10000)/0x400-0xd800)*0x400+
        (0xdc00+(c-0x10000)%0x400-0xdc00)=c := by omega
    rw [cons_append,cons_append,nil_append,codePoints,if_pos hp,hu,hv,hr]

theorem codePoints_fromPoints (h : ∀c∈cs,isScalar c=true) : codePoints (fromPoints cs)=cs := by
  induction cs with
  | nil => rfl
  | cons c cs ih =>
    rw [fromPoints,flatMap_cons,codePoints_point (h c (by simp))]
    exact congrArg _ (ih fun d hd => h d (by simp [hd]))

theorem utf8_fromPoints (h : ∀c∈cs,isScalar c=true) :
    utf8 (fromPoints cs)=bytesOf cs := by rw [utf8,codePoints_fromPoints h,bytesOf]

theorem utf8_bytesOf (s : JsString) : utf8 s=bytesOf (codePoints s) := rfl

end CardKeepr.Shared
