import Mathlib.Data.List.Basic

namespace CardKeepr.Lib

/-- Three bytes make four groups; one or two bytes at the end make two or three. -/
def sextets : List UInt8 → List Nat
  | a::b::c::bs =>
    a.toNat/4::(a.toNat%4*16+b.toNat/16)::(b.toNat%16*4+c.toNat/64)::c.toNat%64::sextets bs
  | [a,b] => [a.toNat/4,a.toNat%4*16+b.toNat/16,b.toNat%16*4]
  | [a] => [a.toNat/4,a.toNat%4*16]
  | [] => []

/-- The bytes of the groups. Bits that fill no byte are ignored; a lone group is none. -/
def ofSextets : List Nat → Option (List UInt8)
  | p::q::r::s::rest => (ofSextets rest).map fun bs =>
      UInt8.ofNat (p*4+q/16)::UInt8.ofNat (q%16*16+r/4)::UInt8.ofNat (r%4*64+s)::bs
  | [p,q,r] => some [UInt8.ofNat (p*4+q/16),UInt8.ofNat (q%16*16+r/4)]
  | [p,q] => some [UInt8.ofNat (p*4+q/16)]
  | [_] => none
  | [] => some []

theorem ofNat_eq {a : UInt8} {n : Nat} (h : n=a.toNat) : UInt8.ofNat n=a := by
  rw [h,UInt8.ofNat_toNat]

theorem ofSextets_sextets (bs : List UInt8) : ofSextets (sextets bs)=some bs := by
  have hlt (a : UInt8) : a.toNat < 256 := a.toNat_lt
  induction bs using sextets.induct with
  | case1 a b c bs ih =>
    have ha := hlt a
    have hb := hlt b
    have hc := hlt c
    have h1 := ofNat_eq (a := a) (n := a.toNat/4*4+(a.toNat%4*16+b.toNat/16)/16) (by omega)
    have h2 := ofNat_eq (a := b)
      (n := (a.toNat%4*16+b.toNat/16)%16*16+(b.toNat%16*4+c.toNat/64)/4) (by omega)
    have h3 := ofNat_eq (a := c) (n := (b.toNat%16*4+c.toNat/64)%4*64+c.toNat%64) (by omega)
    rw [sextets,ofSextets,ih,Option.map_some,h1,h2,h3]
  | case2 a b =>
    have ha := hlt a
    have hb := hlt b
    have h1 := ofNat_eq (a := a) (n := a.toNat/4*4+(a.toNat%4*16+b.toNat/16)/16) (by omega)
    have h2 := ofNat_eq (a := b)
      (n := (a.toNat%4*16+b.toNat/16)%16*16+b.toNat%16*4/4) (by omega)
    rw [sextets,ofSextets,h1,h2]
  | case3 a =>
    have ha := hlt a
    have h1 := ofNat_eq (a := a) (n := a.toNat/4*4+a.toNat%4*16/16) (by omega)
    rw [sextets,ofSextets,h1]
  | case4 => rfl

theorem sextets_lt {bs : List UInt8} : ∀n∈sextets bs,n < 64 := by
  have hlt (a : UInt8) : a.toNat < 256 := a.toNat_lt
  induction bs using sextets.induct with
  | case1 a b c bs ih =>
    have ha := hlt a
    have hb := hlt b
    have hc := hlt c
    intro n hn
    simp only [sextets,List.mem_cons] at hn
    rcases hn with rfl | rfl | rfl | rfl | hn
    · omega
    · omega
    · omega
    · omega
    · exact ih n hn
  | case2 a b =>
    have ha := hlt a
    have hb := hlt b
    intro n hn
    simp only [sextets,List.mem_cons,List.not_mem_nil,or_false] at hn
    rcases hn with rfl | rfl | rfl <;> omega
  | case3 a =>
    have ha := hlt a
    intro n hn
    simp only [sextets,List.mem_cons,List.not_mem_nil,or_false] at hn
    rcases hn with rfl | rfl <;> omega
  | case4 =>
    intro n hn
    cases hn

theorem sextets_length (bs : List UInt8) : (sextets bs).length=(4*bs.length+2)/3 := by
  induction bs using sextets.induct with
  | case1 a b c bs ih =>
    simp only [sextets,List.length_cons,ih]
    omega
  | case2 a b => simp [sextets]
  | case3 a => simp [sextets]
  | case4 => rfl

end CardKeepr.Lib
