import Mathlib.Data.Nat.Find
import Mathlib.Data.Nat.Prime.Basic
import Mathlib.Data.Nat.Bitwise
import Mathlib.Tactic.IntervalCases
import Mathlib.Tactic.Linarith
import Mathlib.Tactic.Ring

namespace CardKeepr.Lib

/-- The number whose binary digits are `bits`, the most significant one first. -/
def ofBits : List Bool → Nat
  | [] => 0
  | b::bs => b.toNat*2^bs.length+ofBits bs

/-- The lowest `width` binary digits of `n`, the most significant one first. -/
def toBits : Nat → Nat → List Bool
  | 0,_ => []
  | width+1,n => n.testBit width::toBits width n

attribute [local simp] toBits

@[simp] theorem toBits_length (width n : Nat) : (toBits width n).length=width := by
  induction width with
  | zero => rfl
  | succ width ih => simp [toBits,ih]

theorem ofBits_append (xs ys : List Bool) : ofBits (xs++ys)=ofBits xs*2^ys.length+ofBits ys := by
  induction xs with
  | nil => simp [ofBits]
  | cons b xs ih =>
    rw [List.cons_append,ofBits,ofBits,ih,List.length_append,Nat.pow_add]
    ring

theorem ofBits_toBits (width n : Nat) : ofBits (toBits width n)=n%2^width := by
  induction width with
  | zero => simp [toBits,ofBits,Nat.mod_one]
  | succ width ih =>
    rw [toBits,ofBits,ih,toBits_length,Nat.mod_pow_succ,Nat.toNat_testBit]
    ring

theorem toBits_mod {width bound : Nat} (h : width ≤ bound) (n : Nat) :
    toBits width (n%2^bound)=toBits width n := by
  induction width with
  | zero => rfl
  | succ width ih =>
    have hb : width < bound := by omega
    rw [toBits,toBits,ih (by omega),Nat.testBit_mod_two_pow,decide_eq_true hb,Bool.true_and]

theorem toBits_add (high low n : Nat) :
    toBits (high+low) n=toBits high (n/2^low)++toBits low n := by
  induction high with
  | zero => simp [toBits]
  | succ high ih =>
    have hs : high+1+low=high+low+1 := by omega
    rw [hs,toBits,ih,toBits,List.cons_append,Nat.testBit_div_two_pow]

namespace Sha

variable {block block' : Nat → UInt32}

def rotr (places : Nat) (x : UInt32) : UInt32 := .ofBitVec (x.toBitVec.rotateRight places)
def shr (places : Nat) (x : UInt32) : UInt32 := .ofBitVec (x.toBitVec >>> places)

def ch (x y z : UInt32) : UInt32 := (x &&& y) ^^^ (~~~x &&& z)
def maj (x y z : UInt32) : UInt32 := (x &&& y) ^^^ (x &&& z) ^^^ (y &&& z)
def bigSigma0 (x : UInt32) : UInt32 := rotr 2 x ^^^ rotr 13 x ^^^ rotr 22 x
def bigSigma1 (x : UInt32) : UInt32 := rotr 6 x ^^^ rotr 11 x ^^^ rotr 25 x
def sigma0 (x : UInt32) : UInt32 := rotr 7 x ^^^ rotr 18 x ^^^ shr 3 x
def sigma1 (x : UInt32) : UInt32 := rotr 17 x ^^^ rotr 19 x ^^^ shr 10 x

/-- The whole part of the `k`-th root. -/
def root (k n : Nat) : Nat := Nat.findGreatest (fun r => r^k ≤ n) n

/-- The first 32 bits of the fractional part of the `k`-th root of `p`. -/
def fraction (k p : Nat) : UInt32 := UInt32.ofNat (root k (p*2^(32*k)))

def primes : List Nat := (List.range 312).filter fun n => decide n.Prime

/-- The constant of round `t`. -/
def roundConstant (t : Nat) : UInt32 := fraction 3 (primes.getD t 0)

/-- The eight working variables. -/
structure Variables where
  a : UInt32
  b : UInt32
  c : UInt32
  d : UInt32
  e : UInt32
  f : UInt32
  g : UInt32
  h : UInt32

/-- The initial hash value: square roots of the first eight primes. -/
def initial : Variables :=
  let word := fun t => fraction 2 (primes.getD t 0)
  ⟨word 0,word 1,word 2,word 3,word 4,word 5,word 6,word 7⟩

/-- The message schedule of a block given by its sixteen words. -/
def schedule (block : Nat → UInt32) (t : Nat) : UInt32 :=
  if t < 16 then block t
  else sigma1 (schedule block (t-2))+schedule block (t-7)+sigma0 (schedule block (t-15))+
    schedule block (t-16)
  termination_by t

def step (k w : UInt32) (v : Variables) : Variables :=
  let t1 := v.h+bigSigma1 v.e+ch v.e v.f v.g+k+w
  let t2 := bigSigma0 v.a+maj v.a v.b v.c
  ⟨t1+t2,v.a,v.b,v.c,v.d+t1,v.e,v.f,v.g⟩

/-- The working variables before round `t`. -/
def rounds (block : Nat → UInt32) (start : Variables) : Nat → Variables
  | 0 => start
  | t+1 => step (roundConstant t) (schedule block t) (rounds block start t)

def compress (block : Nat → UInt32) (v : Variables) : Variables :=
  let w := rounds block v 64
  ⟨w.a+v.a,w.b+v.b,w.c+v.c,w.d+v.d,w.e+v.e,w.f+v.f,w.g+v.g,w.h+v.h⟩

def zeros (length : Nat) : Nat := (448+512-(length+1)%512)%512

def padded (message : List Bool) : List Bool :=
  message++true::(List.replicate (zeros message.length) false++toBits 64 message.length)

/-- Word `t` of block `i`. -/
def blockWord (bits : List Bool) (i t : Nat) : UInt32 :=
  UInt32.ofNat (ofBits ((bits.drop (512*i+32*t)).take 32))

/-- The hash value after `i` blocks. -/
def hashValue (bits : List Bool) : Nat → Variables
  | 0 => initial
  | i+1 => compress (blockWord bits i) (hashValue bits i)

/-- The message digest, 256 bits. -/
def digest (message : List Bool) : List Bool :=
  let v := hashValue (padded message) ((padded message).length/512)
  [v.a,v.b,v.c,v.d,v.e,v.f,v.g,v.h].flatMap fun w => toBits 32 w.toNat

theorem root_eq {k n r : Nat} (hk : k≠0) (hr : r^k ≤ n) (hn : n < (r+1)^k) : root k n=r := by
  have hle : r ≤ n := (Nat.le_self_pow hk r).trans hr
  refine Nat.findGreatest_eq_iff.mpr ⟨hle,fun _ => hr,fun m hm _ hc => ?_⟩
  have hmono : (r+1)^k ≤ m^k := Nat.pow_le_pow_left hm k
  omega

theorem fraction_eq {k p i : Nat} {w : UInt32} (hk : k≠0) (hlow : (i*2^32+w.toNat)^k ≤ p*2^(32*k))
    (hhigh : p*2^(32*k) < (i*2^32+w.toNat+1)^k) : fraction k p=w := by
  rw [fraction,root_eq hk hlow hhigh]
  apply UInt32.toNat_inj.mp
  have hw := w.toNat_lt
  rw [UInt32.toNat_ofNat']
  omega

theorem prime_below {n : Nat} (h : n < 312) : n.Prime ↔ 2 ≤ n ∧ ∀m < 18,2 ≤ m → m < n → n%m≠0 := by
  rw [Nat.prime_def_le_sqrt]
  constructor
  · rintro ⟨h2,hs⟩
    refine ⟨h2,fun m hm hm2 hmn hd => ?_⟩
    obtain ⟨k,rfl⟩ := Nat.dvd_of_mod_eq_zero hd
    have hk2 : 2 ≤ k := by
      by_contra hc
      interval_cases k <;> omega
    by_cases hle : m ≤ k
    · exact hs m hm2 (Nat.le_sqrt.mpr (Nat.mul_le_mul_left m hle)) (Dvd.intro k rfl)
    · have hkm : k*k ≤ m*k := Nat.mul_le_mul_right k (by omega)
      exact hs k hk2 (Nat.le_sqrt.mpr hkm) (Dvd.intro_left m rfl)
  · rintro ⟨h2,hs⟩
    refine ⟨h2,fun m hm2 hm hd => ?_⟩
    have hsq : m*m ≤ n := Nat.le_sqrt.mp hm
    have h18 : m < 18 := by nlinarith
    have hmn : m < n := by nlinarith
    exact hs m h18 hm2 hmn (Nat.mod_eq_zero_of_dvd hd)

theorem primes_eq : primes=[2,3,5,7,11,13,17,19,23,29,31,37,41,43,47,53,59,61,67,71,73,79,83,89,
    97,101,103,107,109,113,127,131,137,139,149,151,157,163,167,173,179,181,191,193,197,199,211,
    223,227,229,233,239,241,251,257,263,269,271,277,281,283,293,307,311] := by
  have he : primes=(List.range 312).filter fun n =>
      decide (2 ≤ n ∧ ∀m < 18,2 ≤ m → m < n → n%m≠0) :=
    List.filter_congr fun n hn => by simp only [prime_below (List.mem_range.mp hn)]
  rw [he]
  decide +kernel

theorem schedule_early {t : Nat} (h : t < 16) : schedule block t=block t := by
  rw [schedule,if_pos h]

theorem schedule_late {t : Nat} (h : ¬t < 16) : schedule block t=
    sigma1 (schedule block (t-2))+schedule block (t-7)+sigma0 (schedule block (t-15))+
      schedule block (t-16) := by
  rw [schedule,if_neg h]

theorem schedule_congr (h : ∀t < 16,block t=block' t) (t : Nat) :
    schedule block t=schedule block' t := by
  induction t using Nat.strong_induction_on with
  | h t ih =>
    by_cases ht : t < 16
    · rw [schedule_early ht,schedule_early ht,h t ht]
    · rw [schedule_late ht,schedule_late ht,ih (t-2) (by omega),ih (t-7) (by omega),
        ih (t-15) (by omega),ih (t-16) (by omega)]

theorem compress_congr (h : ∀t < 16,block t=block' t)
    (v : Variables) : compress block v=compress block' v := by
  have hr : ∀t,rounds block v t=rounds block' v t := by
    intro t
    induction t with
    | zero => rfl
    | succ t ih => rw [rounds,rounds,ih,schedule_congr h]
  rw [compress,compress,hr]

end Sha

end CardKeepr.Lib
