import Mathlib

namespace CardKeepr.Lib

open List

variable {α : Type}

/-- What an element takes of a piece, and what a piece may hold. `rim` is what an empty piece has. -/
structure Room (α : Type) where
  size : α → Nat
  work : α → Nat
  rim : Nat
  maxSize : Nat
  maxCount : Nat
  maxWork : Nat

/-- The piece that is being filled. -/
structure Filling (α : Type) where
  parts : List α
  size : Nat
  work : Nat

namespace Filling

variable (m : Room α)

def empty : Filling α := ⟨[],m.rim,0⟩

def Crowded (f : Filling α) (a : α) : Prop := f.parts≠[] ∧ m.maxSize < f.size+m.size a+1

def Full (f : Filling α) : Prop := f.parts.length=m.maxCount ∨ m.maxWork ≤ f.work

instance (f : Filling α) (a : α) : Decidable (f.Crowded m a) :=
  inferInstanceAs (Decidable (_ ∧ _))

instance (f : Filling α) : Decidable (f.Full m) := inferInstanceAs (Decidable (_ ∨ _))

def add (f : Filling α) (a : α) : Filling α :=
  ⟨f.parts++[a],f.size+(m.size a+if f.parts=[] then 0 else 1),f.work+m.work a⟩

/-- The filling an element is added to. -/
def before (f : Filling α) (a : α) : Filling α := if f.Crowded m a then empty m else f

/-- The pieces of what is left, the one being filled first. -/
def cut (f : Filling α) : List α → List (List α)
  | [] => if f.parts=[] then [] else [f.parts]
  | a::as =>
    let g := (f.before m a).add m a
    let rest := if g.Full m then g.parts::cut (empty m) as else cut g as
    if f.Crowded m a then f.parts::rest else rest

variable {m} {f : Filling α} {a : α} {as : List α}

attribute [local simp] before cut

@[simp] theorem empty_parts : (empty m).parts=[] := rfl

@[simp] theorem add_parts : (f.add m a).parts=f.parts++[a] := rfl

theorem empty_roomy : ¬(empty m).Crowded m a := fun h => h.1 rfl

theorem cut_crowded (h : f.Crowded m a) : f.cut m (a::as)=f.parts::(empty m).cut m (a::as) := by
  rw [cut,cut,before,before,if_pos h,if_pos h,if_neg empty_roomy,if_neg empty_roomy]

theorem cut_add (h : ¬f.Crowded m a) : f.cut m (a::as)=
    if (f.add m a).Full m then (f.add m a).parts::(empty m).cut m as else (f.add m a).cut m as := by
  rw [cut,before,if_neg h,if_neg h]

theorem cut_end (h : f.parts≠[]) : f.cut m []=f.parts::(empty m).cut m [] := by
  rw [cut,cut,if_neg h]
  rfl

theorem cut_flatten (f : Filling α) (as : List α) : (f.cut m as).flatten=f.parts++as := by
  induction as generalizing f with
  | nil =>
    rw [cut]
    split_ifs with h
    · simp [h]
    · simp
  | cons a as ih =>
    have hadd : ∀g : Filling α,(if (g.add m a).Full m then (g.add m a).parts::cut m (empty m) as
        else cut m (g.add m a) as).flatten=g.parts++a::as := by
      intro g
      split_ifs
      · rw [flatten_cons,ih]
        simp [empty]
      · rw [ih]
        simp
    rw [cut]
    by_cases h : f.Crowded m a
    · rw [before,if_pos h,if_pos h,flatten_cons,hadd]
      simp [empty]
    · rw [before,if_neg h,if_neg h,hadd]

def Counted (m : Room α) (f : Filling α) : Prop :=
  f.size=m.rim+(f.parts.map m.size).sum+(f.parts.length-1)

theorem empty_counted : (empty m).Counted m := by simp [Counted,empty]

theorem add_counted (h : f.Counted m) : (f.add m a).Counted m := by
  have hsum : ((f.parts++[a]).map m.size).sum=(f.parts.map m.size).sum+m.size a := by
    rw [map_append,sum_append]
    simp
  rw [Counted] at h ⊢
  rw [add_parts,hsum,length_append]
  show f.size+(m.size a+if f.parts=[] then 0 else 1)=_
  by_cases he : f.parts=[]
  · rw [he,map_nil,sum_nil,length_nil] at h
    rw [if_pos he,he,map_nil,sum_nil,length_nil,length_singleton]
    omega
  · have hpos : 0 < f.parts.length := length_pos_of_ne_nil he
    rw [if_neg he,length_singleton]
    omega

theorem before_counted (h : f.Counted m) : (f.before m a).Counted m := by
  rw [before]
  split_ifs
  · exact empty_counted
  · exact h

/-- The bookkeeping of a filling is right and within the bounds. -/
structure Sound (m : Room α) (f : Filling α) : Prop where
  counted : f.Counted m
  bounded : f.size ≤ m.maxSize
  count : f.parts.length < m.maxCount

theorem empty_sound (hm : m.rim ≤ m.maxSize) (hc : 0 < m.maxCount) : Sound m (empty m) :=
  ⟨empty_counted,hm,hc⟩

/-- A piece that may stand in the result. -/
structure Piece (m : Room α) (p : List α) : Prop where
  nonempty : p≠[]
  count : p.length ≤ m.maxCount
  size : m.rim+(p.map m.size).sum+(p.length-1) ≤ m.maxSize

theorem Sound.piece (h : Sound m f) (hf : f.parts≠[]) : Piece m f.parts :=
  ⟨hf,Nat.le_of_lt h.count,h.counted ▸ h.bounded⟩

theorem before_sound (h : Sound m f) (hm : m.rim ≤ m.maxSize) (hc : 0 < m.maxCount) :
    Sound m (f.before m a) := by
  rw [before]
  split_ifs
  · exact empty_sound hm hc
  · exact h

theorem add_bounds (h : Sound m f) (ha : m.rim+m.size a ≤ m.maxSize) (hc : 0 < m.maxCount) :
    ((f.before m a).add m a).size ≤ m.maxSize ∧
      ((f.before m a).add m a).parts.length ≤ m.maxCount := by
  have hb := before_sound (a := a) h (by omega) hc
  have hcount := hb.count
  refine ⟨?_,by rw [add_parts,length_append,length_singleton]; omega⟩
  show (f.before m a).size+(m.size a+if (f.before m a).parts=[] then 0 else 1) ≤ m.maxSize
  by_cases he : (f.before m a).parts=[]
  · have hsize := hb.counted
    rw [Counted,he,map_nil,sum_nil,length_nil] at hsize
    rw [if_pos he]
    omega
  · -- it was not crowded, or the piece would be empty
    have hnot : ¬f.Crowded m a := fun hcr => he (by rw [before,if_pos hcr]; rfl)
    have hsame : f.before m a=f := by rw [before,if_neg hnot]
    rw [if_neg he]
    rw [hsame] at he ⊢
    by_contra hgt
    exact hnot ⟨he,by omega⟩

theorem add_sound (h : Sound m f) (ha : m.rim+m.size a ≤ m.maxSize) (hc : 0 < m.maxCount)
    (hfull : ¬((f.before m a).add m a).Full m) : Sound m ((f.before m a).add m a) := by
  obtain ⟨hsize,hcount⟩ := add_bounds h ha hc
  exact ⟨add_counted (before_counted h.counted),hsize,
    Nat.lt_of_le_of_ne hcount fun he => hfull (.inl he)⟩

theorem add_piece (h : Sound m f) (ha : m.rim+m.size a ≤ m.maxSize) (hc : 0 < m.maxCount) :
    Piece m ((f.before m a).add m a).parts := by
  obtain ⟨hsize,hcount⟩ := add_bounds h ha hc
  have hcounted := add_counted (a := a) (before_counted (a := a) h.counted)
  exact ⟨by simp,hcount,hcounted ▸ hsize⟩

theorem cut_pieces (hm : m.rim ≤ m.maxSize) (hc : 0 < m.maxCount) (h : Sound m f)
    (has : ∀a∈as,m.rim+m.size a ≤ m.maxSize) : ∀p∈f.cut m as,Piece m p := by
  induction as generalizing f with
  | nil =>
    intro p hp
    rw [cut] at hp
    split_ifs at hp with he
    · cases hp
    · rw [mem_singleton.mp hp]
      exact h.piece he
  | cons a as ih =>
    have ha := has a mem_cons_self
    have hrest := fun b hb => has b (mem_cons_of_mem _ hb)
    have hadd : ∀p∈(if ((f.before m a).add m a).Full m then
        ((f.before m a).add m a).parts::cut m (empty m) as
        else cut m ((f.before m a).add m a) as),Piece m p := by
      intro p hp
      split_ifs at hp with hfull
      · rcases mem_cons.mp hp with rfl | hp
        · exact add_piece h ha hc
        · exact ih (empty_sound hm hc) hrest p hp
      · exact ih (add_sound h ha hc hfull) hrest p hp
    intro p hp
    rw [cut] at hp
    by_cases hcr : f.Crowded m a
    · rw [if_pos hcr] at hp
      rcases mem_cons.mp hp with rfl | hp
      · exact h.piece hcr.1
      · exact hadd p hp
    · rw [if_neg hcr] at hp
      exact hadd p hp

end Filling

end CardKeepr.Lib
