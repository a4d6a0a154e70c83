import Mathlib.Data.List.Basic

namespace CardKeepr.Lib

open List

variable {α : Type}

/-- Typed-array `set`. Callers keep `off+part.length` inside the array. -/
def setAt (a part : List α) (off : Nat) : List α :=
  a.take off++part++a.drop (off+part.length)

/-- Typed-array `copyWithin(0, start, stop)`: the source is read before it is overwritten. -/
def copyToFront (a : List α) (start stop : Nat) : List α :=
  setAt a ((a.take stop).drop start) 0

theorem setAt_length (a part : List α) (off : Nat) (h : off+part.length ≤ a.length) :
    (setAt a part off).length=a.length := by
  simp only [setAt,length_append,length_take,length_drop]
  omega

theorem setAt_take (a part : List α) (off : Nat) (h : off ≤ a.length) :
    (setAt a part off).take (off+part.length)=a.take off++part := by
  have hl : (a.take off++part).length=off+part.length := by
    simp [Nat.min_eq_left h]
  unfold setAt
  rw [←hl,take_left]

theorem copyToFront_length (a : List α) (start stop : Nat) (hs : stop ≤ a.length) :
    (copyToFront a start stop).length=a.length := by
  apply setAt_length
  simp only [length_drop,length_take]
  omega

theorem copyToFront_take (a : List α) (start stop : Nat) (hs : stop ≤ a.length) :
    (copyToFront a start stop).take (stop-start)=(a.take stop).drop start := by
  have hl : ((a.take stop).drop start).length=stop-start := by
    simp [Nat.min_eq_left hs]
  have h := setAt_take a ((a.take stop).drop start) 0 (Nat.zero_le _)
  rw [hl] at h
  simpa [copyToFront] using h

/-- Pieces of `l` that end right after each element satisfying `p`; the last piece may be open. -/
def splitAfter (p : α → Bool) : List α → List (List α)
  | [] => []
  | a::l =>
    if p a then [a]::splitAfter p l
    else match splitAfter p l with
      | [] => [[a]]
      | r::rs => (a::r)::rs

/-- The piece was closed by an element satisfying `p`. -/
def closed (p : α → Bool) (r : List α) : Bool := r.getLast?.any p

@[simp] theorem splitAfter_nil (p : α → Bool) : splitAfter p []=[] := rfl

@[simp] theorem splitAfter_flatten (p : α → Bool) (l : List α) : (splitAfter p l).flatten=l := by
  induction l with
  | nil => rfl
  | cons a l ih =>
    rw [splitAfter]
    split
    · simp [ih]
    · cases hs : splitAfter p l with
      | nil => simp [hs] at ih; simp [←ih]
      | cons r rs => simpa [hs] using ih

/-- A nonempty piece in which only the last element may satisfy `p`. -/
def Piece (p : α → Bool) (r : List α) : Prop := r≠[] ∧ ∀a∈r.dropLast,p a=false

theorem splitAfter_piece (p : α → Bool) (l r : List α) (h : r∈splitAfter p l) : Piece p r := by
  induction l generalizing r with
  | nil => simp at h
  | cons a l ih =>
    rw [splitAfter] at h
    split at h
    · rcases mem_cons.mp h with rfl|h
      · simp [Piece]
      · exact ih r h
    · rename_i ha
      cases hs : splitAfter p l with
      | nil => simp [hs] at h; simp [h,Piece]
      | cons s rs =>
        rw [hs] at h
        rcases mem_cons.mp h with rfl|h
        · obtain ⟨hne,hs⟩ := ih s (by simp [hs])
          refine ⟨by simp,?_⟩
          rw [dropLast_cons_of_ne_nil hne]
          intro b hb
          rcases mem_cons.mp hb with rfl|hb
          · simpa using ha
          · exact hs b hb
        · exact ih r (by simp [hs,h])

end CardKeepr.Lib
