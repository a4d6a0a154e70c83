import CardKeepr.Lib.Fallible
import Mathlib

namespace CardKeepr.Lib

open List

section
variable {α κ : Type}

def placeAfter (key : α → κ) (start : κ) (done : List α) : κ := (done.getLast?.map key).getD start

@[simp] theorem placeAfter_nil (key : α → κ) (start : κ) : placeAfter key start []=start := rfl

@[simp] theorem placeAfter_append (key : α → κ) (start : κ) (done : List α) (a : α) :
    placeAfter key start (done++[a])=key a := by
  simp [placeAfter]

end

section
variable {α κ : Type} [LinearOrder κ] {key : α → κ}

theorem filter_greater {done rest : List α} {a : α} {p : α → Bool}
    (hp : ∀x,p x=true ↔ key a < key x)
    (h : (done++a::rest).Pairwise fun x y => key x < key y) : (done++a::rest).filter p=rest := by
  obtain ⟨-,hrest,hcross⟩ := pairwise_append.mp h
  have hnone : done.filter p=[] := by
    rw [filter_eq_nil_iff]
    intro x hx hpx
    exact lt_asymm (hcross x hx a mem_cons_self) ((hp x).mp hpx)
  have hself : ¬p a=true := fun ha => lt_irrefl _ ((hp a).mp ha)
  rw [filter_append,hnone,nil_append,filter_cons,if_neg hself,filter_eq_self]
  exact fun x hx => (hp x).mpr ((pairwise_cons.mp hrest).1 x hx)

theorem filter_behind {start : κ} {done rest : List α} (hs : ∀x∈done++rest,start < key x)
    (h : (done++rest).Pairwise fun x y => key x < key y) :
    (done++rest).filter (fun x => decide (placeAfter key start done < key x))=rest := by
  rcases eq_nil_or_concat done with rfl | ⟨init,a,rfl⟩
  · rw [nil_append,filter_eq_self]
    exact fun x hx => decide_eq_true (hs x hx)
  · rw [concat_eq_append,append_assoc,singleton_append] at h ⊢
    rw [placeAfter_append]
    exact filter_greater (fun x => decide_eq_true_iff) h

end

section
variable {ε α γ : Type} {read : Option γ → Except ε (List α×Option γ)}

/-- The pages from a place on, one after the other, until none is left to follow. -/
def follow (read : Option γ → Except ε (List α×Option γ)) : Nat → Option γ → Except ε (List α)
  | 0,_ => .ok []
  | fuel+1,place => do
    let page ← read place
    match page.2 with
    | none => return page.1
    | some next => do
      let later ← follow read fuel (some next)
      return page.1++later

theorem follow_all (stands : Option γ → List α → Prop)
    (h : ∀place rest,stands place rest → ∃page left next,read place=.ok (page,next) ∧
      rest=page++left ∧ (next=none → left=[]) ∧
      ∀place',next=some place' → page≠[] ∧ stands (some place') left) {fuel : Nat}
    {place : Option γ} {rest : List α} (hs : stands place rest) (hf : rest.length < fuel) :
    follow read fuel place=.ok rest := by
  induction fuel generalizing place rest with
  | zero => cases hf
  | succ fuel ih =>
    obtain ⟨page,left,next,hread,rfl,hnone,hsome⟩ := h place rest hs
    rw [follow,hread,ok_bind]
    cases next with
    | none =>
      rw [hnone rfl,append_nil]
      rfl
    | some place' =>
      obtain ⟨hne,hs'⟩ := hsome place' rfl
      have hpos : 0 < page.length := length_pos_of_ne_nil hne
      rw [length_append] at hf
      dsimp only
      rw [ih hs' (by omega),ok_bind]
      rfl

/-- The pages from a place on up to one that names no other place. -/
inductive Paged (read : Option γ → Except ε (List α×Option γ)) : Option γ → List α → Prop
  | last {place : Option γ} {page : List α} (h : read place=.ok (page,none)) :
      Paged read place page
  | next {place : Option γ} {page later : List α} {place' : γ}
      (h : read place=.ok (page,some place')) (hl : Paged read (some place') later) :
      Paged read place (page++later)

theorem paged_all (stands : Option γ → List α → Prop)
    (h : ∀place rest,stands place rest → ∃page left next,read place=.ok (page,next) ∧
      rest=page++left ∧ (next=none → left=[]) ∧
      ∀place',next=some place' → page≠[] ∧ stands (some place') left) {place : Option γ}
    {rest : List α} (hs : stands place rest) : Paged read place rest := by
  induction hn : rest.length using Nat.strongRecOn generalizing place rest with
  | ind n ih =>
    obtain ⟨page,left,next,hread,rfl,hnone,hsome⟩ := h place rest hs
    cases next with
    | none =>
      rw [hnone rfl,append_nil]
      exact .last hread
    | some place' =>
      obtain ⟨hne,hs'⟩ := hsome place' rfl
      have hpos : 0 < page.length := length_pos_of_ne_nil hne
      rw [length_append] at hn
      exact .next hread (ih left.length (by omega) hs' rfl)

end

end CardKeepr.Lib
