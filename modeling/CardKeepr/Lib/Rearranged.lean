import Mathlib.Data.List.Perm.Basic

namespace CardKeepr.Lib

open List

variable {α β : Type} {f : α → β}

/-- The same value of `f` on all of a list. -/
def AllSame (f : α → β) (as : List α) : Prop := ∀a∈as,∀b∈as,f a=f b

theorem allSame_append (as : List α) (a : α) :
    AllSame f (as++[a]) ↔ AllSame f as ∧ ∀b∈as,f b=f a := by
  constructor
  · intro h
    exact ⟨fun b hb c hc => h b (by simp [hb]) c (by simp [hc]),fun b hb => h b (by simp [hb]) a
      (by simp)⟩
  · rintro ⟨h,ha⟩ b hb c hc
    rcases mem_append.mp hb with hb | hb <;> rcases mem_append.mp hc with hc | hc
    · exact h b hb c hc
    · rw [mem_singleton.mp hc]
      exact ha b hb
    · rw [mem_singleton.mp hb]
      exact (ha c hc).symm
    · rw [mem_singleton.mp hb,mem_singleton.mp hc]

theorem AllSame.subset {as bs : List α} (h : AllSame f as) (hs : bs⊆as) : AllSame f bs :=
  fun a ha b hb => h a (hs ha) b (hs hb)

theorem two_in_front {as : List α} {x y : α} (hx : x∈as) (hy : y∈as) (hne : x≠y) :
    ∃rest,(x::y::rest).Perm as := by
  obtain ⟨l,r,rfl⟩ := append_of_mem hx
  have hy' : y∈l++r := by
    rcases mem_append.mp hy with hy | hy
    · exact mem_append_left _ hy
    · exact mem_append_right _ ((mem_cons.mp hy).resolve_left (Ne.symm hne))
  obtain ⟨u,v,huv⟩ := append_of_mem hy'
  refine ⟨u++v,?_⟩
  have hp : (y::(u++v)).Perm (l++r) := huv ▸ perm_middle.symm
  exact (hp.cons x).trans perm_middle.symm

end CardKeepr.Lib
