import Mathlib.Data.List.Perm.Basic
import Mathlib.Data.List.Sort

namespace CardKeepr.Lib

open List

variable {α : Type*} {r : α → α → Prop} [DecidableRel r] {p : α → Bool}

theorem filter_orderedInsert (h : ∀a b,p a=true → p b=true → r a b) (a : α) (l : List α) :
    (l.orderedInsert r a).filter p=(a::l).filter p := by
  induction l with
  | nil => rfl
  | cons b l ih =>
    rw [orderedInsert_cons]
    split_ifs with hab
    · rfl
    · rw [filter_cons,ih]
      cases ha : p a with
      | false => simp [filter_cons,ha]
      | true =>
        have hb : p b=false := by
          by_contra hb
          exact hab (h a b ha (by simpa using hb))
        simp [ha,hb]

theorem filter_insertionSort (h : ∀a b,p a=true → p b=true → r a b) (l : List α) :
    (l.insertionSort r).filter p=l.filter p := by
  induction l with
  | nil => rfl
  | cons a l ih => rw [insertionSort_cons,filter_orderedInsert h,filter_cons,
      filter_cons,ih]

theorem insertionSort_congr {s : α → α → Prop} [DecidableRel s] {l : List α}
    (h : l.Pairwise fun a b => r a b ↔ s a b) : l.insertionSort r=l.insertionSort s := by
  induction h with
  | nil => rfl
  | @cons a l ha _ ih =>
    have hinsert : ∀m : List α,(∀b∈m,r a b ↔ s a b) → m.orderedInsert r a=m.orderedInsert s a := by
      intro m hm
      induction m with
      | nil => rfl
      | cons b m ihm =>
        rw [orderedInsert_cons,orderedInsert_cons,ihm fun c hc => hm c (mem_cons_of_mem b hc)]
        simp only [hm b mem_cons_self]
    rw [insertionSort_cons,insertionSort_cons,ih]
    exact hinsert _ fun b hb => ha b ((mem_insertionSort s).mp hb)

theorem rel_iff_sublist [Std.Total r] [IsTrans α r] {l : List α} {a b : α}
    (hab : [a,b].Sublist l) : r a b ↔ [a,b].Sublist (l.insertionSort r) := by
  constructor
  · intro h
    exact pair_sublist_insertionSort h hab
  · intro h
    exact pairwise_pair.mp ((pairwise_insertionSort r l).sublist h)

theorem insertionSort_eq_iff {s : α → α → Prop} [DecidableRel s] [Std.Total r] [IsTrans α r]
    [Std.Total s] [IsTrans α s] {l : List α} :
    l.insertionSort r=l.insertionSort s ↔ l.Pairwise fun a b => r a b ↔ s a b := by
  refine ⟨fun h => ?_,insertionSort_congr⟩
  rw [pairwise_iff_forall_sublist]
  intro a b hab
  have hr : r a b ↔ _ := rel_iff_sublist hab
  have hs : s a b ↔ _ := rel_iff_sublist hab
  rw [hr,hs,h]

theorem insertionSort_filter [Std.Total r] [IsTrans α r] (p : α → Bool) (l : List α) :
    (l.filter p).insertionSort r=(l.insertionSort r).filter p := by
  have hinsert : ∀(a : α) (m : List α),m.Pairwise r →
      (m.orderedInsert r a).filter p=
        if p a then (m.filter p).orderedInsert r a else m.filter p := by
    intro a m hm
    induction hm with
    | nil => simp [filter_cons]
    | @cons b m hb _ ih =>
      rw [orderedInsert_cons]
      split_ifs with hab ha ha
      · -- everything after the place of `a` is above it, with or without the dropped elements
        have hall : ∀c∈(b::m).filter p,r a c := by
          intro c hc
          rcases mem_cons.mp (mem_of_mem_filter hc) with rfl | hc
          · exact hab
          · exact IsTrans.trans _ _ _ hab (hb c hc)
        rw [filter_cons,if_pos ha]
        generalize (b::m).filter p=rest at hall
        cases rest with
        | nil => rfl
        | cons c rest => rw [orderedInsert_cons,if_pos (hall c mem_cons_self)]
      · rw [filter_cons,if_neg ha]
      · rw [filter_cons,ih,if_pos ha,filter_cons]
        split_ifs with hb
        · rw [orderedInsert_cons,if_neg hab]
        · rfl
      · rw [filter_cons,ih,if_neg ha,filter_cons]
  induction l with
  | nil => rfl
  | cons a l ih =>
    rw [insertionSort_cons,hinsert a _ (pairwise_insertionSort r l),filter_cons,←ih]
    split_ifs
    · rfl
    · rfl

theorem forall₂_imp_mem {β : Type*} {R S : α → β → Prop} {l : List α} {m : List β}
    (h : ∀a ∈ l,∀b,R a b → S a b) (hR : List.Forall₂ R l m) : List.Forall₂ S l m := by
  induction hR with
  | nil => exact .nil
  | cons hab _ ih => exact .cons (h _ (by simp) _ hab) (ih fun a ha => h a (by simp [ha]))

theorem map_inj_mem {β : Type*} {f : α → β} {l m : List α}
    (hf : ∀a∈l,∀b∈m,f a=f b → a=b) (h : l.map f=m.map f) : l=m := by
  rw [←forall₂_eq_eq_eq,forall₂_map_left_iff,forall₂_map_right_iff] at h
  rw [←forall₂_eq_eq_eq,forall₂_iff_zip]
  refine ⟨h.length_eq,fun {a b} hab => ?_⟩
  have hmem := of_mem_zip hab
  exact hf a hmem.1 b hmem.2 (forall₂_zip h hab)

theorem perm_map_exists {β : Type*} {f : α → β} {l : List β} {m : List α}
    (h : l.Perm (m.map f)) : ∃n : List α,n.Perm m ∧ l=n.map f := by
  have hf : List.Forall₂ (fun b a => b=f a) (m.map f) m := by
    rw [forall₂_map_left_iff]
    exact forall₂_same.mpr fun _ _ => rfl
  obtain ⟨n,hn,hp⟩ := perm_comp_forall₂ h hf
  refine ⟨n,hp,?_⟩
  rw [←forall₂_eq_eq_eq,forall₂_map_right_iff]
  exact hn

end CardKeepr.Lib
