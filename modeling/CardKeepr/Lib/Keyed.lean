import Mathlib.Data.List.Nodup

namespace CardKeepr.Lib

open List

variable {α κ : Type} {key : α → κ} {rows : List α} {k : κ} {a b : α}

theorem eq_of_key (h : (rows.map key).Nodup) (ha : a∈rows) (hb : b∈rows) (hk : key a=key b) :
    a=b := inj_on_of_nodup_map h ha hb hk

theorem keys_map {f : α → α} (hf : ∀a∈rows,key (f a)=key a) :
    (rows.map f).map key=rows.map key := by
  rw [map_map]
  exact map_congr_left hf

theorem keys_append (h : (rows.map key).Nodup) (ha : ∀b∈rows,key b≠key a) :
    ((rows++[a]).map key).Nodup := by
  rw [map_append,map_singleton]
  refine h.append (nodup_singleton _) fun k hk hk' => ?_
  obtain ⟨b,hb,rfl⟩ := mem_map.mp hk
  exact ha b hb (mem_singleton.mp hk')

variable [DecidableEq κ]

theorem mem_of_keyed (h : rows.find? (fun a => decide (key a=k))=some a) : a∈rows ∧ key a=k :=
  ⟨List.mem_of_find?_eq_some h,by simpa using List.find?_some h⟩

theorem keyed_of_mem (h : (rows.map key).Nodup) (ha : a∈rows) (hk : key a=k) :
    rows.find? (fun a => decide (key a=k))=some a := by
  cases hf : rows.find? (fun a => decide (key a=k)) with
  | none =>
    have := List.find?_eq_none.mp hf a ha
    exact absurd (decide_eq_true hk) this
  | some b =>
    obtain ⟨hb,hkb⟩ := mem_of_keyed hf
    rw [eq_of_key h hb ha (hkb.trans hk.symm)]

theorem keyed_map {f : α → α} (hf : ∀a∈rows,key (f a)=key a) : (rows.map f).find?
    (fun a => decide (key a=k))= (rows.find? (fun a => decide (key a=k))).map f := by
  induction rows with
  | nil => rfl
  | cons a rows ih =>
    have ha := hf a mem_cons_self
    rw [map_cons,List.find?_cons,List.find?_cons,ha]
    by_cases hk : key a=k
    · simp [hk]
    · simp only [hk,decide_false]
      exact ih fun b hb => hf b (mem_cons_of_mem _ hb)

end CardKeepr.Lib
