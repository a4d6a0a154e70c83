import Mathlib.Data.List.Nodup

namespace CardKeepr.Lib

open List

variable {κ α β : Type} [DecidableEq κ]

def mapSet (m : List (κ × α)) (k : κ) (a : α) : List (κ × α) :=
  if k∈m.map Prod.fst then m.map fun e => if e.1=k then (k,a) else e else m++[(k,a)]

def mapOf (entries : List (κ × α)) : List (κ × α) :=
  entries.foldl (fun m e => mapSet m e.1 e.2) []

def groupBy (key : α → κ) (as : List α) : List (κ × List α) :=
  as.foldl (fun m a => mapSet m (key a) ((m.lookup (key a)).getD []++[a])) []

theorem mapSet_keys (m : List (κ × α)) (k : κ) (a : α) : (mapSet m k a).map Prod.fst=
    if k∈m.map Prod.fst then m.map Prod.fst else m.map Prod.fst++[k] := by
  rw [mapSet]
  split
  · rw [map_map]
    apply map_congr_left
    intro e _
    rw [Function.comp_apply]
    split
    · symm
      assumption
    · rfl
  · rw [map_append,map_singleton]

theorem mapSet_nodup {m : List (κ × α)} (h : (m.map Prod.fst).Nodup) (k : κ) (a : α) :
    ((mapSet m k a).map Prod.fst).Nodup := by
  rw [mapSet_keys]
  split
  · exact h
  · rename_i hk
    refine h.append (nodup_singleton k) fun x hx hk2 => ?_
    rw [mem_singleton.mp hk2] at hx
    exact hk hx

theorem mem_mapSet {m : List (κ × α)} {k : κ} {a : α} {e : κ × α} (h : e∈mapSet m k a) :
    e∈m ∨ e=(k,a) := by
  rw [mapSet] at h
  split at h
  · obtain ⟨d,hd,rfl⟩ := mem_map.mp h
    split
    · exact .inr rfl
    · exact .inl hd
  · rcases mem_append.mp h with h | h
    · exact .inl h
    · exact .inr (mem_singleton.mp h)

theorem mapSet_map (f : α → β) (m : List (κ × α)) (k : κ) (a : α) :
    (mapSet m k a).map (Prod.map id f)=mapSet (m.map (Prod.map id f)) k (f a) := by
  have hkeys : (m.map (Prod.map id f)).map Prod.fst=m.map Prod.fst := by
    rw [map_map]
    rfl
  rw [mapSet,mapSet,hkeys]
  split
  · rw [map_map,map_map]
    apply map_congr_left
    intro e _
    simp only [Function.comp_apply]
    split
    · rw [if_pos (by assumption)]
      rfl
    · rw [if_neg (by assumption)]
  · rw [map_append]
    rfl

private theorem foldl_mapSet_map (f : α → β) (es : List (κ × α)) (m : List (κ × α)) :
    (es.map (Prod.map id f)).foldl (fun m e => mapSet m e.1 e.2) (m.map (Prod.map id f))=
      (es.foldl (fun m e => mapSet m e.1 e.2) m).map (Prod.map id f) := by
  induction es generalizing m with
  | nil => rfl
  | cons e es ih =>
    rw [map_cons,foldl_cons,foldl_cons,←ih,mapSet_map]
    rfl

theorem mapOf_map (f : α → β) (es : List (κ × α)) :
    mapOf (es.map (Prod.map id f))=(mapOf es).map (Prod.map id f) := foldl_mapSet_map f es []

theorem mapOf_nodup (es : List (κ × α)) : ((mapOf es).map Prod.fst).Nodup := by
  have h : ∀(m : List (κ × α)),(m.map Prod.fst).Nodup →
      ((es.foldl (fun m e => mapSet m e.1 e.2) m).map Prod.fst).Nodup := by
    induction es with
    | nil => exact fun m hm => hm
    | cons e es ih => exact fun m hm => ih _ (mapSet_nodup hm e.1 e.2)
  exact h [] .nil

theorem mem_of_mapOf {es : List (κ × α)} {e : κ × α} (he : e∈mapOf es) : e∈es := by
  have h : ∀(m : List (κ × α)),e∈es.foldl (fun m e => mapSet m e.1 e.2) m → e∈m ∨ e∈es := by
    clear he
    induction es with
    | nil => exact fun m hm => .inl hm
    | cons d es ih =>
      intro m hm
      rcases ih _ hm with hm | hm
      · rcases mem_mapSet hm with hm | rfl
        · exact .inl hm
        · exact .inr mem_cons_self
      · exact .inr (mem_cons_of_mem d hm)
  rcases h [] he with h | h
  · cases h
  · exact h

theorem lookup_map (f : α → β) (m : List (κ × α)) (k : κ) :
    (m.map (Prod.map id f)).lookup k=(m.lookup k).map f := by
  induction m with
  | nil => rfl
  | cons e m ih =>
    rw [map_cons]
    show List.lookup k ((e.1,f e.2)::m.map (Prod.map id f))=(List.lookup k ((e.1,e.2)::m)).map f
    rw [lookup_cons,lookup_cons]
    split
    · rfl
    · exact ih

theorem groupBy_map (f : α → β) (key : β → κ) (as : List α) :
    groupBy key (as.map f)=(groupBy (fun a => key (f a)) as).map (Prod.map id (List.map f)) := by
  have h : ∀m : List (κ × List α),
      (as.map f).foldl (fun m a => mapSet m (key a) ((m.lookup (key a)).getD []++[a]))
        (m.map (Prod.map id (List.map f)))=
      (as.foldl (fun m a => mapSet m (key (f a)) ((m.lookup (key (f a))).getD []++[a])) m).map
        (Prod.map id (List.map f)) := by
    induction as with
    | nil => exact fun m => rfl
    | cons a as ih =>
      intro m
      rw [map_cons,foldl_cons,foldl_cons,←ih,mapSet_map,lookup_map,map_append]
      cases m.lookup (key (f a)) with
      | none => rfl
      | some as => rfl
  exact h []

theorem groupBy_congr {key key' : α → κ} {as : List α} (h : ∀a∈as,key a=key' a) :
    groupBy key as=groupBy key' as := by
  apply foldl_ext
  intro m a ha
  rw [h a ha]

theorem mem_of_lookup {m : List (κ × α)} {k : κ} {a : α} (h : m.lookup k=some a) : (k,a)∈m := by
  induction m with
  | nil => cases h
  | cons e m ih =>
    obtain ⟨l,b⟩ := e
    rw [lookup_cons] at h
    split at h
    · rename_i hkey
      rw [beq_iff_eq.mp hkey,←Option.some.inj h]
      exact mem_cons_self
    · exact mem_cons_of_mem _ (ih h)

theorem lookup_of_nodup {m : List (κ × α)} (h : (m.map Prod.fst).Nodup) {e : κ × α} (he : e∈m) :
    m.lookup e.1=some e.2 := by
  induction m with
  | nil => cases he
  | cons d m ih =>
    obtain ⟨k,a⟩ := d
    rw [map_cons,nodup_cons] at h
    rw [lookup_cons]
    rcases mem_cons.mp he with rfl | hm
    · rw [beq_self_eq_true]
    · have hk : e.1≠k := by
        rintro rfl
        exact h.1 (mem_map.mpr ⟨e,hm,rfl⟩)
      rw [beq_eq_false_iff_ne.mpr hk]
      exact ih h.2 hm

theorem mem_of_groupBy {key : α → κ} {as : List α} {g : κ × List α} {a : α}
    (hg : g∈groupBy key as) (ha : a∈g.2) : a∈as := by
  have h : ∀(m : List (κ × List α)) (P : α → Prop),(∀g∈m,∀a∈g.2,P a) → (∀a∈as,P a) →
      ∀g∈as.foldl (fun m a => mapSet m (key a) ((m.lookup (key a)).getD []++[a])) m,
        ∀a∈g.2,P a := by
    clear hg ha
    induction as with
    | nil => exact fun m P hm _ => hm
    | cons b as ih =>
      intro m P hm has
      refine ih _ P (fun g hg a ha => ?_) fun a ha => has a (mem_cons_of_mem b ha)
      rcases mem_mapSet hg with hg | rfl
      · exact hm g hg a ha
      · rcases mem_append.mp ha with ha | ha
        · cases hl : m.lookup (key b) with
          | none =>
            rw [hl] at ha
            cases ha
          | some bs =>
            rw [hl] at ha
            exact hm _ (mem_of_lookup hl) a ha
        · rw [mem_singleton.mp ha]
          exact has b mem_cons_self
  exact h [] (·∈as) (fun g hg => by cases hg) (fun a ha => ha) g hg a ha

theorem lookup_mapSet (m : List (κ × α)) (k l : κ) (a : α) :
    (mapSet m k a).lookup l=if l=k then some a else m.lookup l := by
  have hmap : ∀m : List (κ × α),(m.map fun e => if e.1=k then (k,a) else e).lookup l=
      if l=k then (if k∈m.map Prod.fst then some a else none) else m.lookup l := by
    intro m
    induction m with
    | nil => simp
    | cons e m ih =>
      rw [map_cons]
      by_cases he : e.1=k
      · by_cases hl : l=k
        · simp [he,hl]
        · have hb : (l==k)=false := beq_eq_false_iff_ne.mpr hl
          rw [if_pos he,lookup_cons,hb,ih,if_neg hl,if_neg hl]
          obtain ⟨d,b⟩ := e
          obtain rfl : d=k := he
          rw [lookup_cons,hb]
      · obtain ⟨d,b⟩ := e
        rw [if_neg he,lookup_cons,ih,lookup_cons]
        by_cases hl : l=k
        · have hd : (l==d)=false := beq_eq_false_iff_ne.mpr fun h => he (h.symm.trans hl)
          have hk : k∈((d,b)::m).map Prod.fst ↔ k∈m.map Prod.fst := by
            rw [map_cons,mem_cons]
            exact ⟨fun h => h.resolve_left (Ne.symm he),Or.inr⟩
          rw [hd,if_pos hl,if_pos hl]
          simp only [hk]
        · rw [if_neg hl,if_neg hl]
  have hnone : ∀m : List (κ × α),k∉m.map Prod.fst → m.lookup k=none := by
    intro m hk
    induction m with
    | nil => rfl
    | cons e m ih =>
      obtain ⟨d,b⟩ := e
      rw [map_cons,mem_cons,not_or] at hk
      rw [lookup_cons,beq_eq_false_iff_ne.mpr hk.1]
      exact ih hk.2
  rw [mapSet]
  split
  · rename_i hk
    rw [hmap,if_pos hk]
  · rename_i hk
    by_cases hl : l=k
    · rw [if_pos hl,hl,lookup_append,hnone m hk]
      simp
    · rw [if_neg hl,lookup_append,lookup_cons,beq_eq_false_iff_ne.mpr hl]
      simp

theorem mem_mapOf_keys {es : List (κ × α)} {k : κ} :
    k∈(mapOf es).map Prod.fst ↔ k∈es.map Prod.fst := by
  have h : ∀m : List (κ × α),k∈(es.foldl (fun m e => mapSet m e.1 e.2) m).map Prod.fst ↔
      k∈m.map Prod.fst ∨ k∈es.map Prod.fst := by
    induction es with
    | nil => exact fun m => ⟨Or.inl,fun h => h.resolve_right (not_mem_nil)⟩
    | cons e es ih =>
      intro m
      rw [foldl_cons,ih,mapSet_keys,map_cons,mem_cons]
      split
      · rename_i he
        constructor
        · rintro (h | h)
          · exact .inl h
          · exact .inr (.inr h)
        · rintro (h | rfl | h)
          · exact .inl h
          · exact .inl he
          · exact .inr h
      · rw [mem_append,mem_singleton,or_assoc]
  rw [mapOf,h []]
  exact ⟨fun h => h.resolve_left not_mem_nil,Or.inr⟩

end CardKeepr.Lib
