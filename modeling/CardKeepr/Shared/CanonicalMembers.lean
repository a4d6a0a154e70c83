import CardKeepr.Shared.CanonicalText

namespace CardKeepr.Shared

open List

variable {k s key path : JsString}

/-- `value[key]` for an own property. -/
def Json.member (key : JsString) : Json → Option Json
  | .obj ms => ms.lookup key
  | _ => none

theorem lookup_of_mem {α : Type} {m : List (JsString × α)}
    (h : key∈m.map Prod.fst) : ∃v,m.lookup key=some v ∧ (key,v)∈m := by
  induction m with
  | nil => exact (not_mem_nil h).elim
  | cons p m ih =>
    obtain ⟨k,a⟩ := p
    by_cases he : key=k
    · subst he
      exact ⟨a,lookup_cons_self,mem_cons_self⟩
    · obtain ⟨v,hv,hm⟩ := ih ((mem_cons.mp h).resolve_left he)
      refine ⟨v,?_,mem_cons_of_mem _ hm⟩
      rw [lookup_cons,beq_eq_false_iff_ne.mpr he]
      exact hv

theorem lookup_nodup {α : Type} {v : α} {m : List (JsString × α)}
    (hm : (m.map Prod.fst).Nodup) (h : (key,v)∈m) : m.lookup key=some v := by
  obtain ⟨w,hw,hin⟩ := lookup_of_mem (mem_map_of_mem (f := Prod.fst) h)
  obtain rfl : w=v := by
    have := inj_on_of_nodup_map hm hin h rfl
    injection this
  exact hw

theorem collect_ok {ε α : Type} {rs : List (Except ε α)} {as : List α} (h : collect rs=.ok as) :
    ∀r∈rs,∃a,r=.ok a := by
  induction rs generalizing as with
  | nil => exact fun r hr => (not_mem_nil hr).elim
  | cons q rs ih =>
    cases q with
    | error e => cases h
    | ok a =>
      cases hrs : collect rs with
      | error e =>
        rw [collect,hrs] at h
        cases h
      | ok bs =>
        intro r hr
        rcases mem_cons.mp hr with rfl | hr
        · exact ⟨a,rfl⟩
        · exact ih hrs r hr

variable (nfc : Nfc)

theorem mem_canonicalItems {index : Nat} {vs : List Json} {v : Json}
    (h : v∈vs) : ∃path',canonicalJsonAt nfc path' v∈canonicalItems nfc path index vs := by
  induction vs generalizing index with
  | nil => exact (not_mem_nil h).elim
  | cons w vs ih =>
    rw [canonicalItems]
    rcases mem_cons.mp h with rfl | h
    · exact ⟨_,mem_cons_self⟩
    · obtain ⟨path',hp⟩ := ih h
      exact ⟨path',mem_cons_of_mem _ hp⟩

theorem mem_canonicalMembers {ms : List (JsString × Json)} {m : JsString × Json}
    (h : m∈ms) : (m.1,(canonicalJsonAt nfc (path++46::m.1) m.2).map fun t =>
      quote (nfc.normalize m.1)++58::t)∈canonicalMembers nfc path ms := by
  induction ms with
  | nil => exact (not_mem_nil h).elim
  | cons n ms ih =>
    rw [canonicalMembers]
    rcases mem_cons.mp h with rfl | h
    · exact mem_cons_self
    · exact mem_cons_of_mem _ (ih h)

theorem integral_of_canonicalJsonAt {v : Json} {t : JsString}
    (h : canonicalJsonAt nfc path v=.ok t) : v.Integral := by
  induction v using Json.induct generalizing path t with
  | null => trivial
  | bool b => trivial
  | str s => trivial
  | num q =>
    rw [canonicalJsonAt] at h
    split at h
    · assumption
    · cases h
  | arr vs ih =>
    rw [canonicalJsonAt] at h
    cases hc : collect (canonicalItems nfc path 0 vs) with
    | error e =>
      rw [hc] at h
      cases h
    | ok ts =>
      refine (all_arr vs).mpr fun v hv => ?_
      obtain ⟨path',hp⟩ : ∃path',canonicalJsonAt nfc path' v∈canonicalItems nfc path 0 vs :=
        mem_canonicalItems nfc hv
      obtain ⟨s,hs⟩ := collect_ok hc _ hp
      exact ih v hv hs
  | obj ms ih =>
    rw [canonicalJsonAt] at h
    cases hc : collect (((canonicalMembers nfc path ms).insertionSort fun a b =>
        compareUtf8 nfc a.1 b.1 ≤ 0).map Prod.snd) with
    | error e =>
      rw [hc] at h
      cases h
    | ok ts =>
      refine (all_obj ms).mpr ⟨trivial,fun m hm => ?_⟩
      obtain ⟨s,hs⟩ := collect_ok hc _ (mem_map_of_mem (f := Prod.snd)
        ((mem_insertionSort _).mpr (mem_canonicalMembers nfc hm)))
      cases hv : canonicalJsonAt nfc (path++46::m.1) m.2 with
      | error e =>
        rw [hv] at hs
        cases hs
      | ok u => exact ih m hm hv

theorem member_canonical_own {ms : List (JsString × Json)} {v : Json}
    (hk : (ms.map fun m => nfc.normalize m.1).Nodup) (h : (k,v)∈ms) : Json.member (nfc.normalize k)
    ((Json.obj ms).canonical nfc).own= some (v.canonical nfc).own := by
  have hkeys : (((sortedMembers nfc ms).map fun m => (m.1,m.2.own)).map Prod.fst).Nodup := by
    rw [map_map]
    exact (sortedMembers_keys nfc ms).nodup_iff.mpr hk
  rw [canonical_obj,Json.own,ownValues_map,Json.member]
  apply lookup_nodup
  · exact ((ownMembers_perm hkeys).map Prod.fst).nodup_iff.mpr hkeys
  · apply (ownMembers_perm hkeys).mem_iff.mpr
    apply mem_map.mpr
    refine ⟨(nfc.normalize k,v.canonical nfc),?_,rfl⟩
    exact (sortedMembers_perm nfc ms).mem_iff.mpr (mem_map.mpr ⟨(k,v),h,rfl⟩)

theorem canonical_obj_congr {ms ns : List (JsString × Json)}
    (h : List.Forall₂ (fun m n => m.1=n.1 ∧ m.2.canonical nfc=n.2.canonical nfc) ms ns) :
    (Json.obj ms).canonical nfc=(Json.obj ns).canonical nfc := by
  have hsorted : ∀l : List (JsString × Json),sortedMembers nfc l=
      ((l.map fun m => (m.1,m.2.canonical nfc)).insertionSort fun a b =>
        compareUtf8 nfc a.1 b.1 ≤ 0).map fun m => (nfc.normalize m.1,m.2) := by
    intro l
    rw [sortedMembers,←map_insertionSort (fun a b : JsString × Json =>
      compareUtf8 nfc a.1 b.1 ≤ 0) _ _ _ fun _ _ _ _ => Iff.rfl,map_map]
    rfl
  have hmap : (ms.map fun m => (m.1,m.2.canonical nfc))=ns.map fun m => (m.1,m.2.canonical nfc) := by
    rw [←forall₂_eq_eq_eq,forall₂_map_left_iff,forall₂_map_right_iff]
    exact h.imp fun _ _ e => Prod.ext e.1 e.2
  rw [canonical_obj,canonical_obj,hsorted,hsorted,hmap]

theorem canonical_member {ms ns : List (JsString × Json)} {v w : Json}
    (h : (Json.obj ms).canonical nfc=(Json.obj ns).canonical nfc) (hv : (k,v)∈ms) (hw : (k,w)∈ns)
    (ha : (ns.map Prod.fst).all isAscii=true) (hk : (ns.map Prod.fst).Nodup) :
    v.canonical nfc=w.canonical nfc := by
  have hnormal : ns.map (fun m => nfc.normalize m.1)=ns.map Prod.fst :=
    map_congr_left fun m hm => nfc.ascii _
      (all_eq_true.mp ha _ (mem_map.mpr ⟨m,hm,rfl⟩))
  rw [canonical_obj,canonical_obj] at h
  injection h with h
  have hv : (nfc.normalize k,v.canonical nfc)∈sortedMembers nfc ns := by
    rw [←h]
    exact (sortedMembers_perm nfc ms).mem_iff.mpr (mem_map.mpr ⟨(k,v),hv,rfl⟩)
  have hw : (nfc.normalize k,w.canonical nfc)∈sortedMembers nfc ns :=
    (sortedMembers_perm nfc ns).mem_iff.mpr (mem_map.mpr ⟨(k,w),hw,rfl⟩)
  have hkeys := (sortedMembers_keys nfc ns).nodup_iff.mpr (hnormal ▸ hk)
  exact congrArg Prod.snd (inj_on_of_nodup_map hkeys hv hw rfl)

/-- Characters from `#` to `[`, which a quoted text shows as they are. -/
def plainText (s : JsString) : Bool := s.all fun u => decide (35 ≤ u.toNat ∧ u.toNat < 92)

theorem plainText_ascii (h : plainText s=true) : isAscii s=true := by
  rw [plainText,all_eq_true] at h
  rw [isAscii,all_eq_true]
  intro u hu
  have := of_decide_eq_true (h u hu)
  exact decide_eq_true (by omega)

theorem escapeUnit_plain {u : UInt16} (h : 35 ≤ u.toNat ∧ u.toNat < 92) : escapeUnit u=[u] := by
  have hne : ∀v : UInt16,v.toNat < 35 ∨ v.toNat=92 → u≠v := by
    rintro v hv rfl
    omega
  have hs : isSurrogate u=false := by
    simp only [isSurrogate,isHigh,isLow,Bool.or_eq_false_iff,decide_eq_false_iff_not]
    omega
  have hlow : ¬u.toNat < 32 := by omega
  simp [escapeUnit,hne 34 (by decide),hne 92 (by decide),hne 8 (by decide),hne 12 (by decide),
    hne 10 (by decide),hne 13 (by decide),hne 9 (by decide),hs,hlow]

theorem quoteBody_plain (h : plainText s=true) : quoteBody s=s := by
  rw [plainText,all_eq_true] at h
  fun_induction quoteBody s with
  | case1 => rfl
  | case2 u => exact escapeUnit_plain (of_decide_eq_true (h u (by simp)))
  | case3 u v us hp ih => rw [ih fun w hw => h w (by simp [hw])]
  | case4 u v us hp ih =>
    rw [ih fun w hw => h w (by simp [mem_cons.mp hw]),
      escapeUnit_plain (of_decide_eq_true (h u (by simp)))]
    rfl

theorem quote_plain (h : plainText s=true) : quote s=34::(s++[34]) := by
  rw [quote,quoteBody_plain h]

end CardKeepr.Shared
