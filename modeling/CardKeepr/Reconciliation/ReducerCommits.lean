import CardKeepr.Reconciliation.ReducerWrites

namespace CardKeepr.Reconciliation

open Lib Shared List Durable

variable {rows : List (Option StateRow)}

def ReducerStore.at (u : ReducerStore) (w : PreparedWrite) : Option StateRow :=
  u.state w.space w.digest w.ordinal

theorem at_mono {u v : ReducerStore} (h : u ≤ v) {w : PreparedWrite} {r : StateRow}
    (hr : u.at w=some r) : v.at w=some r := h.1 _ _ _ _ hr

/-- The row an insertion would add. -/
def PreparedWrite.stored (w : PreparedWrite) : StateRow := ⟨storedText w.content,w.sha256⟩

theorem retainReducerState_at (u : ReducerStore) (w : PreparedWrite) :
    (retainReducerState u w).2.at w=some ((u.at w).getD w.stored) := by
  rw [retainReducerState,ReducerStore.at,ReducerStore.at]
  cases h : u.state w.space w.digest w.ordinal with
  | some row => exact h
  | none => simp [PreparedWrite.stored]

theorem retainReducerState_spec (u : ReducerStore) (w : PreparedWrite) :
    (retainReducerState u w).2.text=u.text ∧
    ((retainReducerState u w).1=none ∨ (retainReducerState u w).1=(retainReducerState u w).2.at w) ∧
    ∀n d o,¬(n=w.space ∧ d=w.digest ∧ o=w.ordinal) → (retainReducerState u w).2.state n d o=u.state
    n d o := by
  rw [retainReducerState]
  cases h : u.state w.space w.digest w.ordinal with
  | some row => exact ⟨rfl,.inl rfl,fun _ _ _ _ => rfl⟩
  | none =>
    refine ⟨rfl,.inr ?_,fun n d o hne => if_neg hne⟩
    simp [ReducerStore.at]

theorem retainReducerState_agree {u v z : ReducerStore} {w : PreparedWrite} (huv : u ≤ v)
    (hvz : v ≤ z) (hz : (retainReducerState u w).2 ≤ z) :
    (retainReducerState u w).2 ≤ (retainReducerState v w).2 ∧ (retainReducerState v w).2 ≤ z := by
  obtain ⟨htu,-,hou⟩ := retainReducerState_spec u w
  obtain ⟨htv,-,hov⟩ := retainReducerState_spec v w
  have hru := retainReducerState_at u w
  have hrv := retainReducerState_at v w
  have hzw := at_mono hz hru
  have hrow : (v.at w).getD w.stored=(u.at w).getD w.stored := by
    cases hu : u.at w with
    | some r => rw [at_mono huv hu]
    | none =>
      cases hv : v.at w with
      | none => rfl
      | some r =>
        have h2 := at_mono hvz hv
        rw [hzw,hu] at h2
        exact (Option.some.inj h2).symm
  rw [hrow] at hrv
  generalize (u.at w).getD w.stored=row at *
  refine ⟨⟨fun n d o r e => ?_,fun h o c e => ?_⟩,⟨fun n d o r e => ?_,fun h o c e => ?_⟩⟩
  · by_cases hk : n=w.space ∧ d=w.digest ∧ o=w.ordinal
    · obtain ⟨rfl,rfl,rfl⟩ := hk
      have e2 : (retainReducerState u w).2.at w=some r := e
      rw [hru] at e2
      rw [←Option.some.inj e2]
      exact hrv
    · rw [hou n d o hk] at e
      rw [hov n d o hk]
      exact huv.1 n d o r e
  · rw [htv]
    rw [htu] at e
    exact huv.2 h o c e
  · by_cases hk : n=w.space ∧ d=w.digest ∧ o=w.ordinal
    · obtain ⟨rfl,rfl,rfl⟩ := hk
      have e2 : (retainReducerState v w).2.at w=some r := e
      rw [hrv] at e2
      rw [←Option.some.inj e2]
      exact hzw
    · rw [hov n d o hk] at e
      exact hvz.1 n d o r e
  · rw [htv] at e
    exact hvz.2 h o c e

theorem retainReducerStates_agree {ws : List PreparedWrite} {u v z : ReducerStore} (huv : u ≤ v)
    (hvz : v ≤ z) (hz : (retainReducerStates ws u).2 ≤ z) : (retainReducerStates ws u).2 ≤
    (retainReducerStates ws v).2 ∧ (retainReducerStates ws v).2 ≤ z := by
  induction ws generalizing u v with
  | nil => exact ⟨huv,hvz⟩
  | cons w ws ih =>
    have hz1 := le_trans (retainReducerStates_grows ws _) hz
    obtain ⟨h1,h2⟩ := retainReducerState_agree huv hvz hz1
    exact ih h1 h2 hz

def Answered (u : ReducerStore) : List PreparedWrite → List (Option StateRow) → Prop :=
  List.Forall₂ fun w row => ∃r,u.at w=some r ∧ (row=none ∨ row=some r)

theorem Answered.mono {u v : ReducerStore} (h : u ≤ v) {ws : List PreparedWrite}
    {rows : List (Option StateRow)} (ha : Answered u ws rows) : Answered v ws rows :=
  ha.imp fun _ _ ⟨r,hr,hrow⟩ => ⟨r,at_mono h hr,hrow⟩

theorem retainReducerStates_answered (ws : List PreparedWrite) (u : ReducerStore) :
    Answered (retainReducerStates ws u).2 ws (retainReducerStates ws u).1 := by
  induction ws generalizing u with
  | nil => exact .nil
  | cons w ws ih =>
    obtain ⟨-,hrow,-⟩ := retainReducerState_spec u w
    have hr := retainReducerState_at u w
    rw [hr] at hrow
    exact .cons ⟨_,at_mono (retainReducerStates_grows ws _) hr,hrow⟩ (ih _)

theorem retainReducerStates_new (ws : List PreparedWrite) (u : ReducerStore) :
    (retainReducerStates ws u).2.text=u.text ∧ ∀n d o,
      (¬∃w∈ws,n=w.space ∧ d=w.digest ∧ o=w.ordinal) →
        (retainReducerStates ws u).2.state n d o=u.state n d o := by
  induction ws generalizing u with
  | nil => exact ⟨rfl,fun _ _ _ _ => rfl⟩
  | cons w ws ih =>
    obtain ⟨ht,-,ho⟩ := retainReducerState_spec u w
    obtain ⟨ht2,ho2⟩ := ih (retainReducerState u w).2
    refine ⟨ht2.trans ht,fun n d o hne => ?_⟩
    have h1 := ho2 n d o fun ⟨w',hw',hk⟩ => hne ⟨w',mem_cons_of_mem _ hw',hk⟩
    exact h1.trans (ho n d o fun hk => hne ⟨w,mem_cons_self,hk⟩)

theorem matching_iff {u : ReducerStore} {w : PreparedWrite} {r : StateRow} (h : u.at w=some r) :
    matchingReducerState u w=some w.row ↔ r=w.row := by
  have h : u.state w.space w.digest w.ordinal=some r := h
  rw [matchingReducerState,exactReducerState,h,Option.filter_some]
  split
  · simp
  · rename_i hne
    constructor
    · intro hf
      cases hf
    · rintro rfl
      simp [PreparedWrite.row] at hne

theorem fillConflicts_iff {u : ReducerStore} {ws : List PreparedWrite} (h : Answered u ws rows) :
    fillConflicts rows ((conflicts ws rows).map (matchingReducerState u))=
      ws.map (fun w => some w.row) ↔ ∀w∈ws,u.at w=some w.row := by
  induction h with
  | nil => simp [fillConflicts]
  | @cons w row ws rows hw _ ih =>
    obtain ⟨r,hr,rfl | rfl⟩ := hw
    · simp only [conflicts,fillConflicts,map_cons,headD_cons,tail_cons,
        List.cons.injEq,mem_cons,forall_eq_or_imp,ih,matching_iff hr,hr,Option.some.injEq]
    · simp only [conflicts,fillConflicts,map_cons,List.cons.injEq,mem_cons,
        forall_eq_or_imp,ih,hr,Option.some.injEq]

def verdict (u : ReducerStore) (ws : List PreparedWrite) : ReducerProg Unit :=
  if ∀w∈ws,u.at w=some w.row then pure () else .fail reducerReplayChanged

theorem Answered.lower {u v : ReducerStore} (h : u ≤ v) {ws : List PreparedWrite}
    {rows' : List (Option StateRow)} (ha : Answered v ws rows) (hu : Answered u ws rows') :
    Answered u ws rows := by
  induction ha generalizing rows' with
  | nil => exact .nil
  | cons hw _ ih =>
    obtain ⟨r,hr,hrow⟩ := hw
    cases hu with
    | cons hw' hrest =>
      obtain ⟨r',hr',-⟩ := hw'
      have he := at_mono h hr'
      rw [hr] at he
      obtain rfl := Option.some.inj he
      exact .cons ⟨r,hr',hrow⟩ (ih hrest)

theorem Answered.at_iff {u v : ReducerStore} (h : u ≤ v) {ws : List PreparedWrite} (ha : Answered u ws rows) :
    (∀w∈ws,v.at w=some w.row) ↔ ∀w∈ws,u.at w=some w.row := by
  refine forall₂_congr fun w hw => ?_
  obtain ⟨i,hi,rfl⟩ := getElem_of_mem hw
  obtain ⟨r,hr,-⟩ := ha.get hi (by rw [←ha.length_eq]; exact hi)
  have hr : u.at ws[i]=some r := hr
  rw [hr,at_mono h hr]

section
variable {z : ReducerStore} {L : List ReducerEvent}
  {Good : ReducerCheckpoint → ReducerStore → Prop} {mono : ∀c u v,u ≤ v → Good c u → Good c v}
variable {u : ReducerStore} {ws : List PreparedWrite} {w : PreparedWrite}
  {rows : List (Option StateRow)}
variable {k : Option (List (Option StateRow)) → ReducerProg Unit}

theorem verdict_follows (u v : ReducerStore) (ws : List PreparedWrite) :
    Durable.Follows (reducerReference z L Good mono) Eq (verdict u ws) (verdict u ws) v := by
  rw [verdict]
  split
  · exact follows_ret rfl v
  · exact follows_fail _ v

theorem finishCommit_eq {v : ReducerStore} (h : Answered u ws rows) (hv : u ≤ v) :
    (if fillConflicts rows ((conflicts ws rows).map (matchingReducerState v))=
      ws.map (fun w => some w.row) then (pure () : ReducerProg Unit)
      else .fail reducerReplayChanged)=verdict u ws := by
  rw [verdict]
  exact if_congr ((fillConflicts_iff (h.mono hv)).trans (h.at_iff hv)) rfl rfl

theorem finishCommit_follows (h : Answered u ws rows) : Durable.Follows
    (reducerReference z L Good mono) Eq (finishCommit ws (some rows)) (verdict u ws) u := by
  have hv : Durable.Follows (reducerReference z L Good mono) Eq (verdict u ws) (verdict u ws) u :=
    verdict_follows u u ws
  rw [finishCommit]
  split
  · rename_i hnone
    have he := finishCommit_eq h (le_refl u)
    rw [hnone] at he
    rw [←he] at hv ⊢
    exact hv
  · apply follows_read
    intro v huv _
    refine ⟨rfl,?_⟩
    rw [←finishCommit_eq h huv] at hv ⊢
    exact hv

theorem finishCommit_alone (h : Answered u ws rows) : alone (plain ReducerStore.refer)
    (finishCommit ws (some rows)) u= alone (plain ReducerStore.refer) (verdict u ws) u := by
  rw [finishCommit,←finishCommit_eq h (le_refl u)]
  split
  · rename_i hnone
    rw [hnone]
    rfl
  · rfl

theorem finishWrite_eq {v : ReducerStore} (h : Answered u [w] rows) (hv : u ≤ v) :
    (if v.at w=some w.row then (pure () : ReducerProg Unit) else .fail reducerReplayChanged)=
      verdict u [w] := by
  rw [verdict]
  have := h.at_iff hv
  simp only [mem_singleton,forall_eq] at this
  simp only [mem_singleton,forall_eq,this]

theorem finishWrite_follows (h : Answered u [w] rows) : Durable.Follows
    (reducerReference z L Good mono) Eq (finishWrite w (some rows)) (verdict u [w]) u := by
  have hv : Durable.Follows (reducerReference z L Good mono) Eq (verdict u [w]) (verdict u [w]) u :=
    verdict_follows u u [w]
  cases h with
  | cons hw hrest =>
    cases hrest
    obtain ⟨r,hr,rfl | rfl⟩ := hw
    · apply follows_read
      intro v huv _
      refine ⟨rfl,?_⟩
      rw [←finishWrite_eq (.cons ⟨r,hr,.inl rfl⟩ .nil) huv] at hv ⊢
      exact hv
    · rw [←finishWrite_eq (.cons ⟨r,hr,.inl rfl⟩ .nil) (le_refl u),hr] at hv ⊢
      exact hv

theorem finishWrite_alone (h : Answered u [w] rows) : alone (plain ReducerStore.refer)
    (finishWrite w (some rows)) u= alone (plain ReducerStore.refer) (verdict u [w]) u := by
  cases h with
  | cons hw hrest =>
    cases hrest
    obtain ⟨r,hr,rfl | rfl⟩ := hw
    · rw [←finishWrite_eq (.cons ⟨r,hr,.inl rfl⟩ .nil) (le_refl u)]
      rfl
    · rw [←finishWrite_eq (.cons ⟨r,hr,.inl rfl⟩ .nil) (le_refl u),hr]
      rfl

theorem retainStates_refer (ws : List PreparedWrite) (u : ReducerStore) :
    ReducerStore.refer (.retainStates ws) u=if ∃w∈ws,w.ordinal=0 then (none,u)
      else (some (retainReducerStates ws u).1,(retainReducerStates ws u).2) := rfl

theorem commit_follows (hnone : k none=.fail storageUnavailable) (hk : ∀u rows,Answered u ws rows →
      Durable.Follows (reducerReference z L Good mono) Eq (k (some rows)) (verdict u ws) u ∧
      alone (plain ReducerStore.refer) (k (some rows)) u=
        alone (plain ReducerStore.refer) (verdict u ws) u) (u : ReducerStore) :
    Durable.Follows (reducerReference z L Good mono) Eq (.call (.store (.retainStates ws)) k)
      (.call (.store (.retainStates ws)) k) u := by
  apply follows_calls
  intro hz v huv hvz
  change (ReducerStore.refer (.retainStates ws) u).2 ≤ z at hz
  show (ReducerStore.refer (.retainStates ws) u).2 ≤ (ReducerStore.refer (.retainStates ws) v).2 ∧
    (ReducerStore.refer (.retainStates ws) v).2 ≤ z ∧ Durable.Follows _ Eq
      (k (ReducerStore.refer (.retainStates ws) v).1)
      (k (ReducerStore.refer (.retainStates ws) u).1) (ReducerStore.refer (.retainStates ws) u).2
  rw [retainStates_refer] at hz ⊢
  rw [retainStates_refer]
  split
  · rw [hnone]
    exact ⟨huv,hvz,follows_fail _ u⟩
  · rename_i h0
    rw [if_neg h0] at hz
    obtain ⟨hlow,hup⟩ := retainReducerStates_agree huv hvz hz
    have hu := retainReducerStates_answered ws u
    have hv := (retainReducerStates_answered ws v).lower hlow hu
    exact ⟨hlow,hup,follows_congr (hk _ _ hv).1 (hk _ _ hu).2⟩

theorem commitWrites_follows (ws : List PreparedWrite) (u : ReducerStore) :
    Durable.Follows (reducerReference z L Good mono) Eq (commitWrites ws) (commitWrites ws) u :=
  commit_follows (k := finishCommit ws) rfl
    (fun _ _ h => ⟨finishCommit_follows h,finishCommit_alone h⟩) u

theorem commitWrite_follows (w : PreparedWrite) (u : ReducerStore) :
    Durable.Follows (reducerReference z L Good mono) Eq (commitWrite w) (commitWrite w) u :=
  commit_follows (k := finishWrite w) rfl
    (fun _ _ h => ⟨finishWrite_follows h,finishWrite_alone h⟩) u

/-- A commit adds rows under its own keys only, and is accepted when the rows kept there are its
own. -/
structure Committed (ws : List PreparedWrite) (u : ReducerStore)
    (r : Outcome ReducerEvent JsString Unit ReducerStore) : Prop where
  other : ∀n d o,(¬∃w∈ws,n=w.space ∧ d=w.digest ∧ o=w.ordinal) →
    r.store.state n d o=u.state n d o
  accepted : ∀a,r.result=.ok a → (∀w∈ws,w.ordinal≠0) ∧ ∀w∈ws,r.store.at w=some w.row

theorem commit_alone (hnone : k none=.fail storageUnavailable)
    (hk : ∀u rows,Answered u ws rows → alone (plain ReducerStore.refer) (k (some rows)) u=
      alone (plain ReducerStore.refer) (verdict u ws) u) (u : ReducerStore) :
    Committed ws u (alone (plain ReducerStore.refer)
      (.call (.store (.retainStates ws)) k : ReducerProg Unit) u) := by
  have he : alone (plain ReducerStore.refer)
      (.call (.store (.retainStates ws)) k : ReducerProg Unit) u=
      alone (plain ReducerStore.refer) (k (ReducerStore.refer (.retainStates ws) u).1)
        (ReducerStore.refer (.retainStates ws) u).2 := rfl
  rw [he,retainStates_refer]
  split
  · rw [hnone]
    exact ⟨fun _ _ _ _ => rfl,fun a h => by cases h⟩
  · rename_i h0
    rw [hk _ _ (retainReducerStates_answered ws u),verdict]
    split
    · rename_i hall
      exact ⟨(retainReducerStates_new ws u).2,fun a _ => ⟨fun w hw hz => h0 ⟨w,hw,hz⟩,hall⟩⟩
    · exact ⟨(retainReducerStates_new ws u).2,fun a h => by cases h⟩

theorem commitWrites_alone (ws : List PreparedWrite) (u : ReducerStore) :
    Committed ws u (alone (plain ReducerStore.refer) (commitWrites ws) u) :=
  commit_alone rfl (fun _ _ h => finishCommit_alone h) u

theorem commitWrite_alone (w : PreparedWrite) (u : ReducerStore) :
    Committed [w] u (alone (plain ReducerStore.refer) (commitWrite w) u) :=
  commit_alone rfl (fun _ _ h => finishWrite_alone h) u

end

end CardKeepr.Reconciliation
