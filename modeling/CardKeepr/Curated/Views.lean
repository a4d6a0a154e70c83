import CardKeepr.Curated.Conflicts

namespace CardKeepr.Curated

open Shared List

open Store

-- Owner mutations and materialisation over a store whose staged conflicts are apart, and what
-- the two views show in every state.

section

variable {s t : Store}
variable {read : OwnerRead} {id digest : JsString}

theorem advance_revised {r : Revision} {e : Event} (hrec : Recorded s) (hr : r∈s.revisions)
    (hs : r.status.applicable=true) : Revised s (s.advance r.id e) := by
  refine ⟨rfl,rfl,rfl,rfl,?_,?_⟩
  · intro x hx
    refine ⟨_,mem_map_of_mem hx,?_⟩
    split <;> exact ⟨rfl,rfl⟩
  · intro x' hx'
    obtain ⟨x,hx,rfl⟩ := mem_map.mp hx'
    refine Or.inr ⟨x,hx,?_⟩
    by_cases hid : x.id=r.id
    · have := hrec.unique hx hr hid
      subst this
      rw [if_pos rfl]
      exact ⟨rfl,fun _ => hs⟩
    · rw [if_neg hid]
      exact ⟨rfl,id⟩

theorem Store.Recorded.acknowledge (h : Recorded s) (rows : List Acknowledged) :
    Recorded { s with acknowledged := rows } := ⟨h.ids,h.owner,h.versions,h.status⟩

theorem Revised.acknowledge (h : Revised s t) (rows : List Acknowledged) :
    Revised s { t with acknowledged := rows } :=
  ⟨h.operations,h.runs,h.slots,h.conflicts,h.kept,h.origin⟩

/-- The version an owner read stands in the table, and the revision did not end in it. -/
def Standing (s : Store) (row : Revision) : Prop :=
  ∀r∈s.revisions,r.id=row.id → row.event_version≤r.event_version ∧
    (r.event_version=row.event_version → r.status.applicable=true)

theorem updateRevision_insertEvent (hrec : Recorded s) {row : Revision} {e : Event}
    (hst : Standing s row) (hid : e.revision_id=row.id) (hv : e.event_version=row.event_version+1)
    (ht : insertEvent e (updateRevision row.id row.event_version e.details.kind.leaves
      (row.event_version+1) s)=some t) :
    ∃r∈s.revisions,Revised s t ∧ Recorded t ∧ r.id=row.id ∧ t=s.advance r.id e := by
  obtain ⟨hnot,⟨r',hr',hrid'⟩,heq⟩ := insertEvent_some ht
  obtain ⟨r,hr,hr'eq⟩ := mem_map.mp hr'
  have hrid : r.id=row.id := by
    rw [← hid,← hrid',← hr'eq]
    split <;> rfl
  have hfresh : s.recorded r.id (row.event_version+1)=false := by
    rw [hrid,← hid,← hv]
    exact hnot
  obtain ⟨hle,hact⟩ := hst r hr hrid
  have hver : r.event_version=row.event_version := by
    by_contra hne
    have := (hrec.recorded_iff hr (row.event_version+1)).mpr ⟨by omega,by omega⟩
    rw [hfresh] at this
    cases this
  have heq : t=s.advance r.id e := by
    rw [heq,updateRevision,advance]
    congr 1
    apply map_congr_left
    intro x hx
    by_cases hx' : x.id=r.id
    · have := hrec.unique hx hr hx'
      subst this
      simp [hrid,hver,hact hver,hv]
    · have hx'' : x.id≠row.id := by rw [← hrid]; exact hx'
      simp [hx',hx'']
  refine ⟨r,hr,?_,?_,hrid,heq⟩
  · rw [heq]
    exact advance_revised hrec hr (hact hver)
  · rw [heq]
    exact advance_recorded hrec hr (hid.trans hrid.symm) (by rw [hv,hver])

theorem appendLifecycleMutation_revised (hrec : Recorded s)
    {details : EventDetails} {code : String} (hst : Standing s read.row)
    (ht : s.appendLifecycleMutation read details.kind.leaves details code=some t) :
    Revised s t ∧ Recorded t := by
  rw [appendLifecycleMutation] at ht
  simp only [Option.bind_eq_bind,Option.bind_eq_some_iff] at ht
  obtain ⟨u,hu,ht⟩ := ht
  obtain ⟨r,hr,hrev,hrec',_⟩ := updateRevision_insertEvent hrec hst rfl rfl hu
  obtain ⟨_,rfl⟩ := acknowledge_some ht
  exact ⟨hrev.acknowledge _,hrec'.acknowledge _⟩

theorem reaffirm_revised (hrec : Recorded s) (hst : Standing s read.row)
    (ht : s.reaffirmCuratedRevision read=some t) : Revised s t ∧ Recorded t := by
  rw [reaffirmCuratedRevision] at ht
  split at ht
  · cases ht
  · split at ht
    · exact appendLifecycleMutation_revised hrec hst ht
    · cases ht

theorem retire_revised (hrec : Recorded s) (hst : Standing s read.row)
    (ht : s.retireCuratedRevision read=some t) : Revised s t ∧ Recorded t := by
  rw [retireCuratedRevision] at ht
  split at ht
  · exact appendLifecycleMutation_revised hrec hst ht
  · cases ht

theorem authored_revised (hrec : Recorded s) {proposal : Proposal} {at' : Nat} {supersedes : Option JsString} {u : Store}
    (hu : insertAuthored id proposal digest at' s=some u)
    (ht : insertEvent ⟨id,1,.authored proposal.reviewed_source_digest supersedes,at'⟩ u=some t) :
    Revised s t ∧ Recorded t := by
  obtain ⟨_,hnew,rfl⟩ := insertAuthored_some hu
  obtain ⟨_,_,rfl⟩ := insertEvent_some ht
  constructor
  · refine ⟨rfl,rfl,rfl,rfl,fun r hr => ⟨r,mem_append_left _ hr,rfl,rfl⟩,?_⟩
    intro r' hr'
    rcases mem_append.mp hr' with hr' | hr'
    · exact Or.inr ⟨r',hr',rfl,fun h => h⟩
    · rw [mem_singleton.mp hr']
      refine Or.inl fun r hr heq => ?_
      exact any_eq_false.mp hnew r hr (by simpa using heq)
  · exact authored_recorded hrec hnew rfl rfl rfl rfl rfl

theorem create_revised (hrec : Recorded s) {input : Creation}
    (ht : s.createCuratedRevision input=some t) : Revised s t ∧ Recorded t := by
  rw [createCuratedRevision] at ht
  split at ht
  · cases ht
  · simp only [Option.bind_eq_bind,Option.bind_eq_some_iff] at ht
    obtain ⟨u,hu,v,hv,ht⟩ := ht
    obtain ⟨hrev,hrec'⟩ := authored_revised hrec hu hv
    obtain ⟨_,rfl⟩ := acknowledge_some ht
    exact ⟨hrev.acknowledge _,hrec'.acknowledge _⟩

theorem supersede_revised (hrec : Recorded s) {proposal : Proposal} (hst : Standing s read.row)
    (ht : s.supersedeCuratedRevision read id proposal digest=some t) :
    Revised s t ∧ Recorded t := by
  rw [supersedeCuratedRevision] at ht
  split at ht
  · cases ht
  · simp only [Option.bind_eq_bind,Option.bind_eq_some_iff] at ht
    obtain ⟨u,hu,v,hv,w,hw,ht⟩ := ht
    obtain ⟨r,hr,hold,hrec',_⟩ := updateRevision_insertEvent hrec hst rfl rfl hu
    obtain ⟨_,rfl⟩ := acknowledge_some ht
    obtain ⟨hnew,hrec''⟩ := authored_revised hrec' hv hw
    exact ⟨(hold.trans hnew).acknowledge _,hrec''.acknowledge _⟩

end

section

variable {σ : State}
variable {c : Conflict} {r : Revision} {statements : OwnerRead → Store → Option Store}

theorem mem_visible {s : Store} : c∈s.visiblePreparedCuratedConflicts ↔
    c∈s.conflicts ∧ ∃r∈s.revisions,s.shows c r=true := by
  rw [visiblePreparedCuratedConflicts,mem_filter,any_eq_true]

theorem visible_filter {s : Store} (hrec : Recorded s) (hr : r∈s.revisions) :
    (s.visiblePreparedCuratedConflicts.filter fun c => c.revision_id=r.id)=
      s.conflicts.filter fun c => s.shows c r := by
  rw [visiblePreparedCuratedConflicts,filter_filter]
  apply filter_congr
  intro c _
  rw [Bool.eq_iff_iff,Bool.and_eq_true,any_eq_true,decide_eq_true_eq]
  constructor
  · rintro ⟨hid,r',hr',hs⟩
    have : r'=r := hrec.unique hr' hr (by rw [← (shows_iff.mp hs).1,hid])
    rw [← this]
    exact hs
  · intro hs
    exact ⟨(shows_iff.mp hs).1,r,hr,hs⟩

theorem shows_fresh {s : Store} (hrec : Recorded s) (hr : r∈s.revisions) (hs : s.shows c r=true) : s.recorded c.revision_id c.eventVersion=false := by
  obtain ⟨hid,_,_,hv⟩ := shows_iff.mp hs
  rw [hid,hv,Bool.eq_false_iff]
  intro h
  have := (hrec.recorded_iff hr _).mp h
  omega

/-- Materialisation appends the one visible event of the revision, or does nothing. -/
theorem Staged.materialize (h : Staged σ) (hrec : Recorded σ.store) (id : JsString) :
    (σ.store.materialize id=some σ.store ∧ ∀c∈σ.store.visiblePreparedCuratedConflicts,
      c.revision_id≠id) ∨
    ∃r∈σ.store.revisions,∃c∈σ.store.conflicts,r.id=id ∧ σ.store.shows c r=true ∧
      σ.store.materialize id=some (σ.store.advance r.id c.event) := by
  have hmissing : (σ.store.visiblePreparedCuratedConflicts.filter fun c =>
      c.revision_id=id && !σ.store.recorded c.revision_id c.eventVersion)=
      (σ.store.visiblePreparedCuratedConflicts.filter fun c => c.revision_id=id).filter fun c =>
        !σ.store.recorded c.revision_id c.eventVersion := by
    rw [filter_filter]
    apply filter_congr
    intro c _
    rw [Bool.and_comm]
  by_cases hex : ∃r∈σ.store.revisions,∃c∈σ.store.conflicts,r.id=id ∧ σ.store.shows c r=true
  · obtain ⟨r,hr,c,hc,rfl,hs⟩ := hex
    refine Or.inr ⟨r,hr,c,hc,rfl,hs,?_⟩
    obtain ⟨hcid,_,_,hcv⟩ := shows_iff.mp hs
    have hone : (σ.store.visiblePreparedCuratedConflicts.filter fun c => c.revision_id=r.id)=[c] := by
      rw [visible_filter hrec hr]
      rcases h.shown hr with hnil | ⟨c',_,hs',hf⟩
      · have := filter_eq_nil_iff.mp hnil c hc
        exact absurd hs this
      · have hmem : c∈σ.store.conflicts.filter fun c => σ.store.shows c r :=
          mem_filter.mpr ⟨hc,hs⟩
        rw [hf,mem_singleton] at hmem
        rw [hf,hmem]
    have hfresh := shows_fresh hrec hr hs
    have hinsert : insertEvent c.event σ.store=
        some { σ.store with events := σ.store.events++[c.event] } := by
      have hany : σ.store.revisions.any (·.id=c.event.revision_id)=true :=
        any_eq_true.mpr ⟨r,hr,decide_eq_true hcid.symm⟩
      have hrecd : σ.store.recorded c.event.revision_id c.event.event_version=false := hfresh
      rw [insertEvent,hrecd,hany]
      rfl
    rw [Store.materialize,hmissing,hone]
    simp only [filter_cons,hfresh,Bool.not_false,if_true,filter_nil,foldlM_cons,
      foldlM_nil,hinsert,Option.bind_eq_bind,Option.bind_some,Option.pure_def]
    rw [advance]
    congr 2
    apply map_congr_left
    intro x hx
    by_cases hxr : x.id=r.id
    · have hx' := hrec.unique hx hr hxr
      subst hx'
      have hany : ({ σ.store with events := σ.store.events++[c.event] } :
          Store).visiblePreparedCuratedConflicts.any (·.revision_id=x.id)=true := by
        apply any_eq_true.mpr
        refine ⟨c,mem_visible.mpr ⟨hc,x,hx,hs⟩,by simpa using hcid⟩
      rw [hany,if_pos rfl]
      simp [Conflict.event,EventDetails.kind,EventKind.leaves,hcv]
    · simp [hxr]
  · have hnone : ∀c∈σ.store.visiblePreparedCuratedConflicts,c.revision_id≠id := by
      intro c hc heq
      obtain ⟨hmem,r,hr,hs⟩ := mem_visible.mp hc
      exact hex ⟨r,hr,c,hmem,by rw [← (shows_iff.mp hs).1,heq],hs⟩
    refine Or.inl ⟨?_,hnone⟩
    have hnil : (σ.store.visiblePreparedCuratedConflicts.filter fun c => c.revision_id=id)=[] := by
      apply filter_eq_nil_iff.mpr
      intro c hc
      simpa using hnone c hc
    rw [Store.materialize,hmissing,hnil]
    simp only [filter_nil,foldlM_nil,Option.bind_eq_bind,Option.pure_def,Option.bind_some]
    have hmap : (σ.store.revisions.map fun revision => if revision.id=id &&
        σ.store.visiblePreparedCuratedConflicts.any (·.revision_id=revision.id) then
        { revision with
          status := .reconfirmation_required, event_version := revision.event_version+1 }
        else revision)=σ.store.revisions := by
      conv_rhs => rw [← map_id σ.store.revisions]
      apply map_congr_left
      intro x _
      have : (decide (x.id=id) &&
          σ.store.visiblePreparedCuratedConflicts.any (·.revision_id=x.id))=false := by
        rw [Bool.and_eq_false_iff]
        by_cases hx : x.id=id
        · refine Or.inr (any_eq_false.mpr ?_)
          intro c hc
          rw [hx]
          simpa using hnone c hc
        · exact Or.inl (by simpa using hx)
      rw [this]
      rfl
    rw [hmap]

/-- The row the view shows for a revision when at most one of its conflicts is visible. -/
def rowOf (s : Store) (r : Revision) : Revision :=
  if s.conflicts.any fun c => s.shows c r then
    { r with status := .reconfirmation_required, event_version := r.event_version+1 }
  else r

theorem rowOf_id (s : Store) (r : Revision) : (rowOf s r).id=r.id := by
  rw [rowOf]
  split <;> rfl

theorem rowOf_of_shows {s : Store} (hc : c∈s.conflicts) (hs : s.shows c r=true) : rowOf s r=
      { r with status := .reconfirmation_required, event_version := r.event_version+1 } := by
  rw [rowOf,if_pos (any_eq_true.mpr ⟨c,hc,hs⟩)]

theorem rowOf_of_none {s : Store} (h : ∀c∈s.conflicts,s.shows c r=false) : rowOf s r=r := by
  rw [rowOf,if_neg]
  simpa using h

theorem flatMap_singleton {α β : Type} {f : α → List β} {g : α → β} {l : List α}
    (h : ∀x∈l,f x=[g x]) : l.flatMap f=l.map g := by
  induction l with
  | nil => rfl
  | cons x l ih =>
    rw [flatMap_cons,h x mem_cons_self,ih fun y hy => h y (mem_cons_of_mem _ hy)]
    rfl

theorem Staged.rows (h : Staged σ) :
    σ.store.curatedRevisionRead=σ.store.revisions.map (rowOf σ.store) := by
  apply flatMap_singleton
  intro r hr
  rcases h.read hr with ⟨heq,hnone⟩ | ⟨c,hc,hs,heq⟩
  · rw [heq,rowOf_of_none hnone]
  · rw [heq,rowOf_of_shows hc hs]

theorem eventRead_eq {s : Store} (hrec : Recorded s) : s.curatedRevisionEventRead=
    s.events++s.visiblePreparedCuratedConflicts.map Conflict.event := by
  rw [curatedRevisionEventRead]
  congr 2
  rw [filter_eq_self]
  intro c hc
  obtain ⟨_,r,hr,hs⟩ := mem_visible.mp hc
  rw [shows_fresh hrec hr hs]
  rfl

def visibleEvents (s : Store) (id : JsString) : List Event :=
  s.curatedRevisionEventRead.filter (·.revision_id=id)

theorem visibleEvents_eq {s : Store} (hrec : Recorded s) (hr : r∈s.revisions) : visibleEvents s
    r.id=s.history r.id++(s.conflicts.filter fun c => s.shows c r).map Conflict.event := by
  rw [visibleEvents,eventRead_eq hrec,filter_append,filter_map,← visible_filter hrec hr]
  rfl

theorem Staged.visible (h : Staged σ) (hrec : Recorded σ.store) (hr : r∈σ.store.revisions) :
    (visibleEvents σ.store r.id).map (·.event_version)= List.range' 1
    (rowOf σ.store r).event_version ∧ folded (visibleEvents σ.store r.id)= some
    ((rowOf σ.store r).status,(rowOf σ.store r).event_version) := by
  rw [visibleEvents_eq hrec hr]
  rcases h.shown hr with hf | ⟨c,hc,hs,hf⟩
  · have hnone : ∀c∈σ.store.conflicts,σ.store.shows c r=false := by
      intro c hc
      simpa using filter_eq_nil_iff.mp hf c hc
    rw [hf,rowOf_of_none hnone,map_nil,append_nil]
    exact ⟨hrec.versions r hr,hrec.status r hr⟩
  · obtain ⟨hid,_,_,hv⟩ := shows_iff.mp hs
    rw [hf,rowOf_of_shows hc hs,map_singleton,folded_append]
    constructor
    · rw [map_append,hrec.versions r hr,range'_1_concat]
      simp [Conflict.event,hv,Nat.add_comm]
    · simp [Conflict.event,EventDetails.kind,EventKind.leaves,hv]

theorem advance_shows {s : Store} (hrec : Recorded s) (hr : r∈s.revisions) {e : Event} (he : e.details.kind.leaves≠.active) {x : Revision}
    (hx : x∈s.revisions) : (s.advance r.id e).shows c (if x.id=r.id then
      { x with status := e.details.kind.leaves, event_version := e.event_version } else x)=
      (decide (x≠r) && s.shows c x) := by
  by_cases hxr : x.id=r.id
  · have := hrec.unique hx hr hxr
    subst this
    simp [shows,he]
  · have hne : x≠r := fun h => hxr (by rw [h])
    rw [if_neg hxr]
    simp only [hne,ne_eq,not_false_eq_true,decide_true,Bool.true_and]
    rfl

theorem Staged.advance_rows (h : Staged σ) (hrec : Recorded σ.store)
    (hr : r∈σ.store.revisions) (hc : c∈σ.store.conflicts)
    (hs : σ.store.shows c r=true) (h' : Staged { σ with store := σ.store.advance r.id c.event }) :
    (σ.store.advance r.id c.event).curatedRevisionRead=σ.store.curatedRevisionRead := by
  have hrows := h'.rows
  dsimp only at hrows
  rw [hrows,h.rows]
  change (σ.store.revisions.map _).map _=_
  rw [map_map]
  apply map_congr_left
  intro x hx
  dsimp only [Function.comp]
  have hleaves : c.event.details.kind.leaves≠.active := fun h => nomatch h
  have hshows : ∀d,(σ.store.advance r.id c.event).shows d (if x.id=r.id then { x with
      status := c.event.details.kind.leaves, event_version := c.event.event_version } else x)=
      (decide (x≠r) && σ.store.shows d x) :=
    fun d => advance_shows hrec hr hleaves hx
  by_cases hxr : x=r
  · subst hxr
    have hnone : ∀d∈(σ.store.advance x.id c.event).conflicts,(σ.store.advance x.id c.event).shows d
        (if x.id=x.id then { x with
          status := c.event.details.kind.leaves, event_version := c.event.event_version } else x)=
        false := by
      intro d _
      rw [hshows d]
      simp
    rw [rowOf_of_none hnone,rowOf_of_shows hc hs,if_pos rfl]
    simp [Conflict.event,EventDetails.kind,EventKind.leaves,(shows_iff.mp hs).2.2.2]
  · have hid : x.id≠r.id := fun hid => hxr (hrec.unique hx hr hid)
    have hany : ((σ.store.advance r.id c.event).conflicts.any fun d =>
        (σ.store.advance r.id c.event).shows d (if x.id=r.id then { x with
          status := c.event.details.kind.leaves, event_version := c.event.event_version } else x))=
        σ.store.conflicts.any fun d => σ.store.shows d x := by
      have : (fun d => (σ.store.advance r.id c.event).shows d (if x.id=r.id then { x with
          status := c.event.details.kind.leaves, event_version := c.event.event_version } else x))=
          fun d => σ.store.shows d x := by
        funext d
        rw [hshows d]
        simp [hxr]
      rw [this]
      rfl
    rw [rowOf,hany,if_neg hid]
    rfl

theorem Staged.advance_events (h : Staged σ) (hrec : Recorded σ.store)
    (hr : r∈σ.store.revisions) (hc : c∈σ.store.conflicts)
    (hs : σ.store.shows c r=true) (hrec' : Recorded (σ.store.advance r.id c.event)) :
    (σ.store.advance r.id c.event).curatedRevisionEventRead.Perm
      σ.store.curatedRevisionEventRead := by
  have hleaves : c.event.details.kind.leaves≠.active := fun h => nomatch h
  have hsame : (σ.store.advance r.id c.event).visiblePreparedCuratedConflicts=
      σ.store.visiblePreparedCuratedConflicts.erase c := by
    have hnodup : σ.store.visiblePreparedCuratedConflicts.Nodup :=
      (List.Nodup.of_map _ h.keys).filter _
    rw [hnodup.erase_eq_filter,visiblePreparedCuratedConflicts,visiblePreparedCuratedConflicts,
      filter_filter]
    change σ.store.conflicts.filter _=_
    apply filter_congr
    intro d hd
    change ((σ.store.revisions.map _).any _)=_
    rw [any_map,Bool.eq_iff_iff,any_eq_true,Bool.and_eq_true,any_eq_true]
    constructor
    · rintro ⟨x,hx,hsx⟩
      dsimp only [Function.comp] at hsx
      rw [advance_shows hrec hr hleaves hx,Bool.and_eq_true,decide_eq_true_eq] at hsx
      refine ⟨?_,x,hx,hsx.2⟩
      simp only [bne_iff_ne]
      intro hdc
      subst hdc
      exact hsx.1 (hrec.unique hx hr (by
        rw [← (shows_iff.mp hsx.2).1,(shows_iff.mp hs).1]))
    · rintro ⟨hdc,x,hx,hsx⟩
      refine ⟨x,hx,?_⟩
      dsimp only [Function.comp]
      rw [advance_shows hrec hr hleaves hx,Bool.and_eq_true,decide_eq_true_eq]
      refine ⟨?_,hsx⟩
      intro hxr
      subst hxr
      have : d=c := by
        rcases h.shown hr with hf | ⟨c',_,_,hf⟩
        · exact absurd hs (filter_eq_nil_iff.mp hf c hc)
        · have hd' : d∈σ.store.conflicts.filter fun c => σ.store.shows c x :=
            mem_filter.mpr ⟨hd,hsx⟩
          have hc' : c∈σ.store.conflicts.filter fun c => σ.store.shows c x :=
            mem_filter.mpr ⟨hc,hs⟩
          rw [hf,mem_singleton] at hd' hc'
          rw [hd',hc']
      simp [this] at hdc
  have hmem : c∈σ.store.visiblePreparedCuratedConflicts := mem_visible.mpr ⟨hc,r,hr,hs⟩
  rw [eventRead_eq hrec',eventRead_eq hrec,hsame]
  change ((σ.store.events++[c.event])++_).Perm _
  rw [append_assoc]
  apply List.Perm.append_left
  have hperm := (perm_cons_erase hmem).map Conflict.event
  exact hperm.symm

/-- What every state reached through sound steps keeps. -/
structure Kept (σ : State) : Prop where
  reserved : Reserved σ.store
  recorded : Recorded σ.store
  staged : Staged σ

theorem Kept.new : Kept .new := by
  refine ⟨⟨nodup_nil,?_,?_,?_,nodup_nil,?_,?_,?_⟩,.new,.new⟩
  · intro row h; cases h
  · intro op h; cases h
  · intro op h; cases h
  · intro p op h; cases h
  · intro p op h; cases h
  · intro r row h; cases h

theorem Kept.turn (h : Kept σ) {t : Store} (ht : Turn σ.store t) : Kept { σ with store := t } := by
  refine ⟨ht.2,?_,h.staged.turn h.recorded h.reserved ht.1⟩
  have hr := ht.1.revisions
  have he := ht.1.events
  have hhist : ∀id,t.history id=σ.store.history id := by
    intro id
    rw [history,history,he]
  constructor
  · rw [hr]; exact h.recorded.ids
  · rw [hr,he]; exact h.recorded.owner
  · rw [hr]
    intro r hmem
    rw [hhist]
    exact h.recorded.versions r hmem
  · rw [hr]
    intro r hmem
    rw [hhist]
    exact h.recorded.status r hmem

theorem Kept.revised (h : Kept σ) {t : Store} (ht : Revised σ.store t ∧ Recorded t) :
    Kept { σ with store := t } :=
  ⟨ht.1.reserved h.reserved,ht.2,h.staged.revised ht.1⟩

theorem Kept.batch (h : Kept σ) {statements : Store → Option Store}
    (hb : ∀t,statements σ.store=some t → Kept { σ with store := t }) :
    Kept (σ.batch statements) := by
  rw [State.batch]
  cases ht : statements σ.store with
  | none => exact h
  | some t => exact hb t ht

theorem Kept.mutate (h : Kept σ) {i : Nat} (hst : σ.standing i=true)
    (hb : ∀read t,Standing σ.store read.row → statements read σ.store=some t →
      Revised σ.store t ∧ Recorded t) : Kept (σ.mutate i statements) := by
  rw [State.mutate]
  cases hread : σ.reads[i]? with
  | none => exact h
  | some read =>
    refine h.batch fun t ht => h.revised (hb read t ?_ ht)
    rw [State.standing,hread] at hst
    intro r hr hid
    have := all_eq_true.mp hst r hr
    simpa [hid,imp_iff_not_or] using this

theorem Kept.materialize (h : Kept σ) (id : JsString) {t : Store}
    (ht : σ.store.materialize id=some t) : Kept { σ with store := t } := by
  rcases h.staged.materialize h.recorded id with ⟨heq,_⟩ | ⟨r,hr,c,hc,_,hs,heq⟩
  · rw [heq] at ht
    cases ht
    exact h
  · rw [heq] at ht
    cases ht
    obtain ⟨hid,_,hact,hv⟩ := shows_iff.mp hs
    exact h.revised ⟨advance_revised h.recorded hr (by rw [hact]; rfl),
      advance_recorded h.recorded hr hid hv⟩

theorem Kept.step (h : Kept σ) {m : Move} (hm : σ.sound m=true) : Kept (σ.step m) := by
  cases m with
  | startRun id games => exact h.batch fun t ht => h.turn (startRun_turn h.reserved ht)
  | startPreparation id run game =>
    exact h.batch fun t ht => h.turn (startPreparation_turn h.reserved ht)
  | startReconciliation run =>
    exact h.batch fun t ht => h.turn (startReconciliation_turn h.reserved ht)
  | pause id generation detail => exact h.turn (pause_turn h.reserved id generation detail)
  | resume id generation => exact h.turn (resume_turn h.reserved id generation)
  | abandon id generation => exact h.batch fun t ht => h.turn (abandon_turn h.reserved ht)
  | sealOperation id => exact h.turn (sealOperation_turn h.reserved id)
  | publish id => exact h.turn (publish_turn h.reserved id)
  | failPreparation id generation code =>
    exact h.batch fun t ht => h.turn (failPreparation_turn h.reserved ht)
  | failRun run generation code => exact h.batch fun t ht => h.turn (failRun_turn h.reserved ht)
  | endRun run outcome =>
    rw [State.step]
    refine h.batch ?_
    intro t ht
    split at ht
    · cases ht
    · rename_i hne
      cases ht
      exact h.turn (endRun_turn h.reserved fun heq => absurd heq hne)
  | readConflict preparation generation revision details observedAt =>
    rw [State.step]
    cases hx : σ.store.readConflict preparation generation revision details observedAt with
    | none => exact h
    | some x => exact ⟨h.reserved,h.recorded,h.staged.readConflict h.recorded hx⟩
  | retainConflict staging =>
    rw [State.step]
    cases hx : σ.stagings[staging]? with
    | none => exact h
    | some x =>
      refine h.batch fun t ht => ?_
      have hst := h.staged.retain h.recorded h.reserved (List.mem_of_getElem? hx) ht
      have hsame : ∃cs,t={ σ.store with conflicts := cs } := by
        rw [Store.retainConflict] at ht
        split at ht
        · cases ht
        · split at ht
          · cases ht
            exact ⟨_,rfl⟩
          · split at ht
            · cases ht
            · cases ht
              exact ⟨_,rfl⟩
      obtain ⟨cs,rfl⟩ := hsame
      exact ⟨⟨h.reserved.ids,h.reserved.distinct,h.reserved.runs,h.reserved.whole,h.reserved.slots,
        h.reserved.held,h.reserved.ended,h.reserved.verdict⟩,
        ⟨h.recorded.ids,h.recorded.owner,h.recorded.versions,h.recorded.status⟩,hst⟩
  | materialize revision => exact h.batch fun t ht => h.materialize revision ht
  | create input => exact h.batch fun t ht => h.revised (create_revised h.recorded ht)
  | look request =>
    rw [State.step]
    cases σ.store.existingRevisionMutation request with
    | none => exact h
    | some read => exact ⟨h.reserved,h.recorded,⟨h.staged.keys,h.staged.owned,h.staged.apart,
        h.staged.reads,h.staged.fresh⟩⟩
  | pendingConflict read =>
    rw [State.step]
    cases σ.reads[read]? with
    | none => exact h
    | some r => exact ⟨h.reserved,h.recorded,⟨h.staged.keys,h.staged.owned,h.staged.apart,
        h.staged.reads,h.staged.fresh⟩⟩
  | reaffirm read => exact h.mutate hm fun r t hst ht => reaffirm_revised h.recorded hst ht
  | retire read => exact h.mutate hm fun r t hst ht => retire_revised h.recorded hst ht
  | supersede read id proposal digest =>
    exact h.mutate hm fun r t hst ht => supersede_revised h.recorded hst ht

theorem Kept.run (h : Kept σ) {moves : List Move} (hm : σ.Sound moves) : Kept (σ.run moves) := by
  induction moves generalizing σ with
  | nil => exact h
  | cons m moves ih =>
    rw [State.run_cons]
    exact ih (h.step hm.1) hm.2

/-- The two views of a store agree with each other and with the events, and materialisation does
not show in them. -/
structure Consistent (s : Store) : Prop where
  rows : s.curatedRevisionRead.map (·.id)=s.revisions.map (·.id)
  distinct : (s.curatedRevisionRead.map (·.id)).Nodup
  versions : ∀row∈s.curatedRevisionRead,
    (visibleEvents s row.id).map (·.event_version)=List.range' 1 row.event_version
  told : ∀row∈s.curatedRevisionRead,folded (visibleEvents s row.id)=
    some (row.status,row.event_version)
  materialized : ∀id,∃t,s.materialize id=some t ∧ t.curatedRevisionRead=s.curatedRevisionRead ∧
    t.curatedRevisionEventRead.Perm s.curatedRevisionEventRead

theorem Kept.consistent (h : Kept σ) : Consistent σ.store := by
  have hrows : σ.store.curatedRevisionRead.map (·.id)=σ.store.revisions.map (·.id) := by
    rw [h.staged.rows,map_map]
    apply map_congr_left
    intro r _
    exact rowOf_id σ.store r
  have hrow : ∀row∈σ.store.curatedRevisionRead,∃r∈σ.store.revisions,row=rowOf σ.store r := by
    intro row hrow
    rw [h.staged.rows] at hrow
    obtain ⟨r,hr,rfl⟩ := mem_map.mp hrow
    exact ⟨r,hr,rfl⟩
  refine ⟨hrows,?_,?_,?_,?_⟩
  · rw [hrows]
    exact h.recorded.ids
  · intro row hmem
    obtain ⟨r,hr,rfl⟩ := hrow row hmem
    rw [rowOf_id]
    exact (h.staged.visible h.recorded hr).1
  · intro row hmem
    obtain ⟨r,hr,rfl⟩ := hrow row hmem
    rw [rowOf_id]
    exact (h.staged.visible h.recorded hr).2
  · intro id
    rcases h.staged.materialize h.recorded id with ⟨heq,_⟩ | ⟨r,hr,c,hc,_,hs,heq⟩
    · exact ⟨_,heq,rfl,.refl _⟩
    · have hk := h.materialize id heq
      exact ⟨_,heq,h.staged.advance_rows h.recorded hr hc hs hk.staged,
        h.staged.advance_events h.recorded hr hc hs hk.recorded⟩

/-- The idempotency key of a request at work. -/
def Move.key (σ : State) : Move → Option JsString
  | .create input => some input.idempotency_key
  | .look request => some request.idempotency_key
  | .reaffirm read => σ.reads[read]?.map (·.request.idempotency_key)
  | .retire read => σ.reads[read]?.map (·.request.idempotency_key)
  | .supersede read _ _ _ => σ.reads[read]?.map (·.request.idempotency_key)
  | _ => none

def retained (s : Store) (key : JsString) : Prop := ∃row∈s.acknowledged,row.idempotency_key=key

theorem acknowledge_retained {s : Store} {row : Acknowledged} (h : retained s row.idempotency_key) :
    acknowledge row s=none := by
  obtain ⟨old,hold,heq⟩ := h
  have hany : s.acknowledged.any (·.idempotency_key=row.idempotency_key)=true :=
    any_eq_true.mpr ⟨old,hold,by simpa using heq⟩
  rw [acknowledge,hany]
  rfl

theorem appendLifecycleMutation_retained {s : Store} {read : OwnerRead} {status : RevisionStatus}
    {details : EventDetails} {code : String} (h : retained s read.request.idempotency_key) :
    s.appendLifecycleMutation read status details code=none := by
  rw [appendLifecycleMutation]
  simp only [Option.bind_eq_bind]
  cases hu : insertEvent ⟨read.row.id,read.row.event_version+1,details,read.request.observedAt⟩
    (updateRevision read.row.id read.row.event_version status (read.row.event_version+1) s) with
  | none => rfl
  | some u =>
    obtain ⟨_,_,rfl⟩ := insertEvent_some hu
    exact acknowledge_retained h

theorem supersede_retained {s : Store} {read : OwnerRead} {id : JsString} {proposal : Proposal}
    {digest : JsString} (h : retained s read.request.idempotency_key) :
    s.supersedeCuratedRevision read id proposal digest=none := by
  cases ht : s.supersedeCuratedRevision read id proposal digest with
  | none => rfl
  | some t =>
    rw [supersedeCuratedRevision] at ht
    split at ht
    · cases ht
    · simp only [Option.bind_eq_bind,Option.bind_eq_some_iff] at ht
      obtain ⟨u,hu,v,hv,w,hw,ht⟩ := ht
      obtain ⟨_,_,rfl⟩ := insertEvent_some hu
      obtain ⟨_,_,rfl⟩ := insertAuthored_some hv
      obtain ⟨_,_,rfl⟩ := insertEvent_some hw
      rw [acknowledge_retained h] at ht
      cases ht

theorem mutate_retained {i : Nat} {key : JsString}
    (hk : σ.reads[i]?.map (·.request.idempotency_key)=some key) (h : retained σ.store key)
    (hs : ∀read,retained σ.store read.request.idempotency_key → statements read σ.store=none) :
    (σ.mutate i statements).store=σ.store := by
  rw [State.mutate]
  cases hread : σ.reads[i]? with
  | none => rfl
  | some read =>
    rw [hread] at hk
    dsimp only
    rw [State.batch,hs read (by cases hk; exact h)]

theorem step_retained {m : Move} {key : JsString} (hk : m.key σ=some key)
    (h : retained σ.store key) : (σ.step m).store=σ.store := by
  cases m with
  | create input =>
    cases hk
    have hrep : (σ.store.idempotencyReplay input.idempotency_key input.request_digest).isSome=true := by
      obtain ⟨row,hrow,heq⟩ := h
      rw [idempotencyReplay,Option.isSome_map,List.find?_isSome]
      exact ⟨row,hrow,by simpa using heq⟩
    rw [State.step,State.batch,createCuratedRevision,hrep]
    rfl
  | look request =>
    rw [State.step]
    cases σ.store.existingRevisionMutation request <;> rfl
  | reaffirm read =>
    refine mutate_retained hk h fun r hr => ?_
    rw [reaffirmCuratedRevision]
    split
    · rfl
    · split
      · exact appendLifecycleMutation_retained hr
      · rfl
  | retire read =>
    refine mutate_retained hk h fun r hr => ?_
    rw [retireCuratedRevision]
    split
    · exact appendLifecycleMutation_retained hr
    · rfl
  | supersede read id proposal digest =>
    exact mutate_retained hk h fun r hr => supersede_retained hr
  | _ => cases hk

/-- In every state reached by steps whose owner batches commit on a version that stands in the
table, the events a revision shows are numbered from one to its version, its one row is what they
tell, materialisation changes neither view, and a retained key has no second effect. -/
theorem curated_views_consistent (moves : List Move) (h : State.new.Sound moves) :
    Consistent (State.new.run moves).store ∧
    ∀m key,m.key (State.new.run moves)=some key → retained (State.new.run moves).store key →
      ((State.new.run moves).step m).store=(State.new.run moves).store :=
  ⟨(Kept.new.run h).consistent,fun _ _ hk hr => step_retained hk hr⟩

/-- A card's curated name and the change of its source that a preparation stages. -/
def stagedName : List Move :=
  let text (s : String) : JsString := js s.toList
  let proposal : Proposal := ⟨text "digimon",.field ⟨.card,text "card_1",text "/name"⟩
    (.str (text "Agumon")),text "rationale",[.source_observation (text "obs_1")],none,none,
    text "reviewed",none⟩
  [.startRun (text "run_1") [text "digimon"],
    .create ⟨text "key_1",text "request_1",text "currev_1",proposal,text "proposal",0⟩,
    .startPreparation (text "prep_1") (text "run_1") (text "digimon"),
    .readConflict (text "prep_1") 0 (text "currev_1") ⟨text "crconf_1",text "conflict",
      text "run_1",some (text "prep_1"),text "reviewed",text "observed"⟩ 1,
    .retainConflict 0]

/-- The owner's request, its event version and conflict digest already those of the staged
conflict. -/
def reaffirmation : OwnerRequest :=
  ⟨js "key_2".toList,js "request_2".toList,js "currev_1".toList,2,some (js "conflict".toList),
    js "still right".toList,2⟩

/-- The preparation fails after the owner's materialisation and before the owner's read. -/
def overtaken : List Move := stagedName++[.materialize (js "currev_1".toList),
  .failPreparation (js "prep_1".toList) 0 reconfirmation,.look reaffirmation,.pendingConflict 0,
  .reaffirm 0]

/-- The same request when the preparation failed first. -/
def inOrder : List Move := stagedName++[.failPreparation (js "prep_1".toList) 0 reconfirmation,
  .materialize (js "currev_1".toList),.look reaffirmation,.pendingConflict 0,.reaffirm 0]

/-- The event the owner wrote lies above the version of the row. -/
theorem curated_views_overtaken : ¬Consistent (State.new.run overtaken).store := by
  intro h
  have hrow : ∃row∈(State.new.run overtaken).store.curatedRevisionRead,
      (visibleEvents (State.new.run overtaken).store row.id).map (·.event_version)≠
        List.range' 1 row.event_version := by decide +kernel
  obtain ⟨row,hmem,hne⟩ := hrow
  exact hne (h.versions row hmem)

theorem curated_views_in_order : Consistent (State.new.run inOrder).store ∧
    (State.new.run inOrder).store.curatedRevisionRead.map (fun r => (r.status,r.event_version))=
      [(.active,3)] :=
  ⟨(curated_views_consistent inOrder (by
    simp only [inOrder,stagedName,cons_append,nil_append,State.Sound]
    decide +kernel)).1,by decide +kernel⟩

end

end CardKeepr.Curated
