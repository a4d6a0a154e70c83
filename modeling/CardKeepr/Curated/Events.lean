import CardKeepr.Curated.Preparations
import Mathlib.Data.List.Range

namespace CardKeepr.Curated

open Shared List

-- A revision's row and its events: the versions of the events are one, two, … up to the row's
-- version, and the last event has left the row in its status.

/-- The status an event leaves a revision in. -/
def EventKind.leaves : EventKind → RevisionStatus
  | .authored => .active
  | .reaffirmed => .active
  | .superseded => .superseded
  | .retired => .retired
  | .source_change_detected => .reconfirmation_required

def folded (events : List Event) : Option (RevisionStatus × Nat) :=
  events.foldl (fun _ event => some (event.details.kind.leaves,event.event_version)) none

theorem folded_append (events : List Event) (e : Event) :
    folded (events++[e])=some (e.details.kind.leaves,e.event_version) := by
  rw [folded,foldl_append]
  rfl

namespace Store

variable {s t : Store} {r : Revision}

def history (s : Store) (id : JsString) : List Event := s.events.filter (·.revision_id=id)

structure Recorded (s : Store) : Prop where
  ids : (s.revisions.map (·.id)).Nodup
  owner : ∀e∈s.events,∃r∈s.revisions,r.id=e.revision_id
  versions : ∀r∈s.revisions,(s.history r.id).map (·.event_version)=List.range' 1 r.event_version
  status : ∀r∈s.revisions,folded (s.history r.id)=some (r.status,r.event_version)

theorem Recorded.new : Recorded .new := by
  refine ⟨nodup_nil,?_,?_,?_⟩ <;> intro _ h <;> cases h

theorem Recorded.unique (h : Recorded s) {r' : Revision} (hr : r∈s.revisions)
    (hr' : r'∈s.revisions) (hid : r.id=r'.id) : r=r' :=
  inj_on_of_nodup_map h.ids hr hr' hid

theorem Recorded.recorded_iff (h : Recorded s) (hr : r∈s.revisions)
    (v : Nat) : s.recorded r.id v=true ↔ 1≤v ∧ v≤r.event_version := by
  have hmem : s.recorded r.id v=true ↔ v∈(s.history r.id).map (·.event_version) := by
    simp only [recorded,history,any_eq_true,mem_map,mem_filter,Bool.and_eq_true,decide_eq_true_eq]
    constructor
    · rintro ⟨e,he,hid,hv⟩
      exact ⟨e,⟨he,hid⟩,hv⟩
    · rintro ⟨e,⟨he,hid⟩,hv⟩
      exact ⟨e,he,hid,hv⟩
  rw [hmem,h.versions r hr,mem_range']
  constructor
  · rintro ⟨i,hi,rfl⟩
    omega
  · intro hv
    exact ⟨v-1,by omega,by omega⟩

/-- An event appended to one revision, with the row that goes with it. -/
def advance (s : Store) (id : JsString) (e : Event) : Store :=
  { s with
    revisions := s.revisions.map fun revision => if revision.id=id then
      { revision with status := e.details.kind.leaves, event_version := e.event_version }
      else revision
    events := s.events++[e] }

theorem advance_ids (s : Store) (id : JsString) (e : Event) :
    (s.advance id e).revisions.map (·.id)=s.revisions.map (·.id) := by
  simp only [advance,map_map]
  apply map_congr_left
  intro r _
  dsimp only [Function.comp]
  split <;> rfl

theorem history_append (s : Store) (e : Event) (id : JsString) :
    ({ s with events := s.events++[e] } : Store).history id=
      if e.revision_id=id then s.history id++[e] else s.history id := by
  simp only [history,filter_append]
  by_cases h : e.revision_id=id
  · rw [if_pos h]
    simp [h]
  · rw [if_neg h]
    simp [h]

theorem advance_recorded (h : Recorded s) {e : Event}
    (hr : r∈s.revisions) (hid : e.revision_id=r.id) (hv : e.event_version=r.event_version+1) :
    Recorded (s.advance r.id e) := by
  have hhist : ∀id,(s.advance r.id e).history id=
      if e.revision_id=id then s.history id++[e] else s.history id :=
    fun id => history_append s e id
  constructor
  · rw [advance_ids]
    exact h.ids
  · intro e' he'
    have hold : ∃x∈s.revisions,x.id=e'.revision_id := by
      rcases mem_append.mp he' with he' | he'
      · exact h.owner e' he'
      · rw [mem_singleton.mp he']
        exact ⟨r,hr,hid.symm⟩
    obtain ⟨x,hx,hxid⟩ := hold
    refine ⟨_,mem_map_of_mem hx,?_⟩
    rw [← hxid]
    split <;> rfl
  · intro r' hr'
    obtain ⟨x,hx,rfl⟩ := mem_map.mp hr'
    rw [hhist]
    by_cases hxr : x.id=r.id
    · have := h.unique hx hr hxr
      subst this
      rw [if_pos rfl]
      dsimp only
      rw [if_pos hid,map_append,h.versions x hx,hv,range'_1_concat]
      simp [hv,Nat.add_comm]
    · rw [if_neg hxr,if_neg (by rw [hid]; exact Ne.symm hxr)]
      exact h.versions x hx
  · intro r' hr'
    obtain ⟨x,hx,rfl⟩ := mem_map.mp hr'
    rw [hhist]
    by_cases hxr : x.id=r.id
    · rw [if_pos hxr]
      dsimp only
      rw [hxr,if_pos hid,folded_append]
    · rw [if_neg hxr,if_neg (by rw [hid]; exact Ne.symm hxr)]
      exact h.status x hx

theorem insertEvent_some {e : Event} (h : insertEvent e s=some t) :
    s.recorded e.revision_id e.event_version=false ∧ (∃r∈s.revisions,r.id=e.revision_id) ∧
      t={ s with events := s.events++[e] } := by
  rw [insertEvent] at h
  split at h
  · cases h
  · rename_i hc
    cases h
    simp only [Bool.or_eq_true,not_or,Bool.not_eq_true,Bool.not_eq_false'] at hc
    refine ⟨hc.1,?_,rfl⟩
    have := hc.2
    simp only [any_eq_true,decide_eq_true_eq] at this
    exact this

theorem acknowledge_some {row : Acknowledged} (h : acknowledge row s=some t) :
    s.acknowledged.any (·.idempotency_key=row.idempotency_key)=false ∧
      t={ s with acknowledged := s.acknowledged++[row] } := by
  rw [acknowledge] at h
  split at h
  · cases h
  · rename_i hc
    cases h
    exact ⟨by simpa using hc,rfl⟩

theorem insertAuthored_some {id : JsString} {proposal : Proposal}
    {digest : JsString} {at' : Nat} (h : insertAuthored id proposal digest at' s=some t) :
    s.targetConflict (targetKey proposal) proposal.effective_from proposal.effective_to=false ∧
    s.revisions.any (·.id=id)=false ∧ t={ s with revisions := s.revisions++[⟨id,proposal.game,
      targetKey proposal,proposal.effective_from,proposal.effective_to,proposal,digest,
      proposal.reviewed_source_digest,at',.active,1⟩] } := by
  rw [insertAuthored] at h
  split at h
  · cases h
  · rename_i hc
    split at h
    · cases h
    · rename_i hid
      cases h
      exact ⟨by simpa using hc,by simpa using hid,rfl⟩

theorem authored_recorded (h : Recorded s) {e : Event}
    (hnew : s.revisions.any (·.id=r.id)=false) (hr : r.event_version=1) (hs : r.status=.active)
    (hid : e.revision_id=r.id) (hv : e.event_version=1) (hk : e.details.kind=.authored) :
    Recorded { s with revisions := s.revisions++[r], events := s.events++[e] } := by
  have hne : ∀x∈s.revisions,x.id≠r.id := by
    intro x hx heq
    have := any_eq_false.mp hnew x hx
    exact this (by simpa using heq)
  have hempty : s.history r.id=[] := by
    apply filter_eq_nil_iff.mpr
    intro e' he' heq
    obtain ⟨x,hx,hxid⟩ := h.owner e' he'
    exact hne x hx (hxid.trans (by simpa using heq))
  have hhist : ∀id,({ s with revisions := s.revisions++[r], events := s.events++[e] } : Store).history
      id=if e.revision_id=id then s.history id++[e] else s.history id :=
    fun id => history_append s e id
  constructor
  · rw [map_append,nodup_append']
    refine ⟨h.ids,nodup_singleton _,?_⟩
    intro id hmem hr'
    obtain ⟨x,hx,rfl⟩ := mem_map.mp hmem
    exact hne x hx (by simpa using hr')
  · intro e' he'
    rcases mem_append.mp he' with he' | he'
    · obtain ⟨x,hx,hxid⟩ := h.owner e' he'
      exact ⟨x,mem_append_left _ hx,hxid⟩
    · rw [mem_singleton.mp he']
      exact ⟨r,mem_append_right _ (mem_singleton_self r),hid.symm⟩
  · intro x hx
    rw [hhist]
    rcases mem_append.mp hx with hx | hx
    · rw [if_neg (by rw [hid]; exact Ne.symm (hne x hx))]
      exact h.versions x hx
    · rw [mem_singleton.mp hx,if_pos hid,hempty,hr]
      simp [hv]
  · intro x hx
    rw [hhist]
    rcases mem_append.mp hx with hx | hx
    · rw [if_neg (by rw [hid]; exact Ne.symm (hne x hx))]
      exact h.status x hx
    · rw [mem_singleton.mp hx,if_pos hid,folded_append,hr,hs,hk,hv]
      rfl

end Store

end CardKeepr.Curated
