import CardKeepr.SourceEvidence.CollectionPauses

namespace CardKeepr.SourceEvidence.Pauses

open Ingestion List

variable {g t now : Nat}

-- Histories of one evidence run. The four tables are read as one list of records, each under
-- the key of its table; a history keeps, beside the run, the reasons of the present stop: that of
-- the transition into `paused` and of every pause recorded since.

inductive PauseKey where
  | capacity (generation : Nat)
  | retry (request : String) (generation : Nat)
  | workflow (id : String)
  | acquisition (event : Nat)
  deriving DecidableEq

/-- Among equal timestamps `currentPause` prefers the higher rank. -/
def PauseKey.rank : PauseKey → Nat
  | .capacity _ => 0
  | .retry _ _ => 1
  | .workflow _ => 2
  | .acquisition _ => 3

structure PauseRecord where
  key : PauseKey
  reason : PauseReason
  paused_at : Nat

def CapacityPause.record (c : CapacityPause) : PauseRecord :=
  ⟨.capacity c.capacity.capacity_generation,.source_request_capacity_exhausted,c.paused_at⟩

def RetryPause.record (p : RetryPause) : PauseRecord :=
  ⟨.retry p.facts.request_id p.facts.retry_generation,p.facts.pauseReason,p.paused_at⟩

def WorkflowPause.record (p : WorkflowPause) : PauseRecord :=
  ⟨.workflow p.facts.workflow_instance_id,.workflow p.facts.pause_reason,p.paused_at⟩

def AcquisitionPause.record (p : AcquisitionPause) : PauseRecord :=
  ⟨.acquisition p.event_id,.source_acquisition_budget_exhausted,p.paused_at⟩

@[simp] theorem CapacityPause.rank_record (c : CapacityPause) : c.record.key.rank=0 := rfl
@[simp] theorem RetryPause.rank_record (p : RetryPause) : p.record.key.rank=1 := rfl
@[simp] theorem WorkflowPause.rank_record (p : WorkflowPause) : p.record.key.rank=2 := rfl
@[simp] theorem AcquisitionPause.rank_record (p : AcquisitionPause) : p.record.key.rank=3 := rfl

def CollectionRun.records (r : CollectionRun) : List PauseRecord :=
  r.capacity_pauses.map CapacityPause.record ++ r.retry_pauses.map RetryPause.record ++
    r.workflow_pauses.map WorkflowPause.record ++ r.acquisition_pauses.map AcquisitionPause.record

/-- The committed batches of a history. What a batch read before it began is an argument, so a
stale read is a move as well. -/
inductive Move where
  | requestCapacity (parentRequestId : String) (problem : RequestCapacityProblem)
  | retriesExhausted (facts : RetryExhaustionFacts)
  | workflow (facts : WorkflowRecoveryFacts)
  | owner (key instance' : String) (status : SafeWorkflowStatus) (lastProgressAt : Option Nat)
  | acquisition (eventId : Nat) (facts : AcquisitionFacts)
  | resume (previousParent : Option String) (previousAttempt : Nat)
  | extend (row : CapacityExtension)
  /-- `bindInitialParentWorkflowStatement` -/
  | bind (workflowId : String)
  /-- fetch attempts and request states as collection goes on -/
  | collect (requests : List CollectedRequest)

namespace Move

def commit (now : Nat) (r : CollectionRun) : Move → Option CollectionRun
  | requestCapacity parent problem => r.pauseForRequestCapacity parent problem now
  | retriesExhausted facts => r.pauseForRetryExhaustion facts now
  | workflow facts => r.workflowPause facts now
  | owner key id status at' => r.pauseOnOwnerRequest key id status at' now
  | acquisition event facts => r.acquisitionPause event facts now
  | resume parent attempt => r.resumePaused parent attempt
  | extend row => r.extendCapacity row
  | bind id => some { r with parent_workflow_id := r.parent_workflow_id.or (some id) }
  | collect requests => some { r with requests := requests }

/-- The record a pause is about. -/
def record (now : Nat) : Move → Option PauseRecord
  | requestCapacity parent problem => some (CapacityPause.record ⟨problem,now,parent⟩)
  | retriesExhausted facts => some (RetryPause.record ⟨facts,now⟩)
  | workflow facts => some (WorkflowPause.record ⟨facts,now⟩)
  | owner _ id status at' => some (WorkflowPause.record ⟨⟨id,.owner_requested,status,at',none⟩,now⟩)
  | acquisition event facts => some (AcquisitionPause.record ⟨event,facts,now⟩)
  | _ => none

end Move

/-- A run under observation: the last timestamp and the reasons of the present stop. -/
structure Watched where
  run : CollectionRun
  clock : Nat
  reasons : List PauseReason

/-- The reasons of the stop after a move. -/
def observed (reason : Option PauseReason) (before after : CollectionRun)
    (reasons : List PauseReason) : List PauseReason :=
  if after.state≠.paused then []
  else if before.state≠.paused then reason.toList
  else if before.records.length<after.records.length then reason.toList ++ reasons
  else reasons

/-- The runs reached from one without pause records by moves that meet `ok`, with non-decreasing
timestamps. -/
inductive Reached (ok : Move → Nat → Watched → Prop) : Watched → Prop where
  | start {r : CollectionRun} (hn : r.records=[]) (hs : r.state≠.paused) : Reached ok ⟨r,0,[]⟩
  | move {w : Watched} (h : Reached ok w) (m : Move) (now : Nat) (r : CollectionRun)
      (ht : w.clock≤now) (hok : ok m now w) (hm : m.commit now w.run=some r) :
      Reached ok ⟨r,now,observed ((m.record now).map (·.reason)) w.run r w.reasons⟩

/-- When the record under the key of `x` dates from: the one retained, else `x` itself. -/
def CollectionRun.standsAt (r : CollectionRun) (x : PauseRecord) : Nat :=
  ((r.records.find? (·.key=x.key)).map (·.paused_at)).getD x.paused_at

/-- A move that stops a collecting run with the record `x`: no retained record of another reason
is later than the one that stands for `x`, and no capacity record is of a later generation. -/
structure Stands (r : CollectionRun) (x : PauseRecord) : Prop where
  newest : ∀g,x.key=.capacity g → ∀y∈r.records,∀g',y.key=.capacity g' → g'≤g
  last : ∀y∈r.records,y.reason≠x.reason → y.paused_at<r.standsAt x ∨
    (y.paused_at=r.standsAt x ∧ y.key.rank<x.key.rank)

/-- Every move that stops the run is recorded as the last one. -/
def StopStands (m : Move) (now : Nat) (w : Watched) : Prop :=
  w.run.state=.collecting → ∀r,m.commit now w.run=some r → r.state=.paused →
    ∀x,m.record now=some x → Stands w.run x

/-- Moreover, while the run is stopped for its capacity, a pause of another reason meets a record
that is retained under its key already. -/
def CapacityStands (m : Move) (now : Nat) (w : Watched) : Prop :=
  StopStands m now w ∧ (w.run.state=.paused →
    w.reasons.getLast?=some .source_request_capacity_exhausted → ∀x,m.record now=some x →
      x.reason=.source_request_capacity_exhausted ∨ ∃y∈w.run.records,y.key=x.key)

/-- What a committed move does to the state and the records. -/
structure Effect (m : Move) (now : Nat) (r r' : CollectionRun) : Prop where
  stop : r'.state=.paused → r.state=.paused ∨ (r.state=.collecting ∧ ∃x,m.record now=some x)
  stand : ∀x,m.record now=some x → r.state=.collecting → r'.state=.paused →
    ∃y∈r'.records,y.key=x.key
  rows : ((∀y,y∈r'.records ↔ y∈r.records) ∧ r'.records.length=r.records.length) ∨
    ∃x,m.record now=some x ∧ r'.state=.paused ∧ (∀y∈r.records,y.key≠x.key) ∧
      (∀y,y∈r'.records ↔ y∈r.records ∨ y=x) ∧ r'.records.length=r.records.length+1

variable {r s r' : CollectionRun}

theorem toPaused_some {b c : Bool} (h : r.toPaused b=some (s,c)) :
    (c=true ∧ r.state=.collecting ∧ s={ r with state := .paused }) ∨ (c=false ∧ s=r ∧
      (r.state=.collecting → b=false)) := by
  unfold CollectionRun.toPaused at h
  split at h
  · rename_i hc
    split at h
    · cases h
      exact Or.inl ⟨rfl,hc.1,rfl⟩
    · cases h
  · rename_i hc
    cases h
    refine Or.inr ⟨rfl,rfl,?_⟩
    intro hs
    cases b with
    | false => rfl
    | true => exact absurd ⟨hs,rfl⟩ hc

theorem toPaused_records {b c : Bool} (h : r.toPaused b=some (s,c)) :
    s.records=r.records ∧ (s.state=.paused → r.state=.paused ∨ r.state=.collecting) := by
  rcases toPaused_some h with ⟨_,hs,rfl⟩ | ⟨_,rfl,_⟩
  · exact ⟨rfl,fun _ => Or.inr hs⟩
  · exact ⟨rfl,fun hp => Or.inl hp⟩

variable {m : Move}

theorem Effect.still (hr : r'.records=r.records)
    (hs : r'.state=.paused → r.state=.paused) : Effect m now r r' := by
  refine ⟨fun h => Or.inl (hs h),?_,Or.inl ⟨fun y => by rw [hr],by rw [hr]⟩⟩
  intro x _ hc hp
  have := hs hp
  rw [hc] at this
  cases this

variable {x : PauseRecord}

theorem Effect.repeated (hx : m.record now=some x) (hr : r'.records=r.records)
    (hs : r'.state=.paused → r.state=.paused ∨ r.state=.collecting)
    (hk : r'.state=.paused → ∃y∈r.records,y.key=x.key) : Effect m now r r' := by
  refine ⟨?_,?_,Or.inl ⟨fun y => by rw [hr],by rw [hr]⟩⟩
  · intro hp
    rcases hs hp with h | h
    · exact Or.inl h
    · exact Or.inr ⟨h,x,hx⟩
  · intro z hz _ hp
    rw [hx] at hz
    cases hz
    rw [hr]
    exact hk hp

theorem Effect.recorded (hx : m.record now=some x) (hp : r'.state=.paused)
    (hs : r.state=.paused ∨ r.state=.collecting) (hf : ∀y∈r.records,y.key≠x.key)
    (hr : r'.records.Perm (x::r.records)) : Effect m now r r' := by
  have hmem : ∀y,y∈r'.records ↔ y∈r.records ∨ y=x := by
    intro y
    rw [hr.mem_iff,mem_cons,or_comm]
  refine ⟨fun _ => ?_,?_,Or.inr ⟨x,hx,hp,hf,hmem,by rw [hr.length_eq,length_cons]⟩⟩
  · rcases hs with h | h
    · exact Or.inl h
    · exact Or.inr ⟨h,x,hx⟩
  · intro z hz _ _
    rw [hx] at hz
    cases hz
    exact ⟨x,(hmem x).mpr (Or.inr rfl),rfl⟩

theorem mem_records {y : PauseRecord} : y∈r.records ↔
    (∃c∈r.capacity_pauses,c.record=y) ∨ (∃p∈r.retry_pauses,p.record=y) ∨
    (∃p∈r.workflow_pauses,p.record=y) ∨ ∃p∈r.acquisition_pauses,p.record=y := by
  simp only [CollectionRun.records,mem_append,mem_map,or_assoc]

theorem capacity_key : (∃y∈r.records,y.key=.capacity g) ↔
    r.capacity_pauses.any (·.capacity.capacity_generation=g)=true := by
  simp only [mem_records,any_eq_true,decide_eq_true_eq]
  constructor
  · rintro ⟨y,⟨d,hd,rfl⟩ | ⟨d,_,rfl⟩ | ⟨d,_,rfl⟩ | ⟨d,_,rfl⟩,hk⟩
    · exact ⟨d,hd,PauseKey.capacity.inj hk⟩
    all_goals cases hk
  · rintro ⟨d,hd,rfl⟩
    exact ⟨d.record,Or.inl ⟨d,hd,rfl⟩,rfl⟩

theorem retry_key {q : String} : (∃y∈r.records,y.key=.retry q g) ↔
      r.retry_pauses.any (fun p => p.facts.request_id=q ∧ p.facts.retry_generation=g)=true := by
  simp only [mem_records,any_eq_true,decide_eq_true_eq]
  constructor
  · rintro ⟨y,⟨d,_,rfl⟩ | ⟨d,hd,rfl⟩ | ⟨d,_,rfl⟩ | ⟨d,_,rfl⟩,hk⟩
    on_goal 2 => exact ⟨d,hd,PauseKey.retry.inj hk⟩
    all_goals cases hk
  · rintro ⟨d,hd,rfl,rfl⟩
    exact ⟨d.record,Or.inr (Or.inl ⟨d,hd,rfl⟩),rfl⟩

theorem workflow_key {i : String} : (∃y∈r.records,y.key=.workflow i) ↔
    r.workflow_pauses.any (·.facts.workflow_instance_id=i)=true := by
  simp only [mem_records,any_eq_true,decide_eq_true_eq]
  constructor
  · rintro ⟨y,⟨d,_,rfl⟩ | ⟨d,_,rfl⟩ | ⟨d,hd,rfl⟩ | ⟨d,_,rfl⟩,hk⟩
    on_goal 3 => exact ⟨d,hd,PauseKey.workflow.inj hk⟩
    all_goals cases hk
  · rintro ⟨d,hd,rfl⟩
    exact ⟨d.record,Or.inr (Or.inr (Or.inl ⟨d,hd,rfl⟩)),rfl⟩

theorem acquisition_key {e : Nat} : (∃y∈r.records,y.key=.acquisition e) ↔
    r.acquisition_pauses.any (·.event_id=e)=true := by
  simp only [mem_records,any_eq_true,decide_eq_true_eq]
  constructor
  · rintro ⟨y,⟨d,_,rfl⟩ | ⟨d,_,rfl⟩ | ⟨d,_,rfl⟩ | ⟨d,hd,rfl⟩,hk⟩
    on_goal 4 => exact ⟨d,hd,PauseKey.acquisition.inj hk⟩
    all_goals cases hk
  · rintro ⟨d,hd,rfl⟩
    exact ⟨d.record,Or.inr (Or.inr (Or.inr ⟨d,hd,rfl⟩)),rfl⟩

theorem requestCapacity_effect {parent : String} {problem : RequestCapacityProblem} (h : r.pauseForRequestCapacity parent problem now=some r') :
    Effect (.requestCapacity parent problem) now r r' := by
  unfold CollectionRun.pauseForRequestCapacity at h
  cases hp : r.toPaused true with
  | none => rw [hp] at h; cases h
  | some q =>
    obtain ⟨s,c⟩ := q
    rw [hp] at h
    have hb := toPaused_records hp
    dsimp only at h
    split at h
    · rename_i hc
      split at h
      · cases h
        refine Effect.recorded rfl hc.1 (hb.2 hc.1) ?_ ?_
        · rw [← hb.1]
          intro y hy hk
          exact hc.2 (capacity_key.mp ⟨y,hy,hk⟩)
        · rw [← hb.1]
          simp only [CollectionRun.records,map_append,map_cons,map_nil,append_assoc]
          exact perm_middle
      · cases h
    · rename_i hc
      cases h
      refine Effect.repeated rfl hb.1 hb.2 ?_
      intro hs
      rw [← hb.1]
      apply capacity_key.mpr
      by_contra hn
      exact hc ⟨hs,hn⟩

theorem retriesExhausted_effect {facts : RetryExhaustionFacts}
    (h : r.pauseForRetryExhaustion facts now=some r') :
    Effect (.retriesExhausted facts) now r r' := by
  unfold CollectionRun.pauseForRetryExhaustion at h
  cases hp : r.toPaused true with
  | none => rw [hp] at h; cases h
  | some q =>
    obtain ⟨s,c⟩ := q
    rw [hp] at h
    have hb := toPaused_records hp
    dsimp only at h
    split at h
    · rename_i hc
      split at h
      · cases h
        refine Effect.recorded rfl hc.1 (hb.2 hc.1) ?_ ?_
        · rw [← hb.1]
          intro y hy hk
          exact hc.2 (retry_key.mp ⟨y,hy,hk⟩)
        · rw [← hb.1]
          simp only [CollectionRun.records,map_append,map_cons,map_nil,
            append_assoc,cons_append,nil_append]
          rw [← append_assoc,← append_assoc (s.capacity_pauses.map _)]
          exact perm_middle
      · cases h
    · rename_i hc
      cases h
      refine Effect.repeated rfl hb.1 hb.2 ?_
      intro hs
      rw [← hb.1]
      apply retry_key.mpr
      by_contra hn
      exact hc ⟨hs,hn⟩

theorem workflowPause_effect {facts : WorkflowRecoveryFacts} (hm : m.record now=some (WorkflowPause.record ⟨facts,now⟩))
    (h : r.workflowPause facts now=some r') : Effect m now r r' := by
  unfold CollectionRun.workflowPause at h
  cases hp : r.toPaused (r.parent_workflow_id=some facts.workflow_instance_id) with
  | none => rw [hp] at h; cases h
  | some q =>
    obtain ⟨s,c⟩ := q
    rw [hp] at h
    have hb := toPaused_records hp
    dsimp only at h
    split at h
    · rename_i hc
      cases h
      refine Effect.recorded hm hc.1 (hb.2 hc.1) ?_ ?_
      · rw [← hb.1]
        intro y hy hk
        exact hc.2 (workflow_key.mp ⟨y,hy,hk⟩)
      · rw [← hb.1]
        simp only [CollectionRun.records,map_append,map_cons,map_nil]
        rw [← append_assoc,append_assoc _ [_]]
        exact perm_middle
    · rename_i hc
      cases h
      refine Effect.repeated hm hb.1 hb.2 ?_
      intro hs
      rw [← hb.1]
      apply workflow_key.mpr
      by_contra hn
      exact hc ⟨hs,hn⟩

theorem acquisition_effect {event : Nat} {facts : AcquisitionFacts} (h : r.acquisitionPause event facts now=some r') :
    Effect (.acquisition event facts) now r r' := by
  unfold CollectionRun.acquisitionPause at h
  cases hp : r.toPaused true with
  | none => rw [hp] at h; cases h
  | some q =>
    obtain ⟨s,c⟩ := q
    rw [hp] at h
    dsimp only at h
    rcases toPaused_some hp with ⟨rfl,hs,rfl⟩ | ⟨rfl,rfl,hn⟩
    · rw [if_pos rfl] at h
      split at h
      · cases h
      · rename_i hf
        cases h
        refine Effect.recorded rfl rfl (Or.inr hs) ?_ ?_
        · intro y hy hk
          exact hf (acquisition_key.mp ⟨y,hy,hk⟩)
        · simp only [CollectionRun.records,map_append,map_cons,map_nil]
          rw [← append_assoc]
          exact perm_append_singleton _ _
    · rw [if_neg (by simp)] at h
      cases h
      exact Effect.still rfl fun hp => hp

theorem resumePaused_kept {parent : Option String} {n : Nat} (h : r.resumePaused parent n=some r') :
    r'.records=r.records ∧ (r'.state=.paused → r.state=.paused) := by
  unfold CollectionRun.resumePaused CollectionRun.toCollecting at h
  grind [CollectionRun.records]

theorem commit_effect (h : m.commit now r=some r') : Effect m now r r' := by
  cases m with
  | requestCapacity parent problem => exact requestCapacity_effect h
  | retriesExhausted facts => exact retriesExhausted_effect h
  | workflow facts => exact workflowPause_effect rfl h
  | owner key id status at' =>
    simp only [Move.commit,CollectionRun.pauseOnOwnerRequest] at h
    split at h
    · cases h
    · rename_i s hs
      -- the retained answer changes neither the state nor a pause record
      have heff := workflowPause_effect (m := .owner key id status at') rfl hs
      split at h
      · split at h
        · cases h
        · cases h
          exact ⟨heff.stop,heff.stand,heff.rows⟩
      · cases h
        exact heff
  | acquisition event facts => exact acquisition_effect h
  | resume parent n =>
    have hk := resumePaused_kept h
    exact Effect.still hk.1 hk.2
  | extend row =>
    simp only [Move.commit,CollectionRun.extendCapacity] at h
    split at h
    · split at h
      · cases h
      · cases h
        exact Effect.still rfl fun hp => hp
    · cases h
      exact Effect.still rfl fun hp => hp
  | bind id =>
    cases h
    exact Effect.still rfl fun hp => hp
  | collect requests =>
    cases h
    exact Effect.still rfl fun hp => hp

/-- The newest record of each table, as `currentPause` reads them. -/
def CollectionRun.candidates (scan : Scan) (r : CollectionRun) : List PauseRecord :=
  ((r.latestCapacity scan).map CapacityPause.record).toList ++
    ((r.latestRetry scan).map RetryPause.record).toList ++
    ((r.latestWorkflow scan).map WorkflowPause.record).toList ++
    ((r.latestAcquisition scan).map AcquisitionPause.record).toList

/-- By time, and by rank where two timestamps are equal. -/
def PauseRecord.NotAfter (y x : PauseRecord) : Prop :=
  y.paused_at<x.paused_at ∨ (y.paused_at=x.paused_at ∧ y.key.rank≤x.key.rank)

/-- `q` reports the last of the records. -/
def Last (l : List PauseRecord) (q : Option CurrentPause) : Prop :=
  (l=[] ∧ q=none) ∨ ∃x∈l,q=some ⟨x.reason,x.paused_at⟩ ∧ ∀y∈l,y.NotAfter x

/-- The second pause unless the first is later. -/
def later (q q' : Option CurrentPause) : Option CurrentPause :=
  match q'.filter fun a => q.all fun b => b.paused_at≤a.paused_at with
  | some a => some a
  | none => q

@[simp] theorem later_none (q : Option CurrentPause) : later q none=q := rfl

@[simp] theorem none_later (q : Option CurrentPause) : later none q=q := by
  cases q <;> rfl

@[simp] theorem later_some (a b : CurrentPause) :
    later (some a) (some b)=if a.paused_at≤b.paused_at then some b else some a := by
  by_cases h : a.paused_at≤b.paused_at <;> simp [later,Option.filter,h]

theorem Last.row (x : Option PauseRecord) :
    Last x.toList (x.map fun x => ⟨x.reason,x.paused_at⟩) := by
  cases x with
  | none => exact Or.inl ⟨rfl,rfl⟩
  | some x =>
    refine Or.inr ⟨x,by simp,rfl,?_⟩
    intro y hy
    have : y=x := by simpa using hy
    rw [this]
    exact Or.inr ⟨rfl,le_rfl⟩

variable {l l' : List PauseRecord}

theorem Last.later {q q' : Option CurrentPause} (h : Last l q) (h' : Last l' q')
    (hr : ∀x∈l,∀y∈l',x.key.rank<y.key.rank) : Last (l++l') (later q q') := by
  rcases h' with ⟨rfl,rfl⟩ | ⟨x',hx',rfl,hl'⟩
  · rw [append_nil]
    exact h
  rcases h with ⟨rfl,rfl⟩ | ⟨x,hx,rfl,hl⟩
  · exact Or.inr ⟨x',hx',rfl,hl'⟩
  by_cases hle : x.paused_at≤x'.paused_at
  · refine Or.inr ⟨x',mem_append_right _ hx',by simp [hle],?_⟩
    intro y hy
    rcases mem_append.mp hy with hy | hy
    · have := hl y hy
      have := hr y hy x' hx'
      unfold PauseRecord.NotAfter at *
      omega
    · exact hl' y hy
  · refine Or.inr ⟨x,mem_append_left _ hx,by simp [hle],?_⟩
    intro y hy
    rcases mem_append.mp hy with hy | hy
    · exact hl y hy
    · have := hl' y hy
      unfold PauseRecord.NotAfter at *
      omega

theorem requestPause_later (c : Option CapacityPause) (p : Option RetryPause) :
    CollectionRun.requestPause c p=later
      ((c.map CapacityPause.record).map fun x => ⟨x.reason,x.paused_at⟩)
      ((p.map RetryPause.record).map fun x => ⟨x.reason,x.paused_at⟩) := by
  cases c with
  | none => cases p <;> rfl
  | some c =>
    cases p with
    | none => rfl
    | some p =>
      by_cases h : c.paused_at≤p.paused_at <;>
        simp [CollectionRun.requestPause,CapacityPause.record,RetryPause.record,h]

theorem later_assoc (q w a : Option CurrentPause) :
    (match a.filter fun a => (q.all fun b => b.paused_at≤a.paused_at) &&
        (w.all fun b => b.paused_at≤a.paused_at) with
      | some a => some a
      | none => later q w)=later (later q w) a := by
  cases a with
  | none => rfl
  | some a =>
    cases q with
    | none =>
      cases w with
      | none => rfl
      | some w => by_cases h : w.paused_at≤a.paused_at <;> simp [Option.filter,h]
    | some q =>
      cases w with
      | none => by_cases h : q.paused_at≤a.paused_at <;> simp [Option.filter,h]
      | some w =>
        by_cases h : q.paused_at≤w.paused_at
        · by_cases ha : w.paused_at≤a.paused_at
          · have : q.paused_at≤a.paused_at := h.trans ha
            simp [Option.filter,h,ha,this]
          · simp [Option.filter,h,ha]
        · by_cases ha : q.paused_at≤a.paused_at
          · have : w.paused_at≤a.paused_at := by omega
            simp [Option.filter,h,ha,this]
          · simp [Option.filter,h,ha]

theorem currentPause_last (scan : Scan) (r : CollectionRun) :
    Last (r.candidates scan) (r.currentPause scan) := by
  have heq : r.currentPause scan=later (later (later
      (((r.latestCapacity scan).map CapacityPause.record).map fun x => ⟨x.reason,x.paused_at⟩)
      (((r.latestRetry scan).map RetryPause.record).map fun x => ⟨x.reason,x.paused_at⟩))
      (((r.latestWorkflow scan).map WorkflowPause.record).map fun x => ⟨x.reason,x.paused_at⟩))
      (((r.latestAcquisition scan).map AcquisitionPause.record).map
        fun x => ⟨x.reason,x.paused_at⟩) := by
    rw [← requestPause_later,← later_assoc,Option.map_map,Option.map_map]
    rfl
  rw [heq]
  unfold CollectionRun.candidates
  have hrank : ∀{α : Type} (o : Option α) (f : α → PauseRecord) (x : PauseRecord),
      x∈(o.map f).toList → ∃a,f a=x := by
    intro α o f x hx
    obtain ⟨a,_,ha⟩ := Option.map_eq_some_iff.mp (Option.mem_toList.mp hx)
    exact ⟨a,ha⟩
  refine ((Last.row _).later (Last.row _) ?_).later (Last.row _) ?_ |>.later (Last.row _) ?_
  all_goals
    intro x hx y hy
    obtain ⟨b,rfl⟩ := hrank _ _ _ hy
  · obtain ⟨a,rfl⟩ := hrank _ _ _ hx
    simp
  · rcases mem_append.mp hx with hx | hx <;> obtain ⟨a,rfl⟩ := hrank _ _ _ hx <;> simp
  · rcases mem_append.mp hx with hx | hx
    · rcases mem_append.mp hx with hx | hx <;> obtain ⟨a,rfl⟩ := hrank _ _ _ hx <;> simp
    · obtain ⟨a,rfl⟩ := hrank _ _ _ hx
      simp

/-- A record of the kind of `k` that every reading of its table puts at `t` or later. -/
structure Leads (l : List PauseRecord) (k : PauseKey) (t : Nat) : Prop where
  row : ∃y∈l,y.key.rank=k.rank ∧ t≤y.paused_at
  top : ∀g,k=.capacity g → ∀y∈l,∀i,y.key=.capacity i →
    (∀z∈l,∀j,z.key=.capacity j → j ≤ i) → t≤y.paused_at

theorem argmax_scan {α β : Type} [LinearOrder β] (scan : Scan) (f : α → β) {rows : List α} {a : α}
    (ha : a∈rows) : ∃m∈rows,(scan.order rows).argmax f=some m ∧ ∀b∈rows,f b≤f m := by
  have hp := scan.perm rows
  cases hm : (scan.order rows).argmax f with
  | none =>
    have := argmax_eq_none.mp hm
    rw [this] at hp
    rw [perm_nil.mp hp.symm] at ha
    cases ha
  | some m =>
    refine ⟨m,hp.mem_iff.mp (argmax_mem hm),rfl,?_⟩
    intro b hb
    exact le_of_mem_argmax (hp.mem_iff.mpr hb) hm

theorem Leads.candidate {scan : Scan} {r : CollectionRun} {k : PauseKey} {t : Nat}
    (h : Leads r.records k t) : ∃y∈r.candidates scan,y.key.rank=k.rank ∧ t≤y.paused_at := by
  obtain ⟨y,hy,hk,ht⟩ := h.row
  simp only [CollectionRun.candidates,mem_append,Option.mem_toList]
  rcases mem_records.mp hy with ⟨c,hc,rfl⟩ | ⟨p,hp,rfl⟩ | ⟨p,hp,rfl⟩ | ⟨p,hp,rfl⟩
  · obtain ⟨m,hm,he,hmax⟩ := argmax_scan scan (·.capacity.capacity_generation) hc
    have hcap : ∃g,k=.capacity g := by
      cases k with
      | capacity g => exact ⟨g,rfl⟩
      | _ => cases hk
    obtain ⟨g,hg⟩ := hcap
    refine ⟨m.record,by simp [CollectionRun.latestCapacity,he],by rw [← hk]; rfl,?_⟩
    apply h.top g hg m.record (mem_records.mpr (Or.inl ⟨m,hm,rfl⟩)) _ rfl
    intro z hz j hj
    obtain ⟨d,hd,hdj⟩ := any_eq_true.mp (capacity_key.mp ⟨z,hz,hj⟩)
    have := hmax d hd
    simp only [decide_eq_true_eq] at hdj
    omega
  · obtain ⟨m,hm,he,hmax⟩ :=
      argmax_scan scan (fun p : RetryPause => toLex (p.paused_at,p.facts.retry_generation)) hp
    refine ⟨m.record,by simp [CollectionRun.latestRetry,he],by rw [← hk]; rfl,?_⟩
    have := Prod.Lex.toLex_le_toLex.mp (hmax p hp)
    simp only [RetryPause.record] at ht ⊢
    omega
  · obtain ⟨m,hm,he,hmax⟩ := argmax_scan scan (fun p : WorkflowPause => p.paused_at) hp
    refine ⟨m.record,by simp [CollectionRun.latestWorkflow,he],by rw [← hk]; rfl,?_⟩
    exact ht.trans (hmax p hp)
  · obtain ⟨m,hm,he,hmax⟩ :=
      argmax_scan scan (fun p : AcquisitionPause => toLex (p.paused_at,p.event_id)) hp
    refine ⟨m.record,by simp [CollectionRun.latestAcquisition,he],by rw [← hk]; rfl,?_⟩
    have := Prod.Lex.toLex_le_toLex.mp (hmax p hp)
    simp only [AcquisitionPause.record] at ht ⊢
    omega

theorem mem_of_candidate {scan : Scan} (h : x∈r.candidates scan) : x∈r.records := by
  simp only [CollectionRun.candidates,mem_append,Option.mem_toList,Option.map_eq_some_iff] at h
  apply mem_records.mpr
  have hmem : ∀{α : Type} {rows : List α} {m : α},m∈scan.order rows → m∈rows :=
    fun hm => (scan.perm _).mem_iff.mp hm
  rcases h with ((⟨m,hm,rfl⟩ | ⟨m,hm,rfl⟩) | ⟨m,hm,rfl⟩) | ⟨m,hm,rfl⟩
  · exact Or.inl ⟨m,hmem (argmax_mem hm),rfl⟩
  · exact Or.inr (Or.inl ⟨m,hmem (argmax_mem hm),rfl⟩)
  · exact Or.inr (Or.inr (Or.inl ⟨m,hmem (argmax_mem hm),rfl⟩))
  · exact Or.inr (Or.inr (Or.inr ⟨m,hmem (argmax_mem hm),rfl⟩))

/-- What a watched run keeps: records date from the past, keys are unique, and while it is
paused some record of the present stop comes after every record of another reason. -/
structure Sound (w : Watched) : Prop where
  past : ∀x∈w.run.records,x.paused_at≤w.clock
  keys : ∀x∈w.run.records,∀y∈w.run.records,x.key=y.key → x=y
  lead : w.run.state=.paused → ∃k t,t≤w.clock ∧ Leads w.run.records k t ∧
    ∀y∈w.run.records,y.reason∈w.reasons ∨ y.paused_at<t ∨ (y.paused_at=t ∧ y.key.rank<k.rank)

theorem record_paused_at (h : m.record now=some x) : x.paused_at=now := by
  cases m <;> cases h <;> rfl

theorem Leads.same {k : PauseKey} (h : Leads l k t) (hl : ∀y,y∈l' ↔ y∈l) : Leads l' k t := by
  constructor
  · simpa only [hl] using h.row
  · simpa only [hl] using h.top

theorem Leads.insert {k : PauseKey}
    (h : Leads l k t) (hl : ∀y,y∈l' ↔ y∈l ∨ y=x) (hx : t≤x.paused_at) : Leads l' k t := by
  constructor
  · obtain ⟨y,hy,hyk⟩ := h.row
    exact ⟨y,(hl y).mpr (Or.inl hy),hyk⟩
  · intro g hg y hy i hi htop
    rcases (hl y).mp hy with hy | rfl
    · apply h.top g hg y hy i hi
      intro z hz
      exact htop z ((hl z).mpr (Or.inl hz))
    · exact hx

theorem Stands.leads (h : Stands r x) (hkeys : ∀x∈r.records,∀y∈r.records,x.key=y.key → x=y)
    (hrows : (∀y,y∈r'.records ↔ y∈r.records) ∨
      (∀y∈r.records,y.key≠x.key) ∧ ∀y,y∈r'.records ↔ y∈r.records ∨ y=x)
    (hex : ∃y∈r'.records,y.key=x.key) : Leads r'.records x.key (r.standsAt x) := by
  rcases hrows with hsame | ⟨hfresh,hnew⟩
  · obtain ⟨y,hy,hyk⟩ := hex
    have hfind : r.records.find? (·.key=x.key)=some y := by
      cases hf : r.records.find? (·.key=x.key) with
      | none =>
        have := List.find?_eq_none.mp hf y ((hsame y).mp hy)
        simp [hyk] at this
      | some z =>
        have hz := List.find?_some hf
        simp only [decide_eq_true_eq] at hz
        rw [hkeys z (List.mem_of_find?_eq_some hf) y ((hsame y).mp hy) (hz.trans hyk.symm)]
    have hat : r.standsAt x=y.paused_at := by simp [CollectionRun.standsAt,hfind]
    rw [hat]
    refine ⟨⟨y,hy,by rw [hyk],le_rfl⟩,?_⟩
    intro g hg z hz i hi htop
    -- the generation of a top row is that of the key
    have hle := htop y hy g (hyk.trans hg)
    have hge := h.newest g hg z ((hsame z).mp hz) i hi
    have hzy : z.key=y.key := by rw [hi,hyk,hg,Nat.le_antisymm hge hle]
    rw [hkeys z ((hsame z).mp hz) y ((hsame y).mp hy) hzy]
  · have hfind : r.records.find? (·.key=x.key)=none := by
      apply List.find?_eq_none.mpr
      intro y hy
      simpa using hfresh y hy
    have hat : r.standsAt x=x.paused_at := by simp [CollectionRun.standsAt,hfind]
    rw [hat]
    have hx : x∈r'.records := (hnew x).mpr (Or.inr rfl)
    refine ⟨⟨x,hx,rfl,le_rfl⟩,?_⟩
    intro g hg z hz i hi htop
    rcases (hnew z).mp hz with hz | rfl
    · have hle := htop x hx g hg
      have hge := h.newest g hg z hz i hi
      exact absurd (by rw [hi,hg,Nat.le_antisymm hge hle]) (hfresh z hz)
    · exact le_rfl

theorem standsAt_le
    (h : ∀y∈r.records,y.paused_at≤now) (hx : x.paused_at≤now) : r.standsAt x≤now := by
  unfold CollectionRun.standsAt
  cases hf : r.records.find? (·.key=x.key) with
  | none => exact hx
  | some y => exact h y (List.mem_of_find?_eq_some hf)

/-- One move keeps a sound history sound. -/
theorem Sound.move {w : Watched} (h : Sound w) {m : Move} {now : Nat} {r : CollectionRun}
    (ht : w.clock≤now) (hok : StopStands m now w) (hm : m.commit now w.run=some r) :
    Sound ⟨r,now,observed ((m.record now).map (·.reason)) w.run r w.reasons⟩ := by
  have heff := commit_effect hm
  have hpast : ∀x∈w.run.records,x.paused_at≤now := fun x hx => (h.past x hx).trans ht
  refine ⟨?_,?_,?_⟩
  · intro y hy
    rcases heff.rows with ⟨hsame,_⟩ | ⟨x,hx,_,_,hnew,_⟩
    · exact hpast y ((hsame y).mp hy)
    · rcases (hnew y).mp hy with hy | rfl
      · exact hpast y hy
      · exact (record_paused_at hx).le
  · intro y hy z hz hk
    rcases heff.rows with ⟨hsame,_⟩ | ⟨x,hx,_,hfresh,hnew,_⟩
    · exact h.keys y ((hsame y).mp hy) z ((hsame z).mp hz) hk
    · rcases (hnew y).mp hy with hy | rfl <;> rcases (hnew z).mp hz with hz | rfl
      · exact h.keys y hy z hz hk
      · exact absurd hk (hfresh y hy)
      · exact absurd hk.symm (hfresh z hz)
      · rfl
  · intro hp
    have hp : r.state=.paused := hp
    rcases heff.stop hp with hs | ⟨hs,x,hx⟩
    · -- paused already: a new record is of the present stop
      obtain ⟨k,t,htc,hlead,hlast⟩ := h.lead hs
      refine ⟨k,t,htc.trans ht,?_⟩
      rcases heff.rows with ⟨hsame,hlen⟩ | ⟨x,hx,_,_,hnew,hlen⟩
      · have hobs : observed ((m.record now).map (·.reason)) w.run r w.reasons=w.reasons := by
          simp [observed,hp,hs,hlen]
        rw [hobs]
        refine ⟨hlead.same hsame,?_⟩
        intro y hy
        exact hlast y ((hsame y).mp hy)
      · have hobs : observed ((m.record now).map (·.reason)) w.run r w.reasons=
            x.reason::w.reasons := by
          simp [observed,hp,hs,hlen,hx]
        rw [hobs]
        refine ⟨hlead.insert hnew ?_,?_⟩
        · rw [record_paused_at hx]
          exact htc.trans ht
        · intro y hy
          rcases (hnew y).mp hy with hy | rfl
          · rcases hlast y hy with h | h
            · exact Or.inl (mem_cons_of_mem _ h)
            · exact Or.inr h
          · exact Or.inl mem_cons_self
    · -- the move stopped the run
      have hst := hok hs r hm hp x hx
      have hobs : observed ((m.record now).map (·.reason)) w.run r w.reasons=[x.reason] := by
        simp [observed,hp,hs,hx]
      rw [hobs]
      refine ⟨x.key,w.run.standsAt x,standsAt_le hpast (record_paused_at hx).le,?_,?_⟩
      · apply hst.leads h.keys _ (heff.stand x hx hs hp)
        rcases heff.rows with ⟨hsame,_⟩ | ⟨z,hz,_,hfresh,hnew,_⟩
        · exact Or.inl hsame
        · rw [hx] at hz
          cases hz
          exact Or.inr ⟨hfresh,hnew⟩
      · intro y hy
        by_cases hr : y.reason=x.reason
        · exact Or.inl (by simp [hr])
        · right
          rcases heff.rows with ⟨hsame,_⟩ | ⟨z,hz,_,hfresh,hnew,_⟩
          · exact hst.last y ((hsame y).mp hy) hr
          · rw [hx] at hz
            cases hz
            rcases (hnew y).mp hy with hy | rfl
            · exact hst.last y hy hr
            · exact absurd rfl hr

variable {w : Watched}

theorem Reached.sound (h : Reached StopStands w) : Sound w := by
  induction h with
  | start hn hs => exact ⟨by simp [hn],by simp [hn],fun hp => absurd hp hs⟩
  | move _ m now r ht hok hm ih => exact ih.move ht hok hm

theorem Reached.mono {ok ok' : Move → Nat → Watched → Prop}
    (hmono : ∀m now w,ok m now w → ok' m now w) {w : Watched} (h : Reached ok w) :
    Reached ok' w := by
  induction h with
  | start hn hs => exact .start hn hs
  | move _ m now r ht hok hm ih => exact ih.move m now r ht (hmono m now _ hok) hm

theorem observed_cases (reason : Option PauseReason) (before after : CollectionRun)
    (reasons : List PauseReason) :
    observed reason before after reasons=[] ∨
    observed reason before after reasons=reason.toList ∨
    (before.state=.paused ∧ before.records.length<after.records.length ∧
      observed reason before after reasons=reason.toList++reasons) ∨
    observed reason before after reasons=reasons := by
  unfold observed
  split
  · exact .inl rfl
  · split
    · exact .inr (.inl rfl)
    · rename_i hs
      split
      · rename_i hlen
        exact .inr (.inr (.inl ⟨not_not.mp hs,hlen,rfl⟩))
      · exact .inr (.inr (.inr rfl))

/-- A stop for capacity has no reason but capacity. -/
theorem Reached.capacity (h : Reached CapacityStands w)
    (hl : w.reasons.getLast?=some .source_request_capacity_exhausted) :
    ∀ρ∈w.reasons,ρ=.source_request_capacity_exhausted := by
  induction h with
  | start _ _ => cases hl
  | @move w _ m now r ht hok hm ih =>
    have heff := commit_effect hm
    dsimp only at hl ⊢
    rcases observed_cases ((m.record now).map (·.reason)) w.run r w.reasons with
      ho | ho | ⟨hs,hlen,ho⟩ | ho
    all_goals rw [ho] at hl ⊢
    · cases hl
    · cases hx : m.record now with
      | none =>
        rw [hx] at hl
        cases hl
      | some x =>
        rw [hx] at hl
        simpa using hl
    · -- the reason of the transition stays the last of the list
      rcases heff.rows with ⟨_,hsame⟩ | ⟨x,hx,_,hfresh,_⟩
      · rw [hsame] at hlen
        exact absurd hlen (lt_irrefl _)
      · rw [hx] at hl ⊢
        change (x.reason::w.reasons).getLast?=some _ at hl
        change ∀ρ∈x.reason::w.reasons,_
        rw [List.getLast?_cons] at hl
        have hl := Option.some.inj hl
        cases hlast : w.reasons.getLast? with
        | none =>
          rw [hlast] at hl
          rw [List.getLast?_eq_none_iff.mp hlast]
          intro ρ hρ
          rw [mem_singleton.mp hρ]
          exact hl
        | some last =>
          rw [hlast] at hl
          have hlast := hlast.trans (congrArg some hl)
          have hreason : x.reason=.source_request_capacity_exhausted := by
            rcases hok.2 hs hlast x hx with hr | ⟨y,hy,hk⟩
            · exact hr
            · exact absurd hk (hfresh y hy)
          intro ρ hρ
          rcases mem_cons.mp hρ with rfl | hρ
          · exact hreason
          · exact ih hlast ρ hρ
    · exact ih hl

theorem Sound.reported (h : Sound w) (hp : w.run.state=.paused) (scan : Scan) :
    ∃p,w.run.currentPause scan=some p ∧ p.reason∈w.reasons := by
  obtain ⟨k,t,_,hlead,hlast⟩ := h.lead hp
  obtain ⟨y,hy,hyk,hyt⟩ := @Leads.candidate scan _ _ _ hlead
  rcases currentPause_last scan w.run with ⟨hnil,_⟩ | ⟨x,hx,hcur,hmax⟩
  · rw [hnil] at hy
    cases hy
  · refine ⟨_,hcur,?_⟩
    rcases hlast x (mem_of_candidate hx) with hr | hb
    · exact hr
    · have := hmax y hy
      unfold PauseRecord.NotAfter at this
      omega

theorem terminate_ok {scan : Scan} {key : String} {row : Termination} {p : CurrentPause}
    (hc : r.currentPause scan=some p) (h : terminateEvidenceRun scan key now r=.ok (row,r')) :
    row.pause_reason=p.reason ∧ row.paused_at=p.paused_at ∧ r'.termination=some row := by
  unfold terminateEvidenceRun at h
  rw [hc] at h
  split at h
  · dsimp only at h
    split at h
    · cases h
      exact ⟨rfl,rfl,rfl⟩
    · cases h
  · cases h

/-- In every history whose stops all stand, the pause reported of a paused run is one of its
present stop, and a termination records it; where no pause of another reason is recorded during a
stop for capacity, a run that its capacity stopped is offered the extension. -/
theorem reported_pause_of_stop (scan : Scan) {w : Watched} (h : Reached StopStands w)
    (hp : w.run.state=.paused) : ∃p,w.run.currentPause scan=some p ∧ p.reason∈w.reasons ∧
      (Reached CapacityStands w → w.reasons.getLast?=some .source_request_capacity_exhausted →
        .extend_capacity∈collectionActions w.run.state (some p.reason)) ∧
      (∀key now row r',terminateEvidenceRun scan key now w.run=.ok (row,r') →
        row.pause_reason=p.reason ∧ row.paused_at=p.paused_at ∧ r'.termination=some row) ∧
      ∀key now,w.run.termination=none → w.run.reserved=true → w.clock≤now →
        ∃row r',terminateEvidenceRun scan key now w.run=.ok (row,r') := by
  have hs := h.sound
  obtain ⟨p,hcur,hr⟩ := hs.reported hp scan
  refine ⟨p,hcur,hr,?_,?_,?_⟩
  · intro hc hl
    rw [hp,hc.capacity hl _ hr]
    decide
  · intro key now row r' hok
    exact terminate_ok hcur hok
  · intro key now hnone hres hnow
    have hpast : p.paused_at≤now := by
      rcases currentPause_last scan w.run with ⟨_,hn⟩ | ⟨x,hx,hx',_⟩
      · rw [hn] at hcur
        cases hcur
      · rw [hx'] at hcur
        cases hcur
        exact (hs.past x (mem_of_candidate hx)).trans hnow
    unfold terminateEvidenceRun
    rw [if_pos hp,hcur]
    exact ⟨_,_,if_pos ⟨hnone,hpast,hres⟩⟩

-- A run whose capacity is exhausted twice in one generation: with nothing between the stops,
-- and with an owner's pause between them.

/-- The moves of a list, one after another. -/
def play (w : Watched) : List (Move × Nat) → Option Watched
  | [] => some w
  | (m,now)::ms =>
    if w.clock≤now then
      match m.commit now w.run with
      | some r => play ⟨r,now,observed ((m.record now).map (·.reason)) w.run r w.reasons⟩ ms
      | none => none
    else none

theorem Reached.play {w' : Watched} {ms : List (Move × Nat)} (h : Reached (fun _ _ _ => True) w)
    (hp : play w ms=some w') : Reached (fun _ _ _ => True) w' := by
  induction ms generalizing w with
  | nil => cases hp; exact h
  | cons q ms ih =>
    obtain ⟨m,now⟩ := q
    simp only [Pauses.play] at hp
    split at hp
    · split at hp
      · exact ih (h.move m now _ ‹_› trivial ‹_›) hp
      · cases hp
    · cases hp

def collectingRun : CollectionRun where
  id := "run"
  state := .collecting
  reserved := true
  parent_workflow_id := some "evidence-run"
  parent_attempts := [1]
  requests := []
  capacity_pauses := []
  retry_pauses := []
  workflow_pauses := []
  acquisition_pauses := []
  capacity_extensions := []
  termination := none
  pause_keys := []

def exhausted : Move := .requestCapacity "request" ⟨"lineage",8,1,8,2,10⟩

def inOrder : Scan := ⟨fun rows => rows,fun _ => List.Perm.refl _⟩

theorem Stands.repeats (h : ∀y∈r.records,y.reason=x.reason ∧ y.key=x.key) : Stands r x := by
  constructor
  · intro g hg y hy i hi
    rw [(h y hy).2,hg] at hi
    cases hi
    exact le_rfl
  · intro y hy hr
    exact absurd (h y hy).1 hr

theorem CapacityStands.collecting (h : StopStands m now w)
    (hs : w.run.state≠.paused) : CapacityStands m now w := ⟨h,fun hp => absurd hp hs⟩

theorem CapacityStands.silent (h : m.record now=none) : CapacityStands m now w := by
  constructor
  · intro _ _ _ _ x hx
    rw [h] at hx
    cases hx
  · intro _ _ x hx
    rw [h] at hx
    cases hx

/-- The second stop repeats the first: the one record of the generation is still the last. -/
theorem reported_pause_of_stop_repeated : ∃w,Reached StopStands w ∧ w.run.state=.paused ∧
    w.clock=3 ∧ ∃p,w.run.currentPause inOrder=some p ∧
      .extend_capacity∈collectionActions w.run.state (some p.reason) := by
  have h0 : Reached CapacityStands ⟨collectingRun,0,[]⟩ := .start (by decide) (by decide)
  have h1 := h0.move exhausted 1 _ (by decide) (CapacityStands.collecting
    (fun _ _ _ _ x hx => by cases hx; exact Stands.repeats (by decide +kernel)) (by decide)) rfl
  have h2 := h1.move (.resume (some "evidence-run") 1) 2 _ (by decide) (.silent rfl) rfl
  have h3 := h2.move exhausted 3 _ (by decide) (CapacityStands.collecting
    (fun _ _ _ _ x hx => by cases hx; exact Stands.repeats (by decide +kernel)) (by decide)) rfl
  have hs := @Reached.mono _ StopStands (fun _ _ _ h => h.1) _ h3
  obtain ⟨p,hp,_,hact,_⟩ := reported_pause_of_stop inOrder hs (by decide +kernel)
  exact ⟨_,hs,by decide +kernel,rfl,p,hp,hact h3 (by decide +kernel)⟩

/-- An owner's pause between two exhaustions of one generation. -/
def ownerBetween : List (Move × Nat) :=
  [(exhausted,1),(.resume (some "evidence-run") 1,2),
    (.owner "key" "evidence-run-resume-1" .running none,3),
    (.resume (some "evidence-run-resume-1") 2,4),(exhausted,5)]

/-- After it the run was stopped by its capacity, but the owner's pause is reported and the
extension is not offered. -/
theorem reported_pause_stale : ¬∀(scan : Scan) (w : Watched),Reached (fun _ _ _ => True) w →
    w.run.state=.paused → ∃p,w.run.currentPause scan=some p ∧ p.reason∈w.reasons ∧
      (w.reasons.getLast?=some .source_request_capacity_exhausted →
        .extend_capacity∈collectionActions w.run.state (some p.reason)) := by
  intro h
  have h0 : Reached (fun _ _ _ => True) ⟨collectingRun,0,[]⟩ := .start (by decide) (by decide)
  cases hw : play ⟨collectingRun,0,[]⟩ ownerBetween with
  | none => exact absurd hw (by decide +kernel)
  | some w =>
    have heq : (play ⟨collectingRun,0,[]⟩ ownerBetween).map
        (fun w => (w.run.state,w.reasons,w.run.currentPause inOrder))=
          some (.paused,[.source_request_capacity_exhausted],
            some ⟨.workflow .owner_requested,3⟩) := by
      decide +kernel
    rw [hw] at heq
    simp only [Option.map_some,Option.some.injEq,Prod.mk.injEq] at heq
    obtain ⟨p,hp,hr,_⟩ := h inOrder w (h0.play hw) heq.1
    rw [heq.2.2] at hp
    cases hp
    rw [heq.2.1] at hr
    simp at hr

end CardKeepr.SourceEvidence.Pauses
