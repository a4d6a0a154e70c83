import CardKeepr.Ingestion.RunEvents

namespace CardKeepr.Ingestion

open Shared

/-- A JSON text that a command retains; no string of the runtime is longer. -/
structure PayloadText where
  text : JsString
  short : text.length ≤ 536870888

/-- One `UPDATE ingestion_run_current` with the event that it is written with. A payload comes with
the assignment of its `…_event_sequence` column to the new sequence number. -/
structure RunUpdate where
  kind : RunEventKind
  occurredAt : Instant
  /-- the states that `ingestionRunTransitionSql` compares -/
  sources : List IngestionRunState
  target : IngestionRunState
  columns : List (Column × Option JsString)
  completed : Option Nat
  candidate : Option PayloadText
  diagnostics : Option PayloadText
  decision : Json
  approvalKey : Option JsString

/-- `runCompletedStageCount(JSON.stringify(progressFor(state)))`. -/
def progressFor (state : IngestionRunState) : Nat :=
  if state∈activeRunStages then activeRunStages.idxOf state else activeRunStages.length

def validCompletedStageCount (state : IngestionRunState) (completed : Nat) : Bool :=
  if state∈activeRunStages then completed==activeRunStages.idxOf state
  else match state with
    | .paused => completed==activeRunStages.idxOf .collecting
    | .published => completed==activeRunStages.length
    | .rejected | .expired => completed==activeRunStages.idxOf .awaiting_approval
    | s => s==.failed

/-- An update that moves the run and retains nothing beside its columns. -/
def plainUpdate (kind : RunEventKind) (occurredAt : Instant) (sources : List IngestionRunState)
    (target : IngestionRunState) (columns : List (Column × Option JsString))
    (completed : Option Nat) : RunUpdate :=
  ⟨kind,occurredAt,sources,target,columns,completed,none,none,.null,none⟩

/-- The failures that only say when and why. -/
def failedUpdate (terminalAt : Instant) (failureCode : JsString) (sources : List IngestionRunState)
    (completed : Option Nat) : RunUpdate :=
  plainUpdate .failed terminalAt sources .failed
    [(.terminal_at,some terminalAt.iso),(.failure_code,some failureCode)] completed

def failRunStatement (terminalAt : Instant) (failureCode : JsString) : RunUpdate :=
  failedUpdate terminalAt failureCode (ingestionRunTransitionSources .failed) none

def rejectRunStatement (terminalAt : Instant) (progress : Nat) (decision : Json) : RunUpdate :=
  { plainUpdate .rejected terminalAt [.awaiting_approval] .rejected
      [(.terminal_at,some terminalAt.iso)] (some progress) with decision := decision }

/-- The columns that fix a candidate. -/
def candidateColumns (candidateDigest catalogueDigest : JsString)
    (createdAt approvalDeadline : Instant) : List (Column × Option JsString) :=
  [(.candidate_digest,some candidateDigest),(.candidate_catalogue_digest,some catalogueDigest),
    (.candidate_created_at,some createdAt.iso),(.approval_deadline,some approvalDeadline.iso)]

def failPreparedRunStatement (candidateDigest : JsString)
    (candidateCreatedAt approvalDeadline terminalAt : Instant) (failureCode : Option JsString)
    (progress : Nat) : RunUpdate :=
  plainUpdate .candidate_blocked terminalAt [.planning] .failed
    (candidateColumns candidateDigest candidateDigest candidateCreatedAt approvalDeadline++
      [(.terminal_at,some terminalAt.iso),(.failure_code,failureCode)]) (some progress)

def completePreparedRunStatement (candidateDigest : JsString)
    (candidateCreatedAt approvalDeadline : Instant) (progress : Nat) : RunUpdate :=
  plainUpdate .candidate_prepared candidateCreatedAt [.reconciling] .awaiting_approval
    (candidateColumns candidateDigest candidateDigest candidateCreatedAt approvalDeadline)
    (some progress)

def transitionRunStatement (now : Instant) (source target : IngestionRunState) (progress : Nat) :
    RunUpdate :=
  plainUpdate .stage_changed now [source] target [] (some progress)

def beginReconciliationStatement (now : Instant) : RunUpdate :=
  plainUpdate .stage_changed now [.parsing] .reconciling [] (some 3)

def reviewableCandidateStatement (candidatePayload : PayloadText)
    (candidateDigest catalogueDigest : JsString) (createdAt approvalDeadline : Instant)
    (warnings : PayloadText) : RunUpdate :=
  { plainUpdate .candidate_prepared createdAt [.reconciling] .awaiting_approval
      (candidateColumns candidateDigest catalogueDigest createdAt approvalDeadline) (some 4) with
    candidate := some candidatePayload
    diagnostics := some warnings }

def blockedCandidateStatement (candidatePayload : PayloadText)
    (candidateDigest catalogueDigest : JsString) (createdAt approvalDeadline terminalAt : Instant)
    (failureCode : JsString) (diagnostics : PayloadText) : RunUpdate :=
  { plainUpdate .candidate_blocked terminalAt [.reconciling] .failed
      (candidateColumns candidateDigest catalogueDigest createdAt approvalDeadline++
        [(.terminal_at,some terminalAt.iso),(.failure_code,some failureCode)]) (some 4) with
    candidate := some candidatePayload
    diagnostics := some diagnostics }

def failedReconciliationStatement (terminalAt : Instant) (diagnostics : PayloadText) : RunUpdate :=
  { failedUpdate terminalAt (key "printing_reconciliation_blocked") [.reconciling] (some 3) with
    diagnostics := some diagnostics }

def failedReconciliationWorkflowStatement (terminalAt : Instant) (failureCode : JsString)
    (diagnostics : PayloadText) : RunUpdate :=
  { failedUpdate terminalAt failureCode [.parsing,.reconciling] (some 3) with
    diagnostics := some diagnostics }

structure Approval where
  approved_at : JsString
  candidate_digest : JsString
  expected_current_revision_id : JsString

def Approval.json (a : Approval) : Json := .obj [(key "action",.str (key "approved")),
  (key "candidate_digest",.str a.candidate_digest),
  (key "expected_current_revision_id",.str a.expected_current_revision_id),
  (key "approved_at",.str a.approved_at)]

def approvalColumns (a : Approval) : List (Column × Option JsString) :=
  [(.approved_at,some a.approved_at),(.approved_candidate_digest,some a.candidate_digest),
    (.approved_expected_revision_id,some a.expected_current_revision_id)]

def approveNoChangeRunStatement (occurredAt : Instant) (approval : Approval)
    (idempotencyKey : JsString) (progress : Nat) : RunUpdate :=
  { plainUpdate .approval_reserved occurredAt [.awaiting_approval] .publishing
      (approvalColumns approval) (some progress) with
    decision := approval.json
    approvalKey := some idempotencyKey }

def reservePublicationWriterStatement (startedAt reconcileAfter : Instant) (approval : Approval)
    (idempotencyKey revisionId manifestDigest writerToken : JsString) (progress : Nat) :
    RunUpdate :=
  { plainUpdate .approval_reserved startedAt [.awaiting_approval] .publishing
      (approvalColumns approval++[(.publication_revision_id,some revisionId),
        (.publication_started_at,some startedAt.iso),
        (.publication_reconcile_after,some reconcileAfter.iso),
        (.publication_manifest_digest,some manifestDigest),
        (.publication_writer_token,some writerToken)]) (some progress) with
    decision := approval.json
    approvalKey := some idempotencyKey }

def publishNoChangeRunStatement (terminalAt checkedAt : Instant) (revisionId : JsString)
    (progress : Nat) : RunUpdate :=
  plainUpdate .published terminalAt [.publishing] .published
    [(.terminal_at,some terminalAt.iso),(.publication_outcome,some (key "no_change")),
      (.resulting_revision_id,some revisionId),(.freshness_checked_at,some checkedAt.iso)]
    (some progress)

def publishApprovedRunStatement (completedAt : Instant) (revisionId manifestDigest : JsString)
    (progress : Nat) : RunUpdate :=
  plainUpdate .published completedAt [.publishing] .published
    [(.published_revision_id,some revisionId),(.export_manifest_digest,some manifestDigest),
      (.terminal_at,some completedAt.iso),(.publication_outcome,some (key "revision")),
      (.resulting_revision_id,some revisionId),(.freshness_checked_at,some completedAt.iso)]
    (some progress)

def failCandidatePublicationStatement (terminalAt : Instant) (failureCode : JsString) : RunUpdate :=
  failedUpdate terminalAt failureCode [.awaiting_approval] none

def failReservedPublicationStatement (terminalAt : Instant) (failureCode : JsString) : RunUpdate :=
  failedUpdate terminalAt failureCode [.publishing] none

def curatedSources : List IngestionRunState :=
  [.planning,.collecting,.parsing,.reconciling,.awaiting_approval]

def failInvalidCuratedCandidateStatement (observedAt : Instant) : RunUpdate :=
  failedUpdate observedAt (key "curated_revision_composed_candidate_invalid") curatedSources none

def failCuratedSourceChangeRunStatement (moment : Instant) : RunUpdate :=
  failedUpdate moment (key "curated_revision_reconfirmation_required") curatedSources none

/-- The pauses of a collection: `pauseEvidenceRunForRequestCapacity`,
`retryExhaustionPauseStatements`, `workflowPauseStatements` and `acquisitionPauseStatements`. -/
def collectionPaused (pausedAt : Instant) : RunUpdate :=
  plainUpdate .collection_paused pausedAt [.collecting] .paused [] (some 1)

def resumePausedEvidenceRun (now : Instant) : RunUpdate :=
  plainUpdate .collection_resumed now [.paused] .collecting [] (some 1)

def terminateEvidenceRun (terminatedAt : Instant) : RunUpdate :=
  plainUpdate .collection_terminated terminatedAt [.paused] .failed
    [(.terminal_at,some terminatedAt.iso),
      (.failure_code,some ingestionRunTerminatedFailureCode)] (some 1)

def finalizeFailedEvidenceRun (completedAt : Instant) (failureCode : JsString) : RunUpdate :=
  failedUpdate completedAt failureCode [.collecting] (some 1)

def finalizeEvidenceRun (completedAt : Instant) : RunUpdate :=
  plainUpdate .stage_changed completedAt [.collecting] .parsing [] (some 2)

/-- The three `transitionStatement` calls of `startPreparedRun`. -/
inductive PreparedStage where
  | collecting | parsing | reconciling

def transitionStatement (now : Instant) : PreparedStage → RunUpdate
  | .collecting => transitionRunStatement now .planning .collecting (progressFor .collecting)
  | .parsing => transitionRunStatement now .collecting .parsing (progressFor .parsing)
  | .reconciling => transitionRunStatement now .parsing .reconciling (progressFor .reconciling)

/-- `rejectRun` after it read `run`, whose state and progress it checks. -/
def rejectRun (run : RunCurrent) (now : Instant) (decision : Json) : Option RunUpdate :=
  if run.state=.awaiting_approval ∧
      validCompletedStageCount run.state run.completed_stage_count=true then
    some (rejectRunStatement now run.completed_stage_count decision)
  else none

/-- The commands that write to a run, with the progress that their callers pass: `progressFor` of
the state written, and for a rejection the progress of the row that was read. -/
inductive Command : RunUpdate → Prop
  | failRun (moment : Instant) (code : JsString) : Command (failRunStatement moment code)
  | rejectRun {run : RunCurrent} {now : Instant} {decision : Json} {u : RunUpdate}
    (h : rejectRun run now decision=some u) : Command u
  | failPreparedRun (digest : JsString) (created deadline terminal : Instant)
    (code : Option JsString) :
    Command (failPreparedRunStatement digest created deadline terminal code (progressFor .failed))
  | completePreparedRun (digest : JsString) (created deadline : Instant) :
    Command (completePreparedRunStatement digest created deadline (progressFor .awaiting_approval))
  | transition (now : Instant) (stage : PreparedStage) : Command (transitionStatement now stage)
  | beginReconciliation (now : Instant) : Command (beginReconciliationStatement now)
  | reviewableCandidate (candidate : PayloadText) (digest catalogue : JsString)
    (created deadline : Instant) (warnings : PayloadText) :
    Command (reviewableCandidateStatement candidate digest catalogue created deadline warnings)
  | blockedCandidate (candidate : PayloadText) (digest catalogue : JsString)
    (created deadline terminal : Instant) (code : JsString) (diagnostics : PayloadText) :
    Command (blockedCandidateStatement candidate digest catalogue created deadline terminal code
      diagnostics)
  | failedReconciliation (terminal : Instant) (diagnostics : PayloadText) :
    Command (failedReconciliationStatement terminal diagnostics)
  | failedReconciliationWorkflow (terminal : Instant) (code : JsString)
    (diagnostics : PayloadText) :
    Command (failedReconciliationWorkflowStatement terminal code diagnostics)
  | approveNoChangeRun (moment : Instant) (approval : Approval) (idempotency : JsString) :
    Command (approveNoChangeRunStatement moment approval idempotency (progressFor .publishing))
  | reservePublicationWriter (started reconcile : Instant) (approval : Approval)
    (idempotency revision manifest token : JsString) :
    Command (reservePublicationWriterStatement started reconcile approval idempotency revision
      manifest token (progressFor .publishing))
  | publishNoChangeRun (terminal checked : Instant) (revision : JsString) :
    Command (publishNoChangeRunStatement terminal checked revision (progressFor .published))
  | publishApprovedRun (completed : Instant) (revision manifest : JsString) :
    Command (publishApprovedRunStatement completed revision manifest (progressFor .published))
  | failCandidatePublication (terminal : Instant) (code : JsString) :
    Command (failCandidatePublicationStatement terminal code)
  | failReservedPublication (terminal : Instant) (code : JsString) :
    Command (failReservedPublicationStatement terminal code)
  | failInvalidCuratedCandidate (observed : Instant) :
    Command (failInvalidCuratedCandidateStatement observed)
  | failCuratedSourceChangeRun (moment : Instant) :
    Command (failCuratedSourceChangeRunStatement moment)
  | pause (paused : Instant) : Command (collectionPaused paused)
  | resume (now : Instant) : Command (resumePausedEvidenceRun now)
  | terminate (terminated : Instant) : Command (terminateEvidenceRun terminated)
  | finalizeFailed (completed : Instant) (code : JsString) :
    Command (finalizeFailedEvidenceRun completed code)
  | finalize (completed : Instant) : Command (finalizeEvidenceRun completed)

/-- The stage count of a run that has not ended. -/
def stageCount : IngestionRunState → Option Nat
  | .planning => some 0
  | .collecting | .paused => some 1
  | .parsing => some 2
  | .reconciling => some 3
  | .awaiting_approval => some 4
  | .publishing => some 5
  | .published | .rejected | .expired | .failed => none

/-- Before a candidate is fixed. -/
def unprepared : IngestionRunState → Bool
  | .planning | .collecting | .paused | .parsing | .reconciling => true
  | _ => false

def unapproved (s : IngestionRunState) : Bool := unprepared s || s==.awaiting_approval

def candidateIdentity : List Column :=
  [.candidate_digest,.candidate_catalogue_digest,.candidate_created_at,.approval_deadline]

def approvalIdentity : List Column :=
  [.approved_at,.approved_candidate_digest,.approved_expected_revision_id]

def RunUpdate.leaves (u : RunUpdate) (cs : List Column) : Bool :=
  cs.all fun c => (u.columns.lookup c).isNone

/-- What an update does to the stage count and to the fixed columns of a run in state `s`. -/
def stepSound (u : RunUpdate) (s : IngestionRunState) : Bool :=
  (match u.completed with
    | none => (stageCount u.target).isNone
    | some n => decide (n ≤ activeRunStages.length) && (stageCount s).all (fun m => decide (m ≤ n)) &&
      (stageCount u.target).all fun m => m==n) &&
  (unprepared s || u.leaves candidateIdentity) &&
  (unapproved s || u.leaves approvalIdentity) &&
  (!unprepared u.target || (unprepared s && u.leaves candidateIdentity)) &&
  (!unapproved u.target || (unapproved s && u.leaves approvalIdentity))

/-- An update that every one of its source states allows. -/
structure RunUpdate.Fits (u : RunUpdate) : Prop where
  edge : ∀old,(u.sources.all fun s => canTransitionIngestionRun s u.target
    ⟨(u.columns.lookup .failure_code).getD old,u.kind==.collection_terminated⟩)=true
  sound : u.sources.all (stepSound u)=true
  kind : (!(u.kind==.created) && kindFits u.kind u.target)=true
  deadline : ∀d,u.columns.lookup .approval_deadline=some (some d) → isoInstant d=true

theorem rejectRun_update {run : RunCurrent} {now : Instant} {decision : Json} {u : RunUpdate}
    (h : rejectRun run now decision=some u) : u=rejectRunStatement now 4 decision := by
  rw [rejectRun] at h
  split at h
  · rename_i hc
    obtain ⟨hs,hv⟩ := hc
    rw [hs] at hv
    have hn : run.completed_stage_count=4 := by
      change (run.completed_stage_count==4)=true at hv
      exact beq_iff_eq.mp hv
    rw [hn] at h
    exact (Option.some.inj h).symm
  · cases h

theorem Command.fits {u : RunUpdate} (h : Command u) : u.Fits := by
  have no_deadline : ∀{x : RunUpdate},x.columns.lookup .approval_deadline=none →
      ∀d,x.columns.lookup .approval_deadline=some (some d) → isoInstant d=true := by
    intro x hx d hd
    rw [hx] at hd
    cases hd
  have own_deadline : ∀{x : RunUpdate} {t : Instant},
      x.columns.lookup .approval_deadline=some (some t.iso) →
      ∀d,x.columns.lookup .approval_deadline=some (some d) → isoInstant d=true := by
    intro x t hx d hd
    rw [hx] at hd
    injection hd with hd
    injection hd with hd
    rw [←hd]
    exact isoInstant_iso t
  cases h with
  | rejectRun h =>
    rw [rejectRun_update h]
    exact ⟨fun old => rfl,rfl,rfl,no_deadline rfl⟩
  | failPreparedRun => exact ⟨fun old => rfl,rfl,rfl,own_deadline rfl⟩
  | completePreparedRun => exact ⟨fun old => rfl,rfl,rfl,own_deadline rfl⟩
  | reviewableCandidate => exact ⟨fun old => rfl,rfl,rfl,own_deadline rfl⟩
  | blockedCandidate => exact ⟨fun old => rfl,rfl,rfl,own_deadline rfl⟩
  | transition now stage =>
    cases stage with
    | collecting => exact ⟨fun old => rfl,rfl,rfl,no_deadline rfl⟩
    | parsing => exact ⟨fun old => rfl,rfl,rfl,no_deadline rfl⟩
    | reconciling => exact ⟨fun old => rfl,rfl,rfl,no_deadline rfl⟩
  | failRun => exact ⟨fun old => rfl,rfl,rfl,no_deadline rfl⟩
  | beginReconciliation => exact ⟨fun old => rfl,rfl,rfl,no_deadline rfl⟩
  | failedReconciliation => exact ⟨fun old => rfl,rfl,rfl,no_deadline rfl⟩
  | failedReconciliationWorkflow => exact ⟨fun old => rfl,rfl,rfl,no_deadline rfl⟩
  | approveNoChangeRun => exact ⟨fun old => rfl,rfl,rfl,no_deadline rfl⟩
  | reservePublicationWriter => exact ⟨fun old => rfl,rfl,rfl,no_deadline rfl⟩
  | publishNoChangeRun => exact ⟨fun old => rfl,rfl,rfl,no_deadline rfl⟩
  | publishApprovedRun => exact ⟨fun old => rfl,rfl,rfl,no_deadline rfl⟩
  | failCandidatePublication => exact ⟨fun old => rfl,rfl,rfl,no_deadline rfl⟩
  | failReservedPublication => exact ⟨fun old => rfl,rfl,rfl,no_deadline rfl⟩
  | failInvalidCuratedCandidate => exact ⟨fun old => rfl,rfl,rfl,no_deadline rfl⟩
  | failCuratedSourceChangeRun => exact ⟨fun old => rfl,rfl,rfl,no_deadline rfl⟩
  | pause => exact ⟨fun old => rfl,rfl,rfl,no_deadline rfl⟩
  | resume => exact ⟨fun old => rfl,rfl,rfl,no_deadline rfl⟩
  | terminate => exact ⟨fun old => rfl,rfl,rfl,no_deadline rfl⟩
  | finalizeFailed => exact ⟨fun old => rfl,rfl,rfl,no_deadline rfl⟩
  | finalize => exact ⟨fun old => rfl,rfl,rfl,no_deadline rfl⟩

end CardKeepr.Ingestion
