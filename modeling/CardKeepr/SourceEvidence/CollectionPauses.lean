import CardKeepr.Ingestion.RunEvents
import Mathlib.Data.List.MinMax
import Mathlib.Data.Prod.Lex

namespace CardKeepr.SourceEvidence.Pauses

open Ingestion

-- The pause records of one evidence run: four tables, each with a key of its own, and the
-- statements that write and read them. Instants are milliseconds; the ISO texts the tables keep
-- compare as these do.

inductive SafeWorkflowStatus where
  | queued | running | paused | errored | terminated | complete | waiting | waiting_for_pause
  | unknown | unavailable

inductive RecordedWorkflowPauseReason where
  | source_workflow_stalled | source_workflow_errored | source_workflow_terminated
  | source_workflow_unavailable | source_workflow_attempt_exhausted
  | source_collection_no_progress | owner_requested
  deriving DecidableEq

inductive PauseReason where
  | source_request_capacity_exhausted
  | source_transport_retries_exhausted
  | source_storage_retries_exhausted
  | source_acquisition_budget_exhausted
  | workflow (reason : RecordedWorkflowPauseReason)
  deriving DecidableEq

inductive FailureClassification where
  | network_failure | http_failure | storage_failure
  deriving DecidableEq

inductive AcquisitionDimension where
  | dispatches | source_bytes | deadline | policy_missing | ownership

/-- The facts a `RequestCapacityProblem` carries. -/
structure RequestCapacityProblem where
  source_lineage : String
  request_capacity : Nat
  capacity_generation : Nat
  used_capacity : Nat
  overflow_request_count : Nat
  required_capacity : Nat

structure CapacityPause where
  capacity : RequestCapacityProblem
  paused_at : Nat
  parent_request_id : String

/-- The CHECK constraints of `ingestion_run_capacity_pauses`. -/
def CapacityPause.checked (c : CapacityPause) : Bool :=
  1≤c.capacity.capacity_generation && 1≤c.capacity.request_capacity &&
  c.capacity.used_capacity≤c.capacity.request_capacity && 1≤c.capacity.overflow_request_count &&
  c.capacity.required_capacity=c.capacity.used_capacity+c.capacity.overflow_request_count &&
  c.capacity.request_capacity<c.capacity.required_capacity

structure RetryExhaustionFacts where
  request_id : String
  source_lineage : String
  hostname : String
  retry_generation : Nat
  attempt_count : Nat
  failure_classification : FailureClassification
  http_status : Option Nat

def RetryExhaustionFacts.pauseReason (f : RetryExhaustionFacts) : PauseReason :=
  if f.failure_classification=.storage_failure then .source_storage_retries_exhausted
  else .source_transport_retries_exhausted

structure RetryPause where
  facts : RetryExhaustionFacts
  paused_at : Nat

/-- The CHECK constraints of `ingestion_run_retry_pauses`. -/
def RetryPause.checked (p : RetryPause) : Bool :=
  1≤p.facts.retry_generation && 1≤p.facts.attempt_count

structure WorkflowRecoveryFacts where
  workflow_instance_id : String
  pause_reason : RecordedWorkflowPauseReason
  workflow_status : SafeWorkflowStatus
  last_progress_at : Option Nat
  stranded : Option String := none

structure WorkflowPause where
  facts : WorkflowRecoveryFacts
  paused_at : Nat

structure AcquisitionFacts where
  requestId : String
  generation : Option Nat
  maximumBytes : Nat
  dimension : AcquisitionDimension

structure AcquisitionPause where
  event_id : Nat
  facts : AcquisitionFacts
  paused_at : Nat

structure CapacityExtension where
  capacity_generation : Nat
  previous_request_capacity : Nat
  request_capacity : Nat
  extended_at : Nat
  idempotency_key : String

structure Termination where
  pause_reason : PauseReason
  paused_at : Nat
  terminated_at : Nat
  idempotency_key : String

/-- What a resume reads of a source request: its retry window and its last attempt. -/
structure CollectedRequest where
  request_id : String
  pendingOrCaptured : Bool
  retry_generation : Nat
  attempts : Nat

/-- One evidence run: the columns and tables its pauses, resumes and terminations touch. -/
structure CollectionRun where
  id : String
  state : IngestionRunState
  /-- the row of `ingestion_collection_reservations` -/
  reserved : Bool
  parent_workflow_id : Option String
  /-- `attempt_number` of the parent rows of `ingestion_workflow_attempts` -/
  parent_attempts : List Nat
  requests : List CollectedRequest
  capacity_pauses : List CapacityPause
  retry_pauses : List RetryPause
  workflow_pauses : List WorkflowPause
  acquisition_pauses : List AcquisitionPause
  capacity_extensions : List CapacityExtension
  termination : Option Termination
  /-- keys of the retained owner pauses in `administration_idempotency` -/
  pause_keys : List String

def parentWorkflowAttemptId (runId : String) (attemptNumber : Nat) : String :=
  if attemptNumber=1 then "evidence-" ++ runId
  else "evidence-" ++ runId ++ "-resume-" ++ toString (attemptNumber-1)

def captureAttemptsPerRetryGeneration : Nat := 4

namespace CollectionRun

/-- `COALESCE(MAX(attempt_number), 1)` of the parent rows. -/
def attemptNumber (r : CollectionRun) : Nat := (r.parent_attempts.max?).getD 1

/-- The update every pause begins with, compare-and-set on `collecting` and on what the pause
asks besides; the guard after it refuses the batch of a run without its reservation. The flag
is `changes()`. -/
def toPaused (bound : Bool) (r : CollectionRun) : Option (CollectionRun × Bool) :=
  if r.state=.collecting ∧ bound then
    if r.reserved then some ({ r with state := .paused },true) else none
  else some (r,false)

/-- The batch of `pauseEvidenceRunForRequestCapacity`. -/
def pauseForRequestCapacity (parentRequestId : String) (problem : RequestCapacityProblem)
    (pausedAt : Nat) (r : CollectionRun) : Option CollectionRun :=
  match r.toPaused true with
  | none => none
  | some (r,_) =>
    if r.state=.paused ∧
        ¬r.capacity_pauses.any (·.capacity.capacity_generation=problem.capacity_generation) then
      let row : CapacityPause := ⟨problem,pausedAt,parentRequestId⟩
      if row.checked then some { r with capacity_pauses := r.capacity_pauses ++ [row] } else none
    else some r

/-- `retryExhaustionPauseStatements` -/
def pauseForRetryExhaustion (facts : RetryExhaustionFacts) (pausedAt : Nat) (r : CollectionRun) :
    Option CollectionRun :=
  match r.toPaused true with
  | none => none
  | some (r,_) =>
    if r.state=.paused ∧ ¬r.retry_pauses.any (fun p => p.facts.request_id=facts.request_id ∧
        p.facts.retry_generation=facts.retry_generation) then
      let row : RetryPause := ⟨facts,pausedAt⟩
      if row.checked then some { r with retry_pauses := r.retry_pauses ++ [row] } else none
    else some r

/-- `workflowPauseStatements` -/
def workflowPause (facts : WorkflowRecoveryFacts) (pausedAt : Nat) (r : CollectionRun) :
    Option CollectionRun :=
  match r.toPaused (r.parent_workflow_id=some facts.workflow_instance_id) with
  | none => none
  | some (r,_) =>
    if r.state=.paused ∧
        ¬r.workflow_pauses.any (·.facts.workflow_instance_id=facts.workflow_instance_id) then
      some { r with workflow_pauses := r.workflow_pauses ++ [⟨facts,pausedAt⟩] }
    else some r

/-- The batch of `pauseEvidenceRunOnOwnerRequest`: the workflow pause, and the retained answer
when the pause record is this request's own. A key taken already refuses the batch. -/
def pauseOnOwnerRequest (key instance' : String) (status : SafeWorkflowStatus)
    (lastProgressAt : Option Nat) (pausedAt : Nat) (r : CollectionRun) : Option CollectionRun :=
  match r.workflowPause ⟨instance',.owner_requested,status,lastProgressAt,none⟩ pausedAt with
  | none => none
  | some r =>
    if r.workflow_pauses.any (fun p => p.facts.workflow_instance_id=instance' ∧
        p.facts.pause_reason=.owner_requested ∧ p.paused_at=pausedAt) then
      if r.pause_keys.contains key then none else some { r with pause_keys := key::r.pause_keys }
    else some r

/-- `acquisitionPauseStatements`: the record exists only when this very event paused the run. -/
def acquisitionPause (eventId : Nat) (facts : AcquisitionFacts) (pausedAt : Nat)
    (r : CollectionRun) : Option CollectionRun :=
  match r.toPaused true with
  | none => none
  | some (r,changed) =>
    if changed then
      if r.acquisition_pauses.any (·.event_id=eventId) then none
      else some { r with acquisition_pauses := r.acquisition_pauses ++ [⟨eventId,facts,pausedAt⟩] }
    else some r

/-- The retry windows that a resume reopens. -/
def reopened (q : CollectedRequest) : CollectedRequest :=
  if q.pendingOrCaptured ∧ q.retry_generation*captureAttemptsPerRetryGeneration≤q.attempts
  then { q with retry_generation := q.retry_generation+1 } else q

/-- The compare-and-set back to `collecting`: the plan must name the new parent by now. -/
def toCollecting (parent : String) (previousAttempt : Nat) (r : CollectionRun) :
    Option CollectionRun :=
  if r.state=.paused ∧ r.attemptNumber=previousAttempt ∧ r.parent_workflow_id=some parent then
    if r.reserved then some { r with state := .collecting } else none
  else some r

/-- The batch of `resumePausedEvidenceRun`, with the binding and the attempt number read
before it. -/
def resumePaused (previousParent : Option String) (previousAttempt : Nat) (r : CollectionRun) :
    Option CollectionRun :=
  let parent := parentWorkflowAttemptId r.id (previousAttempt+1)
  let rebound := if r.state=.paused ∧ r.parent_workflow_id=previousParent ∧
      r.attemptNumber=previousAttempt
    then { r with requests := r.requests.map reopened, parent_workflow_id := some parent } else r
  match rebound.toCollecting parent previousAttempt with
  | none => none
  | some r =>
    if r.attemptNumber=previousAttempt ∧ r.state=.collecting ∧ r.parent_workflow_id=some parent then
      some { r with parent_attempts := r.parent_attempts ++ [previousAttempt+1] }
    else some r

/-- The guarded insert of `extendRunRequestCapacity`. -/
def extendCapacity (row : CapacityExtension) (r : CollectionRun) : Option CollectionRun :=
  if r.state=.paused ∧ ¬r.capacity_extensions.any (row.capacity_generation≤·.capacity_generation) then
    if r.capacity_extensions.any (·.idempotency_key=row.idempotency_key) ∨
        ¬(2≤row.capacity_generation ∧ row.previous_request_capacity<row.request_capacity) then none
    else some { r with capacity_extensions := r.capacity_extensions ++ [row] }
  else some r

end CollectionRun

/-- The order in which the store meets the rows of a query: among equal sort keys `LIMIT 1`
may return any. -/
structure Scan where
  order : {α : Type} → List α → List α
  perm : ∀{α : Type} (rows : List α),(order rows).Perm rows

structure CurrentPause where
  reason : PauseReason
  paused_at : Nat
  deriving DecidableEq

namespace CollectionRun

/-- `ORDER BY capacity_generation DESC LIMIT 1` -/
def latestCapacity (scan : Scan) (r : CollectionRun) : Option CapacityPause :=
  (scan.order r.capacity_pauses).argmax (·.capacity.capacity_generation)

/-- `ORDER BY paused_at DESC, retry_generation DESC LIMIT 1` -/
def latestRetry (scan : Scan) (r : CollectionRun) : Option RetryPause :=
  (scan.order r.retry_pauses).argmax fun p => toLex (p.paused_at,p.facts.retry_generation)

/-- `ORDER BY paused_at DESC LIMIT 1` -/
def latestWorkflow (scan : Scan) (r : CollectionRun) : Option WorkflowPause :=
  (scan.order r.workflow_pauses).argmax (·.paused_at)

/-- `ORDER BY paused_at DESC, event_id DESC LIMIT 1` -/
def latestAcquisition (scan : Scan) (r : CollectionRun) : Option AcquisitionPause :=
  (scan.order r.acquisition_pauses).argmax fun p => toLex (p.paused_at,p.event_id)

/-- The newer of the capacity and the retry pause; a retry pause wins an equal timestamp. -/
def requestPause (capacity : Option CapacityPause) (retry : Option RetryPause) :
    Option CurrentPause :=
  match retry,capacity with
  | some p,none => some ⟨p.facts.pauseReason,p.paused_at⟩
  | some p,some c =>
    if c.paused_at≤p.paused_at then some ⟨p.facts.pauseReason,p.paused_at⟩
    else some ⟨.source_request_capacity_exhausted,c.paused_at⟩
  | none,some c => some ⟨.source_request_capacity_exhausted,c.paused_at⟩
  | none,none => none

def currentPause (scan : Scan) (r : CollectionRun) : Option CurrentPause :=
  let request := requestPause (r.latestCapacity scan) (r.latestRetry scan)
  let workflow := (r.latestWorkflow scan).map fun p =>
    (⟨.workflow p.facts.pause_reason,p.paused_at⟩ : CurrentPause)
  let acquisition := (r.latestAcquisition scan).map fun p =>
    (⟨.source_acquisition_budget_exhausted,p.paused_at⟩ : CurrentPause)
  let notAfter := fun (a : CurrentPause) (b : Option CurrentPause) =>
    b.all fun b => b.paused_at≤a.paused_at
  match acquisition.filter fun a => notAfter a request && notAfter a workflow with
  | some a => some a
  | none => match workflow.filter fun w => notAfter w request with
    | some w => some w
    | none => request

end CollectionRun

inductive CollectionAction where
  | pause | resume | extend_capacity | extend_acquisition_budget | terminate | retry
  deriving DecidableEq

def collectionActions (state : IngestionRunState) (pauseReason : Option PauseReason) :
    List CollectionAction :=
  if state=.paused then
    if pauseReason=some .source_acquisition_budget_exhausted then
      [.resume,.extend_acquisition_budget,.terminate]
    else if pauseReason=some .source_request_capacity_exhausted then
      [.resume,.extend_capacity,.terminate]
    else [.resume,.terminate]
  else if canTransitionIngestionRun state .paused {} then [.pause]
  else if isTerminalIngestionRunState state ∧ state≠.published then [.retry]
  else []

inductive TerminationProblem where
  | ingestion_run_not_paused
  | noRetainedPause
  | collection_termination_conflict

/-- `terminateEvidenceRun` of a key that no termination holds yet. The record comes first; the
transition needs it, and the table keeps one per run. -/
def terminateEvidenceRun (scan : Scan) (key : String) (terminatedAt : Nat) (r : CollectionRun) :
    Except TerminationProblem (Termination × CollectionRun) :=
  if r.state=.paused then
    match r.currentPause scan with
    | none => .error .noRetainedPause
    | some pause =>
      let row : Termination := ⟨pause.reason,pause.paused_at,terminatedAt,key⟩
      if r.termination=none ∧ pause.paused_at≤terminatedAt ∧ r.reserved then
        .ok (row,{ r with termination := some row, state := .failed })
      else .error .collection_termination_conflict
  else .error .ingestion_run_not_paused

end CardKeepr.SourceEvidence.Pauses
