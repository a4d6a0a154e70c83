import CardKeepr.Ingestion.Reservations
import CardKeepr.SourceEvidence.EvidencePlans
import Mathlib.Data.List.MinMax

namespace CardKeepr.Lib

abbrev Truth := Option Bool

namespace Truth
variable {α : Type}

def not (a : Truth) : Truth := a.map fun b => !b

def and : Truth → Truth → Truth
  | some false,_ => some false
  | _,some false => some false
  | some true,b => b
  | none,_ => none

section
variable [DecidableEq α]

/-- `a = b` -/
def equals : Option α → Option α → Truth
  | some a,some b => some (decide (a=b))
  | _,_ => none

/-- `a IN (SELECT …)` of a list without NULL. -/
def within (a : Option α) (l : List α) : Truth :=
  if l=[] then some false else a.map fun a => decide (a∈l)

@[simp] theorem equals_known (a b : α) : equals (some a) (some b)=some (decide (a=b)) := rfl

@[simp] theorem within_known (a : α) (l : List α) : within (some a) l=some (decide (a∈l)) := by
  cases l with
  | nil => simp [within]
  | cons b l => simp [within]

end

/-- What `WHERE` and `CASE WHEN` take. -/
def holds (a : Truth) : Bool := a.getD false

@[simp] theorem not_known (b : Bool) : not (some b)=some !b := rfl

@[simp] theorem and_known (a b : Bool) : and (some a) (some b)=some (a && b) := by
  cases a <;> cases b <;> rfl

@[simp] theorem holds_known (b : Bool) : holds (some b)=b := rfl

theorem holds_and (a b : Truth) : (a.and b).holds=(a.holds && b.holds) := by
  rcases a with _ | _ | _
  all_goals
    rcases b with _ | _ | _
    all_goals rfl

end Truth
end CardKeepr.Lib

namespace CardKeepr.SourceEvidence.Finalization
open Ingestion Ingestion.Reservations Lib
open Plans (redirectDiscoveredFailureCode toleratedPrintingImageFailureCodes)

-- The end of a collection (`finalizeEvidenceRun`): its verdict on the source requests, and the
-- batch that records it.

inductive SourceRequestState where
  | pending | captured | observed | failed
  deriving DecidableEq

inductive SourceRequestRole where
  | surface | listing | detail | product_detail | image
  deriving DecidableEq

/-- A row of `source_requests`. -/
structure SourceRequest where
  request_id : String
  sequence_number : Nat
  state : SourceRequestState
  failure_code : Option String
  request_role : SourceRequestRole
  /-- Both statements that fail a request write its code with the state. -/
  coded : state=.failed → failure_code.isSome=true

/-- The rows of one run, with the two keys of the table. -/
structure SourceRequests where
  rows : List SourceRequest
  keyed : (rows.map SourceRequest.request_id).Nodup
  numbered : (rows.map SourceRequest.sequence_number).Nodup

structure EvidencePlan where
  source_lineage : String
  /-- `participation` is `optional` -/
  optional : Bool
  /-- the `id` of each of its requests -/
  requests : List String

def redirectDiscoveryRoles : List SourceRequestRole := [.listing,.detail,.product_detail]

def toleratesRequestFailure (role : SourceRequestRole) (failureCode : Option String) : Bool :=
  if failureCode=some redirectDiscoveredFailureCode then redirectDiscoveryRoles.contains role
  else role=.image && failureCode.any toleratedPrintingImageFailureCodes.contains

def isOptionalSourceOutage (plan : EvidencePlan) (failureCode : Option String) : Bool :=
  plan.optional && (failureCode=some "source_request_rejected" ||
    failureCode=some "optional_source_unavailable")

/-- `none` where it throws. -/
def evidencePlanForRequest (plans : List EvidencePlan) (requestId : String) :
    Option EvidencePlan :=
  Plans.soleOwner (fun plan => plan.requests.contains requestId)
    (fun plan => plan.source_lineage=Plans.lineagePart requestId) plans

/-- `request_role = 'image' AND failure_code IN (SELECT value FROM json_each(?2))` -/
def toleratedImage (q : SourceRequest) : Truth :=
  (Truth.equals (some q.request_role) (some .image)).and
    (Truth.within q.failure_code toleratedPrintingImageFailureCodes)

/-- `request_role IN (SELECT value FROM json_each(?5)) AND failure_code = ?4` -/
def redirectDiscovered (q : SourceRequest) : Truth :=
  (Truth.within (some q.request_role) redirectDiscoveryRoles).and
    (Truth.equals q.failure_code (some redirectDiscoveredFailureCode))

/-- What the second query lists. -/
def reported (q : SourceRequest) : Bool :=
  (((Truth.equals (some q.state) (some .failed)).and (toleratedImage q).not).and
    (redirectDiscovered q).not).holds

/-- What the first query counts as failed. -/
def counted (optionalOutageIds : List String) (q : SourceRequest) : Bool :=
  ((((Truth.equals (some q.state) (some .failed)).and
      (Truth.within (some q.request_id) optionalOutageIds).not).and (toleratedImage q).not).and
    (redirectDiscovered q).not).holds

def active (q : SourceRequest) : Bool := q.state=.pending || q.state=.captured

/-- `ORDER BY sequence_number LIMIT 1` -/
def firstOf (p : SourceRequest → Bool) (requests : SourceRequests) : Option SourceRequest :=
  (requests.rows.filter p).argmin SourceRequest.sequence_number

inductive Verdict where
  /-- a failed request has no plan of its own -/
  | refused
  | waiting
  | failed (failureCode : String)
  | complete

/-- The identifiers bound as `?3`. -/
def optionalOutageIds (plans : List EvidencePlan) (requests : SourceRequests) :
    Option (List String) :=
  ((requests.rows.filter fun q => q.state=.failed).mapM fun q =>
    (evidencePlanForRequest plans q.request_id).map fun plan =>
      (q.request_id,isOptionalSourceOutage plan q.failure_code)).map fun rs =>
        (rs.filter Prod.snd).map Prod.fst

/-- What `finalizeEvidenceRun` reads before its batch. -/
def verdict (plans : List EvidencePlan) (requests : SourceRequests) : Verdict :=
  match optionalOutageIds plans requests with
  | none => .refused
  | some ids =>
    if requests.rows.any active then .waiting
    else if requests.rows.any (counted ids) then
      .failed (((firstOf reported requests).bind SourceRequest.failure_code).getD
        "source_evidence_failed")
    else .complete

/-- The columns of `ingestion_evidence_plans` that a collection ends with. -/
structure PlanFacts where
  collection_completed_at : Option String
  failure_code : Option String
  deriving DecidableEq

structure Collection where
  store : Store
  plan : PlanFacts

/-- `UPDATE ingestion_evidence_plans … WHERE collection_completed_at IS NULL` -/
def PlanFacts.complete (completedAt : String) (failureCode : Option String) (f : PlanFacts) :
    PlanFacts :=
  if f.collection_completed_at=none then ⟨some completedAt,failureCode⟩ else f

/-- The statements on the run and on `operation_state`; that on the plan stands beside them. -/
def failing (failureCode id : String) : List Statement :=
  [fail [.collecting] failureCode id,releaseRunLock id]

def finishing (id : String) : List Statement := [transition [.collecting] .parsing (fun run => run) id]

/-- A batch with the update of the plan. -/
def record (statements : List Statement) (completedAt : String) (failureCode : Option String)
    (c : Collection) : Collection :=
  match runStatements statements c.store with
  | none => c
  | some store => ⟨store,c.plan.complete completedAt failureCode⟩

/-- `finalizeEvidenceRun` of the run `id`: its separate queries are read from one snapshot, `requests`,
and its batch meets the rows of `c`. -/
def finalizeEvidenceRun (plans : List EvidencePlan) (requests : SourceRequests)
    (completedAt id : String) (c : Collection) : Collection :=
  -- `requiredEvidenceRun` throws
  if (c.store.runs id).isNone then c else
  match verdict plans requests with
  | .refused => c
  | .waiting => c
  | .failed code => record (failing code id) completedAt (some code) c
  | .complete => record (finishing id) completedAt none c

def tolerated (plans : List EvidencePlan) (q : SourceRequest) : Bool :=
  toleratesRequestFailure q.request_role q.failure_code ||
    (evidencePlanForRequest plans q.request_id).any fun plan =>
      isOptionalSourceOutage plan q.failure_code

def untolerated (plans : List EvidencePlan) (q : SourceRequest) : Bool :=
  q.state=.failed && !tolerated plans q

def Collection.stateOf (c : Collection) (id : String) : Option IngestionRunState :=
  (c.store.runs id).map Run.state

def Collection.failureOf (c : Collection) (id : String) : Option String :=
  (c.store.runs id).bind Run.failure_code

/-- The gate between the states before and after, with the run as the batch meets it. -/
structure Gate (plans : List EvidencePlan) (requests : SourceRequests) (id : String)
    (c c' : Collection) : Prop where
  waits : requests.rows.any active=true → c'=c
  fails : requests.rows.any active=false → c.stateOf id=some .collecting →
    (c'.stateOf id=some .failed ↔ requests.rows.any (untolerated plans)=true)
  names : requests.rows.any active=false → c.stateOf id=some .collecting →
    ∀q,firstOf (untolerated plans) requests=some q → c'.failureOf id=q.failure_code
  parses : requests.rows.any active=false → c.stateOf id=some .collecting →
    (c'.stateOf id=some .parsing ↔ requests.rows.any (untolerated plans)=false)
  spares : requests.rows.any active=false → c.stateOf id≠some .collecting → c'.plan=c.plan ∧
    c'.store.ingestion_collection_reservations=c.store.ingestion_collection_reservations ∧
    c'.store.active_ingestion_run_id=c.store.active_ingestion_run_id

end CardKeepr.SourceEvidence.Finalization
