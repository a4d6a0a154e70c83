import Mathlib.Data.List.Sort
import Mathlib.Data.List.Nodup

namespace CardKeepr.Export

/-- A key of the bucket, by its prefix. Revision identities hold no slash. -/
inductive ObjectKey where
  /-- `catalogue-exports/<revision>/<name>` -/
  | exported (revision name : String)
  /-- `catalogue-public-manifests/<revision>/<digest>.json` -/
  | manifest (revision digest : String)
  | other (key : String)
  deriving DecidableEq

def ObjectKey.text : ObjectKey → String
  | .exported revision name => "catalogue-exports/"++revision++"/"++name
  | .manifest revision digest => "catalogue-public-manifests/"++revision++"/"++digest++".json"
  | .other key => key

/-- The key lies under `catalogue-exports/<revision>/`. -/
def ObjectKey.under (revision : String) : ObjectKey → Bool
  | .exported r _ => decide (r=revision)
  | _ => false

/-- The revision whose export alone may own the key. -/
def ObjectKey.revision : ObjectKey → Option String
  | .exported r _ => some r
  | .manifest r _ => some r
  | .other _ => none

def isNativeExportPackage : ObjectKey → Bool
  | .manifest _ _ => true
  | _ => false

inductive MaintenanceState where
  | available | deleting | deleted
  deriving DecidableEq

structure ExportRow where
  catalogue_revision_id : String
  manifest_key : ObjectKey
  manifest_digest : String
  maintenance_state : MaintenanceState
  deletion_operation_id : Option String
  deleted_at : Option Nat

structure PlanRow where
  id : String
  catalogue_revision_id : String
  manifest_digest : String
  expected_current_revision_id : String
  object_keys : List ObjectKey
  object_set_digest : String
  plan_digest : String
  created_at : Nat
  expires_at : Nat

inductive DeletionState where
  | deleting | deleted | failed
  deriving DecidableEq

structure ConfirmCatalogueExportDeletion where
  plan_id : String
  plan_digest : String
  catalogue_revision_id : String
  manifest_digest : String
  expected_current_revision_id : String
  confirmation_revision_id : String
  deletion_id : String
  idempotency_key : String
  deriving DecidableEq

/-- The body of a retry. -/
structure RetryRequest where
  object_set_digest : String
  idempotency_key : String
  deriving DecidableEq

/-- `card-keepr-catalogue-export-deletion@1` -/
structure Document where
  id : String
  plan_id : String
  state : DeletionState
  catalogue_revision_id : String
  manifest_digest : String
  expected_current_revision_id : String
  object_set_digest : String
  idempotency_key : String
  requested_at : Nat
  completed_at : Option Nat
  failure_code : Option String
  deriving DecidableEq

structure DeletionRow where
  id : String
  plan_id : String
  state : DeletionState
  catalogue_revision_id : String
  manifest_digest : String
  expected_current_revision_id : String
  object_set_digest : String
  idempotency_key : String
  request : ConfirmCatalogueExportDeletion
  requested_at : Nat
  completed_at : Option Nat
  failure_code : Option String
  retry_owner_idempotency_key : Option String
  execution_owner_token : Option String
  execution_lease_expires_at : Option Nat
  confirmation_response : Option Document
  deriving DecidableEq

def deletionDocument (row : DeletionRow) : Document :=
  ⟨row.id,row.plan_id,row.state,row.catalogue_revision_id,row.manifest_digest,
    row.expected_current_revision_id,row.object_set_digest,row.idempotency_key,row.requested_at,
    row.completed_at,row.failure_code⟩

structure RetryRow where
  idempotency_key : String
  deletion_id : String
  object_set_digest : String
  request : RetryRequest
  response : Option Document
  created_at : Nat

structure Tombstone where
  catalogue_revision_id : String
  deletion_id : String
  manifest_digest : String
  object_set_digest : String
  deleted_at : Nat

/-- The rows of `catalogue_state` and `operation_state`. A release has an expiry with its id. -/
structure OperationState where
  current_revision_id : String
  active_ingestion_run_id : Option String
  active_production_release : Option (String × Nat)
  healthy : Bool

/-- A delete that was carried out, for a deletion, with what the bucket held then. -/
structure Removal where
  deletion : String
  key : ObjectKey
  held : List ObjectKey

/-- The tables and the bucket. `removals` and `marks` keep what was done: the deletes of objects,
and the revisions whose export was marked, each with the current revision of then. -/
structure Store where
  exports : List ExportRow
  plans : List PlanRow
  deletions : List DeletionRow
  retries : List RetryRow
  tombstones : List Tombstone
  operation : OperationState
  bucket : List ObjectKey
  removals : List Removal
  marks : List (String × String)

def PLAN_TTL_MS : Nat := 15*60*1000

def EXECUTION_LEASE_MS : Nat := 5*60*1000

def leaseExpiresAt (observedAt : Nat) : Nat := observedAt+EXECUTION_LEASE_MS

/-- No ingestion, no release that is still live, and recovery is healthy. -/
def OperationState.idle (o : OperationState) (observedAt : Nat) : Bool :=
  o.active_ingestion_run_id.isNone && o.healthy &&
    !(o.active_production_release.any fun r => decide (observedAt < r.2))

namespace Store

def exportRow (s : Store) (revision : String) : Option ExportRow :=
  s.exports.find? fun e => decide (e.catalogue_revision_id=revision)

def plan (s : Store) (id : String) : Option PlanRow := s.plans.find? fun p => decide (p.id=id)

def deletionById (s : Store) (id : String) : Option DeletionRow :=
  s.deletions.find? fun d => decide (d.id=id)

def deletionByKey (s : Store) (key : String) : Option DeletionRow :=
  s.deletions.find? fun d => decide (d.idempotency_key=key)

def retry (s : Store) (key : String) : Option RetryRow :=
  s.retries.find? fun r => decide (r.idempotency_key=key)

/-- `listObjectKeys` under the prefix of a revision, in UTF-8 order. -/
def listObjectKeys (s : Store) (revision : String) : List ObjectKey :=
  (s.bucket.filter (ObjectKey.under revision)).mergeSort fun a b => decide (a.text ≤ b.text)

def modify (s : Store) (p : DeletionRow → Bool) (f : DeletionRow → DeletionRow) : Store :=
  { s with deletions := s.deletions.map fun d => if p d then f d else d }

/-- The row that an owner acts on, as every guard names it. -/
def owned (id : String) (retryKey : Option String) (token : String) (d : DeletionRow) : Bool :=
  decide (d.id=id ∧ d.state=.deleting ∧ d.retry_owner_idempotency_key=retryKey ∧
    d.execution_owner_token=some token)

/-- `execution_lease_expires_at > ?` -/
def leaseAfter (observedAt : Nat) (d : DeletionRow) : Bool :=
  d.execution_lease_expires_at.any fun lease => decide (observedAt < lease)

/-- `catalogueExportDeletionPlanInsertStatement` -/
def insertPlan (s : Store) (plan : PlanRow) : Bool × Store :=
  if s.plans.any (fun p => decide (p.id=plan.id ∨ p.plan_digest=plan.plan_digest)) then (false,s)
  else (true,{ s with plans := s.plans++[plan] })

/-- `guardNewCatalogueExportDeletionStatement` -/
def guardNewDeletion (s : Store) (plan : PlanRow) (request : ConfirmCatalogueExportDeletion)
    (requestedAt : Nat) : Bool :=
  (s.plan plan.id).any (fun p => decide (p.catalogue_revision_id=plan.catalogue_revision_id ∧
    p.manifest_digest=plan.manifest_digest ∧
    p.expected_current_revision_id=plan.expected_current_revision_id ∧
    p.object_set_digest=plan.object_set_digest ∧ requestedAt < p.expires_at ∧
    request.plan_id=p.id ∧ request.plan_digest=p.plan_digest ∧
    request.catalogue_revision_id=p.catalogue_revision_id ∧
    request.manifest_digest=p.manifest_digest ∧
    request.expected_current_revision_id=p.expected_current_revision_id ∧
    request.confirmation_revision_id=p.catalogue_revision_id ∧
    p.catalogue_revision_id≠s.operation.current_revision_id ∧
    s.operation.current_revision_id=p.expected_current_revision_id) &&
    (s.exportRow p.catalogue_revision_id).any fun e =>
      decide (e.maintenance_state=.available ∧ e.manifest_digest=p.manifest_digest)) &&
  s.operation.idle requestedAt

/-- The new deletion and the mark of its export, in one batch. -/
def confirmDeletion (s : Store) (plan : PlanRow) (request : ConfirmCatalogueExportDeletion)
    (observedAt : Nat) (token : String) : Bool × Store :=
  let row : DeletionRow := ⟨request.deletion_id,plan.id,.deleting,plan.catalogue_revision_id,
    plan.manifest_digest,plan.expected_current_revision_id,plan.object_set_digest,
    request.idempotency_key,request,observedAt,none,none,none,some token,
    some (leaseExpiresAt observedAt),none⟩
  if s.guardNewDeletion plan request observedAt &&
      !s.deletions.any (fun d => decide (d.id=row.id ∨ d.plan_id=row.plan_id ∨
        d.idempotency_key=row.idempotency_key)) &&
      !s.exports.any (fun e => decide (e.catalogue_revision_id=plan.catalogue_revision_id ∧
        e.maintenance_state=.available ∧
        ¬(e.deletion_operation_id=none ∧ e.deleted_at=none))) then
    (true,{ s with
      deletions := s.deletions++[row]
      exports := s.exports.map fun e =>
        if e.catalogue_revision_id=plan.catalogue_revision_id ∧ e.maintenance_state=.available then
          { e with maintenance_state := .deleting, deletion_operation_id := some row.id }
        else e
      marks := (plan.catalogue_revision_id,s.operation.current_revision_id)::s.marks })
  else (false,s)

/-- `claimDeletionExecutionLease`: the lease is taken, or the batch is refused. -/
def claimLease (s : Store) (id : String) (retryKey : Option String) (token : String)
    (observedAt : Nat) : Bool × Store :=
  let t := s.modify (fun d => decide (d.id=id ∧ d.state=.deleting ∧
      d.retry_owner_idempotency_key=retryKey) &&
      (d.execution_owner_token.isNone ||
        d.execution_lease_expires_at.any fun lease => decide (lease ≤ observedAt)))
    fun d => { d with
      execution_owner_token := some token
      execution_lease_expires_at := some (leaseExpiresAt observedAt) }
  if t.deletions.any (owned id retryKey token) then (true,t) else (false,s)

/-- `renewDeletionExecutionLease` -/
def renewLease (s : Store) (id : String) (retryKey : Option String) (token : String)
    (observedAt : Nat) : Bool × Store :=
  let t := s.modify (fun d => owned id retryKey token d && leaseAfter observedAt d)
    fun d => { d with execution_lease_expires_at := some (leaseExpiresAt observedAt) }
  if t.deletions.any (fun d => owned id retryKey token d &&
      decide (d.execution_lease_expires_at=some (leaseExpiresAt observedAt))) then (true,t)
  else (false,s)

/-- `guardRetryingCatalogueExportDeletionStatement` on the row that is failed. -/
def guardRetrying (s : Store) (id : String) (request : RetryRequest) (createdAt : Nat) : Bool :=
  s.deletions.all fun d => !decide (d.id=id ∧ d.state=.failed) ||
    (s.plan d.plan_id).any fun p => decide (p.object_set_digest=d.object_set_digest ∧
      s.operation.current_revision_id=d.expected_current_revision_id ∧
      p.catalogue_revision_id≠s.operation.current_revision_id ∧
      request.object_set_digest=d.object_set_digest) && s.operation.idle createdAt

/-- The retry row, the deletion's new turn and its guard, in one batch. -/
def retryDeletion (s : Store) (id : String) (request : RetryRequest) (observedAt : Nat)
    (token : String) : Bool × Store :=
  let t := { s.modify (fun d => decide (d.id=id ∧ d.state=.failed)) fun d => { d with
      state := .deleting
      failure_code := none
      retry_owner_idempotency_key := some request.idempotency_key
      execution_owner_token := some token
      execution_lease_expires_at := some (leaseExpiresAt observedAt) } with
    retries := s.retries++[⟨request.idempotency_key,id,request.object_set_digest,request,none,
      observedAt⟩] }
  if !s.retries.any (fun r => decide (r.idempotency_key=request.idempotency_key)) &&
      s.deletions.any (fun d => decide (d.id=id)) && s.guardRetrying id request observedAt &&
      t.deletions.any (owned id (some request.idempotency_key) token) then (true,t)
  else (false,s)

/-- `persistCatalogueExportDeletionRetryResponseStatement` -/
def persistRetryResponse (s : Store) (key : String) (document : Document) : Store :=
  { s with retries := s.retries.map fun r =>
    if r.idempotency_key=key ∧ r.response=none then { r with response := some document } else r }

def persistResponseOf (s : Store) (retryKey : Option String) (document : Document) : Store :=
  match retryKey with
  | none => s
  | some key => s.persistRetryResponse key document

/-- `persistCatalogueExportDeletionRetryAcceptedResponseStatement` -/
def acceptRetry (s : Store) (key id : String) (document : Document) : Store :=
  { s with retries := s.retries.map fun r =>
    if r.idempotency_key=key ∧ r.deletion_id=id ∧ r.response=none then
      { r with response := some document }
    else r }

/-- `persistCatalogueExportDeletionAcceptedResponseStatement` with its guard. -/
def acceptConfirmation (s : Store) (id : String) (document : Document) : Bool × Store :=
  let open' (d : DeletionRow) : Bool :=
    decide (d.id=id ∧ d.state=.deleting ∧ d.confirmation_response=none)
  if s.deletions.any (fun d => open' d &&
      (d.execution_owner_token.isNone || d.execution_lease_expires_at.isNone)) then (false,s)
  else (true,s.modify open' fun d => { d with confirmation_response := some document })

/-- `markCatalogueExportDeletedStatement` -/
def markDeleted (s : Store) (revision id : String) (observedAt : Nat) : Store :=
  { s with exports := s.exports.map fun e =>
    if e.catalogue_revision_id=revision ∧ e.maintenance_state=.deleting ∧
        e.deletion_operation_id=some id then
      { e with maintenance_state := .deleted, deleted_at := some observedAt }
    else e }

/-- The last batch of an execution that found every object gone. -/
def completeDeletion (s : Store) (id : String) (plan : PlanRow) (retryKey : Option String)
    (token : String) (leaseObservedAt observedAt : Nat) (document : Document) : Bool × Store :=
  if s.deletions.any (fun d => owned id retryKey token d && leaseAfter leaseObservedAt d) &&
      !s.tombstones.any (fun m => decide (m.catalogue_revision_id=plan.catalogue_revision_id ∨
        m.deletion_id=id)) then
    let t := (s.modify (owned id retryKey token) fun d => { d with
      state := .deleted
      completed_at := some observedAt
      failure_code := none
      confirmation_response := some (d.confirmation_response.getD document) }).markDeleted
        plan.catalogue_revision_id id observedAt
    (true,({ t with tombstones := t.tombstones++[⟨plan.catalogue_revision_id,id,
      plan.manifest_digest,plan.object_set_digest,observedAt⟩] } : Store).persistResponseOf
        retryKey document)
  else (false,s)

/-- The last batch of an execution that did not. -/
def failDeletion (s : Store) (id : String) (retryKey : Option String) (token : String)
    (leaseObservedAt : Nat) (document : Document) : Bool × Store :=
  if s.deletions.any (fun d => owned id retryKey token d && leaseAfter leaseObservedAt d) then
    (true,(s.modify (owned id retryKey token) fun d => { d with
      state := .failed
      failure_code := some "deleted_object_set_mismatch"
      confirmation_response := some (d.confirmation_response.getD document) }).persistResponseOf
        retryKey document)
  else (false,s)

def delete (s : Store) (id : String) (key : ObjectKey) : Store :=
  { s with
    bucket := s.bucket.filter fun k => decide (k≠key)
    removals := ⟨id,key,s.bucket⟩::s.removals }

/-- `loadDeletionResponse` -/
def response (s : Store) (id : String) : Option String → Option Document
  | none => (s.deletionById id).bind (·.confirmation_response)
  | some key => (s.retries.find? fun r => decide (r.idempotency_key=key ∧ r.deletion_id=id)).bind
    (·.response)

/-- The rest of the system writes objects of revisions whose export is not recorded yet. -/
def upload (s : Store) (key : ObjectKey) : Store :=
  if s.exports.any (fun e => decide (key.revision=some e.catalogue_revision_id)) then s
  else { s with bucket := key::s.bucket.filter fun k => decide (k≠key) }

/-- A publication records the export of a new revision. -/
def publish (s : Store) (revision : String) (manifest_key : ObjectKey) (manifest_digest : String) :
    Store :=
  if s.exports.any (fun e => decide (e.catalogue_revision_id=revision ∨
      e.manifest_key=manifest_key)) then s
  else { s with exports := s.exports++[⟨revision,manifest_key,manifest_digest,.available,none,none⟩] }

end Store

end CardKeepr.Export
