import CardKeepr.Lib.Threads
import CardKeepr.Export.Deletions

namespace CardKeepr.Export

open Lib

/-- What becomes of a delete that is sent: an error may hide that it was done. -/
inductive Fate where
  | done | refused | unanswered
  deriving DecidableEq

/-- The atomic calls: statements, batches, bucket operations, and what the rest of the system does. -/
inductive Op where
  | exportRow (revision : String)
  | operationState
  | plan (id : String)
  | deletionById (id : String)
  | deletionByKey (key : String)
  | retry (key : String)
  | response (id : String) (retryKey : Option String)
  | head (key : ObjectKey) (answered : Bool)
  | list (revision : String) (answered : Bool)
  /-- The deletion is named for the record only. -/
  | delete (id : String) (key : ObjectKey) (fate : Fate)
  | insertPlan (plan : PlanRow)
  | confirmDeletion (plan : PlanRow) (request : ConfirmCatalogueExportDeletion) (observedAt : Nat)
    (token : String)
  | claimLease (id : String) (retryKey : Option String) (token : String) (observedAt : Nat)
  | renewLease (id : String) (retryKey : Option String) (token : String) (observedAt : Nat)
  | retryDeletion (id : String) (request : RetryRequest) (observedAt : Nat) (token : String)
  | persistRetryResponse (key : String) (document : Document)
  | acceptRetry (key id : String) (document : Document)
  | acceptConfirmation (id : String) (document : Document)
  | completeDeletion (id : String) (plan : PlanRow) (retryKey : Option String) (token : String)
    (leaseObservedAt observedAt : Nat) (document : Document)
  | failDeletion (id : String) (retryKey : Option String) (token : String) (leaseObservedAt : Nat)
    (document : Document)
  | upload (key : ObjectKey)
  | publish (revision : String) (manifest_key : ObjectKey) (manifest_digest : String)
  | operate (o : OperationState)

def Op.Ans : Op → Type
  | .exportRow _ => Option ExportRow
  | .operationState => OperationState
  | .plan _ => Option PlanRow
  | .deletionById _ | .deletionByKey _ => Option DeletionRow
  | .retry _ => Option RetryRow
  | .response _ _ => Option Document
  | .head _ _ => Option Bool
  | .list _ _ => Option (List ObjectKey)
  | .delete _ _ _ | .insertPlan _ | .confirmDeletion _ _ _ _ | .claimLease _ _ _ _
  | .renewLease _ _ _ _ | .retryDeletion _ _ _ _ | .acceptConfirmation _ _
  | .completeDeletion _ _ _ _ _ _ _ | .failDeletion _ _ _ _ _ => Bool
  | .persistRetryResponse _ _ | .acceptRetry _ _ _ | .upload _ | .publish _ _ _ | .operate _ => Unit

def handle (_ : Nat) : (op : Op) → Store → op.Ans × Store
  | .exportRow revision,s => (s.exportRow revision,s)
  | .operationState,s => (s.operation,s)
  | .plan id,s => (s.plan id,s)
  | .deletionById id,s => (s.deletionById id,s)
  | .deletionByKey key,s => (s.deletionByKey key,s)
  | .retry key,s => (s.retry key,s)
  | .response id retryKey,s => (s.response id retryKey,s)
  | .head key answered,s => (if answered then some (decide (key∈s.bucket)) else none,s)
  | .list revision answered,s => (if answered then some (s.listObjectKeys revision) else none,s)
  | .delete id key fate,s => (decide (fate=.done),if fate=.refused then s else s.delete id key)
  | .insertPlan plan,s => s.insertPlan plan
  | .confirmDeletion plan request at' token,s => s.confirmDeletion plan request at' token
  | .claimLease id retryKey token at',s => s.claimLease id retryKey token at'
  | .renewLease id retryKey token at',s => s.renewLease id retryKey token at'
  | .retryDeletion id request at' token,s => s.retryDeletion id request at' token
  | .persistRetryResponse key document,s => ((),s.persistRetryResponse key document)
  | .acceptRetry key id document,s => ((),s.acceptRetry key id document)
  | .acceptConfirmation id document,s => s.acceptConfirmation id document
  | .completeDeletion id plan retryKey token leaseAt at' document,s =>
    s.completeDeletion id plan retryKey token leaseAt at' document
  | .failDeletion id retryKey token leaseAt document,s =>
    s.failDeletion id retryKey token leaseAt document
  | .upload key,s => ((),s.upload key)
  | .publish revision key digest,s => ((),s.publish revision key digest)
  | .operate o,s => ((),{ s with operation := o })

inductive Problem where
  | problem (status : Nat) (code : String)
  | leaseLost
  | error (text : String)

abbrev Program (α : Type) := Prog Op Op.Ans Empty Problem α

def perform (op : Op) : Program op.Ans := .call op .ret

def throw' {α : Type} (e : Problem) : Program α := .fail e

/-- The value, or a problem where there is none. -/
def required {α : Type} (e : Problem) : Option α → Program α
  | some a => .ret a
  | none => .fail e

def insist (e : Problem) (holds : Bool) : Program Unit := if holds then .ret () else .fail e

/-- What the retained evidence of an export shows: whether its documents and digests check out and
the components its manifest binds. -/
structure Evidence where
  verified : Bool
  components : List String
  answered : Bool

def unsafeScope : Problem := .problem 409 "unsafe_export_object_scope"

def nativeExportDeletionScope (e : ExportRow) (v : Evidence) : Program (List ObjectKey) := do
  insist unsafeScope (v.verified &&
    decide (e.manifest_key=.manifest e.catalogue_revision_id e.manifest_digest))
  let manifest : Option Bool ← perform (.head e.manifest_key v.answered)
  insist unsafeScope (decide (manifest=some true))
  pure [e.manifest_key]

/-- The components of a manifest and the manifest itself. -/
def expectedObjects (e : ExportRow) (v : Evidence) : List ObjectKey :=
  (v.components.map (fun digest =>
      ObjectKey.exported e.catalogue_revision_id ("components/"++digest++".ndjson.gz"))++
    [e.manifest_key]).eraseDups.mergeSort fun a b => decide (a.text ≤ b.text)

def verifiedExportObjects (e : ExportRow) (v : Evidence) : Program (List ObjectKey) :=
  if isNativeExportPackage e.manifest_key then nativeExportDeletionScope e v
  else do
    let manifest : Option Bool ← perform (.head e.manifest_key v.answered)
    insist unsafeScope (decide (manifest=some true) && v.verified)
    let actual : Option (List ObjectKey) ← perform (.list e.catalogue_revision_id v.answered)
    let expected := expectedObjects e v
    insist unsafeScope (decide (actual=some expected) &&
      expected.all (ObjectKey.under e.catalogue_revision_id))
    pure expected

structure PrepareCatalogueExportDeletion where
  catalogue_revision_id : String
  manifest_digest : String
  expected_current_revision_id : String
  plan_id : String

section

-- The digests of an object set and of the fields of a plan.
variable (digest : List ObjectKey → String) (planDigest : PlanRow → String)

def prepareCatalogueExportDeletion (request : PrepareCatalogueExportDeletion) (observedAt : Nat)
    (v : Evidence) : Program PlanRow := do
  let row : Option ExportRow ← perform (.exportRow request.catalogue_revision_id)
  let e ← required (.problem 404 "catalogue_export_not_found") row
  insist (.problem 409 "catalogue_export_not_available") (e.maintenance_state=.available)
  insist (.problem 409 "manifest_digest_mismatch") (e.manifest_digest=request.manifest_digest)
  let o : OperationState ← perform .operationState
  insist (.problem 409 "current_revision_mismatch")
    (o.current_revision_id=request.expected_current_revision_id)
  let prior : Option PlanRow ← perform (.plan request.plan_id)
  insist (.problem 409 "identity_conflict") prior.isNone
  let objectKeys ← verifiedExportObjects e v
  let core : PlanRow := ⟨request.plan_id,request.catalogue_revision_id,request.manifest_digest,
    o.current_revision_id,objectKeys,digest objectKeys,"",observedAt,observedAt+PLAN_TTL_MS⟩
  let plan := { core with plan_digest := planDigest core }
  let inserted : Bool ← perform (.insertPlan plan)
  insist (.error "catalogue_export_deletion_plans") inserted
  pure plan

end

def REPLAY_RESPONSE_QUERY_BUDGET : Nat := 8

/-- The response, once it is there, in a number of queries. -/
def awaitResponse (id : String) (retryKey : Option String) : Nat → Program (Option Document)
  | 0 => pure none
  | n+1 => do
    let response : Option Document ← perform (.response id retryKey)
    match response with
    | some document => pure (some document)
    | none => awaitResponse id retryKey n

/-- What stands in for a response that does not come. -/
def persistAccepted (id : String) (document : Document) : Option String → Program Unit
  | none => do
    let recorded : Bool ← perform (.acceptConfirmation id document)
    insist (.error "catalogue_export_deletion_transition_invalid") recorded
  | some key => perform (.acceptRetry key id document)

def acceptResponse (id : String) (retryKey : Option String) : Program Document := do
  let row : Option DeletionRow ← perform (.deletionById id)
  let operation ← required (.error "Catalogue Export deletion evidence is unavailable") row
  persistAccepted id (deletionDocument operation) retryKey
  let retained : Option Document ← perform (.response id retryKey)
  required (.error "Catalogue Export deletion response evidence is unavailable") retained

def waitForDeletionResponse (id : String) (retryKey : Option String) : Program Document := do
  let response ← awaitResponse id retryKey (REPLAY_RESPONSE_QUERY_BUDGET-1)
  match response with
  | some document => pure document
  | none => acceptResponse id retryKey

/-- What an execution meets: the readings of its clock and the answers of the bucket. -/
structure Weather where
  removing : Nat → Nat
  deleting : Nat → Nat
  verifying : Nat → Nat
  listing : Nat
  terminal : Nat
  failing : Nat
  heads : Nat → Bool
  deletes : Nat → Fate
  verifications : Nat → Bool
  lists : Bool

structure Execution where
  id : String
  plan : PlanRow
  manifestKey : ObjectKey
  observedAt : Nat
  retryKey : Option String
  token : String

def Execution.renew (x : Execution) (now : Nat) : Program Bool :=
  perform (.renewLease x.id x.retryKey x.token now)

def Execution.renewed (x : Execution) (now : Nat) : Program Unit := do
  let ok ← x.renew now
  insist .leaseLost ok

def Execution.ordered (x : Execution) : List ObjectKey :=
  x.plan.object_keys.filter (fun key => decide (key≠x.manifestKey))++[x.manifestKey]

def headObject (key : ObjectKey) (answered : Bool) : Program Bool := do
  let present : Option Bool ← perform (.head key answered)
  required (.error "head") present

def removePresent (x : Execution) (w : Weather) (key : ObjectKey) (n : Nat) (present : Bool) :
    Program Unit :=
  if present then do
    x.renewed (w.deleting n)
    let removed : Bool ← perform (.delete x.id key (w.deletes n))
    insist (.error "delete") removed
  else pure ()

def removeObjects (x : Execution) (w : Weather) : List ObjectKey → Nat → Program Unit
  | [],_ => pure ()
  | key::keys,n => do
    x.renewed (w.removing n)
    let present ← headObject key (w.heads n)
    removePresent x w key n present
    removeObjects x w keys (n+1)

/-- Whether some object is still there. -/
def remainingObjects (x : Execution) (w : Weather) : List ObjectKey → Nat → Program Bool
  | [],_ => pure false
  | key::keys,n => do
    x.renewed (w.verifying n)
    let present ← headObject key (w.verifications n)
    let rest ← remainingObjects x w keys (n+1)
    pure (present || rest)

def remainingPrefix (x : Execution) (w : Weather) : Program (List ObjectKey) :=
  if isNativeExportPackage x.manifestKey then pure []
  else do
    x.renewed w.listing
    let keys : Option (List ObjectKey) ← perform (.list x.plan.catalogue_revision_id w.lists)
    required (.error "list") keys

/-- The body of the `try`. -/
def attemptDeletion (x : Execution) (w : Weather) (operation : DeletionRow) : Program Unit := do
  removeObjects x w x.ordered 0
  let remaining ← remainingObjects x w x.plan.object_keys 0
  let listed ← remainingPrefix x w
  insist (.error "A bound Catalogue Export object remains present.") (!remaining && listed.isEmpty)
  x.renewed w.terminal
  let completed : Bool ← perform (.completeDeletion x.id x.plan x.retryKey x.token w.terminal x.observedAt
    (deletionDocument { operation with
      state := .deleted, completed_at := some x.observedAt, failure_code := none }))
  insist (.error "guard") completed

def finalResponse (x : Execution) : Program Document := do
  let response : Option Document ← perform (.response x.id x.retryKey)
  match response with
  | some document => pure document
  | none => do
    let row : Option DeletionRow ← perform (.deletionById x.id)
    let current ← required (.problem 404 "export_deletion_not_found") row
    pure (deletionDocument current)

def recordFailure (x : Execution) (w : Weather) (operation : DeletionRow) : Program Document := do
  let recorded : Bool ← perform (.failDeletion x.id x.retryKey x.token w.failing
    (deletionDocument { operation with
      state := .failed
      completed_at := none
      failure_code := some "deleted_object_set_mismatch" }))
  if recorded then finalResponse x
  else do
    let reconciled : Option Document ← perform (.response x.id x.retryKey)
    insist (.error "guard") reconciled.isSome
    finalResponse x

def settleDeletion (x : Execution) (w : Weather) (operation : DeletionRow) :
    Except Problem Unit → Program Document
  | .ok _ => finalResponse x
  | .error .leaseLost => waitForDeletionResponse x.id x.retryKey
  | .error _ => do
    let ok ← x.renew w.failing
    if ok then recordFailure x w operation else waitForDeletionResponse x.id x.retryKey

def executeDeletion (x : Execution) (w : Weather) : Program Document := do
  let row : Option DeletionRow ← perform (.deletionById x.id)
  let operation ← required (.error "Catalogue Export deletion evidence is unavailable") row
  let outcome ← (attemptDeletion x w operation).settled
  settleDeletion x w operation outcome

/-- `executeDeletion` with the key of the manifest that it removes last. -/
def executeWithManifest (id : String) (plan : PlanRow) (observedAt : Nat) (retryKey : Option String)
    (token : String) (w : Weather) : Program Document := do
  let row : Option ExportRow ← perform (.exportRow plan.catalogue_revision_id)
  let e ← required (.error "Catalogue Export evidence is unavailable") row
  executeDeletion ⟨id,plan,e.manifest_key,observedAt,retryKey,token⟩ w

def assertMaintenanceIdle (expected : String) (observedAt : Nat) : Program Unit := do
  let o : OperationState ← perform .operationState
  insist (.problem 409 "current_revision_mismatch") (o.current_revision_id=expected)
  insist (.problem 409 "maintenance_not_idle") (o.idle observedAt)

def assertMutationGuards (plan : PlanRow) (confirmation : String) (observedAt : Nat) :
    Program Unit := do
  insist (.problem 409 "confirmation_required") (confirmation=plan.catalogue_revision_id)
  insist (.problem 409 "current_export_required")
    (plan.catalogue_revision_id≠plan.expected_current_revision_id)
  assertMaintenanceIdle plan.expected_current_revision_id observedAt

/-- A confirmation whose key is known. -/
def replayConfirmation (replay : DeletionRow) (request : ConfirmCatalogueExportDeletion)
    (observedAt : Nat) (token : String) (w : Weather) : Program Document :=
  if replay.request≠request then throw' (.problem 409 "idempotency_key_reused")
  else match replay.confirmation_response with
    | some document => pure document
    | none =>
      if replay.state=.deleting then do
        let claimed : Bool ← perform (.claimLease replay.id none token observedAt)
        if claimed then do
          let row : Option PlanRow ← perform (.plan replay.plan_id)
          let plan ← required (.error "Deletion plan evidence is unavailable") row
          executeWithManifest replay.id plan observedAt none token w
        else waitForDeletionResponse replay.id none
      else throw' (.error "Confirmation replay evidence is unavailable")

/-- The object set as it is now. -/
def exactObjects (e : ExportRow) (v : Evidence) : Program (List ObjectKey) :=
  if isNativeExportPackage e.manifest_key then verifiedExportObjects e v
  else do
    let keys : Option (List ObjectKey) ← perform (.list e.catalogue_revision_id v.answered)
    required (.error "list") keys

/-- Another confirmation came first, or the guard refused this one. -/
def concurrentConfirmation (request : ConfirmCatalogueExportDeletion) : Program Document := do
  let row : Option DeletionRow ← perform (.deletionByKey request.idempotency_key)
  let concurrent ← required (.error "catalogue_export_deletion_guard_failed") row
  insist (.error "catalogue_export_deletion_guard_failed") (concurrent.request=request)
  match concurrent.confirmation_response with
  | some document => pure document
  | none => waitForDeletionResponse request.deletion_id none

section

variable (digest : List ObjectKey → String)

def newConfirmation (request : ConfirmCatalogueExportDeletion) (observedAt : Nat) (token : String)
    (v : Evidence) (w : Weather) : Program Document := do
  let row : Option PlanRow ← perform (.plan request.plan_id)
  let plan ← required (.problem 404 "deletion_plan_not_found") row
  insist (.problem 409 "deletion_plan_expired") (observedAt < plan.expires_at)
  insist (.problem 409 "deletion_plan_mismatch") (request.plan_digest=plan.plan_digest &&
    request.catalogue_revision_id=plan.catalogue_revision_id &&
    request.manifest_digest=plan.manifest_digest &&
    request.expected_current_revision_id=plan.expected_current_revision_id)
  assertMutationGuards plan request.confirmation_revision_id observedAt
  let export? : Option ExportRow ← perform (.exportRow plan.catalogue_revision_id)
  let e ← required (.problem 409 "catalogue_export_changed") export?
  insist (.problem 409 "catalogue_export_changed") (e.maintenance_state=.available &&
    e.manifest_digest=plan.manifest_digest)
  let keys ← exactObjects e v
  insist (.problem 409 "catalogue_export_changed") (digest keys=plan.object_set_digest)
  let existing : Option DeletionRow ← perform (.deletionById request.deletion_id)
  insist (.problem 409 "identity_conflict") existing.isNone
  let inserted : Bool ← perform (.confirmDeletion plan request observedAt token)
  if inserted then
    executeDeletion ⟨request.deletion_id,plan,e.manifest_key,observedAt,none,token⟩ w
  else concurrentConfirmation request

def confirmCatalogueExportDeletion (request : ConfirmCatalogueExportDeletion) (observedAt : Nat)
    (token : String) (v : Evidence) (w : Weather) : Program Document := do
  let replay : Option DeletionRow ← perform (.deletionByKey request.idempotency_key)
  match replay with
  | some row => replayConfirmation row request observedAt token w
  | none => newConfirmation digest request observedAt token v w

end

/-- Another retry came first, or the guard refused this one. -/
def concurrentRetry (id : String) (request : RetryRequest) : Program Document := do
  let row : Option RetryRow ← perform (.retry request.idempotency_key)
  let concurrent ← required (.problem 409 "export_deletion_not_failed") row
  insist (.problem 409 "export_deletion_not_failed") (concurrent.request=request)
  match concurrent.response with
  | some document => pure document
  | none => waitForDeletionResponse id (some request.idempotency_key)

/-- A retry whose key is known and has no response yet. -/
def replayRetry (row : DeletionRow) (request : RetryRequest) (observedAt : Nat) (token : String)
    (w : Weather) : Program Document :=
  if row.state≠.deleting then do
    perform (.persistRetryResponse request.idempotency_key (deletionDocument row))
    pure (deletionDocument row)
  else do
    insist (.problem 409 "export_deletion_not_failed")
      (row.retry_owner_idempotency_key=some request.idempotency_key)
    insist (.problem 409 "deleted_object_set_mismatch")
      (row.object_set_digest=request.object_set_digest)
    let claimed : Bool ← perform (.claimLease row.id (some request.idempotency_key) token observedAt)
    if claimed then do
      let plan? : Option PlanRow ← perform (.plan row.plan_id)
      let plan ← required (.error "Deletion plan evidence is unavailable") plan?
      assertMaintenanceIdle plan.expected_current_revision_id observedAt
      executeWithManifest row.id plan observedAt (some request.idempotency_key) token w
    else waitForDeletionResponse row.id (some request.idempotency_key)

def newRetry (row : DeletionRow) (request : RetryRequest) (observedAt : Nat) (token : String)
    (w : Weather) : Program Document := do
  insist (.problem 409 "export_deletion_not_failed") (row.state=.failed)
  insist (.problem 409 "deleted_object_set_mismatch")
    (row.object_set_digest=request.object_set_digest)
  let plan? : Option PlanRow ← perform (.plan row.plan_id)
  let plan ← required (.error "Deletion plan evidence is unavailable") plan?
  assertMaintenanceIdle plan.expected_current_revision_id observedAt
  let inserted : Bool ← perform (.retryDeletion row.id request observedAt token)
  if inserted then
    executeWithManifest row.id plan observedAt (some request.idempotency_key) token w
  else concurrentRetry row.id request

/-- The deletion that a retry names. -/
def retriedDeletion (id : String) : Program DeletionRow := do
  let row : Option DeletionRow ← perform (.deletionById id)
  required (.problem 404 "export_deletion_not_found") row

def retryCatalogueExportDeletion (id : String) (request : RetryRequest) (observedAt : Nat)
    (token : String) (w : Weather) : Program Document := do
  let replay : Option RetryRow ← perform (.retry request.idempotency_key)
  match replay with
  | none => do
    let row ← retriedDeletion id
    newRetry row request observedAt token w
  | some prior =>
    if prior.deletion_id≠id ∨ prior.request≠request then
      throw' (.problem 409 "idempotency_key_reused")
    else match prior.response with
      | some document => pure document
      | none => do
        let row ← retriedDeletion id
        replayRetry row request observedAt token w

end CardKeepr.Export
