import CardKeepr.Lib.Fallible
import CardKeepr.Lib.Program
import CardKeepr.Shared.CanonicalJson
import CardKeepr.Shared.IsoTime
import CardKeepr.Shared.Sha256

namespace CardKeepr.SourceEvidence

open Lib Shared

structure AcquisitionBudget where
  max_dispatches : Nat
  max_source_bytes : Nat
  dispatch_deadline : DateTime
  deriving DecidableEq

/-- No limit of `a` is above that of `b`, and its deadline is not later. -/
structure AcquisitionBudget.Within (a b : AcquisitionBudget) : Prop where
  dispatches : a.max_dispatches ≤ b.max_dispatches
  bytes : a.max_source_bytes ≤ b.max_source_bytes
  deadline : a.dispatch_deadline.rank ≤ b.dispatch_deadline.rank

/-- `ingestion_acquisition_accounts`, the columns that are counted. -/
structure Account where
  baseline_source_bytes : Nat
  charged_dispatches : Nat
  charged_source_bytes : Nat
  reserved_source_bytes : Nat

/-- The response that an accepted extension retains. -/
structure Extension where
  previous_generation : Nat
  generation : Nat
  previous_budget : Option AcquisitionBudget
  acquisition_budget : AcquisitionBudget
  extended_at : DateTime
  deriving DecidableEq

/-- `ingestion_acquisition_policies`; the first policy of a new run retains no response. -/
structure Policy where
  ingestion_run_id : JsString
  generation : Nat
  budget : AcquisitionBudget
  idempotency_key : JsString
  request_digest : JsString
  response : Option Extension
  deriving DecidableEq

/-- `source_dispatch_reservations`; `settled` holds the charged bytes once `settled_at` is set. -/
structure Reservation where
  id : JsString
  ingestion_run_id : JsString
  request_id : JsString
  capture_operation_id : JsString
  content_object_key : JsString
  parent_workflow_id : Option JsString
  workflow_instance_id : Option JsString
  budget_generation : Nat
  maximum_source_bytes : Nat
  reserved_at : DateTime
  settled : Option Nat

/-- `evidence_object_writers`. -/
structure Writer where
  token : JsString
  ingestion_run_id : JsString
  object_key : JsString
  completed : Bool

/-- The columns of `source_capture_operations` that admission reads. -/
structure Capture where
  attempt_id : JsString
  ingestion_run_id : JsString
  request_id : JsString
  content_object_key : JsString
  planned : Bool

inductive Dimension where
  | dispatches | source_bytes | deadline | policy_missing | ownership

/-- `ingestion_acquisition_pauses`. -/
structure Pause where
  ingestion_run_id : JsString
  generation : Option Nat
  request_id : JsString
  maximum_source_bytes : Nat
  dimension : Dimension

inductive RunState where
  | collecting | paused | other
  deriving DecidableEq

structure Ledger where
  accounts : JsString → Option Account
  policies : List Policy
  reservations : List Reservation
  writers : List Writer
  captures : List Capture
  pauses : List Pause
  state : JsString → RunState

namespace Ledger

def empty : Ledger := ⟨fun _ => none,[],[],[],[],[],fun _ => .other⟩

/-- The policy of greatest generation. -/
def latestOf : List Policy → Option Policy
  | [] => none
  | p::ps => match latestOf ps with
    | none => some p
    | some q => if q.generation < p.generation then some p else some q

def latest (s : Ledger) (run : JsString) : Option Policy :=
  latestOf (s.policies.filter fun p => p.ingestion_run_id=run)

/-- `acquisitionAccount`: the account of a run beside its latest policy. -/
def account (s : Ledger) (run : JsString) : Option (Account × Policy) := do
  return (←s.accounts run,←s.latest run)

def setAccount (s : Ledger) (run : JsString) (a : Account) : Ledger :=
  { s with accounts := fun r => if r=run then some a else s.accounts r }

end Ledger

/-- What the rest of the database and the clock answer in one invocation. -/
structure Circumstances where
  now : DateTime
  /-- the integrity guard of the run's projection -/
  intact : Bool
  /-- the tables beside the account that `acquisitionInitializationGuard` reads -/
  quiescent : Bool
  /-- `sourceParseAuthorityGuard` and the fences on the tables that are written -/
  authorized : Bool
  /-- `julianday(dispatch_deadline)>julianday('now')` where the batch runs -/
  ahead : DateTime → Bool

inductive Failure where
  | problem (status : Nat) (code : String)
  | database (text : String)

def constraintFailed : Failure := .database "constraint failed"

def guardStatement (ok : Bool) (text : String) : Except Failure Unit :=
  if ok then .ok () else .error (.database text)

def initialAcquisitionAccount (run : JsString) (baseline : Nat) (s : Ledger) : Except Failure Ledger :=
  if (s.accounts run).isSome ∨ baseline > maxSafeInteger then .error constraintFailed
  else .ok (s.setAccount run ⟨baseline,0,baseline,0⟩)

/-- The table's keys and checks hold for the row. -/
def policyAdmitted (s : Ledger) (p : Policy) : Bool :=
  (s.accounts p.ingestion_run_id).isSome && decide (0 < p.generation) &&
  decide (1 ≤ p.budget.max_dispatches ∧ p.budget.max_dispatches ≤ maxSafeInteger) &&
  decide (1 ≤ p.budget.max_source_bytes ∧ p.budget.max_source_bytes ≤ maxSafeInteger) &&
  s.policies.all fun q => q.idempotency_key≠p.idempotency_key &&
    (q.ingestion_run_id≠p.ingestion_run_id || q.generation≠p.generation)

def insertAcquisitionPolicy (p : Policy) (s : Ledger) : Except Failure Ledger :=
  if policyAdmitted s p then .ok { s with policies := p::s.policies } else .error constraintFailed

/-- The account of a run and its first policy. -/
def initializeStatements (c : Circumstances) (baseline : Nat) (p : Policy) (s : Ledger) :
    Except Failure (Unit × Ledger) := do
  guardStatement c.authorized "fenced"
  let s ← initialAcquisitionAccount p.ingestion_run_id baseline s
  let s ← insertAcquisitionPolicy p s
  return ((),s)

/-- A legacy run is initialized under the guards of `extendAcquisitionBudget`, a new run without. -/
def initializeBatch (c : Circumstances) (legacy : Bool) (baseline : Nat) (p : Policy) (s : Ledger) :
    Except Failure (Unit × Ledger) :=
  if legacy then do
    guardStatement c.intact "ingestion_run_projection_mismatch"
    guardStatement (c.quiescent && (s.accounts p.ingestion_run_id).isNone)
      "acquisition_initialization_not_quiescent"
    initializeStatements c baseline p s
  else initializeStatements c baseline p s

/-- `acquisitionExtensionGuard`. -/
def extensionGuard (s : Ledger) (run : JsString) (generation : Nat) : Bool :=
  decide (s.state run=.paused) &&
    decide ((s.latest run).map Policy.generation=some generation)

def extendBatch (c : Circumstances) (generation : Nat) (p : Policy) (s : Ledger) :
    Except Failure (Unit × Ledger) := do
  guardStatement c.intact "ingestion_run_projection_mismatch"
  guardStatement (extensionGuard s p.ingestion_run_id generation) "acquisition_extension_conflict"
  guardStatement c.authorized "fenced"
  let s ← insertAcquisitionPolicy p s
  return ((),s)

structure DispatchInput where
  id : JsString
  runId : JsString
  requestId : JsString
  captureId : JsString
  objectKey : JsString
  parentId : Option JsString
  instanceId : Option JsString
  maximumBytes : Nat

/-- The rows `INSERT … SELECT` of `reserveSourceDispatch` finds: one or none. -/
def reservationOf (c : Circumstances) (input : DispatchInput) (s : Ledger) : Option Reservation := do
  let account ← s.accounts input.runId
  let policy ← s.latest input.runId
  if c.ahead policy.budget.dispatch_deadline ∧ account.charged_dispatches < policy.budget.max_dispatches ∧
      input.maximumBytes+account.charged_source_bytes+account.reserved_source_bytes ≤
        policy.budget.max_source_bytes ∧
      ¬(∃r∈s.reservations,r.capture_operation_id=input.captureId ∧ r.settled=none) ∧
      ¬(∃w∈s.writers,w.object_key=input.objectKey ∧ w.completed=false) ∧
      (∃o∈s.captures,o.attempt_id=input.captureId ∧ o.ingestion_run_id=input.runId ∧
        o.request_id=input.requestId ∧ o.planned=true) then
    return ⟨input.id,input.runId,input.requestId,input.captureId,input.objectKey,input.parentId,
      input.instanceId,policy.generation,input.maximumBytes,c.now,none⟩
  else none

/-- The insert itself; its number of rows is what `changes()` sees. -/
def insertReservation (r : Option Reservation) (s : Ledger) : Except Failure (Nat × Ledger) :=
  match r with
  | none => .ok (0,s)
  | some r =>
    if (∃q∈s.reservations,q.id=r.id) ∨ r.maximum_source_bytes=0 then .error constraintFailed
    else .ok (1,{ s with reservations := r::s.reservations })

/-- An update of the counters, within the checks of their columns. -/
def updateAccount (run : JsString) (f : Account → Option Account) (s : Ledger) :
    Except Failure Ledger :=
  match s.accounts run with
  | none => .ok s
  | some a => match f a with
    | none => .error constraintFailed
    | some b =>
      if b.charged_dispatches ≤ maxSafeInteger ∧ b.charged_source_bytes ≤ maxSafeInteger ∧
        b.reserved_source_bytes ≤ maxSafeInteger then .ok (s.setAccount run b)
      else .error constraintFailed

/-- The writer of the reservation with this id, if there is one. -/
def insertWriters (id : JsString) (s : Ledger) : Except Failure Ledger :=
  match s.reservations.find? fun r => r.id=id with
  | none => .ok s
  | some r =>
    if ∃w∈s.writers,w.token=r.id then .error constraintFailed
    else .ok { s with writers := ⟨r.id,r.ingestion_run_id,r.content_object_key,false⟩::s.writers }

def chargeDispatch (changes : Nat) (input : DispatchInput) (s : Ledger) : Except Failure Ledger :=
  if changes > 0 then updateAccount input.runId (fun a => some { a with
    charged_dispatches := a.charged_dispatches+1,
    reserved_source_bytes := a.reserved_source_bytes+input.maximumBytes }) s
  else .ok s

def reserveSourceDispatch (c : Circumstances) (input : DispatchInput) (s : Ledger) :
    Except Failure (Nat × Ledger) := do
  guardStatement c.authorized "source_parse_authority"
  let inserted ← insertReservation (reservationOf c input s) s
  let s ← chargeDispatch inserted.1 input inserted.2
  let s ← insertWriters input.id s
  return (inserted.1,s)

def settles (id capture : JsString) (bytes : Nat) (r : Reservation) : Bool :=
  decide (r.id=id ∧ r.capture_operation_id=capture ∧ r.settled=none ∧ bytes ≤ r.maximum_source_bytes)

def settleReservations (id capture : JsString) (bytes : Nat) (rs : List Reservation) :
    List Reservation :=
  rs.map fun r => if settles id capture bytes r then { r with settled := some bytes } else r

/-- The account of the reservation's run is charged, and its exposure released. -/
def settleAccount (changes : Nat) (id : JsString) (bytes : Nat) (s : Ledger) :
    Except Failure Ledger :=
  if changes=0 then .ok s
  else match s.reservations.find? fun r => r.id=id with
  | none => .ok s
  | some r => updateAccount r.ingestion_run_id (fun a =>
      if r.maximum_source_bytes ≤ a.reserved_source_bytes then some { a with
        charged_source_bytes := a.charged_source_bytes+bytes,
        reserved_source_bytes := a.reserved_source_bytes-r.maximum_source_bytes }
      else none) s

def completeSettledWriter (id capture : JsString) (s : Ledger) : Ledger :=
  { s with writers := s.writers.map fun w =>
      if w.token=id ∧ (∃r∈s.reservations,r.id=id ∧ r.capture_operation_id=capture ∧
        r.settled.isSome ∧ r.ingestion_run_id=w.ingestion_run_id ∧
        r.content_object_key=w.object_key) then { w with completed := true } else w }

def settleSourceDispatch (c : Circumstances) (id capture : JsString) (bytes : Nat) (s : Ledger) :
    Except Failure (Unit × Ledger) := do
  guardStatement c.authorized "fenced"
  let changes := s.reservations.countP (settles id capture bytes)
  let s ← settleAccount changes id bytes
    { s with reservations := settleReservations id capture bytes s.reservations }
  return ((),completeSettledWriter id capture s)

/-- `acquisitionPauseStatements`. -/
def pauseBatch (c : Circumstances) (p : Pause) (s : Ledger) :
    Except Failure (Unit × Ledger) := do
  guardStatement c.authorized "source_parse_authority"
  guardStatement (decide (s.state p.ingestion_run_id=.collecting)) "run_transition"
  return ((),{ s with state := (fun r => if r=p.ingestion_run_id then .paused else s.state r),
                      pauses := p::s.pauses })

/-- `ORDER BY reserved_at DESC,id DESC LIMIT 1`. -/
def newestDispatch : List Reservation → Option Reservation
  | [] => none
  | r::rs => match newestDispatch rs with
    | none => some r
    | some q =>
      if q.reserved_at.rank < r.reserved_at.rank ∨ (q.reserved_at.rank=r.reserved_at.rank ∧
        compareBytes (utf8 q.id) (utf8 r.id) < 0) then some r else some q

/-- The transactions on the ledger; the last four stand for what other commands do to its
neighbours. -/
inductive LedgerCall where
  | acquisitionPolicyByKey (key : JsString)
  | acquisitionAccount (run : JsString)
  | captureDispatch (capture : JsString)
  | unsettledRawWriter (run key : JsString)
  | openAccount (c : Circumstances) (legacy : Bool) (baseline : Nat) (policy : Policy)
  | extend (c : Circumstances) (generation : Nat) (policy : Policy)
  | reserve (c : Circumstances) (input : DispatchInput)
  | settle (c : Circumstances) (id capture : JsString) (bytes : Nat)
  | pause (c : Circumstances) (row : Pause)
  | beginEvidenceObjectWrite (token run key : JsString)
  | completeEvidenceObjectWrite (token : JsString)
  | captures (rows : List Capture)
  | states (state : JsString → RunState)

@[reducible] def LedgerCall.Answer : LedgerCall → Type
  | .acquisitionPolicyByKey _ => Option Policy
  | .acquisitionAccount _ => Option (Account × Policy)
  | .captureDispatch _ => Option Reservation
  | .unsettledRawWriter _ _ => Bool
  | .reserve _ _ => Except Failure Nat
  | _ => Except Failure Unit

/-- A batch either commits or leaves the tables as they were. -/
def commit {α : Type} (s : Ledger) : Except Failure (α × Ledger) → Except Failure α × Ledger
  | .ok (a,t) => (.ok a,t)
  | .error e => (.error e,s)

def Ledger.refer : (op : LedgerCall) → Ledger → op.Answer × Ledger
  | .acquisitionPolicyByKey key,s => (s.policies.find? fun p => p.idempotency_key=key,s)
  | .acquisitionAccount run,s => (s.account run,s)
  | .captureDispatch capture,s => (newestDispatch (s.reservations.filter fun r => r.capture_operation_id=capture),s)
  | .unsettledRawWriter run key,s =>
    (s.writers.any fun w => w.ingestion_run_id=run && !w.completed && w.object_key=key &&
      s.captures.any fun o => o.ingestion_run_id=run && o.content_object_key=w.object_key,s)
  | .openAccount c legacy baseline policy,s => commit s (initializeBatch c legacy baseline policy s)
  | .extend c generation policy,s => commit s (extendBatch c generation policy s)
  | .reserve c input,s => commit s (reserveSourceDispatch c input s)
  | .settle c id capture bytes,s => commit s (settleSourceDispatch c id capture bytes s)
  | .pause c row,s => commit s (pauseBatch c row s)
  | .beginEvidenceObjectWrite token run key,s =>
    if ∃w∈s.writers,w.token=token then (.error constraintFailed,s)
    else (.ok (),{ s with writers := ⟨token,run,key,false⟩::s.writers })
  | .completeEvidenceObjectWrite token,s =>
    (.ok (),{ s with writers := s.writers.map fun w =>
      if w.token=token then { w with completed := true } else w })
  | .captures rows,s => (.ok (),{ s with captures := rows })
  | .states state,s => (.ok (),{ s with state := state })

abbrev LedgerProg := Prog LedgerCall LedgerCall.Answer Empty Failure

def perform (op : LedgerCall) : LedgerProg op.Answer := .call op .ret

def ofExcept {α : Type} : Except Failure α → LedgerProg α
  | .ok a => .ret a
  | .error e => .fail e

def validateAcquisitionBudget (now : DateTime) (value : AcquisitionBudget) (requireFuture : Bool) :
    Except Failure AcquisitionBudget :=
  if value.max_dispatches > maxSafeInteger ∨ value.max_dispatches < 1 ∨ value.max_source_bytes > maxSafeInteger ∨
      value.max_source_bytes < 1 ∨
      (requireFuture=true ∧ value.dispatch_deadline.rank ≤ now.rank) then
    .error (.problem 422 "acquisition_budget_invalid")
  else .ok value

def AcquisitionBudget.json (b : AcquisitionBudget) : Json := .obj [
  (js "max_dispatches".toList,.num b.max_dispatches),
  (js "max_source_bytes".toList,.num b.max_source_bytes),
  (js "dispatch_deadline".toList,.str b.dispatch_deadline.iso)]

/-- `sha256(utf8(canonicalJson(value)))`. -/
def digestOf (nfc : Nfc) (value : Json) : LedgerProg JsString :=
  match canonicalJson nfc value with
  | .ok text => .ret (sha256Text text)
  | .error _ => .fail (.database "TypeError")

structure ExtensionRequest where
  expected_generation : Nat
  expected_budget : Option AcquisitionBudget
  acquisition_budget : AcquisitionBudget
  idempotency_key : JsString

def ExtensionRequest.json (run : JsString) (input : ExtensionRequest) : Json := .obj [
  (js "runId".toList,.str run),
  (js "expected_generation".toList,.num input.expected_generation),
  (js "expected_budget".toList,(input.expected_budget.map AcquisitionBudget.json).getD .null),
  (js "acquisition_budget".toList,input.acquisition_budget.json),
  (js "idempotency_key".toList,.str input.idempotency_key)]

/-- `initialAcquisitionStatements` in the batch that starts a run. -/
def startAcquisition (nfc : Nfc) (c : Circumstances) (run key : JsString) (value : AcquisitionBudget) :
    LedgerProg Unit := do
  let budget ← ofExcept (validateAcquisitionBudget c.now value true)
  let digest ← digestOf nfc budget.json
  let done ← perform (.openAccount c false 0 ⟨run,1,budget,key,digest,none⟩)
  ofExcept done

/-- `retainedAcquisitionResponse`: `some none` is a key with another intent. -/
def retainedAcquisitionResponse (key digest : JsString) :
    LedgerProg (Option (Option (Option Extension))) := do
  let row ← perform (.acquisitionPolicyByKey key)
  return row.map fun p => if p.request_digest≠digest then none else some p.response

/-- The problem that a guard's failure is reported as. -/
def batchProblem : Failure → Failure
  | .database "acquisition_initialization_not_quiescent" =>
    .problem 409 "acquisition_initialization_not_quiescent"
  | .database "acquisition_extension_conflict" => .problem 409 "acquisition_extension_conflict"
  | e => e

/-- A failed batch whose key was retained meanwhile is a replay. -/
def settleRace (key digest : JsString) (response : Option Extension) (done : Except Failure Unit) :
    LedgerProg (Option Extension) :=
  match done with
  | .ok _ => pure response
  | .error e => do
    let raced ← retainedAcquisitionResponse key digest
    match raced with
    | some (some retained) => pure retained
    | _ => .fail (batchProblem e)

/-- The first budget of a run that started before budgets; `verified` is its retained raw bytes. -/
def initializeLegacy (c : Circumstances) (verified : Except Failure Nat) (run key digest : JsString)
    (budget : AcquisitionBudget) : LedgerProg (Option Extension) := do
  let _ ← ofExcept (validateAcquisitionBudget c.now budget true)
  let baseline ← ofExcept verified
  if baseline > budget.max_source_bytes then .fail (.problem 422 "acquisition_budget_below_baseline")
  else
    let response : Extension := ⟨0,1,none,budget,c.now⟩
    let done ← perform (.openAccount c true baseline ⟨run,1,budget,key,digest,some response⟩)
    settleRace key digest (some response) done

/-- An extension of the policy that was read as the latest. -/
def extendPolicy (c : Circumstances) (run key digest : JsString) (generation : Nat)
    (previous budget : AcquisitionBudget) : LedgerProg (Option Extension) := do
  if budget.max_dispatches < previous.max_dispatches ∨
      budget.max_source_bytes < previous.max_source_bytes ∨
      budget.dispatch_deadline.textBefore previous.dispatch_deadline=true ∨ budget=previous then
    .fail (.problem 422 "acquisition_budget_not_increased")
  else
    let _ ← ofExcept (validateAcquisitionBudget c.now budget true)
    let response : Extension := ⟨generation,generation+1,some previous,budget,c.now⟩
    let done ← perform (.extend c generation ⟨run,generation+1,budget,key,digest,some response⟩)
    settleRace key digest (some response) done

/-- The account as it was read decides between initialization and extension. -/
def extendFrom (c : Circumstances) (verified : Except Failure Nat) (run digest : JsString)
    (input : ExtensionRequest) (previous : Option AcquisitionBudget) (budget : AcquisitionBudget) :
    Option (Account × Policy) → LedgerProg (Option Extension)
  | none =>
    if input.expected_generation=0 ∧ previous=none then
      initializeLegacy c verified run input.idempotency_key digest budget
    else .fail (.problem 409 "acquisition_budget_mismatch")
  | some (_,policy) =>
    if policy.generation≠input.expected_generation ∨ previous≠some policy.budget then
      .fail (.problem 409 "acquisition_budget_mismatch")
    else extendPolicy c run input.idempotency_key digest policy.generation policy.budget budget

def extendUnlessRetained (c : Circumstances) (verified : Except Failure Nat) (run digest : JsString)
    (input : ExtensionRequest) (previous : Option AcquisitionBudget) (budget : AcquisitionBudget) :
    Option (Option (Option Extension)) → LedgerProg (Option Extension)
  | some none => .fail (.problem 409 "idempotency_conflict")
  | some (some retained) => pure retained
  | none => do
    let account ← perform (.acquisitionAccount run)
    extendFrom c verified run digest input previous budget account

/-- `expected_budget === null ? null : validateAcquisitionBudget(expected_budget, false)`. -/
def validatePrevious (now : DateTime) : Option AcquisitionBudget → Except Failure (Option AcquisitionBudget)
  | none => .ok none
  | some b => (validateAcquisitionBudget now b false).map some

def extendAcquisitionBudget (nfc : Nfc) (c : Circumstances) (verified : Except Failure Nat)
    (run : JsString) (input : ExtensionRequest) : LedgerProg (Option Extension) := do
  let budget ← ofExcept (validateAcquisitionBudget c.now input.acquisition_budget false)
  let previous ← ofExcept (validatePrevious c.now input.expected_budget)
  let digest ← digestOf nfc (input.json run)
  let replay ← retainedAcquisitionResponse input.idempotency_key digest
  extendUnlessRetained c verified run digest input previous budget replay

def limitingDimension (now : DateTime) (bytes : Nat) : Option (Account × Policy) → Option Dimension
  | none => some .policy_missing
  | some (a,p) =>
    if p.budget.dispatch_deadline.rank ≤ now.rank then some .deadline
    else if p.budget.max_dispatches ≤ a.charged_dispatches then some .dispatches
    else if bytes+a.charged_source_bytes+a.reserved_source_bytes > p.budget.max_source_bytes then
      some .source_bytes
    else none

/-- Why a reservation was not admitted: someone else owns the capture or its key, or a limit. -/
def refusedDimension (now : DateTime) (bytes : Nat) (account : Option (Account × Policy))
    (previous : Option Reservation) (writer : Bool) : Option Dimension :=
  if (previous.any fun r => r.settled.isNone) || writer then some .ownership
  else limitingDimension now bytes account

def pauseAcquisition (c : Circumstances) (input : DispatchInput) (generation : Option Nat) :
    Option Dimension → LedgerProg (Option JsString)
  | none => pure none
  | some dimension => do
    let done ← perform (.pause c ⟨input.runId,generation,input.requestId,input.maximumBytes,dimension⟩)
    let _ ← ofExcept done
    pure none

def reserveAcquisitionDispatch (c : Circumstances) (input : DispatchInput) :
    LedgerProg (Option JsString) := do
  let result ← perform (.reserve c input)
  let changes ← ofExcept result
  if changes > 0 then pure (some input.id)
  else
    let account ← perform (.acquisitionAccount input.runId)
    let previous ← perform (.captureDispatch input.captureId)
    let writer ← perform (.unsettledRawWriter input.runId input.objectKey)
    pauseAcquisition c input (account.map fun a => a.2.generation)
      (refusedDimension c.now input.maximumBytes account previous writer)

def settleAcquisitionDispatch (c : Circumstances) (id capture : JsString) (bytes : Nat) :
    LedgerProg Unit := do
  let done ← perform (.settle c id capture bytes)
  ofExcept done

/-- The commands that run against the ledger, and what others do beside it. -/
inductive Command where
  | start (c : Circumstances) (run key : JsString) (budget : AcquisitionBudget)
  | extend (c : Circumstances) (verified : Except Failure Nat) (run : JsString)
    (input : ExtensionRequest)
  | reserve (c : Circumstances) (input : DispatchInput)
  | settle (c : Circumstances) (id capture : JsString) (bytes : Nat)
  /-- the statements alone, as a retried transaction would run them -/
  | replayReserve (c : Circumstances) (input : DispatchInput)
  | beginWrite (token run key : JsString)
  | completeWrite (token : JsString)
  | captures (rows : List Capture)
  | states (state : JsString → RunState)

def Command.prog (nfc : Nfc) : Command → LedgerProg Unit
  | .start c run key budget => startAcquisition nfc c run key budget
  | .extend c verified run input => extendAcquisitionBudget nfc c verified run input >>= fun _ => pure ()
  | .reserve c input => reserveAcquisitionDispatch c input >>= fun _ => pure ()
  | .settle c id capture bytes => settleAcquisitionDispatch c id capture bytes
  | .replayReserve c input => perform (.reserve c input) >>= fun _ => pure ()
  | .beginWrite token run key => perform (.beginEvidenceObjectWrite token run key) >>= fun _ => pure ()
  | .completeWrite token => perform (.completeEvidenceObjectWrite token) >>= fun _ => pure ()
  | .captures rows => perform (.captures rows) >>= fun _ => pure ()
  | .states state => perform (.states state) >>= fun _ => pure ()

end CardKeepr.SourceEvidence
