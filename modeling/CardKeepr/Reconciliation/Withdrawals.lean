import CardKeepr.Lib.Paging
import CardKeepr.Reconciliation.Checkpoints
import CardKeepr.Reconciliation.LedgerIndex
import CardKeepr.Shared.CanonicalObjects
import CardKeepr.Reconciliation.RulesTextErrata
import Mathlib.Data.List.Lex

namespace CardKeepr.Reconciliation.Errata

open Shared

def AsciiText.units (t : AsciiText) : List Nat := t.text.map UInt16.toNat

theorem AsciiText.units_inj : Function.Injective AsciiText.units := fun _ _ h =>
  AsciiText.ext (List.map_injective_iff.mpr (fun _ _ => UInt16.toNat_inj.mp) h)

/-- The order of the units, in which JavaScript compares these texts and SQLite sorts them. -/
instance : LinearOrder AsciiText where
  toPartialOrder := PartialOrder.lift AsciiText.units AsciiText.units_inj
  le_total a b := le_total a.units b.units
  toDecidableLE a b := inferInstanceAs (Decidable (a.units ≤ b.units))
  toDecidableEq := instDecidableEqAsciiText

namespace AsciiText

def empty : AsciiText := ⟨[],rfl⟩

theorem lt_iff {a b : AsciiText} :
    a < b ↔ a.text.map UInt16.toNat < b.text.map UInt16.toNat := Iff.rfl

theorem empty_lt {a : AsciiText} (h : a≠empty) : empty < a := by
  rw [lt_iff]
  obtain ⟨t,ha⟩ := a
  cases t with
  | nil => exact (h rfl).elim
  | cons u t => exact List.nil_lt_cons _ _

/-- A text of the source before another one. -/
def after (p : JsString) (hp : isAscii p=true) (a : AsciiText) : AsciiText :=
  ⟨p++a.text,by
    unfold isAscii at hp ⊢
    rw [List.all_append,hp]
    exact a.ascii⟩

theorem dropped_ascii {a : JsString} (h : isAscii a=true) (n : Nat) : isAscii (a.drop n)=true :=
  List.all_eq_true.mpr fun u hu => List.all_eq_true.mp h u (List.mem_of_mem_drop hu)

end AsciiText

end CardKeepr.Reconciliation.Errata

namespace CardKeepr.Reconciliation.Withdrawals

open Lib Shared Reconciliation.Errata

inductive Entity where
  | card
  | printing
  | card_and_printing

inductive WithdrawalState where
  | withdrawn
  | reinstated
  deriving DecidableEq

def WithdrawalState.text : WithdrawalState → JsString
  | .withdrawn => js "withdrawn".toList
  | .reinstated => js "reinstated".toList

/-- What a withdrawal asserts; its instant is ISO text. -/
structure Evidence where
  assertion : WithdrawalState
  state : WithdrawalState
  effective_at : AsciiText

/-- `ProvenancedWithdrawal` -/
structure Withdrawal extends Evidence where
  entity : Entity

structure ObservationPlan where
  sourceObservationId : AsciiText
  cardId : AsciiText
  printingId : Option AsciiText
  withdrawal : Option Withdrawal

/-- The retained plans of a run in the order of their observation ids. -/
structure Plans where
  all : List ObservationPlan
  sorted : all.Pairwise fun p q => p.sourceObservationId < q.sourceObservationId
  named : ∀p∈all,p.sourceObservationId≠.empty
  /-- whether an observation of the run withdraws anything -/
  hasWithdrawals : Bool
  noticed : ∀p∈all,p.withdrawal≠none → hasWithdrawals=true

/-- `values(after)` -/
def Plans.values (plans : Plans) (after : AsciiText) : List ObservationPlan :=
  plans.all.filter fun p => decide (after < p.sourceObservationId)

/-- A diagnostic; its `code` is `withdrawal_evidence_conflict` and its `locator` null. -/
structure WithdrawalDiagnostic where
  source_observation_id : AsciiText
  matched_printing_ids : List AsciiText
  detail : JsString
  deriving DecidableEq

structure Assertion where
  id : AsciiText
  semantic : JsString
  observationId : AsciiText
  conflict : Bool
  deriving DecidableEq

inductive Stage where
  | assertions
  | conflicts
  | published
  | complete
  deriving DecidableEq

structure DiagnosticsCursor where
  position : Nat
  count : Nat
  deriving DecidableEq

structure Cursor where
  stage : Stage
  after : AsciiText
  assertions : Nat
  diagnostics : DiagnosticsCursor
  processedPlans : Nat
  deriving DecidableEq

def cardPrefix : JsString := js "card:".toList
def printingPrefix : JsString := js "printing:".toList

theorem cardPrefix_ascii : isAscii cardPrefix=true := by
  simp [cardPrefix,js,isAscii]

theorem printingPrefix_ascii : isAscii printingPrefix=true := by
  simp [printingPrefix,js,isAscii]

def cardTarget (id : AsciiText) : AsciiText := .after cardPrefix cardPrefix_ascii id
def printingTarget (id : AsciiText) : AsciiText := .after printingPrefix printingPrefix_ascii id

def Entity.card? : Entity → Bool
  | .card => true
  | .printing => false
  | .card_and_printing => true

def Entity.printing? : Entity → Bool
  | .card => false
  | .printing => true
  | .card_and_printing => true

/-- The targets of a plan that withdraws. -/
def ObservationPlan.targets (plan : ObservationPlan) (w : Withdrawal) : List AsciiText :=
  (if w.entity.card?=true then [cardTarget plan.cardId] else [])++
    match plan.printingId with
    | none => []
    | some id => if w.entity.printing?=true then [printingTarget id] else []

section
variable (nfc : Nfc)

/-- `{ assertion, state, effective_at }` -/
def Evidence.json (w : Evidence) : Json :=
  .obj [(js "assertion".toList,.str w.assertion.text),(js "state".toList,.str w.state.text),
    (js "effective_at".toList,.str w.effective_at.text)]

def Evidence.semantic (w : Evidence) : JsString := (w.json.canonical nfc).print

/-- What a plan makes of the assertion retained for a target. -/
def assertionOf (prior : Option Assertion) (target : AsciiText) (plan : ObservationPlan)
    (w : Withdrawal) : Assertion where
  id := target
  semantic := (prior.map (·.semantic)).getD (w.semantic nfc)
  observationId :=
    match prior with
    | some p =>
      if p.observationId < plan.sourceObservationId then p.observationId
      else plan.sourceObservationId
    | none => plan.sourceObservationId
  conflict := (prior.map (·.conflict)).getD false ||
    match prior with
    | some p => decide (p.semantic≠w.semantic nfc)
    | none => false

end

def retainedConflict : JsString := js ("Retained explicit withdrawal assertions conflict for "++
  "the same entity and cannot be deterministically reconciled.").toList

def publishedConflict : JsString := js ("The explicit withdrawal assertion conflicts with the "++
  "published withdrawal history for this identity.").toList

/-- `id.startsWith("printing:") ? [id.slice("printing:".length)] : []` -/
def matchedPrintings (id : AsciiText) : List AsciiText :=
  if printingPrefix.isPrefixOf id.text then
    [⟨id.text.drop printingPrefix.length,AsciiText.dropped_ascii id.ascii _⟩]
  else []

def Assertion.diagnostic (a : Assertion) : WithdrawalDiagnostic :=
  ⟨a.observationId,matchedPrintings a.id,retainedConflict⟩

/-- `publishedWithdrawalConflictDiagnostics` for one plan; `latest` reads the published history. -/
def publishedDiagnostics (nfc : Nfc) (latest : AsciiText → Option Evidence)
    (plan : ObservationPlan) :
    List WithdrawalDiagnostic :=
  match plan.withdrawal with
  | none => []
  | some w =>
    (plan.targets w).filterMap fun target =>
      have conflicting := match latest target with
        | none => decide (w.state=.reinstated)
        | some l =>
          let repeated := decide (l.semantic nfc=w.semantic nfc)
          let transition := decide (l.state≠w.state ∧ l.effective_at < w.effective_at)
          !repeated && !transition
      if conflicting=true then
        some ⟨plan.sourceObservationId,matchedPrintings target,publishedConflict⟩
      else none

/-- The reducer tables `withdrawal_assertion_groups` and `diagnostic_records` of the run, and its
checkpoints of the phase `withdrawal_diagnostics`, which begin at ordinal zero. -/
structure Retained where
  assertions : List (Numbered AsciiText Assertion)
  diagnostics : List (Numbered JsString WithdrawalDiagnostic)
  checkpoints : List Cursor

/-- The variables of `prepareWithdrawalDiagnostics`; of the diagnostics only the position of
their index and their count are used. -/
structure Variables where
  assertions : LedgerIndex AsciiText Assertion
  diagnostics : DiagnosticsCursor
  stage : Stage
  after : AsciiText
  processedPlans : Nat
  ordinal : Nat
  records : Nat
  bytes : Nat

def Variables.cursor (v : Variables) : Cursor :=
  ⟨v.stage,v.after,v.assertions.ordinal,v.diagnostics,v.processedPlans⟩

def replayChanged : JsString :=
  js "Reducer replay changed its immutable observation effect.".toList

def Retained.checkpoint (ordinal : Nat) (c : Cursor) (d : Retained) : Except JsString Retained :=
  (retainCheckpoint d.checkpoints ordinal c).map fun rows => { d with checkpoints := rows }

def Retained.assert (r : Numbered AsciiText Assertion) (d : Retained) :
    Except JsString Retained :=
  match retainRow d.assertions r with
  | (true,rows) => .ok { d with assertions := rows }
  | (false,_) => .error replayChanged

def Retained.push (r : Numbered JsString WithdrawalDiagnostic) (d : Retained) :
    Except JsString Retained :=
  match retainRow d.diagnostics r with
  | (true,rows) => .ok { d with diagnostics := rows }
  | (false,_) => .error replayChanged

abbrev Preparation (α : Type) : Type := Code Retained Variables JsString α

/-- What surrounds the phase: the sizes that its budget counts, which assertions an index keeps at
hand, and the published history. -/
structure Surroundings where
  nfc : Nfc
  planSize : ObservationPlan → Nat
  assertionSize : Assertion → Nat
  whole : Assertion → Bool
  latest : AsciiText → Option Evidence

section
variable (yieldAtCheckpoint : Bool)

def save : Preparation Unit := do
  let v ← Code.vars
  Code.write (Retained.checkpoint v.ordinal v.cursor)
  Steps.when (yieldAtCheckpoint=true) (Code.stop (.continuation v.ordinal))
  Code.assign fun v => { v with ordinal := v.ordinal+1 }

/-- `records = 0; bytes = 0;` -/
def resetBudget : Preparation Unit := Code.assign fun v => { v with records := 0, bytes := 0 }

def Variables.due (v : Variables) (size : Nat) : Prop :=
  0 < v.records ∧ (4 ≤ v.records ∨ 512000 < v.bytes+size)

instance (v : Variables) (size : Nat) : Decidable (v.due size) :=
  inferInstanceAs (Decidable (_ ∧ _))

def budget (size : Nat) : Preparation Unit := do
  let v ← Code.vars
  Steps.when (v.due size) (do save yieldAtCheckpoint; resetBudget)
  Code.assign fun v => { v with records := v.records+1, bytes := v.bytes+size }

variable (around : Surroundings)

/-- One target of `retainAssertion`. -/
def retainTarget (plan : ObservationPlan) (w : Withdrawal) (target : AsciiText) :
    Preparation Unit := do
  let v ← Code.vars
  let d ← Code.retained
  let prior := v.assertions.get d.assertions target
  let a := assertionOf around.nfc prior target plan w
  Code.write (Retained.assert (v.assertions.seedRow target a))
  Code.assign fun v => { v with assertions := v.assertions.seeded around.whole target a }

def retainAssertion (plan : ObservationPlan) : Preparation Unit :=
  match plan.withdrawal with
  | none => Steps.ret ()
  | some w => Steps.each (retainTarget around plan w) (plan.targets w)

/-- `String(count).padStart(12, "0")` -/
def placeKey (count : Nat) : JsString :=
  List.replicate (12-(decimal count).length) 48++decimal count

/-- `diagnostics.push(d)`; the collection is not distinct, so a diagnostic is keyed by its place. -/
def push (d : WithdrawalDiagnostic) : Preparation Unit := do
  let v ← Code.vars
  Code.write (Retained.push ⟨v.diagnostics.position+1,placeKey v.diagnostics.count,d⟩)
  Code.assign fun v =>
    { v with diagnostics := ⟨v.diagnostics.position+1,v.diagnostics.count+1⟩ }

def assertPlan (plan : ObservationPlan) : Preparation Unit := do
  budget yieldAtCheckpoint (around.planSize plan)
  retainAssertion around plan
  Code.assign fun v =>
    { v with after := plan.sourceObservationId, processedPlans := v.processedPlans+1 }

def reportAssertion (a : Assertion) : Preparation Unit := do
  budget yieldAtCheckpoint (around.assertionSize a)
  Steps.when (a.conflict=true) (push a.diagnostic)
  Code.assign fun v => { v with after := a.id }

def reportPublished (plan : ObservationPlan) : Preparation Unit := do
  budget yieldAtCheckpoint (around.planSize plan)
  Steps.each push (publishedDiagnostics around.nfc around.latest plan)
  Code.assign fun v => { v with after := plan.sourceObservationId }

/-- `stage = next; after = ""; await save();` -/
def enter (next : Stage) : Preparation Unit := do
  Code.assign fun v => { v with stage := next, after := .empty }
  save yieldAtCheckpoint

variable (plans : Plans)

def assertStage : Preparation Unit := do
  let v ← Code.vars
  Steps.when (v.stage=.assertions) (do
    Steps.each (assertPlan yieldAtCheckpoint around) (plans.values v.after)
    enter yieldAtCheckpoint .conflicts
    resetBudget)

def conflictStage : Preparation Unit := do
  let v ← Code.vars
  let d ← Code.retained
  Steps.when (v.stage=.conflicts) (do
    Steps.each (reportAssertion yieldAtCheckpoint around)
      ((entityValues d.assertions v.assertions.ordinal v.after).map Prod.snd)
    enter yieldAtCheckpoint .published
    resetBudget)

def publishedStage : Preparation Unit := do
  let v ← Code.vars
  Steps.when (v.stage=.published) (do
    Steps.each (reportPublished yieldAtCheckpoint around) (plans.values v.after)
    enter yieldAtCheckpoint .complete)

def prepareWithdrawalDiagnostics (checkpointed : Bool) : Preparation Unit := do
  let v ← Code.vars
  if checkpointed=true ∧ v.stage=.complete then return ()
  else do
    Steps.when (checkpointed=false) (save yieldAtCheckpoint)
    assertStage yieldAtCheckpoint around plans
    conflictStage yieldAtCheckpoint around
    publishedStage yieldAtCheckpoint around plans

end

/-- The variables of an attempt: from the latest checkpoint, or from where the diagnostics stand
when the phase begins. -/
def startingVariables (plans : Plans) (base : DiagnosticsCursor) (d : Retained) : Variables :=
  match d.checkpoints.getLast? with
  | some c => ⟨.resumeAt c.assertions,c.diagnostics,c.stage,c.after,c.processedPlans,
      d.checkpoints.length,0,0⟩
  | none => ⟨.fresh,base,if plans.hasWithdrawals=true then .assertions else .complete,.empty,0,
      d.checkpoints.length,0,0⟩

/-- One attempt: whether it yields at checkpoints, and where it is cut off. -/
def attempt (around : Surroundings) (plans : Plans) (base : DiagnosticsCursor)
    (t : Bool×Option Nat) (d : Retained) : Ending JsString Unit×Retained :=
  performAttempt (prepareWithdrawalDiagnostics t.1 around plans d.checkpoints.getLast?.isSome)
    (startingVariables plans base d) t.2 d

/-- What is retained before the phase: the diagnostics so far. -/
def Retained.before (diagnostics : List (Numbered JsString WithdrawalDiagnostic)) : Retained :=
  ⟨[],diagnostics,[]⟩

end CardKeepr.Reconciliation.Withdrawals
