import CardKeepr.Reconciliation.IdentityResolution
import CardKeepr.Reconciliation.ReducerCommits

namespace CardKeepr.Reconciliation.Identity

open Lib Shared

variable (nfc : Nfc)

/-- `Cursor` of the `identity_associations` phase. -/
structure AssociationCursor where
  after : Nat
  association : Nat
  merges : Nat
  assignments : Nat
  processedDecisions : Nat
  complete : Bool
  deriving DecidableEq

def AssociationCursor.first : AssociationCursor := ⟨0,0,0,0,0,false⟩

def correctionMerges : JsString := key "correction_merges"
def correctionAssignments : JsString := key "correction_assignments"

/-- `new TextEncoder().encode(row.request_json).byteLength` -/
def CorrectionRow.size (r : CorrectionRow) : Nat := (utf8 (r.request.json.canonical nfc).print).length

/-- `associations` of a decision, each as the index and the entry that it sets. -/
def CorrectionRow.associations (r : CorrectionRow) : List ReducerEntry :=
  (mergeAssociations r.request).map (fun e => ⟨correctionMerges,e.1,.str e.2⟩)++
    (printingAssociations nfc r.request).map fun e => ⟨correctionAssignments,e.1,.str e.2⟩

/-- The local variables of the loop beside the two indexes. -/
structure AssociationLoop where
  after : Nat
  association : Nat
  processedDecisions : Nat
  ordinal : Nat
  work : Nat
  bytes : Nat

/-- What the loop does with its indexes and its tables; it asks them for nothing but success. -/
inductive AssociationAct where
  /-- on both indexes -/
  | beginObservation
  | set (entry : ReducerEntry)
  /-- `save()`; the positions are those of the indexes at that moment -/
  | save (ordinal after association processedDecisions : Nat) (complete : Bool)
  | fail (e : ResolverError)

namespace AssociationLoop

def saving (s : AssociationLoop) (complete : Bool) : AssociationAct :=
  .save s.ordinal s.after s.association s.processedDecisions complete

def saved (s : AssociationLoop) : AssociationLoop :=
  { s with ordinal := s.ordinal+1, work := 0, bytes := 0 }

def entered (s : AssociationLoop) (size : Nat) : AssociationLoop :=
  { s with bytes := s.bytes+size, work := s.work+1 }

def associated (s : AssociationLoop) : AssociationLoop :=
  { s with association := s.association+1, work := s.work+1 }

def decided (s : AssociationLoop) (sequence : Nat) : AssociationLoop :=
  { s with
    after := sequence,
    association := 0,
    processedDecisions := s.processedDecisions+1 }

/-- `work > 0 && (work >= 8 || bytes + size > 512000)` -/
def due (s : AssociationLoop) (size : Nat) : Prop :=
  0 < s.work ∧ (8 ≤ s.work ∨ 512000 < s.bytes+size)

instance (s : AssociationLoop) (size : Nat) : Decidable (s.due size) :=
  inferInstanceAs (Decidable (_ ∧ _))

end AssociationLoop

/-- The loop over the associations of a decision, from the next one on. -/
def associate (size : Nat) (next : AssociationLoop → List AssociationAct) :
    List ReducerEntry → AssociationLoop → List AssociationAct
  | [],s => next s
  | entry::entries,s =>
    if 8 ≤ s.work then
      s.saving false::.set entry::
        associate size next entries { s.saved with bytes := size }.associated
    else .set entry::associate size next entries s.associated

/-- One decision, and then the rest of the loop. -/
def enter (r : CorrectionRow) (next : AssociationLoop → List AssociationAct)
    (s : AssociationLoop) : List AssociationAct :=
  .beginObservation::
    if r.request.entity_kind=.card ∧ 500 < r.request.source_ids.length+
        r.request.source_ids.length*r.request.printing_assignments.length then
      [.fail .decisionAssociations]
    else associate (r.size nfc) (fun s => next (s.decided r.sequence))
      ((r.associations nfc).drop s.association) (s.entered (r.size nfc))

/-- The loop over the pinned rows. -/
def decideRows : List CorrectionRow → AssociationLoop → List AssociationAct
  | [],s => [s.saving true]
  | r::rows,s =>
    if 512000 < r.size nfc then [.fail .decisionBytes]
    else if s.due (r.size nfc) then s.saving false::enter nfc r (decideRows rows) s.saved
    else enter nfc r (decideRows rows) s

/-- The reducer tables and the `identity_associations` rows of `reconciliation_checkpoints`, which
begin at ordinal zero. -/
structure ResolverStore where
  reducer : ReducerStore
  checkpoints : List AssociationCursor

def ResolverStore.empty : ResolverStore := ⟨⟨fun _ _ _ => none,fun _ _ => none⟩,[]⟩

/-- `retainReconciliationCheckpoint`: an ordinal that is taken keeps its row, which must be the
same. -/
def retainCheckpoint (ordinal : Nat) (c : AssociationCursor) (s : ResolverStore) :
    Bool × ResolverStore :=
  match s.checkpoints[ordinal]? with
  | some retained => (decide (retained=c),s)
  | none => (true,{ s with checkpoints := s.checkpoints++[c] })

/-- How an attempt ends. -/
inductive Ended where
  | completed (indexes : Indexes)
  /-- `ReconciliationContinuation` -/
  | continuation (ordinal : Nat)
  | failed (error : JsString)
  | crashed

def checkpointReplayChanged : JsString :=
  js "Reconciliation checkpoint replay changed immutable content.".toList

def Indexes.beginBoth (xs : Indexes) : Indexes := fun space =>
  if space=correctionMerges ∨ space=correctionAssignments then (xs space).beginObservation
  else xs space

/-- An attempt at the loop. It is cut off when `budget` writes are made; a read is no crash point
of its own, for what it leaves is what was there. -/
def performActs (yieldAtCheckpoint : Bool) :
    Option Nat → List AssociationAct → Indexes → ResolverStore → Ended × ResolverStore
  | _,[],xs,s => (.completed xs,s)
  | _,.fail e::_,_,s => (.failed (key e.text),s)
  | budget,.beginObservation::acts,xs,s =>
    performActs yieldAtCheckpoint budget acts (Indexes.beginBoth xs) s
  | some 0,_::_,_,s => (.crashed,s)
  | budget,.set entry::acts,xs,s =>
    let r := alone (Durable.plain ReducerStore.refer) (set nfc xs entry) s.reducer
    match r.result with
    | .ok xs =>
      performActs yieldAtCheckpoint (budget.map (·-1)) acts xs { s with reducer := r.store }
    | .error e => (.failed e,{ s with reducer := r.store })
  | budget,.save ordinal after association processedDecisions complete::acts,xs,s =>
    let r := retainCheckpoint ordinal ⟨after,association,(xs correctionMerges).ordinal,
      (xs correctionAssignments).ordinal,processedDecisions,complete⟩ s
    if r.1=false then (.failed checkpointReplayChanged,r.2)
    else if yieldAtCheckpoint=true then (.continuation ordinal,r.2)
    else performActs yieldAtCheckpoint (budget.map (·-1)) acts xs r.2

def ResolverStore.cursor (s : ResolverStore) : AssociationCursor :=
  s.checkpoints.getLast?.getD .first

/-- `resumeAt` on both indexes. -/
def AssociationCursor.indexes (c : AssociationCursor) : Indexes := fun space =>
  if space=correctionMerges then .resumeAt c.merges
  else if space=correctionAssignments then .resumeAt c.assignments
  else .fresh

/-- The loop from the latest checkpoint on. -/
def AssociationCursor.acts (c : AssociationCursor) (ordinal : Nat) (rows : List CorrectionRow) :
    List AssociationAct :=
  decideRows nfc (rows.filter fun r => decide (c.after < r.sequence))
    ⟨c.after,c.association,c.processedDecisions,ordinal,0,0⟩

/-- `pinnedCardIdentityResolver` up to where its tables are ready. -/
def associationsAttempt (pin : CorrectionPin) (rows : List CorrectionRow) (yieldAtCheckpoint : Bool)
    (budget : Option Nat) (s : ResolverStore) : Ended × ResolverStore :=
  if pin.decision_cutoff=0 then (.completed fun _ => .fresh,s)
  else if s.cursor.complete=true then (.completed s.cursor.indexes,s)
  else performActs nfc yieldAtCheckpoint budget
    (s.cursor.acts nfc s.checkpoints.length (pinnedCorrectionRows pin rows)) s.cursor.indexes s

/-- One attempt after the other, each with its `yieldAtCheckpoint` and its crash point. -/
def afterAttempts (pin : CorrectionPin) (rows : List CorrectionRow) :
    List (Bool × Option Nat) → ResolverStore → ResolverStore
  | [],s => s
  | a::attempts,s =>
    afterAttempts pin rows attempts (associationsAttempt nfc pin rows a.1 a.2 s).2

end CardKeepr.Reconciliation.Identity
