import CardKeepr.Curated.Proposals
import CardKeepr.Shared.Sha256

namespace CardKeepr.Curated

open Shared

-- The tables of the curated lifecycle, the views over them, and the batches that write them. A
-- table is the list of its rows in the order of their row ids: no row of these tables is deleted but
-- a candidate slot, so the row id of a row is its place plus one. A batch that aborts is `none`.

inductive RevisionStatus where
  | active | reconfirmation_required | superseded | retired
  deriving DecidableEq

def RevisionStatus.applicable : RevisionStatus → Bool
  | .active => true
  | .reconfirmation_required => true
  | _ => false

inductive EventKind where
  | authored | reaffirmed | superseded | retired | source_change_detected
  deriving DecidableEq

structure PendingConflict where
  conflict_id : JsString
  conflict_digest : JsString
  run_id : JsString
  preparation_id : Option JsString
  previous_source_digest : JsString
  observed_source_digest : JsString
  deriving DecidableEq

/-- The content of an event row, by its kind. -/
inductive EventDetails where
  | authored (reviewed_source_digest : JsString) (supersedes_revision_id : Option JsString)
  | reaffirmed (conflict_id conflict_digest reviewed_source_digest rationale : JsString)
  | superseded (superseded_by_revision_id rationale : JsString) (conflict_digest : Option JsString)
  | retired (conflict_id conflict_digest : Option JsString) (rationale : JsString)
  | source_change_detected (conflict : PendingConflict)
  deriving DecidableEq

def EventDetails.kind : EventDetails → EventKind
  | .authored _ _ => .authored
  | .reaffirmed _ _ _ _ => .reaffirmed
  | .superseded _ _ _ => .superseded
  | .retired _ _ _ => .retired
  | .source_change_detected _ => .source_change_detected

/-- `json_extract(event_json, '$.reviewed_source_digest')`. -/
def EventDetails.reviewed_source_digest : EventDetails → Option JsString
  | .authored digest _ => some digest
  | .reaffirmed _ _ digest _ => some digest
  | _ => none

structure Event where
  revision_id : JsString
  event_version : Nat
  details : EventDetails
  created_at : Nat
  deriving DecidableEq

/-- A row of `curated_revisions`; the proposal is the document of `proposal_json`. -/
structure Revision where
  id : JsString
  game : JsString
  target_key : JsString
  effective_from : Option Nat
  effective_to : Option Nat
  proposal : Proposal
  content_digest : JsString
  reviewed_source_digest : JsString
  created_at : Nat
  status : RevisionStatus
  event_version : Nat
  deriving DecidableEq

/-- A row of `reconciliation_curated_conflicts` with its decoded content. -/
structure Conflict where
  preparation_id : JsString
  revision_id : JsString
  eventVersion : Nat
  details : PendingConflict
  createdAt : Nat
  deriving DecidableEq

def Conflict.event (conflict : Conflict) : Event :=
  ⟨conflict.revision_id,conflict.eventVersion,.source_change_detected conflict.details,
    conflict.createdAt⟩

inductive OperationState where
  | preparing | paused | sealed | failed | abandoned
  deriving DecidableEq

structure Operation where
  id : JsString
  ingestion_run_id : JsString
  supported_game : Option JsString
  state : OperationState
  generation : Nat
  failure_code : Option String
  deriving DecidableEq

inductive RunOutcome where
  | failed (failure_code : String)
  | rejected | expired | published
  deriving DecidableEq

/-- A run with its selected games, and how it ended. -/
structure Run where
  id : JsString
  selected_games : List JsString
  outcome : Option RunOutcome
  deriving DecidableEq

structure Slot where
  supported_game : JsString
  preparation_id : JsString
  deriving DecidableEq

/-- A row of `reconciliation_curated_pins`. -/
structure Pin where
  preparation_id : JsString
  revision_cutoff : Nat
  event_cutoff : Nat
  deriving DecidableEq

structure MutationResult where
  operation_id : JsString
  curated_revision_id : JsString
  status : RevisionStatus
  event_version : Nat
  content_digest : JsString
  code : String
  deriving DecidableEq

/-- A row of `curated_revision_idempotency`. -/
structure Acknowledged where
  idempotency_key : JsString
  request_digest : JsString
  response : MutationResult
  deriving DecidableEq

structure Store where
  revisions : List Revision
  events : List Event
  conflicts : List Conflict
  operations : List Operation
  runs : List Run
  slots : List Slot
  pins : List Pin
  acknowledged : List Acknowledged
  deriving DecidableEq

namespace Store

def new : Store := ⟨[],[],[],[],[],[],[],[]⟩

def operation? (s : Store) (id : JsString) : Option Operation := s.operations.find? (·.id=id)

def run? (s : Store) (id : JsString) : Option Run := s.runs.find? (·.id=id)

def reconfirmation : String := "curated_revision_reconfirmation_required"

/-- The preparation ended by a source change: the run of a whole-run reconciliation, the operation
itself of the preparation of one game. -/
def sourceChanged (s : Store) (operation : Operation) : Bool :=
  match s.run? operation.ingestion_run_id with
  | none => false
  | some run => match operation.supported_game with
    | none => run.outcome=some (.failed reconfirmation)
    | some _ => operation.state=.failed && operation.failure_code=some reconfirmation

/-- Whether a staged conflict is visible for a row of its revision. -/
def shows (s : Store) (conflict : Conflict) (revision : Revision) : Bool :=
  conflict.revision_id=revision.id &&
  (match s.operation? conflict.preparation_id with
    | none => false
    | some operation => s.sourceChanged operation) &&
  revision.status=.active && conflict.eventVersion=revision.event_version+1

def visiblePreparedCuratedConflicts (s : Store) : List Conflict :=
  s.conflicts.filter fun conflict => s.revisions.any (s.shows conflict)

/-- The rows of `curated_revision_read` for one revision: a left join. -/
def readRevision (s : Store) (revision : Revision) : List Revision :=
  match s.conflicts.filter fun conflict => s.shows conflict revision with
  | [] => [revision]
  | shown => shown.map fun conflict =>
      { revision with status := .reconfirmation_required, event_version := conflict.eventVersion }

def curatedRevisionRead (s : Store) : List Revision := s.revisions.flatMap s.readRevision

/-- The primary key of `curated_revision_events`. -/
def recorded (s : Store) (revision_id : JsString) (event_version : Nat) : Bool :=
  s.events.any fun event => event.revision_id=revision_id && event.event_version=event_version

def curatedRevisionEventRead (s : Store) : List Event :=
  s.events++(s.visiblePreparedCuratedConflicts.filter fun conflict =>
    !s.recorded conflict.revision_id conflict.eventVersion).map Conflict.event

/-- `SELECT * FROM curated_revision_read WHERE id = ?`, first row. -/
def curatedRevision? (s : Store) (revisionId : JsString) : Option Revision :=
  s.curatedRevisionRead.find? (·.id=revisionId)

/-- The last event of the kind by version, first of equals. -/
def lastByVersion : List Event → Option Event
  | [] => none
  | event::events => match lastByVersion events with
    | none => some event
    | some later => if event.event_version<later.event_version then some later else some event

def eventsOfKind (s : Store) (revisionId : JsString) (kind : EventKind) : List Event :=
  s.curatedRevisionEventRead.filter fun event =>
    event.revision_id=revisionId && event.details.kind=kind

def curatedPendingConflict (s : Store) (row : Revision) : Option PendingConflict :=
  if row.status=.reconfirmation_required then
    match lastByVersion (s.eventsOfKind row.id .source_change_detected) with
    | some ⟨_,_,.source_change_detected conflict,_⟩ => some conflict
    | _ => none
  else none

/-- The insert of an event under its primary key and the foreign key of its revision. -/
def insertEvent (event : Event) (s : Store) : Option Store :=
  if s.recorded event.revision_id event.event_version ||
    !s.revisions.any (·.id=event.revision_id) then none
  else some { s with events := s.events++[event] }

def acknowledge (row : Acknowledged) (s : Store) : Option Store :=
  if s.acknowledged.any (·.idempotency_key=row.idempotency_key) then none
  else some { s with acknowledged := s.acknowledged++[row] }

/-- The compare-and-set of `curatedLifecycleMutationStatements` and
`supersedeCuratedRevisionStatement`. -/
def updateRevision (revisionId : JsString) (expectedEventVersion : Nat) (status : RevisionStatus)
    (eventVersion : Nat) (s : Store) : Store :=
  { s with revisions := s.revisions.map fun revision =>
      if revision.id=revisionId && revision.event_version=expectedEventVersion &&
        revision.status.applicable then
        { revision with status := status, event_version := eventVersion }
      else revision }

/-- The two intervals meet, as the availability guard compares them. -/
def overlapping (first : Option Nat × Option Nat) (second : Option Nat × Option Nat) : Bool :=
  (match first.2,second.1 with
    | some last,some start => start<last
    | _,_ => true) &&
  (match second.2,first.1 with
    | some last,some start => start<last
    | _,_ => true)

/-- What makes `curatedTargetAvailabilityGuardStatement` abort. -/
def targetConflict (s : Store) (key : JsString) (effectiveFrom effectiveTo : Option Nat) : Bool :=
  s.curatedRevisionRead.any fun existing => existing.status.applicable && existing.target_key=key &&
    overlapping (existing.effective_from,existing.effective_to) (effectiveFrom,effectiveTo)

/-- `insertAuthoredCuratedRevisionStatement` with its availability guard. -/
def insertAuthored (id : JsString) (proposal : Proposal) (contentDigest : JsString) (at' : Nat)
    (s : Store) : Option Store :=
  if s.targetConflict (targetKey proposal) proposal.effective_from proposal.effective_to then none
  else if s.revisions.any (·.id=id) then none
  else some { s with revisions := s.revisions++[⟨id,proposal.game,targetKey proposal,
      proposal.effective_from,proposal.effective_to,proposal,contentDigest,
      proposal.reviewed_source_digest,at',.active,1⟩] }

/-- `materializeCuratedConflictStatements`: the second statement reads the view again. -/
def materialize (revisionId : JsString) (s : Store) : Option Store := do
  let missing := s.visiblePreparedCuratedConflicts.filter fun conflict =>
    conflict.revision_id=revisionId && !s.recorded conflict.revision_id conflict.eventVersion
  let s ← missing.foldlM (fun s conflict => insertEvent conflict.event s) s
  some { s with revisions := s.revisions.map fun revision =>
      if revision.id=revisionId &&
        s.visiblePreparedCuratedConflicts.any (·.revision_id=revision.id) then
        { revision with
          status := .reconfirmation_required, event_version := revision.event_version+1 }
      else revision }

/-- `reconciliationWriterGuard`, apart from the deadline, the game's head and recovery. -/
def writerGuard (s : Store) (id : JsString) (generation : Nat) : Bool :=
  match s.operation? id with
  | none => false
  | some operation => operation.generation=generation && operation.state=.preparing &&
    match operation.supported_game with
    | none => true
    | some game => s.slots.any fun slot => slot.supported_game=game && slot.preparation_id=id

/-- `curatedPreparationStartGuardStatement` and `curatedRunStartGuardStatement`. -/
def unblocked (s : Store) (games : List JsString) : Bool :=
  s.curatedRevisionRead.all fun revision =>
    !(revision.status=.reconfirmation_required && games.contains revision.game)

/-- The insert of a run with its selected games and the guard that follows it. -/
def startRun (id : JsString) (games : List JsString) (s : Store) : Option Store :=
  if s.runs.any (·.id=id) || !games.Nodup || !s.unblocked games then none
  else some { s with runs := s.runs++[⟨id,games,none⟩] }

/-- `createGamePreparationStatement` with `pinNativeCuratedRevisionSelectionStatement`. -/
def startPreparation (id run game : JsString) (s : Store) : Option Store :=
  match s.run? run with
  | none => none
  | some row =>
    if !row.selected_games.contains game || s.slots.any (·.supported_game=game) ||
      !s.unblocked [game] || s.operations.any (·.id=id) ||
      s.pins.any (·.preparation_id=id) then none
    else some { s with
      operations := s.operations++[⟨id,run,some game,.preparing,0,none⟩]
      slots := s.slots++[⟨game,id⟩]
      pins := s.pins++[⟨id,s.revisions.length,s.events.length⟩] }

/-- `createReconciliationOperationStatement`: the operation of a whole run has the run's id. -/
def startReconciliation (run : JsString) (s : Store) : Option Store :=
  match s.run? run with
  | none => none
  | some row =>
    if s.operations.any (·.id=run) then some s
    else if s.slots.any fun slot => row.selected_games.contains slot.supported_game then none
    else some { s with
      operations := s.operations++[⟨run,run,none,.preparing,0,none⟩]
      slots := s.slots++row.selected_games.map fun game => ⟨game,run⟩ }

def setOperation (id : JsString) (change : Operation → Operation) (s : Store) : Store :=
  { s with operations := s.operations.map fun operation =>
      if operation.id=id then change operation else operation }

/-- `reconciliationActionUpdate` and `pauseFailedReconciliationStatement`. -/
def pause (id : JsString) (generation : Nat) (detail : Option String) (s : Store) : Store :=
  s.setOperation id fun operation =>
    if operation.state=.preparing && operation.generation=generation then
      { operation with
        state := .paused, generation := operation.generation+1
        failure_code := if detail.isSome then detail else operation.failure_code }
    else operation

def resume (id : JsString) (generation : Nat) (s : Store) : Store :=
  s.setOperation id fun operation =>
    if operation.state=.paused && operation.generation=generation then
      { operation with state := .preparing }
    else operation

def sealOperation (id : JsString) (s : Store) : Store :=
  s.setOperation id fun operation =>
    if operation.state=.preparing then { operation with state := .sealed } else operation

/-- The publication of a sealed preparation of one game gives its slot back. -/
def publish (id : JsString) (s : Store) : Store :=
  match s.operation? id with
  | some ⟨_,_,some _,.sealed,_,_⟩ =>
    { s with slots := s.slots.filter fun slot => slot.preparation_id≠id }
  | _ => s

/-- `failGamePreparationStatement` and `releaseGamePreparationSlotStatement`, under the guard. -/
def failPreparation (id : JsString) (generation : Nat) (code : String) (s : Store) :
    Option Store :=
  if !s.writerGuard id generation then none
  else match s.operation? id with
    | some ⟨_,_,some _,_,_,_⟩ =>
      let s := s.setOperation id fun operation =>
        if operation.supported_game.isSome && operation.state=.preparing then
          { operation with state := .failed, failure_code := some code }
        else operation
      some { s with slots := s.slots.filter fun slot => slot.preparation_id≠id }
    | _ => some s

/-- The operation of a whole run under the run's outcome. -/
def afterRun (run : JsString) (outcome : RunOutcome) (operation : Operation) : Operation :=
  match outcome with
  | .failed code =>
    if operation.supported_game.isNone && operation.state=.preparing &&
      operation.ingestion_run_id=run then
      { operation with state := .failed, failure_code := some code }
    else operation
  | _ => operation

/-- What `endRun` writes once it finds the run under way. -/
def ending (run : JsString) (outcome : RunOutcome) (s : Store) : Store :=
  { s with
    runs := s.runs.map fun row => if row.id=run then { row with outcome := some outcome } else row
    slots := s.slots.filter fun slot => !(s.operations.any fun operation =>
      operation.id=slot.preparation_id && operation.supported_game.isNone &&
        operation.ingestion_run_id=run)
    operations := s.operations.map (afterRun run outcome) }

/-- A run's terminal event with `terminalIngestionReservationEffects`. -/
def endRun (run : JsString) (outcome : RunOutcome) (s : Store) : Store :=
  match s.run? run with
  | some ⟨_,_,none⟩ => s.ending run outcome
  | _ => s

/-- The owner may abandon a paused preparation, or a sealed one of a single game. -/
def abandonable (operation : Operation) (generation : Nat) : Bool :=
  (operation.state=.paused || operation.supported_game.isSome && operation.state=.sealed) &&
  operation.generation=generation

/-- The abandoned preparation of a game releases its slot, that of a whole run fails the run. -/
def abandon (id : JsString) (generation : Nat) (s : Store) : Option Store :=
  match s.operation? id with
  | none => none
  | some operation =>
    if abandonable operation generation then
      let s := s.setOperation id fun operation =>
        if abandonable operation generation then
          { operation with state := .abandoned, generation := operation.generation+1 }
        else operation
      match operation.supported_game with
      | some _ => some { s with slots := s.slots.filter fun slot => slot.preparation_id≠id }
      | none => some (s.endRun operation.ingestion_run_id (.failed "reconciliation_abandoned"))
    else none

def failRun (run : JsString) (generation : Nat) (code : String) (s : Store) : Option Store :=
  if !s.writerGuard run generation then none else some (s.endRun run (.failed code))

/-- `retainCuratedConflictStatement` through the guarded store; the foreign key asks for the
revision. -/
def retainConflict (conflict : Conflict) (generation : Nat) (s : Store) : Option Store :=
  if !s.writerGuard conflict.preparation_id generation then none
  else if s.conflicts.any fun row => row.preparation_id=conflict.preparation_id &&
    row.revision_id=conflict.revision_id then some s
  else if !s.revisions.any (·.id=conflict.revision_id) then none
  else some { s with conflicts := s.conflicts++[conflict] }

/-- The games a preparation reconciles: the pins of `nextPinnedCuratedRevisionStatement` are of
these. -/
def games (s : Store) (operation : Operation) : List JsString :=
  match operation.supported_game with
  | some game => [game]
  | none => match s.run? operation.ingestion_run_id with
    | some run => run.selected_games
    | none => []

end Store

end CardKeepr.Curated
