import CardKeepr.Lib.Fallible
import CardKeepr.Shared.JsString

namespace CardKeepr.Publication

open Lib Shared

inductive OperationState where
  | approved | waiting_artifacts | waiting_backup | retry_paused | published | failed
  deriving DecidableEq

/-- The states in which an operation may be worked on. -/
def OperationState.isActive : OperationState → Bool
  | .approved | .waiting_artifacts | .waiting_backup => true
  | _ => false

def OperationState.isTerminal : OperationState → Bool
  | .published | .failed => true
  | _ => false

/-- `game_publication_operations`, with instants in milliseconds. -/
structure Operation where
  id : JsString
  candidate_id : JsString
  manifest_digest : JsString
  expected_game_revision_id : JsString
  candidate_generation : Nat
  deadline : Nat
  approved_at : Nat
  inspection_receipt : JsString
  idempotency_key : JsString
  request : JsString
  generation : Nat
  state : OperationState
  failure_code : Option JsString
  resulting_revision_id : Option JsString
  backup_attempt_id : Option JsString
  published_at : Option Nat

inductive CandidateState where
  | preparing | sealed | published | failed
  deriving DecidableEq

/-- `game_candidates`, with the receipt of its `inspection_summary` partition, the semantic receipt
and the predecessor it pinned. -/
structure Candidate where
  preparation_id : JsString
  ingestion_run_id : JsString
  supported_game : JsString
  state : CandidateState
  generation : Nat
  manifest_digest : JsString
  deadline : Nat
  expected_game_revision_id : JsString
  /-- `integrity.sha256` of a summary whose `integrity.complete` is set -/
  inspection : Option JsString
  /-- manifest and content digest of `game_candidate_semantic_receipts` -/
  semantics : Option (JsString × JsString)
  /-- `game_candidate_predecessors` -/
  predecessor : Option (Option JsString)
  /-- a `publication_read_entities` row of kind `supported_games` -/
  described : Bool

/-- The columns that the trigger `game_candidate_identity_immutable` keeps. -/
def Candidate.sameIdentity (old new : Candidate) : Bool :=
  decide (new.preparation_id=old.preparation_id ∧ new.supported_game=old.supported_game ∧
    new.ingestion_run_id=old.ingestion_run_id ∧
    new.expected_game_revision_id=old.expected_game_revision_id ∧ new.deadline=old.deadline)

/-- An update of a row that the trigger refuses, or its deletion, leaves the row. -/
def writtenCandidate : Option Candidate → Option Candidate → Option Candidate
  | none,new => new
  | some old,none => some old
  | some old,some new => if old.sameIdentity new then some new else some old

/-- `reconciliation_operations`. -/
structure Reconciliation where
  isSealed : Bool
  generation : Nat
  /-- `$.card_model` of its pins is `categories` -/
  categories : Bool

/-- `publication_preparations`. -/
structure Preparation where
  manifest_digest : JsString
  generation : Nat
  verified : Bool
  root_digest : Option JsString

inductive ExportState where
  | preparing | verified | failed
  deriving DecidableEq

/-- `publication_export_preparations`. -/
structure ExportPreparation where
  publication_operation_id : JsString
  revision_id : JsString
  state : ExportState
  root_digest : Option JsString
  sequence : Nat
  failure_code : Option JsString

/-- `catalogue_revisions`. -/
structure Revision where
  id : JsString
  ingestion_run_id : JsString
  published_at : Nat
  content_digest : JsString
  expected_previous_revision_id : JsString
  approved_candidate_digest : JsString
  publication_operation_id : Option JsString

/-- `catalogue_composition_games`. -/
structure Member where
  catalogue_revision_id : JsString
  supported_game : JsString
  candidate_id : JsString
  game_revision_id : JsString
  root_digest : JsString

/-- `catalogue_exports`; `available` is its maintenance state. -/
structure CatalogueExport where
  catalogue_revision_id : JsString
  manifest_key : JsString
  manifest_digest : JsString
  available : Bool

/-- `catalogue_backup_attempts`; `verified` also asks for its bookmark and manifest digest. -/
structure Backup where
  idempotency_key : JsString
  catalogue_revision_id : JsString
  verified : Bool
  publication_operation_id : Option JsString
  publication_reserved : Bool

/-- `game_publication_actions`. -/
structure Action where
  idempotency_key : JsString
  publication_operation_id : JsString
  request : JsString
  /-- `$.sha256` and `$.object_key` of a package, or the result of a resumption -/
  result : JsString × JsString

/-- One game of a prepared composition. -/
structure CompositionGame where
  supported_game : JsString
  candidate_id : JsString
  root_digest : JsString
  public_root_digest : Option JsString

structure Health where
  healthy : Bool
  recovering : Bool
  clear : Bool
  releasing : Bool

structure Store where
  operations : List Operation
  candidates : JsString → Option Candidate
  reconciliations : JsString → Option Reconciliation
  /-- `game_candidate_slots`: game and preparation -/
  slots : List (JsString × JsString)
  preparations : JsString → Option Preparation
  exports : JsString → Option ExportPreparation
  /-- `game_catalogue_heads` -/
  heads : JsString → Option JsString
  /-- `game_accepted_candidates` -/
  accepted : JsString → Option JsString
  /-- `catalogue_acceptance_head` -/
  acceptance : Option JsString
  /-- newest first -/
  revisions : List Revision
  members : List Member
  packages : List CatalogueExport
  /-- `catalogue_candidate_publications`: candidate and revision -/
  publications : List (JsString × JsString)
  backups : List Backup
  actions : List Action
  /-- `verified_publication_compositions`, parsed -/
  compositions : JsString → Option (List CompositionGame)
  /-- `catalogue_state.current_revision_id` -/
  current : JsString
  health : Health

/-- The codes by which a guard aborts its batch, and `constraint` for a key. -/
inductive Conflict where
  | publication_writer_conflict | publication_deadline_expired | publication_candidate_conflict
  | recovery_not_verified | publication_composition_conflict
  | publication_legacy_composition_unprepared | publication_backup_pending
  | publication_composition_unverified | publication_package_unverified
  | reconciliation_definition_changed | publication_ownership_conflict | game_revision_mismatch
  | publication_resume_conflict | constraint

/-- `catrev_spine_000`, the revision of an empty catalogue. -/
def spine : JsString := js "catrev_spine_000".toList

/-- `publication_${crypto.randomUUID()}`. -/
def publicationId (uuid : JsString) : JsString := js "publication_".toList++uuid

def revisionOf (id : JsString) : JsString := js "catrev_".toList++id.drop 12

def backupOf (id : JsString) : JsString := js "backup_".toList++id.drop 12

def manifestKey (revision digest : JsString) : JsString :=
  js "catalogue-public-manifests/".toList++revision++js "/".toList++digest++js ".json".toList

def packageAction (id digest : JsString) : JsString :=
  js "public-package:".toList++id++js ":".toList++digest

namespace Store

def operation (s : Store) (id : JsString) : Option Operation := s.operations.find? fun p => p.id=id

/-- `UPDATE game_publication_operations … WHERE id=?`. -/
def updateOperation (s : Store) (id : JsString) (f : Operation → Operation) : Store :=
  { s with operations := s.operations.map fun p => if p.id=id then f p else p }

def writable (s : Store) (id : JsString) (generation : Nat) : Bool :=
  (s.operation id).any fun p => decide (p.generation=generation) && p.state.isActive

/-- `latestAcceptanceCheckpointSql`. -/
def checkpoint (s : Store) (revision : JsString) : Bool :=
  decide (revision=spine) || s.backups.any fun b =>
    decide (b.catalogue_revision_id=revision) && b.verified && (match s.acceptance with
      | some head => (s.operation head).any fun p => decide (p.state=.published) &&
          decide (p.resulting_revision_id=some revision) &&
          decide (b.publication_operation_id=some p.id)
      | none => decide (b.publication_operation_id=none) && s.revisions.any fun r =>
          decide (r.id=revision ∧ r.publication_operation_id=none))

/-- `equalGameSemanticsSql`. -/
def equalSemantics (s : Store) (candidate : JsString) : Bool :=
  (s.candidates candidate).any fun c => match s.accepted c.supported_game with
    | none => false
    | some head => decide (c.predecessor=some (some head)) && (s.candidates head).any fun prior =>
        decide (prior.state=.published) && match prior.semantics,c.semantics with
          | some before,some after => decide (before.1=prior.manifest_digest) &&
              decide (after.1=c.manifest_digest) && decide (after.2=before.2)
          | _,_ => false

/-- The joins of the switch guard; an unchanged acceptance asks for equal semantics in place of
the export. -/
def candidateReady (s : Store) (id : JsString) (unchanged : Bool) : Bool :=
  (s.operation id).any fun p => (s.candidates p.candidate_id).any fun c =>
    ((s.reconciliations c.preparation_id).any fun o =>
      o.isSealed && decide (o.generation=p.candidate_generation)) &&
    decide ((c.supported_game,c.preparation_id)∈s.slots) &&
    decide (s.heads c.supported_game=some p.expected_game_revision_id) &&
    decide (c.predecessor=some (s.accepted c.supported_game)) &&
    ((s.preparations p.candidate_id).any fun a => decide (a.manifest_digest=p.manifest_digest) &&
      decide (a.generation=p.candidate_generation) && a.verified) &&
    (if unchanged then s.equalSemantics p.candidate_id
      else (s.exports p.candidate_id).any fun e => decide (e.publication_operation_id=id) &&
        decide (e.state=.verified) && e.root_digest.isSome &&
        decide (e.revision_id=revisionOf id)) &&
    decide (c.state=.sealed) && decide (c.generation=p.candidate_generation) &&
    decide (c.manifest_digest=p.manifest_digest) && decide (c.deadline=p.deadline) &&
    decide (c.expected_game_revision_id=p.expected_game_revision_id) && c.described &&
    decide (c.inspection=some p.inspection_receipt)

/-- A row of the two tables that the switch guard compares. -/
abbrev CompositionRow := JsString × JsString × Option JsString × Option JsString

def gameRow (g : CompositionGame) : CompositionRow :=
  (g.supported_game,g.candidate_id,some g.root_digest,g.public_root_digest)

/-- `expected`: the members of the predecessor for the other games, and the candidate. -/
def expectedRows (s : Store) (id predecessor : JsString) : List CompositionRow :=
  match s.operation id with
  | none => []
  | some p => match s.candidates p.candidate_id with
    | none => []
    | some c =>
      ((s.members.filter fun m => decide (m.catalogue_revision_id=predecessor) &&
          decide (m.supported_game≠c.supported_game)).filterMap fun m =>
        (s.exports m.candidate_id).bind fun e =>
          if e.state=.verified then
            some (m.supported_game,m.candidate_id,some m.root_digest,e.root_digest)
          else none)++
      match s.preparations p.candidate_id,s.exports p.candidate_id with
      | some a,some e =>
        if e.state=.verified then
          [(c.supported_game,p.candidate_id,a.root_digest,e.root_digest)]
        else []
      | _,_ => []

def sameRows (a b : List CompositionRow) : Bool :=
  (a.all fun x => decide (x∈b)) && b.all fun x => decide (x∈a)

/-- `publicationSwitchGuard`, at the database's clock. -/
def switchGuard (s : Store) (id : JsString) (generation : Nat) (predecessor composition : JsString)
    (now : Nat) (unchanged : Bool) : Except Conflict Unit := do
  demand (s.writable id generation) .publication_writer_conflict
  demand (!((s.operation id).any fun p => decide (p.deadline ≤ now))) .publication_deadline_expired
  demand (s.candidateReady id unchanged) .publication_candidate_conflict
  demand (s.health.healthy && !s.health.recovering && s.health.clear && !s.health.releasing)
    .recovery_not_verified
  demand (decide (s.current=predecessor)) .publication_composition_conflict
  demand (decide (predecessor=spine) ||
    s.members.any fun m => decide (m.catalogue_revision_id=predecessor))
    .publication_legacy_composition_unprepared
  demand (s.checkpoint predecessor) .publication_backup_pending
  demand (s.compositions composition).isSome .publication_composition_unverified
  if unchanged then
    demand ((s.revisions.any fun r => decide (r.id=predecessor ∧ r.content_digest=composition)) &&
      s.packages.any fun e => decide (e.catalogue_revision_id=predecessor ∧
        e.manifest_digest=composition ∧ e.manifest_key=manifestKey predecessor composition) &&
        e.available) .publication_package_unverified
  else do
    demand (s.actions.any fun a => decide (a.publication_operation_id=id ∧
      a.idempotency_key=packageAction id composition ∧
      a.result=(composition,manifestKey (revisionOf id) composition)))
      .publication_package_unverified
    demand (sameRows (s.expectedRows id predecessor)
      (((s.compositions composition).getD []).map gameRow)) .publication_composition_conflict

/-- `acceptGameEvidenceStatements` for a candidate of a game. -/
def acceptEvidence (s : Store) (id candidate game : JsString) : Store :=
  { s with
    accepted := fun g => if g=game then some candidate else s.accepted g
    acceptance := some id }

/-- `completePublicationStatements`. -/
def completePublication (s : Store) (id : JsString) (generation : Nat) (p : Operation)
    (c : Candidate) (revision : JsString) (at' : Nat) : Except Conflict Store := do
  demand (!(s.publications.any fun b => decide (b.1=p.candidate_id))) .constraint
  demand (!(s.backups.any fun b => decide (b.idempotency_key=backupOf id) ||
    (decide (b.publication_operation_id=some id) && b.publication_reserved))) .constraint
  let t : Store := { s with
    publications := s.publications++[(p.candidate_id,revision)]
    backups := s.backups++[⟨backupOf id,revision,false,some id,true⟩]
    candidates := fun d =>
      if d=p.candidate_id then some { c with state := .published } else s.candidates d
    slots := s.slots.filter fun slot => decide (slot.2≠c.preparation_id) }
  let u := t.updateOperation id fun q => if q.generation=generation then
    { q with
      state := .published
      failure_code := none
      resulting_revision_id := some revision
      backup_attempt_id := some (backupOf id)
      published_at := some at' } else q
  .ok (u.acceptEvidence id p.candidate_id c.supported_game)

/-- The revision of a game that a composition takes over from its predecessor. -/
def predecessorRevision (s : Store) (predecessor game : JsString) : Option JsString :=
  (s.members.find? fun m => decide (m.catalogue_revision_id=predecessor ∧
    m.supported_game=game)).map Member.game_revision_id

/-- The rows that `INSERT INTO catalogue_composition_games` makes. -/
def newMembers (s : Store) (p : Operation) (revision predecessor : JsString)
    (games : List CompositionGame) : Except Conflict (List Member) :=
  games.mapM fun g =>
    match (if g.candidate_id=p.candidate_id then some revision
      else s.predecessorRevision predecessor g.supported_game) with
    | some r => .ok ⟨revision,g.supported_game,g.candidate_id,r,g.root_digest⟩
    | none => .error .constraint

/-- `publicationSwitchStatements`. -/
def switch (s : Store) (id : JsString) (generation : Nat) (predecessor composition : JsString)
    (now : Nat) : Except Conflict Store := do
  s.switchGuard id generation predecessor composition now false
  match s.operation id with
  | none => .error .publication_candidate_conflict
  | some p => match s.candidates p.candidate_id with
    | none => .error .publication_candidate_conflict
    | some c => do
      let revision := revisionOf id
      demand (!(s.revisions.any fun r => decide (r.id=revision ∨ r.publication_operation_id=some id)))
        .constraint
      demand (!(s.packages.any fun e => decide (e.catalogue_revision_id=revision ∨
        e.manifest_key=manifestKey revision composition))) .constraint
      let games := (s.compositions composition).getD []
      let members ← s.newMembers p revision predecessor games
      demand (decide ((games.map CompositionGame.supported_game).Nodup)) .constraint
      let t : Store := { s with
        revisions := ⟨revision,c.ingestion_run_id,now,composition,predecessor,p.manifest_digest,
            some id⟩::s.revisions
        packages := s.packages++[⟨revision,manifestKey revision composition,composition,true⟩]
        members := s.members++members
        heads := fun g =>
          if g=c.supported_game then (s.heads g).map fun _ => revision else s.heads g
        current := revision }
      t.completePublication id generation p c revision now

/-- `unchangedPublicationStatements`, which keeps the predecessor as its revision. -/
def acceptUnchanged (s : Store) (id : JsString) (generation : Nat)
    (predecessor composition : JsString) (now : Nat) : Except Conflict Store := do
  s.switchGuard id generation predecessor composition now true
  match s.operation id with
  | none => .error .publication_candidate_conflict
  | some p => match s.candidates p.candidate_id with
    | none => .error .publication_candidate_conflict
    | some c => s.completePublication id generation p c predecessor now

/-- `publicationPreparationGuard` without a sequence. -/
def preparationGuard (s : Store) (candidate manifest : JsString) (generation at' : Nat) :
    Except Conflict Unit := do
  demand ((s.candidates candidate).any fun c =>
    (s.reconciliations c.preparation_id).any Reconciliation.categories)
    .reconciliation_definition_changed
  demand ((s.candidates candidate).any fun c => decide (c.state=.sealed) &&
    decide (c.generation=generation) && decide (c.manifest_digest=manifest) &&
    decide ((c.supported_game,c.preparation_id)∈s.slots) &&
    (s.reconciliations c.preparation_id).any fun o =>
      o.isSealed && decide (o.generation=generation)) .publication_ownership_conflict
  demand (!((s.candidates candidate).any fun c => decide (c.deadline ≤ at')))
    .publication_deadline_expired
  demand ((s.candidates candidate).any fun c =>
    decide (s.heads c.supported_game=some c.expected_game_revision_id)) .game_revision_mismatch
  demand s.health.healthy .recovery_not_verified

/-- The approval batch. -/
def approve (s : Store) (p : Operation) : Except Conflict Store := do
  s.preparationGuard p.candidate_id p.manifest_digest p.candidate_generation p.approved_at
  demand (!(s.operations.any fun q => decide (q.id=p.id ∨ q.candidate_id=p.candidate_id ∨
    q.idempotency_key=p.idempotency_key))) .constraint
  .ok { s with operations := s.operations++[p] }

/-- `updatePublicationState`. -/
def updatePublicationState (s : Store) (id : JsString) (generation : Nat) (state : OperationState)
    (code : Option JsString) : Store :=
  s.updateOperation id fun p => if p.generation=generation ∧ p.state.isActive=true then
    { p with state := state, failure_code := code } else p

/-- `pausePublicationSuccessor`: the export has not moved on and no attempt of the next shard was
reserved. -/
def pausePublicationSuccessor (s : Store) (id : JsString) (generation sequence : Nat)
    (next : JsString) : Store :=
  let own := ((s.operation id).bind fun p => s.exports p.candidate_id).filter fun e =>
    decide (e.publication_operation_id=id)
  if own.elim 0 ExportPreparation.sequence=sequence ∧
      (s.actions.any fun a => next.isPrefixOf a.idempotency_key)=false then
    s.updatePublicationState id generation .retry_paused
      (some (js "publication_successor_dispatch_exhausted".toList))
  else s

/-- `publicationResumeStatements`. -/
def resume (s : Store) (id : JsString) (generation : Nat) (action : Action) (at' : Nat) :
    Except Conflict Store := do
  demand (((s.operation id).any fun p => decide (p.generation=generation) && !p.state.isTerminal &&
    decide (at' < p.deadline)) && s.health.healthy && !s.health.recovering && s.health.clear)
    .publication_resume_conflict
  demand (!(s.actions.any fun a => decide (a.idempotency_key=action.idempotency_key))) .constraint
  let t := s.updateOperation id fun p =>
    { p with generation := p.generation+1, state := .approved, failure_code := none }
  .ok { t with actions := t.actions++[action] }

/-- `retainPublicPackageManifest`. -/
def retainPackage (s : Store) (id : JsString) (generation : Nat) (digest : JsString) (now : Nat) :
    Store :=
  if s.writable id generation=true ∧ ((s.operation id).any fun p => decide (now < p.deadline))=true ∧
      (s.actions.any fun a => decide (a.idempotency_key=packageAction id digest))=false then
    { s with actions := s.actions++[⟨packageAction id digest,id,
        js "public-package@1".toList,(digest,manifestKey (revisionOf id) digest)⟩] }
  else s

/-- `retainVerifiedPublicationComposition`. -/
def retainComposition (s : Store) (digest : JsString) (games : List CompositionGame) : Store :=
  { s with compositions := fun d =>
      if d=digest then some ((s.compositions d).getD games) else s.compositions d }

end Store

end CardKeepr.Publication
