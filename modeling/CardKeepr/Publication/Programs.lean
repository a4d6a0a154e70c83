import CardKeepr.Lib.Threads
import CardKeepr.Publication.Tables
import Mathlib.Data.List.Sort

namespace CardKeepr.Publication

open Lib Shared

/-- The tables that only the rest of the system writes. -/
structure Surroundings where
  candidates : JsString → Option Candidate
  reconciliations : JsString → Option Reconciliation
  slots : List (JsString × JsString)
  preparations : JsString → Option Preparation
  packages : List CatalogueExport
  backups : List Backup
  health : Health

inductive Op where
  | operation (id : JsString)
  | operationByKey (key : JsString)
  | candidate (id : JsString)
  | preparation (candidate : JsString)
  | exportOf (candidate : JsString)
  | compositionHead
  | checkpoint (revision : JsString)
  | members (revision : JsString)
  | equalSemantics (candidate : JsString)
  | unchangedPackage (revision : JsString)
  | action (key : JsString)
  | approve (p : Operation)
  | updateState (id : JsString) (generation : Nat) (state : OperationState)
    (code : Option JsString)
  | pauseSuccessor (id : JsString) (generation sequence : Nat) (next : JsString)
  | resume (id : JsString) (generation : Nat) (action : Action) (at' : Nat)
  | retainPackage (id : JsString) (generation : Nat) (digest : JsString) (now : Nat)
  | retainComposition (digest : JsString) (games : List CompositionGame)
  | switch (id : JsString) (generation : Nat) (predecessor composition : JsString) (now : Nat)
  | acceptUnchanged (id : JsString) (generation : Nat) (predecessor composition : JsString)
    (now : Nat)
  | surroundings (e : Surroundings)
  | exportUnit (candidate : JsString) (e : ExportPreparation)

def Op.Ans : Op → Type
  | .operation _ | .operationByKey _ => Option Operation
  | .candidate _ => Option Candidate
  | .preparation _ => Option Preparation
  | .exportOf _ => Option ExportPreparation
  | .compositionHead => JsString
  | .checkpoint _ | .equalSemantics _ => Bool
  | .members _ => List Member
  | .unchangedPackage _ => Option JsString
  | .action _ => Option Action
  | .approve _ | .resume _ _ _ _ | .switch _ _ _ _ _ | .acceptUnchanged _ _ _ _ _ =>
    Except Conflict Unit
  | .updateState _ _ _ _ | .pauseSuccessor _ _ _ _ | .retainPackage _ _ _ _
  | .retainComposition _ _ | .surroundings _ | .exportUnit _ _ => Unit

/-- A batch commits as a whole or leaves the store as it was. -/
def batch (s : Store) : Except Conflict Store → Except Conflict Unit × Store
  | .ok t => (.ok (),t)
  | .error e => (.error e,s)

/-- An export preparation changes only while it is being prepared. -/
def Store.exportUnit (s : Store) (candidate : JsString) (e : ExportPreparation) : Store :=
  if (s.exports candidate).all (fun old => decide (old.state=.preparing))=true then
    { s with exports := fun c => if c=candidate then some e else s.exports c }
  else s

def Store.surround (s : Store) (e : Surroundings) : Store :=
  { s with
    candidates := fun id => writtenCandidate (s.candidates id) (e.candidates id)
    reconciliations := e.reconciliations
    slots := e.slots
    preparations := e.preparations
    packages := e.packages
    backups := e.backups
    health := e.health }

/-- The digest of a revision whose retained package can be reused. -/
def Store.unchangedPackage (s : Store) (revision : JsString) : Option JsString :=
  (s.revisions.find? fun r => decide (r.id=revision) && r.publication_operation_id.isSome &&
    s.packages.any fun e => decide (e.catalogue_revision_id=revision ∧
      e.manifest_digest=r.content_digest) && e.available).map Revision.content_digest

def handle (_ : Nat) : (op : Op) → Store → op.Ans × Store
  | .operation id,s => (s.operation id,s)
  | .operationByKey key,s => (s.operations.find? fun p => p.idempotency_key=key,s)
  | .candidate id,s => (s.candidates id,s)
  | .preparation c,s => (s.preparations c,s)
  | .exportOf c,s => (s.exports c,s)
  | .compositionHead,s => (s.current,s)
  | .checkpoint r,s => (s.checkpoint r,s)
  | .members r,s => (s.members.filter fun m => m.catalogue_revision_id=r,s)
  | .equalSemantics c,s => (s.equalSemantics c,s)
  | .unchangedPackage r,s => (s.unchangedPackage r,s)
  | .action key,s => (s.actions.find? fun a => a.idempotency_key=key,s)
  | .approve p,s => batch s (s.approve p)
  | .updateState id g state code,s => ((),s.updatePublicationState id g state code)
  | .pauseSuccessor id g n next,s => ((),s.pausePublicationSuccessor id g n next)
  | .resume id g a at',s => batch s (s.resume id g a at')
  | .retainPackage id g d now,s => ((),s.retainPackage id g d now)
  | .retainComposition d games,s => ((),s.retainComposition d games)
  | .switch id g p c now,s => batch s (s.switch id g p c now)
  | .acceptUnchanged id g p c now,s => batch s (s.acceptUnchanged id g p c now)
  | .surroundings e,s => ((),s.surround e)
  | .exportUnit c e,s => ((),s.exportUnit c e)

inductive Problem where
  | problem (code : String)
  | conflict (c : Conflict)

abbrev Program (α : Type) := Prog Op Op.Ans Empty Problem α

def perform (op : Op) : Program op.Ans := .call op .ret

def throw' {α : Type} (code : String) : Program α := .fail (.problem code)

structure ApprovalInput where
  candidate_id : JsString
  manifest_digest : JsString
  expected_game_revision_id : JsString
  generation : Nat
  idempotency_key : JsString
  /-- `canonicalJson(input)` -/
  request : JsString

/-- An earlier approval under the key, which must be of the same request. -/
def approvalReplay (input : ApprovalInput) : Program (Option JsString) := do
  match ←perform (.operationByKey input.idempotency_key) with
  | none => pure none
  | some prior =>
    if prior.request≠input.request then throw' "idempotency_conflict"
    else pure (some prior.id)

/-- `uuid` is what `crypto.randomUUID` returns, `integrity` the receipt of a candidate that the
readiness inspection finds ready. -/
def approveGamePublication (input : ApprovalInput) (uuid : JsString) (integrity : Option JsString)
    (at' : Nat) : Program JsString := do
  match ←approvalReplay input with
  | some id => pure id
  | none => do
    match ←perform (.candidate input.candidate_id) with
    | none => throw' "candidate_not_found"
    | some candidate =>
      if candidate.expected_game_revision_id≠input.expected_game_revision_id then
        throw' "game_revision_mismatch"
      else match integrity with
        | none => throw' "candidate_not_ready"
        | some receipt => do
          let id := publicationId uuid
          match ←perform (.approve ⟨id,input.candidate_id,input.manifest_digest,
              input.expected_game_revision_id,input.generation,candidate.deadline,at',receipt,
              input.idempotency_key,input.request,0,.approved,none,none,none,none⟩) with
          | .ok _ => pure id
          | .error _ => do
            match ←approvalReplay input with
            | some winner => pure winner
            | none => throw' "publication_approval_conflict"

/-- What one attempt of a publication meets: its clock, and whether the objects it reads verify. -/
structure Attempt where
  now : Nat
  intact : Bool

inductive Outcome where
  | published
  | waiting_backup
  | paused
  | failed (code : String)

/-- What a conflict means for the operation: another attempt, an outcome, or an error. -/
def attemptConflict : Conflict → Option (Option Outcome)
  | .publication_deadline_expired => some (some (.failed "publication_deadline_expired"))
  | .publication_candidate_conflict => some (some (.failed "publication_candidate_conflict"))
  | .publication_composition_conflict => some none
  | .publication_backup_pending => some (some .waiting_backup)
  | _ => none

/-- After a batch that did not commit: the operation may have been published by another worker. -/
def afterConflict (id : JsString) (c : Conflict) (again : Program Outcome) : Program Outcome := do
  let current : Option Operation ← perform (.operation id)
  if (current.any fun p => decide (p.state=.published))=true then pure .published
  else match attemptConflict c with
    | some (some outcome) => pure outcome
    | some none => again
    | none => .fail (.conflict c)

/-- The attempts of `acceptUnchangedGamePublication`. -/
def acceptAttempts (id : JsString) (generation : Nat) : List Attempt → Program Outcome
  | [] => pure .paused
  | a::rest => do
    let revision : JsString ← perform .compositionHead
    let ready : Bool ← perform (.checkpoint revision)
    if ready=false then pure .waiting_backup
    else do
      match ←perform (.unchangedPackage revision) with
      | none => throw' "publication_artifacts_unverified"
      | some digest =>
        if a.intact=false then throw' "publication_artifacts_unverified"
        else do
          match ←perform (.acceptUnchanged id generation revision digest a.now) with
          | .ok _ => pure .published
          | .error c => afterConflict id c (acceptAttempts id generation rest)

def acceptUnchangedGamePublication (id candidate : JsString) (generation : Nat)
    (attempts : List Attempt) : Program (Option Outcome) := do
  let equal : Bool ← perform (.equalSemantics candidate)
  if equal=false then pure none
  else do
    let outcome ← acceptAttempts id generation attempts
    pure (some outcome)

section
-- `sha256Text(canonicalJson({ contract, games }))`
variable (digest : List CompositionGame → JsString)

/-- The games of `composePublicationArtifacts`, in the order of the given candidates. -/
def composeGames : List JsString → Program (List CompositionGame)
  | [] => pure []
  | id::ids => do
    match ←perform (.candidate id) with
    | none => throw' "publication_preparation_not_found"
    | some candidate => do
      match ←perform (.preparation id) with
      | some ⟨_,_,true,some root⟩ => do
        match ←perform (.exportOf id) with
        | some e =>
          if e.state=.verified then do
            let games ← composeGames ids
            pure (⟨candidate.supported_game,id,root,e.root_digest⟩::games)
          else throw' "public_export_unverified"
        | none => throw' "public_export_unverified"
      | _ => throw' "publication_artifacts_unverified"

/-- The digest of the composition that was retained; `intact` says that every object verified. -/
def composePublicationArtifacts (ids : List JsString) (intact : Bool) : Program JsString :=
  if ids.Nodup then do
    let games ← composeGames ids
    let sorted := games.insertionSort fun a b => compareUnits a.supported_game b.supported_game ≤ 0
    if (sorted.map CompositionGame.supported_game).Nodup then
      if intact=true then do
        perform (.retainComposition (digest sorted) sorted)
        pure (digest sorted)
      else throw' "publication_composition_corrupt"
    else throw' "duplicate_composition_game"
  else throw' "invalid_publication_composition"

/-- The attempts of `advanceGamePublication` to switch. -/
def switchAttempts (id candidate game : JsString) (generation : Nat) :
    List Attempt → Program Outcome
  | [] => pure .paused
  | a::rest => do
    let head : JsString ← perform .compositionHead
    let ready : Bool ← perform (.checkpoint head)
    if ready=false then pure .waiting_backup
    else do
      let members : List Member ← perform (.members head)
      let others := (members.filter fun m => decide (m.supported_game≠game)).map Member.candidate_id
      let composition ← composePublicationArtifacts digest (others++[candidate]) a.intact
      perform (.retainPackage id generation composition a.now)
      match ←perform (.switch id generation head composition a.now) with
      | .ok _ => pure .published
      | .error c => afterConflict id c (switchAttempts id candidate game generation rest)

/-- The state that an outcome leaves; a published operation was already changed by its batch. -/
def settleOutcome (id : JsString) (generation : Nat) : Outcome → Program Unit
  | .published => .ret ()
  | .waiting_backup => perform (.updateState id generation .waiting_backup none)
  | .paused => perform (.updateState id generation .retry_paused
      (some (js "publication_composition_contention".toList)))
  | .failed code => perform (.updateState id generation .failed (some (js code.toList)))

/-- From a verified export on, or the state in which its absence leaves the operation. -/
def advanceExport (id candidate game : JsString) (generation : Nat) (attempts : List Attempt) :
    Program Unit := do
  match ←perform (.exportOf candidate) with
  | none => perform (.updateState id generation .waiting_artifacts none)
  | some prepared => match prepared.state with
    | .verified => do
      let outcome ← switchAttempts digest id candidate game generation attempts
      settleOutcome id generation outcome
    | .failed => perform (.updateState id generation .failed prepared.failure_code)
    | .preparing => perform (.updateState id generation .waiting_artifacts prepared.failure_code)

/-- What one call meets: the readiness of its candidate and its attempts. -/
structure Weather where
  ready : Bool
  unchanged : List Attempt
  switches : List Attempt

def advanceGamePublication (id : JsString) (generation : Nat) (at' : Nat) (w : Weather) :
    Program Unit := do
  match ←perform (.operation id) with
  | none => throw' "publication_not_found"
  | some operation =>
    if operation.state.isActive=false then pure ()
    else if operation.generation≠generation then throw' "publication_writer_conflict"
    else if operation.deadline ≤ at' then
      perform (.updateState id generation .failed (some (js "publication_deadline_expired".toList)))
    else do
      match ←perform (.candidate operation.candidate_id) with
      | none => throw' "candidate_not_found"
      | some candidate =>
        if w.ready=false ∨ candidate.generation≠operation.candidate_generation then
          perform (.updateState id generation .failed
            (some (js "publication_candidate_conflict".toList)))
        else do
          let prepared : Option Preparation ← perform (.preparation operation.candidate_id)
          if (prepared.any Preparation.verified)=false then
            perform (.updateState id generation .waiting_artifacts none)
          else do
            match ←acceptUnchangedGamePublication id operation.candidate_id generation
                (w.unchanged.take 3) with
            | some outcome => settleOutcome id generation outcome
            | none =>
              advanceExport digest id operation.candidate_id candidate.supported_game generation
                (w.switches.take 3)

end

/-- With a successor, only while its export has not moved on. -/
def pauseGamePublication (id : JsString) (generation : Nat) (code : JsString)
    (successor : Option (Nat × JsString)) : Program Unit := do
  match ←perform (.operation id) with
  | none => throw' "publication_not_found"
  | some _ => match successor with
    | some (sequence,next) => perform (.pauseSuccessor id generation sequence next)
    | none => perform (.updateState id generation .retry_paused (some code))

/-- `request` and `result` are the canonical texts of the request and of its answer. -/
def resumeGamePublication (id : JsString) (generation : Nat) (key request result : JsString)
    (at' : Nat) : Program Unit := do
  match ←perform (.operation id) with
  | none => throw' "publication_not_found"
  | some _ => do
    match ←perform (.action key) with
    | some prior =>
      if prior.request≠request then throw' "idempotency_conflict" else pure ()
    | none => do
      match ←perform (.resume id generation ⟨key,id,request,(result,[])⟩ at') with
      | .ok _ => pure ()
      | .error _ => do
        let winner : Option Action ← perform (.action key)
        if (winner.map Action.request)=some request then pure ()
        else throw' "publication_resume_conflict"

def Op.isWorld : Op → Bool
  | .surroundings _ | .exportUnit _ _ => true
  | _ => false

/-- The threads of the protocol. A UUID is 36 characters long. -/
inductive Started (digest : List CompositionGame → JsString) : Program Unit → Prop
  | approve (input : ApprovalInput) (uuid : JsString) (integrity : Option JsString) (at' : Nat)
    (h : uuid.length=36) :
    Started digest (approveGamePublication input uuid integrity at' >>= fun _ => .ret ())
  | advance (id : JsString) (generation at' : Nat) (w : Weather) :
    Started digest (advanceGamePublication digest id generation at' w)
  | pause (id : JsString) (generation : Nat) (code : JsString)
    (successor : Option (Nat × JsString)) :
    Started digest (pauseGamePublication id generation code successor)
  | resume (id : JsString) (generation : Nat) (key request result : JsString) (at' : Nat) :
    Started digest (resumeGamePublication id generation key request result at')
  | world (op : Op) (h : op.isWorld=true) : Started digest (.call op fun _ => .ret ())

end CardKeepr.Publication
