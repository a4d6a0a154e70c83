import CardKeepr.Curated.Store

namespace CardKeepr.Curated

open Shared

-- Owner mutations and staged conflicts as steps over the store. A request of the owner reads its
-- row in one step and commits in another, and so does `CuratedConflictPreparation.record`; whatever
-- stands between the two steps may happen there.

structure OwnerRequest where
  idempotency_key : JsString
  request_digest : JsString
  revision_id : JsString
  expected_event_version : Nat
  conflict_digest : Option JsString
  rationale : JsString
  observedAt : Nat
  deriving DecidableEq

/-- What `existingRevisionMutation` hands to the mutation. -/
structure OwnerRead where
  request : OwnerRequest
  row : Revision
  conflict : Option PendingConflict
  deriving DecidableEq

/-- What `record` has read when it writes: the content it computed, and its writer generation. -/
structure ConflictRead where
  conflict : Conflict
  generation : Nat
  deriving DecidableEq

structure State where
  store : Store
  reads : List OwnerRead
  stagings : List ConflictRead
  deriving DecidableEq

def State.new : State := ⟨.new,[],[]⟩

/-- A request to create a revision, past `validateCuratedRevision`. -/
structure Creation where
  idempotency_key : JsString
  request_digest : JsString
  id : JsString
  proposal : Proposal
  proposal_digest : JsString
  observedAt : Nat

namespace Store

def operationIdentity (idempotencyKey : JsString) : JsString :=
  js "curop_".toList++(sha256Text idempotencyKey).take 32

/-- The retained response of a key, or the refusal of a key bound to another request. -/
def idempotencyReplay (s : Store) (key requestDigest : JsString) :
    Option (Except String MutationResult) :=
  (s.acknowledged.find? (·.idempotency_key=key)).map fun row =>
    if row.request_digest=requestDigest then .ok row.response
    else .error "The idempotency key is already bound to another request."

def createCuratedRevision (input : Creation) (s : Store) : Option Store :=
  if (s.idempotencyReplay input.idempotency_key input.request_digest).isSome ||
    !input.proposal.admissible || input.proposal.supersedes_revision_id.isSome then none
  else do
    let s ← insertAuthored input.id input.proposal input.proposal_digest input.observedAt s
    let s ← insertEvent ⟨input.id,1,.authored input.proposal.reviewed_source_digest none,
      input.observedAt⟩ s
    acknowledge ⟨input.idempotency_key,input.request_digest,⟨operationIdentity
      input.idempotency_key,input.id,.active,1,input.proposal_digest,
      "curated_revision_created"⟩⟩ s

/-- The reads of `existingRevisionMutation` after its materialisation. -/
def existingRevisionMutation (request : OwnerRequest) (s : Store) : Option OwnerRead :=
  if (s.idempotencyReplay request.idempotency_key request.request_digest).isSome then none
  else match s.curatedRevision? request.revision_id with
    | none => none
    | some row =>
      if row.status.applicable && request.expected_event_version=row.event_version then
        some ⟨request,row,none⟩
      else none

/-- `assertConflictBinding`. -/
def bound (read : OwnerRead) : Bool :=
  match read.conflict with
  | none => read.request.conflict_digest=none
  | some conflict => read.request.conflict_digest=some conflict.conflict_digest

/-- `curatedLifecycleMutationStatements`: the event row is written whether or not the update found
its revision. -/
def appendLifecycleMutation (read : OwnerRead) (status : RevisionStatus) (details : EventDetails)
    (code : String) (s : Store) : Option Store := do
  let version := read.row.event_version+1
  let s := updateRevision read.row.id read.row.event_version status version s
  let s ← insertEvent ⟨read.row.id,version,details,read.request.observedAt⟩ s
  acknowledge ⟨read.request.idempotency_key,read.request.request_digest,⟨operationIdentity
    read.request.idempotency_key,read.row.id,status,version,read.row.content_digest,code⟩⟩ s

def reaffirmCuratedRevision (read : OwnerRead) (s : Store) : Option Store :=
  match read.conflict with
  | none => none
  | some conflict =>
    if read.row.status=.reconfirmation_required &&
      read.request.conflict_digest=some conflict.conflict_digest then
      s.appendLifecycleMutation read .active (.reaffirmed conflict.conflict_id
        conflict.conflict_digest conflict.observed_source_digest read.request.rationale)
        "curated_revision_reaffirmed"
    else none

def retireCuratedRevision (read : OwnerRead) (s : Store) : Option Store :=
  if bound read then
    s.appendLifecycleMutation read .retired (.retired (read.conflict.map (·.conflict_id))
      (read.conflict.map (·.conflict_digest)) read.request.rationale) "curated_revision_retired"
  else none

def supersedeCuratedRevision (read : OwnerRead) (id : JsString) (proposal : Proposal)
    (proposalDigest : JsString) (s : Store) : Option Store :=
  if !bound read || !proposal.admissible ||
    proposal.supersedes_revision_id≠some read.row.id then none
  else do
    let version := read.row.event_version+1
    let at' := read.request.observedAt
    let s := updateRevision read.row.id read.row.event_version .superseded version s
    let s ← insertEvent ⟨read.row.id,version,.superseded id read.request.rationale
      (read.conflict.map (·.conflict_digest)),at'⟩ s
    let s ← insertAuthored id proposal proposalDigest at' s
    let s ← insertEvent ⟨id,1,.authored proposal.reviewed_source_digest (some read.row.id),at'⟩ s
    acknowledge ⟨read.request.idempotency_key,read.request.request_digest,⟨operationIdentity
      read.request.idempotency_key,id,.active,1,proposalDigest,"curated_revision_superseded"⟩⟩ s

/-- The reads of `record`: a revision that already requires reconfirmation is not staged again. -/
def readConflict (preparation : JsString) (generation : Nat) (revision : JsString)
    (details : PendingConflict) (observedAt : Nat) (s : Store) : Option ConflictRead :=
  match s.operation? preparation,s.curatedRevision? revision with
  | some operation,some row =>
    if (s.games operation).contains row.game && row.status≠.reconfirmation_required then
      some ⟨⟨preparation,revision,row.event_version+1,details,observedAt⟩,generation⟩
    else none
  | _,_ => none

end Store

inductive Move where
  | startRun (id : JsString) (games : List JsString)
  | startPreparation (id run game : JsString)
  | startReconciliation (run : JsString)
  | pause (id : JsString) (generation : Nat) (detail : Option String)
  | resume (id : JsString) (generation : Nat)
  | abandon (id : JsString) (generation : Nat)
  | sealOperation (id : JsString)
  | publish (id : JsString)
  | failPreparation (id : JsString) (generation : Nat) (code : String)
  | failRun (run : JsString) (generation : Nat) (code : String)
  /-- a run that ends without a reconciliation's verdict on its sources -/
  | endRun (run : JsString) (outcome : RunOutcome)
  | readConflict (preparation : JsString) (generation : Nat) (revision : JsString)
      (details : PendingConflict) (observedAt : Nat)
  | retainConflict (staging : Nat)
  | materialize (revision : JsString)
  | create (input : Creation)
  | look (request : OwnerRequest)
  | pendingConflict (read : Nat)
  | reaffirm (read : Nat)
  | retire (read : Nat)
  | supersede (read : Nat) (id : JsString) (proposal : Proposal) (proposalDigest : JsString)

namespace State

/-- A batch: all of it, or nothing. -/
def batch (σ : State) (statements : Store → Option Store) : State :=
  match statements σ.store with
  | none => σ
  | some s => { σ with store := s }

/-- The batch of the owner's request that made the read. -/
def mutate (σ : State) (read : Nat) (statements : OwnerRead → Store → Option Store) : State :=
  match σ.reads[read]? with
  | none => σ
  | some r => σ.batch (statements r)

def step (σ : State) : Move → State
  | .startRun id games => σ.batch (Store.startRun id games)
  | .startPreparation id run game => σ.batch (Store.startPreparation id run game)
  | .startReconciliation run => σ.batch (Store.startReconciliation run)
  | .pause id generation detail => σ.batch fun s => some (s.pause id generation detail)
  | .resume id generation => σ.batch fun s => some (s.resume id generation)
  | .abandon id generation => σ.batch (Store.abandon id generation)
  | .sealOperation id => σ.batch fun s => some (s.sealOperation id)
  | .publish id => σ.batch fun s => some (s.publish id)
  | .failPreparation id generation code => σ.batch (Store.failPreparation id generation code)
  | .failRun run generation code => σ.batch (Store.failRun run generation code)
  | .endRun run outcome => σ.batch fun s =>
      if outcome=.failed Store.reconfirmation then none else some (s.endRun run outcome)
  | .readConflict preparation generation revision details observedAt =>
      match σ.store.readConflict preparation generation revision details observedAt with
      | none => σ
      | some staging => { σ with stagings := σ.stagings++[staging] }
  | .retainConflict staging => match σ.stagings[staging]? with
      | none => σ
      | some r => σ.batch (Store.retainConflict r.conflict r.generation)
  | .materialize revision => σ.batch (Store.materialize revision)
  | .create input => σ.batch (Store.createCuratedRevision input)
  | .look request => match σ.store.existingRevisionMutation request with
      | none => σ
      | some read => { σ with reads := σ.reads++[read] }
  | .pendingConflict read => match σ.reads[read]? with
      | none => σ
      | some r => { σ with
          reads := σ.reads.set read { r with conflict := σ.store.curatedPendingConflict r.row } }
  | .reaffirm read => σ.mutate read fun r s => s.reaffirmCuratedRevision r
  | .retire read => σ.mutate read fun r s => s.retireCuratedRevision r
  | .supersede read id proposal proposalDigest =>
      σ.mutate read fun r s => s.supersedeCuratedRevision r id proposal proposalDigest

def run (σ : State) (moves : List Move) : State := moves.foldl step σ

theorem run_cons (σ : State) (m : Move) (moves : List Move) :
    σ.run (m::moves)=(σ.step m).run moves := rfl

/-- The version the owner read stands in the table itself, and the revision did not end in it. -/
def standing (σ : State) (read : Nat) : Bool :=
  match σ.reads[read]? with
  | none => true
  | some r => σ.store.revisions.all fun revision => revision.id≠r.row.id ||
      (decide (r.row.event_version≤revision.event_version) &&
        (revision.event_version≠r.row.event_version || revision.status.applicable))

/-- An owner's batch commits on a version that stands. -/
def sound (σ : State) : Move → Bool
  | .reaffirm read => σ.standing read
  | .retire read => σ.standing read
  | .supersede read _ _ _ => σ.standing read
  | _ => true

/-- Every step of the run is sound. -/
def Sound (σ : State) : List Move → Prop
  | [] => True
  | m::moves => σ.sound m=true ∧ (σ.step m).Sound moves

end State

end CardKeepr.Curated
