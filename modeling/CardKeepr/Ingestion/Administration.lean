import Mathlib.Data.List.Nodup
import Mathlib.Logic.Relation

namespace CardKeepr.Administration

-- Administration requests under an idempotency key: outcomes, claims and the calls that race for
-- them.

structure IdempotencyContext where
  key : String
  operation : String
  requestJson : String
  observedAt : Nat

structure Problem where
  status : Nat
  code : String
  detail : String

/-- What an outcome row keeps of a request. -/
inductive Result where
  | success (document : String)
  | problem (p : Problem)

structure IdempotencyClaimOwner where
  ownerToken : String
  version : Nat

/-- A row of `administration_idempotency`. -/
structure Outcome where
  operation : String
  request_json : String
  result : Result
  owner : IdempotencyClaimOwner

/-- A row of `administration_idempotency_claims`. -/
structure Claim where
  operation : String
  request_json : String
  claimed_at : Nat
  owner_token : String
  claim_version : Nat
  claim_expires_at : Nat

/-- A run that holds a key from before outcomes were kept. -/
structure LegacyRun where
  /-- The key is its `approval_idempotency_key`. -/
  approves : Bool
  /-- `canonicalJson` of its run, candidate digest and expected revision. -/
  requestJson : String
  terminal : Bool
  document : String

/-- The tables. `batches` has the key and the owner of every domain batch that committed,
`superseded` the owners whose claim another call took over, `tokens` all that were drawn. -/
structure Tables where
  outcomes : String → Option Outcome
  claims : String → Option Claim
  batches : List (String × String)
  superseded : List String
  tokens : List String

def publicationLeaseMilliseconds : Nat := 5*60*1000

inductive Conflict where
  | owner_changed
  | key_taken
  deriving DecidableEq

def Claim.isOf (cl : Claim) (c : IdempotencyContext) : Bool :=
  decide (cl.operation=c.operation ∧ cl.request_json=c.requestJson)

def Claim.isHeldBy (cl : Claim) (o : IdempotencyClaimOwner) : Bool :=
  decide (cl.owner_token=o.ownerToken ∧ cl.claim_version=o.version)

namespace Tables

def setClaim (s : Tables) (key : String) (claim : Option Claim) : Tables :=
  { s with claims := fun k => if k=key then claim else s.claims k }

/-- `acquireAdministrationClaimStatement`: refused while the key has a claim or an outcome. -/
def acquireClaim (s : Tables) (c : IdempotencyContext) (token : String) : Option Tables :=
  if (s.claims c.key).isSome || (s.outcomes c.key).isSome then none
  else some { s.setClaim c.key (some ⟨c.operation,c.requestJson,c.observedAt,token,1,
    c.observedAt+publicationLeaseMilliseconds⟩) with tokens := token::s.tokens }

/-- `takeOverAdministrationClaimStatement`: only from the row that was read. -/
def takeOverClaim (s : Tables) (c : IdempotencyContext) (token : String) (prior : Claim) :
    Option (Tables × IdempotencyClaimOwner) :=
  match s.claims c.key with
  | none => none
  | some cl =>
    if cl.isOf c=true ∧ cl.owner_token=prior.owner_token ∧ cl.claim_version=prior.claim_version ∧
        cl.claim_expires_at=prior.claim_expires_at then
      some ({ s.setClaim c.key (some { cl with
          claimed_at := c.observedAt
          owner_token := token
          claim_version := cl.claim_version+1
          claim_expires_at := c.observedAt+publicationLeaseMilliseconds }) with
        superseded := cl.owner_token::s.superseded
        tokens := token::s.tokens },⟨token,cl.claim_version+1⟩)
    else none

/-- `releaseAdministrationClaimStatement` -/
def releaseClaim (s : Tables) (c : IdempotencyContext) (o : IdempotencyClaimOwner) : Tables :=
  match s.claims c.key with
  | some cl => if cl.isOf c && cl.isHeldBy o then s.setClaim c.key none else s
  | none => s

/-- An outcome row with its guard: a claim that is there must be the writer's own. -/
def insertOutcome (s : Tables) (c : IdempotencyContext) (o : IdempotencyClaimOwner) (r : Result) :
    Except Conflict Tables :=
  if (s.claims c.key).any (fun cl => !(cl.isOf c && cl.isHeldBy o)) then .error .owner_changed
  else if (s.outcomes c.key).isSome then .error .key_taken
  else .ok { s with outcomes := fun k =>
    if k=c.key then some ⟨c.operation,c.requestJson,r,o⟩ else s.outcomes k }

def completion (s : Tables) (c : IdempotencyContext) (o : IdempotencyClaimOwner) (r : Result) :
    Except Conflict Tables := (s.insertOutcome c o r).map fun t => t.releaseClaim c o

/-- The same batch with the domain writes of the operation. -/
def commit (s : Tables) (c : IdempotencyContext) (o : IdempotencyClaimOwner) (document : String) :
    Except Conflict Tables :=
  (s.completion c o (.success document)).map fun t =>
    { t with batches := (c.key,o.ownerToken)::t.batches }

end Tables

/-- What `replayAdministration` finds. -/
inductive Replay where
  | none
  | found (r : Result)
  | reused
  | unreadable

def replayLegacyAdministration (legacy : String → Option LegacyRun) (c : IdempotencyContext) :
    Replay :=
  match legacy c.key with
  | none => .none
  | some run =>
    if c.operation="approve_ingestion_run" ∧ run.approves=true ∧ run.requestJson=c.requestJson then
      if run.terminal then .found (.success run.document) else .none
    else .reused

/-- `readable` says whether a retained success decodes and still matches its request. -/
def replayAdministration (legacy : String → Option LegacyRun) (s : Tables)
    (c : IdempotencyContext) (readable : Bool) : Replay :=
  match s.outcomes c.key with
  | none => replayLegacyAdministration legacy c
  | some prior =>
    if prior.operation≠c.operation ∨ prior.request_json≠c.requestJson then .reused
    else match prior.result with
      | .problem p => .found (.problem p)
      | .success d => if readable then .found (.success d) else .unreadable

/-- How a call ends. -/
inductive Ended where
  | final (r : Result)
  | pending
  | reused
  /-- A problem that asks not to be kept. -/
  | unpersisted (p : Problem)
  | error

/-- How far a call of `idempotentAdministration` has come. -/
inductive Phase where
  | starting
  | claiming
  /-- The insertion was refused: the claim is read. -/
  | refused
  /-- There was no claim to read. -/
  | vanished
  | takingOver (prior : Claim)
  /-- The take-over was refused: the winner's claim is read. -/
  | outrun
  | waiting
  | owning (o : IdempotencyClaimOwner)
  | executing (o : IdempotencyClaimOwner)
  | recording (o : IdempotencyClaimOwner) (p : Problem)
  /-- The record was refused. -/
  | unrecorded (p : Problem) (ownerChanged : Bool)
  | searching (p : Problem)
  | releasing (o : IdempotencyClaimOwner) (p : Problem)
  | ended (e : Ended)

/-- What the operation does next. -/
inductive Choice where
  /-- It replays the outcome of the key. -/
  | look
  /-- It commits its domain writes; `guarded` says that its own guards let them through. -/
  | commit (document : String) (guarded : Bool)
  | inProgress
  | fails (p : Problem) (persistOutcome : Bool)
  | throws

/-- What a step depends on beside the tables: the token drawn where it is first written, whether a
retained document can be read, and what the operation does. -/
structure Input where
  token : String
  readable : Bool
  choice : Choice

def isReplaySafeAdministrationOperation (operation : String) : Bool :=
  ["retry_ingestion_run","approve_ingestion_run","reject_ingestion_run",
    "retry_publication_cleanup"].contains operation

/-- A replay that ends the call, or the phase it goes on with. -/
def Replay.orElse (r : Replay) (next : Phase) : Phase :=
  match r with
  | .none => next
  | .found r => .ended (.final r)
  | .reused => .ended .reused
  | .unreadable => .ended .error

section

variable (legacy : String → Option LegacyRun)

def execute (s : Tables) (c : IdempotencyContext) (o : IdempotencyClaimOwner) (x : Input) :
    Tables × Phase :=
  match x.choice with
  | .look => (s,match replayAdministration legacy s c x.readable with
    | .none => .executing o
    | .found (.success d) => .ended (.final (.success d))
    -- A problem thrown inside the operation is caught and recorded like any other.
    | .found (.problem p) => .recording o p
    | .reused => .recording o ⟨409,"idempotency_key_reused",
      "The idempotency key was already used for a different administration request."⟩
    | .unreadable => .ended .error)
  | .commit document guarded =>
    if guarded then
      match s.commit c o document with
      | .ok t => (t,.ended (.final (.success document)))
      | .error _ => (s,.executing o)
    else (s,.executing o)
  | .inProgress => (s,.ended .pending)
  | .fails p true => (s,.recording o p)
  | .fails p false => (s,.releasing o p)
  | .throws => (s,.ended .error)

/-- One database step of a call. -/
def advance (s : Tables) (c : IdempotencyContext) (x : Input) : Phase → Tables × Phase
  | .starting => (s,(replayAdministration legacy s c x.readable).orElse .claiming)
  | .claiming => match s.acquireClaim c x.token with
    | some t => (t,.owning ⟨x.token,1⟩)
    | none => (s,.refused)
  | .refused => (s,match s.claims c.key with
    | none => .vanished
    | some prior =>
      if !prior.isOf c then .ended .reused
      else if c.observedAt < prior.claim_expires_at then .waiting
      else .takingOver prior)
  | .vanished => (s,match replayAdministration legacy s c x.readable with
    | .none => .ended .error
    | .found (.success _) => .waiting
    | r => r.orElse .waiting)
  | .takingOver prior => match s.takeOverClaim c x.token prior with
    | some (t,o) => (t,.owning o)
    | none => (s,.outrun)
  | .outrun => (s,match s.claims c.key with
    | none => .vanished
    | some _ => .waiting)
  | .waiting => (s,(replayAdministration legacy s c x.readable).orElse (.ended .pending))
  | .owning o => (s,(replayAdministration legacy s c x.readable).orElse
      (if isReplaySafeAdministrationOperation c.operation then .executing o
        else .ended .pending))
  | .executing o => execute legacy s c o x
  | .recording o p => match s.completion c o (.problem p) with
    | .ok t => (t,.ended (.final (.problem p)))
    | .error e => (s,.unrecorded p (decide (e=.owner_changed)))
  | .unrecorded p ownerChanged => (s,(replayAdministration legacy s c x.readable).orElse
      (if ownerChanged then .searching p else .ended (.final (.problem p))))
  | .searching p => (s,match s.claims c.key with
    | some cl => if cl.isOf c then .ended .pending else .ended (.final (.problem p))
    | none => .ended (.final (.problem p)))
  | .releasing o p => (s.releaseClaim c o,.ended (.unpersisted p))
  | .ended e => (s,.ended e)

end

structure Call where
  context : IdempotencyContext
  phase : Phase

structure State where
  tables : Tables
  calls : List Call

/-- A call starts, or a call takes its next step. A call that crashed takes none. -/
inductive Move where
  | start (c : IdempotencyContext)
  | step (i : Nat) (x : Input)

def State.next (legacy : String → Option LegacyRun) (s : State) : Move → State
  | .start c => ⟨s.tables,s.calls++[⟨c,.starting⟩]⟩
  | .step i x => match s.calls[i]? with
    | none => s
    | some call =>
      let r := advance legacy s.tables call.context x call.phase
      ⟨r.1,s.calls.set i ⟨call.context,r.2⟩⟩

def State.run (legacy : String → Option LegacyRun) (s : State) (moves : List Move) : State :=
  moves.foldl (State.next legacy) s

/-- A token that is written is a new UUID. -/
def Input.fresh (s : Tables) (x : Input) : Phase → Bool
  | .claiming | .takingOver _ => !s.tokens.contains x.token
  | _ => true

/-- A call that writes its outcome finds its key claimed or answered, and one whose record was
refused finds the claim it looks for. -/
def findsClaim (s : Tables) (x : Input) (call : Call) : Bool :=
  let key := call.context.key
  let covered := (s.claims key).isSome || (s.outcomes key).isSome
  match call.phase with
  | .recording _ _ => covered
  | .executing _ => match x.choice with
    | .commit _ true => covered
    | _ => true
  | .searching _ => (s.claims key).any fun cl => cl.isOf call.context
  | _ => true

/-- Every step of the run satisfies `ok` in the state it is taken from. -/
def State.along (legacy : String → Option LegacyRun) (ok : State → Nat → Input → Call → Bool) :
    State → List Move → Bool
  | _,[] => true
  | s,m::ms => (match m with
      | .start _ => true
      | .step i x => (s.calls[i]?).all (ok s i x)) && (s.next legacy m).along legacy ok ms

/-- No token is drawn twice. -/
def State.freshly (legacy : String → Option LegacyRun) (s : State) (moves : List Move) : Bool :=
  s.along legacy (fun s _ x call => x.fresh s.tables call.phase) moves

/-- No step is taken past a claim that was given up. -/
def State.soundly (legacy : String → Option LegacyRun) (s : State) (moves : List Move) : Bool :=
  s.along legacy (fun s _ x call => findsClaim s.tables x call) moves

def emptyTables : Tables := ⟨fun _ => none,fun _ => none,[],[],[]⟩

end CardKeepr.Administration
