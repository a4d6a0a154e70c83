import CardKeepr.Lib.Fallible
import CardKeepr.Shared.CanonicalMembers
import CardKeepr.Shared.Sha256

namespace CardKeepr.Publication.Lifecycle

open Shared Lib

inductive Kind where
  | cards
  | printings
  | products
  | errata
  | product_relationships
  | relationships
  | other (name : JsString)
  deriving DecidableEq

def Kind.isOther : Kind → Bool
  | .other _ => true
  | _ => false

def Kind.isRelationship (kind : Kind) : Bool :=
  decide (kind=.product_relationships ∨ kind=.relationships)

def Kind.isPlanned (kind : Kind) : Bool := decide (kind=.cards ∨ kind=.printings)

structure PublicLifecycleFact where
  candidate_id : JsString
  kind : Kind
  entity_id : JsString
  first_candidate_id : JsString
  last_observed_candidate_id : JsString
  withdrawn : Bool
  withdrawal_candidate_id : Option JsString
  withdrawal_evidence_json : Option JsString
  observation_digest : Option JsString
  deriving DecidableEq

/-- A row of the reducer state under the namespace `observation_plans`. -/
structure ObservationPlan where
  preparation_id : JsString
  key_digest : JsString
  content : JsString
  sha256 : JsString
  observation_ordinal : Nat

structure Candidate where
  id : JsString
  preparation_id : JsString
  expected_game_revision_id : JsString
  supported_game : JsString
  deriving DecidableEq

/-- A member of a composed revision. -/
structure CompositionGame where
  catalogue_revision_id : JsString
  supported_game : JsString
  candidate_id : JsString

structure Store where
  lifecycles : List PublicLifecycleFact
  plans : List ObservationPlan
  candidates : List Candidate
  /-- Reconciliation operations with their game, which a legacy one has not. -/
  operations : List (JsString × Option JsString)
  compositionGames : List CompositionGame
  /-- Native candidates with the predecessor pinned for them. -/
  predecessors : List (JsString × Option JsString)

inductive Failure where
  | accepted_predecessor_pin_missing
  | publication_observation_corrupt
  | publication_capacity_exceeded
  | canonical (message : JsString)
  deriving DecidableEq

namespace Store

/-- The pin of the native candidate that this preparation proposes. -/
def pinnedPredecessor (s : Store) (revision game preparation : JsString) :
    Option (Option JsString) :=
  s.candidates.findSome? fun proposed =>
    if proposed.preparation_id=preparation ∧ proposed.id=proposed.preparation_id ∧
        proposed.expected_game_revision_id=revision ∧ proposed.supported_game=game then
      (s.predecessors.find? fun pin => pin.1=proposed.id).map Prod.snd
    else none

def gamePredecessorCandidate (s : Store) (revision game preparation : JsString) :
    Except Failure (Option JsString) :=
  if s.operations.any (fun legacy => decide (legacy.1=preparation ∧ legacy.2=none)) then
    .ok ((s.compositionGames.find? fun m =>
      m.catalogue_revision_id=revision ∧ m.supported_game=game).map CompositionGame.candidate_id)
  else match s.pinnedPredecessor revision game preparation with
    | some predecessor => .ok predecessor
    | none => .error .accepted_predecessor_pin_missing

def priorPublicLifecycle (s : Store) (predecessor : Option JsString) (kind : Kind)
    (id : JsString) : Option PublicLifecycleFact :=
  s.lifecycles.find? fun l => some l.candidate_id=predecessor ∧ l.kind=kind ∧ l.entity_id=id

end Store

def member (name : String) (v : Json) : Option Json := v.member (js name.toList)

/-- `json_extract(content, '$.value.plan.…')`. -/
def ObservationPlan.field (p : ObservationPlan) (path : List JsString) : Option Json :=
  (jsonParse p.content).bind fun content =>
    (js "value".toList::js "plan".toList::path).foldlM (fun v name => v.member name) content

def ObservationPlan.names (p : ObservationPlan) (kind : Kind) (id : JsString) : Bool :=
  decide (p.field [js (if kind=.cards then "cardId" else "printingId").toList]=some (.str id))

def ObservationPlan.effectiveAt (p : ObservationPlan) : Option (List UInt8) :=
  match p.field [js "withdrawal".toList,js "effective_at".toList] with
  | some (.str t) => some (utf8 t)
  | _ => none

/-- `ORDER BY effective_at DESC, observation_ordinal DESC`, where no date comes last. -/
def ObservationPlan.precedes (p q : ObservationPlan) : Bool :=
  match p.effectiveAt,q.effectiveAt with
  | some a,some b =>
    decide (compareBytes b a < 0 ∨ (a=b ∧ q.observation_ordinal < p.observation_ordinal))
  | some _,none => true
  | none,some _ => false
  | none,none => decide (q.observation_ordinal < p.observation_ordinal)

/-- The first row of the ordered result. -/
def firstPlan : List ObservationPlan → Option ObservationPlan
  | [] => none
  | p::ps => match firstPlan ps with
    | none => some p
    | some q => if q.precedes p then some q else some p

namespace Store

/-- The plans of a preparation that observe the entity. -/
def matching (s : Store) (preparation : JsString) (kind : Kind) (id : JsString) :
    List ObservationPlan :=
  s.plans.filter fun p => decide (p.preparation_id=preparation) && p.names kind id &&
    decide (p.field [js "observationKind".toList]=some (.str (js "card_printing".toList)))

/-- The predecessor has a plan of the same key that names the entity. -/
def knownTo (s : Store) (predecessor : Option JsString) (kind : Kind) (id : JsString)
    (plan : ObservationPlan) : Bool :=
  s.candidates.any fun prior => decide (some prior.id=predecessor) && s.plans.any fun old =>
    decide (old.preparation_id=prior.preparation_id ∧ old.key_digest=plan.key_digest) &&
      old.names kind id

/-- The plan on top and whether any plan of the entity is newly observed. -/
def publicationObservedPlan (s : Store) (preparation : JsString) (predecessor : Option JsString)
    (kind : Kind) (id : JsString) : Option (ObservationPlan × Bool) :=
  (firstPlan (s.matching preparation kind id)).map fun plan =>
    (plan,(s.matching preparation kind id).any fun p => !s.knownTo predecessor kind id p)

end Store

/-- What a candidate says about the observation and the withdrawal of an entity. -/
structure Evidence where
  observed : Bool
  withdrawal : Option Json
  observationDigest : Option JsString

def isObject : Json → Bool
  | .obj _ | .arr _ => true
  | _ => false

def entityName (kind : Kind) : JsString :=
  js (if kind=.cards then "card" else "printing").toList

/-- The withdrawal a plan carries for entities of the kind. -/
def ObservationPlan.withdrawal (p : ObservationPlan) (kind : Kind) : Option Json :=
  (p.field [js "withdrawal".toList]).filter fun selected =>
    decide (member "entity" selected=some (.str (js "card_and_printing".toList)) ∨
      member "entity" selected=some (.str (entityName kind)))

def planEvidence : Option (ObservationPlan × Bool) → Kind → Except Failure Evidence
  | none,_ => .ok ⟨false,none,none⟩
  | some (plan,newly),kind =>
    if sha256Text plan.content≠plan.sha256 then .error .publication_observation_corrupt
    else .ok ⟨newly,plan.withdrawal kind,none⟩

def isDigestText (t : JsString) : Bool :=
  decide (t.length=64) && t.all fun u => isDigit u || decide (97 ≤ u.toNat ∧ u.toNat ≤ 102)

def isSafeCount : Json → Bool
  | .num q => decide (q.den=1 ∧ 1 ≤ q ∧ q ≤ 9007199254740991)
  | _ => false

/-- The digest of a membership receipt. -/
def receiptDigest (receipt : Json) : Except Failure JsString :=
  match member "sha256" receipt,member "count" receipt with
  | some (.str digest),some count =>
    if isDigestText digest && isSafeCount count then .ok digest
    else .error .publication_observation_corrupt
  | _,_ => .error .publication_observation_corrupt

/-- `left ?? right` -/
def orElseNullish (left : Option Json) (right : Json) : Json :=
  match left with
  | none | some .null => right
  | some v => v

section

variable (nfc : Nfc)

def canonicalText (v : Json) : Except Failure JsString :=
  match canonicalJson nfc v with
  | .ok text => .ok text
  | .error message => .error (.canonical message)

/-- The digest of the evidence that an entity without a plan carries. -/
def evidenceDigest (kind : Kind) (value : Json) : Except Failure JsString :=
  match (if kind=.products then member "membership_evidence" value else none) with
  | some receipt => receiptDigest receipt
  | none => do
    let text ← canonicalText nfc (orElseNullish (member "source_observations" value)
      (orElseNullish (member "source_observation_ids" value)
        (orElseNullish (member "provenance" value) (.arr []))))
    .ok (sha256Text text)

/-- A product with membership evidence and every other entity. -/
def valueEvidence (kind : Kind) (value : Json) (prior : Option PublicLifecycleFact) :
    Except Failure Evidence := do
  let digest ← evidenceDigest nfc kind value
  let fresh := decide (some digest≠prior.bind PublicLifecycleFact.observation_digest)
  if kind=.products ∧ (member "membership_evidence" value).isSome then
    .ok ⟨decide (member "observed" value=some (.bool true)) && fresh,none,some digest⟩
  else
    .ok ⟨(decide (kind=.errata) || decide (member "observed" value=some (.bool true))) && fresh,
      (member "withdrawal" value).filter isObject,some digest⟩

def verdict (kind : Kind) (w : Json) : Bool :=
  decide (kind=.products) || decide (member "state" w=some (.str (js "withdrawn".toList)))

def priorWithdrawn (prior : Option PublicLifecycleFact) : Bool :=
  (prior.map PublicLifecycleFact.withdrawn).getD false

def nowWithdrawn (kind : Kind) (value : Json) (prior : Option PublicLifecycleFact)
    (e : Evidence) : Bool :=
  if kind.isRelationship then decide (member "observed" value=some (.bool false))
  else match e.withdrawal with
    | some w => verdict kind w
    | none => priorWithdrawn prior

def transition (kind : Kind) (value : Json) (prior : Option PublicLifecycleFact)
    (e : Evidence) : Bool :=
  (kind.isRelationship || e.withdrawal.isSome) &&
    decide (nowWithdrawn kind value prior e≠priorWithdrawn prior)

def withdrawalEvidence (kind : Kind) (value : Json) (prior : Option PublicLifecycleFact)
    (e : Evidence) : Except Failure (Option JsString) :=
  if transition kind value prior e then (canonicalText nfc (e.withdrawal.getD .null)).map some
  else .ok (prior.bind PublicLifecycleFact.withdrawal_evidence_json)

/-- The new row, from the row of the predecessor and what the candidate says. -/
def lifecycleFact (candidate : Candidate) (kind : Kind) (id : JsString) (value : Json)
    (prior : Option PublicLifecycleFact) (e : Evidence) : Except Failure PublicLifecycleFact := do
  let evidence ← withdrawalEvidence nfc kind value prior e
  demand (decide ((evidence.map fun t => (utf8 t).length).getD 0 ≤ 131072))
    .publication_capacity_exceeded
  .ok
    { candidate_id := candidate.id
      kind := kind
      entity_id := id
      first_candidate_id := (prior.map PublicLifecycleFact.first_candidate_id).getD candidate.id
      last_observed_candidate_id := if e.observed then candidate.id
        else (prior.map PublicLifecycleFact.last_observed_candidate_id).getD candidate.id
      withdrawn := nowWithdrawn kind value prior e
      withdrawal_candidate_id := if transition kind value prior e &&
          (!kind.isRelationship || nowWithdrawn kind value prior e) then some candidate.id
        else prior.bind PublicLifecycleFact.withdrawal_candidate_id
      withdrawal_evidence_json := evidence
      observation_digest := e.observationDigest }

def entityId (value : Json) : JsString :=
  match member "id" value with
  | some (.str id) => id
  | _ => js "undefined".toList

def Store.evidence (s : Store) (candidate : Candidate) (predecessor : Option JsString)
    (kind : Kind) (value : Json) : Except Failure Evidence :=
  if kind.isPlanned then
    planEvidence (s.publicationObservedPlan candidate.preparation_id predecessor kind
      (entityId value)) kind
  else valueEvidence nfc kind value (s.priorPublicLifecycle predecessor kind (entityId value))

def preparePublicLifecycle (s : Store) (candidate : Candidate) (kind : Kind) (value : Json) :
    Except Failure (Option PublicLifecycleFact) :=
  if kind.isOther then .ok none
  else do
    let predecessor ← s.gamePredecessorCandidate candidate.expected_game_revision_id
      candidate.supported_game candidate.preparation_id
    let evidence ← s.evidence nfc candidate predecessor kind value
    let fact ← lifecycleFact nfc candidate kind (entityId value) value
      (s.priorPublicLifecycle predecessor kind (entityId value)) evidence
    .ok (some fact)

/-- A candidate with the value it carries for an entity, and the tables at its preparation. -/
structure Link where
  store : Store
  candidate : Candidate
  value : Json

namespace Link

def predecessor (l : Link) : Except Failure (Option JsString) :=
  l.store.gamePredecessorCandidate l.candidate.expected_game_revision_id
    l.candidate.supported_game l.candidate.preparation_id

def fact (l : Link) (kind : Kind) : Except Failure (Option PublicLifecycleFact) :=
  preparePublicLifecycle nfc l.store l.candidate kind l.value

/-- The withdrawal the candidate carries for the entity: in its value, or in the plan on top. -/
def withdrawal (l : Link) (kind : Kind) : Option Json :=
  if kind.isPlanned then
    (firstPlan (l.store.matching l.candidate.preparation_id kind (entityId l.value))).bind
      fun plan => plan.withdrawal kind
  else if kind.isRelationship then none
  else (member "withdrawal" l.value).filter isObject

def asserted (l : Link) (kind : Kind) : Option Bool := (l.withdrawal kind).map (verdict kind)

/-- The candidate carries observation evidence that its predecessor `p` does not have. -/
def Fresh (kind : Kind) (p l : Link) : Prop :=
  if kind.isPlanned=true then
    ∃plan∈l.store.matching l.candidate.preparation_id kind (entityId l.value),
      l.store.knownTo (some p.candidate.id) kind (entityId l.value) plan=false
  else (kind=.errata ∨ member "observed" l.value=some (.bool true)) ∧
    evidenceDigest nfc kind l.value≠evidenceDigest nfc kind p.value

/-- The plan rows without the preparation they belong to. -/
def plansOf (s : Store) (preparation : JsString) (kind : Kind) (id : JsString) :
    List (JsString × JsString × JsString × Nat) :=
  (s.matching preparation kind id).map fun p =>
    (p.key_digest,p.content,p.sha256,p.observation_ordinal)

/-- The candidate carries the entity over with the evidence of its predecessor. -/
def Carries (kind : Kind) (p l : Link) : Prop :=
  if kind.isPlanned=true then
    plansOf l.store l.candidate.preparation_id kind (entityId l.value)=
      plansOf l.store p.candidate.preparation_id kind (entityId l.value)
  else evidenceDigest nfc kind l.value=evidenceDigest nfc kind p.value ∧
    member "observed" l.value=member "observed" p.value ∧
    member "withdrawal" l.value=member "withdrawal" p.value ∧
    member "membership_evidence" l.value=member "membership_evidence" p.value

/-- The tables of a candidate retain what its predecessor left: its row, the fact prepared for
it, which no other row has the key of, and its plans. -/
structure Follows (kind : Kind) (id : JsString) (p l : Link) (f : PublicLifecycleFact) : Prop where
  predecessor : l.predecessor=.ok (some p.candidate.id)
  retained : f∈l.store.lifecycles
  keyed : l.store.lifecycles.Pairwise fun a b =>
    ¬(a.candidate_id=b.candidate_id ∧ a.kind=b.kind ∧ a.entity_id=b.entity_id)
  candidate : p.candidate∈l.store.candidates
  plans : plansOf l.store p.candidate.preparation_id kind id=
    plansOf p.store p.candidate.preparation_id kind id

end Link

/-- Consecutive candidates that carry an entity, newest first, and the fact of the newest one.
The predecessor of the oldest has no fact of it. -/
inductive Chain (kind : Kind) (id : JsString) : List Link → PublicLifecycleFact → Prop
  | first {l : Link} {f : PublicLifecycleFact} {predecessor : Option JsString}
    (hid : entityId l.value=id) (hpred : l.predecessor=.ok predecessor)
    (hprior : l.store.priorPublicLifecycle predecessor kind id=none)
    (hfact : l.fact nfc kind=.ok (some f)) : Chain kind id [l] f
  | next {ls : List Link} {p l : Link} {f f' : PublicLifecycleFact}
    (h : Chain kind id (p::ls) f) (hid : entityId l.value=id)
    (hfollows : Link.Follows kind id p l f) (hfact : l.fact nfc kind=.ok (some f')) :
    Chain kind id (l::p::ls) f'

/-- The newest candidate of a chain with evidence that its predecessor does not have; the oldest
one has no predecessor that carries the entity. -/
def LastFresh (kind : Kind) (ls : List Link) (id : JsString) : Prop :=
  ∃k l,ls[k]?=some l ∧ l.candidate.id=id ∧
    (k+1=ls.length ∨ ∃p,ls[k+1]?=some p ∧ Link.Fresh nfc kind p l) ∧
    ∀j q m,j < k → ls[j]?=some m → ls[j+1]?=some q → ¬Link.Fresh nfc kind q m

/-- What the fact `f` of a candidate keeps of the fact `f₀` of its predecessor. -/
structure Continues (kind : Kind) (p l : Link) (f₀ f : PublicLifecycleFact) : Prop where
  first : f.first_candidate_id=f₀.first_candidate_id
  together : f.withdrawal_candidate_id≠f₀.withdrawal_candidate_id → f.withdrawn≠f₀.withdrawn
  carried : Link.Carries nfc kind p l →
    f.last_observed_candidate_id=f₀.last_observed_candidate_id ∧ f.withdrawn=f₀.withdrawn ∧
      f.withdrawal_candidate_id=f₀.withdrawal_candidate_id ∧
      f.withdrawal_evidence_json=f₀.withdrawal_evidence_json

/-- A fact as the fold over the chain that led to it. -/
structure Folded (kind : Kind) (id : JsString) (ls : List Link) (f : PublicLifecycleFact) :
    Prop where
  first : ∃l,ls.getLast?=some l ∧ f.first_candidate_id=l.candidate.id
  observed : LastFresh nfc kind ls f.last_observed_candidate_id
  related : kind.isRelationship=true → ∀l,ls.head?=some l →
    (f.withdrawn=true ↔ member "observed" l.value=some (.bool false))
  withdrawn : kind.isRelationship=false →
    f.withdrawn=(ls.findSome? fun l => l.asserted kind).getD false
  continues : ∀l p ls' f₀,ls=l::p::ls' → Chain nfc kind id (p::ls') f₀ →
    Continues nfc kind p l f₀ f

end

end CardKeepr.Publication.Lifecycle
