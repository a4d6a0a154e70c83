import CardKeepr.Curated.Selection
import CardKeepr.Lib.Fallible

namespace CardKeepr.Curated

open Shared Shared.JsonPointer Lib

inductive Target where
  | field (target : FieldTarget)
  | relationship (target : RelationshipTarget)
  deriving DecidableEq

def Assertion.target : Assertion → Target
  | .field target _ => .field target
  | .relationship target _ => .relationship target

structure CuratedProvenance where
  curated_revision_id : JsString
  content_digest : JsString
  target : Target
  rationale : JsString
  evidence : List CuratedEvidence
  author : JsString
  reviewed_source_value : Value
  deriving DecidableEq

/-- An entity. The members no curatable path reaches are fields of their own, `body` holds the
others; `owner` is the game, of a printing the id of its card, of a release its product's game. -/
structure Entity where
  type : EntityType
  id : JsString
  owner : JsString
  body : Value
  curated_provenance : Option (List CuratedProvenance)
  deriving DecidableEq

structure ProductRelationship where
  id : JsString
  game : JsString
  kind : RelationshipKind
  fromEnd : Endpoint
  toEnd : Endpoint
  evidence_category : JsString
  source_lineage : Option JsString
  source_observation_ids : List JsString
  relationship_value : JsString
  observed : Bool
  curated_provenance : Option (List CuratedProvenance)
  deriving DecidableEq

/-- Cards, printings, products, releases, distribution contexts and errata stand in one list, each
kind in its order; a list that is absent is empty. -/
structure Candidate where
  entities : List Entity
  product_relationships : List ProductRelationship
  deriving DecidableEq

inductive Failure where
  | administration (status : Nat) (code detail : String)
  | error (message : String)
  | canonical (message : JsString)
  | typeError

def targetNotFound : Failure := .administration 422 "curated_revision_target_not_found"
  "The target entity does not exist."

def relationshipNotInSchema : Failure := .administration 422
  "curated_revision_relationship_not_in_schema"
  "The relationship or one of its endpoints is not representable by the V1 schema."

/-- A step that may throw a `TypeError`. -/
def thrown {α : Type} : Option α → Except Failure α
  | none => .error .typeError
  | some a => .ok a

def curatedSourceAbsence : Value :=
  .own .object [(js "contract".toList,
    .scalar (.str (js "card-keepr-curated-source-absence@1".toList)))]

def isCuratedSourceAbsence (value : Value) : Bool := value=curatedSourceAbsence

def reviewedFieldSource (source : Option Value) : Value := source.getD curatedSourceAbsence

def restoreReviewedField (target : Value) (parts : Path) (reviewedSourceValue : Value) :
    Option Value :=
  if isCuratedSourceAbsence reviewedSourceValue then some (deleteAt parts target)
  else setAt parts reviewedSourceValue target

def restoreItem (body : Value) (item : CuratedProvenance) : Option Value :=
  match item.target with
  | .field target => restoreReviewedField body (pointerParts target.path) item.reviewed_source_value
  | .relationship _ => some body

def restoreCuratedEntitySourceFields (entity : Entity) : Option Entity :=
  ((entity.curated_provenance.getD []).foldlM restoreItem entity.body).map fun body =>
    { entity with body := body, curated_provenance := none }

/-- Whether an optional list of games takes in a game. -/
def takesIn (games : Option (List JsString)) (game : JsString) : Bool :=
  match games with
  | none => true
  | some games => games.contains game

/-- The entities whose curated effects are taken back: a printing goes with the first card of its
card's id. -/
def Candidate.selects (c : Candidate) (games : Option (List JsString)) (entity : Entity) : Bool :=
  match entity.type with
  | .printing => games.isNone ||
    match c.entities.find? fun card => card.type=.card && card.id=entity.owner with
    | some card => takesIn games card.owner
    | none => false
  | _ => takesIn games entity.owner

def restoreEntity (c : Candidate) (games : Option (List JsString)) (entity : Entity) :
    Option Entity :=
  if c.selects games entity then restoreCuratedEntitySourceFields entity else some entity

def curatedCategory : JsString := js "curated".toList

/-- The presence the last provenance of a relationship has reviewed. -/
def reviewedPresence (r : ProductRelationship) : Option Bool :=
  match (r.curated_provenance.getD []).getLast? with
  | none => none
  | some item =>
    if item.reviewed_source_value=.scalar (.str (js "present".toList)) then some true
    else if item.reviewed_source_value=.scalar (.str (js "absent".toList)) then some false
    else none

def restoreRelationship (r : ProductRelationship) : ProductRelationship :=
  { r with observed := (reviewedPresence r).getD r.observed, curated_provenance := none }

def stripRelationships (games : Option (List JsString)) (rs : List ProductRelationship) :
    List ProductRelationship :=
  (rs.filter fun r => !takesIn games r.game || r.evidence_category≠curatedCategory).map fun r =>
    if takesIn games r.game then restoreRelationship r else r

def stripCuratedRevisionEffects (c : Candidate) (games : Option (List JsString)) :
    Option Candidate :=
  (c.entities.mapM (restoreEntity c games)).map fun entities =>
    ⟨entities,stripRelationships games c.product_relationships⟩

def Candidate.belongs (c : Candidate) (game : JsString) (entity : Entity) : Bool :=
  match entity.type with
  | .printing => c.entities.any fun card =>
      card.type=.card && card.id=entity.owner && card.owner=game
  | _ => entity.owner=game

def Candidate.isTarget (c : Candidate) (game : JsString) (type : EntityType) (id : JsString)
    (entity : Entity) : Bool := entity.type=type && entity.id=id && c.belongs game entity

/-- The place of the entity `candidateTarget` finds for a field. -/
def candidateTarget (c : Candidate) (game : JsString) (target : FieldTarget) : Option Nat :=
  c.entities.findIdx? (c.isTarget game target.entity_type target.entity_id)

def ProductRelationship.matching (target : RelationshipTarget) (r : ProductRelationship) : Bool :=
  r.fromEnd=target.fromEnd && r.toEnd=target.toEnd && r.kind=target.relationship_kind

def relationshipPresent (c : Candidate) (target : RelationshipTarget) : Bool :=
  c.product_relationships.any fun r => r.observed && r.matching target

def entityExists (c : Candidate) (entity : Endpoint) (game : JsString) : Bool :=
  match entity.type with
  | .release => false
  | .erratum => false
  | type => c.entities.any (c.isTarget game type entity.id)

def relationshipEndpointPairs : RelationshipKind → EntityType × EntityType
  | .printing_product => (.printing,.product)
  | .printing_distribution_context => (.printing,.distribution_context)
  | .distribution_context_product => (.distribution_context,.product)
  | .product_card => (.product,.card)

def relationshipRepresentable (c : Candidate) (game : JsString) (target : RelationshipTarget) :
    Bool :=
  relationshipEndpointPairs target.relationship_kind=(target.fromEnd.type,target.toEnd.type) &&
  entityExists c target.fromEnd game && entityExists c target.toEnd game

section

variable (nfc : Nfc) (validComposedCuratedCandidate : Candidate → Bool)

/-- `sha256Text(canonicalJson(value))`. -/
def sourceDigest (value : Value) : Except Failure JsString :=
  match value.canonicalJson nfc with
  | .error message => .error (.canonical message)
  | .ok text => .ok (sha256Text text)

structure Comparison where
  row : Selected
  reviewedSourceValue : Value
  changed : Bool

def presenceText (present : Bool) : JsString :=
  if present then js "present".toList else js "absent".toList

/-- The official value under the target of a proposal. -/
def reviewedSource (official : Candidate) (proposal : Proposal) : Except Failure Value :=
  match proposal.assertion with
  | .field target _ =>
    match candidateTarget official proposal.game target with
    | none => .error targetNotFound
    | some i => .ok (reviewedFieldSource ((official.entities[i]?).bind fun entity =>
        valueAt (pointerParts target.path) entity.body))
  | .relationship target _ => .ok (.scalar (.str (presenceText (relationshipPresent official target))))

def compareSource (official : Candidate) (row : Selected) : Except Failure Comparison := do
  let value ← reviewedSource official row.proposal
  let digest ← sourceDigest nfc value
  .ok ⟨row,value,digest≠row.reviewed_source_digest⟩

def provenanceFor (row : Selected) (reviewedSourceValue : Value) : CuratedProvenance :=
  ⟨row.id,row.content_digest,row.proposal.assertion.target,row.proposal.rationale,
    row.proposal.evidence,js "owner".toList,reviewedSourceValue⟩

def Entity.curate (entity : Entity) (body : Value) (item : CuratedProvenance) : Entity :=
  { entity with body := body,
                curated_provenance := some (entity.curated_provenance.getD []++[item]) }

def ProductRelationship.curate (r : ProductRelationship) (present : Bool)
    (item : CuratedProvenance) : ProductRelationship :=
  { r with observed := present, curated_provenance := some (r.curated_provenance.getD []++[item]) }

/-- The relationship of a revision that meets none. -/
def curatedRelationship (row : Selected) (target : RelationshipTarget) (present : Bool)
    (item : CuratedProvenance) : ProductRelationship :=
  ⟨js "relationship_".toList++row.id,row.proposal.game,target.relationship_kind,target.fromEnd,
    target.toEnd,curatedCategory,none,row.proposal.evidence.filterMap fun evidence =>
      match evidence with
      | .source_observation id => some id
      | .owner_reference _ _ => none,
    target.fromEnd.type.text++58::target.fromEnd.id++124::target.toEnd.type.text++
      58::target.toEnd.id,present,some [item]⟩

def applyRelationship (c : Candidate) (row : Selected) (target : RelationshipTarget)
    (present : Bool) (item : CuratedProvenance) : Except Failure Candidate := do
  demand (relationshipRepresentable c row.proposal.game target) relationshipNotInSchema
  let changed := c.product_relationships.map fun r =>
    if r.matching target then r.curate present item else r
  .ok { c with product_relationships :=
    if c.product_relationships.any (·.matching target) then changed
    else changed++[curatedRelationship row target present item] }

def applyRevision (c : Candidate) (comparison : Comparison) : Except Failure Candidate :=
  let row := comparison.row
  let item := provenanceFor row comparison.reviewedSourceValue
  match row.proposal.assertion with
  | .field target value =>
    match candidateTarget c row.proposal.game target with
    | none => .error targetNotFound
    | some i => do
      let body ← thrown ((c.entities[i]?).bind fun entity =>
        setAt (pointerParts target.path) (.of value) entity.body)
      .ok { c with entities := c.entities.modify i fun entity => entity.curate body item }
  | .relationship target present => applyRelationship c row target present item

def applyPinnedCuratedRevisions (games : List JsString) (rows : List Selected) (c : Candidate) :
    Except Failure Candidate := do
  let official ← thrown (stripCuratedRevisionEffects c (some games))
  let comparisons ← rows.mapM (compareSource nfc official)
  demand (!comparisons.any (·.changed)) (.error "curated_revision_reconfirmation_required")
  let result ← comparisons.foldlM applyRevision official
  demand (validComposedCuratedCandidate result)
    (.error "curated_revision_composed_candidate_invalid")
  .ok result

end

end CardKeepr.Curated
