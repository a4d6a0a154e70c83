import CardKeepr.Shared.JsonPointer

namespace CardKeepr.Curated

open Shared Shared.JsonPointer

-- The owner's Curated Revision Proposal, structurally validated, and the key of its target. A
-- date of the effective interval is its day: the texts `YYYY-MM-DD` compare as the days do.

inductive EntityType where
  | card | printing | product | release | distribution_context | erratum
  deriving DecidableEq

inductive RelationshipKind where
  | printing_product | printing_distribution_context | distribution_context_product | product_card
  deriving DecidableEq

def EntityType.text : EntityType → JsString
  | .card => js "card".toList
  | .printing => js "printing".toList
  | .product => js "product".toList
  | .release => js "release".toList
  | .distribution_context => js "distribution_context".toList
  | .erratum => js "erratum".toList

def RelationshipKind.text : RelationshipKind → JsString
  | .printing_product => js "printing-product".toList
  | .printing_distribution_context => js "printing-distribution-context".toList
  | .distribution_context_product => js "distribution-context-product".toList
  | .product_card => js "product-card".toList

structure FieldTarget where
  entity_type : EntityType
  entity_id : JsString
  path : JsString
  deriving DecidableEq

structure Endpoint where
  type : EntityType
  id : JsString
  deriving DecidableEq

structure RelationshipTarget where
  relationship_kind : RelationshipKind
  fromEnd : Endpoint
  toEnd : Endpoint
  deriving DecidableEq

inductive CuratedEvidence where
  | source_observation (id : JsString)
  | owner_reference (uri content_digest : JsString)
  deriving DecidableEq

/-- A target with its assertion: a field target takes a field value, a relationship target a
presence. -/
inductive Assertion where
  | field (target : FieldTarget) (value : Json)
  | relationship (target : RelationshipTarget) (present : Bool)
  deriving DecidableEq

structure Proposal where
  game : JsString
  assertion : Assertion
  rationale : JsString
  evidence : List CuratedEvidence
  effective_from : Option Nat
  effective_to : Option Nat
  reviewed_source_digest : JsString
  supersedes_revision_id : Option JsString
  deriving DecidableEq

/-- `parts.join("|")`. -/
def joined : List JsString → JsString
  | [] => []
  | [part] => part
  | part::parts => part++124::joined parts

def targetKey (proposal : Proposal) : JsString :=
  match proposal.assertion with
  | .field target _ => joined [proposal.game,js "field".toList,target.entity_type.text,
      target.entity_id,target.path]
  | .relationship target _ => joined [proposal.game,js "relationship".toList,
      target.relationship_kind.text,target.fromEnd.type.text,target.fromEnd.id,
      target.toEnd.type.text,target.toEnd.id]

def forbiddenRoots : List JsString := ["id","game","official_identity","category",
  "gameplay_applicability","related_cards","source_image_link","source_snapshots",
  "source_observations","provenance","curated_provenance","evidence","lifecycle","links",
  "source_lineages","printing_ids","relationship_evidence","locator_evidence","included",
  "disagreements","withdrawal","observed","resolution","evidence_category","source_lineage",
  "source_observation_id","source_observation_ids","source_observation_pointer",
  "source_field_pointers"].map fun root => js root.toList

def identityRootsByType : EntityType → List JsString
  | .card => [js "official_identity".toList]
  | .printing => [js "card_id".toList]
  | .product => [js "reference".toList,js "official_code".toList]
  | .release => [js "event_key".toList,js "product_id".toList,js "region".toList]
  | .distribution_context => [js "key".toList,js "product_id".toList]
  | .erratum => [js "target_type".toList,js "target_id".toList]

/-- `part.endsWith("_id")`. -/
def endsWithId (part : JsString) : Bool := (js "_id".toList).isSuffixOf part

/-- `parts.join("/")`. -/
def slashed : Path → JsString
  | [] => []
  | [part] => part
  | part::parts => part++47::slashed parts

def protectedPath (parts : Path) : Bool :=
  forbiddenRoots.contains (parts.headD []) ||
  slashed parts=js "game_data/profile".toList ||
  parts.any fun part => part=js "id".toList || endsWithId part

/-- The paths the shared schemas let an owner curate, as their parts are joined again. -/
def sharedCuratableFields : EntityType → List JsString
  | .card => ["name","effective_rules_text"].map fun field => js field.toList
  | .printing => ["rarity","rarity/normalized","rarity/raw","printed_rules_text"].map
      fun field => js field.toList
  | .product => ["official_code","name"].map fun field => js field.toList
  | .release => ["date","date/precision","date/value","status"].map fun field => js field.toList
  | .distribution_context => ["kind","label"].map fun field => js field.toList
  | .erratum => ["effective_from","official_wording","corrected_value"].map
      fun field => js field.toList

/-- The fields `validateCuratedRevision` and `validateSupersedingProposal` let through: no
protected path, no identity root, and a schema for the field. Below the attributes of a game
profile the schema is the profile's, which is not looked into, except that none of them has a
property `length`. -/
def curatable (target : FieldTarget) : Bool :=
  let parts := pointerParts target.path
  !protectedPath parts && !(identityRootsByType target.entity_type).contains (parts.headD []) &&
  (((target.entity_type=.card || target.entity_type=.printing) &&
      parts.take 2=[js "game_data".toList,js "attributes".toList] &&
      !parts.contains (js "length".toList)) ||
    (sharedCuratableFields target.entity_type).contains (slashed parts))

/-- What the checks of the mutation routes ask of a proposal apart from the current catalogue. -/
def Proposal.admissible (proposal : Proposal) : Bool :=
  (match proposal.effective_from,proposal.effective_to with
    | some first,some last => first<last
    | _,_ => true) &&
  match proposal.assertion with
  | .field target _ => curatable target
  | .relationship _ _ => true

end CardKeepr.Curated
