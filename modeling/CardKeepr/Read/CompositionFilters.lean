import CardKeepr.Publication.SearchProjection
import CardKeepr.Shared.ReconciliationProfile

namespace CardKeepr.Read.Composed
open Shared Read Lib Publication.Preparation

inductive Collection
  | cards | printings | products
  deriving DecidableEq

inductive EntityKind
  | listed (kind : Collection)
  | product_relationships
  deriving DecidableEq

inductive Region
  | oceania | asia | us | unknown
  deriving DecidableEq

def Region.text : Region → JsString
  | .oceania => js ['E','N','-','O','C','E','A','N','I','A']
  | .asia => js ['E','N','-','A','S','I','A']
  | .us => js ['E','N','-','U','S']
  | .unknown => js ['u','n','k','n','o','w','n']

def regions : List Region := [.oceania,.asia,.us,.unknown]

inductive Filter
  | game | category | q | card_id | card_number | rarity | product_id | release_region
  deriving DecidableEq

def Filter.text : Filter → JsString
  | .game => js "game".toList
  | .category => js "category".toList
  | .q => js ['q']
  | .card_id => js "card_id".toList
  | .card_number => js "card_number".toList
  | .rarity => js "rarity".toList
  | .product_id => js "product_id".toList
  | .release_region => js "release_region".toList

/-- The name of a query parameter; `attributeAt path` is a name that starts with `attribute.`. -/
inductive Name
  | limit
  | after
  | revision
  | filter (filter : Filter)
  | attributeAt (path : JsString)
  | other (name : JsString)
  deriving DecidableEq

def Name.text : Name → JsString
  | .limit => js "limit".toList
  | .after => js "after".toList
  | .revision => js "revision".toList
  | .filter f => f.text
  | .attributeAt path => js "attribute.".toList++path
  | .other name => name

abbrev SearchParams := List (Name×JsString)

structure Problem where
  name : JsString
  reason : JsString

def invalidParameter {α : Type} (name reason : JsString) : Except Problem α := .error ⟨name,reason⟩

def singleParameter (params : SearchParams) (name : Name) : Except Problem (Option JsString) :=
  match params.filter fun p => p.1=name with
  | [] => .ok none
  | [p] => .ok (some p.2)
  | _ => invalidParameter name.text (name.text++js " must be supplied exactly once.".toList)

def allowed : Collection → Name → Bool
  | .products,.filter .category => false
  | .cards,.attributeAt _ => true
  | _,.attributeAt _ => false
  | _,.other _ => false
  | _,_ => true

def collectionParameters (kind : Collection) (params : SearchParams) : Except Problem Unit :=
  (params.map Prod.fst).forM fun name => do
    if name.text=[] then
      invalidParameter (js "query".toList) (js "query parameter names must be non-empty.".toList)
    else if allowed kind name=false then
      invalidParameter name.text (name.text++js " is not accepted.".toList)
    else discard (singleParameter params name)

/-- A check of a value that is given. -/
def given {α : Type} (value : Option JsString) (check : JsString → Except Problem α) :
    Except Problem (Option α) :=
  match value with
  | none => .ok none
  | some value => (check value).map some

def collectionFilterValue (name : Name) (value : JsString) : Except Problem JsString :=
  if value.length=0 then
    invalidParameter name.text (name.text++js " must contain at least one character.".toList)
  else if (points value).length > 500 then
    invalidParameter name.text (name.text++js " must contain at most 500 characters.".toList)
  else .ok value

def collectionFilter (params : SearchParams) (name : Name) : Except Problem (Option JsString) := do
  given (← singleParameter params name) (collectionFilterValue name)

def rarityUnit (u : UInt16) : Bool :=
  decide (97 ≤ u.toNat ∧ u.toNat ≤ 122) || decide (48 ≤ u.toNat ∧ u.toNat ≤ 57) || u==95 || u==45

/-- The text functions of the runtime, and the registered profiles with their games and the
schemas of their cards. -/
structure Platform where
  nfc : JsString → JsString
  nfkc : JsString → JsString
  trim : JsString → JsString
  toLowerCase : JsString → JsString
  toLocaleLowerCase : JsString → JsString
  profileContracts : List (JsString×JsString×Schema)
  /-- Lower case letters, digits, `_` and `-` are their own lower case. -/
  lower_plain : ∀s,s.all rarityUnit=true → toLowerCase s=s
  /-- A text of 500 code points expands to at most 9216. -/
  bounded : ∀s,(points s).length ≤ 500 →
    (points (nfkc (toLocaleLowerCase (nfkc s)))).length ≤ maximumNormalizedSearchQueryCodePoints

variable (t : Platform)

def normalizeCardSearchText (value : JsString) : JsString :=
  t.nfkc (t.toLocaleLowerCase (t.nfkc value))

def gameProfileForGame (game : JsString) : Option Schema :=
  (t.profileContracts.find? fun contract => contract.2.1=game).map fun contract => contract.2.2

def items : Schema → Schema
  | .array _ schema _ _ _ => items schema
  | schema => schema

def property (name : JsString) : Schema → Option Schema
  | .object _ properties => (properties.find? fun p => p.1=name).map Prod.snd
  | _ => none

/-- `path.split(".")` -/
def splitPath : JsString → List JsString
  | [] => [[]]
  | u::path =>
    match splitPath path with
    | [] => [[u]]
    | part::parts => if u=46 then []::part::parts else (u::part)::parts

def wholeNumber (raw : JsString) : Bool :=
  raw==[48] || (raw.all (fun u => decide (48 ≤ u.toNat ∧ u.toNat ≤ 57)) && raw.head?.any (· != 48))

def nullable : Schema → Bool
  | .string n _ => n
  | .integer n _ => n
  | .array n _ _ _ _ => n
  | _ => false

def filterValue (schema : Schema) (raw : JsString) : Option JsString :=
  if nullable schema=true ∧ raw=js ['n','u','l','l'] then some raw
  else match schema with
    | .object _ _ => none
    | .enum values => if values.contains raw then some (Json.str raw).print else none
    | .string _ minimumLength => if raw.length ≥ minimumLength then some (Json.str raw).print else none
    | .integer _ minimum =>
      if wholeNumber raw=true ∧ digitsValue raw ≤ 9007199254740991 ∧ minimum ≤ digitsValue raw
      then some raw else none
    | _ => if raw=js ['t','r','u','e'] ∨ raw=js ['f','a','l','s','e'] then some raw else none

def gameProfileFilterValue (profile : Schema) (path raw : JsString) : Option JsString :=
  ((splitPath path).foldl (fun schema part => schema.bind fun s => property part (items s))
    (some profile)).bind fun schema => filterValue (items schema) raw

structure ComposedFilters where
  game : Option JsString
  category : Option JsString
  q : Option JsString
  card_id : Option JsString
  card_number : Option JsString
  rarity : Option JsString
  product_id : Option JsString
  release_region : Option Region
  attributes : List (JsString×JsString)

def nonempty (name : Name) (value : JsString) : Except Problem JsString :=
  if value=[] then
    invalidParameter name.text (name.text++js " must contain at least one character.".toList)
  else .ok value

def checkTrimmed (filter : Filter) (value : JsString) : Except Problem JsString :=
  nonempty (.filter filter) (t.trim (t.nfkc value))

def categories : List JsString :=
  [js ['g','a','m','e','p','l','a','y'],js ['t','o','k','e','n'],js ['a','r','t']]

def checkCategory (value : JsString) : Except Problem JsString :=
  if categories.contains value then .ok value
  else invalidParameter Filter.category.text
    (js "category must be gameplay, token, or art.".toList)

def checkGame (value : JsString) : Except Problem JsString :=
  if (gameProfileForGame t value).isNone then
    invalidParameter Filter.game.text (js "game is not a Supported Game.".toList)
  else .ok value

def checkRegion (value : JsString) : Except Problem Region :=
  match regions.find? fun r => r.text=value with
  | none => invalidParameter Filter.release_region.text (js "Release region is invalid.".toList)
  | some region => .ok region

def checkQuery (value : JsString) : Except Problem JsString :=
  nonempty (.filter .q) (normalizeCardSearchText t value)

def checkRarity (value : JsString) : Except Problem JsString :=
  let rarity := t.toLowerCase (t.trim (t.nfc value))
  if rarity.all rarityUnit=true ∧ 1 ≤ rarity.length ∧ rarity.length ≤ 100 then .ok rarity
  else invalidParameter Filter.rarity.text (js "rarity must be a normalized rarity value.".toList)

def attributePath : Name×JsString → Option JsString
  | (.attributeAt path,_) => some path
  | _ => none

def checkAttribute (params : SearchParams) (game : Option JsString) (path : JsString) :
    Except Problem (JsString×JsString) := do
  let value ← match game.bind (gameProfileForGame t) with
    | none => .ok none
    | some profile =>
      let raw ← collectionFilter params (.attributeAt path)
      .ok (gameProfileFilterValue profile path (raw.getD []))
  match value with
  | none =>
    let reason := "The attribute requires its Supported Game and a defined Game Profile value."
    invalidParameter (Name.attributeAt path).text (js reason.toList)
  | some value => .ok (path,value)

/-- From the query of a request to the filters of the statement. -/
def composedFilters (kind : Collection) (params : SearchParams) :
    Except Problem ComposedFilters := do
  collectionParameters kind params
  let game ← collectionFilter params (.filter .game)
  let category ← collectionFilter params (.filter .category)
  let q ← collectionFilter params (.filter .q)
  let card_id ← collectionFilter params (.filter .card_id)
  let card_number ← collectionFilter params (.filter .card_number)
  let rarity ← collectionFilter params (.filter .rarity)
  let product_id ← collectionFilter params (.filter .product_id)
  let release_region ← collectionFilter params (.filter .release_region)
  let game ← given game (checkTrimmed t .game)
  let card_number ← given card_number (checkTrimmed t .card_number)
  let category ← given category checkCategory
  let game ← given game (checkGame t)
  let release_region ← given release_region checkRegion
  let q ← given q (checkQuery t)
  let rarity ← given rarity (checkRarity t)
  let attributes ← ((params.filterMap attributePath).insertionSort
    fun a b => compareUnits a b ≤ 0).mapM (checkAttribute t params game)
  .ok ⟨game,category,q,card_id,card_number,rarity,product_id,release_region,attributes⟩

/-- A row of `publication_read_entities` with the texts of its record. -/
structure Entity where
  candidate_id : JsString
  kind : EntityKind
  entity_id : JsString
  supported_game : JsString
  card_id : Option JsString
  identity_value : CardField
  name : CardField
  official_code : CardField
  effective_rules_text : CardField
  rarity : Option JsString
  relationship_kind : Option JsString
  from_id : Option JsString
  to_id : Option JsString
  category : Option JsString

/-- The column of a text: NULL where the text is stored in parts. -/
def column : CardField → Option JsString
  | .inline value => value
  | .part _ _ => none

def Entity.key (e : Entity) : JsString×EntityKind×JsString := (e.candidate_id,e.kind,e.entity_id)

def Entity.prepared (e : Entity) : PreparedCard := ⟨e.identity_value,e.name,e.effective_rules_text⟩

structure Lifecycle where
  candidate_id : JsString
  kind : EntityKind
  entity_id : JsString
  withdrawn : Bool

structure ReleaseRegion where
  candidate_id : JsString
  product_id : JsString
  region : Region

structure AttributeRow where
  candidate_id : JsString
  name : JsString
  value : JsString
  card_id : JsString

/-- What a catalogue revision publishes: the selected candidates and their read facts. -/
structure Composition where
  games : List (JsString×JsString)
  entities : List Entity
  lifecycles : List Lifecycle
  release_regions : List ReleaseRegion
  attributes : List AttributeRow
  unique : (entities.map Entity.key).Nodup

structure SearchRow where
  candidate_id : JsString
  card_id : JsString
  chunk : CardSearchChunk

/-- `publication_search_chunks`: what the search projection of every card retains. -/
def Composition.searchChunks (m : Composition) : List SearchRow :=
  (m.entities.filter fun e => e.kind=.listed .cards).flatMap fun e =>
    (cardRows (normalizeCardSearchText t) e.prepared).map fun chunk => ⟨e.candidate_id,e.entity_id,chunk⟩

def equal (column value : Option JsString) : Bool :=
  match value with
  | none => true
  | some value => column==some value

/-- `lower` folds ASCII letters only. -/
def lower (text : JsString) : JsString :=
  text.map fun u => if 65 ≤ u.toNat ∧ u.toNat ≤ 90 then u+32 else u

/-- `instr(text,q)>0` -/
def instr (q : JsString) : JsString → Bool
  | [] => q.isPrefixOf []
  | u::text => q.isPrefixOf (u::text) || instr q text

variable (m : Composition) (kind : Collection) (e : Entity)

def ofCategory (category : Option JsString) : Bool :=
  match kind,category with
  | .printings,some category => m.entities.any fun card =>
    card.candidate_id==e.candidate_id && card.kind=.listed .cards && card.category==some category &&
      some card.entity_id==e.card_id
  | _,category => equal e.category category

def ofRarity (rarity : Option JsString) : Bool :=
  match kind,rarity with
  | _,none => true
  | .cards,some rarity => m.entities.any fun p =>
    p.candidate_id==e.candidate_id && p.kind=.listed .printings &&
      p.rarity==some (t.toLowerCase rarity) && p.card_id==some e.entity_id
  | _,some rarity => equal e.rarity (some (t.toLowerCase rarity))

def searched (q : Option JsString) : Bool :=
  match kind,q with
  | _,none => true
  | .cards,some q => (m.searchChunks t).any fun search =>
    search.candidate_id==e.candidate_id && search.card_id==e.entity_id &&
      instr q search.chunk.text
  | _,some q => instr q (lower ((column e.official_code).getD []++[32]++(column e.name).getD []))

def ofRegion (candidate_id : JsString) (product_id : Option JsString) (region : Region) : Bool :=
  m.release_regions.any fun r =>
    r.candidate_id==candidate_id && some r.product_id==product_id && r.region=region

/-- A relationship of a printing to a product that is not withdrawn. -/
def membership (rel : Entity) : Bool :=
  rel.kind=.product_relationships &&
    rel.relationship_kind==some (js "printing-product".toList) &&
    m.lifecycles.any fun l => l.candidate_id==rel.candidate_id && l.kind=rel.kind &&
      l.entity_id==rel.entity_id && !l.withdrawn

def placed (product_id : Option JsString) (release_region : Option Region) : Bool :=
  if product_id=none ∧ release_region=none then true
  else match kind with
  | .products =>
    -- without a region the statement asks for the region '', which no release has
    release_region.any fun region => ofRegion m e.candidate_id (some e.entity_id) region
  | _ => m.entities.any fun rel => rel.candidate_id==e.candidate_id && membership m rel &&
    (match kind with
    | .cards => m.entities.any fun printing => printing.candidate_id==rel.candidate_id &&
      printing.kind=.listed .printings && some printing.entity_id==rel.from_id &&
      printing.card_id==some e.entity_id
    | _ => rel.from_id==some e.entity_id) &&
    equal rel.to_id product_id &&
    release_region.all fun region => ofRegion m e.candidate_id rel.to_id region

def attributed (attributes : List (JsString×JsString)) : Bool :=
  attributes.all fun (name,value) => m.attributes.any fun a =>
    a.candidate_id==e.candidate_id && a.name==name && a.value==value && a.card_id==e.entity_id

/-- The conditions on one column or on related rows, apart from the search and the product. -/
def ordinary (filters : ComposedFilters) : Bool :=
  m.games.any (fun g => g.1=e.candidate_id) && e.kind=.listed kind &&
    equal (some e.supported_game) filters.game && ofCategory m kind e filters.category &&
    equal (match kind with | .cards => some e.entity_id | _ => e.card_id) filters.card_id &&
    equal (column e.identity_value) filters.card_number &&
    ofRarity t m kind e filters.rarity && attributed m e filters.attributes

/-- The entities on the pages of the collection together. -/
def composedCollection (filters : ComposedFilters) : List Entity :=
  m.entities.filter fun e => ordinary t m kind e filters && searched t m kind e filters.q &&
    placed m kind e filters.product_id filters.release_region

def notPresent {α : Type} (name : JsString) : Except Problem α :=
  invalidParameter name (js "This value is not present in the pinned catalogue revision.".toList)

/-- The values of a filter that a composition must have. -/
def checkValues (filters : ComposedFilters) : Except Problem Unit := do
  if filters.product_id.all (fun value => m.games.any fun g => m.entities.any fun e =>
      e.candidate_id==g.1 && e.kind=.listed .products && e.entity_id==value) then .ok ()
  else notPresent Filter.product_id.text
  if filters.rarity.all (fun value => m.games.any fun g => m.entities.any fun e =>
      e.candidate_id==g.1 && e.kind=.listed .printings && e.rarity==some value) then .ok ()
  else notPresent Filter.rarity.text
  filters.attributes.forM fun (name,value) =>
    if m.games.any (fun g => some g.2==filters.game && m.attributes.any fun a =>
      a.candidate_id==g.1 && a.name==name && a.value==value) then .ok ()
    else notPresent (Name.attributeAt name).text

/-- The filters of a request that the composition answers. -/
def acceptedFilters (params : SearchParams) : Except Problem ComposedFilters := do
  let filters ← composedFilters t kind params
  checkValues m filters
  .ok filters

end CardKeepr.Read.Composed
