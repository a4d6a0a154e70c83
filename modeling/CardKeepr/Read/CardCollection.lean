import CardKeepr.Lib.Paging
import CardKeepr.Read.CollectionCursor
import Mathlib.Data.List.Lex

namespace CardKeepr.Read
open Shared Lib

structure CardPagePosition where
  game : JsString
  identity_kind : JsString
  identity_value : JsString
  id : JsString
deriving DecidableEq

/-- Texts are ordered by their bytes, one column after the other. -/
def CardPagePosition.key (p : CardPagePosition) : List (List Nat) :=
  [p.game,p.identity_kind,p.identity_value,p.id].map fun t => (utf8 t).map UInt8.toNat

/-- A stored card; its game, the kind and value of its identity and its id are not empty. -/
structure CardRow where
  summary_json : JsString
  position : CardPagePosition
  named : position.game≠[] ∧ position.identity_kind≠[] ∧ position.identity_value≠[] ∧
    position.id≠[]

def CardRow.key (r : CardRow) : List (List Nat) := r.position.key

def CardRow.summary_bytes (r : CardRow) : Nat := (utf8 r.summary_json).length

/-- A published revision with its cards; the id is the key of the cards' table. -/
structure Revision where
  id : JsString
  published_at : JsString
  cards : List CardRow
  named : id≠[]
  keys : (cards.map fun r => utf8 r.position.id).Nodup

/-- The revisions that can be read, and the current one. -/
structure Catalogue where
  available : List Revision
  current : JsString

structure CollectionFilters where
  cardId : Option JsString
  q : Option JsString
  game : Option JsString
  category : Option JsString
  cardNumber : Option JsString
  productId : Option JsString
  rarity : Option JsString
  attributes : List (JsString×JsString)
  limit : Nat
  keys : OwnKeys (attributes.map Prod.fst)
  limited : 1 ≤ limit ∧ limit ≤ 100

def textOrNull : Option JsString → Json
  | some s => .str s
  | none => .null

def CollectionFilters.json (f : CollectionFilters) : Json :=
  .obj ((f.cardId.toList.map fun c => (js "cardId".toList,Json.str c))++
    [(js "q".toList,textOrNull f.q),(js "game".toList,textOrNull f.game),
      (js "category".toList,textOrNull f.category),(js "cardNumber".toList,textOrNull f.cardNumber),
      (js "productId".toList,textOrNull f.productId),(js "rarity".toList,textOrNull f.rarity),
      (js "attributes".toList,.obj (f.attributes.map fun a => (a.1,.str a.2))),
      (js "limit".toList,.num f.limit)])

/-- A request for a page; `after` is the text of a cursor. -/
structure Request where
  filters : CollectionFilters
  revision : Option JsString
  after : Option JsString

structure ReadProblem where
  status : Nat
  code : String
  detail : String
deriving DecidableEq

def invalidCursor : ReadProblem := ⟨400,"invalid_cursor","The Card cursor is invalid."⟩

def budgetExceeded : ReadProblem :=
  ⟨503,"catalogue_query_unavailable","The Card page exceeds its response budget."⟩

def revisionUnavailable (pinned : Bool) : ReadProblem :=
  if pinned then ⟨409,"cursor_revision_unavailable","The cursor Catalogue Revision is unavailable."⟩
  else ⟨503,"catalogue_query_unavailable",
    "The current Catalogue Revision query projection is unavailable."⟩

structure PageRow where
  row : CardRow
  summary_json : Option JsString

/-- The rows of the filters behind a position, in the order of the collection. -/
def candidates (matching : CardRow → Bool) (r : Revision) (after : Option CardPagePosition) :
    List CardRow :=
  ((r.cards.filter matching).insertionSort fun a b => a.key ≤ b.key).filter fun c =>
    match after with
    | none => true
    | some p => decide (p.key < c.key)

/-- The running sum of `summary_bytes + 1`, and the ordinal. Within the limit the summary comes
with a row as long as the sum stays below the maximum; with the first row it always comes. -/
def sized (limit maximumDocumentBytes : Nat) (ordinal sum : Nat) : List CardRow → List PageRow
  | [] => []
  | r::rs =>
    let total := sum+(r.summary_bytes+1)
    let joined := ordinal+1 ≤ limit ∧ (total+1 ≤ maximumDocumentBytes ∨ ordinal+1=1)
    ⟨r,if joined then some r.summary_json else none⟩::
      sized limit maximumDocumentBytes (ordinal+1) total rs

def cardCollectionPage (limit maximumDocumentBytes : Nat) (rows : List CardRow) : List PageRow :=
  sized limit maximumDocumentBytes 0 0 (rows.take (limit+1))

def maximumCollectionResponseBytes : Nat := 4*1024*1024
def collectionEnvelopeAllowanceBytes : Nat := 32*1024

/-- The rows up to the first without its summary, and whether there is one. -/
def takeRows : List PageRow → List CardRow×Bool
  | [] => ([],false)
  | p::ps =>
    match p.summary_json with
    | none => ([],true)
    | some _ => (p.row::(takeRows ps).1,(takeRows ps).2)

def queryCardPage (matching : CardRow → Bool) (r : Revision) (limit : Nat)
    (after : Option CardPagePosition) : List CardRow×Bool :=
  takeRows (cardCollectionPage limit
    (maximumCollectionResponseBytes-collectionEnvelopeAllowanceBytes) (candidates matching r after))

def contract : JsString := js "card-keepr-card-cursor@1".toList
def route : JsString := js "/v1/cards".toList
def cardCollectionOrder : JsString :=
  js "game,official_identity.kind,official_identity.value,id".toList

structure CardCursor where
  revision_id : JsString
  filters : Json
  after : CardPagePosition

def CardPagePosition.json (p : CardPagePosition) : Json :=
  .obj [(js "game".toList,.str p.game),(js "identity_kind".toList,.str p.identity_kind),
    (js "identity_value".toList,.str p.identity_value),(js "id".toList,.str p.id)]

def CardCursor.members (c : CardCursor) : List (JsString×Json) :=
  [(js "contract".toList,.str contract),(js "route".toList,.str route),
    (js "order".toList,.str cardCollectionOrder),(js "revision_id".toList,.str c.revision_id),
    (js "filters".toList,c.filters),(js "after".toList,c.after.json)]

def CardCursor.text (c : CardCursor) : JsString := encodeCursor (.obj c.members)

def isText (v : Option Json) (s : JsString) : Bool :=
  match v with
  | some (.str t) => t==s
  | _ => false

def nonemptyText : Option Json → Option JsString
  | some (.str (u::s)) => some (u::s)
  | _ => none

def recordOf : Option Json → Option (List (JsString×Json))
  | some (.obj ms) => some ms
  | _ => none

def parseCursor (encoded : JsString) : Option CardCursor := do
  let value ← decodeCursor encoded
  if isText (value.lookup (js "contract".toList)) contract &&
      isText (value.lookup (js "route".toList)) route &&
      isText (value.lookup (js "order".toList)) cardCollectionOrder then do
    let revision_id ← nonemptyText (value.lookup (js "revision_id".toList))
    let filters ← recordOf (value.lookup (js "filters".toList))
    let after ← recordOf (value.lookup (js "after".toList))
    let game ← nonemptyText (after.lookup (js "game".toList))
    let identity_kind ← nonemptyText (after.lookup (js "identity_kind".toList))
    let identity_value ← nonemptyText (after.lookup (js "identity_value".toList))
    let id ← nonemptyText (after.lookup (js "id".toList))
    return ⟨revision_id,.obj filters,⟨game,identity_kind,identity_value,id⟩⟩
  else none

/-- What the read takes from elsewhere: the rows a filter selects, the public form of a stored
document and the link of a request. -/
structure Reading where
  nfc : Nfc
  matching : CollectionFilters → CardRow → Bool
  publicDocument : JsString → Json
  self : Request → JsString
  published : Revision → CollectionFilters → Except ReadProblem Unit

/-- A page with its rows, the bytes of its data and the text of the response. -/
structure CardPage where
  rows : List CardRow
  data : List JsString
  dataBytes : Nat
  next_cursor : Option JsString
  body : JsString

/-- What a request reads: the pinned revision and the position of its cursor. -/
structure Opened where
  revision : Revision
  after : Option CardPagePosition

def pinRevision (catalogue : Catalogue) (requested : Option JsString) :
    Except ReadProblem Revision :=
  match catalogue.available.find? fun r => r.id==requested.getD catalogue.current with
  | some revision => .ok revision
  | none => .error (revisionUnavailable requested.isSome)

/-- The cursor of a request, if it has one. -/
def requestCursor (request : Request) : Except ReadProblem (Option CardCursor) :=
  match request.after with
  | none => .ok none
  | some encoded =>
    match parseCursor encoded with
    | some cursor => .ok (some cursor)
    | none => .error invalidCursor

/-- The canonical texts of two filters agree. -/
def sameFilters (nfc : Nfc) (a b : Json) : Bool :=
  match canonicalJson nfc a,canonicalJson nfc b with
  | .ok s,.ok t => s==t
  | _,_ => false

section
variable (g : Reading) (revision : Revision) (request : Request)

def rowCursor (r : CardRow) : JsString :=
  (CardCursor.mk revision.id request.filters.json r.position).text

def serialized (r : CardRow) : JsString := (g.publicDocument r.summary_json).print

def suffix (next : Option JsString) : JsString :=
  js "],".toList++(Json.obj [
    (js "meta".toList,.obj [(js "catalogue_revision_id".toList,.str revision.id),
      (js "published_at".toList,.str revision.published_at)]),
    (js "page".toList,.obj [(js "limit".toList,.num request.filters.limit),
      (js "next_cursor".toList,textOrNull next)]),
    (js "links".toList,.obj [(js "self".toList,.str (g.self request))])]).print.drop 1

def head : JsString := js "\x7b\"data\":[".toList

/-- What the response takes around its data. -/
def around (next : Option JsString) : Nat := (utf8 (head++suffix g revision request next)).length

section
variable (rows : List CardRow) (hasMore : Bool)

def nextCursor (count : Nat) : Option JsString :=
  if (hasMore || decide (count < rows.length)) && decide (0 < count) then
    rows[count-1]?.map (rowCursor revision request)
  else none

def cardPage (count dataBytes : Nat) : CardPage :=
  let data := (rows.take count).map (serialized g)
  let next := nextCursor revision request rows hasMore count
  ⟨rows.take count,data,dataBytes,next,head++(commas data++suffix g revision request next)⟩

/-- Only the small envelope changes while trimming. -/
def trim (count dataBytes : Nat) : Except ReadProblem CardPage :=
  if dataBytes+around g revision request (nextCursor revision request rows hasMore count) ≤
      maximumCollectionResponseBytes then
    .ok (cardPage g revision request rows hasMore count dataBytes)
  else match count with
    | 0 => .error budgetExceeded
    | 1 => .error budgetExceeded
    | count+2 => trim (count+1) (dataBytes-
        ((((rows.map (serialized g))[count+1]?.map utf8).getD []).length+1))

end

def pageResponse (after : Option CardPagePosition) : Except ReadProblem CardPage :=
  let queried := queryCardPage (g.matching request.filters) revision request.filters.limit after
  let serializedRows := queried.1.map (serialized g)
  trim g revision request queried.1 queried.2 serializedRows.length
    ((serializedRows.map fun row => (utf8 row).length).sum+(serializedRows.length-1))

end

variable (g : Reading) (catalogue : Catalogue)

def opened (request : Request) : Except ReadProblem Opened := do
  let cursor ← requestCursor request
  demand (!(cursor.any fun c => request.revision.any fun r => !r.isEmpty && r != c.revision_id))
    invalidCursor
  let revision ← pinRevision catalogue (request.revision.or (cursor.map CardCursor.revision_id))
  demand (cursor.all fun c => sameFilters g.nfc c.filters request.filters.json) invalidCursor
  g.published revision request.filters
  return ⟨revision,cursor.map CardCursor.after⟩

def cardCollectionResponse (request : Request) : Except ReadProblem CardPage := do
  let read ← opened g catalogue request
  pageResponse g read.revision request read.after

end CardKeepr.Read
