import CardKeepr.Publication.ExportComponents
import CardKeepr.Read.CardCollection

namespace CardKeepr.Read.Exports

open Lib Shared Publication.Export

/-- The digits of `/^bytes=(\d*)-(\d*)$/`. -/
def rangeParts (header : JsString) : Option (JsString×JsString) :=
  if header.take 6≠js ['b','y','t','e','s','='] then none
  else match (header.drop 6).span isDigit with
  | (first,45::last) => if last.all isDigit then some (first,last) else none
  | _ => none

inductive Range where
  | whole
  | slice (offset length : Nat)
  | unsatisfiable

def suffixRange (suffix size : Nat) : Range :=
  if suffix < 1 then .unsatisfiable else .slice (size-min suffix size) (min suffix size)

/-- From an offset to an end, or to the end of the bytes. -/
def boundedRange (offset requestedEnd size : Nat) : Range :=
  if offset ≥ size ∨ requestedEnd < offset then .unsatisfiable
  else .slice offset (min requestedEnd (size-1)-offset+1)

def parseRange (header : Option JsString) (size : Nat) : Range :=
  match header with
  | none => .whole
  | some header => match rangeParts header with
    | none => .unsatisfiable
    | some (first,last) =>
      if first=[] ∧ last=[] then .unsatisfiable
      else if first=[] then suffixRange (digitsValue last) size
      else boundedRange (digitsValue first) (if last=[] then size-1 else digitsValue last) size

/-- An object of the bucket; older ones have no stored checksum. -/
structure Stored where
  bytes : Bytes
  etag : JsString
  checksum : Option JsString

/-- The bucket as the first, the second and the third read of a request find it. -/
abbrev Reads := Nat → JsString → Option Stored

def verifiedObject (bucket : Reads) (key : JsString) (size : Nat) (sha : JsString) :
    Option Stored := do
  let metadata ← bucket 0 key
  if metadata.bytes.length≠size then none
  else match metadata.checksum with
  | some checksum => if checksum=sha then some metadata else none
  | none => do
    let object ← bucket 1 key
    if object.bytes.length≠size ∨ object.etag≠metadata.etag then none
    else if sha256 object.bytes=sha then some metadata else none

def verifiedObjectBody (bucket : Reads) (key : JsString) (metadata : Stored) (range : Range) :
    Option Bytes := do
  let object ← bucket 2 key
  if object.etag≠metadata.etag ∨ object.bytes.length≠metadata.bytes.length then none
  else match range with
  | .slice offset length => some ((object.bytes.drop offset).take length)
  | _ => some object.bytes

structure CatalogueRevision where
  id : JsString
  published_at : JsString
  content_digest : JsString
  publication_operation_id : Option JsString
  model_ready : Bool

/-- A verified row of `catalogue_exports`. -/
structure Receipt where
  catalogue_revision_id : JsString
  maintenance_state : JsString
  manifest_key : JsString
  manifest_digest : JsString

structure Catalogue where
  db : Database
  catalogue_revisions : List CatalogueRevision
  catalogue_exports : List Receipt
  /-- components, with their revisions, that are still to be deleted -/
  pending_deletions : List (JsString×JsString)

structure ReadState where
  revision : Option CatalogueRevision
  receipt : Option Receipt
  ready : Bool

def available : JsString := js "available".toList

def isVerified (db : Database) (candidate : JsString) : Bool :=
  db.preparations.any fun p => decide (p.candidate_id=candidate ∧ p.state=.verified)

def composedPublicExportReady (c : Catalogue) (r : CatalogueRevision) : Bool :=
  (c.db.preparations.any fun p => decide
    (some p.publication_operation_id=r.publication_operation_id ∧ p.state=.verified)) &&
  (c.db.composition.filter fun m => m.catalogue_revision_id=r.id).all fun m =>
    isVerified c.db m.candidate_id

def exportReadState (c : Catalogue) (revisionId : JsString) : ReadState :=
  let revision := c.catalogue_revisions.find? fun r => decide (r.id=revisionId)
  ⟨revision,c.catalogue_exports.find? fun e => decide (e.catalogue_revision_id=revisionId),
    revision.any (composedPublicExportReady c)⟩

abbrev Artifact := SupportedGame×Component

/-- The rows of the join of a composition with its verified preparations and their components. -/
def artifacts (db : Database) (revisionId : JsString) : List Artifact :=
  (db.composition.filter fun m => m.catalogue_revision_id=revisionId).flatMap fun m =>
    (db.preparations.filter fun p => p.candidate_id=m.candidate_id ∧ p.state=.verified).flatMap
      fun _ => (db.components.filter fun e => e.candidate_id=m.candidate_id).map fun e =>
        (db.game_candidates m.candidate_id,e)

def textKey (s : JsString) : List Nat := (utf8 s).map UInt8.toNat

/-- The order by game and ordinal. -/
def artifactKey (a : Artifact) : List (List Nat) := [textKey a.1.text,[a.2.ordinal]]

def isAfter (game : JsString) (ordinal : Int) (a : Artifact) : Bool :=
  decide (textKey game < textKey a.1.text ∨ (a.1.text=game ∧ ordinal < a.2.ordinal))

def composedExportArtifacts (db : Database) (revisionId afterGame : JsString) (afterOrdinal : Int) :
    List Artifact :=
  (((artifacts db revisionId).filter (isAfter afterGame afterOrdinal)).insertionSort
    fun a b => artifactKey a ≤ artifactKey b).take 4

def composedExportArtifact (db : Database) (revisionId game : JsString) (ordinal : Nat) :
    Option Component :=
  ((artifacts db revisionId).find? fun a =>
    decide (a.1.text=game ∧ a.2.ordinal=ordinal)).map Prod.snd

def composedSupportedGames (db : Database) (revisionId : JsString) : List JsString :=
  ((db.composition.filter fun m => m.catalogue_revision_id=revisionId).map fun m =>
    (db.game_candidates m.candidate_id).text).insertionSort fun a b => textKey a ≤ textKey b

/-- A request for the listing or for a component. -/
structure Request where
  head : Bool
  /-- the tags that the header If-None-Match matches -/
  if_none_match : JsString → Bool
  if_range : Option JsString
  range : Option JsString

/-- A problem; `content_range` is the header of a range that cannot be satisfied. -/
structure Refusal extends ReadProblem where
  content_range : Option JsString

def refusal (status : Nat) (code detail : String) : Refusal := ⟨⟨status,code,detail⟩,none⟩

def unavailable (detail : String) : Refusal := refusal 503 "catalogue_export_unavailable" detail

def gone (detail : String) : Refusal := refusal 410 "catalogue_export_deleted" detail

/-- `null` and `undefined` are answered elsewhere. -/
inductive Answer (α : Type) where
  | null
  | undefined
  | unmodified
  | response (a : α)

structure Manifest where
  revision : JsString
  content_sha256 : JsString
  published_at : JsString
  supported_games : List JsString
  components : List Descriptor
  next_cursor : Option JsString

def gameProfileForGame (game : JsString) : Bool :=
  decide (game∈Reconciliation.Identity.registeredSupportedGames)

/-- `Number.isSafeInteger(v) && v >= 0`. -/
def safeOrdinal : Option Json → Option Nat
  | some (.num q) => if q.den=1 ∧ 0 ≤ q.num ∧ q.num ≤ maxSafeInteger then some q.num.toNat else none
  | _ => none

/-- The place that a cursor of the revision names. -/
def cursorPlace (revisionId : JsString) (ms : List (JsString×Json)) : Option (JsString×Nat) :=
  match ms.lookup (js "revision_id".toList),ms.lookup (js "game".toList),
      safeOrdinal (ms.lookup (js "ordinal".toList)) with
  | some (.str revision),some (.str game),some ordinal =>
    if revision=revisionId ∧ gameProfileForGame game=true then some (game,ordinal) else none
  | _,_,_ => none

def exportCursor (revisionId : JsString) (a : Artifact) : JsString := encodeCursor (.obj [
  (js "revision_id".toList,.str revisionId),(js "game".toList,.str a.1.text),
  (js "ordinal".toList,.num a.2.ordinal)])

/-- The place of a request, as the statement takes it. -/
def requestPlace (revisionId : JsString) (after : Option JsString) :
    Except Refusal (JsString×Int) :=
  match after with
  | none => .ok ([],-1)
  | some raw =>
    if raw=[] then .ok ([],-1)
    else match decodeCursor raw with
    | none => .error (refusal 400 "invalid_cursor" "The collection cursor is invalid.")
    | some ms => match cursorPlace revisionId ms with
      | none => .error (refusal 400 "invalid_cursor" "Use this export composition cursor.")
      | some (game,ordinal) => .ok (game,ordinal)

section
variable (text : Bytes → JsString) (canonicalEtag : Manifest → JsString)

def manifestVerified (bucket : JsString → Option Stored) (receipt : Receipt) : Bool :=
  match bucket receipt.manifest_key with
  | none => false
  | some object => decide (object.bytes.length ≤ 16384 ∧
      sha256Text (text object.bytes)=receipt.manifest_digest)

/-- `after` is the query parameter; the bucket may be missing. -/
def compositionExportResponse (c : Catalogue) (request : Request) (revisionId : JsString)
    (after : Option JsString) (bucket : Option (JsString → Option Stored)) :
    Except Refusal (Answer Manifest) := do
  let state := exportReadState c revisionId
  match state.revision with
  | none => .ok .null
  | some revision => do
    demand (state.receipt.all fun r => decide (r.maintenance_state=available))
      (gone "This known Catalogue Export has been deleted.")
    if revision.publication_operation_id=none then .ok .undefined
    else do
      demand revision.model_ready (unavailable
        "Regenerate each game's Card model before exposing this composition under the current export definition.")
      match state.receipt with
      | none => .error (unavailable "The public package receipt is unavailable.")
      | some receipt => do
        demand (bucket.all fun b => manifestVerified text b receipt)
          (unavailable "The immutable package manifest failed verification.")
        demand state.ready (unavailable "The current public export artifacts are unavailable.")
        let place ← requestPlace revisionId after
        let artifacts := composedExportArtifacts c.db revisionId place.1 place.2
        let next := if artifacts.length=4 then artifacts.getLast?.map (exportCursor revisionId)
          else none
        let manifest : Manifest := ⟨revisionId,revision.content_digest,revision.published_at,
          composedSupportedGames c.db revisionId,artifacts.map fun a => a.2.descriptor,next⟩
        if request.if_none_match (canonicalEtag manifest) then .ok .unmodified
        else .ok (.response manifest)

end

def isGameName : JsString → Bool
  | [] => false
  | u::us => decide (97 ≤ u ∧ u ≤ 122) &&
    us.all fun u => decide (97 ≤ u ∧ u ≤ 122) || isDigit u || u==45

/-- `0|[1-9]\d*`. -/
def isOrdinal : JsString → Bool
  | [] => false
  | u::us => (u==48 && us.isEmpty) || (isDigit u && u != 48 && us.all isDigit)

/-- The parts of `/^([a-z][a-z0-9-]*)\.(0|[1-9]\d*)$/`. -/
def nameParts (name : JsString) : Option (JsString×Nat) :=
  match name.span (· != 46) with
  | (game,46::digits) =>
    if isGameName game && isOrdinal digits then some (game,digitsValue digits) else none
  | _ => none

structure ComponentResponse where
  status : Nat
  revision : JsString
  etag : JsString
  content_disposition : JsString
  content_length : JsString
  content_range : Option JsString
  body : Option Bytes

def quoted (sha : JsString) : JsString := 34::sha++[34]

/-- `bytes ${range}/${size}`. -/
def contentRange (range : JsString) (size : Nat) : JsString :=
  js ['b','y','t','e','s',' ']++range++47::decimal size

def deletedComponent : Refusal := gone "This known Catalogue Export component has been deleted."

/-- The object of an artifact, whole or in part. -/
def componentBody (bucket : Reads) (request : Request) (revisionId name : JsString)
    (artifact : Component) : Except Refusal (Answer ComponentResponse) := do
  let size := artifact.ref.byte_length
  let etag := quoted artifact.ref.sha256
  let respond (status : Nat) (length : Nat) (range : Option JsString) (body : Option Bytes) :
      ComponentResponse :=
    ⟨status,revisionId,etag,js "attachment; filename=\"".toList++name++js ".ndjson.gz\"".toList,
      decimal length,range,body⟩
  demand (decide (size ≤ 4000000)) (unavailable "The verified public component is unavailable.")
  match verifiedObject bucket artifact.ref.object_key size artifact.ref.sha256 with
  | none => .error (unavailable "The immutable public component failed verification.")
  | some object =>
    if request.if_none_match etag then .ok .unmodified
    else do
      let range := if request.head=true ∨ (request.if_range.isSome ∧ request.if_range≠some etag)
        then .whole else parseRange request.range size
      let changed := unavailable "The verified public component changed during the read."
      match range with
      | .unsatisfiable => .error ⟨⟨416,"range_not_satisfiable",
          "The requested Catalogue Export byte range is not satisfiable."⟩,
          some (contentRange [42] size)⟩
      | .whole =>
        if request.head then .ok (.response (respond 200 size none none))
        else match verifiedObjectBody bucket artifact.ref.object_key object .whole with
        | none => .error changed
        | some body => .ok (.response (respond 200 size none (some body)))
      | .slice offset length =>
        match verifiedObjectBody bucket artifact.ref.object_key object (.slice offset length) with
        | none => .error changed
        | some body => .ok (.response (respond 206 length (some (contentRange
            (decimal offset++45::decimal (offset+length-1)) size)) (some body)))

def compositionExportComponentResponse (c : Catalogue) (bucket : Reads) (request : Request)
    (revisionId name : JsString) : Except Refusal (Answer ComponentResponse) := do
  let state := exportReadState c revisionId
  match state.revision with
  | none => .ok .null
  | some revision =>
    let deleted := state.receipt.any fun r => decide (r.maintenance_state≠available)
    if revision.publication_operation_id=none then
      if deleted then
        if (revisionId,name)∈c.pending_deletions then .error deletedComponent else .ok .null
      else .ok .undefined
    else do
      demand state.ready (unavailable "The current public export artifacts are unavailable.")
      match nameParts name with
      | none => .ok .null
      | some (game,ordinal) =>
        if gameProfileForGame game=false ∨ ordinal > maxSafeInteger then .ok .null
        else match composedExportArtifact c.db revisionId game ordinal with
        | none => .ok .null
        | some artifact => do
          demand (!deleted) deletedComponent
          demand state.receipt.isSome (unavailable "The public package receipt is unavailable.")
          componentBody bucket request revisionId name artifact

end CardKeepr.Read.Exports
