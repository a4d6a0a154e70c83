import CardKeepr.Reconciliation.IdentityCorrections
import Mathlib.Logic.Relation

namespace CardKeepr.Publication.Export

open Lib Shared

abbrev Bytes := List UInt8

/-- `deterministicGzip`: a member has ten bytes of header and eight of trailer about its blocks. -/
structure Compressor where
  deterministicGzip : Bytes → Bytes
  member : ∀data,∃header blocks trailer,
    deterministicGzip data=header++blocks++trailer ∧ header.length=10 ∧ trailer.length=8

/-- A game of the registered profiles. -/
structure SupportedGame where
  text : JsString
  registered : text∈Reconciliation.Identity.registeredSupportedGames
  deriving DecidableEq

structure Reference where
  object_key : JsString
  sha256 : JsString
  byte_length : Nat

structure Descriptor where
  kind : JsString
  media_type : JsString
  compression : JsString
  record_schema : JsString
  records : Nat
  uncompressed_bytes : Nat
  content_sha256 : JsString
  compressed_bytes : Nat
  compressed_sha256 : JsString
  name : JsString

/-- A row of `publication_export_components`. -/
structure Component where
  candidate_id : JsString
  ordinal : Nat
  kind : JsString
  entity_id : JsString
  input_digest : JsString
  ref : Reference
  descriptor : Descriptor

/-- A row that `publicationExportDependenciesStatement` finds for a printing. -/
structure Dependency where
  text_calls : Nat
  relationship_digest : JsString
  target_digest : Option JsString
  entity_id : JsString
  target_id : Option JsString

/-- A record of the candidate; its ordinal counts the batches of the projection. -/
structure Source where
  kind : JsString
  entity_id : JsString
  ordinal : Nat
  content : JsString
  sha256 : JsString
  lifecycle_json : JsString
  /-- `chunks` of the text parts in `content` -/
  text_parts : List Nat
  dependencies : List Dependency
  safe : ordinal < 2^53

inductive ExportState where
  | preparing
  | verified
  | failed
  deriving DecidableEq

inductive Phase where
  | records
  | nodes
  deriving DecidableEq

structure Cursor where
  phase : Phase
  after : Int

/-- A row of `publication_export_preparations`. -/
structure Preparation where
  publication_operation_id : JsString
  candidate_id : JsString
  state : ExportState
  sequence : Nat
  cursor : Cursor
  component_count : Nat
  failure_code : Option String

/-- A row of `catalogue_composition_games`. -/
structure CompositionGame where
  catalogue_revision_id : JsString
  candidate_id : JsString

/-- An approved publication; it keeps its candidate. -/
structure Operation where
  candidate_id : JsString
  expected_game_revision_id : JsString

/-- The tables. A composition names a game by its candidate. -/
structure Database where
  game_candidates : JsString → SupportedGame
  game_publication_operations : JsString → Operation
  publication_read_entities : JsString → List Source
  components : List Component
  preparations : List Preparation
  composition : List CompositionGame

/-- The publication operation with its candidate. -/
structure Owner extends Operation where
  id : JsString
  supported_game : SupportedGame

def exportOwner (db : Database) (id : JsString) : Owner where
  toOperation := db.game_publication_operations id
  id := id
  supported_game := db.game_candidates (db.game_publication_operations id).candidate_id

/-- `InvalidPublicExport` with its message, or an error of another class. -/
inductive Problem where
  | invalid (message : String)
  | raised

def capacityExceeded : Problem := .invalid "public_export_capacity_exceeded"
def artifactMissing : Problem := .invalid "public_export_artifact_missing"
def artifactCorrupt : Problem := .invalid "public_export_artifact_corrupt"
def projectionCorrupt : Problem := .invalid "public_export_projection_corrupt"
def recordInvalid : Problem := .invalid "public_export_record_invalid"

def maximumBytes : Nat := 4000000

/-- The bytes that stand under the keys of the bucket. -/
abbrev Bucket := JsString → Option Bytes

def verify (bucket : Bucket) (ref : Reference) : Except Problem Unit := do
  demand (decide (ref.byte_length ≤ maximumBytes)) capacityExceeded
  match bucket ref.object_key with
  | none => .error artifactMissing
  | some bytes => do
    demand (decide (bytes.length=ref.byte_length)) artifactMissing
    demand (decide (Shared.sha256 bytes=ref.sha256)) artifactCorrupt

/-- What `composedPublicRecord` and `verifyExportRecord` come to. -/
inductive Rendered where
  | record (value : Json)
  /-- an error that the caller takes for an invalid record -/
  | invalid
  | raised

/-- What a unit meets: the objects of earlier components, the record, and a write of the pending
objects with the bucket after it. -/
structure Weather where
  bucket : Bucket
  rendered : Rendered
  written : Bool
  flushed : Bucket

structure Pending where
  refs : List Reference
  bytes : Nat

def flush (w : Weather) (pending : Pending) : Except Problem Pending := do
  if pending.refs=[] then .ok pending
  else do
    demand w.written .raised
    pending.refs.forM (verify w.flushed)
    .ok ⟨[],0⟩

/-- `stage` of a component. -/
def stage (w : Weather) (pending : Pending) (bytes : Bytes) :
    Except Problem (Reference×Pending) := do
  demand (decide (bytes.length ≤ maximumBytes)) capacityExceeded
  let pending ← if pending.refs.length=4 ∨ pending.bytes+bytes.length > maximumBytes then
      flush w pending
    else .ok pending
  let digest := Shared.sha256 bytes
  let ref : Reference :=
    ⟨js "catalogue-public-components/".toList++digest++js ".ndjson.gz".toList,digest,bytes.length⟩
  .ok (ref,⟨pending.refs++[ref],pending.bytes+bytes.length⟩)

def schemas (kind : JsString) : String :=
  if kind=js "supported_games".toList then "SupportedGameRecord"
  else if kind=js "game_profiles".toList then "GameProfileRecord"
  else if kind=js "cards".toList then "CardRecord"
  else if kind=js "printings".toList then "PrintingRecord"
  else if kind=js "printing_images".toList then "PrintingImageRecord"
  else if kind=js "products".toList then "ProductRecord"
  else if kind=js "releases".toList then "ReleaseRecord"
  else if kind=js "distribution_contexts".toList then "DistributionContextRecord"
  else if kind=js "errata".toList then "ErratumRecord"
  else if kind=js "relationships".toList then "RelationshipRecord"
  else if kind=js "product_relationships".toList then "RelationshipRecord"
  else if kind=js "identity_corrections".toList then "IdentityCorrectionRecord"
  else "undefined"

def publicKind (kind : JsString) : JsString :=
  if kind=js "product_relationships".toList then js "relationships".toList
  else kind.map fun u => if u=95 then 45 else u

/-- `${game}.${ordinal}`. -/
def componentName (game : SupportedGame) (ordinal : Nat) : JsString :=
  game.text++46::decimal ordinal

def textOrNull : Option JsString → Json
  | some s => .str s
  | none => .null

def Dependency.json (d : Dependency) : Json := .obj [
  (js "text_calls".toList,.num d.text_calls),
  (js "relationship_digest".toList,.str d.relationship_digest),
  (js "target_digest".toList,textOrNull d.target_digest),
  (js "entity_id".toList,.str d.entity_id),
  (js "target_id".toList,textOrNull d.target_id)]

/-- The record that stands first behind a place of the candidate. -/
def publicationExportSource (db : Database) (candidate : JsString) (after : Int) : Option Source :=
  (((db.publication_read_entities candidate).filter fun s => after < s.ordinal).insertionSort
    fun a b => a.ordinal ≤ b.ordinal).head?

/-- The component of the same record in the composition the game was published with. -/
def priorExportComponent (db : Database) (owner : Owner) (source : Source) (input : JsString) :
    Option Component :=
  db.components.find? fun e => (db.composition.any fun m =>
      decide (m.catalogue_revision_id=owner.expected_game_revision_id ∧
        db.game_candidates m.candidate_id=owner.supported_game ∧
        m.candidate_id=e.candidate_id)) &&
    decide (e.kind=source.kind ∧ e.entity_id=source.entity_id ∧ e.input_digest=input)

/-- What the units of one call have come to. -/
structure Progress where
  cursor : Cursor
  component_count : Nat
  statements : List Component
  calls : Nat
  bytes : Nat
  pending : Pending

section
variable (nfc : Nfc) (gzip : Compressor)

/-- An error of `canonicalJson` is none of `InvalidPublicExport`. -/
def canonical (v : Json) : Except Problem JsString :=
  match canonicalJson nfc v with
  | .ok text => .ok text
  | .error _ => .error .raised

def inputDigest (source : Source) (dependencies : List Dependency) : Except Problem JsString := do
  let text ← canonical nfc (.obj [
    (js "contract".toList,.str (js "card-keepr-public-record@5".toList)),
    (js "projection".toList,.str source.sha256),
    (js "lifecycle".toList,.str source.lifecycle_json),
    (js "dependencies".toList,.arr (dependencies.map Dependency.json))])
  .ok (sha256Text text)

/-- The calls a record takes. -/
def callsOf (source : Source) (dependencies : List Dependency) : Nat :=
  18+source.text_parts.sum+(dependencies.length+31)/32+dependencies.length+
    (dependencies.map Dependency.text_calls).sum

/-- The last lines of a unit: the row of the record. -/
def retain (owner : Owner) (source : Source) (input : JsString) (s : Progress)
    (ref : Reference) (descriptor : Descriptor) : Progress :=
  let named := { descriptor with
    name := componentName owner.supported_game source.ordinal }
  { s with
    bytes := s.bytes+descriptor.uncompressed_bytes
    statements := s.statements++
      [⟨owner.candidate_id,source.ordinal,source.kind,source.entity_id,input,ref,named⟩]
    cursor := { s.cursor with after := source.ordinal }
    component_count := s.component_count+1 }

/-- The new object of a record; `none` waits for the next call. -/
def sealComponent (w : Weather) (source : Source) (s : Progress) :
    Except Problem (Option (Reference×Descriptor×Pending)) := do
  match w.rendered with
  | .invalid => .error recordInvalid
  | .raised => .error .raised
  | .record value => do
    let text ← canonical nfc value
    let raw := utf8 text++[10]
    demand (decide (raw.length ≤ maximumBytes)) capacityExceeded
    if s.bytes+raw.length > maximumBytes then .ok none
    else do
      let (ref,pending) ← stage w s.pending (gzip.deterministicGzip raw)
      let schema := "https://card-keepr.invalid/schemas/catalogue-export-record@5#/$defs/"++
        schemas source.kind
      .ok (some (ref,⟨publicKind source.kind,js "application/x-ndjson".toList,js "gzip".toList,
        js schema.toList,1,raw.length,Shared.sha256 raw,ref.byte_length,ref.sha256,[]⟩,pending))

/-- `prepareUnit` of the records; `false` stops the call. -/
def prepareRecord (db : Database) (owner : Owner) (w : Weather) (s : Progress) :
    Except Problem (Bool×Progress) := do
  match publicationExportSource db owner.candidate_id s.cursor.after with
  | none => .ok (true,{ s with cursor := ⟨.nodes,-1⟩ })
  | some source => do
    demand (decide (sha256Text source.content=source.sha256)) projectionCorrupt
    let dependencies := if source.kind=js "printings".toList then source.dependencies else []
    let calls := callsOf source dependencies
    demand (decide (dependencies.length ≤ 128 ∧ calls ≤ 80)) capacityExceeded
    if s.calls+calls > 80 then .ok (false,s)
    else do
      let s := { s with calls := s.calls+calls }
      let input ← inputDigest nfc source dependencies
      match priorExportComponent db owner source input with
      | some prior => do
        demand (decide (prior.descriptor.uncompressed_bytes ≤ maximumBytes)) capacityExceeded
        if s.bytes+prior.descriptor.uncompressed_bytes > maximumBytes then .ok (false,s)
        else do
          verify w.bucket prior.ref
          .ok (true,retain owner source input s prior.ref prior.descriptor)
      | none => do
        match ← sealComponent nfc gzip w source s with
        | none => .ok (false,s)
        | some (ref,descriptor,pending) =>
          .ok (true,retain owner source input { s with pending := pending } ref descriptor)

/-- The loop over the units of a call that starts among the records. -/
def prepareUnits (db : Database) (owner : Owner) : List Weather → Progress →
    Except Problem Progress
  | [],s => .ok s
  | w::ws,s => do
    let (go,s) ← prepareRecord nfc gzip db owner w s
    if go=false ∨ s.cursor.phase≠.records then .ok s else prepareUnits db owner ws s

/-- What a unit of the nodes leaves of the preparation. -/
inductive Sealing where
  | going (cursor : Cursor)
  | verified
  | invalid (message : String)

/-- The rows of one call, inserted in one batch: a key that is there refuses them all. -/
def insertAll (rows : List Component) (components : List Component) : Option (List Component) :=
  match rows with
  | [] => some components
  | r::rows =>
    if components.any fun e => decide (e.candidate_id=r.candidate_id ∧ (e.ordinal=r.ordinal ∨
        (e.kind=r.kind ∧ e.entity_id=r.entity_id))) then none
    else insertAll rows (components++[r])

/-- The row of a preparation is updated or created; a candidate has one. -/
def setPreparation (p : Preparation) (ps : List Preparation) : Option (List Preparation) :=
  if ps.any fun q => decide (q.publication_operation_id=p.publication_operation_id) then
    some (ps.map fun q => if q.publication_operation_id=p.publication_operation_id then
      { p with candidate_id := q.candidate_id } else q)
  else if ps.any fun q => decide (q.candidate_id=p.candidate_id) then none
  else some (ps++[p])

/-- The batch of a unit. -/
def retainUnit (rows : List Component) (after : Preparation) (db : Database) : Option Database := do
  let components ← insertAll rows db.components
  let preparations ← setPreparation after db.preparations
  some { db with components := components, preparations := preparations }

def Preparation.failed (p : Preparation) (message : String) : Preparation :=
  { p with state := .failed, failure_code := some message }

/-- Four units among the records, and the objects that are still pending. -/
def prepareRecords (db : Database) (owner : Owner) (ws : List Weather) (last : Weather)
    (current : Preparation) : Except Problem Progress := do
  let s ← prepareUnits nfc gzip db owner (ws.take 4)
    ⟨current.cursor,current.component_count,[],0,0,⟨[],0⟩⟩
  let _ ← flush last s.pending
  .ok s

/-- A unit of a preparation that is under way. -/
def advanceUnit (db : Database) (owner : Owner) (ws : List Weather) (sealing : Sealing)
    (last : Weather) (current : Preparation) : Option Database :=
  match current.cursor.phase,sealing with
  | .nodes,.going cursor => retainUnit [] { current with cursor := cursor } db
  | .nodes,.verified => retainUnit [] { current with state := .verified } db
  | .nodes,.invalid message => retainUnit [] (current.failed message) db
  | .records,_ => match prepareRecords nfc gzip db owner ws last current with
    | .error .raised => none
    | .error (.invalid message) => retainUnit [] (current.failed message) db
    | .ok s => retainUnit s.statements
        { current with cursor := s.cursor, component_count := s.component_count } db

/-- `advancePublicationExports` past the checks of its owner: four units among the records, or one
among the nodes. `none` is an error, which leaves the tables as they are. -/
def advancePublicationExports (id : JsString) (ws : List Weather) (sealing : Sealing)
    (last : Weather) (db : Database) : Option Database :=
  let owner := exportOwner db id
  let current := (db.preparations.find? fun p => decide (p.publication_operation_id=id)).getD
    ⟨id,owner.candidate_id,.preparing,0,⟨.records,-1⟩,0,none⟩
  if current.state≠.preparing then some db
  else advanceUnit nfc gzip db owner ws sealing last
    { current with sequence := current.sequence+1 }

/-- A published composition: one candidate for each of its games. -/
def insertComposition (rows : List CompositionGame) (db : Database) : Option Database :=
  match rows with
  | [] => some db
  | r::rows =>
    if db.composition.any fun m => decide (m.catalogue_revision_id=r.catalogue_revision_id ∧
        db.game_candidates m.candidate_id=db.game_candidates r.candidate_id) then none
    else insertComposition rows { db with composition := db.composition++[r] }

/-- The writers of the tables: a call of the preparation, a publication, or the projection of a
candidate. -/
inductive Step (db : Database) : Database → Prop where
  | advance {db' : Database} (id : JsString) (ws : List Weather) (sealing : Sealing)
      (last : Weather) (h : advancePublicationExports nfc gzip id ws sealing last db=some db') :
      Step db db'
  | compose {db' : Database} (rows : List CompositionGame)
      (h : insertComposition rows db=some db') : Step db db'
  | project (entities : JsString → List Source) :
      Step db { db with publication_read_entities := entities }

/-- The tables before anything is prepared. -/
def Database.start (games : JsString → SupportedGame) (operations : JsString → Operation) :
    Database := ⟨games,operations,fun _ => [],[],[],[]⟩

/-- The tables that the writers can leave. -/
def Written (db : Database) : Prop :=
  ∃games operations,Relation.ReflTransGen (Step nfc gzip) (.start games operations) db

end

end CardKeepr.Publication.Export
