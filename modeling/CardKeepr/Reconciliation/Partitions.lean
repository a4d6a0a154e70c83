import CardKeepr.Lib.Filling
import CardKeepr.Lib.InsertionMap
import CardKeepr.Reconciliation.Checkpoints
import CardKeepr.Reconciliation.TextReplay
import CardKeepr.Shared.CanonicalTies

namespace CardKeepr.Reconciliation.Partitions

open Lib Shared Steps Code

/-- A collection of records: its entries in order, and what `canonicalEntries(after)` yields if it
is a `CanonicalRecordSource`; with the key of an entry, as a checkpoint gives it back, that goes on
behind the entry. -/
structure RecordSource where
  entries : List (JsString×Json)
  canonicalEntries : Option (JsString → List (JsString×Json))
  first : ∀read,canonicalEntries=some read → read []=entries
  behind : ∀read,canonicalEntries=some read → ∀(nfc : Nfc) done e rest,entries=done++e::rest →
    read (nfc.normalize e.1)=rest

/-- The entries that `partitionRecords` makes of an array from an index on. -/
def indexed (index : Nat) : List Json → List (JsString×Json)
  | [] => []
  | v::vs => (decimal (index+1),v)::indexed (index+1) vs

/-- `after ? Number(after) : 0` -/
def startIndex (after : JsString) : Nat := if after=[] then 0 else digitsValue after

theorem indexed_drop (n index : Nat) (vs : List Json) :
    (indexed index vs).drop n=indexed (index+n) (vs.drop n) := by
  induction vs generalizing n index with
  | nil => simp [indexed]
  | cons v vs ih =>
    cases n with
    | zero => rfl
    | succ n =>
      rw [indexed,List.drop_succ_cons,List.drop_succ_cons,ih]
      congr 1
      omega

theorem indexed_key {index n : Nat} {vs : List Json} {e : JsString×Json}
    (h : (indexed index vs)[n]?=some e) : e.1=decimal (index+n+1) := by
  induction vs generalizing n index with
  | nil => cases h
  | cons v vs ih =>
    cases n with
    | zero =>
      obtain rfl := Option.some.inj h
      rfl
    | succ n =>
      rw [indexed,List.getElem?_cons_succ] at h
      rw [ih h]
      congr 1
      omega

/-- An array is read from the index behind the last one. -/
def RecordSource.array (vs : List Json) : RecordSource where
  entries := indexed 0 vs
  canonicalEntries := some fun after => indexed (startIndex after) (vs.drop (startIndex after))
  first read hr := by
    obtain rfl := Option.some.inj hr
    rfl
  behind read hr nfc done e rest h := by
    obtain rfl := Option.some.inj hr
    have hget : (indexed 0 vs)[done.length]?=some e := by
      rw [h]
      simp
    have hkey := indexed_key hget
    have hne : decimal (0+done.length+1)≠[] := by
      obtain ⟨u,us,he,-⟩ := decimal_head (0+done.length+1)
      rw [he]
      exact List.cons_ne_nil u us
    have hstart : startIndex (nfc.normalize e.1)=done.length+1 := by
      rw [hkey,nfc.ascii _ (decimal_ascii _),startIndex,if_neg hne,digitsValue_decimal,Nat.zero_add]
    have hdrop := indexed_drop (done.length+1) 0 vs
    rw [h,Nat.zero_add,List.drop_append] at hdrop
    dsimp only
    rw [hstart,←hdrop]
    simp

/-- An async iterable that is no record source. -/
def RecordSource.iterable (vs : List Json) : RecordSource where
  entries := indexed 0 vs
  canonicalEntries := none
  first _ h := by cases h
  behind _ h := by cases h

/-- A member of the candidate document; what is no array and no async iterable is left out. -/
inductive Records where
  | array (records : List Json)
  | source (records : RecordSource)
  | iterable (records : List Json)
  | other

def Records.source? : Records → Option RecordSource
  | .array vs => some (.array vs)
  | .source r => some r
  | .iterable vs => some (.iterable vs)
  | .other => none

/-- The candidate document and the warnings. -/
structure Draft where
  candidate : List (JsString×Records)
  warnings : Records

/-- `Object.entries({ ...candidate, warnings }).filter(..)` -/
def Draft.collections (d : Draft) : List (JsString×RecordSource) :=
  (mapSet d.candidate (js "warnings".toList) d.warnings).filterMap fun c =>
    c.2.source?.map fun r => (c.1,r)

structure Cursor where
  kind : Nat
  after : JsString
  ordinal : Nat
  digest : JsString
  complete : Bool
  deriving DecidableEq

def Cursor.json (c : Cursor) : Json :=
  .obj [(js "kind".toList,.num c.kind),(js "after".toList,.str c.after),
    (js "ordinal".toList,.num c.ordinal),(js "digest".toList,.str c.digest),
    (js "complete".toList,.bool c.complete)]

/-- What `JSON.parse` gives of a retained cursor; a digest is hexadecimal. -/
def Cursor.readBack (nfc : Nfc) (c : Cursor) : Cursor := { c with after := nfc.normalize c.after }

/-- A row of `reconciliation_record_partitions`. -/
structure Partition where
  ordinal : Nat
  kind : JsString
  content : JsString
  sha256 : JsString
  byte_length : Nat
  record_count : Nat

/-- The partitions, the text chunks and the `candidate_partitions` checkpoints of the run. -/
structure Retained where
  partitions : List Partition
  texts : TextTable
  checkpoints : List Cursor

structure Variables where
  cursor : Cursor
  checkpointOrdinal : Nat
  parts : List JsString
  bytes : Nat
  workBytes : Nat

def partitionAt (rows : List Partition) (ordinal : Nat) : Option Partition :=
  rows.find? fun p => decide (p.ordinal=ordinal)

/-- `insertReconciliationPartitionStatement`: an ordinal that is taken keeps its row. -/
def Retained.insert (p : Partition) (d : Retained) : Retained :=
  match partitionAt d.partitions p.ordinal with
  | some _ => d
  | none => { d with partitions := d.partitions++[p] }

def partitionChanged : JsString :=
  js "Reconciliation partition replay differs from its immutable content.".toList

def metadataCapacity : JsString :=
  js "reconciliation_capacity_exceeded: one metadata record exceeds 512 KiB.".toList

def checkpointCapacity : JsString := js
  "reconciliation_capacity_exceeded: one continuation checkpoint exceeds 64 KiB.".toList

def notResumable : JsString :=
  js "Candidate partition preparation requires a resumable record source.".toList

/-- `retainReconciliationCheckpoint` -/
def Retained.checkpoint (nfc : Nfc) (ordinal : Nat) (c : Cursor) (d : Retained) :
    Except JsString Retained := do
  let content ← canonicalJson nfc c.json
  if 65536 < byteLength content then .error checkpointCapacity
  else (retainCheckpoint d.checkpoints ordinal (c.readBack nfc)).map fun rows =>
    { d with checkpoints := rows }

abbrev Work (α : Type) : Type := Code Retained Variables JsString α

/-- `` `[${parts.join(",")}]` `` -/
def bracketed (parts : List JsString) : JsString := 91::(commas parts++[93])

section
variable (nfc : Nfc) (yieldAtCheckpoint : Bool)

/-- The digest of the manifest with one partition more. -/
def linked (previous : JsString) (ordinal : Nat) (kind sha256 : JsString) (bytes records : Nat) :
    JsString :=
  sha256Text ((Json.obj [(js "previous".toList,.str previous),(js "ordinal".toList,.num ordinal),
    (js "kind".toList,.str kind),(js "sha256".toList,.str sha256),(js "bytes".toList,.num bytes),
    (js "records".toList,.num records)]).canonical nfc).print

def save : Work Unit := do
  let v ← vars
  write (Retained.checkpoint nfc v.checkpointOrdinal v.cursor)
  Steps.when (yieldAtCheckpoint=true) (stop (.continuation v.checkpointOrdinal))
  assign fun v => { v with checkpointOrdinal := v.checkpointOrdinal+1 }

def flushParts (kind : JsString) : Work Unit := do
  let v ← vars
  let content := bracketed v.parts
  let sha256 := sha256Text content
  write fun d => .ok (d.insert ⟨v.cursor.ordinal,kind,content,sha256,v.bytes,v.parts.length⟩)
  let d ← retained
  check ((partitionAt d.partitions v.cursor.ordinal).any fun p =>
    decide (p.kind=kind ∧ p.content=content)) (.failed partitionChanged)
  let digest := linked nfc v.cursor.digest v.cursor.ordinal kind sha256 v.bytes v.parts.length
  assign fun v =>
    { v with
      cursor := { v.cursor with digest := digest, ordinal := v.cursor.ordinal+1 },
      parts := [], bytes := 2, workBytes := 0 }
  save nfc yieldAtCheckpoint

def flush (kind : JsString) : Work Unit := do
  let v ← vars
  Steps.when (v.parts≠[]) (flushParts nfc yieldAtCheckpoint kind)

/-- One transaction of `retainPartitionedRecord`. -/
def retainChunks (batch : List TextChunk) : Work Unit := do
  let d ← retained
  let r := retainTextBatch batch d.texts
  write fun d => .ok { d with texts := r.2 }
  check (decide (r.1=batch.map fun c => some c.content)) (.failed textReplayChanged)

def canonical (v : Json) : Work JsString :=
  match canonicalJson nfc v with
  | .ok text => ret text
  | .error e => stop (.failed e)

/-- The text of the envelope that stands for a record. -/
def encode (value : Json) : Work JsString := do
  each retainChunks (flushes [] 0 (recordChunks nfc value))
  canonical nfc (envelope nfc value).json

def pushPart (key encoded : JsString) (work : Nat) : Work Unit :=
  assign fun v =>
    { v with
      cursor := { v.cursor with after := key },
      bytes := v.bytes+(byteLength encoded+if v.parts=[] then 0 else 1),
      workBytes := v.workBytes+work,
      parts := v.parts++[encoded] }

def takeEntry (kind : JsString) (entry : JsString×Json) : Work Unit := do
  let encoded ← encode nfc entry.2
  check (decide (byteLength encoded+2 ≤ 524288)) (.failed metadataCapacity)
  let v ← vars
  Steps.when (v.parts≠[] ∧ 524288 < v.bytes+byteLength encoded+1)
    (flush nfc yieldAtCheckpoint kind)
  let work ← canonical nfc entry.2
  pushPart entry.1 encoded (byteLength work)
  let v ← vars
  Steps.when (v.parts.length=128 ∨ 512000 ≤ v.workBytes) (flush nfc yieldAtCheckpoint kind)

/-- The loop over what `partitionRecords` yields. -/
def partitionRecords (records : RecordSource) (after : JsString)
    (body : JsString×Json → Work Unit) : Work Unit :=
  match records.canonicalEntries with
  | none => stop (.failed notResumable)
  | some read => each body (read after)

/-- One turn of the loop over the collections. -/
def persistCollection (c : JsString×RecordSource) : Work Unit := do
  assign fun v => { v with parts := [], bytes := 2, workBytes := 0 }
  let v ← vars
  partitionRecords c.2 v.cursor.after (takeEntry nfc yieldAtCheckpoint c.1)
  flush nfc yieldAtCheckpoint c.1
  assign fun v => { v with cursor := { v.cursor with kind := v.cursor.kind+1, after := [] } }
  save nfc yieldAtCheckpoint

/-- The digest and the number of the partitions. -/
def persistCandidatePartitions (draft : Draft) : Work (JsString×Nat) := do
  let v ← vars
  if v.cursor.complete=true then return (v.cursor.digest,v.cursor.ordinal)
  else do
    each (persistCollection nfc yieldAtCheckpoint) (draft.collections.drop v.cursor.kind)
    assign fun v => { v with cursor := { v.cursor with complete := true } }
    save nfc yieldAtCheckpoint
    let v ← vars
    return (v.cursor.digest,v.cursor.ordinal)

end

/-- The cursor of a run without checkpoints; `initial` is the digest of its pins. -/
def firstCursor (initial : JsString) : Cursor := ⟨0,[],0,initial,false⟩

def Retained.cursor (initial : JsString) (d : Retained) : Cursor :=
  d.checkpoints.getLast?.getD (firstCursor initial)

/-- One attempt: whether it yields at checkpoints, and where it is cut off. -/
def attempt (nfc : Nfc) (draft : Draft) (initial : JsString) (t : Bool×Option Nat)
    (d : Retained) : Ending JsString (JsString×Nat)×Retained :=
  performAttempt (persistCandidatePartitions nfc t.1 draft)
    ⟨d.cursor initial,d.checkpoints.length,[],2,0⟩ t.2 d

/-- What is retained before the first attempt: texts of the run's other records. -/
def Retained.before (texts : TextTable) : Retained := ⟨[],texts,[]⟩

end CardKeepr.Reconciliation.Partitions
