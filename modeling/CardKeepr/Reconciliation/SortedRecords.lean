import CardKeepr.Lib.ExternalSort
import CardKeepr.Reconciliation.Checkpoints
import CardKeepr.Reconciliation.ReducerRoundTrip

namespace CardKeepr.Reconciliation.Sorting

open Lib Shared Steps Code

/-- What `source(after)` yields; with the ordinal of an entry it goes on behind it. -/
structure Source where
  entries : List (Nat×Json)
  read : Nat → List (Nat×Json)
  first : read 0=entries
  behind : ∀done e rest,entries=done++e::rest → read e.1=rest

def Source.values (src : Source) : List Json := src.entries.map Prod.snd

structure Item where
  key : JsString
  envelope : RecordEnvelope
  value : Json

structure Position where
  batch : Nat
  offset : Nat
  deriving DecidableEq

inductive Stage where
  | runs | merge | complete
  deriving DecidableEq

structure Cursor where
  sourceVersion : Nat
  after : Nat
  stage : Stage
  count : Nat
  pass : Nat
  first : Nat
  outputBatch : Nat
  positions : List Position
  deriving DecidableEq

/-- A row of `reconciliation_sort_batches`. -/
structure SortBatch where
  content : JsString
  sha256 : JsString
  deriving DecidableEq

/-- The sort batches of the namespace, the text chunks and the `record_sorting` checkpoints. -/
structure Retained where
  batches : Nat → Nat → Nat → Option SortBatch
  texts : TextTable
  checkpoints : List Cursor

structure Variables where
  cursor : Cursor
  ordinal : Nat
  pending : List Item
  bytes : Nat
  heads : List (Option Item)

/-- `retainSortBatchStatement`: a place that is taken keeps its row. -/
def Retained.insert (pass run batch : Nat) (row : SortBatch) (d : Retained) : Retained :=
  { d with batches := fun p r b =>
      if p=pass ∧ r=run ∧ b=batch then some ((d.batches p r b).getD row) else d.batches p r b }

def prefixChanged : JsString := js "Sorted reconciliation source prefix changed.".toList

def batchDamaged : JsString :=
  js "Sorted reconciliation records failed integrity verification.".toList

def batchCapacity : JsString :=
  js "reconciliation_capacity_exceeded: one sorted batch exceeds 512 KiB.".toList

def sortReplayChanged : JsString :=
  js "Sorted reconciliation replay differs from retained records.".toList

def sortableCapacity : JsString := js
  "reconciliation_capacity_exceeded: one sortable diagnostic or semantic record exceeds 2 MiB.".toList

def Retained.checkpoint (ordinal : Nat) (c : Cursor) (d : Retained) : Except JsString Retained :=
  (retainCheckpoint d.checkpoints ordinal c).map fun rows => { d with checkpoints := rows }

abbrev Work (α : Type) : Type := Code Retained Variables JsString α

section
variable (nfc : Nfc)

def canonical (v : Json) : Work JsString := lift ((canonicalJson nfc v).mapError .failed)

def sortableSize (key : JsString) : Work Nat := do
  check (decide (byteLength key ≤ 2097152)) (.failed sortableCapacity)
  return byteLength key

/-- One transaction of `retainPartitionedRecord`. -/
def retainChunks (batch : List TextChunk) : Work Unit := do
  let d ← retained
  let r := retainTextBatch batch d.texts
  write fun d => .ok { d with texts := r.2 }
  check (decide (r.1=batch.map fun c => some c.content)) (.failed textReplayChanged)

def retainRecord (value : Json) : Work RecordEnvelope := do
  each retainChunks (flushes [] 0 (recordChunks nfc value))
  return envelope nfc value

/-- `restorePartitionedRecord` on the chunks that are there; it writes nothing. -/
def restoreRecord (e : RecordEnvelope) : Work Json := do
  let d ← retained
  lift ((atStore { ReducerStore.empty with text := d.texts }
    (restorePartitionedRecord (fun requests => ask (.textPages requests)) e)).result.mapError
      .failed)

def save (yieldAtCheckpoint : Bool) : Work Unit := do
  let v ← vars
  write (Retained.checkpoint v.ordinal v.cursor)
  Steps.when (yieldAtCheckpoint=true) (stop (.continuation v.ordinal))
  assign fun v => { v with ordinal := v.ordinal+1 }

def writeBatch (pass run ordinal : Nat) (items : List Item) : Work Unit := do
  let content ← canonical nfc (.arr (items.map fun i => i.envelope.json))
  check (decide (byteLength content ≤ 524288)) (.failed batchCapacity)
  let row : SortBatch := ⟨content,sha256Text content⟩
  write fun d => .ok (d.insert pass run ordinal row)
  let d ← retained
  check (decide (d.batches pass run ordinal=some row)) (.failed sortReplayChanged)

/-- `JSON.parse(row.content) as Envelope[]` -/
def envelopesOf (content : JsString) : Option (List RecordEnvelope) :=
  (jsonParse content).bind fun v => match v with
    | .arr es => es.mapM RecordEnvelope.of
    | _ => none

def SortBatch.intact (row : SortBatch) : Bool :=
  decide (byteLength row.content ≤ 524288 ∧ sha256Text row.content=row.sha256)

/-- One turn of the loop of `readHead`: the head and where it was found, or where to go on. -/
def headAt (pass run : Nat) (position : Position) : Work (Position ⊕ (Option Item×Position)) := do
  let d ← retained
  match d.batches pass run position.batch with
  | none => stop (.failed batchDamaged)
  | some row =>
    check row.intact (.failed batchDamaged)
    match envelopesOf row.content with
    | none => stop (.failed typeError)
    | some records =>
      if records=[] then return .inr (none,position)
      else match records[position.offset]? with
      | none => return .inl ⟨position.batch+1,0⟩
      | some e =>
        let value ← restoreRecord e
        let key ← canonical nfc value
        let _ ← sortableSize key
        return .inr (some ⟨key,e,value⟩,position)

/-- `readHead`; `fuel` bounds the batches it goes through. -/
def readHead (fuel pass run : Nat) (position : Position) : Work (Option Item×Position) :=
  loop fuel (headAt nfc pass run) position

variable (before : JsString → JsString → Bool) (yieldAtCheckpoint : Bool)

/-- `flush` of the stage `runs` -/
def flushRun : Work Unit := do
  let v ← vars
  writeBatch nfc 0 v.cursor.count 0 (sortBy before Item.key v.pending)
  writeBatch nfc 0 v.cursor.count 1 []
  assign fun v => { v with
    cursor := { v.cursor with count := v.cursor.count+1 }, pending := [], bytes := 0 }
  save yieldAtCheckpoint

def takeEntry (entry : Nat×Json) : Work Unit := do
  let key ← canonical nfc entry.2
  let size ← sortableSize key
  let v ← vars
  Steps.when (v.pending≠[] ∧ 512000 < v.bytes+size) (flushRun nfc before yieldAtCheckpoint)
  let e ← retainRecord nfc entry.2
  assign fun v => { v with
    pending := v.pending++[⟨key,e,entry.2⟩], bytes := v.bytes+size,
    cursor := { v.cursor with after := entry.1 } }
  let v ← vars
  Steps.when (v.pending.length=8 ∨ 512000 ≤ v.bytes) (flushRun nfc before yieldAtCheckpoint)

/-- The run of a source without entries. -/
def writeEmptyRun : Work Unit := do
  writeBatch nfc 0 0 0 []
  assign fun v => { v with cursor := { v.cursor with count := 1 } }

def runsStage (src : Source) : Work Unit := do
  let v ← vars
  each (takeEntry nfc before yieldAtCheckpoint) (src.read v.cursor.after)
  let v ← vars
  Steps.when (v.pending≠[]) (flushRun nfc before yieldAtCheckpoint)
  let v ← vars
  Steps.when (v.cursor.count=0) (writeEmptyRun nfc)
  assign fun v => { v with
    cursor := { v.cursor with stage := if v.cursor.count=1 then .complete else .merge } }
  save yieldAtCheckpoint

/-- `flush` of the stage `merge` -/
def flushMerge : Work Unit := do
  let v ← vars
  writeBatch nfc (v.cursor.pass+1) (v.cursor.first/4) v.cursor.outputBatch v.pending
  assign fun v => { v with
    cursor := { v.cursor with outputBatch := v.cursor.outputBatch+1 }, pending := [], bytes := 0 }
  save yieldAtCheckpoint

/-- The head of an input is read anew, its position with it. -/
def refresh (fuel i : Nat) : Work Unit := do
  let v ← vars
  let r ← readHead nfc fuel v.cursor.pass (v.cursor.first+i) (v.cursor.positions.getD i ⟨0,0⟩)
  assign fun v => { v with
    heads := v.heads.set i r.1, cursor := { v.cursor with
      positions := v.cursor.positions.set i r.2 } }

/-- One turn of `for (;;)`: the selected head goes to the output. -/
def mergeTurn (fuel : Nat) (_ : Unit) : Work (Unit ⊕ Unit) := do
  let v ← vars
  match select before (v.heads.map fun h => h.map Item.key) with
  | none => return .inr ()
  | some i =>
    match v.heads[i]?.join with
    | none => stop (.failed typeError)
    | some head =>
      let size ← sortableSize head.key
      Steps.when (v.pending≠[] ∧ 512000 < v.bytes+size) (flushMerge nfc yieldAtCheckpoint)
      assign fun v => { v with
        pending := v.pending++[head], bytes := v.bytes+size, cursor := { v.cursor with
          positions := v.cursor.positions.modify i fun p => { p with offset := p.offset+1 } } }
      refresh nfc fuel i
      let v ← vars
      Steps.when (v.pending.length=8 ∨ 512000 ≤ v.bytes) (flushMerge nfc yieldAtCheckpoint)
      return .inl ()

/-- The heads of a group, where the positions stand or at the start of its runs. -/
def openGroup (fuel : Nat) : Work Unit := do
  let v ← vars
  let count := min 4 (v.cursor.count-v.cursor.first)
  Steps.when (v.cursor.positions=[]) (assign fun v => { v with
    cursor := { v.cursor with positions := List.replicate count ⟨0,0⟩ } })
  assign fun v => { v with
    heads := List.replicate v.cursor.positions.length none, pending := [], bytes := 0 }
  let v ← vars
  each (refresh nfc fuel) (List.range v.cursor.positions.length)

/-- One turn of the loop over the groups of a pass. -/
def mergeGroup (fuel : Nat) (_ : Unit) : Work (Unit ⊕ Unit) := do
  let v ← vars
  if v.cursor.first < v.cursor.count then do
    openGroup nfc fuel
    loop fuel (mergeTurn nfc before yieldAtCheckpoint fuel) ()
    let v ← vars
    Steps.when (v.pending≠[]) (flushMerge nfc yieldAtCheckpoint)
    let v ← vars
    writeBatch nfc (v.cursor.pass+1) (v.cursor.first/4) v.cursor.outputBatch []
    assign fun v => { v with cursor := { v.cursor with
      first := v.cursor.first+4, outputBatch := 0, positions := [] } }
    save yieldAtCheckpoint
    return .inl ()
  else return .inr ()

/-- One turn of the loop over the passes. -/
def mergePass (fuel : Nat) (_ : Unit) : Work (Unit ⊕ Unit) := do
  let v ← vars
  if 1 < v.cursor.count then do
    loop fuel (mergeGroup nfc before yieldAtCheckpoint fuel) ()
    assign fun v =>
      let count := (v.cursor.count+3)/4
      { v with cursor := { v.cursor with
        count := count, pass := v.cursor.pass+1, first := 0,
        stage := if count=1 then .complete else v.cursor.stage } }
    save yieldAtCheckpoint
    return .inl ()
  else return .inr ()

/-- `prepareRuns`: the pass whose only run is the sorted records. -/
def prepareRuns (fuel sourceVersion : Nat) (src : Source) : Work Nat := do
  let v ← vars
  check (decide (v.cursor.sourceVersion=sourceVersion)) (.failed prefixChanged)
  Steps.when (v.cursor.stage=.runs) (runsStage nfc before yieldAtCheckpoint src)
  let v ← vars
  Steps.when (v.cursor.stage=.merge)
    (loop fuel (mergePass nfc before yieldAtCheckpoint fuel) ())
  let v ← vars
  return v.cursor.pass

end

def firstCursor (sourceVersion : Nat) : Cursor := ⟨sourceVersion,0,.runs,0,0,0,0,[]⟩

def Retained.cursor (sourceVersion : Nat) (d : Retained) : Cursor :=
  d.checkpoints.getLast?.getD (firstCursor sourceVersion)

def Source.turns (src : Source) : Nat := src.entries.length+8

/-- One attempt: whether it yields at checkpoints, and where it is cut off. -/
def attempt (nfc : Nfc) (before : JsString → JsString → Bool) (sourceVersion : Nat) (src : Source)
    (t : Bool×Option Nat) (d : Retained) : Ending JsString Nat×Retained :=
  performAttempt (prepareRuns nfc before t.1 src.turns sourceVersion src)
    ⟨d.cursor sourceVersion,d.checkpoints.length,[],0,[]⟩ t.2 d

/-- What is retained before the first attempt: texts of the run's other records. -/
def Retained.before (texts : TextTable) : Retained := ⟨fun _ _ _ => none,texts,[]⟩

/-- The entries of `canonicalEntries` from a position on, `n` of them at most: each with the
position its cursor stands for. -/
def canonicalEntries (nfc : Nfc) (fuel pass : Nat) :
    Nat → Position → Work (List (Position×Json))
  | 0,_ => return []
  | n+1,position => do
    let r ← readHead nfc fuel pass 0 position
    match r.1 with
    | none => return []
    | some item =>
      let next : Position := ⟨r.2.batch,r.2.offset+1⟩
      let rest ← canonicalEntries nfc fuel pass n next
      return (next,item.value)::rest

/-- The whole iteration, read from what is retained. -/
def iterate (nfc : Nfc) (src : Source) (pass : Nat) (position : Position) (d : Retained) :
    Ending JsString (List (Position×Json)) :=
  (performAttempt (canonicalEntries nfc src.turns pass src.turns position)
    ⟨firstCursor 0,0,[],0,[]⟩ none d).1

end CardKeepr.Reconciliation.Sorting
