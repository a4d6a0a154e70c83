import CardKeepr.Reconciliation.ReducerState

namespace CardKeepr.Reconciliation

open Lib Shared

/-- The value written under a key of an index. -/
structure ReducerEntry where
  space : JsString
  key : JsString
  value : Json

/-- The calls of a reducer on its indexes; an index is known by its namespace. -/
inductive ReducerOp where
  | beginObservation (space : JsString)
  | get (space key : JsString)
  | getMany (space : JsString) (keys : List JsString)
  | getAlongside (space key other otherKey : JsString)
  | set (entry : ReducerEntry)
  | seed (entry : ReducerEntry)
  | setAlongside (entry other : ReducerEntry) (additional : Option ReducerEntry)

@[reducible] def ReducerOp.Reply : ReducerOp → Type
  | .get _ _ => Option Json
  | .getMany _ _ => Option (List (JsString × Option Json))
  | .getAlongside _ _ _ _ => Option Json × Option Json
  | _ => Unit

/-- A deterministic reducer: what it does next depends on what its indexes have answered. It
retains a checkpoint with `save`. -/
abbrev Reducer :=
  Prog (Durable ReducerOp Unit) (Durable.Answer ReducerOp.Reply) Empty JsString Unit

inductive ReducerEvent where
  | did (op : ReducerOp) (reply : op.Reply)
  | checkpoint

/-- What a restart begins with: the position of every index and the rest of the reducer. -/
structure ReducerCheckpoint where
  positions : JsString → Nat
  rest : Reducer
  log : List ReducerEvent

abbrev Indexes := JsString → IndexState

abbrev ReducerProg (α : Type) := Prog (Durable ReducerCall ReducerCheckpoint)
  (Durable.Answer ReducerCall.Answer) ReducerEvent JsString α

def ask (op : ReducerCall) : ReducerProg op.Answer := .call (.store op) .ret

def storageUnavailable : JsString :=
  js "Reconciliation reducer storage is temporarily unavailable.".toList
def stateDamaged : JsString := js "Reducer state failed integrity verification.".toList
def lookupWindow : JsString := js "Reducer lookup window exceeds 16 keys.".toList
def reducerCapacity : JsString :=
  js "reconciliation_capacity_exceeded: one reducer fact exceeds 512 KiB.".toList
def reducerReplayChanged : JsString :=
  js "Reducer replay changed its immutable observation effect.".toList

inductive ReadRequest where
  | cached (value : Option Json)
  | statement (digest : JsString) (before : Nat)

def readRequest (x : IndexState) (key : JsString) : ReadRequest :=
  if x.ordinal=0 then .cached none
  else
    let digest := sha256Text key
    match x.lastWrite.filter fun w => w.digest=digest with
    | some w => .cached ((jsonParse w.content).bind (Json.member (js "value".toList)))
    | none => .statement digest (x.before digest)

def restoreRow : Option StateRow → ReducerProg (Option Json)
  | none => pure none
  | some row =>
    if sha256Text row.content≠row.sha256 then .fail stateDamaged
    else match (jsonParse row.content).bind RecordEnvelope.of with
    | none => .fail typeError
    | some e => do
      let value ← restorePartitionedRecord (fun requests => ask (.textPages requests)) e
      return some value

def get (space : JsString) (x : IndexState) (key : JsString) : ReducerProg (Option Json) :=
  match readRequest x key with
  | .cached value => pure value
  | .statement digest before => do
    let rows ← ask (.states [(space,digest,before)])
    restoreRow (rows.headD none)

/-- The row of a read made in a shared transaction, or the cached value. -/
def finishRead : ReadRequest → Option StateRow → ReducerProg (Option Json)
  | .cached value,_ => pure value
  | .statement _ _,row => restoreRow row

def ReadRequest.statements (space : JsString) : ReadRequest → List (JsString × JsString × Nat)
  | .cached _ => []
  | .statement digest before => [(space,digest,before)]

def getAlongside (space : JsString) (x : IndexState) (key : JsString) (other : JsString)
    (y : IndexState) (otherKey : JsString) : ReducerProg (Option Json × Option Json) := do
  let left := readRequest x key
  let right := readRequest y otherKey
  let statements := left.statements space++right.statements other
  let rows ← if statements=[] then pure [] else ask (.states statements)
  let first ← finishRead left (rows.headD none)
  let second ← finishRead right (rows.getLastD none)
  return (first,second)

def restoreRows : List (JsString × Option StateRow) → ReducerProg (List (JsString × Option Json))
  | [] => pure []
  | (key,row)::rest => do
    let value ← restoreRow row
    let values ← restoreRows rest
    return (key,value)::values

/-- `getMany`; `none` is the `null` that sends the caller back to single reads. -/
def getMany (space : JsString) (x : IndexState) (keys : List JsString) :
    ReducerProg (Option (List (JsString × Option Json))) :=
  let unique := keys.eraseDups
  if unique.length > 16 then .fail lookupWindow
  else if x.ordinal=0 ∨ unique=[] then pure (some (unique.map fun key => (key,none)))
  else do
    let page ← ask (.lookup space
      (unique.map fun key => (sha256Text key,x.before (sha256Text key))))
    if page.length≠unique.length then return none
    let values ← restoreRows (unique.zip page)
    return some values

section
variable (nfc : Nfc)

/-- The effect of an entry once its long texts are retained. -/
def boundWrite (x : IndexState) (entry : ReducerEntry) (envelope : RecordEnvelope) :
    ReducerProg PreparedWrite :=
  match canonicalJson nfc envelope.json with
  | .error e => .fail e
  | .ok content =>
    if byteLength content > 524288 then .fail reducerCapacity
    else pure ⟨entry.space,sha256Text entry.key,x.ordinal,content,sha256Text content,
      envelope.text_parts=[]⟩

def prepareWrite (x : IndexState) (entry : ReducerEntry) : ReducerProg PreparedWrite := do
  let envelope ← retainPartitionedRecord nfc (fun chunks => ask (.retainText chunks))
    entry.value.own
  boundWrite nfc x entry envelope

/-- What `accept` changes in the index once the retained row is the expected one. -/
def accept (x : IndexState) (w : PreparedWrite) : IndexState :=
  if x.ordinal=w.ordinal then
    { x with
      written := w.digest::x.written,
      lastWrite := if w.whole ∧ byteLength w.content ≤ 32768 then some ⟨w.digest,w.content⟩
        else none }
  else x

def PreparedWrite.row (w : PreparedWrite) : StateRow := ⟨w.content,w.sha256⟩

/-- `accept` of a single write: on a conflict the exact row is read. -/
def finishWrite (w : PreparedWrite) : Option (List (Option StateRow)) → ReducerProg Unit
  | none => .fail storageUnavailable
  | some rows => do
    let retained ← match rows.headD none with
      | some row => pure (some row)
      | none => ask (.exactState w)
    if retained=some w.row then return () else .fail reducerReplayChanged

def commitWrite (w : PreparedWrite) : ReducerProg Unit := do
  let rows ← ask (.retainStates [w])
  finishWrite w rows

/-- The retained rows take the places of the conflicts. -/
def fillConflicts : List (Option StateRow) → List (Option StateRow) → List (Option StateRow)
  | [],_ => []
  | some row::rows,retained => some row::fillConflicts rows retained
  | none::rows,retained => retained.headD none::fillConflicts rows retained.tail

def conflicts : List PreparedWrite → List (Option StateRow) → List PreparedWrite
  | w::ws,none::rows => w::conflicts ws rows
  | _::ws,some _::rows => conflicts ws rows
  | _,_ => []

/-- The conflicts are read back in one transaction, then every write is accepted. -/
def finishCommit (ws : List PreparedWrite) : Option (List (Option StateRow)) → ReducerProg Unit
  | none => .fail storageUnavailable
  | some rows => do
    let retained ← if conflicts ws rows=[] then pure []
      else ask (.matchingStates (conflicts ws rows))
    if fillConflicts rows retained=ws.map fun w => some w.row then return ()
    else .fail reducerReplayChanged

def commitWrites (writes : List PreparedWrite) : ReducerProg Unit := do
  let rows ← ask (.retainStates writes)
  finishCommit writes rows

def Indexes.accept (xs : Indexes) (w : PreparedWrite) : Indexes :=
  Function.update xs w.space (Reconciliation.accept (xs w.space) w)

def set (xs : Indexes) (entry : ReducerEntry) : ReducerProg Indexes := do
  let w ← prepareWrite nfc (xs entry.space) entry
  commitWrite w
  return xs.accept w

def prepareWrites (xs : Indexes) : List ReducerEntry → ReducerProg (List PreparedWrite)
  | [] => pure []
  | entry::entries => do
    let w ← prepareWrite nfc (xs entry.space) entry
    let ws ← prepareWrites xs entries
    return w::ws

def setAlongside (xs : Indexes) (entries : List ReducerEntry) : ReducerProg Indexes := do
  let writes ← prepareWrites nfc xs entries
  commitWrites writes
  return writes.foldl Indexes.accept xs

/-- One call on the indexes: its reply and the indexes after it. -/
def perform (xs : Indexes) : (op : ReducerOp) → ReducerProg (op.Reply × Indexes)
  | .beginObservation space => pure ((),Function.update xs space (xs space).beginObservation)
  | .get space key => do
    let value ← get space (xs space) key
    return (value,xs)
  | .getMany space keys => do
    let values ← getMany space (xs space) keys
    return (values,xs)
  | .getAlongside space key other otherKey => do
    let values ← getAlongside space (xs space) key other (xs other) otherKey
    return (values,xs)
  | .set entry => do
    let xs ← set nfc xs entry
    return ((),xs)
  | .seed entry => do
    let xs ← set nfc (Function.update xs entry.space (xs entry.space).beginObservation) entry
    return ((),xs)
  | .setAlongside entry other additional => do
    let xs ← setAlongside nfc xs (entry::other::additional.toList)
    return ((),xs)

/-- The reducer on its store, from the given indexes on. -/
def Reducer.run : Reducer → Indexes → List ReducerEvent → ReducerProg Indexes
  | .ret _,xs,_ => .ret xs
  | .fail e,_,_ => .fail e
  | .tell e _,_,_ => nomatch e
  | .call (.save _) k,xs,log =>
    let log := log++[.checkpoint]
    .call (.save ⟨fun space => (xs space).ordinal,k (),log⟩) fun _ =>
      .tell .checkpoint (run (k ()) xs log)
  | .call (.store op) k,xs,log => do
    let r ← perform nfc xs op
    .tell (.did op r.1) (run (k r.1) r.2 (log++[.did op r.1]))

end

end CardKeepr.Reconciliation
