import CardKeepr.Lib.Program
import CardKeepr.Shared.CanonicalMembers
import CardKeepr.Shared.Sha256

namespace CardKeepr.Reconciliation

open Lib Shared

/-- A text column gives back what was bound to it, with lone surrogates replaced. -/
def storedText : JsString → JsString
  | [] => []
  | [u] => [if isSurrogate u then 0xfffd else u]
  | u::v::us =>
    if isPair u v then u::v::storedText us
    else (if isSurrogate u then 0xfffd else u)::storedText (v::us)

/-- The rows whose running total of sizes stays within the limit. -/
def bounded {α : Type} (size : α → Nat) (limit : Nat) : Nat → List α → List α
  | _,[] => []
  | sum,a::as => if sum+size a ≤ limit then a::bounded size limit (sum+size a) as else []

/-- `new TextEncoder().encode(text).byteLength`. -/
def byteLength (s : JsString) : Nat := (utf8 s).length

inductive PathKey where
  | name (key : JsString)
  | index (n : Nat)
  deriving DecidableEq

structure TextPart where
  path : List PathKey
  sha256 : JsString
  chunks : Nat
  byte_length : Nat

structure RecordEnvelope where
  value : Json
  text_parts : List TextPart

structure TextChunk where
  sha256 : JsString
  ordinal : Nat
  content : JsString

/-- The end of the next slice: 32768 units, one fewer rather than after a high surrogate. -/
def sliceEnd (s : JsString) : Nat :=
  let stop := min 32768 s.length
  if stop < s.length ∧ isHigh (s.getD (stop-1) 0) then stop-1 else stop

def slices : Nat → JsString → List JsString
  | 0,_ => []
  | n+1,s => if s=[] then [] else s.take (sliceEnd s)::slices n (s.drop (sliceEnd s))

def textSlices (s : JsString) : List JsString := slices s.length s

/-- A string that leaves the record, with its place in it. -/
structure LongText where
  path : List PathKey
  normalized : JsString

def LongText.part (t : LongText) : TextPart :=
  ⟨t.path,sha256Text t.normalized,(textSlices t.normalized).length,byteLength t.normalized⟩

def LongText.chunks (t : LongText) : List TextChunk :=
  (textSlices t.normalized).zipIdx.map fun c => ⟨sha256Text t.normalized,c.2,c.1⟩

section
variable (nfc : Nfc)

mutual

/-- The record without its long strings, and these strings in the order they are met. -/
def visit (path : List PathKey) : Json → Json × List LongText
  | .str s => if s.length > 32768 then (.null,[⟨path,nfc.normalize s⟩]) else (.str s,[])
  | .arr vs => let r := visitItems path 0 vs; (.arr r.1,r.2)
  | .obj ms => let r := visitMembers path ms; (.obj r.1,r.2)
  | .null => (.null,[])
  | .bool b => (.bool b,[])
  | .num q => (.num q,[])

def visitItems (path : List PathKey) (index : Nat) : List Json → List Json × List LongText
  | [] => ([],[])
  | v::vs =>
    let r := visit (path++[.index index]) v
    let rs := visitItems path (index+1) vs
    (r.1::rs.1,r.2++rs.2)

def visitMembers (path : List PathKey) :
    List (JsString × Json) → List (JsString × Json) × List LongText
  | [] => ([],[])
  | (k,v)::ms =>
    let r := visit (path++[.name k]) v
    let rs := visitMembers path ms
    ((k,r.1)::rs.1,r.2++rs.2)

end

/-- The envelope that `retainPartitionedRecord` returns for a record. -/
def envelope (record : Json) : RecordEnvelope :=
  let r := visit nfc [] record
  ⟨r.1,r.2.map LongText.part⟩

def recordChunks (record : Json) : List TextChunk :=
  (visit nfc [] record).2.flatMap LongText.chunks

end

/-- The transactions `flush` makes of the chunks: at most 16 chunks and 512000 quoted bytes. -/
def flushes : List TextChunk → Nat → List TextChunk → List (List TextChunk)
  | pending,_,[] => if pending=[] then [] else [pending]
  | pending,pendingBytes,c::cs =>
    let bytes := byteLength (quote c.content)
    if pending.length=16 ∨ pendingBytes+bytes > 512000 then
      if pending=[] then flushes [c] bytes cs else pending::flushes [c] bytes cs
    else flushes (pending++[c]) (pendingBytes+bytes) cs

def textReplayChanged : JsString := js "Retained text replay changed its immutable content.".toList
def textUnavailable : JsString := js "Retained text chunk is unavailable.".toList
def textDamaged : JsString := js "Retained text failed integrity verification.".toList
/-- Stands for the runtime's own `TypeError` on a value of another shape. -/
def typeError : JsString := js "TypeError".toList

/-- `reconciliation_text_chunks` of one preparation, by digest and ordinal. -/
abbrev TextTable := JsString → Nat → Option JsString

/-- `retainReconciliationTextStatement`: an existing chunk is left alone. -/
def retainTextChunk (text : TextTable) (c : TextChunk) : TextTable := fun sha256 ordinal =>
  if sha256=c.sha256 ∧ ordinal=c.ordinal then
    some ((text sha256 ordinal).getD (storedText c.content))
  else text sha256 ordinal

/-- One transaction of `flush`: each chunk is inserted and read back. -/
def retainTextBatch : List TextChunk → TextTable → List (Option JsString) × TextTable
  | [],text => ([],text)
  | c::cs,text =>
    let text' := retainTextChunk text c
    let rest := retainTextBatch cs text'
    (text' c.sha256 c.ordinal::rest.1,rest.2)

/-- `reconciliationTextPageStatement`. -/
def textPage (text : TextTable) (sha256 : JsString) (ordinal count : Nat) :
    List (Nat × JsString) :=
  bounded (fun row => byteLength (quote row.2)) 512000 0
    (((List.range' ordinal (count-ordinal)).filterMap fun o =>
      (text sha256 o).map fun content => (o,content)).take 16)

def PathKey.json : PathKey → Json
  | .name k => .str k
  | .index n => .num n

def TextPart.json (part : TextPart) : Json := .obj [
  (js "path".toList,.arr (part.path.map PathKey.json)),
  (js "sha256".toList,.str part.sha256),
  (js "chunks".toList,.num part.chunks),
  (js "byte_length".toList,.num part.byte_length)]

def RecordEnvelope.json (e : RecordEnvelope) : Json := .obj [
  (js "contract".toList,.str (js "card-keepr-partitioned-record@1".toList)),
  (js "value".toList,e.value),
  (js "text_parts".toList,.arr (e.text_parts.map TextPart.json))]

def PathKey.of : Json → Option PathKey
  | .str k => some (.name k)
  | v => (natural v).map .index

def TextPart.of (v : Json) : Option TextPart := do
  let .arr path ← Json.member (js "path".toList) v | none
  let .str sha256 ← Json.member (js "sha256".toList) v | none
  return ⟨←path.mapM PathKey.of,sha256,←natural (←Json.member (js "chunks".toList) v),
    ←natural (←Json.member (js "byte_length".toList) v)⟩

/-- The envelope in a parsed row; `none` where the reader would meet another shape. -/
def RecordEnvelope.of (v : Json) : Option RecordEnvelope := do
  let .arr parts ← Json.member (js "text_parts".toList) v | none
  return ⟨←Json.member (js "value".toList) v,←parts.mapM TextPart.of⟩

section
variable {Op : Type} {Ans : Op → Type} {ε : Type}

def retainBatches (retain : List TextChunk → Prog Op Ans ε JsString (List (Option JsString))) :
    List (List TextChunk) → Prog Op Ans ε JsString Unit
  | [] => pure ()
  | batch::rest => do
    let found ← retain batch
    if found=batch.map (fun c => some c.content) then retainBatches retain rest
    else .fail textReplayChanged

/-- `retainPartitionedRecord`, with the transaction that stores a batch of chunks. -/
def retainPartitionedRecord (nfc : Nfc)
    (retain : List TextChunk → Prog Op Ans ε JsString (List (Option JsString))) (record : Json) :
    Prog Op Ans ε JsString RecordEnvelope := do
  retainBatches retain (flushes [] 0 (recordChunks nfc record))
  return envelope nfc record

structure TextReader where
  part : TextPart
  text : JsString
  ordinal : Nat

/-- At most two parts are read at a time. -/
def openReaders (readers : List TextReader) (parts : List TextPart) : List TextReader × List TextPart :=
  let free := 2-readers.length
  (readers++(parts.take free).map (fun part => ⟨part,[],0⟩),parts.drop free)

/-- Rows appended to their reader; `none` when a chunk is missing. -/
def takeRows (reader : TextReader) : List (Nat × JsString) → Option TextReader
  | [] => some reader
  | row::rows =>
    if row.1=reader.ordinal then
      takeRows { reader with text := reader.text++row.2, ordinal := reader.ordinal+1 } rows
    else none

def takePage (reader : TextReader) (page : List (Nat × JsString)) : Option TextReader :=
  if page=[] then none else takeRows reader page

def takePages : List TextReader → List (List (Nat × JsString)) → Option (List TextReader)
  | reader::readers,page::pages => do
    let reader ← takePage reader page
    let readers ← takePages readers pages
    return reader::readers
  | _,_ => some []

mutual

/-- `Object.defineProperty` with the text at the end of the path. -/
def setPath (text : JsString) : List PathKey → Json → Option Json
  | [],_ => some (.str text)
  | .index n::path,.arr vs => (setItem text path n vs).map .arr
  | .name k::path,.obj ms =>
    if path=[] then some (.obj (ownMembers (ms++[(k,.str text)])))
    else (setMember text path k ms).map .obj
  | _::_,_ => none

def setItem (text : JsString) (path : List PathKey) : Nat → List Json → Option (List Json)
  | _,[] => none
  | 0,v::vs => (setPath text path v).map fun v => v::vs
  | n+1,v::vs => (setItem text path n vs).map fun vs => v::vs

def setMember (text : JsString) (path : List PathKey) (k : JsString) :
    List (JsString × Json) → Option (List (JsString × Json))
  | [] => none
  | (l,v)::ms =>
    if l=k then (setPath text path v).map fun v => (l,v)::ms
    else (setMember text path k ms).map fun ms => (l,v)::ms

end

/-- The readers that have all their chunks, the last one first, leave their text in the value. -/
def settle : List TextReader → Json → Except JsString (Json × List TextReader)
  | [],value => .ok (value,[])
  | reader::readers,value => do
    let r ← settle readers value
    if reader.ordinal < reader.part.chunks then return (r.1,reader::r.2)
    if sha256Text reader.text≠reader.part.sha256 ∨
        byteLength reader.text≠reader.part.byte_length then throw textDamaged
    match setPath reader.text reader.part.path r.1 with
    | some value => return (value,r.2)
    | none => throw typeError

/-- The loop of `restorePartitionedRecord`. Every round takes a row for each reader, so the number
of chunks bounds the rounds. -/
def restoreRounds (pages : List (JsString × Nat × Nat) →
      Prog Op Ans ε JsString (List (List (Nat × JsString)))) :
    Nat → Json → List TextReader → List TextPart → Prog Op Ans ε JsString Json
  | 0,_,_,_ => .fail textUnavailable
  | n+1,value,readers,parts =>
    let admitted := openReaders readers parts
    if admitted.1=[] then pure value
    else do
      let rows ← pages (admitted.1.map fun r => (r.part.sha256,r.ordinal,r.part.chunks))
      match takePages admitted.1 rows with
      | none => .fail textUnavailable
      | some readers =>
        match settle readers value with
        | .error e => .fail e
        | .ok r => restoreRounds pages n r.1 r.2 admitted.2

def restorePartitionedRecord (pages : List (JsString × Nat × Nat) →
      Prog Op Ans ε JsString (List (List (Nat × JsString)))) (e : RecordEnvelope) :
    Prog Op Ans ε JsString Json :=
  restoreRounds pages ((e.text_parts.map fun part => part.chunks+1).sum+1) e.value [] e.text_parts

end

section
variable (nfc : Nfc)

theorem contract_text : "contract".toList=['c','o','n','t','r','a','c','t'] :=
  String.toList_ofList

theorem text_parts_text : "text_parts".toList=['t','e','x','t','_','p','a','r','t','s'] :=
  String.toList_ofList

theorem value_text : "value".toList=['v','a','l','u','e'] := String.toList_ofList

theorem record_contract_text : "card-keepr-partitioned-record@1".toList=
    ['c','a','r','d','-','k','e','e','p','r','-','p','a','r','t','i','t','i','o','n','e','d','-',
      'r','e','c','o','r','d','@','1'] := String.toList_ofList

theorem canonical_envelope (value : Json) : (RecordEnvelope.json ⟨value,[]⟩).canonical nfc=.obj [
      (js "contract".toList,.str (js "card-keepr-partitioned-record@1".toList)),
      (js "text_parts".toList,.arr []),(js "value".toList,value.canonical nfc)] := by
  rw [RecordEnvelope.json,contract_text,text_parts_text,value_text,record_contract_text]
  have hn1 := nfc.ascii (js ['c','o','n','t','r','a','c','t']) (by decide)
  have hn2 := nfc.ascii (js ['v','a','l','u','e']) (by decide)
  have hn3 := nfc.ascii (js ['t','e','x','t','_','p','a','r','t','s']) (by decide)
  have hn4 := nfc.ascii (js ['c','a','r','d','-','k','e','e','p','r','-','p','a','r','t','i','t',
    'i','o','n','e','d','-','r','e','c','o','r','d','@','1']) (by decide)
  have hsort : ∀a b c : Json,[(js ['c','o','n','t','r','a','c','t'],a),
      (js ['v','a','l','u','e'],b),(js ['t','e','x','t','_','p','a','r','t','s'],c)].insertionSort
        (fun a b => compareUtf8 nfc a.1 b.1 ≤ 0)=
      [(js ['c','o','n','t','r','a','c','t'],a),(js ['t','e','x','t','_','p','a','r','t','s'],c),
        (js ['v','a','l','u','e'],b)] := by
    intro a b c
    have h1 : compareUtf8 nfc (js ['v','a','l','u','e'])
        (js ['t','e','x','t','_','p','a','r','t','s'])=1 := by
      rw [compareUtf8,if_pos (by decide)]
      decide
    have h2 : compareUtf8 nfc (js ['c','o','n','t','r','a','c','t'])
        (js ['t','e','x','t','_','p','a','r','t','s'])=-1 := by
      rw [compareUtf8,if_pos (by decide)]
      decide
    revert h1 h2
    generalize js ['c','o','n','t','r','a','c','t']=k1
    generalize js ['v','a','l','u','e']=k2
    generalize js ['t','e','x','t','_','p','a','r','t','s']=k3
    intro h1 h2
    simp [List.insertionSort,List.orderedInsert,h1,h2]
  rw [canonical_obj,sortedMembers,List.map_nil,hsort]
  have hc : (Json.str (js ['c','a','r','d','-','k','e','e','p','r','-','p','a','r','t','i','t','i',
      'o','n','e','d','-','r','e','c','o','r','d','@','1'])).canonical nfc=
      .str (js ['c','a','r','d','-','k','e','e','p','r','-','p','a','r','t','i','t','i','o','n','e',
        'd','-','r','e','c','o','r','d','@','1']) := by
    simp only [Json.canonical,Json.normalized,Json.sortKeys,hn4]
  simp only [List.map_cons,List.map_nil,hn1,hn2,hn3,hc,canonical_arr]

theorem integral_envelope {value : Json} (h : value.Integral) :
    (RecordEnvelope.json ⟨value,[]⟩).Integral := by
  refine (all_obj _).mpr ⟨trivial,?_⟩
  intro m hm
  simp only [List.map_nil,List.mem_cons,List.not_mem_nil,or_false] at hm
  rcases hm with rfl | rfl | rfl
  · trivial
  · exact h
  · exact (all_arr []).mpr fun v hv => (List.not_mem_nil hv).elim

theorem canonicalJson_envelope {value : Json} (h : value.Integral) :
    canonicalJson nfc (RecordEnvelope.json ⟨value,[]⟩)=.ok (Json.obj [
      (js "contract".toList,.str (js "card-keepr-partitioned-record@1".toList)),
      (js "text_parts".toList,.arr []),(js "value".toList,value.canonical nfc)]).print := by
  rw [canonicalJson,canonicalJsonAt_eq nfc (integral_envelope h),canonical_envelope]

end

end CardKeepr.Reconciliation
