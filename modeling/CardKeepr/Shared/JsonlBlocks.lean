import CardKeepr.Lib.Bytes
import CardKeepr.Shared.Json

namespace CardKeepr.Shared

open Lib

structure SourceArchiveLimits where
  compressedBytes : Nat
  decompressedBytes : Nat
  recordBytes : Nat
  records : Nat
  deriving DecidableEq, Repr

inductive ArchiveFailure where
  | limits
  | blockLimits
  | recordBytes
  | records
  | compressedBytes
  | decompressedBytes
  | integrity
  | continuation
  deriving DecidableEq, Repr

structure JsonlRecord where
  ordinal : Nat
  offset : Nat
  bytes : List UInt8
  deriving DecidableEq, Repr

structure JsonlBlock where
  ordinal : Nat
  offset : Nat
  firstRecord : Nat
  recordCount : Nat
  bytes : List UInt8
  deriving DecidableEq, Repr

def newline (b : UInt8) : Bool := b==10

/-- The successive `subarray(start, end)` pieces of a chunk, each ending after its newline. -/
def parts (bytes : List UInt8) : List (List UInt8) := splitAfter newline bytes

/-- What an async generator hands out: its yields, then completion or a failure. -/
structure Generated (α : Type) where
  yielded : List α
  failure : Option ArchiveFailure

def Generated.result {α : Type} (g : Generated α) : Except ArchiveFailure (List α) :=
  match g.failure with
  | none => .ok g.yielded
  | some f => .error f

/-- What the decompression stream meets, in order: a chunk pulled from the compressed source, a
decoded chunk handed on, or bytes that are not gzip. -/
inductive Delivery where
  | pulled (chunk : List UInt8)
  | decoded (chunk : List UInt8)
  | corrupt
  deriving DecidableEq, Repr

namespace Delivery

def compressed : Delivery → List UInt8
  | pulled chunk => chunk
  | _ => []

def bytes : Delivery → List UInt8
  | decoded chunk => chunk
  | _ => []

end Delivery

section Records

structure RecordCursor where
  pending : List UInt8
  length : Nat
  decoded : Nat
  ordinal : Nat
  offset : Nat

variable (limits : SourceArchiveLimits)

def SourceArchiveLimits.positive (limits : SourceArchiveLimits) : Bool :=
  [limits.compressedBytes,limits.decompressedBytes,limits.recordBytes,limits.records].all
    fun limit => decide (1 ≤ limit ∧ limit ≤ maxSafeInteger)

/-- The inner loop of `gzipJsonlRecords` over one decompressed chunk. -/
def recordParts : List (List UInt8) → RecordCursor →
    List JsonlRecord × Except ArchiveFailure RecordCursor
  | [],s => ([],.ok s)
  | part::rest,s =>
    if s.length+part.length>s.pending.length then ([],.error .recordBytes)
    else
      let s := {s with pending := setAt s.pending part s.length,length := s.length+part.length}
      if !closed newline part then recordParts rest s
      else if limits.records ≤ s.ordinal then ([],.error .records)
      else
        let next := recordParts rest
          {s with ordinal := s.ordinal+1,offset := s.offset+s.length,length := 0}
        (⟨s.ordinal,s.offset,s.pending.take s.length⟩::next.1,next.2)

/-- The outer loop of `gzipJsonlRecords`, with the `compressed` count of its source. -/
def recordDeliveries : List Delivery → Nat → RecordCursor →
    List JsonlRecord × Except ArchiveFailure RecordCursor
  | [],_,s => ([],.ok s)
  | .pulled chunk::rest,compressed,s =>
    if limits.compressedBytes < compressed+chunk.length then ([],.error .compressedBytes)
    else recordDeliveries rest (compressed+chunk.length) s
  | .decoded chunk::rest,compressed,s =>
    let s := {s with decoded := s.decoded+chunk.length}
    if limits.decompressedBytes < s.decoded then ([],.error .decompressedBytes)
    else
      match recordParts limits (parts chunk) s with
      | (yielded,.error f) => (yielded,.error f)
      | (yielded,.ok s) =>
        let next := recordDeliveries rest compressed s
        (yielded++next.1,next.2)
  | .corrupt::_,_,_ => ([],.error .integrity)

/-- The compressed and the decoded bytes may be cut in any way, and meet in any order. -/
def gzipJsonlRecords (deliveries : List Delivery) : Generated JsonlRecord :=
  if !limits.positive then ⟨[],some .limits⟩
  else
    match recordDeliveries limits deliveries 0 ⟨List.replicate limits.recordBytes 0,0,0,0,0⟩ with
    | (yielded,.error f) => ⟨yielded,some f⟩
    | (yielded,.ok s) =>
      if s.length=0 then ⟨yielded,none⟩
      else if limits.records ≤ s.ordinal then ⟨yielded,some .records⟩
      else ⟨yielded++[⟨s.ordinal,s.offset,s.pending.take s.length⟩],none⟩

end Records

section Blocks

variable (limits : SourceArchiveLimits) (blockBytes blockRecords : Nat)

structure BlockCursor where
  pending : List UInt8
  length : Nat
  count : Nat
  ordinal : Nat
  offset : Nat
  firstRecord : Nat

def BlockCursor.block (s : BlockCursor) : JsonlBlock :=
  ⟨s.ordinal,s.offset,s.firstRecord,s.count,s.pending.take s.length⟩

def groupRecords : List JsonlRecord → BlockCursor → List JsonlBlock × BlockCursor
  | [],s => ([],s)
  | record::rest,s =>
    let add := fun s : BlockCursor =>
      {s with pending := setAt s.pending record.bytes s.length,
              length := s.length+record.bytes.length,count := s.count+1}
    if s.count≠0 ∧ (blockBytes < s.length+record.bytes.length ∨ s.count=blockRecords) then
      let next := groupRecords rest (add
        {s with ordinal := s.ordinal+1,offset := s.offset+s.length,
                firstRecord := s.firstRecord+s.count,length := 0,count := 0})
      (s.block::next.1,next.2)
    else groupRecords rest (add s)

/-- The check both block producers make before they take a byte. -/
def blockLimits : Bool :=
  decide (blockBytes ≤ maxSafeInteger ∧ limits.recordBytes ≤ blockBytes ∧
    blockRecords ≤ maxSafeInteger ∧ 1 ≤ blockRecords)

/-- The loop of `gzipJsonlBlocks` over a record generator, and its last open block. -/
def groupGenerated (records : Generated JsonlRecord) : Generated JsonlBlock :=
  let grouped := groupRecords blockBytes blockRecords records.yielded
    ⟨List.replicate blockBytes 0,0,0,0,0,0⟩
  match records.failure with
  | some f => ⟨grouped.1,some f⟩
  | none => ⟨if grouped.2.count=0 then grouped.1 else grouped.1++[grouped.2.block],none⟩

def gzipJsonlBlocks (deliveries : List Delivery) : Generated JsonlBlock :=
  if !blockLimits limits blockBytes blockRecords then ⟨[],some .blockLimits⟩
  else groupGenerated blockBytes blockRecords (gzipJsonlRecords limits deliveries)

structure JsonlBlockCursor where
  ordinal : Nat
  offset : Nat
  firstRecord : Nat
  records : Nat
  blockRecords : Nat
  blockLength : Nat
  partialLength : Nat
  deriving DecidableEq, Repr

structure JsonlBlockAssembler where
  pending : List UInt8
  ordinal : Nat
  offset : Nat
  firstRecord : Nat
  records : Nat
  blockRecordCount : Nat
  blockLength : Nat
  partialLength : Nat

def cursorNumber (value maximum : Nat) : Except ArchiveFailure Nat :=
  if value ≤ maxSafeInteger ∧ value ≤ maximum then .ok value else .error .continuation

def newAssembler (cursor : Option JsonlBlockCursor) (pending : Option (List UInt8)) :
    Except ArchiveFailure JsonlBlockAssembler :=
  if !blockLimits limits blockBytes blockRecords then .error .blockLimits
  else
    let fresh := List.replicate (blockBytes+limits.recordBytes) 0
    match cursor with
    | none => .ok ⟨fresh,0,0,0,0,0,0,0⟩
    | some cursor => do
      let ordinal ← cursorNumber cursor.ordinal maxSafeInteger
      let offset ← cursorNumber cursor.offset limits.decompressedBytes
      let firstRecord ← cursorNumber cursor.firstRecord limits.records
      let records ← cursorNumber cursor.records limits.records
      let count ← cursorNumber cursor.blockRecords blockRecords
      let blockLength ← cursorNumber cursor.blockLength blockBytes
      let partialLength ← cursorNumber cursor.partialLength limits.recordBytes
      match pending with
      | none => .error .continuation
      | some pending =>
        if pending.length≠blockLength+partialLength ∨ records≠firstRecord+count ∨
            decide (count=0)≠decide (blockLength=0) then .error .continuation
        else .ok ⟨setAt fresh pending 0,ordinal,offset,firstRecord,records,count,
          blockLength,partialLength⟩

namespace JsonlBlockAssembler

def cursor (s : JsonlBlockAssembler) : JsonlBlockCursor × List UInt8 :=
  (⟨s.ordinal,s.offset,s.firstRecord,s.records,s.blockRecordCount,s.blockLength,
    s.partialLength⟩,s.pending.take (s.blockLength+s.partialLength))

def close (s : JsonlBlockAssembler) : JsonlBlock × JsonlBlockAssembler :=
  (⟨s.ordinal,s.offset,s.firstRecord,s.blockRecordCount,s.pending.take s.blockLength⟩,
    {s with ordinal := s.ordinal+1,offset := s.offset+s.blockLength,
            firstRecord := s.firstRecord+s.blockRecordCount,blockLength := 0,
            blockRecordCount := 0})

def completeRecord (s : JsonlBlockAssembler) :
    Except ArchiveFailure (Option JsonlBlock × JsonlBlockAssembler) :=
  if limits.records ≤ s.records then .error .records
  else
    let length := s.partialLength
    let finishRecord := fun s : JsonlBlockAssembler =>
      {s with blockLength := s.blockLength+length,partialLength := 0,
              blockRecordCount := s.blockRecordCount+1,records := s.records+1}
    if s.blockRecordCount≠0 ∧
        (blockBytes < s.blockLength+length ∨ s.blockRecordCount=blockRecords) then
      let (block,s) := s.close
      let pending := copyToFront s.pending block.bytes.length (block.bytes.length+length)
      .ok (some block,finishRecord {s with pending := pending})
    else .ok (none,finishRecord s)

/-- The body of `push`'s loop for one part of the bytes. -/
def pushPart (part : List UInt8) (s : JsonlBlockAssembler) :
    Except ArchiveFailure (Option JsonlBlock × JsonlBlockAssembler) :=
  if limits.recordBytes < s.partialLength+part.length then .error .recordBytes
  else
    let s := {s with pending := setAt s.pending part (s.blockLength+s.partialLength),
                     partialLength := s.partialLength+part.length}
    if closed newline part then completeRecord limits blockBytes blockRecords s
    else .ok (none,s)

/-- The loop of `push`: at most `maximumBlocks` further blocks may close. -/
def pushParts : Nat → List (List UInt8) → JsonlBlockAssembler →
    Except ArchiveFailure (List JsonlBlock × Nat × JsonlBlockAssembler)
  | 0,_,s => .ok ([],0,s)
  | _,[],s => .ok ([],0,s)
  | maximumBlocks+1,part::rest,s =>
    match pushPart limits blockBytes blockRecords part s with
    | .error f => .error f
    | .ok (block,s) =>
      match pushParts (maximumBlocks+1-block.toList.length) rest s with
      | .error f => .error f
      | .ok (blocks,consumed,s) => .ok (block.toList++blocks,part.length+consumed,s)

def push (s : JsonlBlockAssembler) (bytes : List UInt8) (maximumBlocks : Nat) :
    Except ArchiveFailure (List JsonlBlock × Nat × JsonlBlockAssembler) :=
  pushParts limits blockBytes blockRecords maximumBlocks (parts bytes) s

def finish (s : JsonlBlockAssembler) :
    Except ArchiveFailure (List JsonlBlock × JsonlBlockAssembler) := do
  let (block,s) ← if s.partialLength≠0 then completeRecord limits blockBytes blockRecords s
    else .ok (none,s)
  if s.blockRecordCount≠0 then
    let (last,s) := s.close
    .ok (block.toList++[last],s)
  else .ok (block.toList,s)

end JsonlBlockAssembler

end Blocks

end CardKeepr.Shared
