import CardKeepr.Lib.Steps
import CardKeepr.Shared.Sha256

namespace CardKeepr.Shared.Gunzip
open Lib

def gunzipRangeBytes : Nat := 1024*1024
def gunzipChunkBytes : Nat := 64*1024
def historyBytes : Nat := 32*1024
def maximumMatch : Nat := 258
def headerLookahead : Nat := 1024
def symbolLookaheadBits : Nat := 12*8
def maximumCompressedBytes : Nat := 255*1024*1024
def outBytes : Nat := historyBytes+gunzipChunkBytes+maximumMatch

inductive Failure where
  | corrupt
  | compressedLimit
  | decompressedLimit
  | continuation
  | truncated
  | changed
  | stalled
  | exactBytes
  | digest
  | digestState
  | read (reason : JsString)

inductive Phase where
  | header
  | block
  | stored
  | codes
  | trailer
  | «end»
  deriving DecidableEq

structure GunzipCheckpoint where
  contract : String
  bit : Nat
  phase : Phase
  final : Bool
  stored : Nat
  lengths : Option (List Nat)
  literals : Nat
  crc : Nat
  decoded : Nat
  raw_hashed : Nat
  raw : StreamingSha256State
  output : StreamingSha256State
  etag : Option JsString

/-- `read` is asked for an offset and a length, and may answer each time in another way. -/
structure GunzipSource where
  length : Nat
  sha256 : JsString
  decompressedBytes : Nat
  read : Nat → Nat → Nat → Except JsString (List UInt8 × JsString)

/-- Entry `n` of the table is eight steps from `n`. -/
def crcTable (n : UInt32) : UInt32 :=
  (fun c : UInt32 => if c &&& 1=1 then (0xedb88320 : UInt32) ^^^ (c >>> 1) else c >>> 1)^[8] n

def crc32 (crc : UInt32) (bytes : List UInt8) : UInt32 :=
  ~~~bytes.foldl (fun (c : UInt32) (b : UInt8) => crcTable ((c ^^^ b.toUInt32) &&& 0xff) ^^^ (c >>> 8)) (~~~crc)

def lengthBase : List Nat :=
  [3,4,5,6,7,8,9,10,11,13,15,17,19,23,27,31,35,43,51,59,67,83,99,115,131,163,195,227,258]
def lengthExtra : List Nat := [0,0,0,0,0,0,0,0,1,1,1,1,2,2,2,2,3,3,3,3,4,4,4,4,5,5,5,5,0]
def distanceBase : List Nat :=
  [1,2,3,4,5,7,9,13,17,25,33,49,65,97,129,193,257,385,513,769,1025,1537,2049,3073,4097,6145,8193,
    12289,16385,24577]
def distanceExtra : List Nat :=
  [0,0,0,0,1,1,2,2,3,3,4,4,5,5,6,6,7,7,8,8,9,9,10,10,11,11,12,12,13,13]
def codeLengthOrder : List Nat := [16,17,18,0,8,7,9,6,10,5,11,4,12,3,13,2,14,1,15]

/-- An entry is `16·symbol+length`, and 0 where no code starts so. -/
structure Table where
  entries : List Nat
  bits : Nat
  deriving DecidableEq

/-- The first codes of the lengths 1 to 15, with how many codes are left; below 0 the code is
over-subscribed. -/
def firstCodes (counts : Nat → Nat) : Nat → Except Failure (Nat × Nat × (Nat → Nat))
  | 0 => .ok (0,1,fun _ => 0)
  | l+1 => do
    let (code,left,next) ← firstCodes counts l
    if 2*left < counts (l+1) then .error .corrupt
    else
      let code' := (code+counts l)*2
      .ok (code',2*left-counts (l+1),fun i => if i=l+1 then code' else next i)

/-- The lowest `length` bits in the opposite order. -/
def reverseBits : Nat → Nat → Nat → Nat
  | 0,_,reversed => reversed
  | length+1,value,reversed => reverseBits length (value/2) (reversed*2+value%2)

/-- Enter the code of a symbol at each index that ends with its bits. -/
def enterCode (entries : List Nat) (next : Nat → Nat) (symbol length : Nat) : List Nat :=
  let reversed := reverseBits length (next length) 0
  entries.mapIdx fun index entry =>
    if reversed ≤ index ∧ (index-reversed)%2^length=0 then symbol*16+length else entry

def enterCodes : List Nat → Nat → List Nat → (Nat → Nat) → List Nat
  | [],_,entries,_ => entries
  | length::lengths,symbol,entries,next =>
    if length=0 then enterCodes lengths (symbol+1) entries next
    else enterCodes lengths (symbol+1) (enterCode entries next symbol length)
      fun i => if i=length then next i+1 else next i

/-- `huffmanTable` of a part of the lengths. -/
@[irreducible] def huffmanTable (lengths : List Nat) : Except Failure Table := do
  let bits := lengths.foldl max 0
  if bits=0 then return ⟨[0,0],1⟩
  let (_,_,next) ← firstCodes (fun l => if l=0 then 0 else lengths.count l) 15
  return ⟨enterCodes lengths 0 (List.replicate (2^bits) 0) next,bits⟩

def fixedLengths : List Nat :=
  List.replicate 144 8++List.replicate 112 9++List.replicate 24 7++List.replicate 8 8++
    List.replicate 32 5

/-- The decoder with its private fields. `reads` counts the questions to the source and
`reach` is where the furthest write into `out` ended; the source has neither. -/
structure ResumableGunzip where
  buffer : List UInt8
  bufferStart : Nat
  bit : Nat
  phase : Phase
  final : Bool
  stored : Nat
  lengths : Option (List Nat)
  literals : Nat
  literal : Option Table
  distance : Option Table
  crc : UInt32
  decoded : Nat
  rawHashed : Nat
  raw : StreamingSha256
  output : StreamingSha256
  etag : Option JsString
  out : Nat → UInt8
  history : Nat
  decodedDigest : Option JsString
  reads : Nat
  reach : Nat

abbrev Decode (α : Type) : Type := Steps ResumableGunzip Failure α

open Steps

def corrupt {α : Type} : Decode α := fail .corrupt

/-- A write outside of a typed array is ignored. -/
def writeByte (index : Nat) (value : UInt8) : Decode Unit := modify fun g => { g with
  out := fun i => if i=index ∧ index < outBytes then value else g.out i
  reach := max g.reach (index+1) }

def useFixed : Decode Unit := do
  let literal ← lift (huffmanTable (fixedLengths.take 288))
  let distance ← lift (huffmanTable (fixedLengths.drop 288))
  modify fun g => { g with
    literal := some literal, distance := some distance, lengths := none, literals := 0 }

def useDynamic (lengths : List Nat) (literals : Nat) : Decode Unit := do
  let literal ← lift (huffmanTable (lengths.take literals))
  modify fun g => { g with literal := some literal }
  let distance ← lift (huffmanTable (lengths.drop literals))
  modify fun g => { g with distance := some distance, lengths := some lengths, literals := literals }

def ResumableGunzip.new : ResumableGunzip where
  buffer := []
  bufferStart := 0
  bit := 0
  phase := .header
  final := false
  stored := 0
  lengths := none
  literals := 0
  literal := none
  distance := none
  crc := 0
  decoded := 0
  rawHashed := 0
  raw := .new
  output := .new
  etag := none
  out := fun _ => 0
  history := 0
  decodedDigest := none
  reads := 0
  reach := 0

def stateNumber (value maximum : Nat) : Decode Unit :=
  check (decide (value ≤ maximum)) .continuation

/-- `constructor`, on the fields as they are declared. -/
def construct (source : GunzipSource) (checkpoint : Option GunzipCheckpoint)
    (window : Option (List UInt8)) : Decode Unit := do
  check (decide (1 ≤ source.length ∧ source.length ≤ maximumCompressedBytes)) .compressedLimit
  match checkpoint with
  | none => return ()
  | some checkpoint =>
    match window with
    | none => fail .continuation
    | some window =>
      check (decide (checkpoint.contract="card-keepr-gunzip-resume@1")) .continuation
      stateNumber checkpoint.bit (source.length*8)
      check (decide (checkpoint.phase≠.end)) .continuation
      stateNumber checkpoint.stored 65535
      stateNumber checkpoint.literals 286
      stateNumber checkpoint.crc 0xffffffff
      stateNumber checkpoint.decoded source.decompressedBytes
      stateNumber checkpoint.raw_hashed source.length
      check (decide (checkpoint.bit/8 ≤ checkpoint.raw_hashed)) .continuation
      match StreamingSha256.restored checkpoint.raw,StreamingSha256.restored checkpoint.output with
      | some raw,some output =>
        modify fun g => { g with
          bit := checkpoint.bit
          phase := checkpoint.phase
          final := checkpoint.final
          stored := checkpoint.stored
          literals := checkpoint.literals
          crc := UInt32.ofNat checkpoint.crc
          decoded := checkpoint.decoded
          rawHashed := checkpoint.raw_hashed
          etag := checkpoint.etag
          raw := raw
          output := output }
        check (decide (checkpoint.raw.bytes=checkpoint.raw_hashed ∧
          checkpoint.output.bytes=checkpoint.decoded)) .continuation
        check (decide (window.length=min checkpoint.decoded historyBytes)) .continuation
        modify fun g => { g with
          out := fun i => window.getD i (g.out i)
          reach := max g.reach window.length
          history := window.length }
        when (checkpoint.phase=.codes) (match checkpoint.lengths with
          | none => useFixed
          | some lengths => do
            check (decide (checkpoint.literals+1 ≤ lengths.length ∧
              lengths.length ≤ checkpoint.literals+30 ∧ ∀l∈lengths,l ≤ 15)) .continuation
            useDynamic lengths checkpoint.literals)
        modify fun g => { g with bufferStart := g.bit/8 }
      | _,_ => fail .digestState

def ResumableGunzip.bufferEnd (g : ResumableGunzip) : Nat := g.bufferStart+g.buffer.length

/-- `#available`. -/
def ResumableGunzip.available (g : ResumableGunzip) : Int := (g.bufferEnd : Int)-(g.bit/8 : Nat)

/-- `#availableBits`. -/
def ResumableGunzip.availableBits (g : ResumableGunzip) : Int := (g.bufferEnd*8 : Nat)-(g.bit : Int)

/-- The bytes at the cursor, as a number with the lowest bit first, from the cursor on. -/
def ResumableGunzip.word (g : ResumableGunzip) : Nat :=
  let index := g.bit/8-g.bufferStart
  let at' := fun i => (g.buffer.getD (index+i) 0).toNat
  (at' 0+at' 1*2^8+at' 2*2^16+at' 3*2^24)/2^(g.bit%8)

def skip (count : Nat) : Decode Unit := modify fun g => { g with bit := g.bit+count }

def peek (bits : Nat) : Decode Nat := do return (← get).word%2^bits

/-- `#bits`. -/
def readBits (count : Nat) : Decode Nat := do
  let value ← peek count
  skip count
  return value

def align : Decode Unit := modify fun g => { g with bit := (g.bit+7)/8*8 }

def checkTruncation (source : GunzipSource) : Decode Unit := do
  check (decide ((← get).bit ≤ source.length*8)) .corrupt

/-- A read of the next range of the source. -/
def refill (source : GunzipSource) : Decode Unit := do
  let g ← get
  let end' := g.bufferEnd
  let length := min gunzipRangeBytes (source.length-end')
  modify fun g => { g with reads := g.reads+1 }
  match source.read g.reads end' length with
  | .error reason => fail (.read reason)
  | .ok (read,etag) =>
    check (decide (read.length=length)) .truncated
    check (decide (g.etag=none ∨ g.etag=some etag)) .changed
    modify fun g => { g with etag := some etag }
    when (g.rawHashed < end'+length) (match g.raw.update (read.drop (g.rawHashed-end')) with
      | none => fail .digest
      | some raw => modify fun g => { g with raw := raw, rawHashed := end'+length })
    let from' := min (g.bit/8) end'
    modify fun g => { g with
      buffer := g.buffer.drop (from'-g.bufferStart)++read
      bufferStart := from' }

variable (source : GunzipSource) (fuel : Nat)

/-- `#ensure`. -/
def ensure (bytes : Nat) : Decode Bool := loop fuel (fun _ : Unit => do
  let g ← get
  if g.available < bytes then
    if source.length ≤ g.bufferEnd then return .inr false
    else
      refill source
      return .inl ()
  else return .inr true) ()

/-- `#ensureBits`. -/
def ensureBits (bits : Nat) : Decode Bool := do
  ensure source fuel ((bits+(← get).bit%8+7)/8)

/-- `#byte`. -/
def readByte : Decode Nat := do
  if ← ensure source fuel 1 then readBits 8 else corrupt

/-- A byte of the header, which its check sum covers. -/
def headerByte (headerCrc : UInt32) : Decode (Nat × UInt32) := do
  let value ← readByte source fuel
  return (value,crc32 headerCrc [UInt8.ofNat value])

def headerBytes : Nat → UInt32 → Decode UInt32
  | 0,headerCrc => return headerCrc
  | n+1,headerCrc => do
    let (_,headerCrc) ← headerByte source fuel headerCrc
    headerBytes n headerCrc

/-- A text that ends with 0; `left` more bytes may be read. -/
def headerText : Nat → UInt32 → Decode UInt32
  | 0,_ => corrupt
  | left+1,headerCrc => do
    let (value,headerCrc) ← headerByte source fuel headerCrc
    if value=0 then return headerCrc else headerText left headerCrc

def headerName (flag flags : Nat) (headerCrc : UInt32) : Decode UInt32 :=
  if flags &&& flag≠0 then headerText source fuel 65537 headerCrc else ret headerCrc

def expectByte (expected : Nat) (headerCrc : UInt32) : Decode UInt32 := do
  let (value,headerCrc) ← headerByte source fuel headerCrc
  check (decide (value=expected)) .corrupt
  return headerCrc

def headerExtra (flags : Nat) (headerCrc : UInt32) : Decode UInt32 :=
  if flags &&& 4≠0 then do
    let (low,headerCrc) ← headerByte source fuel headerCrc
    let (high,headerCrc) ← headerByte source fuel headerCrc
    headerBytes source fuel (low+high*256) headerCrc
  else ret headerCrc

/-- `#header`. -/
def header : Decode Unit := do
  check (decide ((← get).bit=0)) .continuation
  let crc ← expectByte source fuel 0x1f 0
  let crc ← expectByte source fuel 0x8b crc
  let crc ← expectByte source fuel 8 crc
  let (flags,crc) ← headerByte source fuel crc
  check (decide (flags &&& 0xe0=0)) .corrupt
  let crc ← headerBytes source fuel 6 crc
  let crc ← headerExtra source fuel flags crc
  let crc ← headerName source fuel 8 flags crc
  let crc ← headerName source fuel 16 flags crc
  when (flags &&& 2≠0) do
    let low ← readByte source fuel
    let high ← readByte source fuel
    check (decide (low+high*256=crc.toNat%65536)) .corrupt
  modify fun g => { g with phase := .block }

/-- The lengths of the code in which the other lengths are written, in their own order. -/
def readCodeLengths : List Nat → List Nat → Decode (List Nat)
  | [],codeLengths => return codeLengths
  | symbol::order,codeLengths => do
    let length ← readBits 3
    readCodeLengths order (codeLengths.set symbol length)

/-- One turn of the loop that reads the lengths of a dynamic block. -/
def readLength (codeTable : Table) (lengths : List Nat) : Decode (List Nat) := do
  let entry := codeTable.entries.getD (← peek codeTable.bits) 0
  check (decide (entry≠0)) .corrupt
  skip (entry%16)
  let symbol := entry/16
  if symbol < 16 then return lengths++[symbol]
  else if symbol=16 then
    match lengths.getLast? with
    | none => corrupt
    | some previous => return lengths++List.replicate (3+(← readBits 2)) previous
  else if symbol=17 then return lengths++List.replicate (3+(← readBits 3)) 0
  else return lengths++List.replicate (11+(← readBits 7)) 0

def readLengths (codeTable : Table) (count : Nat) : Decode (List Nat) := loop fuel (fun lengths => do
  if lengths.length < count then return .inl (← readLength codeTable lengths)
  else return .inr lengths) []

/-- A stored block. -/
def storedHeader : Decode Unit := do
  align
  if ← ensure source fuel 4 then
    let length ← readBits 16
    let complement ← readBits 16
    check (decide (length ^^^ 0xffff=complement)) .corrupt
    modify fun g => { g with
      stored := length
      phase := if length=0 then (if g.final then .trailer else .block) else .stored }
  else corrupt

/-- A block with codes of its own. -/
def dynamicHeader : Decode Unit := do
  let literals := (← readBits 5)+257
  let distances := (← readBits 5)+1
  let codeLengthCount := (← readBits 4)+4
  check (decide (literals ≤ 286 ∧ distances ≤ 30)) .corrupt
  let codeLengths ← readCodeLengths (codeLengthOrder.take codeLengthCount) (List.replicate 19 0)
  let codeTable ← lift (huffmanTable codeLengths)
  let lengths ← readLengths fuel codeTable (literals+distances)
  check (decide (lengths.length=literals+distances ∧ lengths.getD 256 0≠0)) .corrupt
  useDynamic lengths literals
  modify fun g => { g with phase := .codes }

def blockType (type : Nat) : Decode Unit :=
  if type=0 then storedHeader source fuel
  else if type=1 then do
    useFixed
    modify fun g => { g with phase := .codes }
  else if type=2 then dynamicHeader fuel
  else corrupt

/-- `#blockHeader`. -/
def blockHeader : Decode Unit := do
  let _ ← ensure source fuel headerLookahead
  let final ← readBits 1
  modify fun g => { g with final := decide (final=1) }
  let type ← readBits 2
  blockType source fuel type
  checkTruncation source

def writeBytes : Nat → List UInt8 → Decode Unit
  | _,[] => return ()
  | position,b::bs => do
    writeByte position b
    writeBytes (position+1) bs

/-- `#storedBytes`. -/
def storedBytes (position : Nat) : Decode Nat := do
  when ((← get).available=0) do
    let more ← ensure source fuel 1
    check more .corrupt
  let g ← get
  let count := (min (min (g.stored : Int) g.available) ((outBytes : Int)-maximumMatch-position)).toNat
  let from' := g.bit/8-g.bufferStart
  writeBytes position ((g.buffer.drop from').take count)
  skip (count*8)
  modify fun g => { g with stored := g.stored-count }
  modify fun g => { g with
    phase := if g.stored=0 then (if g.final then .trailer else .block) else g.phase }
  return position+count

/-- The end of the output of a call is sought here, wherever the history ends. -/
def codesLimit : Nat := historyBytes+gunzipChunkBytes

/-- A match is copied byte by byte, so it may overlap itself. -/
def copyMatch (back : Nat) : Nat → Nat → Decode Unit
  | 0,_ => return ()
  | length+1,position => do
    writeByte position ((← get).out (position-back))
    copyMatch back length (position+1)

def readExtended (base extra : List Nat) (index : Nat) : Decode Nat := do
  return base.getD index 0+(← readBits (extra.getD index 0))

/-- The symbol of the next code of the table. -/
def readCode (table : Table) : Decode Nat := do
  let entry := table.entries.getD (← peek table.bits) 0
  check (decide (entry≠0)) .corrupt
  skip (entry%16)
  return entry/16

/-- One turn of the inner loop of `#codes`: the position after the symbol, and whether the block
ended. -/
def symbolStep (literal distance : Table) (atEnd : Bool) (position : Nat) : Decode (Nat × Bool) := do
  let symbol ← readCode literal
  if symbol < 256 then
    writeByte position (UInt8.ofNat symbol)
    return (position+1,false)
  else if symbol=256 then
    modify fun g => { g with phase := if g.final then .trailer else .block }
    checkTruncation source
    return (position,true)
  else
    let index := symbol-257
    check (decide (index < 29)) .corrupt
    let length ← readExtended lengthBase lengthExtra index
    let distanceSymbol ← readCode distance
    check (decide (distanceSymbol < 30)) .corrupt
    let back ← readExtended distanceBase distanceExtra distanceSymbol
    check (decide (back ≤ position)) .corrupt
    copyMatch back length position
    when (atEnd=true) (checkTruncation source)
    return (position+length,false)

/-- The inner loop, for one state of the buffer. -/
def symbols (literal distance : Table) (bufferEnd : Int) (atEnd : Bool) (position : Nat) :
    Decode (Nat × Bool) := loop fuel (fun position => do
  if position < codesLimit ∧ (((← get).bit : Int) ≤ bufferEnd ∨ atEnd=true) then
    let r ← symbolStep source literal distance atEnd position
    if r.2 then return .inr r else return .inl r.1
  else return .inr (position,false)) position

/-- One turn of the outer loop of `#codes`. -/
def codesTurn (literal distance : Table) (position : Nat) : Decode (Nat × Bool) := do
  when ((← get).availableBits < symbolLookaheadBits) do
    let more ← ensureBits source fuel symbolLookaheadBits
    when (more=false) do
      check (decide (0 < (← get).availableBits)) .corrupt
  let g ← get
  let bufferEnd : Int := (g.bufferEnd*8 : Nat)-(symbolLookaheadBits : Int)
  let atEnd := decide (source.length ≤ g.bufferEnd)
  let r ← symbols source fuel literal distance bufferEnd atEnd position
  if r.2 then return r
  else
    checkTruncation source
    check (decide ((← get).bit≠g.bit)) .stalled
    return r

/-- `#codes`. -/
def codes (position : Nat) : Decode Nat := do
  let g ← get
  match g.literal,g.distance with
  | some literal,some distance =>
    loop fuel (fun position => do
      if position < codesLimit then
        let r ← codesTurn source fuel literal distance position
        if r.2 then return .inr r.1 else return .inl r.1
      else return .inr position) position
  | _,_ => fail .continuation

/-- `#trailer`. -/
def trailer : Decode Unit := do
  align
  if ← ensure source fuel 8 then
    let crcLow ← readBits 16
    let crcHigh ← readBits 16
    let sizeLow ← readBits 16
    let sizeHigh ← readBits 16
    let g ← get
    check (decide (crcLow+crcHigh*65536=g.crc.toNat ∧ sizeLow+sizeHigh*65536=g.decoded%2^32)) .corrupt
    check (decide (g.bit/8=source.length)) .corrupt
    check (decide (g.rawHashed=source.length)) .exactBytes
    modify fun g => { g with raw := g.raw.finish }
    check (decide (g.raw.digestHex=source.sha256)) .exactBytes
    modify fun g => { g with
      output := g.output.finish, decodedDigest := some g.output.digestHex, phase := .end }
  else corrupt

/-- One turn of the loop of `next`: the position, or that the stream is over. -/
def phaseStep (position : Nat) : Decode (Option Nat) := do
  match (← get).phase with
  | .end => return none
  | .header =>
    header source fuel
    return some position
  | .block =>
    blockHeader source fuel
    return some position
  | .stored => return some (← storedBytes source fuel position)
  | .codes => return some (← codes source fuel position)
  | .trailer =>
    trailer source fuel
    return none

/-- The output between two positions is kept as history and given out. -/
def emit (start position : Nat) : Decode (List UInt8) := do
  let g ← get
  let chunk := (List.range (position-start)).map fun i => g.out (start+i)
  modify fun g => { g with decoded := g.decoded+chunk.length }
  check (decide (g.decoded+chunk.length ≤ source.decompressedBytes)) .decompressedLimit
  modify fun g => { g with crc := crc32 g.crc chunk }
  match g.output.update chunk with
  | none => fail .digest
  | some output =>
    let keep := min position historyBytes
    modify fun g => { g with
      output := output
      out := fun i => if i < keep then g.out (position-keep+i) else g.out i
      history := keep }
    return chunk

/-- `next`: the loop runs while there is no output. -/
def next : Decode (Option (List UInt8)) := do
  let start := (← get).history
  let position ← loop fuel (fun _ : Unit => do
    match ← phaseStep source fuel start with
    | none => return .inr none
    | some position => if position=start then return .inl () else return .inr (some position)) ()
  match position with
  | none => return none
  | some position => return some (← emit source start position)

end CardKeepr.Shared.Gunzip
