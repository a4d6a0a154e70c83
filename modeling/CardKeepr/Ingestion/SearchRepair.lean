import CardKeepr.Shared.TextDecoder

namespace CardKeepr.Ingestion
open Shared List

variable {cs ds : List Nat}

def defaultMaximumBoundParameterBytes : Nat := 64*1024

/-- The search text stored for the card under repair and how far it is written. -/
structure Repair where
  search_text : JsString
  repair_search_offset : Nat
  deriving DecidableEq

def boundBytes (values : List JsString) : Nat := (values.map fun v => (utf8 v).length).sum

/-- The loop of `utf8Chunk` over `end`. -/
def decodeBackwards (bytes : List UInt8) (offset : Nat) : Nat → Except String JsString
  | 0 => .error "The Card search repair could not make bounded progress."
  | n+1 =>
    if offset < n+1 then
      match decodeFatal ((bytes.take (n+1)).drop offset) with
      | some chunk => .ok chunk
      | none => decodeBackwards bytes offset n
    else .error "The Card search repair could not make bounded progress."

def utf8Chunk (bytes : List UInt8) (offset maximumBytes : Nat) : Except String JsString :=
  if maximumBytes < 1 then .error "The Card search repair parameter bound is too small."
  else decodeBackwards bytes offset (min bytes.length (offset+maximumBytes))

/-- `search_text || ?` where the text has the expected length, with the changed rows. -/
def appendRepairedCardSearchText (chunk : JsString) (expectedOffset : Nat) (r : Repair) :
    Repair×Nat :=
  if (utf8 r.search_text).length=expectedOffset
  then ({ r with search_text := r.search_text++chunk },1) else (r,0)

def advanceCardSearchOffset (nextOffset expectedOffset : Nat) (r : Repair) : Repair×Nat :=
  if r.repair_search_offset=expectedOffset ∧ (utf8 r.search_text).length=nextOffset
  then ({ r with repair_search_offset := nextOffset },1) else (r,0)

def assertCasPair (first second : Nat) : Option String :=
  if (first≠0 ∧ first≠1) ∨ (second≠0 ∧ second≠1) ∨ (first=1 ∧ second=0)
  then some "The Card search repair offset CAS was not atomic." else none

/-- The rows an invocation leaves, with the error it throws. -/
structure Outcome where
  repair : Repair
  error : Option String

/-- What the ids leave of a statement's bound for the chunk. -/
def chunkRoom (revisionId cardId : JsString) : Nat :=
  defaultMaximumBoundParameterBytes-boundBytes [revisionId,cardId]

/-- The batch that appends a chunk and moves the offset behind it. -/
def storeChunk (revisionId cardId chunk : JsString) (r : Repair) : Outcome :=
  let nextOffset := r.repair_search_offset+(utf8 chunk).length
  let measured := max (boundBytes [chunk,revisionId,cardId])
    (boundBytes [decimal nextOffset,revisionId,cardId])
  if measured > defaultMaximumBoundParameterBytes
  then ⟨r,some "The Card search repair parameter bound was exceeded."⟩
  else
    let appended := appendRepairedCardSearchText chunk r.repair_search_offset r
    let advanced := advanceCardSearchOffset nextOffset r.repair_search_offset appended.1
    ⟨advanced.1,assertCasPair appended.2 advanced.2⟩

/-- The part of `repairCardSearchMaterializationStep` that appends search text. Behind the last
byte the step goes on to the chunks and leaves the text alone. -/
def appendSearchText (revisionId cardId searchText : JsString) (r : Repair) : Outcome :=
  if r.repair_search_offset < (utf8 searchText).length then
    match utf8Chunk (utf8 searchText) r.repair_search_offset (chunkRoom revisionId cardId) with
    | .error e => ⟨r,some e⟩
    | .ok chunk => storeChunk revisionId cardId chunk r
  else ⟨r,none⟩

section
variable (revisionId cardId searchText : JsString)

/-- The rows after some invocations, from a card whose repair has begun. -/
def repairAfter : Nat → Repair
  | 0 => ⟨[],0⟩
  | n+1 => (appendSearchText revisionId cardId searchText (repairAfter n)).repair

/-- `TextEncoder` puts U+FFFD for a surrogate without its pair. -/
def toWellFormed (s : JsString) : JsString := fromPoints (codePoints s)

/-- The repair ends with the whole text, and on the way the offset counts the bytes stored and the
stored text is made of whole code points. -/
def Lossless : Prop :=
  (∃n,¬(repairAfter revisionId cardId searchText n).repair_search_offset < (utf8 searchText).length ∧
    (repairAfter revisionId cardId searchText n).search_text=toWellFormed searchText) ∧
  ∀n,(appendSearchText revisionId cardId searchText
      (repairAfter revisionId cardId searchText n)).error=none ∧
    (repairAfter revisionId cardId searchText n).repair_search_offset=
      (utf8 (repairAfter revisionId cardId searchText n).search_text).length ∧
    ∃ps,ps <+: codePoints searchText ∧
      (repairAfter revisionId cardId searchText n).search_text=fromPoints ps
end

/-- The longest run of leading code points that takes at most `room` bytes. -/
def fitting : Nat → List Nat → List Nat
  | _,[] => []
  | room,c::cs =>
    if (utf8Point c).length ≤ room then c::fitting (room-(utf8Point c).length) cs else []

/-- A text cut into such runs, one behind the other; an empty piece where none fits. -/
def pieces (room : Nat) (cs : List Nat) : List (List Nat) :=
  match cs with
  | [] => []
  | c::cs =>
    if (utf8Point c).length ≤ room
    then fitting room (c::cs)::pieces room ((c::cs).drop (fitting room (c::cs)).length)
    else [[]]
  termination_by cs.length
  decreasing_by
    rename_i h
    rw [fitting,if_pos h]
    simp only [length_cons,drop_succ_cons,length_drop]
    omega

/-- No piece is empty or begins with U+FEFF, and the offsets fit beside the ids. -/
def NoMarkAtCut (room : Nat) (searchText : JsString) : Prop :=
  (∀g∈pieces room (codePoints searchText),g≠[] ∧ g.head?≠some byteOrderMark) ∧
    (searchText≠[] → (decimal (utf8 searchText).length).length ≤ room)

theorem fitting_prefix (room : Nat) (cs : List Nat) : fitting room cs <+: cs := by
  induction cs generalizing room with
  | nil => exact nil_prefix
  | cons c cs ih =>
    rw [fitting]
    split_ifs with h
    · exact cons_prefix_cons.mpr ⟨rfl,ih _⟩
    · exact nil_prefix

theorem fitting_bytes (room : Nat) (cs : List Nat) : (bytesOf (fitting room cs)).length ≤ room := by
  induction cs generalizing room with
  | nil => exact Nat.zero_le _
  | cons c cs ih =>
    rw [fitting]
    split_ifs with h
    · have := ih (room-(utf8Point c).length)
      rw [bytesOf_cons,length_append]
      omega
    · exact Nat.zero_le _

theorem fitting_most {room : Nat} (hp : ds <+: cs)
    (hb : (bytesOf ds).length ≤ room) : ds <+: fitting room cs := by
  induction cs generalizing room ds with
  | nil =>
    obtain rfl := prefix_nil.mp hp
    exact nil_prefix
  | cons c cs ih =>
    cases ds with
    | nil => exact nil_prefix
    | cons d ds =>
      obtain ⟨rfl,hq⟩ := cons_prefix_cons.mp hp
      rw [bytesOf_cons,length_append] at hb
      rw [fitting,if_pos (by omega)]
      exact cons_prefix_cons.mpr ⟨rfl,ih hq (by omega)⟩

theorem bytesOf_prefix (h : cs <+: ds) : (bytesOf cs).length ≤ (bytesOf ds).length := by
  obtain ⟨es,rfl⟩ := h
  rw [bytesOf_append,length_append]
  omega

theorem bytesOf_pos (h : cs≠[]) : 0 < (bytesOf cs).length := by
  obtain ⟨c,cs,rfl⟩ := exists_cons_of_ne_nil h
  have := utf8Point_pos c
  rw [bytesOf_cons,length_append]
  omega

theorem pieces_cons {room : Nat} (h : fitting room cs≠[]) :
    pieces room cs=fitting room cs::pieces room (cs.drop (fitting room cs).length) := by
  cases cs with
  | nil => exact absurd rfl h
  | cons c cs =>
    rw [pieces]
    split_ifs with hc
    · rfl
    · rw [fitting,if_neg hc] at h
      exact absurd rfl h

theorem pieces_stuck {room : Nat} (h : cs≠[]) (hf : fitting room cs=[]) : pieces room cs=[[]] := by
  obtain ⟨c,cs,rfl⟩ := exists_cons_of_ne_nil h
  rw [pieces]
  split_ifs with hc
  · rw [fitting,if_pos hc] at hf
    cases hf
  · rfl

end CardKeepr.Ingestion
