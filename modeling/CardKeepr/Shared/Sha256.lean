import CardKeepr.Shared.JsString

namespace CardKeepr.Shared

open List

variable {data tail bytes whole : List UInt8}

def roundConstants : List UInt32 := [
  0x428a2f98,0x71374491,0xb5c0fbcf,0xe9b5dba5,0x3956c25b,0x59f111f1,0x923f82a4,0xab1c5ed5,
  0xd807aa98,0x12835b01,0x243185be,0x550c7dc3,0x72be5d74,0x80deb1fe,0x9bdc06a7,0xc19bf174,
  0xe49b69c1,0xefbe4786,0x0fc19dc6,0x240ca1cc,0x2de92c6f,0x4a7484aa,0x5cb0a9dc,0x76f988da,
  0x983e5152,0xa831c66d,0xb00327c8,0xbf597fc7,0xc6e00bf3,0xd5a79147,0x06ca6351,0x14292967,
  0x27b70a85,0x2e1b2138,0x4d2c6dfc,0x53380d13,0x650a7354,0x766a0abb,0x81c2c92e,0x92722c85,
  0xa2bfe8a1,0xa81a664b,0xc24b8b70,0xc76c51a3,0xd192e819,0xd6990624,0xf40e3585,0x106aa070,
  0x19a4c116,0x1e376c08,0x2748774c,0x34b0bcb5,0x391c0cb3,0x4ed8aa4a,0x5b9cca4f,0x682e6ff3,
  0x748f82ee,0x78a5636f,0x84c87814,0x8cc70208,0x90befffa,0xa4506ceb,0xbef9a3f7,0xc67178f2]

def rotateRight (value : UInt32) (places : UInt32) : UInt32 :=
  (value >>> places) ||| (value <<< (32-places))

/-- The eight words of the chaining state. -/
structure ShaWords where
  a : UInt32
  b : UInt32
  c : UInt32
  d : UInt32
  e : UInt32
  f : UInt32
  g : UInt32
  h : UInt32

def initialWords : ShaWords :=
  ⟨0x6a09e667,0xbb67ae85,0x3c6ef372,0xa54ff53a,0x510e527f,0x9b05688c,0x1f83d9ab,0x5be0cd19⟩

/-- Big-endian words of a block. -/
def blockWords : List UInt8 → List UInt32
  | b0::b1::b2::b3::bs =>
    ((b0.toUInt32 <<< 24) ||| (b1.toUInt32 <<< 16) ||| (b2.toUInt32 <<< 8) ||| b3.toUInt32)::
      blockWords bs
  | _ => []

/-- One further word of the message schedule. -/
def extendSchedule (words : List UInt32) : List UInt32 :=
  let at' := fun back => words.getD (words.length-back) 0
  let first := at' 15
  let second := at' 2
  let sigma0 := rotateRight first 7 ^^^ rotateRight first 18 ^^^ (first >>> 3)
  let sigma1 := rotateRight second 17 ^^^ rotateRight second 19 ^^^ (second >>> 10)
  words++[at' 16+sigma0+at' 7+sigma1]

def schedule (block : List UInt8) : List UInt32 := extendSchedule^[48] (blockWords block)

def shaRound (s : ShaWords) (constant word : UInt32) : ShaWords :=
  let upper := rotateRight s.e 6 ^^^ rotateRight s.e 11 ^^^ rotateRight s.e 25
  let choose := (s.e &&& s.f) ^^^ (~~~s.e &&& s.g)
  let temporary1 := s.h+upper+choose+constant+word
  let lower := rotateRight s.a 2 ^^^ rotateRight s.a 13 ^^^ rotateRight s.a 22
  let majority := (s.a &&& s.b) ^^^ (s.a &&& s.c) ^^^ (s.b &&& s.c)
  let temporary2 := lower+majority
  ⟨temporary1+temporary2,s.a,s.b,s.c,s.d+temporary1,s.e,s.f,s.g⟩

def compress (s : ShaWords) (block : List UInt8) : ShaWords :=
  let t := (roundConstants.zip (schedule block)).foldl (fun s kw => shaRound s kw.1 kw.2) s
  ⟨s.a+t.a,s.b+t.b,s.c+t.c,s.d+t.d,s.e+t.e,s.f+t.f,s.g+t.g,s.h+t.h⟩

/-- The chaining state after `n` whole blocks. -/
def hashBlocks : Nat → ShaWords → List UInt8 → ShaWords
  | 0,s,_ => s
  | n+1,s,data => hashBlocks n (compress s (data.take 64)) (data.drop 64)

/-- The bit length modulo 2^64 as eight big-endian bytes. -/
def lengthBytes (bytes : Nat) : List UInt8 :=
  let bits := bytes*8
  [56,48,40,32,24,16,8,0].map fun shift => UInt8.ofNat (bits/2^shift)

def shaPadded (data : List UInt8) : List UInt8 :=
  data++0x80::(List.replicate ((55+64-data.length%64)%64) 0++lengthBytes data.length)

def shaWordsOf (data : List UInt8) : ShaWords :=
  hashBlocks ((shaPadded data).length/64) initialWords (shaPadded data)

/-- `word.toString(16).padStart(8, "0")`. -/
def hex8 (w : UInt32) : JsString :=
  [28,24,20,16,12,8,4,0].map fun shift => hexDigit (w.toNat/2^shift%16)

def ShaWords.hex (s : ShaWords) : JsString :=
  [s.a,s.b,s.c,s.d,s.e,s.f,s.g,s.h].flatMap hex8

/-- The lower-case hexadecimal SHA-256 digest of a byte string. -/
def sha256 (data : List UInt8) : JsString := (shaWordsOf data).hex

def sha256Text (value : JsString) : JsString := sha256 (utf8 value)

/-- `StreamingSha256State`. -/
structure StreamingSha256State where
  words : ShaWords
  pending : List UInt8
  bytes : Nat

structure StreamingSha256 where
  state : ShaWords
  /-- The first `#buffered` bytes of `#buffer`. -/
  buffer : List UInt8
  bytes : Nat
  finished : Bool

namespace StreamingSha256

def new : StreamingSha256 := ⟨initialWords,[],0,false⟩

/-- The constructor with a continuation; `none` is its error. -/
def restored (state : StreamingSha256State) : Option StreamingSha256 :=
  if state.pending.length ≥ 64 ∨ state.bytes%64≠state.pending.length then none
  else some ⟨state.words,state.pending,state.bytes,false⟩

/-- `none` when the stream is already complete. -/
def checkpoint (s : StreamingSha256) : Option StreamingSha256State :=
  if s.finished then none else some ⟨s.state,s.buffer,s.bytes⟩

/-- One iteration of the loop of `update`: the stream and the bytes still to take. -/
def take (s : StreamingSha256) (bytes : List UInt8) : StreamingSha256 × List UInt8 :=
  if s.buffer.length=0 ∧ bytes.length ≥ 64 then
    ({ s with state := compress s.state (bytes.take 64) },bytes.drop 64)
  else
    let length := min (64-s.buffer.length) bytes.length
    let buffer := s.buffer++bytes.take length
    if buffer.length=64 then
      ({ s with state := compress s.state buffer, buffer := [] },bytes.drop length)
    else ({ s with buffer := buffer },bytes.drop length)

def absorb : Nat → StreamingSha256 → List UInt8 → StreamingSha256
  | 0,s,_ => s
  | n+1,s,bytes => if bytes=[] then s else absorb n (s.take bytes).1 (s.take bytes).2

/-- `update`; `none` when the stream is already complete. Each iteration takes at least a byte. -/
def update (s : StreamingSha256) (bytes : List UInt8) : Option StreamingSha256 :=
  if s.finished then none
  else some (absorb bytes.length { s with bytes := s.bytes+bytes.length } bytes)

/-- The completed stream of `digestHex`. -/
def finish (s : StreamingSha256) : StreamingSha256 :=
  if s.finished then s
  else
    let buffer := s.buffer++[0x80]
    let s' := if buffer.length > 56 then
      { s with state := compress s.state (buffer++List.replicate (64-buffer.length) 0), buffer := [] }
      else { s with buffer := buffer }
    { s' with
      state := compress s'.state
        (s'.buffer++List.replicate (56-s'.buffer.length) 0++lengthBytes s.bytes),
      finished := true }

def digestHex (s : StreamingSha256) : JsString := s.finish.state.hex

end StreamingSha256

/-- The chaining state and the buffer after `data`. -/
def Absorbed (s : StreamingSha256) (data : List UInt8) : Prop :=
  ∃q whole,data=whole++s.buffer ∧ whole.length=64*q ∧ s.buffer.length < 64 ∧
    s.state=hashBlocks q initialWords whole

/-- A stream that has taken in `data`. -/
structure Digests (s : StreamingSha256) (data : List UInt8) : Prop where
  absorbed : Absorbed s data
  bytes : s.bytes=data.length
  finished : s.finished=false

theorem hashBlocks_block {q : Nat} {block : List UInt8} (hw : whole.length=64*q)
    (hb : block.length=64) (s : ShaWords) :
    hashBlocks (q+1) s (whole++block)=compress (hashBlocks q s whole) block := by
  induction q generalizing s whole with
  | zero =>
    obtain rfl : whole=[] := length_eq_zero_iff.mp (by omega)
    rw [nil_append,hashBlocks,hashBlocks,hashBlocks,take_of_length_le (le_of_eq hb)]
  | succ q ih =>
    have ht : (whole++block).take 64=whole.take 64 := take_append_of_le_length (by omega)
    have hd : (whole++block).drop 64=whole.drop 64++block := drop_append_of_le_length (by omega)
    have hl : (whole.drop 64).length=64*q := by
      rw [length_drop]
      omega
    rw [hashBlocks,ht,hd,ih hl]
    rfl

theorem new_digests : Digests .new [] :=
  ⟨⟨0,[],rfl,rfl,by decide,rfl⟩,rfl,rfl⟩

variable {s : StreamingSha256}

theorem take_absorbed (h : Absorbed s data) (hb : bytes≠[]) : ∃k,0 < k ∧ (s.take bytes).2=bytes.drop
    k ∧ Absorbed (s.take bytes).1 (data++bytes.take k) ∧ (s.take bytes).1.bytes=s.bytes ∧
    (s.take bytes).1.finished=s.finished := by
  obtain ⟨q,whole,hd,hw,hs,hst⟩ := h
  have hpos := length_pos_iff.mpr hb
  unfold StreamingSha256.take
  split
  · rename_i hc
    have hnil : s.buffer=[] := length_eq_zero_iff.mp hc.1
    rw [hnil,append_nil] at hd
    have hl : (bytes.take 64).length=64 := by
      rw [length_take]
      omega
    refine ⟨64,by decide,rfl,⟨q+1,whole++bytes.take 64,?_,?_,hs,?_⟩,rfl,rfl⟩
    · simp [hd,hnil]
    · rw [length_append,hl]
      omega
    · rw [hashBlocks_block hw hl,←hst]
  · dsimp only
    have hl : (bytes.take (min (64-s.buffer.length) bytes.length)).length=
        min (64-s.buffer.length) bytes.length := by
      rw [length_take]
      omega
    split
    · rename_i hfull
      refine ⟨min (64-s.buffer.length) bytes.length,by omega,rfl,
        ⟨q+1,whole++(s.buffer++bytes.take (min (64-s.buffer.length) bytes.length)),?_,?_,
          Nat.zero_lt_succ 63,?_⟩,rfl,rfl⟩
      · simp [hd]
      · rw [length_append,hfull]
        omega
      · rw [hashBlocks_block hw hfull,←hst]
    · rename_i hfull
      refine ⟨min (64-s.buffer.length) bytes.length,by omega,rfl,
        ⟨q,whole,?_,hw,?_,hst⟩,rfl,rfl⟩
      · simp [hd]
      · rw [length_append] at hfull ⊢
        omega

theorem absorb_absorbed (n : Nat) (h : Absorbed s data) (hn : bytes.length ≤ n) :
    Absorbed (StreamingSha256.absorb n s bytes) (data++bytes) ∧
      (StreamingSha256.absorb n s bytes).bytes=s.bytes ∧
      (StreamingSha256.absorb n s bytes).finished=s.finished := by
  induction n generalizing s data bytes with
  | zero =>
    obtain rfl : bytes=[] := length_eq_zero_iff.mp (by omega)
    simpa [StreamingSha256.absorb] using h
  | succ n ih =>
    rw [StreamingSha256.absorb]
    split
    · rename_i e
      subst e
      simpa using h
    · rename_i hne
      obtain ⟨k,hk,hr,ha,hb,hf⟩ := take_absorbed h hne
      rw [hr]
      obtain ⟨ha,hb2,hf2⟩ := ih ha (show (bytes.drop k).length ≤ n by rw [length_drop]; omega)
      rw [append_assoc,take_append_drop] at ha
      exact ⟨ha,hb2.trans hb,hf2.trans hf⟩

theorem update_digests (h : Digests s data)
    (bytes : List UInt8) : ∃t,s.update bytes=some t ∧ Digests t (data++bytes) := by
  have ha : Absorbed { s with bytes := s.bytes+bytes.length } data := h.absorbed
  obtain ⟨ha,hb,hf⟩ := absorb_absorbed bytes.length ha (le_refl bytes.length)
  refine ⟨_,by rw [StreamingSha256.update,h.finished]; rfl,ha,?_,hf.trans h.finished⟩
  rw [hb,length_append,h.bytes]

theorem checkpoint_digests (h : Digests s data) :
    ∃c,s.checkpoint=some c ∧ StreamingSha256.restored c=some s := by
  refine ⟨_,by rw [StreamingSha256.checkpoint,h.finished]; rfl,?_⟩
  obtain ⟨q,whole,hd,hw,hs,hst⟩ := h.absorbed
  have hl : s.bytes%64=s.buffer.length := by
    rw [h.bytes,hd,length_append,hw]
    omega
  have hc : ¬(s.buffer.length ≥ 64 ∨ s.bytes%64≠s.buffer.length) := by omega
  simp only [StreamingSha256.restored,if_neg hc]
  rw [←h.finished]

theorem lengthBytes_length (n : Nat) : (lengthBytes n).length=8 := by
  simp [lengthBytes]

theorem shaWordsOf_short {q : Nat} (hw : whole.length=64*q) (hs : tail.length < 56) : shaWordsOf
    (whole++tail)= compress (hashBlocks q initialWords whole)
    (tail++[0x80]++List.replicate (56-(tail.length+1)) 0++ lengthBytes (whole++tail).length) := by
  have hl : (whole++tail).length=64*q+tail.length := by rw [length_append,hw]
  have hz : (55+64-(whole++tail).length%64)%64=56-(tail.length+1) := by omega
  have hpad : shaPadded (whole++tail)=whole++(tail++[0x80]++
      List.replicate (56-(tail.length+1)) 0++lengthBytes (whole++tail).length) := by
    rw [shaPadded,hz]
    simp
  have hb : (tail++[0x80]++List.replicate (56-(tail.length+1)) 0++
      lengthBytes (whole++tail).length).length=64 := by
    simp only [length_append,length_singleton,length_replicate,lengthBytes_length]
    omega
  have hn : (shaPadded (whole++tail)).length/64=q+1 := by
    rw [hpad,length_append,hw,hb]
    omega
  rw [shaWordsOf,hn,hpad,hashBlocks_block hw hb]

theorem shaWordsOf_long {q : Nat} (hw : whole.length=64*q)
    (hs : 56 ≤ tail.length) (ht : tail.length < 64) : shaWordsOf (whole++tail)=
      compress (compress (hashBlocks q initialWords whole)
        (tail++[0x80]++List.replicate (64-(tail.length+1)) 0))
        (List.replicate 56 0++lengthBytes (whole++tail).length) := by
  have hl : (whole++tail).length=64*q+tail.length := by rw [length_append,hw]
  have hz : (55+64-(whole++tail).length%64)%64=(64-(tail.length+1))+56 := by omega
  have hpad : shaPadded (whole++tail)=(whole++(tail++[0x80]++
      List.replicate (64-(tail.length+1)) 0))++
      (List.replicate 56 0++lengthBytes (whole++tail).length) := by
    rw [shaPadded,hz,replicate_add]
    simp
  have hb1 : (tail++[0x80]++List.replicate (64-(tail.length+1)) (0 : UInt8)).length=64 := by
    simp only [length_append,length_singleton,length_replicate]
    omega
  have hb2 : (List.replicate 56 0++lengthBytes (whole++tail).length).length=64 := by
    rw [length_append,length_replicate,lengthBytes_length]
  have hw2 : (whole++(tail++[0x80]++List.replicate (64-(tail.length+1)) 0)).length=
      64*(q+1) := by
    rw [length_append,hb1]
    omega
  have hn : (shaPadded (whole++tail)).length/64=q+1+1 := by
    rw [hpad,length_append,hw2,hb2]
    omega
  rw [shaWordsOf,hn,hpad,hashBlocks_block hw2 hb2,hashBlocks_block hw hb1]

theorem digestHex_eq (h : Digests s data) : s.digestHex=sha256 data := by
  obtain ⟨q,whole,hd,hw,hs,hst⟩ := h.absorbed
  have hl : (s.buffer++[(0x80 : UInt8)]).length=s.buffer.length+1 := by
    rw [length_append,length_singleton]
  rw [StreamingSha256.digestHex,sha256,StreamingSha256.finish,h.finished,h.bytes,hd]
  simp only [Bool.false_eq_true,if_false,hl]
  by_cases hbig : s.buffer.length+1 > 56
  · rw [if_pos hbig,shaWordsOf_long hw (by omega) hs,hst]
    rfl
  · rw [if_neg hbig,shaWordsOf_short hw (by omega),hst]
    simp only [hl]

theorem hexDigit_ascii {n : Nat} (h : n < 16) : (hexDigit n).toNat < 0x80 := by
  interval_cases n <;> decide

theorem sha256_ascii (data : List UInt8) : isAscii (sha256 data)=true := by
  refine all_eq_true.mpr fun u hu => ?_
  obtain ⟨w,-,hw⟩ := mem_flatMap.mp hu
  obtain ⟨shift,-,rfl⟩ := mem_map.mp hw
  simpa using hexDigit_ascii (Nat.mod_lt _ (by decide))

theorem sha256_length (data : List UInt8) : (sha256 data).length=64 := by
  simp [sha256,ShaWords.hex,hex8]

end CardKeepr.Shared
