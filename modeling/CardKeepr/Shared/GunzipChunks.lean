import Mathlib.Data.List.GetD
import CardKeepr.Shared.GunzipCalls

namespace CardKeepr.Shared.Gunzip
open Lib Steps

variable {p bit : Nat}

def fourBytes (at' : Nat → Nat) : Nat := at' 0+at' 1*2^8+at' 2*2^16+at' 3*2^24

/-- `word` of a source that is buffered whole; behind its end are zeros. -/
def dataWord (data : List UInt8) (bit : Nat) : Nat :=
  fourBytes (fun i => (data.getD (bit/8+i) 0).toNat)/2^(bit%8)

theorem fourBytes_bits {f f' : Nat → Nat} {skipped count : Nat} (hs : skipped < 8) (hc : count ≤ 15)
    (h : ∀i,i*8 < skipped+count → f i=f' i) :
    fourBytes f/2^skipped%2^count=fourBytes f'/2^skipped%2^count := by
  have hmod : ∀x : Nat,x/2^skipped%2^count=x%2^(skipped+count)/2^skipped := by
    intro x
    rw [Nat.pow_add,Nat.mod_mul_right_div_self]
  rw [hmod,hmod]
  congr 1
  have hcut : ∀m n,m ≤ n → ∀a b : Nat,(a+b*2^n)%2^m=a%2^m := by
    intro m n hmn a b
    obtain ⟨k,rfl⟩ := Nat.exists_eq_add_of_le hmn
    rw [Nat.pow_add,Nat.mul_left_comm,Nat.add_mul_mod_self_left]
  by_cases h0 : skipped+count=0
  · rw [h0,pow_zero,Nat.mod_one,Nat.mod_one]
  have e0 := h 0 (by omega)
  unfold fourBytes
  by_cases h8 : skipped+count ≤ 8
  · rw [hcut _ 24 (by omega),hcut _ 24 (by omega),hcut _ 16 (by omega),hcut _ 16 (by omega),
      hcut _ 8 h8,hcut _ 8 h8,e0]
  have e1 := h 1 (by omega)
  by_cases h16 : skipped+count ≤ 16
  · rw [hcut _ 24 (by omega),hcut _ 24 (by omega),hcut _ 16 h16,hcut _ 16 h16,e0,e1]
  have e2 := h 2 (by omega)
  rw [hcut _ 24 (by omega),hcut _ 24 (by omega),e0,e1,e2]

section
variable {source : GunzipSource} {data : List UInt8} {fuel : Nat} {g : ResumableGunzip}
variable {g' : ResumableGunzip} {literal distance : Table}
  {b k o p b' bit count start position : Nat}

theorem word_bits (hserves : Serves source data) (hw : Window source g)
    (hc : count ≤ 15) (hin : g.bit+count ≤ g.bufferEnd*8 ∨ source.length ≤ g.bufferEnd) :
    g.word%2^count=dataWord data g.bit%2^count := by
  have hstart := hw.start
  have hstop := hw.stop
  have hbytes := hw.bytes data hserves
  have hlength := hserves.length
  unfold ResumableGunzip.bufferEnd at hin hstop
  show fourBytes (fun i => (g.buffer.getD (g.bit/8-g.bufferStart+i) 0).toNat)/2^(g.bit%8)%2^count=
    fourBytes (fun i => (data.getD (g.bit/8+i) 0).toNat)/2^(g.bit%8)%2^count
  refine fourBytes_bits (Nat.mod_lt g.bit (by decide)) hc fun i hi => ?_
  have hget : ∀j,g.bufferStart+j < g.bufferStart+g.buffer.length →
      g.buffer.getD j 0=data.getD (g.bufferStart+j) 0 := by
    intro j hj
    have hcopy : g.buffer.getD j 0=((data.drop g.bufferStart).take g.buffer.length).getD j 0 := by
      rw [←hbytes]
    rw [hcopy,List.getD_eq_getElem?_getD,List.getD_eq_getElem?_getD,
      List.getElem?_take_of_lt (by omega),List.getElem?_drop]
  have hindex : g.bufferStart+(g.bit/8-g.bufferStart+i)=g.bit/8+i := by omega
  by_cases hj : g.bit/8+i < g.bufferStart+g.buffer.length
  · rw [hget _ (by omega),hindex]
  · have hover : source.length ≤ g.bufferStart+g.buffer.length := by
      rcases hin with hin | hin
      · omega
      · exact hin
    rw [List.getD_eq_default _ _ (by omega),List.getD_eq_default _ _ (by omega)]

/-- The symbol of the code at a bit of the source, with the bit after it. -/
def codeAt (data : List UInt8) (t : Table) (bit : Nat) : Option (Nat × Nat) :=
  let entry := t.entries.getD (dataWord data bit%2^t.bits) 0
  if entry=0 then none else some (entry/16,bit+entry%16)

/-- The output length of the symbol at a bit of the source, with the bit after it; `none` where the
block ends. -/
def outputAt (data : List UInt8) (literal distance : Table) (bit : Nat) : Option (Nat × Nat) := do
  let (symbol,bit) ← codeAt data literal bit
  if symbol < 256 then some (1,bit)
  else if symbol=256 then none
  else
    let index := symbol-257
    let extra := lengthExtra.getD index 0
    let length := lengthBase.getD index 0+dataWord data bit%2^extra
    let (distanceSymbol,bit) ← codeAt data distance (bit+extra)
    some (length,bit+distanceExtra.getD distanceSymbol 0)

/-- The cursor is further on, over the same bytes. -/
structure Moved (g g' : ResumableGunzip) : Prop where
  buffer : g'.buffer=g.buffer
  start : g'.bufferStart=g.bufferStart
  bit : g.bit ≤ g'.bit

theorem Moved.rfl : Moved g g := ⟨.refl _,.refl _,le_refl _⟩

theorem Moved.window (h : Moved g g') (hw : Window source g) : Window source g' where
  start := by
    have hstart := hw.start
    have hbit := h.bit
    rw [h.start]
    omega
  stop := by
    have hstop := hw.stop
    unfold ResumableGunzip.bufferEnd at hstop ⊢
    rw [h.start,h.buffer]
    exact hstop
  bytes data hserves := by
    rw [h.start,h.buffer]
    exact hw.bytes data hserves

theorem Moved.skip (h : Moved g g') (count : Nat) : Moved g { g' with bit := g'.bit+count } :=
  ⟨h.buffer,h.start,h.bit.trans (Nat.le_add_right _ _)⟩

def Ahead (source : GunzipSource) (g : ResumableGunzip) (count : Nat) : Prop :=
  g.bit+count ≤ g.bufferEnd*8 ∨ source.length ≤ g.bufferEnd

theorem Ahead.mono {count count' : Nat} (h : Ahead source g count) (hle : count' ≤ count) :
    Ahead source g count' := h.imp_left fun h => by omega

theorem Ahead.skip {skipped : Nat} (h : Ahead source g (skipped+count)) :
    Ahead source { g with bit := g.bit+skipped } count := by
  refine h.imp_left fun h => ?_
  show g.bit+skipped+count ≤ g.bufferEnd*8
  omega

theorem readCode_gives (hserves : Serves source data) (hw : Window source g) {t : Table}
    (ht : t.Good) (hahead : Ahead source g (15+count)) :
    (readCode t).Gives g fun symbol g' => codeAt data t g.bit=some (symbol,g'.bit) ∧ Moved g g' ∧
      g'.out=g.out ∧ Ahead source g' count := by
  have hbits := word_bits hserves hw ht.bits (hahead.mono (by have h := ht.bits; omega))
  unfold readCode
  refine Gives.bind (Gives.bind (gives_get (gives_pure ?_)))
  rw [hbits]
  refine Gives.bind (gives_check fun hne => Gives.bind (gives_modify (gives_pure ?_)))
  have hne := of_decide_eq_true hne
  refine ⟨?_,Moved.rfl.skip _,rfl,?_⟩
  · unfold codeAt
    dsimp only
    rw [if_neg hne]
  · exact (hahead.mono (by omega)).skip

theorem readExtended_gives (hserves : Serves source data) (hw : Window source g)
    {base extra : List Nat} {index : Nat} (hextra : extra.getD index 0 ≤ 13)
    (hahead : Ahead source g (13+count)) : (readExtended base extra index).Gives g fun v g' =>
    v=base.getD index 0+dataWord data g.bit%2^extra.getD index 0 ∧ g'.bit=g.bit+extra.getD index 0 ∧
    Moved g g' ∧ Ahead source g' count := by
  have hbits := word_bits hserves hw (show extra.getD index 0 ≤ 15 by omega) (hahead.mono (by omega))
  unfold readExtended readBits peek
  refine Gives.bind (Gives.bind (Gives.bind (gives_get (gives_pure ?_))))
  refine Gives.bind (gives_modify (gives_pure (gives_pure ⟨?_,rfl,Moved.rfl.skip _,?_⟩)))
  · rw [hbits]
  · exact (hahead.mono (by omega)).skip

theorem extra_le (index : Nat) : lengthExtra.getD index 0 ≤ 5 ∧ distanceExtra.getD index 0 ≤ 13 := by
  have hall : ∀l : List Nat,∀m,(∀x∈l,x ≤ m) → l.getD index 0 ≤ m := by
    intro l m hl
    rw [List.getD_eq_getElem?_getD]
    cases hget : l[index]? with
    | none => exact Nat.zero_le m
    | some x => exact hl x (List.mem_of_getElem? hget)
  exact ⟨hall lengthExtra 5 (by decide),hall distanceExtra 13 (by decide)⟩

theorem copyMatch_moves {back length : Nat} :
    (copyMatch back length position).Gives g fun _ g' => Moved g g' ∧ g'.bit=g.bit := by
  induction length generalizing g position with
  | zero => exact gives_pure ⟨.rfl,rfl⟩
  | succ length ih =>
    unfold copyMatch
    refine Gives.bind (gives_get (Gives.bind (gives_modify (ih.mono ?_))))
    rintro _ g' ⟨hm,hb⟩
    exact ⟨⟨hm.buffer,hm.start,hm.bit⟩,hb⟩

theorem checkTruncation_gives {Q : Unit → ResumableGunzip → Prop} (h : Q () g) :
    (checkTruncation source).Gives g Q := Gives.bind (gives_get (gives_check fun _ => h))

theorem symbolStep_gives (hserves : Serves source data) (hw : Window source g) (hl : literal.Good) (hd : distance.Good)
    (hahead : Ahead source g symbolLookaheadBits) (atEnd : Bool) (position : Nat) :
    (symbolStep source literal distance atEnd position).Gives g fun r g' => Moved g g' ∧
      (r.2=false → ∃n,r.1=position+n ∧ outputAt data literal distance g.bit=some (n,g'.bit)) ∧
      (r.2=true → r.1=position ∧ outputAt data literal distance g.bit=none) := by
  have hmany : symbolLookaheadBits=15+(13+(15+(13+40))) := by decide
  rw [hmany] at hahead
  unfold symbolStep
  refine Gives.bind ((readCode_gives hserves hw hl hahead).mono ?_)
  rintro symbol g₁ ⟨hcode,hm₁,-,ha₁⟩
  have hw₁ := hm₁.window hw
  refine gives_ite (fun hless => ?_) fun hmore => gives_ite (fun heq => ?_) fun hne => ?_
  · refine Gives.bind (gives_modify (gives_pure ⟨⟨hm₁.buffer,hm₁.start,hm₁.bit⟩,fun _ => ⟨1,rfl,?_⟩,by simp⟩))
    unfold outputAt
    rw [hcode,Option.bind_eq_bind,Option.bind_some]
    dsimp only
    rw [if_pos hless]
  · refine Gives.bind (gives_modify (Gives.bind (checkTruncation_gives (gives_pure ?_))))
    refine ⟨⟨hm₁.buffer,hm₁.start,hm₁.bit⟩,by simp,fun _ => ⟨rfl,?_⟩⟩
    unfold outputAt
    rw [hcode,Option.bind_eq_bind,Option.bind_some]
    dsimp only
    rw [if_neg hmore,if_pos heq]
  · have hout : outputAt data literal distance g.bit=(do
        let (distanceSymbol,bit) ← codeAt data distance (g₁.bit+lengthExtra.getD (symbol-257) 0)
        some (lengthBase.getD (symbol-257) 0+dataWord data g₁.bit%2^lengthExtra.getD (symbol-257) 0,
          bit+distanceExtra.getD distanceSymbol 0)) := by
      unfold outputAt
      rw [hcode,Option.bind_eq_bind,Option.bind_some]
      dsimp only
      rw [if_neg hmore,if_neg hne]
    dsimp only
    generalize symbol-257=index at hout ⊢
    refine Gives.bind (gives_check fun _ => ?_)
    refine Gives.bind ((readExtended_gives hserves hw₁ ((extra_le index).1.trans (by decide)) ha₁).mono ?_)
    rintro length g₂ ⟨hlength,hb₂,hm₂,ha₂⟩
    have hw₂ := hm₂.window hw₁
    refine Gives.bind ((readCode_gives hserves hw₂ hd ha₂).mono ?_)
    rintro distanceSymbol g₃ ⟨hcode₃,hm₃,-,ha₃⟩
    have hw₃ := hm₃.window hw₂
    refine Gives.bind (gives_check fun _ => ?_)
    refine Gives.bind ((readExtended_gives hserves hw₃ (extra_le distanceSymbol).2 ha₃).mono ?_)
    rintro back g₄ ⟨-,hb₄,hm₄,-⟩
    refine Gives.bind (gives_check fun _ => Gives.bind (copyMatch_moves.mono ?_))
    rintro _ g₅ ⟨hm₅,hb₅⟩
    rw [←hb₂,hcode₃,Option.bind_eq_bind,Option.bind_some] at hout
    have hlast : Moved g g₅ ∧
        ((false : Bool)=false → ∃n,position+length=position+n ∧
          outputAt data literal distance g.bit=some (n,g₅.bit)) ∧
        ((false : Bool)=true → position+length=position ∧
          outputAt data literal distance g.bit=none) := by
      refine ⟨⟨?_,?_,?_⟩,fun _ => ⟨length,rfl,?_⟩,by simp⟩
      · rw [hm₅.buffer,hm₄.buffer,hm₃.buffer,hm₂.buffer,hm₁.buffer]
      · rw [hm₅.start,hm₄.start,hm₃.start,hm₂.start,hm₁.start]
      · exact hm₁.bit.trans (hm₂.bit.trans (hm₃.bit.trans (hm₄.bit.trans hm₅.bit)))
      · rw [hout,hlength,hb₅,hb₄]
    refine Gives.bind (gives_when (fun _ => checkTruncation_gives (gives_pure hlast)) fun _ => gives_pure hlast)

/-- After so many symbols: the bit of the source, and the length of their output. -/
def emitted (data : List UInt8) (literal distance : Table) (bit : Nat) : Nat → Option (Nat × Nat)
  | 0 => some (bit,0)
  | k+1 => do
    let (bit,output) ← emitted data literal distance bit k
    let (length,bit) ← outputAt data literal distance bit
    some (bit,output+length)

/-- The output from `position` to `p` is that of symbols, each begun below the limit. -/
def Decoded (data : List UInt8) (literal distance : Table) (start position p bit : Nat) : Prop :=
  ∃k,emitted data literal distance start k=some (bit,p-position) ∧ position ≤ p ∧
    ∀j < k,∀b o,emitted data literal distance start j=some (b,o) → position+o < codesLimit

theorem Decoded.none (data : List UInt8) (literal distance : Table) (start position : Nat) :
    Decoded data literal distance start position position start :=
  ⟨0,by rw [Nat.sub_self]; rfl,le_refl _,fun j hj => by omega⟩

theorem Decoded.next {literal distance : Table} {start position p bit : Nat}
    (h : Decoded data literal distance start position p bit) (hp : p < codesLimit) {n bit' : Nat}
    (ho : outputAt data literal distance bit=some (n,bit')) :
    Decoded data literal distance start position (p+n) bit' := by
  obtain ⟨k,hk,hle,hbelow⟩ := h
  refine ⟨k+1,?_,by omega,?_⟩
  · rw [emitted,hk,Option.bind_eq_bind,Option.bind_some]
    dsimp only
    rw [ho,Option.bind_some]
    dsimp only
    rw [Nat.sub_add_comm hle]
  · intro j hj b o hb
    by_cases hlast : j=k
    · rw [hlast,hk] at hb
      obtain ⟨-,rfl⟩ := Prod.mk.inj (Option.some.inj hb)
      omega
    · exact hbelow j (by omega) b o hb

theorem symbols_gives (hserves : Serves source data) (hw : Window source g) (hl : literal.Good) (hd : distance.Good)
    (hdec : Decoded data literal distance start position p g.bit) :
    (symbols source fuel literal distance ((g.bufferEnd*8 : Nat)-(symbolLookaheadBits : Int))
      (decide (source.length ≤ g.bufferEnd)) p).Gives g fun r g' => Window source g' ∧
        (r.2=false → Decoded data literal distance start position r.1 g'.bit) ∧
        (r.2=true → ∃b,Decoded data literal distance start position r.1 b ∧
          outputAt data literal distance b=none) := by
  unfold symbols
  refine gives_loop (fun p h => Moved g h ∧ Decoded data literal distance start position p h.bit)
    ?_ fuel ⟨.rfl,hdec⟩
  rintro p h ⟨hm,hdec⟩
  have hwh := hm.window hw
  refine Gives.bind (gives_get (gives_ite (fun hyes => ?_) fun _ => gives_pure ⟨hwh,fun _ => hdec,by simp⟩))
  have hend : h.bufferEnd=g.bufferEnd := by
    unfold ResumableGunzip.bufferEnd
    rw [hm.start,hm.buffer]
  have hahead : Ahead source h symbolLookaheadBits := by
    unfold Ahead
    rw [hend]
    refine hyes.2.imp (fun hb => ?_) fun hb => of_decide_eq_true hb
    omega
  refine Gives.bind ((symbolStep_gives hserves hwh hl hd hahead _ p).mono ?_)
  rintro ⟨p',ended⟩ h' ⟨hm',hfalse,htrue⟩
  have hmoved : Moved g h' :=
    ⟨hm'.buffer.trans hm.buffer,hm'.start.trans hm.start,hm.bit.trans hm'.bit⟩
  cases ended with
  | true =>
    obtain ⟨rfl,hnone⟩ := htrue rfl
    exact gives_pure ⟨hm'.window hwh,by simp,fun _ => ⟨h.bit,hdec,hnone⟩⟩
  | false =>
    obtain ⟨n,rfl,ho⟩ := hfalse rfl
    exact gives_pure ⟨hmoved,hdec.next hyes.1 ho⟩

theorem codesTurn_gives (hf : source.length < fuel) (hserves : Serves source data)
    (hw : Window source g) (hl : literal.Good) (hd : distance.Good) (hdec : Decoded data literal distance start position p g.bit) :
    (codesTurn source fuel literal distance p).Gives g fun r g' => Window source g' ∧
      (r.2=false → Decoded data literal distance start position r.1 g'.bit) ∧
      (r.2=true → ∃b,Decoded data literal distance start position r.1 b ∧
        outputAt data literal distance b=none) := by
  have hrest : ∀g₁,Window source g₁ → g₁.bit=g.bit →
      Gives (do
        let g ← get
        let bufferEnd : Int := (g.bufferEnd*8 : Nat)-(symbolLookaheadBits : Int)
        let atEnd := decide (source.length ≤ g.bufferEnd)
        let r ← symbols source fuel literal distance bufferEnd atEnd p
        if r.2 then return r
        else
          checkTruncation source
          check (decide ((← get).bit≠g.bit)) .stalled
          return r) g₁ fun r g' => Window source g' ∧
            (r.2=false → Decoded data literal distance start position r.1 g'.bit) ∧
            (r.2=true → ∃b,Decoded data literal distance start position r.1 b ∧
              outputAt data literal distance b=none) := by
    intro g₁ hw₁ hb₁
    rw [←hb₁] at hdec
    refine Gives.bind (gives_get (Gives.bind ((symbols_gives hserves hw₁ hl hd hdec).mono ?_)))
    intro r g₂ hr
    refine gives_ite (fun _ => gives_pure hr) fun _ => ?_
    refine Gives.bind (checkTruncation_gives (Gives.bind (gives_get (Gives.bind ?_))))
    exact gives_check fun _ => gives_pure hr
  unfold codesTurn
  refine Gives.bind (gives_get (Gives.bind (gives_when (fun _ => ?_) fun _ => hrest g hw rfl)))
  refine Gives.bind (Gives.bind (gives_get ((ensure_grown hf hw _).gives.mono ?_)))
  rintro more g₁ ⟨hg,-,-⟩
  refine gives_when (fun _ => ?_) fun _ => hrest g₁ hg.window hg.bit
  exact Gives.bind (gives_get (gives_check fun _ => hrest g₁ hg.window hg.bit))

theorem codes_gives (hf : source.length < fuel) (hserves : Serves source data) (hs : Sound source g)
    (hl : g.literal=some literal) (hd : g.distance=some distance) (position : Nat) :
    (codes source fuel position).Gives g fun p _ => ∃b, Decoded data literal distance g.bit position
    p b ∧ (codesLimit ≤ p ∨ outputAt data literal distance b=none) := by
  have hlg := hs.literal literal hl
  have hdg := hs.distance distance hd
  unfold codes
  refine Gives.bind (gives_get ?_)
  rw [hl,hd]
  dsimp only
  refine gives_loop (fun p h => Window source h ∧
    Decoded data literal distance g.bit position p h.bit) ?_ fuel
      ⟨hs.window,.none data literal distance g.bit position⟩
  rintro p h ⟨hw,hdec⟩
  refine gives_ite (fun _ => ?_) fun hover => gives_pure ⟨h.bit,hdec,.inl (by omega)⟩
  refine Gives.bind ((codesTurn_gives hf hserves hw hlg hdg hdec).mono ?_)
  rintro ⟨p',ended⟩ h' ⟨hw',hfalse,htrue⟩
  cases ended with
  | true =>
    obtain ⟨b,hb,hnone⟩ := htrue rfl
    exact gives_pure ⟨b,hb,.inr hnone⟩
  | false => exact gives_pure ⟨hw',hfalse rfl⟩

theorem storedBytes_gives (hf : source.length < fuel) (hs : Sound source g) (position : Nat) :
    (storedBytes source fuel position).Gives g fun p _ => p ≤ position+65535 := by
  have hrest : ∀g₁,Grown source g g₁ → Gives (do
      let g ← get
      let count := (min (min (g.stored : Int) g.available)
        ((outBytes : Int)-maximumMatch-position)).toNat
      let from' := g.bit/8-g.bufferStart
      writeBytes position ((g.buffer.drop from').take count)
      skip (count*8)
      modify fun g => { g with stored := g.stored-count }
      modify fun g => { g with
        phase := if g.stored=0 then (if g.final then .trailer else .block) else g.phase }
      return position+count) g₁ fun p _ => p ≤ position+65535 := by
    intro g₁ hg
    have hcount := (hg.sound hs).count
    refine Gives.bind (gives_get (Gives.bind fun _ g₂ _ => ?_))
    refine Gives.bind (gives_modify (Gives.bind (gives_modify (Gives.bind (gives_modify (gives_pure ?_))))))
    omega
  unfold storedBytes
  refine Gives.bind (gives_get (Gives.bind (gives_when (fun _ => ?_) fun _ => hrest g (.rfl hs.window))))
  refine Gives.bind ((ensure_grown hf hs.window 1).gives.mono ?_)
  rintro more g₁ ⟨hg,-,-⟩
  exact gives_check fun _ => hrest g₁ hg

theorem emitted_before {j : Nat} (hjk : j ≤ k)
    (h : emitted data literal distance bit k=some (b,o)) :
    ∃b' o',emitted data literal distance bit j=some (b',o') ∧ o' ≤ o := by
  induction hjk generalizing b o with
  | refl => exact ⟨b,o,h,le_refl _⟩
  | step _ ih =>
    rw [emitted,Option.bind_eq_bind,Option.bind_eq_some_iff] at h
    obtain ⟨⟨b₁,o₁⟩,h₁,h⟩ := h
    rw [Option.bind_eq_some_iff] at h
    obtain ⟨⟨n,b₂⟩,-,h⟩ := h
    obtain ⟨-,rfl⟩ := Prod.mk.inj (Option.some.inj h)
    obtain ⟨b',o',hj,hle⟩ := ih h₁
    exact ⟨b',o',hj,by omega⟩

theorem emitted_succ {n : Nat} (h : emitted data literal distance bit k=some (b,o))
    (ho : outputAt data literal distance b=some (n,b')) :
    emitted data literal distance bit (k+1)=some (b',o+n) := by
  rw [emitted,h,Option.bind_eq_bind,Option.bind_some]
  dsimp only
  rw [ho,Option.bind_some]

theorem emitted_pred {o' : Nat} (h : emitted data literal distance bit (k+1)=some (b',o')) :
    ∃b o n,emitted data literal distance bit k=some (b,o) ∧
      outputAt data literal distance b=some (n,b') ∧ o'=o+n := by
  rw [emitted,Option.bind_eq_bind,Option.bind_eq_some_iff] at h
  obtain ⟨⟨b,o⟩,h₁,h⟩ := h
  rw [Option.bind_eq_some_iff] at h
  obtain ⟨⟨n,b₂⟩,h₂,h⟩ := h
  obtain ⟨rfl,rfl⟩ := Prod.mk.inj (Option.some.inj h)
  exact ⟨b,o,n,h₁,h₂,rfl⟩

/-- Each symbol of the rest of the block that begins below the limit ends within the bound. -/
def Fits (data : List UInt8) (start : Nat) (g : ResumableGunzip) : Prop :=
  g.phase=.codes → ∀literal distance,g.literal=some literal → g.distance=some distance →
    ∀k b o n b',emitted data literal distance g.bit k=some (b,o) → start+o < codesLimit →
      outputAt data literal distance b=some (n,b') → o+n ≤ gunzipChunkBytes+maximumMatch

theorem decoded_fits (hdec : Decoded data literal distance bit position p b)
    (hend : codesLimit ≤ p ∨ outputAt data literal distance b=none) (bound : Nat) :
    p-position ≤ bound ↔ ∀k b o n b',emitted data literal distance bit k=some (b,o) →
      position+o < codesLimit → outputAt data literal distance b=some (n,b') → o+n ≤ bound := by
  obtain ⟨last,hlast,hle,hbelow⟩ := hdec
  constructor
  · intro hp k b₁ o n b₂ hk hless ho
    have hnext := emitted_succ hk ho
    rcases Nat.lt_trichotomy k last with hlt | rfl | hgt
    · -- a symbol of the call
      obtain ⟨b',o',h',hle'⟩ := emitted_before hlt hlast
      rw [hnext] at h'
      obtain ⟨-,rfl⟩ := Prod.mk.inj (Option.some.inj h')
      omega
    · rw [hlast] at hk
      obtain ⟨rfl,rfl⟩ := Prod.mk.inj (Option.some.inj hk)
      rcases hend with hend | hend
      · omega
      · rw [hend] at ho
        cases ho
    · -- behind the end of the call
      obtain ⟨b',o',h',hle'⟩ := emitted_before hgt hk
      obtain ⟨b₃,o₃,n₃,h₃,ho₃,rfl⟩ := emitted_pred h'
      rw [hlast] at h₃
      obtain ⟨rfl,rfl⟩ := Prod.mk.inj (Option.some.inj h₃)
      rcases hend with hend | hend
      · omega
      · rw [hend] at ho₃
        cases ho₃
  · intro hfits
    cases last with
    | zero =>
      obtain ⟨-,hzero⟩ := Prod.mk.inj (Option.some.inj hlast)
      omega
    | succ k =>
      obtain ⟨b₁,o,n,hk,ho,heq⟩ := emitted_pred hlast
      have hless := hbelow k (Nat.lt_succ_self k) b₁ o hk
      have hfit := hfits k b₁ o n b hk hless ho
      omega

/-- The state from which the output of a call comes: before it, phases end without any. -/
def opening (source : GunzipSource) (fuel start : Nat) : Nat → ResumableGunzip → Option ResumableGunzip
  | 0,_ => none
  | turns+1,g => match phaseStep source fuel start g with
    | some (.ok (some position),g') => if position=start then opening source fuel start turns g' else some g
    | _ => none

theorem phaseStep_fits (hf : source.length < fuel) (hserves : Serves source data)
    (hs : Sound source g) (h : phaseStep source fuel start g=some (.ok (some p),g'))
    (hne : p≠start) : p-start ≤ gunzipChunkBytes+maximumMatch ↔ Fits data start g := by
  unfold phaseStep at h
  obtain ⟨_,_,hget,h⟩ := bind_returned h
  cases hget
  cases hp : g.phase with
  | «end» =>
    rw [hp] at h
    cases h
  | header =>
    rw [hp] at h
    obtain ⟨_,_,-,h⟩ := bind_returned h
    cases h
    exact (hne rfl).elim
  | block =>
    rw [hp] at h
    obtain ⟨_,_,-,h⟩ := bind_returned h
    cases h
    exact (hne rfl).elim
  | stored =>
    rw [hp] at h
    obtain ⟨p',_,hstored,h⟩ := bind_returned h
    cases h
    have hle := storedBytes_gives hf hs start _ _ hstored
    have hbound : 65535 ≤ gunzipChunkBytes+maximumMatch := by decide
    constructor
    · intro _ hcodes
      rw [hp] at hcodes
      cases hcodes
    · intro _
      omega
  | codes =>
    rw [hp] at h
    obtain ⟨p',_,hcodes,h⟩ := bind_returned h
    cases h
    obtain ⟨⟨literal,hl⟩,distance,hd⟩ := hs.codes hp
    obtain ⟨b,hdec,hend⟩ := codes_gives hf hserves hs hl hd start _ _ hcodes
    rw [decoded_fits hdec hend]
    constructor
    · intro hall _ l d hl' hd'
      rw [hl] at hl'
      rw [hd] at hd'
      obtain rfl := Option.some.inj hl'
      obtain rfl := Option.some.inj hd'
      exact hall
    · intro hfits
      exact hfits hp literal distance hl hd
  | trailer =>
    rw [hp] at h
    obtain ⟨_,_,-,h⟩ := bind_returned h
    cases h

theorem opening_step (hfuel : enoughFuel source ≤ fuel) (hstart : start ≤ historyBytes)
    (turns : Nat) (hs : Sound source g)
    (h : loop turns (fun _ : Unit => do
      match ← phaseStep source fuel start with
      | none => return .inr none
      | some position => if position=start then return .inl () else return .inr (some position)) () g=
        some (.ok (some p),g')) :
    ∃g₁,opening source fuel start turns g=some g₁ ∧ Sound source g₁ ∧
      phaseStep source fuel start g₁=some (.ok (some p),g') ∧ p≠start := by
  have hlimits := hfuel
  unfold enoughFuel at hlimits
  induction turns generalizing g with
  | zero => cases h
  | succ turns ih =>
    obtain ⟨r,g₁,hbody,h⟩ := bind_returned h
    obtain ⟨q,g₂,hstep,hbody⟩ := bind_returned hbody
    unfold opening
    rw [hstep]
    cases q with
    | none =>
      cases hbody
      cases h
    | some q =>
      dsimp only at hbody ⊢
      split at hbody
      · rename_i heq
        cases hbody
        rw [if_pos heq]
        have hsound := (phaseStep_ends (by omega) (by omega) hs hstart).returned hstep
        exact ih hsound.1 h
      · rename_i hne
        cases hbody
        cases h
        rw [if_neg hne]
        exact ⟨g,rfl,hs,hstep,hne⟩

theorem emit_length :
    (emit source start position).Gives g fun chunk _ => chunk.length=position-start := by
  unfold emit
  refine Gives.bind (gives_get (Gives.bind (gives_modify (Gives.bind (gives_check fun _ => ?_)))))
  refine Gives.bind (gives_modify ?_)
  cases g.output.update ((List.range (position-start)).map fun i => g.out (start+i)) with
  | none => exact gives_fail
  | some output =>
    refine Gives.bind (gives_modify (gives_pure ?_))
    rw [List.length_map,List.length_range]

theorem emit_succeeds (hroom : g.decoded+(position-start) ≤ source.decompressedBytes)
    (hopen : g.output.finished=false) : (emit source start position).Ends g
    (fun chunk _ => chunk.length=position-start) fun _ _ => False := by
  unfold emit
  refine Ends.bind (ends_get (Ends.bind (ends_modify (Ends.bind (ends_check (fun _ => ?_) fun hno => ?_)))))
  · refine Ends.bind (ends_modify ?_)
    unfold StreamingSha256.update
    rw [hopen]
    refine Ends.bind (ends_modify (ends_pure ?_))
    rw [List.length_map,List.length_range]
  · refine of_decide_eq_false hno ?_
    rw [List.length_map,List.length_range]
    exact hroom

/-- The chunk of a call is within the bound exactly where the rest of the block fits. -/
theorem chunk_bound_iff (hfuel : enoughFuel source ≤ fuel) (hserves : Serves source data)
    (hg : Reached source fuel g) {chunk : List UInt8} {g' : ResumableGunzip}
    (h : next source fuel g=some (.ok (some chunk),g')) :
    chunk.length ≤ gunzipChunkBytes+maximumMatch ↔
      ∀g₁,opening source fuel g.history fuel g=some g₁ → Fits data g.history g₁ := by
  have hs := hg.sound hfuel
  have hlimits := hfuel
  unfold enoughFuel at hlimits
  unfold next at h
  obtain ⟨_,_,hget,h⟩ := bind_returned h
  cases hget
  obtain ⟨position,g₂,hloop,h⟩ := bind_returned h
  cases position with
  | none => cases h
  | some p =>
    obtain ⟨g₁,hopening,hs₁,hstep,hne⟩ := opening_step hfuel hs.history fuel hs hloop
    obtain ⟨chunk',g₃,hemit,h⟩ := bind_returned h
    cases h
    rw [emit_length _ _ hemit,phaseStep_fits (by omega) hserves hs₁ hstep hne,hopening]
    constructor
    · rintro hfits _ heq
      obtain rfl := Option.some.inj heq
      exact hfits
    · exact fun hall => hall g₁ rfl

end

def runsArchive : List UInt8 :=
  [0x1f,0x8b,8,0,0,0,0,0,0,3,237,192,129,0,0,0,0,128,32,214,253,37,22,169]++List.replicate 64 0++
    [6,42,224,28,187,1,2,1,0]

def runsSource : GunzipSource where
  length := 97
  sha256 := sha256 runsArchive
  decompressedBytes := 66049
  read := fun _ offset length => .ok ((runsArchive.drop offset).take length,[49])

def runsLiteral : Table := ⟨[4561,1554,4561,4098],2⟩

def runsDistance : Table := ⟨[1,0],1⟩

/-- The decoder at a bit of the block, before it has put out anything. -/
structure AtBit (bit : Nat) (g : ResumableGunzip) : Prop where
  buffer : g.buffer=runsArchive
  start : g.bufferStart=0
  bit : g.bit=bit
  fresh : g.decoded=0 ∧ g.history=0 ∧ g.output.finished=false

theorem AtBit.word {g : ResumableGunzip} (h : AtBit bit g) : g.word=dataWord runsArchive bit := by
  unfold ResumableGunzip.word dataWord fourBytes
  rw [h.buffer,h.start,h.bit,Nat.sub_zero]

theorem AtBit.written {g : ResumableGunzip} (h : AtBit bit g) (out : Nat → UInt8)
    (reach : Nat) : AtBit bit { g with out := out, reach := reach } :=
  ⟨h.buffer,h.start,h.bit,h.fresh⟩

theorem runs_bits : dataWord runsArchive 191%2^2=1 ∧ dataWord runsArchive 705%2^2=3 ∧
    ∀k < 256,dataWord runsArchive (193+2*k)%2^2=0 ∧ dataWord runsArchive (194+2*k)%2^1=0 := by
  decide +kernel

theorem runs_code (symbol length : Nat) {t : Table} {g : ResumableGunzip}
    (h : AtBit bit g) (hlength : 1 ≤ length ∧ length ≤ 15)
    (he : t.entries.getD (dataWord runsArchive bit%2^t.bits) 0=symbol*16+length)
    {Q : Nat → ResumableGunzip → Prop} {E : Failure → ResumableGunzip → Prop}
    (hQ : ∀g',AtBit (bit+length) g' → Q symbol g') : (readCode t).Ends g Q E := by
  unfold readCode
  refine Ends.bind (Ends.bind (ends_get (ends_pure ?_)))
  have hlow : (symbol*16+length)%16=length := by omega
  have hhigh : (symbol*16+length)/16=symbol := by omega
  rw [h.word,he]
  dsimp only
  rw [hlow,hhigh]
  refine Ends.bind (ends_check (fun _ => ?_) fun hno => ?_)
  · exact Ends.bind (ends_modify (ends_pure (hQ _ ⟨h.buffer,h.start,by show g.bit+_=_; rw [h.bit],h.fresh⟩)))
  · have hno := of_decide_eq_false hno
    omega

theorem runs_extended {base extra : List Nat} {index : Nat} {g : ResumableGunzip}
    (h : AtBit bit g) (hextra : extra.getD index 0=0) {Q : Nat → ResumableGunzip → Prop}
    {E : Failure → ResumableGunzip → Prop} (hQ : ∀g',AtBit bit g' → Q (base.getD index 0) g') :
    (readExtended base extra index).Ends g Q E := by
  unfold readExtended readBits peek
  rw [hextra]
  refine Ends.bind (Ends.bind (Ends.bind (ends_get (ends_pure ?_))))
  refine Ends.bind (ends_modify (ends_pure (ends_pure ?_)))
  rw [pow_zero,Nat.mod_one]
  exact hQ _ ⟨h.buffer,h.start,h.bit,h.fresh⟩

theorem copyMatch_written {back length position : Nat} {g : ResumableGunzip} (h : AtBit bit g)
    {E : Failure → ResumableGunzip → Prop} :
    (copyMatch back length position).Ends g (fun _ => AtBit bit) E := by
  induction length generalizing g position with
  | zero => exact ends_pure h
  | succ length ih =>
    unfold copyMatch
    exact Ends.bind (ends_get (Ends.bind (ends_modify (ih (h.written _ _)))))

theorem runs_literal {g : ResumableGunzip} (h : AtBit 191 g) :
    (symbolStep runsSource runsLiteral runsDistance true 0).Ends g
      (fun r g' => r=(1,false) ∧ AtBit 193 g') fun _ _ => False := by
  unfold symbolStep
  refine Ends.bind (runs_code 97 2 h (by decide) (by unfold runsLiteral; rw [runs_bits.1]; rfl) ?_)
  intro g₁ h₁
  refine ends_ite (fun _ => ?_) fun hno => (hno (by decide)).elim
  exact Ends.bind (ends_modify (ends_pure ⟨rfl,h₁.written _ _⟩))

theorem runs_match {k : Nat} (hk : k < 256) (hp : 1 ≤ p) {g : ResumableGunzip}
    (h : AtBit (193+2*k) g) : (symbolStep runsSource runsLiteral runsDistance true p).Ends g
    (fun r g' => r=(p+258,false) ∧ AtBit (193+2*(k+1)) g') fun _ _ => False := by
  obtain ⟨hcode,hcode'⟩ := runs_bits.2.2 k hk
  unfold symbolStep
  refine Ends.bind (runs_code 285 1 h (by decide) (by unfold runsLiteral; rw [hcode]; rfl) ?_)
  intro g₁ h₁
  have h₁ : AtBit (194+2*k) g₁ := by
    have hb : 194+2*k=193+2*k+1 := by omega
    rw [hb]
    exact h₁
  refine ends_ite (fun hno => absurd hno (by decide)) fun _ => ends_ite (fun hno => absurd hno (by decide)) fun _ => ?_
  simp only [Nat.reduceSub]
  refine Ends.bind (ends_check (fun _ => ?_) fun hno => absurd hno (by decide))
  refine Ends.bind (runs_extended h₁ (by decide) fun g₂ h₂ => ?_)
  have hlength : lengthBase.getD 28 0=258 := by decide
  generalize lengthBase.getD 28 0=length at hlength ⊢
  refine Ends.bind (runs_code 0 1 h₂ (by decide) (by unfold runsDistance; rw [hcode']; rfl) ?_)
  intro g₃ h₃
  refine Ends.bind (ends_check (fun _ => ?_) fun hno => absurd hno (by decide))
  refine Ends.bind (runs_extended h₃ (by decide) fun g₄ h₄ => ?_)
  refine Ends.bind (ends_check (fun _ => ?_) fun hno => ?_)
  · refine Ends.bind ((copyMatch_written h₄).post fun _ g₅ h₅ => ?_)
    have hlast : AtBit (193+2*(k+1)) g₅ := by
      have hb : 193+2*(k+1)=194+2*k+1 := by omega
      rw [hb]
      exact h₅
    refine Ends.bind (ends_when (fun _ => ?_) fun hno => absurd rfl hno)
    unfold checkTruncation
    refine Ends.bind (ends_get (ends_check (fun _ => ends_pure ⟨by rw [hlength],hlast⟩) fun hno => ?_))
    refine of_decide_eq_false hno ?_
    rw [hlast.bit]
    show 193+2*(k+1) ≤ 97*8
    omega
  · refine of_decide_eq_false hno ?_
    show 1 ≤ p
    exact hp

theorem runs_end {g : ResumableGunzip} (h : AtBit 705 g) :
    (symbolStep runsSource runsLiteral runsDistance true p).Ends g
      (fun r g' => r=(p,true) ∧ AtBit 707 g') fun _ _ => False := by
  unfold symbolStep
  refine Ends.bind (runs_code 256 2 h (by decide) (by unfold runsLiteral; rw [runs_bits.2.1]; rfl) ?_)
  intro g₁ h₁
  refine ends_ite (fun hno => absurd hno (by decide)) fun _ => ends_ite (fun _ => ?_) fun hno => (hno (by decide)).elim
  refine Ends.bind (ends_modify (Ends.bind ?_))
  unfold checkTruncation
  refine Ends.bind (ends_get (ends_check (fun _ => ends_pure ⟨rfl,h₁.buffer,h₁.start,h₁.bit,h₁.fresh⟩) fun hno => ?_))
  refine of_decide_eq_false hno ?_
  show g₁.bit ≤ 97*8
  rw [h₁.bit]
  decide

theorem runs_symbols {fuel : Nat} (hfuel : 66050 < fuel) {g : ResumableGunzip} (h : AtBit 191 g) :
    (symbols runsSource fuel runsLiteral runsDistance ((g.bufferEnd*8 : Nat)-(symbolLookaheadBits : Int))
      true 0).Ends g (fun r g' => r=(66049,true) ∧ AtBit 707 g') fun _ _ => False := by
  unfold symbols
  refine ends_loop (fun p h => p=0 ∧ AtBit 191 h ∨ ∃k ≤ 256,p=1+258*k ∧ AtBit (193+2*k) h)
    (fun p _ => 66050-p) ?_ (.inl ⟨rfl,h⟩) ?_
  · rintro p h (⟨rfl,h₀⟩ | ⟨k,hk,rfl,hk'⟩)
    · refine Ends.bind (ends_get (ends_ite (fun _ => ?_) fun hno => (hno ⟨by decide,.inr rfl⟩).elim))
      refine Ends.bind ((runs_literal h₀).post ?_)
      rintro r h' ⟨rfl,h₁⟩
      exact ends_pure ⟨.inr ⟨0,by omega,rfl,h₁⟩,by omega⟩
    · have hpos : 1+258*k < codesLimit := by
        show 1+258*k < 98304
        omega
      refine Ends.bind (ends_get (ends_ite (fun _ => ?_) fun hno => (hno ⟨hpos,.inr rfl⟩).elim))
      by_cases hlast : k=256
      · subst hlast
        refine Ends.bind ((runs_end hk').post ?_)
        rintro r h' ⟨rfl,h₁⟩
        exact ends_pure ⟨rfl,h₁⟩
      · refine Ends.bind ((runs_match (by omega) (by omega) hk').post ?_)
        rintro r h' ⟨rfl,h₁⟩
        exact ends_pure ⟨.inr ⟨k+1,by omega,by omega,h₁⟩,by omega⟩
  · exact hfuel

theorem runs_codes {fuel : Nat} (hfuel : 66050 < fuel) {g : ResumableGunzip} (h : AtBit 191 g)
    (hl : g.literal=some runsLiteral) (hd : g.distance=some runsDistance) :
    (codes runsSource fuel 0).Ends g (fun p g' => p=66049 ∧ AtBit 707 g') fun _ _ => False := by
  have hend : g.bufferEnd=97 := by
    unfold ResumableGunzip.bufferEnd
    rw [h.start,h.buffer]
    rfl
  have hfirst : (codesTurn runsSource fuel runsLiteral runsDistance 0).Ends g
      (fun r g' => r=(66049,true) ∧ AtBit 707 g') fun _ _ => False := by
    unfold codesTurn
    refine Ends.bind (ends_get (Ends.bind (ends_when (fun hno => ?_) fun _ => Ends.bind (ends_get ?_))))
    · have hlook : symbolLookaheadBits=96 := by rfl
      unfold ResumableGunzip.availableBits at hno
      rw [hend,h.bit,hlook] at hno
      omega
    · have hatEnd : decide (runsSource.length ≤ g.bufferEnd)=true := by
        rw [hend]
        rfl
      dsimp only
      rw [hatEnd]
      refine Ends.bind ((runs_symbols hfuel h).post ?_)
      rintro r g' ⟨rfl,h'⟩
      exact ends_ite (fun _ => ends_pure ⟨rfl,h'⟩) fun hno => (hno rfl).elim
  unfold codes
  refine Ends.bind (ends_get ?_)
  rw [hl,hd]
  dsimp only
  refine ends_loop (fun p h => p=0 ∧ h=g) (fun _ _ => 0) ?_ ⟨rfl,rfl⟩ (by omega)
  rintro p h' ⟨rfl,rfl⟩
  refine ends_ite (fun _ => ?_) fun hno => (hno (by decide)).elim
  refine Ends.bind (hfirst.post ?_)
  rintro r g' ⟨rfl,h''⟩
  exact ends_pure ⟨rfl,h''⟩

theorem runs_opened : ∃g₁ g₂, phaseStep runsSource (enoughFuel runsSource) 0 .new=some
    (.ok (some 0),g₁) ∧ phaseStep runsSource (enoughFuel runsSource) 0 g₁=some (.ok (some 0),g₂) ∧
    g₁.phase=.block ∧ g₂.phase=.codes ∧ g₂.literal=some runsLiteral ∧ g₂.distance=some
    runsDistance ∧ AtBit 191 g₂ := by
  have hrun : (((do
      let first ← phaseStep runsSource (enoughFuel runsSource) 0
      let between ← get
      let second ← phaseStep runsSource (enoughFuel runsSource) 0
      pure (first,between.phase,second) : Decode _) .new).any fun o =>
        decide (o.1.toOption=some (some 0,.block,some 0) ∧ o.2.phase=.codes ∧
          o.2.literal=some runsLiteral ∧ o.2.distance=some runsDistance ∧ o.2.buffer=runsArchive ∧
          o.2.bufferStart=0 ∧ o.2.bit=191 ∧ o.2.decoded=0 ∧ o.2.history=0 ∧
          o.2.output.finished=false))=true := by decide +kernel
  obtain ⟨⟨o,g₂⟩,h,hall⟩ := (Option.any_eq_true ..).mp hrun
  obtain ⟨hr,hphase,hl,hd,hbuffer,hstart,hbit,hfresh⟩ := of_decide_eq_true hall
  cases o with
  | error e => cases hr
  | ok r =>
    obtain ⟨first,g₁,h₁,h⟩ := bind_returned h
    obtain ⟨between,_,hget,h⟩ := bind_returned h
    cases hget
    obtain ⟨second,g₃,h₂,h⟩ := bind_returned h
    cases h
    obtain ⟨rfl,hrest⟩ := Prod.mk.inj (Option.some.inj hr)
    obtain ⟨hblock,rfl⟩ := Prod.mk.inj hrest
    exact ⟨g₁,g₂,h₁,h₂,hblock,hphase,hl,hd,hbuffer,hstart,hbit,hfresh⟩

theorem runs_next : ∃chunk g',next runsSource (enoughFuel runsSource) .new=some (.ok (some chunk),g') ∧
    chunk.length=66049 := by
  obtain ⟨g₁,g₂,h₁,h₂,hp₁,hp₂,hl,hd,hat⟩ := runs_opened
  have hfuel : 66050 < enoughFuel runsSource := by decide
  set fuel := enoughFuel runsSource
  obtain ⟨n,hn,hpos⟩ : ∃n,n=66049 ∧ 0 < n := ⟨66049,rfl,by decide⟩
  rw [←hn]
  have hloop : Ends (loop fuel (fun _ : Unit => do
      match ← phaseStep runsSource fuel 0 with
      | none => return .inr none
      | some position => if position=0 then return .inl () else return .inr (some position)) ())
      .new (fun r g' => r=some n ∧ AtBit 707 g') fun _ _ => False := by
    refine ends_loop (fun _ h => h=.new ∨ h=g₁ ∨ h=g₂)
      (fun _ h => if h.phase=.header then 2 else if h.phase=.block then 1 else 0) ?_ (.inl rfl) ?_
    · rintro _ h (rfl | rfl | rfl)
      · refine Ends.bind (ends_of_eq h₁ (ends_pure ⟨.inr (.inl rfl),?_⟩))
        rw [hp₁]
        decide
      · refine Ends.bind (ends_of_eq h₂ (ends_pure ⟨.inr (.inr rfl),?_⟩))
        rw [hp₁,hp₂]
        decide
      · have hstep : (phaseStep runsSource fuel 0).Ends h
            (fun r g' => r=some n ∧ AtBit 707 g') fun _ _ => False := by
          unfold phaseStep
          refine Ends.bind (ends_get ?_)
          rw [hp₂]
          refine Ends.bind ((runs_codes hfuel hat hl hd).post ?_)
          rintro p g' ⟨hp,h'⟩
          exact ends_pure ⟨by rw [hp,hn],h'⟩
        refine Ends.bind (hstep.post ?_)
        rintro r g' ⟨rfl,h'⟩
        exact ends_ite (fun hno => by omega) fun _ => ends_pure ⟨rfl,h'⟩
    · split
      · omega
      · split <;> omega
  have hnext : (next runsSource fuel).Ends .new
      (fun r _ => ∃chunk,r=some chunk ∧ chunk.length=n) fun _ _ => False := by
    unfold next
    refine Ends.bind (ends_get (Ends.bind (hloop.post ?_)))
    rintro r g' ⟨rfl,h'⟩
    have hroom : g'.decoded+(n-0) ≤ runsSource.decompressedBytes := by
      rw [h'.fresh.1,hn]
      decide
    exact Ends.bind ((emit_succeeds hroom h'.fresh.2.2).post fun chunk _ hchunk =>
      ends_pure ⟨chunk,rfl,hchunk⟩)
  obtain ⟨r,g',h,chunk,rfl,hchunk⟩ := hnext.succeeds
  exact ⟨chunk,g',h,hchunk⟩

/-- The first call of a decoder may put out more than a chunk and a match. -/
theorem runs_chunk_exceeds : ∃chunk g', next runsSource (enoughFuel runsSource) .new=some
    (.ok (some chunk),g') ∧ gunzipChunkBytes+maximumMatch < chunk.length := by
  obtain ⟨chunk,g',h,hlength⟩ := runs_next
  refine ⟨chunk,g',h,?_⟩
  rw [hlength]
  decide

theorem runs_bound_iff : ∃chunk g',
    next runsSource (enoughFuel runsSource) .new=some (.ok (some chunk),g') ∧
    (chunk.length ≤ gunzipChunkBytes+maximumMatch ↔
      ∀g₁,opening runsSource (enoughFuel runsSource) 0 (enoughFuel runsSource) .new=some g₁ →
        Fits runsArchive 0 g₁) := by
  obtain ⟨chunk,g',h,-⟩ := runs_next
  have hserves : Serves runsSource runsArchive := by
    refine ⟨rfl,?_⟩
    intro _ offset length bytes etag hread
    exact (Prod.mk.inj (Except.ok.inj hread)).1.symm
  have hconstruct : construct runsSource none none .new=some (.ok (),.new) := rfl
  exact ⟨chunk,g',h,chunk_bound_iff (le_refl _) hserves (.construct hconstruct) h⟩

end CardKeepr.Shared.Gunzip
