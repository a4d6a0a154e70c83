import CardKeepr.Shared.GunzipWindow

namespace CardKeepr.Shared.Gunzip
open Lib Steps List

/-- What holds of a decoder between the turns of its loops. -/
structure Sound (source : GunzipSource) (g : ResumableGunzip) : Prop where
  length : 1 ≤ source.length
  window : Window source g
  history : g.history ≤ historyBytes
  reach : g.reach ≤ outBytes
  stored : g.phase=.stored → g.bit/8 ≤ g.bufferEnd
  count : g.stored ≤ 65535
  codes : g.phase=.codes → (∃l,g.literal=some l) ∧ ∃d,g.distance=some d
  literal : ∀t,g.literal=some t → t.Good
  distance : ∀t,g.distance=some t → t.Good

def Fails (source : GunzipSource) (e : Failure) (g : ResumableGunzip) : Prop :=
  e≠.stalled ∧ Sound source g

/-- The cursor went on from `g₀`, within its phase. -/
structure Keeps (source : GunzipSource) (g₀ g : ResumableGunzip) : Prop where
  window : Window source g
  same : Same g₀ g
  bit : g₀.bit ≤ g.bit
  reach : g.reach ≤ outBytes

section
variable {source : GunzipSource} {fuel : Nat} {g₀ g : ResumableGunzip}

theorem Keeps.rfl (h : Sound source g) : Keeps source g g := ⟨h.window,.rfl,le_refl _,h.reach⟩

theorem Keeps.sound (hs : Sound source g₀) (hp : g₀.phase≠.stored) (hk : Keeps source g₀ g) :
    Sound source g where
  length := hs.length
  window := hk.window
  history := by rw [hk.same.history]; exact hs.history
  reach := hk.reach
  stored h := (hp (hk.same.phase.symm.trans h)).elim
  count := by rw [hk.same.stored]; exact hs.count
  codes h := by
    rw [hk.same.literal,hk.same.distance]
    exact hs.codes (hk.same.phase.symm.trans h)
  literal t h := hs.literal t (hk.same.literal.symm.trans h)
  distance t h := hs.distance t (hk.same.distance.symm.trans h)

theorem Keeps.enter (hs : Sound source g₀) (hk : Keeps source g₀ g) {phase : Phase} {stored : Nat}
    (hcount : stored ≤ 65535) (hst : phase=.stored → g.bit/8 ≤ g.bufferEnd)
    (hco : phase=.codes → (∃l,g.literal=some l) ∧ ∃d,g.distance=some d) :
    Sound source { g with phase := phase, stored := stored } where
  length := hs.length
  window := ⟨hk.window.start,hk.window.stop,hk.window.bytes⟩
  history := by
    show g.history ≤ historyBytes
    rw [hk.same.history]
    exact hs.history
  reach := hk.reach
  stored h := hst h
  count := hcount
  codes h := hco h
  literal t h := hs.literal t (hk.same.literal.symm.trans h)
  distance t h := hs.distance t (hk.same.distance.symm.trans h)

theorem Keeps.tables (hs : Sound source g₀) (hk : Keeps source g₀ g) {literal distance : Table}
    (hl : literal.Good) (hd : distance.Good) (lengths : Option (List Nat)) (literals : Nat) :
    Sound source { g with
      literal := some literal, distance := some distance, lengths := lengths, literals := literals
      phase := .codes } where
  length := hs.length
  window := ⟨hk.window.start,hk.window.stop,hk.window.bytes⟩
  history := by
    show g.history ≤ historyBytes
    rw [hk.same.history]
    exact hs.history
  reach := hk.reach
  stored h := by cases h
  count := by
    show g.stored ≤ 65535
    rw [hk.same.stored]
    exact hs.count
  codes _ := ⟨⟨_,.refl _⟩,_,.refl _⟩
  literal t h := by
    obtain rfl := Option.some.inj h
    exact hl
  distance t h := by
    obtain rfl := Option.some.inj h
    exact hd

theorem Keeps.fails (hs : Sound source g₀) (hp : g₀.phase≠.stored) (hk : Keeps source g₀ g)
    {e : Failure} (he : e≠.stalled) : Fails source e g := ⟨he,hk.sound hs hp⟩

theorem corrupt_ends {α : Type} {Q : α → ResumableGunzip → Prop} (hs : Sound source g₀)
    (hp : g₀.phase≠.stored) (hk : Keeps source g₀ g) :
    (corrupt : Decode α).Ends g Q (Fails source) := ends_fail (hk.fails hs hp (by simp))

theorem check_ends {ok : Bool} {Q : Unit → ResumableGunzip → Prop} (hs : Sound source g₀)
    (hp : g₀.phase≠.stored) (hk : Keeps source g₀ g) (hQ : ok=true → Q () g) :
    (check ok .corrupt : Decode Unit).Ends g Q (Fails source) :=
  ends_check hQ fun _ => hk.fails hs hp (by simp)

theorem skip_keeps (hk : Keeps source g₀ g) (count : Nat) :
    Keeps source g₀ { g with bit := g.bit+count } where
  window := by
    have hstart := hk.window.start
    refine ⟨?_,hk.window.stop,hk.window.bytes⟩
    show g.bufferStart ≤ (g.bit+count)/8
    omega
  same := ⟨hk.same.phase,hk.same.stored,hk.same.literal,hk.same.distance,hk.same.history⟩
  bit := by
    have h := hk.bit
    show g₀.bit ≤ g.bit+count
    omega
  reach := hk.reach

theorem align_keeps (hk : Keeps source g₀ g) : Keeps source g₀ { g with bit := (g.bit+7)/8*8 } := by
  have h := skip_keeps hk ((g.bit+7)/8*8-g.bit)
  have heq : g.bit+((g.bit+7)/8*8-g.bit)=(g.bit+7)/8*8 := by omega
  rw [heq] at h
  exact h

theorem readBits_ends {Q : Nat → ResumableGunzip → Prop} {E : Failure → ResumableGunzip → Prop}
    (hk : Keeps source g₀ g) {n : Nat}
    (hQ : ∀v < 2^n,∀g',Keeps source g₀ g' → g'.bit=g.bit+n → g'.bufferEnd=g.bufferEnd → Q v g') :
    (readBits n).Ends g Q E :=
  hQ _ (Nat.mod_lt _ (Nat.two_pow_pos n)) _ (skip_keeps hk n) rfl rfl

theorem checkTruncation_ends {Q : Unit → ResumableGunzip → Prop} (hs : Sound source g)
    (hQ : g.bit ≤ source.length*8 → Q () g) : (checkTruncation source).Ends g Q (Fails source) := by
  unfold checkTruncation
  refine Ends.bind (ends_get ?_)
  exact ends_check (fun h => hQ (of_decide_eq_true h)) fun _ => ⟨by simp,hs⟩

theorem keeps_of_grown (hk : Keeps source g₀ g) {g' : ResumableGunzip} (h : Grown source g g') :
    Keeps source g₀ g' where
  window := h.window
  same := hk.same.trans h.same
  bit := by rw [h.bit]; exact hk.bit
  reach := by rw [h.reach]; exact hk.reach

theorem ensure_ends {Q : Bool → ResumableGunzip → Prop} (hf : source.length < fuel)
    (hs : Sound source g₀) (hp : g₀.phase≠.stored) (hk : Keeps source g₀ g) {n : Nat}
    (hQ : ∀more g',Keeps source g₀ g' → g'.bit=g.bit → (more=true → (n : Int) ≤ g'.available) →
      (more=false → source.length ≤ g'.bufferEnd) → Q more g') :
    (ensure source fuel n).Ends g Q (Fails source) := by
  refine (ensure_grown hf hk.window n).mono ?_ ?_
  · rintro more g' ⟨hg,htrue,hfalse⟩
    exact hQ more g' (keeps_of_grown hk hg) hg.bit htrue hfalse
  · rintro e g' ⟨he,hg⟩
    exact (keeps_of_grown hk hg).fails hs hp he

theorem readByte_ends {Q : Nat → ResumableGunzip → Prop} (hf : source.length < fuel)
    (hs : Sound source g₀) (hp : g₀.phase≠.stored) (hk : Keeps source g₀ g)
    (hQ : ∀v g',Keeps source g₀ g' → g.bit < g'.bit → Q v g') :
    (readByte source fuel).Ends g Q (Fails source) := by
  unfold readByte
  refine Ends.bind (ensure_ends hf hs hp hk ?_)
  intro more g' hk' hbit _ _
  refine ends_ite (fun _ => ?_) fun _ => corrupt_ends hs hp hk'
  refine readBits_ends hk' ?_
  intro v _ g'' hk'' hbit' _
  exact hQ v g'' hk'' (by omega)

theorem headerByte_ends {Q : Nat × UInt32 → ResumableGunzip → Prop} (hf : source.length < fuel)
    (hs : Sound source g₀) (hp : g₀.phase≠.stored) (hk : Keeps source g₀ g) (crc : UInt32)
    (hQ : ∀r g',Keeps source g₀ g' → g.bit < g'.bit → Q r g') :
    (headerByte source fuel crc).Ends g Q (Fails source) := by
  unfold headerByte
  refine Ends.bind (readByte_ends hf hs hp hk ?_)
  intro v g' hk' hbit
  exact ends_pure (hQ _ g' hk' hbit)

theorem expectByte_ends {Q : UInt32 → ResumableGunzip → Prop} (hf : source.length < fuel)
    (hs : Sound source g₀) (hp : g₀.phase≠.stored) (hk : Keeps source g₀ g) (expected : Nat)
    (crc : UInt32) (hQ : ∀r g',Keeps source g₀ g' → g.bit < g'.bit → Q r g') :
    (expectByte source fuel expected crc).Ends g Q (Fails source) := by
  unfold expectByte
  refine Ends.bind (headerByte_ends hf hs hp hk crc ?_)
  intro r g' hk' hbit
  refine Ends.bind (check_ends hs hp hk' fun _ => ?_)
  exact ends_pure (hQ _ g' hk' hbit)

theorem headerBytes_ends {Q : UInt32 → ResumableGunzip → Prop} (hf : source.length < fuel)
    (hs : Sound source g₀) (hp : g₀.phase≠.stored) (n : Nat) (crc : UInt32)
    (hk : Keeps source g₀ g) (hQ : ∀r g',Keeps source g₀ g' → g.bit ≤ g'.bit → Q r g') :
    (headerBytes source fuel n crc).Ends g Q (Fails source) := by
  induction n generalizing g crc with
  | zero => exact ends_pure (hQ crc g hk (le_refl _))
  | succ n ih =>
    unfold headerBytes
    refine Ends.bind (headerByte_ends hf hs hp hk crc ?_)
    intro r g' hk' hbit
    refine ih r.2 hk' ?_
    intro r' g'' hk'' hbit'
    exact hQ r' g'' hk'' (by omega)

theorem headerText_ends {Q : UInt32 → ResumableGunzip → Prop} (hf : source.length < fuel)
    (hs : Sound source g₀) (hp : g₀.phase≠.stored) (left : Nat) (crc : UInt32)
    (hk : Keeps source g₀ g) (hQ : ∀r g',Keeps source g₀ g' → g.bit ≤ g'.bit → Q r g') :
    (headerText source fuel left crc).Ends g Q (Fails source) := by
  induction left generalizing g crc with
  | zero => exact corrupt_ends hs hp hk
  | succ left ih =>
    unfold headerText
    refine Ends.bind (headerByte_ends hf hs hp hk crc ?_)
    intro r g' hk' hbit
    refine ends_ite (fun _ => ends_pure (hQ _ g' hk' (by omega))) fun _ => ?_
    refine ih r.2 hk' ?_
    intro r' g'' hk'' hbit'
    exact hQ r' g'' hk'' (by omega)

theorem headerExtra_ends {Q : UInt32 → ResumableGunzip → Prop} (hf : source.length < fuel)
    (hs : Sound source g₀) (hp : g₀.phase≠.stored) (flags : Nat) (crc : UInt32)
    (hk : Keeps source g₀ g) (hQ : ∀r g',Keeps source g₀ g' → g.bit ≤ g'.bit → Q r g') :
    (headerExtra source fuel flags crc).Ends g Q (Fails source) := by
  unfold headerExtra
  refine ends_ite (fun _ => ?_) fun _ => ends_ret (hQ crc g hk (le_refl _))
  refine Ends.bind (headerByte_ends hf hs hp hk crc ?_)
  intro low g' hk' hbit
  refine Ends.bind (headerByte_ends hf hs hp hk' low.2 ?_)
  intro high g'' hk'' hbit'
  refine headerBytes_ends hf hs hp _ high.2 hk'' ?_
  intro r g₃ hk₃ hbit₃
  exact hQ r g₃ hk₃ (by omega)

theorem headerName_ends {Q : UInt32 → ResumableGunzip → Prop} (hf : source.length < fuel)
    (hs : Sound source g₀) (hp : g₀.phase≠.stored) (flag flags : Nat) (crc : UInt32)
    (hk : Keeps source g₀ g) (hQ : ∀r g',Keeps source g₀ g' → g.bit ≤ g'.bit → Q r g') :
    (headerName source fuel flag flags crc).Ends g Q (Fails source) :=
  ends_ite (fun _ => headerText_ends hf hs hp 65537 crc hk hQ) fun _ =>
    ends_ret (hQ crc g hk (le_refl _))

theorem header_ends (hf : source.length < fuel) (hs : Sound source g) (hp : g.phase≠.stored) :
    (header source fuel).Ends g (fun _ g' => Sound source g' ∧ g.bit < g'.bit ∧ g.bit=0 ∧
      g'.phase=.block) (Fails source) := by
  have hk := Keeps.rfl hs
  unfold header
  refine Ends.bind (ends_get (Ends.bind (ends_check (fun hzero => ?_) fun _ => ⟨by simp,hs⟩)))
  have hzero := of_decide_eq_true hzero
  refine Ends.bind (expectByte_ends hf hs hp hk 0x1f 0 ?_)
  intro c₁ g₁ hk₁ hb₁
  refine Ends.bind (expectByte_ends hf hs hp hk₁ 0x8b c₁ ?_)
  intro c₂ g₂ hk₂ hb₂
  refine Ends.bind (expectByte_ends hf hs hp hk₂ 8 c₂ ?_)
  intro c₃ g₃ hk₃ hb₃
  refine Ends.bind (headerByte_ends hf hs hp hk₃ c₃ ?_)
  intro flags g₄ hk₄ hb₄
  refine Ends.bind (check_ends hs hp hk₄ fun _ => ?_)
  refine Ends.bind (headerBytes_ends hf hs hp 6 flags.2 hk₄ ?_)
  intro c₅ g₅ hk₅ hb₅
  refine Ends.bind (headerExtra_ends hf hs hp flags.1 c₅ hk₅ ?_)
  intro c₆ g₆ hk₆ hb₆
  refine Ends.bind (headerName_ends hf hs hp 8 flags.1 c₆ hk₆ ?_)
  intro c₇ g₇ hk₇ hb₇
  refine Ends.bind (headerName_ends hf hs hp 16 flags.1 c₇ hk₇ ?_)
  intro c₈ g₈ hk₈ hb₈
  have hlast : ∀g',Keeps source g g' → g₈.bit ≤ g'.bit →
      (modify fun g => { g with phase := .block } : Decode Unit).Ends g' (fun _ g' =>
        Sound source g' ∧ g.bit < g'.bit ∧ g.bit=0 ∧ g'.phase=.block) (Fails source) := by
    intro g' hk' hb'
    have hbit : g.bit < g'.bit := by omega
    exact ends_modify ⟨hk'.enter hs (by rw [hk'.same.stored]; exact hs.count) (by simp) (by simp),hbit,hzero,rfl⟩
  refine Ends.bind (ends_when (fun _ => ?_) fun _ => hlast g₈ hk₈ (le_refl _))
  refine Ends.bind (readByte_ends hf hs hp hk₈ ?_)
  intro low g₉ hk₉ hb₉
  refine Ends.bind (readByte_ends hf hs hp hk₉ ?_)
  intro high g₁₀ hk₁₀ hb₁₀
  exact check_ends hs hp hk₁₀ fun _ => hlast g₁₀ hk₁₀ (by omega)

theorem readCodeLengths_ends {Q : List Nat → ResumableGunzip → Prop}
    {E : Failure → ResumableGunzip → Prop} (order codeLengths : List Nat)
    (hl : ∀l∈codeLengths,l ≤ 15) (hk : Keeps source g₀ g)
    (hQ : ∀ls g',(∀l∈ls,l ≤ 15) → Keeps source g₀ g' → g.bit ≤ g'.bit → Q ls g') :
    (readCodeLengths order codeLengths).Ends g Q E := by
  induction order generalizing g codeLengths with
  | nil => exact ends_pure (hQ codeLengths g hl hk (le_refl _))
  | cons symbol order ih =>
    unfold readCodeLengths
    refine Ends.bind (readBits_ends hk ?_)
    intro length hlength g' hk' hbit _
    refine ih (codeLengths.set symbol length) ?_ hk' ?_
    · intro l hmem
      rcases mem_or_eq_of_mem_set hmem with hmem | rfl
      · exact hl l hmem
      · omega
    · intro ls g'' hls hk'' hbit'
      exact hQ ls g'' hls hk'' (by omega)

theorem readLength_ends {Q : List Nat → ResumableGunzip → Prop} (hs : Sound source g₀)
    (hp : g₀.phase≠.stored) (hk : Keeps source g₀ g) {t : Table} (ht : t.Good) {lengths : List Nat}
    (hl : ∀l∈lengths,l ≤ 15)
    (hQ : ∀ls g',(∀l∈ls,l ≤ 15) → lengths.length < ls.length → Keeps source g₀ g' →
      g.bit < g'.bit → Q ls g') :
    (readLength t lengths).Ends g Q (Fails source) := by
  have hadd : ∀n v,0 < n → v ≤ 15 → (∀l∈lengths++List.replicate n v,l ≤ 15) ∧
      lengths.length < (lengths++List.replicate n v).length := by
    intro n v hn hv
    constructor
    · intro l hmem
      rcases mem_append.mp hmem with hmem | hmem
      · exact hl l hmem
      · rw [eq_of_mem_replicate hmem]
        exact hv
    · rw [length_append,length_replicate]
      omega
  unfold readLength
  refine Ends.bind (Ends.bind (ends_get (ends_pure ?_)))
  set entry := t.entries.getD (g.word%2^t.bits) 0 with hentry
  refine Ends.bind (check_ends hs hp hk fun hne => ?_)
  have hbits := ht.entry_bits (of_decide_eq_true hne)
  refine Ends.bind (ends_modify ?_)
  have hk' := skip_keeps hk (entry%16)
  refine ends_ite (fun hless => ?_) fun _ => ends_ite (fun _ => ?_) fun _ => ends_ite (fun _ => ?_) fun _ => ?_
  · have h := hadd 1 (entry/16) (by decide) (by omega)
    exact ends_pure (hQ _ _ h.1 h.2 hk' (by show g.bit < g.bit+_; omega))
  · cases hlast : lengths.getLast? with
    | none => exact corrupt_ends hs hp hk'
    | some previous =>
      refine Ends.bind (readBits_ends hk' ?_)
      intro v _ g' hk'' hbit _
      have h := hadd (3+v) previous (by omega) (hl previous (List.mem_of_getLast? hlast))
      have hb : g'.bit=g.bit+entry%16+2 := hbit
      exact ends_pure (hQ _ _ h.1 h.2 hk'' (by omega))
  · refine Ends.bind (readBits_ends hk' ?_)
    intro v _ g' hk'' hbit _
    have h := hadd (3+v) 0 (by omega) (by decide)
    have hb : g'.bit=g.bit+entry%16+3 := hbit
    exact ends_pure (hQ _ _ h.1 h.2 hk'' (by omega))
  · refine Ends.bind (readBits_ends hk' ?_)
    intro v _ g' hk'' hbit _
    have h := hadd (11+v) 0 (by omega) (by decide)
    have hb : g'.bit=g.bit+entry%16+7 := hbit
    exact ends_pure (hQ _ _ h.1 h.2 hk'' (by omega))

theorem readLengths_ends {Q : List Nat → ResumableGunzip → Prop} (hs : Sound source g₀)
    (hp : g₀.phase≠.stored) (hk : Keeps source g₀ g) {t : Table} (ht : t.Good) {count : Nat}
    (hf : count < fuel)
    (hQ : ∀ls g',(∀l∈ls,l ≤ 15) → Keeps source g₀ g' → g.bit ≤ g'.bit → Q ls g') :
    (readLengths fuel t count).Ends g Q (Fails source) := by
  unfold readLengths
  refine ends_loop (fun ls h => (∀l∈ls,l ≤ 15) ∧ Keeps source g₀ h ∧ g.bit ≤ h.bit)
    (fun ls _ => count-ls.length) ?_ ⟨by simp,hk,le_refl _⟩ (by simpa using hf)
  rintro ls h ⟨hls,hkh,hbit⟩
  refine ends_ite (fun hmore => ?_) fun _ => ends_pure (hQ ls h hls hkh hbit)
  refine Ends.bind (readLength_ends hs hp hkh ht hls ?_)
  intro ls' h' hls' hlen hkh' hbit'
  exact ends_pure ⟨⟨hls',hkh',by omega⟩,by omega⟩

theorem fixedLengths_le : ∀l∈fixedLengths,l ≤ 15 := by decide +kernel

theorem useFixed_ends {Q : Unit → ResumableGunzip → Prop} {E : Failure → ResumableGunzip → Prop}
    (hQ : ∀l d,l.Good → d.Good → Q () { g with
      literal := some l, distance := some d, lengths := none, literals := 0 })
    (hE : E .corrupt g) : useFixed.Ends g Q E := by
  have herror : ∀{ls : List Nat} {e : Failure},huffmanTable ls=.error e → E e g := by
    intro ls e h
    rw [huffmanTable_error h]
    exact hE
  unfold useFixed
  refine Ends.bind (ends_lift (fun l hl => ?_) fun e he => herror he)
  refine Ends.bind (ends_lift (fun d hd => ?_) fun e he => herror he)
  have hlg : l.Good := huffmanTable_good hl fun n hn => fixedLengths_le n (mem_of_mem_take hn)
  have hdg : d.Good := huffmanTable_good hd fun n hn => fixedLengths_le n (mem_of_mem_drop hn)
  exact ends_modify (hQ l d hlg hdg)

theorem useDynamic_ends {Q : Unit → ResumableGunzip → Prop} {E : Failure → ResumableGunzip → Prop}
    {lengths : List Nat} (hls : ∀l∈lengths,l ≤ 15) (literals : Nat)
    (hQ : ∀l d,l.Good → d.Good → Q () { g with
      literal := some l, distance := some d, lengths := some lengths, literals := literals })
    (hE : E .corrupt g) (hE' : ∀l,l.Good → E .corrupt { g with literal := some l }) :
    (useDynamic lengths literals).Ends g Q E := by
  unfold useDynamic
  refine Ends.bind (ends_lift (fun l hl => ?_) fun e he => ?_)
  · have hlg : l.Good := huffmanTable_good hl fun n hn => hls n (mem_of_mem_take hn)
    refine Ends.bind (ends_modify (Ends.bind (ends_lift (fun d hd => ?_) fun e he => ?_)))
    · have hdg : d.Good := huffmanTable_good hd fun n hn => hls n (mem_of_mem_drop hn)
      exact ends_modify (hQ l d hlg hdg)
    · rw [huffmanTable_error he]
      exact hE' l hlg
  · rw [huffmanTable_error he]
    exact hE

def Entered (source : GunzipSource) (g g' : ResumableGunzip) : Prop :=
  Sound source g' ∧ g.bit ≤ g'.bit

theorem storedHeader_ends (hf : source.length < fuel) (hs : Sound source g₀)
    (hp : g₀.phase=.block) (hk : Keeps source g₀ g) :
    (storedHeader source fuel).Ends g (fun _ => Entered source g) (Fails source) := by
  have hp' : g₀.phase≠.stored := by simp [hp]
  unfold storedHeader
  refine Ends.bind (ends_modify (Ends.bind (ensure_ends hf hs hp' (align_keeps hk) ?_)))
  intro more g₁ hk₁ hb₁ hmore _
  refine ends_ite (fun htrue => ?_) fun _ => corrupt_ends hs hp' hk₁
  refine Ends.bind (readBits_ends hk₁ ?_)
  intro length hlength g₂ hk₂ hb₂ he₂
  refine Ends.bind (readBits_ends hk₂ ?_)
  intro complement _ g₃ hk₃ hb₃ he₃
  refine Ends.bind (check_ends hs hp' hk₃ fun _ => ends_modify ⟨hk₃.enter hs (by omega) ?_ ?_,?_⟩)
  · intro _
    have havailable := hmore htrue
    unfold ResumableGunzip.available at havailable
    have hb : g₁.bit=(g.bit+7)/8*8 := hb₁
    omega
  · split
    · split <;> simp
    · simp
  · have hb : g₁.bit=(g.bit+7)/8*8 := hb₁
    show g.bit ≤ g₃.bit
    omega

theorem dynamicHeader_ends (hf : 400 < fuel) (hs : Sound source g₀) (hp : g₀.phase=.block)
    (hk : Keeps source g₀ g) :
    (dynamicHeader fuel).Ends g (fun _ => Entered source g) (Fails source) := by
  have hp' : g₀.phase≠.stored := by simp [hp]
  unfold dynamicHeader
  refine Ends.bind (readBits_ends hk ?_)
  intro literals hliterals g₁ hk₁ hb₁ _
  refine Ends.bind (readBits_ends hk₁ ?_)
  intro distances hdistances g₂ hk₂ hb₂ _
  refine Ends.bind (readBits_ends hk₂ ?_)
  intro count _ g₃ hk₃ hb₃ _
  refine Ends.bind (check_ends hs hp' hk₃ fun _ => ?_)
  refine Ends.bind (readCodeLengths_ends _ _ ?_ hk₃ ?_)
  · intro l hl
    rw [eq_of_mem_replicate hl]
    decide
  intro codeLengths g₄ hcl hk₄ hb₄
  refine Ends.bind (ends_lift (fun t ht => ?_) fun e he => ?_)
  · have htg := huffmanTable_good ht hcl
    refine Ends.bind (readLengths_ends hs hp' hk₄ htg (by omega) ?_)
    intro lengths g₅ hls hk₅ hb₅
    refine Ends.bind (check_ends hs hp' hk₅ fun _ => ?_)
    have hfail := hk₅.fails hs hp' (e := .corrupt) (by simp)
    refine Ends.bind (useDynamic_ends hls _ (fun l d hl hd => ?_) hfail fun l hl => ⟨by simp,?_⟩)
    · refine ends_modify ⟨hk₅.tables hs hl hd _ _,?_⟩
      show g.bit ≤ g₅.bit
      omega
    · have hsound := hk₅.sound hs hp'
      refine ⟨hs.length,⟨hsound.window.start,hsound.window.stop,hsound.window.bytes⟩,hsound.history,hsound.reach,hsound.stored,hsound.count,?_,?_,hsound.distance⟩
      · intro hcodes
        have hblock := hk₅.same.phase.trans hp
        have hcodes' : g₅.phase=.codes := hcodes
        rw [hblock] at hcodes'
        cases hcodes'
      · intro t ht
        obtain rfl := Option.some.inj ht
        exact hl
  · rw [huffmanTable_error he]
    exact hk₄.fails hs hp' (by simp)

theorem blockHeader_ends (hf : source.length+400 < fuel) (hs : Sound source g)
    (hp : g.phase=.block) : (blockHeader source fuel).Ends g
    (fun _ g' => Sound source g' ∧ g.bit < g'.bit ∧ g'.bit ≤ source.length*8) (Fails source) := by
  have hp' : g.phase≠.stored := by simp [hp]
  have hfs : source.length < fuel := by omega
  unfold blockHeader
  refine Ends.bind (ensure_ends hfs hs hp' (Keeps.rfl hs) ?_)
  intro _ g₁ hk₁ hb₁ _ _
  refine Ends.bind (readBits_ends hk₁ ?_)
  intro final _ g₂ hk₂ hb₂ _
  have hk₃ : Keeps source g { g₂ with final := decide (final=1) } :=
    ⟨⟨hk₂.window.start,hk₂.window.stop,hk₂.window.bytes⟩,
      ⟨hk₂.same.phase,hk₂.same.stored,hk₂.same.literal,hk₂.same.distance,hk₂.same.history⟩,
      hk₂.bit,hk₂.reach⟩
  refine Ends.bind (ends_modify (Ends.bind (readBits_ends hk₃ ?_)))
  intro type _ g₄ hk₄ hb₄ _
  have hb₃ : g₄.bit=g₂.bit+2 := hb₄
  have hlast : ∀g',Entered source g₄ g' → (checkTruncation source).Ends g' (fun _ g' =>
      Sound source g' ∧ g.bit < g'.bit ∧ g'.bit ≤ source.length*8) (Fails source) := by
    rintro g' ⟨hs',hb'⟩
    exact checkTruncation_ends hs' fun h => ⟨hs',by omega,h⟩
  refine Ends.bind ?_
  unfold blockType
  refine ends_ite (fun _ => ?_) fun _ => ends_ite (fun _ => ?_) fun _ => ends_ite (fun _ => ?_) fun _ => ?_
  · exact (storedHeader_ends hfs hs hp hk₄).post fun _ => hlast
  · refine Ends.bind (useFixed_ends (fun l d hl hd => ?_) (hk₄.fails hs hp' (by simp)))
    exact ends_modify (hlast _ ⟨hk₄.tables hs hl hd none 0,le_refl g₄.bit⟩)
  · exact (dynamicHeader_ends (by omega) hs hp hk₄).post fun _ => hlast
  · exact corrupt_ends hs hp' hk₄

end

end CardKeepr.Shared.Gunzip
