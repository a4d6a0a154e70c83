import CardKeepr.Shared.GunzipProgress

namespace CardKeepr.Shared.Gunzip
open Lib Steps

section
variable {source : GunzipSource} {fuel : Nat} {g₀ g : ResumableGunzip}
variable {index position : Nat} {literal distance : Table}

theorem Grown.sound (hs : Sound source g) {g' : ResumableGunzip} (h : Grown source g g') :
    Sound source g' where
  length := hs.length
  window := h.window
  history := by rw [h.same.history]; exact hs.history
  reach := by rw [h.reach]; exact hs.reach
  stored hp := by
    have hb := hs.stored (h.same.phase.symm.trans hp)
    have hstop := h.stop
    rw [h.bit]
    omega
  count := by rw [h.same.stored]; exact hs.count
  codes hp := by
    rw [h.same.literal,h.same.distance]
    exact hs.codes (h.same.phase.symm.trans hp)
  literal t ht := hs.literal t (h.same.literal.symm.trans ht)
  distance t ht := hs.distance t (h.same.distance.symm.trans ht)

theorem writeBytes_ends {Q : Unit → ResumableGunzip → Prop} {E : Failure → ResumableGunzip → Prop} {bytes : List UInt8} (hfit : position+bytes.length ≤ outBytes)
    (hr : g.reach ≤ outBytes)
    (hQ : ∀out reach,reach ≤ outBytes → Q () { g with out := out, reach := reach }) :
    (writeBytes position bytes).Ends g Q E := by
  induction bytes generalizing g position with
  | nil => exact ends_pure (hQ g.out g.reach hr)
  | cons b bytes ih =>
    rw [List.length_cons] at hfit
    unfold writeBytes
    refine Ends.bind (ends_modify (ih (by omega) ?_ fun out reach hreach => hQ out reach hreach))
    show max g.reach (position+1) ≤ outBytes
    omega

theorem copyMatch_ends {Q : Unit → ResumableGunzip → Prop} {E : Failure → ResumableGunzip → Prop}
    {back length : Nat} (hfit : position+length ≤ outBytes) (hr : g.reach ≤ outBytes)
    (hQ : ∀out reach,reach ≤ outBytes → Q () { g with out := out, reach := reach }) :
    (copyMatch back length position).Ends g Q E := by
  induction length generalizing g position with
  | zero => exact ends_pure (hQ g.out g.reach hr)
  | succ length ih =>
    unfold copyMatch
    refine Ends.bind (ends_get (Ends.bind (ends_modify ?_)))
    refine ih (by omega) ?_ fun out reach hreach => hQ out reach hreach
    show max g.reach (position+1) ≤ outBytes
    omega

theorem Keeps.written (hk : Keeps source g₀ g) (out : Nat → UInt8) (reach : Nat)
    (hr : reach ≤ outBytes) : Keeps source g₀ { g with out := out, reach := reach } :=
  ⟨⟨hk.window.start,hk.window.stop,hk.window.bytes⟩,
    ⟨hk.same.phase,hk.same.stored,hk.same.literal,hk.same.distance,hk.same.history⟩,hk.bit,hr⟩

/-- Bytes are consumed, or none are left and the phase ends. -/
theorem storedBytes_ends (hf : source.length < fuel) (hs : Sound source g) (hp : g.phase=.stored) (hpos : position ≤ historyBytes) :
    (storedBytes source fuel position).Ends g (fun p g' => Sound source g' ∧ position ≤ p ∧
      p ≤ codesLimit ∧ (position < p ∧ g.bit < g'.bit ∨
        p=position ∧ g'.phase≠.stored ∧ g'.bit=g.bit)) (Fails source) := by
  have hout : outBytes=codesLimit+maximumMatch := by decide
  have hlimit : historyBytes < codesLimit := by decide
  unfold storedBytes
  refine Ends.bind (ends_get (Ends.bind ?_))
  have hrest : ∀g₁,Grown source g g₁ → 0 < g₁.available →
      Ends (do
        let g ← get
        let count := (min (min (g.stored : Int) g.available)
          ((outBytes : Int)-maximumMatch-position)).toNat
        let from' := g.bit/8-g.bufferStart
        writeBytes position ((g.buffer.drop from').take count)
        skip (count*8)
        modify fun g => { g with stored := g.stored-count }
        modify fun g => { g with
          phase := if g.stored=0 then (if g.final then .trailer else .block) else g.phase }
        return position+count) g₁ (fun p g' => Sound source g' ∧ position ≤ p ∧
          p ≤ codesLimit ∧ (position < p ∧ g.bit < g'.bit ∨
            p=position ∧ g'.phase≠.stored ∧ g'.bit=g.bit)) (Fails source) := by
    intro g₁ hg havailable
    have hs₁ := hg.sound hs
    have hp₁ : g₁.phase=.stored := hg.same.phase.trans hp
    refine Ends.bind (ends_get ?_)
    dsimp only
    set count := (min (min (g₁.stored : Int) g₁.available)
      ((outBytes : Int)-maximumMatch-position)).toNat with hcount
    have hfit : position+((g₁.buffer.drop (g₁.bit/8-g₁.bufferStart)).take count).length ≤ outBytes := by
      have hlen := List.length_take_le count (g₁.buffer.drop (g₁.bit/8-g₁.bufferStart))
      omega
    refine Ends.bind (writeBytes_ends hfit hs₁.reach fun out reach hreach => ?_)
    refine Ends.bind (ends_modify (Ends.bind (ends_modify (Ends.bind (ends_modify (ends_pure ?_))))))
    have hle : (count : Int) ≤ g₁.available := by omega
    have hbit := hg.bit
    unfold ResumableGunzip.available at hle havailable
    refine ⟨⟨hs.length,⟨?_,hs₁.window.stop,hs₁.window.bytes⟩,hs₁.history,hreach,?_,?_,?_,hs₁.literal,hs₁.distance⟩,by omega,by omega,?_⟩
    · have hstart := hs₁.window.start
      show g₁.bufferStart ≤ (g₁.bit+count*8)/8
      omega
    · intro _
      show (g₁.bit+count*8)/8 ≤ g₁.bufferEnd
      omega
    · have hmax := hs₁.count
      show g₁.stored-count ≤ 65535
      omega
    · intro hcodes
      have hcodes' : (if g₁.stored-count=0 then (if g₁.final then Phase.trailer else .block)
          else g₁.phase)=.codes := hcodes
      rw [hp₁] at hcodes'
      split at hcodes'
      · split at hcodes' <;> cases hcodes'
      · cases hcodes'
    · by_cases hzero : g₁.stored=0
      · right
        have hnone : count=0 := by omega
        refine ⟨by omega,?_,?_⟩
        · show (if g₁.stored-count=0 then (if g₁.final then Phase.trailer else .block)
            else g₁.phase)≠.stored
          rw [if_pos (by omega)]
          split <;> simp
        · show g₁.bit+count*8=g.bit
          omega
      · left
        have hsome : 0 < count := by
          unfold ResumableGunzip.available at hcount
          omega
        refine ⟨by omega,?_⟩
        show g.bit < g₁.bit+count*8
        omega
  refine ends_when (fun hnone => ?_) fun hsome => ?_
  · refine Ends.bind ((ensure_grown hf hs.window 1).mono ?_ ?_)
    · rintro more g₁ ⟨hg,hmore,-⟩
      refine ends_check (fun htrue => hrest g₁ hg ?_) fun _ => ⟨by simp,hg.sound hs⟩
      have havailable := hmore htrue
      omega
    · rintro e g₁ ⟨he,hg⟩
      exact ⟨he,hg.sound hs⟩
  · refine hrest g (.rfl hs.window) ?_
    have hstored := hs.stored hp
    unfold ResumableGunzip.available at hsome ⊢
    omega

theorem readCode_ends {Q : Nat → ResumableGunzip → Prop} (hs : Sound source g₀)
    (hp : g₀.phase≠.stored) (hk : Keeps source g₀ g) {t : Table} (ht : t.Good)
    (hQ : ∀v g',Keeps source g₀ g' → g.bit < g'.bit → Q v g') :
    (readCode t).Ends g Q (Fails source) := by
  unfold readCode
  refine Ends.bind (Ends.bind (ends_get (ends_pure ?_)))
  set entry := t.entries.getD (g.word%2^t.bits) 0 with hentry
  refine Ends.bind (check_ends hs hp hk fun hne => ?_)
  have hbits := ht.entry_bits (of_decide_eq_true hne)
  refine Ends.bind (ends_modify (ends_pure (hQ _ _ (skip_keeps hk (entry%16)) ?_)))
  show g.bit < g.bit+entry%16
  omega

theorem readExtended_ends {Q : Nat → ResumableGunzip → Prop} {E : Failure → ResumableGunzip → Prop}
    (hk : Keeps source g₀ g) {base extra : List Nat}
    (hQ : ∀v g',Keeps source g₀ g' → g.bit ≤ g'.bit → base.getD index 0 ≤ v →
      v < base.getD index 0+2^extra.getD index 0 → Q v g') :
    (readExtended base extra index).Ends g Q E := by
  unfold readExtended
  refine Ends.bind (readBits_ends hk ?_)
  intro v hv g' hk' hbit _
  exact ends_pure (hQ _ g' hk' (by omega) (by omega) (by omega))

theorem length_range (h : index < 29) : 3 ≤ lengthBase.getD index 0 ∧
    lengthBase.getD index 0+2^lengthExtra.getD index 0 ≤ maximumMatch+1 := by
  have hall : ∀i < 29,3 ≤ lengthBase.getD i 0 ∧
      lengthBase.getD i 0+2^lengthExtra.getD i 0 ≤ maximumMatch+1 := by decide
  exact hall index h

/-- What a turn of `#codes` leaves: bits are consumed, and output is added unless the block ends. -/
structure Turned (source : GunzipSource) (g₀ g : ResumableGunzip) (position : Nat)
    (r : Nat × Bool) (g' : ResumableGunzip) : Prop where
  bit : g.bit < g'.bit
  sound : Sound source g'
  out : r.1 ≤ outBytes
  more : r.2=false → Keeps source g₀ g' ∧ position < r.1
  ended : r.2=true → position ≤ r.1 ∧ g'.bit ≤ source.length*8

theorem symbolStep_ends (hs : Sound source g₀) (hp : g₀.phase≠.stored) (hk : Keeps source g₀ g) (hl : literal.Good) (hd : distance.Good) (atEnd : Bool) (hpos : position < codesLimit) :
    (symbolStep source literal distance atEnd position).Ends g (Turned source g₀ g position)
      (Fails source) := by
  have hout : outBytes=codesLimit+maximumMatch := by decide
  have hmatch : 0 < maximumMatch := by decide
  unfold symbolStep
  refine Ends.bind (readCode_ends hs hp hk hl ?_)
  intro symbol g₁ hk₁ hb₁
  refine ends_ite (fun _ => ?_) fun _ => ends_ite (fun _ => ?_) fun _ => ?_
  · have hw := hk₁.written (fun i => if i=position ∧ position < outBytes
      then UInt8.ofNat symbol else g₁.out i) (max g₁.reach (position+1)) (by
        have hr := hk₁.reach
        omega)
    exact Ends.bind (ends_modify (ends_pure ⟨hb₁,hw.sound hs hp,by show position+1 ≤ _; omega,
      fun _ => ⟨hw,Nat.lt_succ_self position⟩,by simp⟩))
  · have hmax : g₁.stored ≤ 65535 := by
      rw [hk₁.same.stored]
      exact hs.count
    have henter : Sound source { g₁ with phase := if g₁.final then .trailer else .block } :=
      hk₁.enter hs hmax (by split <;> simp) (by split <;> simp)
    refine Ends.bind (ends_modify (Ends.bind (checkTruncation_ends henter fun hbit => ?_)))
    exact ends_pure ⟨hb₁,henter,by show position ≤ _; omega,by simp,fun _ => ⟨le_refl _,hbit⟩⟩
  · dsimp only
    generalize symbol-257=index
    refine Ends.bind (check_ends hs hp hk₁ fun hindex => ?_)
    obtain ⟨hlow,hhigh⟩ := length_range (of_decide_eq_true hindex)
    refine Ends.bind (readExtended_ends hk₁ ?_)
    intro length g₂ hk₂ hb₂ hlength hlength'
    refine Ends.bind (readCode_ends hs hp hk₂ hd ?_)
    intro distanceSymbol g₃ hk₃ hb₃
    refine Ends.bind (check_ends hs hp hk₃ fun _ => ?_)
    refine Ends.bind (readExtended_ends hk₃ ?_)
    intro back g₄ hk₄ hb₄ _ _
    refine Ends.bind (check_ends hs hp hk₄ fun _ => ?_)
    refine Ends.bind (copyMatch_ends (by omega) hk₄.reach fun out reach hreach => ?_)
    have hw := hk₄.written out reach hreach
    have hlast : Turned source g₀ g position (position+length,false)
        { g₄ with out := out, reach := reach } := by
      refine ⟨?_,hw.sound hs hp,by show position+length ≤ _; omega,fun _ => ⟨hw,?_⟩,by simp⟩
      · show g.bit < g₄.bit
        omega
      · show position < position+length
        omega
    refine Ends.bind (ends_when (fun _ => ?_) fun _ => ends_pure hlast)
    exact checkTruncation_ends (hw.sound hs hp) fun _ => ends_pure hlast

theorem turns_end {E : Failure → ResumableGunzip → Prop}
    {body : Nat → Decode (Nat ⊕ (Nat × Bool))} (hpos : position < codesLimit)
    (hk : Keeps source g₀ g) (hs : Sound source g₀) (hp : g₀.phase≠.stored)
    (hfuel : codesLimit < fuel)
    (hbody : ∀p h,Keeps source g₀ h → p < codesLimit →
      (p=position ∧ h=g ∨ position < p ∧ g.bit < h.bit) →
      (body p).Ends h (fun r h' => match r with
        | .inl p' => Turned source g₀ h p (p',false) h'
        | .inr r => Turned source g₀ h p r h' ∧ r.2=true ∨
          r=(p,false) ∧ h'=h ∧ position < p) E)
    (hstop : ∀p h,codesLimit ≤ p → (body p).Ends h (fun r h' => r=.inr (p,false) ∧ h'=h) E) :
    (loop fuel body position).Ends g (Turned source g₀ g position) E := by
  have hout : codesLimit < outBytes := by decide
  refine ends_loop (fun p h => Keeps source g₀ h ∧ p ≤ outBytes ∧
      (p=position ∧ h=g ∨ position < p ∧ g.bit < h.bit)) (fun p _ => codesLimit-p) ?_
    ⟨hk,by omega,.inl ⟨rfl,rfl⟩⟩ (by omega)
  rintro p h ⟨hkh,hph,hcases⟩
  by_cases hmore : p < codesLimit
  · refine (hbody p h hkh hmore hcases).post ?_
    have hbit : g.bit ≤ h.bit := by
      rcases hcases with ⟨-,rfl⟩ | ⟨-,hb⟩
      · exact le_refl _
      · omega
    have hge : position ≤ p := by
      rcases hcases with ⟨rfl,-⟩ | ⟨hp,-⟩
      · exact le_refl _
      · omega
    rintro (p' | r) h' hr
    · have hr' : Turned source g₀ h p (p',false) h' := hr
      obtain ⟨hk',hp'⟩ := hr'.more rfl
      have hp'' : p < p' := hp'
      have hb := hr'.bit
      exact ⟨⟨hk',hr'.out,.inr ⟨by omega,by omega⟩⟩,by omega⟩
    · rcases hr with ⟨hr,htrue⟩ | ⟨rfl,rfl,hp'⟩
      · have hb := hr.bit
        refine ⟨by omega,hr.sound,hr.out,fun hfalse => ?_,fun h => ⟨?_,(hr.ended h).2⟩⟩
        · rw [htrue] at hfalse
          cases hfalse
        · have hp' := (hr.ended h).1
          omega
      · rcases hcases with ⟨heq,-⟩ | ⟨-,hb⟩
        · omega
        · exact ⟨hb,hkh.sound hs hp,hph,fun _ => ⟨hkh,hp'⟩,by simp⟩
  · refine (hstop p h (by omega)).post ?_
    rintro r h' ⟨rfl,rfl⟩
    rcases hcases with ⟨heq,-⟩ | ⟨hp',hb⟩
    · omega
    · exact ⟨hb,hkh.sound hs hp,hph,fun _ => ⟨hkh,hp'⟩,by simp⟩

theorem symbols_ends (hfuel : codesLimit < fuel) (hs : Sound source g₀) (hp : g₀.phase≠.stored)
    (hk : Keeps source g₀ g) (hl : literal.Good) (hd : distance.Good)
    {bufferEnd : Int} {atEnd : Bool} (hpos : position < codesLimit)
    (hfirst : (g.bit : Int) ≤ bufferEnd ∨ atEnd=true) :
    (symbols source fuel literal distance bufferEnd atEnd position).Ends g
      (Turned source g₀ g position) (Fails source) := by
  unfold symbols
  refine turns_end hpos hk hs hp hfuel ?_ ?_
  · intro p h hkh hp' hcases
    refine Ends.bind (ends_get (ends_ite (fun _ => ?_) fun hno => ?_))
    · refine Ends.bind ((symbolStep_ends hs hp hkh hl hd atEnd hp').post fun r h' hr => ?_)
      obtain ⟨p',ended⟩ := r
      cases ended with
      | true => exact ends_pure (.inl ⟨hr,rfl⟩)
      | false => exact ends_pure hr
    · refine ends_pure (.inr ⟨rfl,rfl,?_⟩)
      rcases hcases with ⟨-,rfl⟩ | ⟨hless,-⟩
      · exact (hno ⟨hp',hfirst⟩).elim
      · exact hless
  · intro p h hle
    refine Ends.bind (ends_get (ends_ite (fun hyes => ?_) fun _ => ends_pure ⟨rfl,rfl⟩))
    have hless := hyes.1
    omega

theorem codesTurn_ends (hf : source.length < fuel) (hfuel : codesLimit < fuel)
    (hs : Sound source g₀) (hp : g₀.phase≠.stored) (hk : Keeps source g₀ g) (hl : literal.Good) (hd : distance.Good)
    (hpos : position < codesLimit) :
    (codesTurn source fuel literal distance position).Ends g (Turned source g₀ g position)
      (Fails source) := by
  unfold codesTurn
  refine Ends.bind (ends_get (Ends.bind ?_))
  have hrest : ∀g₁,Keeps source g₀ g₁ → g₁.bit=g.bit →
      ((symbolLookaheadBits : Int) ≤ g₁.availableBits ∨ source.length ≤ g₁.bufferEnd) →
      Ends (do
        let g ← get
        let bufferEnd : Int := (g.bufferEnd*8 : Nat)-(symbolLookaheadBits : Int)
        let atEnd := decide (source.length ≤ g.bufferEnd)
        let r ← symbols source fuel literal distance bufferEnd atEnd position
        if r.2 then return r
        else
          checkTruncation source
          check (decide ((← get).bit≠g.bit)) .stalled
          return r) g₁ (Turned source g₀ g position) (Fails source) := by
    intro g₁ hk₁ hb₁ hfirst
    refine Ends.bind (ends_get ?_)
    have hfirst' : (g₁.bit : Int) ≤ (g₁.bufferEnd*8 : Nat)-(symbolLookaheadBits : Int) ∨
        decide (source.length ≤ g₁.bufferEnd)=true := by
      refine hfirst.imp (fun h => ?_) fun h => decide_eq_true h
      unfold ResumableGunzip.availableBits at h
      omega
    refine Ends.bind ((symbols_ends hfuel hs hp hk₁ hl hd hpos hfirst').post fun r g₂ hr => ?_)
    have hturned : Turned source g₀ g position r g₂ :=
      ⟨by rw [←hb₁]; exact hr.bit,hr.sound,hr.out,hr.more,hr.ended⟩
    refine ends_ite (fun _ => ends_pure hturned) fun _ => ?_
    refine Ends.bind (checkTruncation_ends hr.sound fun _ => Ends.bind (ends_get (Ends.bind ?_)))
    refine ends_check (fun _ => ends_pure hturned) fun hstall => ?_
    have hmoved := hr.bit
    have heq := of_decide_eq_false hstall
    rw [not_not] at heq
    omega
  refine ends_when (fun hless => ?_) fun henough => ?_
  · refine Ends.bind (Ends.bind (ends_get (ensure_ends hf hs hp hk ?_)))
    intro more g₁ hk₁ hb₁ htrue hfalse
    refine ends_when (fun hend => ?_) fun hmore => ?_
    · refine Ends.bind (ends_get (check_ends hs hp hk₁ fun _ => ?_))
      exact hrest g₁ hk₁ hb₁ (.inr (hfalse hend))
    · have havailable := htrue (by cases more <;> simp_all)
      refine hrest g₁ hk₁ hb₁ (.inl ?_)
      unfold ResumableGunzip.available at havailable
      unfold ResumableGunzip.availableBits
      omega
  · refine hrest g hk rfl (.inl ?_)
    omega

theorem codes_ends (hf : source.length < fuel) (hfuel : codesLimit < fuel) (hs : Sound source g)
    (hp : g.phase=.codes) (hpos : position < codesLimit) :
    (codes source fuel position).Ends g (fun p g' => Sound source g' ∧ g.bit < g'.bit ∧
      position ≤ p ∧ p ≤ outBytes ∧ (p=position → g'.bit ≤ source.length*8)) (Fails source) := by
  have hp' : g.phase≠.stored := by simp [hp]
  obtain ⟨⟨literal,hl⟩,distance,hd⟩ := hs.codes hp
  have hlg := hs.literal literal hl
  have hdg := hs.distance distance hd
  unfold codes
  refine Ends.bind (ends_get ?_)
  rw [hl,hd]
  dsimp only
  have hout : codesLimit < outBytes := by decide
  refine ends_loop (fun p h => Keeps source g h ∧ p ≤ outBytes ∧
      (p=position ∧ h=g ∨ position < p ∧ g.bit < h.bit)) (fun p _ => codesLimit-p) ?_
    ⟨Keeps.rfl hs,by omega,.inl ⟨rfl,rfl⟩⟩ (by omega)
  rintro p h ⟨hkh,hph,hcases⟩
  refine ends_ite (fun hless => ?_) fun hover => ?_
  · refine Ends.bind ((codesTurn_ends hf hfuel hs hp' hkh hlg hdg hless).post fun r h' hr => ?_)
    have hb := hr.bit
    have hge : position ≤ p ∧ g.bit ≤ h.bit := by
      rcases hcases with ⟨rfl,rfl⟩ | hboth
      · exact ⟨le_refl _,le_refl _⟩
      · omega
    obtain ⟨p',ended⟩ := r
    cases ended with
    | true =>
      have hp'' := (hr.ended rfl).1
      exact ends_pure ⟨hr.sound,by omega,le_trans hge.1 hp'',hr.out,fun _ => (hr.ended rfl).2⟩
    | false =>
      obtain ⟨hk',hless'⟩ := hr.more rfl
      have hless'' : p < p' := hless'
      exact ends_pure ⟨⟨hk',hr.out,.inr ⟨by omega,by omega⟩⟩,by omega⟩
  · rcases hcases with ⟨heq,-⟩ | ⟨hless,hb⟩
    · omega
    · exact ends_pure ⟨hkh.sound hs hp',hb,by omega,hph,by omega⟩

theorem trailer_ends (hf : source.length < fuel) (hs : Sound source g) (hp : g.phase≠.stored) :
    (trailer source fuel).Ends g (fun _ g' => Sound source g') (Fails source) := by
  unfold trailer
  refine Ends.bind (ends_modify (Ends.bind (ensure_ends hf hs hp (align_keeps (Keeps.rfl hs)) ?_)))
  intro more g₁ hk₁ _ _ _
  refine ends_ite (fun _ => ?_) fun _ => corrupt_ends hs hp hk₁
  refine Ends.bind (readBits_ends hk₁ ?_)
  intro _ _ g₂ hk₂ _ _
  refine Ends.bind (readBits_ends hk₂ ?_)
  intro _ _ g₃ hk₃ _ _
  refine Ends.bind (readBits_ends hk₃ ?_)
  intro _ _ g₄ hk₄ _ _
  refine Ends.bind (readBits_ends hk₄ ?_)
  intro _ _ g₅ hk₅ _ _
  refine Ends.bind (ends_get (Ends.bind (check_ends hs hp hk₅ fun _ => ?_)))
  refine Ends.bind (check_ends hs hp hk₅ fun _ => ?_)
  have hfail := hk₅.fails hs hp (e := .exactBytes) (by simp)
  refine Ends.bind (ends_check (fun _ => ?_) fun _ => hfail)
  have hs₅ := hk₅.sound hs hp
  have hs₆ : Sound source { g₅ with raw := g₅.raw.finish } :=
    ⟨hs₅.length,⟨hs₅.window.start,hs₅.window.stop,hs₅.window.bytes⟩,hs₅.history,hs₅.reach,hs₅.stored,hs₅.count,hs₅.codes,
      hs₅.literal,hs₅.distance⟩
  refine Ends.bind (ends_modify (Ends.bind (ends_check (fun _ => ends_modify ?_) fun _ => ⟨by simp,hs₆⟩)))
  exact ⟨hs₅.length,⟨hs₅.window.start,hs₅.window.stop,hs₅.window.bytes⟩,hs₅.history,hs₅.reach,by simp,hs₅.count,by simp,
    hs₅.literal,hs₅.distance⟩

def remaining (source : GunzipSource) (g : ResumableGunzip) : Nat :=
  2*(source.length*8-g.bit)+if g.phase=.stored then 1 else 0

theorem remaining_lt {g' : ResumableGunzip} (hb : g.bit < g'.bit) (hend : g'.bit ≤ source.length*8) :
    remaining source g' < remaining source g := by
  unfold remaining
  split <;> split <;> omega

theorem phaseStep_ends (hf : source.length+400 < fuel) (hfuel : codesLimit < fuel)
    (hs : Sound source g) (hpos : position ≤ historyBytes) :
    (phaseStep source fuel position).Ends g (fun r g' => Sound source g' ∧ ∀p,r=some p →
      position ≤ p ∧ p ≤ outBytes ∧ (p=position → remaining source g' < remaining source g))
      (Fails source) := by
  have hlimit : historyBytes < codesLimit := by decide
  have hout : codesLimit < outBytes := by decide
  have hfs : source.length < fuel := by omega
  unfold phaseStep
  refine Ends.bind (ends_get ?_)
  cases hp : g.phase with
  | «end» => exact ends_pure ⟨hs,by simp⟩
  | header =>
    refine Ends.bind ((header_ends hfs hs (by simp [hp])).post ?_)
    rintro _ g' ⟨hs',hb,hzero,hp'⟩
    refine ends_pure ⟨hs',?_⟩
    intro p hsome
    obtain rfl := Option.some.inj hsome
    refine ⟨le_refl _,by omega,fun _ => ?_⟩
    have hlength := hs.length
    unfold remaining
    rw [hp,hp']
    simp only [reduceCtorEq,if_false]
    omega
  | block =>
    refine Ends.bind ((blockHeader_ends hf hs hp).post ?_)
    rintro _ g' ⟨hs',hb,hend⟩
    refine ends_pure ⟨hs',?_⟩
    intro p hsome
    obtain rfl := Option.some.inj hsome
    exact ⟨le_refl _,by omega,fun _ => remaining_lt hb hend⟩
  | stored =>
    refine Ends.bind ((storedBytes_ends hfs hs hp hpos).post ?_)
    rintro p' g' ⟨hs',hge,hle,hcases⟩
    refine ends_pure ⟨hs',?_⟩
    intro p hsome
    obtain rfl := Option.some.inj hsome
    refine ⟨hge,by omega,fun heq => ?_⟩
    rcases hcases with ⟨hless,-⟩ | ⟨-,hp',hb⟩
    · omega
    · unfold remaining
      rw [if_pos hp,if_neg hp',hb]
      omega
  | codes =>
    refine Ends.bind ((codes_ends hfs hfuel hs hp (by omega)).post ?_)
    rintro p' g' ⟨hs',hb,hge,hle,hend⟩
    refine ends_pure ⟨hs',?_⟩
    intro p hsome
    obtain rfl := Option.some.inj hsome
    exact ⟨hge,hle,fun heq => remaining_lt hb (hend heq)⟩
  | trailer =>
    exact Ends.bind ((trailer_ends hfs hs (by simp [hp])).post fun _ g' hs' =>
      ends_pure ⟨hs',by simp⟩)

theorem emit_ends (hs : Sound source g) {start : Nat} (hless : start < position) :
    (emit source start position).Ends g (fun chunk g' => chunk≠[] ∧ Sound source g')
      (Fails source) := by
  have hsame : ∀(decoded : Nat) (crc : UInt32),
      Sound source { g with decoded := decoded, crc := crc } := fun _ _ =>
    ⟨hs.length,⟨hs.window.start,hs.window.stop,hs.window.bytes⟩,hs.history,hs.reach,hs.stored,hs.count,hs.codes,hs.literal,
      hs.distance⟩
  unfold emit
  refine Ends.bind (ends_get (Ends.bind (ends_modify (Ends.bind (ends_check (fun _ => ?_) fun _ => ?_)))))
  · refine Ends.bind (ends_modify ?_)
    cases hu : g.output.update ((List.range (position-start)).map fun i => g.out (start+i)) with
    | none => exact ends_fail ⟨by simp,hsame _ _⟩
    | some output =>
      refine Ends.bind (ends_modify (ends_pure ⟨?_,?_⟩))
      · intro hnil
        rw [List.map_eq_nil_iff,List.range_eq_nil] at hnil
        omega
      · exact ⟨hs.length,⟨hs.window.start,hs.window.stop,hs.window.bytes⟩,min_le_right _ _,hs.reach,hs.stored,
          hs.count,hs.codes,hs.literal,hs.distance⟩
  · exact ⟨by simp,hsame _ g.crc⟩

/-- So many turns are enough for each loop of a call. -/
def enoughFuel (source : GunzipSource) : Nat := 16*source.length+codesLimit+401

theorem phases_ends (hfuel : enoughFuel source ≤ fuel) (hs : Sound source g) :
    Ends (loop fuel (fun _ : Unit => do
      match ← phaseStep source fuel g.history with
      | none => return .inr none
      | some position => if position=g.history then return .inl () else return .inr (some position)) ())
      g (fun r g' => Sound source g' ∧ ∀p,r=some p → g.history < p) (Fails source) := by
  have hlimit : historyBytes < codesLimit := by decide
  unfold enoughFuel at hfuel
  refine ends_loop (fun _ h => Sound source h) (fun _ h => remaining source h) ?_ hs ?_
  · intro _ h hh
    refine Ends.bind ((phaseStep_ends (by omega) (by omega) hh hs.history).post ?_)
    rintro r h' ⟨hh',hr⟩
    cases r with
    | none => exact ends_pure ⟨hh',by simp⟩
    | some p =>
      obtain ⟨hge,-,hless⟩ := hr p rfl
      refine ends_ite (fun heq => ends_pure ⟨hh',hless heq⟩) fun hne => ends_pure ⟨hh',?_⟩
      intro p' hsome
      obtain rfl := Option.some.inj hsome
      omega
  · unfold remaining
    split <;> omega

theorem next_ends (hfuel : enoughFuel source ≤ fuel) (hs : Sound source g) :
    (next source fuel).Ends g (fun r g' => r≠some [] ∧ Sound source g') (Fails source) := by
  unfold next
  refine Ends.bind (ends_get (Ends.bind ((phases_ends hfuel hs).post ?_)))
  rintro r g' ⟨hs',hr⟩
  cases r with
  | none => exact ends_pure ⟨by simp,hs'⟩
  | some p =>
    refine Ends.bind ((emit_ends hs' (hr p rfl)).post ?_)
    rintro chunk g'' ⟨hne,hs''⟩
    exact ends_pure ⟨fun h => hne (Option.some.inj h),hs''⟩

/-- A decoder that the constructor accepts is sound. -/
theorem construct_ends (source : GunzipSource) (checkpoint : Option GunzipCheckpoint)
    (window : Option (List UInt8)) :
    (construct source checkpoint window).Ends .new (fun _ g => Sound source g) fun _ _ => True := by
  unfold construct
  refine Ends.bind (ends_check (fun hlength => ?_) fun _ => trivial)
  have hlength := (of_decide_eq_true hlength).1
  cases checkpoint with
  | none =>
    refine ends_pure ⟨hlength,⟨?_,?_,?_⟩,?_,?_,?_,?_,?_,?_,?_⟩ <;>
      simp [ResumableGunzip.new,ResumableGunzip.bufferEnd]
  | some c =>
    cases window with
    | none => exact ends_fail trivial
    | some window =>
      refine Ends.bind (ends_check (fun _ => ?_) fun _ => trivial)
      refine Ends.bind (ends_check (fun hbit => ?_) fun _ => trivial)
      refine Ends.bind (ends_check (fun _ => ?_) fun _ => trivial)
      refine Ends.bind (ends_check (fun hstored => ?_) fun _ => trivial)
      refine Ends.bind (ends_check (fun _ => ?_) fun _ => trivial)
      refine Ends.bind (ends_check (fun _ => ?_) fun _ => trivial)
      refine Ends.bind (ends_check (fun _ => ?_) fun _ => trivial)
      refine Ends.bind (ends_check (fun _ => ?_) fun _ => trivial)
      refine Ends.bind (ends_check (fun _ => ?_) fun _ => trivial)
      have hbit := of_decide_eq_true hbit
      cases StreamingSha256.restored c.raw with
      | none => exact ends_fail trivial
      | some raw =>
        cases StreamingSha256.restored c.output with
        | none => exact ends_fail trivial
        | some output =>
          refine Ends.bind (ends_modify (Ends.bind (ends_check (fun _ => ?_) fun _ => trivial)))
          refine Ends.bind (ends_check (fun hwindow => ?_) fun _ => trivial)
          have hwindow : window.length ≤ historyBytes := by
            rw [of_decide_eq_true hwindow]
            exact min_le_right _ _
          have hout : historyBytes ≤ outBytes := by decide
          refine Ends.bind (ends_modify (Ends.bind ?_))
          -- whatever the tables are, the buffer starts at the cursor
          have hrest : ∀g : ResumableGunzip,g.buffer=[] → g.bit=c.bit → g.history=window.length →
              g.reach=max 0 window.length →
              g.stored=c.stored →
              (g.phase=.codes → (∃l,g.literal=some l) ∧ ∃d,g.distance=some d) →
              (∀t,g.literal=some t → t.Good) → (∀t,g.distance=some t → t.Good) →
              (modify fun g => { g with bufferStart := g.bit/8 } : Decode Unit).Ends g
                (fun _ g => Sound source g) fun _ _ => True := by
            intro g hbuffer hbit' hhistory hreach hcount hcodes hl hd
            have hstop : g.bit/8+g.buffer.length ≤ source.length := by
              rw [hbuffer,hbit',List.length_nil]
              omega
            refine ends_modify ⟨hlength,⟨le_refl _,hstop,fun data _ => ?_⟩,?_,?_,fun _ => ?_,?_,hcodes,hl,hd⟩
            · show g.buffer=(data.drop (g.bit/8)).take g.buffer.length
              rw [hbuffer,List.length_nil,List.take_zero]
            · rw [←hhistory] at hwindow
              exact hwindow
            · show g.reach ≤ outBytes
              omega
            · exact Nat.le_add_right _ _
            · show g.stored ≤ 65535
              rw [hcount]
              exact of_decide_eq_true hstored
          refine ends_when (fun _ => ?_) fun hno => hrest _ rfl rfl rfl rfl rfl
            (fun h => (hno h).elim) (fun t h => by cases h) fun t h => by cases h
          cases c.lengths with
          | none =>
            refine useFixed_ends (fun l d hl hd => ?_) trivial
            exact hrest _ rfl rfl rfl rfl rfl (fun _ => ⟨⟨l,rfl⟩,d,rfl⟩)
              (fun t h => by obtain rfl := Option.some.inj h; exact hl)
              fun t h => by obtain rfl := Option.some.inj h; exact hd
          | some lengths =>
            refine Ends.bind (ends_check (fun hls => ?_) fun _ => trivial)
            have hls := (of_decide_eq_true hls).2.2
            refine useDynamic_ends hls _ (fun l d hl hd => ?_) trivial fun _ _ => trivial
            exact hrest _ rfl rfl rfl rfl rfl (fun _ => ⟨⟨l,rfl⟩,d,rfl⟩)
              (fun t h => by obtain rfl := Option.some.inj h; exact hl)
              fun t h => by obtain rfl := Option.some.inj h; exact hd

end

/-- The decoders of a source: constructed with any checkpoint, and after any calls of `next`, whether
they returned or failed. -/
inductive Reached (source : GunzipSource) (fuel : Nat) : ResumableGunzip → Prop where
  | construct {checkpoint : Option GunzipCheckpoint} {window : Option (List UInt8)}
      {g : ResumableGunzip} (h : construct source checkpoint window .new=some (.ok (),g)) :
      Reached source fuel g
  | call {g g' : ResumableGunzip} {r : Except Failure (Option (List UInt8))}
      (hg : Reached source fuel g) (h : next source fuel g=some (r,g')) : Reached source fuel g'

/-- The decoders in which turns of the loops of one call begin. -/
inductive Turns (source : GunzipSource) (fuel : Nat) (g : ResumableGunzip) : ResumableGunzip → Prop where
  | call : Turns source fuel g g
  | phase {h h' : ResumableGunzip} (hh : Turns source fuel g h)
      (hstep : phaseStep source fuel g.history h=some (.ok (some g.history),h')) : Turns source fuel g h'
  | codes {h h' : ResumableGunzip} {literal distance : Table} {position position' : Nat}
      (hh : Turns source fuel g h) (hp : h.phase=.codes) (hl : h.literal=some literal)
      (hd : h.distance=some distance) (hpos : position < codesLimit)
      (hstep : codesTurn source fuel literal distance position h=some (.ok (position',false),h')) :
      Turns source fuel g h'
  | symbol {h h' : ResumableGunzip} {literal distance : Table} {atEnd : Bool} {position position' : Nat}
      (hh : Turns source fuel g h) (hp : h.phase=.codes) (hl : h.literal=some literal)
      (hd : h.distance=some distance) (hpos : position < codesLimit)
      (hstep : symbolStep source literal distance atEnd position h=some (.ok (position',false),h')) :
      Turns source fuel g h'

section
variable {source : GunzipSource} {fuel : Nat} {g : ResumableGunzip}

theorem Reached.sound (hfuel : enoughFuel source ≤ fuel) (hg : Reached source fuel g) :
    Sound source g := by
  induction hg with
  | construct h => exact (construct_ends source _ _).returned h
  | @call _ _ r _ h ih =>
    have hends := next_ends hfuel ih
    cases r with
    | ok r => exact (hends.returned h).2
    | error e => exact (hends.failed h).2

theorem Turns.sound (hfuel : enoughFuel source ≤ fuel) (hs : Sound source g) {h : ResumableGunzip}
    (hh : Turns source fuel g h) : Sound source h := by
  unfold enoughFuel at hfuel
  have hf : source.length+400 < fuel := by omega
  have hfs : source.length < fuel := by omega
  have hcodes : codesLimit < fuel := by omega
  induction hh with
  | call => exact hs
  | phase _ hstep ih =>
    exact ((phaseStep_ends hf hcodes ih hs.history).returned hstep).1
  | codes _ hp hl hd hpos hstep ih =>
    have hends := codesTurn_ends hfs hcodes ih (by simp [hp]) (Keeps.rfl ih)
      (ih.literal _ hl) (ih.distance _ hd) hpos
    exact (hends.returned hstep).sound
  | @symbol _ _ _ _ atEnd _ _ _ hp hl hd hpos hstep ih =>
    have hends := symbolStep_ends ih (by simp [hp]) (Keeps.rfl ih) (ih.literal _ hl)
      (ih.distance _ hd) atEnd hpos
    exact (hends.returned hstep).sound

/-- Every call ends, never with an empty chunk or the stall and with all writes inside of `out`; and
every turn that does not fail consumes a bit or ends its phase. -/
theorem call_progress (hfuel : enoughFuel source ≤ fuel) (hg : Reached source fuel g) :
    (next source fuel).Ends g (fun r g' => r≠some [] ∧ g'.reach ≤ outBytes)
      (fun e g' => e≠.stalled ∧ g'.reach ≤ outBytes) ∧
    ∀h,Turns source fuel g h → h.reach ≤ outBytes ∧
      (h.phase=.block → (blockHeader source fuel).Ends h (fun _ h' => h.bit < h'.bit)
        fun e _ => e≠.stalled) ∧
      (h.phase=.stored → (storedBytes source fuel g.history).Ends h
        (fun _ h' => h.bit < h'.bit ∨ h'.phase≠.stored) fun e _ => e≠.stalled) ∧
      (h.phase=.codes → ∀literal distance position,h.literal=some literal →
        h.distance=some distance → position < codesLimit →
        (codesTurn source fuel literal distance position).Ends h (fun _ h' => h.bit < h'.bit)
          (fun e _ => e≠.stalled) ∧
        ∀atEnd,(symbolStep source literal distance atEnd position).Ends h
          (fun _ h' => h.bit < h'.bit) fun e _ => e≠.stalled) := by
  have hs := hg.sound hfuel
  have hlimits := hfuel
  unfold enoughFuel at hlimits
  constructor
  · exact (next_ends hfuel hs).mono (fun r g' h => ⟨h.1,h.2.reach⟩) fun e g' h => ⟨h.1,h.2.reach⟩
  · intro h hh
    have hsh := hh.sound hfuel hs
    refine ⟨hsh.reach,fun hp => ?_,fun hp => ?_,?_⟩
    · exact (blockHeader_ends (by omega) hsh hp).mono (fun _ h' hb => hb.2.1) fun e h' hf => hf.1
    · refine (storedBytes_ends (by omega) hsh hp hs.history).mono ?_ fun e h' hf => hf.1
      rintro p h' ⟨-,-,-,⟨-,hb⟩ | ⟨-,hp',-⟩⟩
      · exact .inl hb
      · exact .inr hp'
    · intro hp literal distance position hl hd hpos
      have hne : h.phase≠.stored := by simp [hp]
      have hlg := hsh.literal literal hl
      have hdg := hsh.distance distance hd
      constructor
      · exact (codesTurn_ends (by omega) (by omega) hsh hne (Keeps.rfl hsh) hlg hdg hpos).mono
          (fun r h' hr => hr.bit) fun e h' hf => hf.1
      · intro atEnd
        exact (symbolStep_ends hsh hne (Keeps.rfl hsh) hlg hdg atEnd hpos).mono
          (fun r h' hr => hr.bit) fun e h' hf => hf.1

end

/-- The archive of the text `hello`. -/
def helloArchive : List UInt8 :=
  [0x1f,0x8b,8,0,0,0,0,0,2,3,0xcb,0x48,0xcd,0xc9,0xc9,7,0,0x86,0xa6,0x10,0x36,5,0,0,0]

def helloSource : GunzipSource where
  length := 25
  sha256 := sha256 helloArchive
  decompressedBytes := 5
  read := fun _ offset length => .ok ((helloArchive.drop offset).take length,[49])

theorem hello_progress : (next helloSource (enoughFuel helloSource)).Ends .new
    (fun r g' => r≠some [] ∧ g'.reach ≤ outBytes) fun e g' => e≠.stalled ∧ g'.reach ≤ outBytes :=
  (call_progress (le_refl _) (.construct (show construct helloSource none none .new=some (.ok (),.new) from rfl))).1

end CardKeepr.Shared.Gunzip
