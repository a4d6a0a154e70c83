import CardKeepr.Lib.Fallible
import CardKeepr.Shared.Gunzip

namespace CardKeepr.Shared.Gunzip
open Lib Steps List

variable {lengths : List Nat}

/-- Each code of the table has a bit. -/
structure Table.Good (t : Table) : Prop where
  entries : ∀e∈t.entries,e=0 ∨ 1 ≤ e%16
  bits : t.bits ≤ 15

theorem Table.Good.entry_bits {t : Table} (ht : t.Good) {index : Nat}
    (h : t.entries.getD index 0≠0) : 1 ≤ t.entries.getD index 0%16 := by
  rw [List.getD_eq_getElem?_getD] at h ⊢
  cases hget : t.entries[index]? with
  | none =>
    rw [hget] at h
    exact (h rfl).elim
  | some e =>
    rw [hget] at h
    exact (ht.entries e (List.mem_of_getElem? hget)).resolve_left h

theorem enterCodes_good {entries : List Nat} {symbol : Nat} {next : Nat → Nat}
    (hl : ∀l∈lengths,l ≤ 15) (he : ∀e∈entries,e=0 ∨ 1 ≤ e%16) :
    ∀e∈enterCodes lengths symbol entries next,e=0 ∨ 1 ≤ e%16 := by
  induction lengths generalizing symbol entries next with
  | nil => exact he
  | cons length lengths ih =>
    have hrest : ∀l∈lengths,l ≤ 15 := fun l h => hl l (mem_cons_of_mem length h)
    have hlength := hl length mem_cons_self
    rw [enterCodes]
    split
    · exact ih hrest he
    · apply ih hrest
      intro e hmem
      obtain ⟨i,hi,rfl⟩ := mem_mapIdx.mp hmem
      split
      · right
        omega
      · exact he _ (getElem_mem hi)

theorem huffmanTable_good {t : Table} (h : huffmanTable lengths=.ok t)
    (hl : ∀l∈lengths,l ≤ 15) : t.Good := by
  have hmax : lengths.foldl max 0 ≤ 15 := by
    have hfold : ∀(ls : List Nat) (m : Nat),m ≤ 15 → (∀l∈ls,l ≤ 15) → ls.foldl max m ≤ 15 := by
      intro ls
      induction ls with
      | nil => exact fun m hm _ => hm
      | cons l ls ih =>
        intro m hm hls
        have hlm := hls l mem_cons_self
        exact ih (max m l) (by omega) fun k hk => hls k (mem_cons_of_mem l hk)
    exact hfold lengths 0 (by decide) hl
  unfold huffmanTable at h
  dsimp only at h
  split at h
  · obtain rfl := Except.ok.inj h
    constructor
    · simp
    · decide
  · obtain ⟨⟨code,left,next⟩,-,h⟩ := bind_ok h
    obtain rfl := Except.ok.inj h
    constructor
    · apply enterCodes_good hl
      intro e he
      exact .inl (eq_of_mem_replicate he)
    · exact hmax

theorem firstCodes_error {counts : Nat → Nat} {n : Nat} {e : Failure}
    (h : firstCodes counts n=.error e) : e=.corrupt := by
  induction n with
  | zero => cases h
  | succ n ih =>
    unfold firstCodes at h
    cases hn : firstCodes counts n with
    | error e' =>
      rw [hn] at h
      cases h
      exact ih hn
    | ok r =>
      rw [hn,ok_bind] at h
      dsimp only at h
      split at h
      · cases h
        rfl
      · cases h

theorem huffmanTable_error {e : Failure} (h : huffmanTable lengths=.error e) : e=.corrupt := by
  unfold huffmanTable at h
  dsimp only at h
  split at h
  · cases h
  · cases hc : firstCodes (fun l => if l=0 then 0 else lengths.count l) 15 with
    | error e' =>
      rw [hc] at h
      cases h
      exact firstCodes_error hc
    | ok r =>
      rw [hc] at h
      cases h

/-- Each read that the source answers gives bytes of `data`. -/
structure Serves (source : GunzipSource) (data : List UInt8) : Prop where
  length : data.length=source.length
  read : ∀k offset length bytes etag,source.read k offset length=.ok (bytes,etag) →
    bytes=(data.drop offset).take length

/-- The buffer holds bytes of the source, the cursor is not before it. -/
structure Window (source : GunzipSource) (g : ResumableGunzip) : Prop where
  start : g.bufferStart ≤ g.bit/8
  stop : g.bufferEnd ≤ source.length
  bytes : ∀data,Serves source data → g.buffer=(data.drop g.bufferStart).take g.buffer.length

/-- Everything but the reading of the source. -/
structure Same (g g' : ResumableGunzip) : Prop where
  phase : g'.phase=g.phase
  stored : g'.stored=g.stored
  literal : g'.literal=g.literal
  distance : g'.distance=g.distance
  history : g'.history=g.history

theorem Same.rfl {g : ResumableGunzip} : Same g g := ⟨.refl _,.refl _,.refl _,.refl _,.refl _⟩

theorem Same.trans {g h k : ResumableGunzip} (a : Same g h) (b : Same h k) : Same g k :=
  ⟨b.phase.trans a.phase,b.stored.trans a.stored,b.literal.trans a.literal,
    b.distance.trans a.distance,b.history.trans a.history⟩

/-- More of the source is buffered, at the same cursor. -/
structure Grown (source : GunzipSource) (g g' : ResumableGunzip) : Prop where
  window : Window source g'
  same : Same g g'
  bit : g'.bit=g.bit
  reach : g'.reach=g.reach
  stop : g.bufferEnd ≤ g'.bufferEnd

theorem Grown.rfl {source : GunzipSource} {g : ResumableGunzip} (h : Window source g) :
    Grown source g g := ⟨h,.rfl,.refl _,.refl _,le_refl _⟩

theorem Grown.trans {source : GunzipSource} {g h k : ResumableGunzip} (a : Grown source g h)
    (b : Grown source h k) : Grown source g k :=
  ⟨b.window,a.same.trans b.same,b.bit.trans a.bit,b.reach.trans a.reach,a.stop.trans b.stop⟩

section
variable {source : GunzipSource} {g : ResumableGunzip}

theorem refill_ends (hw : Window source g) (hmore : g.bufferEnd < source.length) :
    (refill source).Ends g (fun _ g' => Grown source g g' ∧ g.bufferEnd < g'.bufferEnd)
      (fun e g' => e≠.stalled ∧ Grown source g g') := by
  have hread : Grown source g { g with reads := g.reads+1 } :=
    ⟨⟨hw.start,hw.stop,hw.bytes⟩,⟨rfl,rfl,rfl,rfl,rfl⟩,rfl,rfl,le_refl _⟩
  unfold refill
  refine Ends.bind (ends_get (Ends.bind (ends_modify ?_)))
  cases hr : source.read g.reads g.bufferEnd (min gunzipRangeBytes (source.length-g.bufferEnd)) with
  | error reason => exact ends_fail ⟨by simp,hread⟩
  | ok answer =>
    obtain ⟨read,etag⟩ := answer
    dsimp only
    refine Ends.bind (ends_check (fun hlength => ?_) fun _ => ⟨by simp,hread⟩)
    refine Ends.bind (ends_check (fun _ => ?_) fun _ => ⟨by simp,hread⟩)
    have hlength := of_decide_eq_true hlength
    have hrange : 0 < gunzipRangeBytes := by decide
    refine Ends.bind (ends_modify (Ends.bind ?_))
    set k := { g with reads := g.reads+1, etag := some etag } with hk
    -- the digest of the source changes nothing else
    have hgrown : ∀k',Grown source k k' → k'.buffer=k.buffer → k'.bufferStart=k.bufferStart →
        Grown source g { k' with
          buffer := k'.buffer.drop (min (g.bit/8) g.bufferEnd-k'.bufferStart)++read
          bufferStart := min (g.bit/8) g.bufferEnd } ∧
        g.bufferEnd < min (g.bit/8) g.bufferEnd+
          (k'.buffer.drop (min (g.bit/8) g.bufferEnd-k'.bufferStart)++read).length := by
      intro k' hk' hbuffer hstart
      have hstop : g.bufferEnd=g.bufferStart+g.buffer.length := by rfl
      have hws := hw.start
      have hlen : min (g.bit/8) g.bufferEnd+
          (k'.buffer.drop (min (g.bit/8) g.bufferEnd-k'.bufferStart)++read).length=
          g.bufferEnd+read.length := by
        have hs : k'.bufferStart=g.bufferStart := hstart
        have hb : k'.buffer=g.buffer := hbuffer
        rw [length_append,length_drop,hs,hb]
        omega
      refine ⟨⟨⟨?_,?_,?_⟩,?_,?_,?_,?_⟩,?_⟩
      · show min (g.bit/8) g.bufferEnd ≤ k'.bit/8
        have hbit : k'.bit=g.bit := hk'.bit
        rw [hbit]
        exact min_le_left _ _
      · show min (g.bit/8) g.bufferEnd+_ ≤ source.length
        rw [hlen]
        omega
      · intro data hserves
        have hold := hw.bytes data hserves
        have hnew := hserves.read _ _ _ _ _ hr
        have hs : k'.bufferStart=g.bufferStart := hstart
        have hb : k'.buffer=g.buffer := hbuffer
        show k'.buffer.drop (min (g.bit/8) g.bufferEnd-k'.bufferStart)++read=
          (data.drop (min (g.bit/8) g.bufferEnd)).take
            (k'.buffer.drop (min (g.bit/8) g.bufferEnd-k'.bufferStart)++read).length
        obtain ⟨skipped,hskipped,hle⟩ : ∃skipped,min (g.bit/8) g.bufferEnd=g.bufferStart+skipped ∧
            skipped ≤ g.buffer.length := ⟨min (g.bit/8) g.bufferEnd-g.bufferStart,by omega,by omega⟩
        rw [hs,hb,hskipped,Nat.add_sub_cancel_left,length_append,length_drop,take_add,drop_drop]
        congr 1
        · rw [hold,drop_take,drop_drop,length_take_of_le]
          have hlen := congrArg List.length hold
          rw [length_take] at hlen
          omega
        · rw [hnew,length_take_of_le (by rw [length_drop,hserves.length]; omega)]
          congr 2
          omega
      · have hs := hk'.same
        exact ⟨hs.phase,hs.stored,hs.literal,hs.distance,hs.history⟩
      · exact hk'.bit
      · exact hk'.reach
      · show g.bufferEnd ≤ min (g.bit/8) g.bufferEnd+_
        rw [hlen]
        omega
      · rw [hlen]
        omega
    have hkw : Window source k := ⟨hw.start,hw.stop,hw.bytes⟩
    refine ends_when (fun _ => ?_) fun _ => ends_modify (hgrown k (.rfl hkw) rfl rfl)
    cases hu : g.raw.update (read.drop (g.rawHashed-g.bufferEnd)) with
    | none => exact ends_fail ⟨by simp,⟨hkw,⟨rfl,rfl,rfl,rfl,rfl⟩,rfl,rfl,le_refl _⟩⟩
    | some raw => exact ends_modify (ends_modify (hgrown _ ⟨⟨hw.start,hw.stop,hw.bytes⟩,⟨rfl,rfl,rfl,rfl,rfl⟩,rfl,rfl,le_refl _⟩ rfl rfl))

theorem ensure_grown {fuel : Nat} (hf : source.length < fuel) (hw : Window source g) (bytes : Nat) :
    (ensure source fuel bytes).Ends g (fun more g' => Grown source g g' ∧
      (more=true → (bytes : Int) ≤ g'.available) ∧ (more=false → source.length ≤ g'.bufferEnd))
      (fun e g' => e≠.stalled ∧ Grown source g g') := by
  unfold ensure
  refine ends_loop (fun _ h => Grown source g h) (fun _ h => source.length-h.bufferEnd)
    ?_ (Grown.rfl hw) (by omega)
  intro _ h hg
  refine Ends.bind (ends_get ?_)
  refine ends_ite (fun hless => ?_) fun hmore => ?_
  · refine ends_ite (fun hover => ?_) fun hunder => ?_
    · exact ends_pure ⟨hg,by simp,fun _ => hover⟩
    · refine Ends.bind ((refill_ends hg.window (by omega)).mono ?_ ?_)
      · intro _ h' hh
        exact ends_pure ⟨hg.trans hh.1,by omega⟩
      · intro e h' hh
        exact ⟨hh.1,hg.trans hh.2⟩
  · exact ends_pure ⟨hg,fun _ => by omega,by simp⟩

end

end CardKeepr.Shared.Gunzip
