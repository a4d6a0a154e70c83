import CardKeepr.SourceEvidence.HostPacing

namespace CardKeepr.SourceEvidence.HostPacing
open Shared

/-- Bounds that do not cross. -/
structure Bounded (policy : ResolvedHostPacingPolicy) : Prop where
  floor_nonneg : 0 ≤ policy.floor_ms
  floor_le : policy.floor_ms ≤ policy.ceiling_ms
  one_le : 1 ≤ policy.maximum_concurrency

/-- A state within the bounds of a policy. -/
structure Within (policy : ResolvedHostPacingPolicy) (s : HostPacingState) : Prop where
  floor_le : policy.floor_ms ≤ s.interval_ms
  le_ceiling : s.interval_ms ≤ policy.ceiling_ms
  one_le : 1 ≤ s.concurrency
  le_maximum : s.concurrency ≤ policy.maximum_concurrency

theorem le_most (field : HostPacingPolicy → Int) (first : HostPacingPolicy)
    (others : List HostPacingPolicy) : field first ≤ most field first others := by
  have h : ∀m,m ≤ others.foldl (fun m p => max m (field p)) m := by
    induction others with
    | nil => exact fun m => le_refl m
    | cons p others ih => exact fun m => (le_max_left m (field p)).trans (ih _)
  exact h (field first)

theorem most_mono {f g : HostPacingPolicy → Int} (h : ∀p,f p ≤ g p) (first : HostPacingPolicy)
    (others : List HostPacingPolicy) : most f first others ≤ most g first others := by
  have hfold : ∀m n,m ≤ n → others.foldl (fun m p => max m (f p)) m ≤
      others.foldl (fun m p => max m (g p)) n := by
    induction others with
    | nil => exact fun m n hmn => hmn
    | cons p others ih => exact fun m n hmn => ih _ _ (max_le_max hmn (h p))
  exact hfold _ _ (h first)

theorem one_le_least (first : HostPacingPolicy) (others : List HostPacingPolicy) :
    1 ≤ least (·.maximumConcurrency) first others := by
  have h : ∀m : Int,1 ≤ m → 1 ≤ others.foldl (fun m p => min m p.maximumConcurrency) m := by
    induction others with
    | nil => exact fun m hm => hm
    | cons p others ih => exact fun m hm => ih _ (le_min hm p.one_le)
  exact h _ first.one_le

theorem interval_le {value : Option JsString} {interval : Nat}
    (h : sourceHostPacingIntervalMilliseconds value=some interval) : interval ≤ 60000 := by
  cases value with
  | none =>
    obtain rfl : 500=interval := Option.some.inj h
    omega
  | some value =>
    rw [sourceHostPacingIntervalMilliseconds] at h
    split at h
    · rename_i hv
      rw [←Option.some.inj h]
      exact hv.2
    · cases h

theorem resolve_bounded {registered : JsString → Option (List HostPacingPolicy)}
    {hostname : JsString} {versions : List JsString} {interval : Nat}
    {policy : ResolvedHostPacingPolicy} (hi : interval ≤ 60000)
    (h : resolveHostPacingPolicy registered hostname versions interval=some policy) :
    Bounded policy := by
  obtain ⟨declared,-,h⟩ := Option.bind_eq_some_iff.mp h
  cases declared with
  | nil =>
    obtain rfl := Option.some.inj h
    refine ⟨?_,?_,?_⟩
    · show (0 : Int) ≤ (interval : Int)
      omega
    · show (interval : Int) ≤ min 60000 (max 4000 ((interval : Int)*8))
      omega
    · show (1 : Int) ≤ 1
      omega
  | cons first others =>
    obtain rfl := Option.some.inj h
    refine ⟨?_,?_,?_⟩
    · exact first.2.floor_nonneg.trans (le_most _ _ _)
    · exact most_mono (fun p => (le_max_right 1 p.floorMs).trans p.floor_le) _ _
    · dsimp only
      split
      · exact le_refl 1
      · exact one_le_least _ _

theorem current_within {policy : ResolvedHostPacingPolicy} (h : Bounded policy)
    (recorded : Option RecordedPacing) : Within policy (currentHostPacingState policy recorded) := by
  have hfresh : Within policy ⟨policy.floor_ms,policy.maximum_concurrency,0,none⟩ :=
    ⟨le_refl _,h.floor_le,h.one_le,le_refl _⟩
  obtain ⟨-,hf,hc⟩ := h
  cases recorded with
  | none => exact hfresh
  | some r =>
    cases hr : r.interval_ms with
    | none =>
      rw [currentHostPacingState]
      simp only [hr]
      exact hfresh
    | some interval =>
      rw [currentHostPacingState]
      simp only [hr]
      constructor
      all_goals simp only [clamp]
      all_goals omega

theorem current_streak (policy : ResolvedHostPacingPolicy) (recorded : Option RecordedPacing) :
    0 ≤ (currentHostPacingState policy recorded).clean_streak := by
  cases recorded with
  | none => exact le_refl 0
  | some r =>
    rw [currentHostPacingState]
    cases r.interval_ms with
    | none => exact le_refl 0
    | some interval => exact le_max_left 0 _

theorem recoveryStep_pos (policy : ResolvedHostPacingPolicy) : 50 ≤ recoveryStepMs policy :=
  le_max_left _ _

variable {blend : ℚ → ℚ → ℚ} {policy : ResolvedHostPacingPolicy} {s : HostPacingState}
  {signal : HostPacingSignal}

/-- What a signal does to a state: back off, recover, count a clean response, or nothing. -/
inductive Adapted (policy : ResolvedHostPacingPolicy) (s : HostPacingState)
    (signal : HostPacingSignal) (d : HostPacingDecision) : Prop where
  | backoff (e : HostPacingEvent) (event : d.event=some e) (kind : e.kind=.backoff)
      (dirty : ¬clean s signal)
      (interval : d.state.interval_ms=
        clamp (max (s.interval_ms*2) (s.interval_ms+250)) policy.floor_ms policy.ceiling_ms)
      (concurrency : d.state.concurrency=max 1 (s.concurrency/2))
      (streak : d.state.clean_streak=0)
      (before : e.interval_before_ms=s.interval_ms ∧ e.concurrency_before=s.concurrency)
      (after : e.interval_after_ms=d.state.interval_ms ∧ e.concurrency_after=d.state.concurrency)
  | recovery (e : HostPacingEvent) (event : d.event=some e) (kind : e.kind=.recovery)
      (clean : clean s signal) (long : 20 ≤ s.clean_streak+1)
      (below : ¬(s.interval_ms ≤ policy.floor_ms ∧ policy.maximum_concurrency ≤ s.concurrency))
      (interval : d.state.interval_ms=max policy.floor_ms (s.interval_ms-recoveryStepMs policy))
      (concurrency : d.state.concurrency=min policy.maximum_concurrency (s.concurrency+1))
      (streak : d.state.clean_streak=0)
      (before : e.interval_before_ms=s.interval_ms ∧ e.concurrency_before=s.concurrency)
      (after : e.interval_after_ms=d.state.interval_ms ∧ e.concurrency_after=d.state.concurrency)
  | counted (event : d.event=none) (clean : clean s signal)
      (interval : d.state.interval_ms=s.interval_ms)
      (concurrency : d.state.concurrency=s.concurrency)
      (streak : d.state.clean_streak=
        if s.interval_ms ≤ policy.floor_ms ∧ policy.maximum_concurrency ≤ s.concurrency then 0
        else s.clean_streak+1)
      (short : s.clean_streak+1 < 20 ∨
        s.interval_ms ≤ policy.floor_ms ∧ policy.maximum_concurrency ≤ s.concurrency)
  | neutral (event : d.event=none) (dirty : ¬clean s signal) (same : d.state=s)

theorem adapt_cases (blend : ℚ → ℚ → ℚ) (policy : ResolvedHostPacingPolicy) (s : HostPacingState)
    (signal : HostPacingSignal) :
    Adapted policy s signal (adaptHostPacing blend policy s signal) := by
  unfold adaptHostPacing
  cases hreason : backoffReason s signal with
  | some reason =>
    have hdirty : ¬clean s signal := fun h => by
      rw [h.1] at hreason
      cases hreason
    exact .backoff _ rfl rfl hdirty rfl rfl rfl ⟨rfl,rfl⟩ ⟨rfl,rfl⟩
  | none =>
    cases signal with
    | transport_failure reason latency => cases reason <;> cases hreason
    | response status latency retry =>
      dsimp only
      split_ifs with h500 hstay hmost
      · refine .neutral rfl (fun h => ?_) rfl
        obtain ⟨-,t,ht,hlt⟩ := h
        obtain rfl : status=t := Option.some.inj ht
        omega
      all_goals have hclean : clean s (.response status latency retry) :=
        ⟨hreason,status,rfl,by omega⟩
      · exact .counted rfl hclean rfl rfl (if_pos hmost).symm hstay
      · exact .counted rfl hclean rfl rfl (if_neg hmost).symm hstay
      · obtain ⟨hlong,hbelow⟩ := not_or.mp hstay
        exact .recovery _ rfl rfl hclean (not_lt.mp hlong) hbelow rfl rfl rfl ⟨rfl,rfl⟩ ⟨rfl,rfl⟩

theorem adapt_within (hp : Bounded policy) (h : Within policy s) :
    Within policy (adaptHostPacing blend policy s signal).state := by
  have hstep := recoveryStep_pos policy
  obtain ⟨hfn,hfc,hone⟩ := hp
  obtain ⟨h1,h2,h3,h4⟩ := h
  cases adapt_cases blend policy s signal with
  | backoff e hevent hkind hdirty hinterval hconcurrency =>
    rw [clamp] at hinterval
    constructor
    all_goals omega
  | recovery e hevent hkind hclean hlong hbelow hinterval hconcurrency =>
    constructor
    all_goals omega
  | counted hevent hclean hinterval hconcurrency =>
    constructor
    all_goals omega
  | neutral hevent hdirty hsame =>
    rw [hsame]
    exact ⟨h1,h2,h3,h4⟩

theorem after_within (hp : Bounded policy) (h : Within policy s)
    (signals : List HostPacingSignal) : Within policy (afterSignals blend policy s signals) := by
  induction signals generalizing s with
  | nil => exact h
  | cons signal signals ih => exact ih (adapt_within hp h)

theorem event_direction (hp : Bounded policy) (h : Within policy s) {e : HostPacingEvent}
    (he : (adaptHostPacing blend policy s signal).event=some e) :
    let next := (adaptHostPacing blend policy s signal).state
    (e.interval_before_ms=s.interval_ms ∧ e.interval_after_ms=next.interval_ms ∧
      e.concurrency_before=s.concurrency ∧ e.concurrency_after=next.concurrency) ∧
    (e.kind=.backoff → s.interval_ms ≤ next.interval_ms ∧ next.concurrency ≤ s.concurrency) ∧
    (e.kind=.recovery → next.interval_ms ≤ s.interval_ms ∧ s.concurrency ≤ next.concurrency ∧
      20 ≤ s.clean_streak+1 ∧ clean s signal) := by
  have hstep := recoveryStep_pos policy
  obtain ⟨hfn,hfc,hone⟩ := hp
  obtain ⟨h1,h2,h3,h4⟩ := h
  cases adapt_cases blend policy s signal with
  | backoff e' hevent hkind hdirty hinterval hconcurrency hstreak hbefore hafter =>
    obtain rfl : e'=e := Option.some.inj (hevent.symm.trans he)
    rw [clamp] at hinterval
    refine ⟨⟨hbefore.1,hafter.1,hbefore.2,hafter.2⟩,fun _ => ⟨?_,?_⟩,fun hk => ?_⟩
    · omega
    · omega
    · rw [hkind] at hk
      cases hk
  | recovery e' hevent hkind hclean hlong hbelow hinterval hconcurrency hstreak hbefore hafter =>
    obtain rfl : e'=e := Option.some.inj (hevent.symm.trans he)
    refine ⟨⟨hbefore.1,hafter.1,hbefore.2,hafter.2⟩,fun hk => ?_,fun _ => ⟨?_,?_,hlong,hclean⟩⟩
    · rw [hkind] at hk
      cases hk
    · omega
    · omega
  | counted hevent =>
    rw [hevent] at he
    cases he
  | neutral hevent =>
    rw [hevent] at he
    cases he

/-- How many clean responses followed the last change, `count` of them before the signals. -/
def cleanSinceChange (blend : ℚ → ℚ → ℚ) (policy : ResolvedHostPacingPolicy) :
    HostPacingState → Int → List HostPacingSignal → Int
  | _,count,[] => count
  | s,count,signal::signals =>
    let decision := adaptHostPacing blend policy s signal
    cleanSinceChange blend policy decision.state
      (if decision.event.isSome then 0 else if clean s signal then count+1 else count) signals

theorem streak_le (signals : List HostPacingSignal) {count : Int} (h0 : 0 ≤ count)
    (h : s.clean_streak ≤ count) : (afterSignals blend policy s signals).clean_streak ≤
      cleanSinceChange blend policy s count signals := by
  induction signals generalizing s count with
  | nil => exact h
  | cons signal signals ih =>
    rw [cleanSinceChange]
    cases adapt_cases blend policy s signal with
    | backoff e hevent hkind hdirty hinterval hconcurrency hstreak =>
      rw [hevent]
      exact ih (le_refl 0) (le_of_eq hstreak)
    | recovery e hevent hkind hclean hlong hbelow hinterval hconcurrency hstreak =>
      rw [hevent]
      exact ih (le_refl 0) (le_of_eq hstreak)
    | counted hevent hclean hinterval hconcurrency hstreak =>
      rw [hevent,if_neg (by decide),if_pos hclean]
      refine ih (by omega) ?_
      show (adaptHostPacing blend policy s signal).state.clean_streak ≤ count+1
      split at hstreak
      · omega
      · omega
    | neutral hevent hdirty hsame =>
      rw [hevent,if_neg (by decide),if_neg hdirty]
      refine ih h0 ?_
      show (adaptHostPacing blend policy s signal).state.clean_streak ≤ count
      rw [hsame]
      exact h

theorem after_streak (signals : List HostPacingSignal) (h : 0 ≤ s.clean_streak) :
    0 ≤ (afterSignals blend policy s signals).clean_streak := by
  induction signals generalizing s with
  | nil => exact h
  | cons signal signals ih =>
    refine ih ?_
    show 0 ≤ (adaptHostPacing blend policy s signal).state.clean_streak
    cases adapt_cases blend policy s signal with
    | backoff e hevent hkind hdirty hinterval hconcurrency hstreak => exact le_of_eq hstreak.symm
    | recovery e hevent hkind hclean hlong hbelow hinterval hconcurrency hstreak =>
      exact le_of_eq hstreak.symm
    | counted hevent hclean hinterval hconcurrency hstreak =>
      split at hstreak
      · omega
      · omega
    | neutral hevent hdirty hsame =>
      rw [hsame]
      exact h

/-- Every signal is a clean response when it comes. -/
def AllClean (blend : ℚ → ℚ → ℚ) (policy : ResolvedHostPacingPolicy) :
    HostPacingState → List HostPacingSignal → Prop
  | _,[] => True
  | s,signal::signals => clean s signal ∧
      AllClean blend policy (adaptHostPacing blend policy s signal).state signals

/-- How far a state is from the most aggressive setting. -/
def distance (policy : ResolvedHostPacingPolicy) (s : HostPacingState) : Int :=
  (s.interval_ms-policy.floor_ms)+(policy.maximum_concurrency-s.concurrency)

/-- The clean responses that are certainly enough. -/
def enough (policy : ResolvedHostPacingPolicy) (s : HostPacingState) : Int :=
  if distance policy s=0 then 0
  else 20*(distance policy s-1)+(20-min 19 (max 0 s.clean_streak))

theorem enough_step (blend : ℚ → ℚ → ℚ) (hp : Bounded policy) (h : Within policy s) (hs : 0 ≤ s.clean_streak)
    (hc : clean s signal) : let next := (adaptHostPacing blend policy s signal).state
    0 ≤ next.clean_streak ∧ (enough policy next=0 ∨ enough policy next+1 ≤ enough policy s) := by
  have hstep := recoveryStep_pos policy
  obtain ⟨hfn,hfc,hone⟩ := hp
  obtain ⟨h1,h2,h3,h4⟩ := h
  cases adapt_cases blend policy s signal with
  | backoff e hevent hkind hdirty => exact absurd hc hdirty
  | neutral hevent hdirty => exact absurd hc hdirty
  | recovery e hevent hkind hclean hlong hbelow hinterval hconcurrency hstreak =>
    refine ⟨le_of_eq hstreak.symm,?_⟩
    have hd : 0 < distance policy s := by
      rw [distance]
      omega
    have hnext : distance policy (adaptHostPacing blend policy s signal).state+1 ≤
        distance policy s := by
      rw [distance,distance,hinterval,hconcurrency]
      omega
    rw [enough,enough,hstreak]
    split
    · exact .inl rfl
    · rw [if_neg (by omega)]
      right
      omega
  | counted hevent hclean hinterval hconcurrency hstreak hshort =>
    have hnext : distance policy (adaptHostPacing blend policy s signal).state=distance policy s := by
      rw [distance,distance,hinterval,hconcurrency]
    dsimp only
    rw [enough,enough,hnext]
    split at hstreak
    · rename_i hmost
      have hd : distance policy s=0 := by
        rw [distance]
        omega
      rw [if_pos hd]
      exact ⟨le_of_eq hstreak.symm,.inl rfl⟩
    · rename_i hmost
      refine ⟨by omega,?_⟩
      split
      · exact .inl rfl
      · right
        rw [hstreak]
        omega

theorem clean_run_recovers (hp : Bounded policy) (signals : List HostPacingSignal)
    (h : Within policy s) (hs : 0 ≤ s.clean_streak) (hc : AllClean blend policy s signals)
    (hl : enough policy s ≤ signals.length) :
    (afterSignals blend policy s signals).interval_ms=policy.floor_ms ∧
      (afterSignals blend policy s signals).concurrency=policy.maximum_concurrency := by
  induction signals generalizing s with
  | nil =>
    obtain ⟨h1,h2,h3,h4⟩ := h
    have h0 : enough policy s ≤ 0 := hl
    have hd : distance policy s=0 := by
      rw [enough] at h0
      split at h0
      · assumption
      · rename_i hne
        have : 0 ≤ distance policy s := by
          rw [distance]
          omega
        omega
    rw [distance] at hd
    show s.interval_ms=_ ∧ s.concurrency=_
    omega
  | cons signal signals ih =>
    obtain ⟨hs',hless⟩ := enough_step blend hp h hs hc.1
    refine ih (adapt_within hp h) hs' hc.2 ?_
    rw [List.length_cons] at hl
    push_cast at hl
    show enough policy (adaptHostPacing blend policy s signal).state ≤ _
    rcases hless with hz | hlt
    · rw [hz]
      omega
    · omega

/-- A host's pacing stays within its bounds, backs off and recovers in the right direction, recovers
only after twenty clean responses in a row, and recovers wholly in the end. -/
theorem pacing_bounded (blend : ℚ → ℚ → ℚ) {value : Option JsString}
    {registered : JsString → Option (List HostPacingPolicy)} {hostname : JsString}
    {versions : List JsString} {interval : Nat} {policy : ResolvedHostPacingPolicy}
    (hv : sourceHostPacingIntervalMilliseconds value=some interval)
    (h : resolveHostPacingPolicy registered hostname versions interval=some policy)
    (recorded : Option RecordedPacing) (signals : List HostPacingSignal) :
    let start := currentHostPacingState policy recorded
    let s := afterSignals blend policy start signals
    (policy.floor_ms ≤ s.interval_ms ∧ s.interval_ms ≤ policy.ceiling_ms ∧ 1 ≤ s.concurrency ∧
      s.concurrency ≤ policy.maximum_concurrency) ∧
    (∀signal e,(adaptHostPacing blend policy s signal).event=some e →
      let next := (adaptHostPacing blend policy s signal).state
      (e.kind=.backoff → s.interval_ms ≤ next.interval_ms ∧ next.concurrency ≤ s.concurrency) ∧
      (e.kind=.recovery → next.interval_ms ≤ s.interval_ms ∧ s.concurrency ≤ next.concurrency ∧
        clean s signal ∧ 20 ≤ cleanSinceChange blend policy start start.clean_streak signals+1)) ∧
    (∀signal,(adaptHostPacing blend policy s signal).event=none →
      (adaptHostPacing blend policy s signal).state.interval_ms=s.interval_ms ∧
      (adaptHostPacing blend policy s signal).state.concurrency=s.concurrency) ∧
    ∃n : Nat,∀more,AllClean blend policy s more → n ≤ more.length →
      (afterSignals blend policy s more).interval_ms=policy.floor_ms ∧
      (afterSignals blend policy s more).concurrency=policy.maximum_concurrency := by
  intro start s
  have hp := resolve_bounded (interval_le hv) h
  have hstart := current_within hp recorded
  have hw : Within policy s := after_within hp hstart signals
  have hstreak : s.clean_streak ≤ cleanSinceChange blend policy start start.clean_streak signals :=
    streak_le signals (current_streak policy recorded) (le_refl _)
  have hnonneg : 0 ≤ s.clean_streak := after_streak signals (current_streak policy recorded)
  refine ⟨⟨hw.floor_le,hw.le_ceiling,hw.one_le,hw.le_maximum⟩,fun signal e he => ?_,
    fun signal he => ?_,(enough policy s).toNat,fun more hc hl => ?_⟩
  · obtain ⟨-,hback,hrec⟩ := event_direction hp hw he
    refine ⟨hback,fun hk => ?_⟩
    obtain ⟨h1,h2,h3,h4⟩ := hrec hk
    exact ⟨h1,h2,h4,by omega⟩
  · cases adapt_cases blend policy s signal with
    | backoff e hevent =>
      rw [hevent] at he
      cases he
    | recovery e hevent =>
      rw [hevent] at he
      cases he
    | counted hevent hclean hinterval hconcurrency => exact ⟨hinterval,hconcurrency⟩
    | neutral hevent hdirty hsame =>
      rw [hsame]
      exact ⟨rfl,rfl⟩
  · exact clean_run_recovers hp more hw hnonneg hc (by omega)

/-- A host no adapter declares is paced from the deployment's interval. -/
theorem undeclared_host_paced : ∃policy,
    resolveHostPacingPolicy (fun _ => some []) (js ['h']) [] 500=some policy ∧
      policy.floor_ms ≤ (afterSignals (fun b _ => b) policy (currentHostPacingState policy none)
        [.response 429 0 none]).interval_ms := by
  have hr : resolveHostPacingPolicy (fun _ => some []) (js ['h']) [] 500=
      some ⟨js ['h'],.page,500,min 60000 (max 4000 (500*8)),1,.default,[]⟩ := rfl
  exact ⟨_,hr,(@pacing_bounded (fun b _ => b) none _ _ _ _ _ rfl hr none
    [.response 429 0 none]).1.1⟩

end CardKeepr.SourceEvidence.HostPacing
