import CardKeepr.Shared.Json
import Mathlib.Data.List.Sort
import Mathlib.Data.Rat.Floor

namespace CardKeepr.SourceEvidence.HostPacing
open Shared

inductive HostKind where
  | page
  | asset
  deriving DecidableEq

/-- A declaration that `assertHostPacing` lets through. -/
structure HostPacingPolicy where
  hostname : JsString
  kind : HostKind
  floorMs : Int
  ceilingMs : Int
  maximumConcurrency : Int
  floor_nonneg : 0 ≤ floorMs
  floor_le : max 1 floorMs ≤ ceilingMs
  ceiling_le : ceilingMs ≤ 60000
  one_le : 1 ≤ maximumConcurrency
  le_most : maximumConcurrency ≤ if kind=.page then 1 else 16

inductive PolicySource where
  | registration
  | default

structure ResolvedHostPacingPolicy where
  hostname : JsString
  kind : HostKind
  floor_ms : Int
  ceiling_ms : Int
  maximum_concurrency : Int
  source : PolicySource
  adapter_versions : List JsString

structure HostPacingState where
  interval_ms : Int
  concurrency : Int
  clean_streak : Int
  latency_baseline_ms : Option ℚ

inductive TransportFailure where
  | timeout
  | connection

inductive HostPacingSignal where
  | response (status : Nat) (latency_ms : ℚ) (retry_after_ms : Option Int)
  | transport_failure (reason : TransportFailure) (latency_ms : ℚ)

inductive HostPacingBackoffReason where
  | rate_limited
  | unavailable
  | gateway
  | retry_after
  | timeout
  | connection
  | latency
  deriving DecidableEq

inductive EventReason where
  | backoff (reason : HostPacingBackoffReason)
  | clean_streak

inductive EventKind where
  | backoff
  | recovery

structure HostPacingEvent where
  kind : EventKind
  reason : EventReason
  interval_before_ms : Int
  interval_after_ms : Int
  concurrency_before : Int
  concurrency_after : Int
  http_status : Option Nat
  retry_after_ms : Option Int
  latency_ms : Int

structure HostPacingDecision where
  state : HostPacingState
  event : Option HostPacingEvent
  hold_ms : Int

/-- What is recorded for a host. -/
structure RecordedPacing where
  interval_ms : Option Int
  concurrency : Option Int
  clean_streak : Option Int
  latency_baseline_ms : Option ℚ

def hostPacingRecoveryStreak : Int := 20
def minimumBackoffStepMs : Int := 250
def slowLatencyFactor : ℚ := 4
def slowLatencyMarginMs : ℚ := 1000
def defaultSourceHostPacingIntervalMilliseconds : Nat := 500

/-- `/^(?:0|[1-9]\d*)$/u`. -/
def plainInteger : JsString → Bool
  | [] => false
  | [u] => isDigit u
  | u::us => isDigit u && decide (u≠48) && us.all isDigit

/-- `none` is the error of an interval that is not configured as it must be. -/
def sourceHostPacingIntervalMilliseconds : Option JsString → Option Nat
  | none => some defaultSourceHostPacingIntervalMilliseconds
  | some value =>
    if plainInteger value ∧ digitsValue value ≤ 60000 then some (digitsValue value) else none

/-- `Math.round`. -/
def round (q : ℚ) : Int := ⌊q+1/2⌋

def clamp (value minimum maximum : Int) : Int := min maximum (max minimum value)

/-- `Math.max` of a declared bound over the first declaration and the others. -/
def most (field : HostPacingPolicy → Int) (first : HostPacingPolicy)
    (others : List HostPacingPolicy) : Int :=
  others.foldl (fun m p => max m (field p)) (field first)

def least (field : HostPacingPolicy → Int) (first : HostPacingPolicy)
    (others : List HostPacingPolicy) : Int :=
  others.foldl (fun m p => min m (field p)) (field first)

/-- `[...new Set(adapterVersions)].sort()`. -/
def distinctVersions (adapterVersions : List JsString) : List JsString :=
  adapterVersions.eraseDups.insertionSort fun a b => compareUnits a b ≤ 0

/-- The declaration of a host by each version that has one. `registered` gives the declarations of
an installed version; `none` is the error of a version that is not installed. -/
def declaredPolicies (registered : JsString → Option (List HostPacingPolicy)) (hostname : JsString)
    (adapterVersions : List JsString) : Option (List (JsString × HostPacingPolicy)) :=
  (distinctVersions adapterVersions).foldlM (fun declared version => do
    let policies ← registered version
    match policies.find? fun p => decide (p.hostname=hostname) with
    | none => return declared
    | some policy => return declared++[(version,policy)]) []

def resolveHostPacingPolicy (registered : JsString → Option (List HostPacingPolicy))
    (hostname : JsString) (adapterVersions : List JsString) (defaultIntervalMs : Nat) :
    Option ResolvedHostPacingPolicy := do
  let declared ← declaredPolicies registered hostname adapterVersions
  match declared with
  | [] => return {
      hostname
      kind := .page
      floor_ms := defaultIntervalMs
      ceiling_ms := min 60000 (max 4000 (defaultIntervalMs*8))
      maximum_concurrency := 1
      source := .default
      adapter_versions := [] }
  | first::others =>
    let policies := others.map Prod.snd
    let page := declared.any fun d => decide (d.2.kind=.page)
    return {
      hostname
      kind := if page then .page else .asset
      floor_ms := most (·.floorMs) first.2 policies
      ceiling_ms := most (·.ceilingMs) first.2 policies
      maximum_concurrency := if page then 1 else least (·.maximumConcurrency) first.2 policies
      source := .registration
      adapter_versions := declared.map Prod.fst }

def currentHostPacingState (policy : ResolvedHostPacingPolicy) (recorded : Option RecordedPacing) :
    HostPacingState :=
  match recorded with
  | none => ⟨policy.floor_ms,policy.maximum_concurrency,0,none⟩
  | some r =>
    match r.interval_ms with
    | none => ⟨policy.floor_ms,policy.maximum_concurrency,0,none⟩
    | some interval =>
      ⟨clamp interval policy.floor_ms policy.ceiling_ms,
        clamp (r.concurrency.getD policy.maximum_concurrency) 1 policy.maximum_concurrency,
        max 0 (r.clean_streak.getD 0),r.latency_baseline_ms⟩

def HostPacingSignal.latency : HostPacingSignal → ℚ
  | .response _ latency _ => latency
  | .transport_failure _ latency => latency

def HostPacingSignal.status : HostPacingSignal → Option Nat
  | .response status _ _ => some status
  | .transport_failure _ _ => none

def HostPacingSignal.retryAfter : HostPacingSignal → Option Int
  | .response _ _ retry => retry
  | .transport_failure _ _ => none

def backoffReason (state : HostPacingState) : HostPacingSignal → Option HostPacingBackoffReason
  | .transport_failure .timeout _ => some .timeout
  | .transport_failure .connection _ => some .connection
  | .response status latency retry =>
    if status=429 then some .rate_limited
    else if status=503 then some .unavailable
    else if status=502 ∨ status=504 then some .gateway
    else if retry.isSome ∧ 400 ≤ status then some .retry_after
    else match state.latency_baseline_ms with
    | none => none
    | some baseline =>
      if status < 400 ∧ max (baseline*slowLatencyFactor) (baseline+slowLatencyMarginMs) < latency
      then some .latency else none

def recoveryStepMs (policy : ResolvedHostPacingPolicy) : Int :=
  max 50 (round ((policy.ceiling_ms-policy.floor_ms : Int)/8))

def event (kind : EventKind) (reason : EventReason) (before after : HostPacingState)
    (status : Option Nat) (retryAfter : Option Int) (latency : ℚ) : HostPacingEvent :=
  ⟨kind,reason,before.interval_ms,after.interval_ms,before.concurrency,after.concurrency,status,
    retryAfter,max 0 (round latency)⟩

section
/- `Math.round(baseline * 0.8 + latency * 0.2)`, whatever the rounding of its products. -/
variable (blend : ℚ → ℚ → ℚ)

def adaptHostPacing (policy : ResolvedHostPacingPolicy) (state : HostPacingState)
    (signal : HostPacingSignal) : HostPacingDecision :=
  match backoffReason state signal with
  | some reason =>
    let next : HostPacingState := {
      interval_ms := clamp (max (state.interval_ms*2) (state.interval_ms+minimumBackoffStepMs))
        policy.floor_ms policy.ceiling_ms
      concurrency := max 1 (state.concurrency/2)
      clean_streak := 0
      latency_baseline_ms :=
        if reason=.latency then state.latency_baseline_ms.map fun b => blend b signal.latency
        else state.latency_baseline_ms }
    { state := next
      event := some (event .backoff (.backoff reason) state next signal.status signal.retryAfter
        signal.latency)
      hold_ms := signal.retryAfter.getD 0 }
  | none =>
    match signal with
    | .transport_failure _ _ => ⟨state,none,0⟩
    | .response status latency _ =>
      if 500 ≤ status then ⟨state,none,0⟩
      else
        let baseline := state.latency_baseline_ms.elim latency fun b => blend b latency
        let streak := state.clean_streak+1
        let atMostAggressive :=
          state.interval_ms ≤ policy.floor_ms ∧ policy.maximum_concurrency ≤ state.concurrency
        if streak < hostPacingRecoveryStreak ∨ atMostAggressive then
          { state := { state with
              clean_streak := if atMostAggressive then 0 else streak
              latency_baseline_ms := some baseline }
            event := none
            hold_ms := 0 }
        else
          let next : HostPacingState := {
            interval_ms := max policy.floor_ms (state.interval_ms-recoveryStepMs policy)
            concurrency := min policy.maximum_concurrency (state.concurrency+1)
            clean_streak := 0
            latency_baseline_ms := some baseline }
          { state := next
            event := some (event .recovery .clean_streak state next (some status) none latency)
            hold_ms := 0 }

/-- The state after a sequence of signals. -/
def afterSignals (policy : ResolvedHostPacingPolicy) (state : HostPacingState)
    (signals : List HostPacingSignal) : HostPacingState :=
  signals.foldl (fun s signal => (adaptHostPacing blend policy s signal).state) state

end

/-- A response that neither backs off nor leaves the state alone. -/
def clean (state : HostPacingState) (signal : HostPacingSignal) : Prop :=
  backoffReason state signal=none ∧ ∃status,signal.status=some status ∧ status < 500

instance (state : HostPacingState) (signal : HostPacingSignal) : Decidable (clean state signal) :=
  match signal with
  | .transport_failure _ _ => .isFalse fun h => by
      obtain ⟨-,s,hs,-⟩ := h
      cases hs
  | .response status latency retry =>
    if h : backoffReason state (.response status latency retry)=none ∧ status < 500 then
      .isTrue ⟨h.1,status,rfl,h.2⟩
    else .isFalse fun hc => by
      obtain ⟨h1,s,hs,h2⟩ := hc
      obtain rfl : status=s := Option.some.inj hs
      exact h ⟨h1,h2⟩

end CardKeepr.SourceEvidence.HostPacing
