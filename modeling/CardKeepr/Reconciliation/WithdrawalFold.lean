import CardKeepr.Reconciliation.Withdrawals
import Mathlib.Order.Bounds.Basic

namespace CardKeepr.Reconciliation.Withdrawals

open Lib Shared Reconciliation.Errata List

variable (nfc : Nfc)

/-- The effects of a target on the assertions so far. -/
def assertTarget (plan : ObservationPlan) (w : Withdrawal) (log : List (AsciiText×Assertion))
    (target : AsciiText) : List (AsciiText×Assertion) :=
  log++[(target,assertionOf nfc (lastOf log target) target plan w)]

def assertPlanLog (log : List (AsciiText×Assertion)) (plan : ObservationPlan) :
    List (AsciiText×Assertion) :=
  match plan.withdrawal with
  | none => log
  | some w => (plan.targets w).foldl (assertTarget nfc plan w) log

def assertionLog (plans : List ObservationPlan) : List (AsciiText×Assertion) :=
  plans.foldl (assertPlanLog nfc) []

/-- The plan withdraws the target by `w`. -/
def Withdraws (plan : ObservationPlan) (target : AsciiText) (w : Withdrawal) : Prop :=
  plan.withdrawal=some w ∧ target∈plan.targets w

/-- The observations that withdraw a target. -/
def observations (plans : List ObservationPlan) (target : AsciiText) : Set AsciiText :=
  { id | ∃p∈plans,∃w,Withdraws p target w ∧ p.sourceObservationId=id }

/-- Two plans withdraw the target differently. -/
def Conflicting (plans : List ObservationPlan) (target : AsciiText) : Prop :=
  ∃p∈plans,∃q∈plans,∃v w,Withdraws p target v ∧ Withdraws q target w ∧
    v.toEvidence≠w.toEvidence

theorem state_inj {a b : WithdrawalState} (h : a.text=b.text) : a=b := by
  cases a <;> cases b <;> simp [WithdrawalState.text,js] at h ⊢

theorem state_ascii (a : WithdrawalState) : isAscii a.text=true := by
  cases a <;> simp [WithdrawalState.text,js,isAscii]

theorem evidence_integral (e : Evidence) : e.json.Integral := by
  refine (all_obj _).mpr ⟨trivial,fun m hm => ?_⟩
  simp only [mem_cons,not_mem_nil,or_false] at hm
  rcases hm with rfl | rfl | rfl <;> trivial

theorem semantic_iff {v w : Evidence} : v.semantic nfc=w.semantic nfc ↔ v=w := by
  constructor
  · intro h
    have hc : v.json.canonical nfc=w.json.canonical nfc :=
      print_inj (canonical_integral nfc (evidence_integral v))
        (canonical_integral nfc (evidence_integral w)) h
    have hkeys : ∀e : Evidence,
        (([(js "assertion".toList,.str e.assertion.text),(js "state".toList,.str e.state.text),
          (js "effective_at".toList,.str e.effective_at.text)] : List (JsString×Json)).map
            Prod.fst).all isAscii=true ∧
        (([(js "assertion".toList,.str e.assertion.text),(js "state".toList,.str e.state.text),
          (js "effective_at".toList,.str e.effective_at.text)] : List (JsString×Json)).map
            Prod.fst).Nodup := fun e => ⟨by simp [js,isAscii],by simp [js]⟩
    have hmembers := (canonical_obj_iff nfc (hkeys v) (hkeys w)).mp hc
    have hone : ∀{s t : JsString},isAscii s=true → isAscii t=true →
        (Json.str s).canonical nfc=(Json.str t).canonical nfc → s=t := by
      intro s t hs ht he
      have hn : nfc.normalize s=nfc.normalize t := Json.str.inj he
      rwa [nfc.ascii s hs,nfc.ascii t ht] at hn
    have ha := hmembers (js "assertion".toList)
    have hs := hmembers (js "state".toList)
    have hi := hmembers (js "effective_at".toList)
    simp [js,List.lookup] at ha hs hi
    obtain ⟨va,vs,vi⟩ := v
    obtain ⟨wa,ws,wi⟩ := w
    obtain rfl := state_inj (hone (state_ascii _) (state_ascii _) ha)
    obtain rfl := state_inj (hone (state_ascii _) (state_ascii _) hs)
    obtain rfl := AsciiText.ext (hone vi.ascii wi.ascii hi)
    rfl
  · rintro rfl
    rfl

/-- What the plans so far leave for a target. -/
structure Summary (plans : List ObservationPlan) (target : AsciiText) (a : Assertion) : Prop where
  id : a.id=target
  least : IsLeast (observations plans target) a.observationId
  semantic : ∃p∈plans,∃w,Withdraws p target w ∧ a.semantic=w.semantic nfc
  conflict : a.conflict=true ↔ ∃p∈plans,∃w,Withdraws p target w ∧ w.semantic nfc≠a.semantic

/-- The assertion of every target that is withdrawn, and none of the others. -/
def Summarized (plans : List ObservationPlan) (target : AsciiText) : Option Assertion → Prop
  | none => ∀p∈plans,∀w,¬Withdraws p target w
  | some a => Summary nfc plans target a

variable {nfc} {plans : List ObservationPlan} {plan : ObservationPlan} {w : Withdrawal}
  {target : AsciiText} {log : List (AsciiText×Assertion)}

theorem card_ne_printing (c p : AsciiText) : cardTarget c≠printingTarget p := by
  intro h
  have ht := congrArg AsciiText.text h
  simp [cardTarget,printingTarget,AsciiText.after,cardPrefix,printingPrefix,js] at ht

theorem targets_nodup (plan : ObservationPlan) (w : Withdrawal) : (plan.targets w).Nodup := by
  rw [ObservationPlan.targets]
  cases plan.printingId with
  | none => by_cases hc : w.entity.card?=true <;> simp [hc]
  | some id =>
    by_cases hc : w.entity.card?=true <;> by_cases hp : w.entity.printing?=true <;>
      simp [hc,hp,card_ne_printing]

theorem lastOf_targets {ts : List AsciiText} (h : ts.Nodup) (log : List (AsciiText×Assertion)) :
    lastOf (ts.foldl (assertTarget nfc plan w) log) target=
      if target∈ts then some (assertionOf nfc (lastOf log target) target plan w)
      else lastOf log target := by
  induction ts generalizing log with
  | nil => rfl
  | cons t ts ih =>
    obtain ⟨hnot,hnodup⟩ := nodup_cons.mp h
    rw [foldl_cons,ih hnodup,assertTarget,lastOf_append]
    by_cases ht : target=t
    · subst ht
      rw [if_neg hnot,if_pos rfl,if_pos mem_cons_self]
    · rw [if_neg ht]
      by_cases hin : target∈ts
      · rw [if_pos hin,if_pos (mem_cons_of_mem _ hin)]
      · rw [if_neg hin,if_neg fun hc => (mem_cons.mp hc).elim ht hin]

theorem withdraws_unique {v : Withdrawal} (h : Withdraws plan target v)
    (hw : Withdraws plan target w) : v=w := Option.some.inj (h.1.symm.trans hw.1)

theorem observations_append : observations (plans++[plan]) target=
    observations plans target∪observations [plan] target := by
  ext id
  simp [observations,or_and_right,exists_or]

theorem observations_one (hw : Withdraws plan target w) :
    observations [plan] target={ plan.sourceObservationId } := by
  ext id
  simp only [observations,mem_singleton,exists_eq_left,Set.mem_ofPred_eq,Set.mem_singleton_iff]
  constructor
  · rintro ⟨-,-,rfl⟩
    rfl
  · rintro rfl
    exact ⟨w,hw,rfl⟩

theorem observations_none (h : ∀w,¬Withdraws plan target w) : observations [plan] target=∅ := by
  ext id
  simp [observations,h]

theorem summary_next {o : Option Assertion} (h : Summarized nfc plans target o)
    (hw : Withdraws plan target w) :
    Summary nfc (plans++[plan]) target (assertionOf nfc o target plan w) := by
  have hexists : ∀Q : Withdrawal → Prop,(∃p∈plans++[plan],∃v,Withdraws p target v ∧ Q v) ↔
      (∃p∈plans,∃v,Withdraws p target v ∧ Q v) ∨ Q w := by
    intro Q
    simp only [mem_append,mem_singleton,or_and_right,exists_or,exists_eq_left]
    refine or_congr_right ⟨?_,fun hq => ⟨w,hw,hq⟩⟩
    rintro ⟨v,hv,hq⟩
    exact withdraws_unique hv hw ▸ hq
  cases o with
  | none =>
    have hnone : ∀Q : Withdrawal → Prop,¬∃p∈plans,∃v,Withdraws p target v ∧ Q v := by
      rintro Q ⟨p,hp,v,hv,-⟩
      exact h p hp v hv
    have hobs : observations plans target=∅ := by
      ext id
      exact ⟨fun ⟨p,hp,v,hv,_⟩ => h p hp v hv,fun hc => hc.elim⟩
    refine ⟨rfl,?_,?_,?_⟩
    · rw [observations_append,hobs,observations_one hw,Set.empty_union]
      exact isLeast_singleton
    · exact (hexists _).mpr (.inr rfl)
    · rw [hexists]
      simp [assertionOf,hnone]
  | some a =>
    refine ⟨rfl,?_,?_,?_⟩
    · rw [observations_append,observations_one hw]
      have hmin := h.least.union (isLeast_singleton (a := plan.sourceObservationId))
      have hid : (assertionOf nfc (some a) target plan w).observationId=
          min a.observationId plan.sourceObservationId := by
        dsimp only [assertionOf]
        split_ifs with hlt
        · rw [min_eq_left (le_of_lt hlt)]
        · rw [min_eq_right (not_lt.mp hlt)]
      rw [hid]
      exact hmin
    · exact (hexists _).mpr (.inl h.semantic)
    · rw [hexists]
      have hc := h.conflict
      simp only [assertionOf,Option.map_some,Option.getD_some,Bool.or_eq_true,hc,decide_eq_true_iff]
      exact or_congr_right ⟨fun hne he => hne he.symm,fun hne he => hne he.symm⟩

theorem summarized_same {o : Option Assertion} (h : Summarized nfc plans target o)
    (hn : ∀w,¬Withdraws plan target w) : Summarized nfc (plans++[plan]) target o := by
  have hexists : ∀Q : Withdrawal → Prop,(∃p∈plans++[plan],∃v,Withdraws p target v ∧ Q v) ↔
      ∃p∈plans,∃v,Withdraws p target v ∧ Q v := by
    intro Q
    simp only [mem_append,mem_singleton,or_and_right,exists_or,exists_eq_left]
    exact or_iff_left fun ⟨v,hv,_⟩ => hn v hv
  cases o with
  | none =>
    intro p hp v hv
    rcases mem_append.mp hp with hp | hp
    · exact h p hp v hv
    · rw [mem_singleton.mp hp] at hv
      exact hn v hv
  | some a =>
    refine ⟨h.id,?_,(hexists _).mpr h.semantic,?_⟩
    · rw [observations_append,observations_none hn,Set.union_empty]
      exact h.least
    · rw [hexists]
      exact h.conflict

theorem assertionLog_append (plans : List ObservationPlan) (plan : ObservationPlan) :
    assertionLog nfc (plans++[plan])=assertPlanLog nfc (assertionLog nfc plans) plan := by
  rw [assertionLog,foldl_append]
  rfl

theorem assertionLog_summarized (plans : List ObservationPlan) (target : AsciiText) :
    Summarized nfc plans target (lastOf (assertionLog nfc plans) target) := by
  induction plans using List.reverseRecOn with
  | nil => exact fun p hp => (not_mem_nil hp).elim
  | append_singleton plans plan ih =>
    rw [assertionLog_append,assertPlanLog]
    cases hw : plan.withdrawal with
    | none =>
      refine summarized_same ih fun w h => ?_
      have hs := h.1
      rw [hw] at hs
      cases hs
    | some w =>
      dsimp only
      rw [lastOf_targets (targets_nodup plan w)]
      split_ifs with ht
      · exact summary_next ih ⟨hw,ht⟩
      · refine summarized_same ih fun v h => ht ?_
        obtain rfl := Option.some.inj (hw.symm.trans h.1)
        exact h.2

theorem Summary.conflicting {a : Assertion} (h : Summary nfc plans target a) :
    a.conflict=true ↔ Conflicting plans target := by
  rw [h.conflict]
  obtain ⟨p,hp,v,hv,hs⟩ := h.semantic
  constructor
  · rintro ⟨q,hq,w,hw,hne⟩
    refine ⟨p,hp,q,hq,v,w,hv,hw,fun he => hne ?_⟩
    rw [hs,he]
  · rintro ⟨q,hq,r,hr,x,y,hx,hy,hne⟩
    by_cases hxs : x.semantic nfc=a.semantic
    · refine ⟨r,hr,y,hy,fun hys => hne ?_⟩
      exact (semantic_iff nfc).mp (hxs.trans hys.symm)
    · exact ⟨q,hq,x,hx,hxs⟩

theorem summarized_perm {qs : List ObservationPlan} (hp : plans.Perm qs) {o o' : Option Assertion}
    (h : Summarized nfc plans target o) (h' : Summarized nfc qs target o') :
    (o.map fun a => (a.observationId,a.conflict))=o'.map fun a => (a.observationId,a.conflict) := by
  have hmem : ∀p,p∈plans ↔ p∈qs := fun p => hp.mem_iff
  cases o with
  | none =>
    cases o' with
    | none => rfl
    | some b =>
      obtain ⟨p,hin,v,hv,-⟩ := h'.semantic
      exact (h p ((hmem p).mpr hin) v hv).elim
  | some a =>
    cases o' with
    | none =>
      obtain ⟨p,hin,v,hv,-⟩ := h.semantic
      exact (h' p ((hmem p).mp hin) v hv).elim
    | some b =>
      have hobs : observations plans target=observations qs target := by
        simp only [observations,hmem]
      have hleast := h'.least
      rw [←hobs] at hleast
      have hid : a.observationId=b.observationId := h.least.unique hleast
      have hconflict : a.conflict=b.conflict := by
        rw [Bool.eq_iff_iff,h.conflicting,h'.conflicting]
        simp only [Conflicting,hmem]
      rw [Option.map_some,Option.map_some,hid,hconflict]

end CardKeepr.Reconciliation.Withdrawals
