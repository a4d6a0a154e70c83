import CardKeepr.Reconciliation.WithdrawalRuns

namespace CardKeepr.Reconciliation.Withdrawals

open Lib Shared Reconciliation.Errata List Steps Code

/-- The diagnostics that the run has collected before the phase. -/
structure Earlier where
  cursor : DiagnosticsCursor
  rows : List (Numbered JsString WithdrawalDiagnostic)
  distinct : rows.Nodup
  placed : ∀r∈rows,0 < r.ordinal ∧ r.ordinal ≤ cursor.position

variable {around : Surroundings} {plans : Plans} {base : DiagnosticsCursor}

theorem before_rests (around : Surroundings) (plans : Plans) (earlier : Earlier) :
    Rests around plans earlier.cursor (.before earlier.rows) := by
  have hplace : Place around plans earlier.cursor (firstCursor plans earlier.cursor) 0 ∧
      (firstCursor plans earlier.cursor).assertions=0 := by
    cases hw : plans.hasWithdrawals with
    | true =>
      rw [firstCursor,hw]
      exact ⟨.asserting [] plans.all rfl,rfl⟩
    | false =>
      rw [firstCursor,hw]
      exact ⟨.idle hw,rfl⟩
  refine ⟨0,hplace.1,?_,earlier.distinct,fun r hr => (earlier.placed r hr).1,?_,?_⟩
  · show Holding 0 _ (firstCursor plans earlier.cursor).assertions []
    rw [hplace.2]
    exact holding_empty 0 _
  · intro r hr hlt
    have hle := (earlier.placed r hr).2
    omega
  · exact fun i hi => (Nat.not_lt_zero i hi).elim

theorem attempt_rests {d : Retained} (h : Rests around plans base d) (t : Bool×Option Nat) :
    Rests around plans base (attempt around plans base t d).2 ∧
    (∀e,(attempt around plans base t d).1≠.stopped (.failed e)) ∧
    (attempt around plans base t d).1≠.unended ∧
    (t=(false,none) → (attempt around plans base t d).1=.completed ()) ∧
    ((attempt around plans base t d).1=.completed () →
      ((attempt around plans base t d).2.cursor plans base).stage=.complete) := by
  rw [attempt]
  refine (attempt_ends h t.2).performAttempt (P := fun r => Rests around plans base r.2 ∧
    (∀e,r.1≠.stopped (.failed e)) ∧ r.1≠.unended ∧ (t=(false,none) → r.1=.completed ()) ∧
    (r.1=.completed () → (r.2.cursor plans base).stage=.complete)) ?_ ?_
  · intro a s hs
    exact ⟨hs.1,fun e he => (by cases he),fun he => (by cases he),fun _ => rfl,fun _ => hs.2⟩
  · intro r s hs
    refine ⟨hs.1,fun e he => ?_,fun he => (by cases he),fun ht => ?_,fun he => (by cases he)⟩
    · obtain rfl : r=.failed e := by
        injection he
      exact hs.2
    · have hw : t.2=none := by rw [ht]
      have hy : t.1=false := by rw [ht]
      cases r with
      | cutOff => exact (hs.2 hw).elim
      | continuation o =>
        have hyes : t.1=true := hs.2
        rw [hy] at hyes
        cases hyes
      | failed e => exact hs.2.elim

theorem diagnostics_idle (h : plans.hasWithdrawals=false) : plans.diagnostics around=[] := by
  have hnone : ∀p∈plans.all,p.withdrawal=none := by
    intro p hp
    by_contra hw
    have hyes := plans.noticed p hp hw
    rw [h] at hyes
    cases hyes
  have hlog : plans.log around=[] := by
    rw [Plans.log,assertionLog]
    revert hnone
    generalize plans.all=ps
    induction ps with
    | nil => exact fun _ => rfl
    | cons p ps ih =>
      intro hnone
      rw [foldl_cons,assertPlanLog,hnone p mem_cons_self]
      exact ih fun q hq => hnone q (mem_cons_of_mem _ hq)
  have hpublished : publishedOf around plans.all=[] := by
    rw [publishedOf,flatMap_eq_nil_iff]
    intro p hp
    rw [publishedDiagnostics,hnone p hp]
  rw [Plans.diagnostics,Plans.conflicts,hlog,hpublished]
  rfl

theorem Place.pushed {c : Cursor} {k : Nat} (h : Place around plans base c k) :
    (c.stage=.published ∨ c.stage=.complete → (plans.conflicts around).length ≤ k) ∧
    (c.stage=.complete → k=(plans.diagnostics around).length) := by
  cases h with
  | asserting done rest hall => exact ⟨fun hc => (by rcases hc with hc | hc <;> cases hc),
      fun hc => (by cases hc)⟩
  | reporting done rest hall => exact ⟨fun hc => (by rcases hc with hc | hc <;> cases hc),
      fun hc => (by cases hc)⟩
  | publishing done rest hall =>
    refine ⟨fun _ => ?_,fun hc => (by cases hc)⟩
    rw [length_append]
    omega
  | done =>
    refine ⟨fun _ => ?_,fun _ => rfl⟩
    rw [Plans.diagnostics,length_append]
    omega
  | idle hno =>
    have hnil : plans.diagnostics around=[] := diagnostics_idle hno
    have hlen : (plans.conflicts around).length ≤ (plans.diagnostics around).length := by
      rw [Plans.diagnostics,length_append]
      omega
    rw [hnil] at hlen ⊢
    exact ⟨fun _ => hlen,fun _ => rfl⟩

/-- The diagnostic of a target in conflict. -/
def conflictDiagnostic (observationId target : AsciiText) : WithdrawalDiagnostic :=
  ⟨observationId,matchedPrintings target,retainedConflict⟩

theorem conflicts_exact (around : Surroundings) (plans : Plans) : ∃(targets : List AsciiText)
    (least : AsciiText → AsciiText), targets.Pairwise (fun a b => a < b) ∧
    (∀t,t∈targets ↔ Conflicting plans.all t) ∧
    (∀t∈targets,IsLeast (observations plans.all t) (least t)) ∧ plans.conflicts around=targets.map
    fun t => conflictDiagnostic (least t) t := by
  let found := (entities (plans.log around)).filter fun e => e.2.conflict
  let least := fun t => ((lastOf (plans.log around) t).map (·.observationId)).getD .empty
  have hfound : ∀{t a},(t,a)∈found ↔ lastOf (plans.log around) t=some a ∧ a.conflict=true := by
    intro t a
    rw [mem_filter,mem_entities]
  have hsummary : ∀{t a},lastOf (plans.log around) t=some a →
      Summary around.nfc plans.all t a := fun h => entity_summary (mem_entities.mpr h)
  refine ⟨found.map Prod.fst,least,?_,fun t => ?_,fun t ht => ?_,?_⟩
  · exact pairwise_map.mpr ((entities_sorted _).filter _)
  · rw [mem_map]
    constructor
    · rintro ⟨⟨k,a⟩,hin,rfl⟩
      obtain ⟨hl,hc⟩ := hfound.mp hin
      exact (hsummary hl).conflicting.mp hc
    · intro hc
      cases hl : lastOf (plans.log around) t with
      | some a =>
        exact ⟨(t,a),hfound.mpr ⟨hl,(hsummary hl).conflicting.mpr hc⟩,rfl⟩
      | none =>
        have hs : Summarized around.nfc plans.all t (lastOf (plans.log around) t) :=
          assertionLog_summarized plans.all t
        rw [hl] at hs
        obtain ⟨p,hp,-,-,v,-,hv,-,-⟩ := hc
        exact (hs p hp v hv).elim
  · obtain ⟨⟨k,a⟩,hin,rfl⟩ := mem_map.mp ht
    obtain ⟨hl,-⟩ := hfound.mp hin
    have hleast : least k=a.observationId := by
      show ((lastOf (plans.log around) k).map _).getD _=_
      rw [hl]
      rfl
    rw [hleast]
    exact (hsummary hl).least
  · rw [Plans.conflicts,conflictDiagnostics,map_map]
    refine map_congr_left fun e he => ?_
    obtain ⟨k,a⟩ := e
    obtain ⟨hl,-⟩ := hfound.mp he
    have hleast : least k=a.observationId := by
      show ((lastOf (plans.log around) k).map _).getD _=_
      rw [hl]
      rfl
    show a.diagnostic=conflictDiagnostic (least k) k
    rw [hleast,Assertion.diagnostic,(hsummary hl).id]
    rfl

/-- `retainAssertion` over plans in any order, without interruption, and then what `get` returns. -/
def foldAssertions (around : Surroundings) (ps : List ObservationPlan) :
    Option (AsciiText → Option Assertion) :=
  match each (retainAssertion around) ps
      ⟨.before [],⟨.fresh,⟨0,0⟩,.assertions,.empty,0,0,0,0⟩,none⟩ with
  | some (.ok _,s) => some fun t => s.vars.assertions.get s.retained.assertions t
  | _ => none

theorem foldAssertions_eq (around : Surroundings) (ps : List ObservationPlan) :
    foldAssertions around ps=some (lastOf (assertionLog around.nfc ps)) := by
  let log := assertionLog around.nfc ps
  let I := fun (m : Nat) (s : Attempt Retained Variables) =>
    Asserting log m s.retained s.vars ∧ s.writes=none
  let E := fun (_ : Stopped JsString) (_ : Attempt Retained Variables) => False
  have hstep : ∀m s plan w target,I m s → log[m]?=some (target,assertionOf around.nfc
      (lastOf (log.take m) target) target plan w) →
      (retainTarget around plan w target).Ends s (fun _ s' => I (m+1) s') E := by
    rintro m s plan w target ⟨ha,hw⟩ he
    obtain ⟨rows,hwrite,hnext⟩ := ha.next he
    refine Steps.Ends.bind (ends_vars (Steps.Ends.bind (ends_retained ?_)))
    refine Steps.Ends.bind (ends_write hwrite (fun hc => ?_) fun _ => ends_assign ?_)
    · rw [hw] at hc
      cases hc
    · refine ⟨hnext,?_⟩
      show s.writes.map (·-1)=none
      rw [hw]
      rfl
  have hends : (each (retainAssertion around) ps).Ends
      ⟨.before [],⟨.fresh,⟨0,0⟩,.assertions,.empty,0,0,0,0⟩,none⟩ (fun _ s' => I log.length s') E := by
    have hstart : I (assertionLog around.nfc ([] : List ObservationPlan)).length
        ⟨.before [],⟨.fresh,⟨0,0⟩,.assertions,.empty,0,0,0,0⟩,none⟩ :=
      ⟨⟨rfl,Nat.zero_le _,LedgerIndex.fresh_follows _,holding_empty 0 _⟩,rfl⟩
    refine (ends_each (fun rest s' => ∃done,ps=done++rest ∧
      I (assertionLog around.nfc done).length s') ?_ ⟨[],rfl,hstart⟩).post fun _ s' hs => ?_
    · rintro plan rest s' ⟨done,hps,hs⟩
      have hpre : assertionLog around.nfc (done++[plan]) <+: log := by
        have hsplit : ps=(done++[plan])++rest := by simp [hps]
        show _ <+: assertionLog around.nfc ps
        rw [hsplit]
        exact log_prefix around.nfc _ rest
      have hdone := ( log_prefix around.nfc done [plan]).trans hpre
      refine (retainAssertion_ends (fun m s hs => hs.1.written) hstep hs ?_ hpre.length_le).post
        fun _ s'' hs'' => ⟨done++[plan],by simp [hps],hs''⟩
      rw [←prefix_iff_eq_take.mp hdone,←prefix_iff_eq_take.mp hpre,assertionLog_append]
    · obtain ⟨done,hps,hs⟩ := hs
      rw [append_nil] at hps
      rw [←hps] at hs
      exact hs
  unfold Steps.Ends at hends
  unfold foldAssertions
  cases hr : each (retainAssertion around) ps
      ⟨.before [],⟨.fresh,⟨0,0⟩,.assertions,.empty,0,0,0,0⟩,none⟩ with
  | none =>
    rw [hr] at hends
    exact hends.elim
  | some r =>
    obtain ⟨r,s⟩ := r
    rw [hr] at hends
    cases r with
    | error e => exact hends.elim
    | ok u =>
      obtain ⟨ha,-⟩ := hends
      refine congrArg some (funext fun t => ?_)
      have hget := ha.follows.get (by rw [ha.ordinal]; exact ha.held) (by rw [ha.ordinal]) t
      rw [ha.ordinal,take_length] at hget
      exact hget

/-- Whatever attempts are made and wherever they are cut off: none of them fails, one that runs
through completes the phase, past its stage the conflicts are exactly one for each target that is
withdrawn differently, naming the least observation that withdraws it, and at the end these and
the conflicts with what is published are all that has been pushed. Folding the plans in another
order makes no difference. -/
theorem withdrawal_conflicts (around : Surroundings) (plans : Plans) (earlier : Earlier)
    (attempts : List (Bool×Option Nat)) :
    let base := earlier.cursor
    let d := performAll (attempt around plans base) attempts (.before earlier.rows)
    let pushed := fun r : Numbered JsString WithdrawalDiagnostic => base.position < r.ordinal
    let published := plans.all.flatMap (publishedDiagnostics around.nfc around.latest)
    (∀t,(attempt around plans base t d).1≠.unended ∧
      ∀e,(attempt around plans base t d).1≠.stopped (.failed e)) ∧
    (attempt around plans base (false,none) d).1=.completed () ∧
    (∀t,(attempt around plans base t d).1=.completed () →
      ((attempt around plans base t d).2.cursor plans base).stage=.complete) ∧
    (∃(targets : List AsciiText) (least : AsciiText → AsciiText),
      targets.Nodup ∧ (∀t,t∈targets ↔ Conflicting plans.all t) ∧
      (∀t∈targets,IsLeast (observations plans.all t) (least t)) ∧
      let conflicts := targets.map fun t => conflictDiagnostic (least t) t
      ((d.cursor plans base).stage=.published ∨ (d.cursor plans base).stage=.complete →
        (d.diagnostics.filter fun r => decide (pushed r ∧
            r.ordinal ≤ base.position+conflicts.length)).Perm
          (numbered base.position (placed base.count conflicts))) ∧
      ((d.cursor plans base).stage=.complete →
        (d.diagnostics.filter fun r => decide (pushed r)).Perm
          (numbered base.position (placed base.count (conflicts++published))))) ∧
    ∀ps : List ObservationPlan,ps.Perm plans.all → ∃f g,
      foldAssertions around ps=some f ∧ foldAssertions around plans.all=some g ∧
      ∀t,((f t).map fun a => (a.observationId,a.conflict))=
        (g t).map fun a => (a.observationId,a.conflict) := by
  intro base d pushed published
  have hrests : Rests around plans base d :=
    performAll_keeps (I := Rests around plans base) (fun t d hd => (attempt_rests hd t).1)
      (before_rests around plans earlier)
  refine ⟨fun t => ?_,?_,fun t => ?_,?_,fun ps hperm => ?_⟩
  · obtain ⟨-,hfail,hended,-⟩ := attempt_rests hrests t
    exact ⟨hended,hfail⟩
  · exact (attempt_rests hrests (false,none)).2.2.2.1 rfl
  · exact (attempt_rests hrests t).2.2.2.2
  · obtain ⟨targets,least,hsorted,hmem,hleast,heq⟩ := conflicts_exact around plans
    refine ⟨targets,least,hsorted.imp fun h => ne_of_lt h,hmem,hleast,?_⟩
    dsimp only
    rw [←heq]
    obtain ⟨k,hplace,-,hheld⟩ := hrests
    have hlen : ∀ds,(placed base.count ds).length=ds.length := fun ds => length_mapIdx
    refine ⟨fun hstage => ?_,fun hstage => ?_⟩
    · have hpart := hheld.part (hplace.pushed.1 hstage)
      have htake : (placed base.count (plans.diagnostics around)).take (plans.conflicts around).length=
          placed base.count (plans.conflicts around) := by
        rw [placed,placed,Plans.diagnostics,mapIdx_append,take_append_of_le_length
          (by rw [length_mapIdx]),take_of_length_le (by rw [length_mapIdx])]
      rw [htake] at hpart
      exact hpart
    · have hk := hplace.pushed.2 hstage
      rw [hk,←hlen] at hheld
      exact hheld.all
  · refine ⟨_,_,foldAssertions_eq around ps,foldAssertions_eq around plans.all,fun t => ?_⟩
    exact summarized_perm hperm (assertionLog_summarized ps t)
      (assertionLog_summarized plans.all t)

end CardKeepr.Reconciliation.Withdrawals
