import CardKeepr.Reconciliation.WithdrawalFold

namespace CardKeepr.Reconciliation.Withdrawals

open Lib Shared Reconciliation.Errata List Steps Code

def conflictDiagnostics (es : List (AsciiText×Assertion)) : List WithdrawalDiagnostic :=
  (es.filter fun e => e.2.conflict).map fun e => e.2.diagnostic

/-- Diagnostics under their places behind a count. -/
def placed (count : Nat) (ds : List WithdrawalDiagnostic) : List (JsString×WithdrawalDiagnostic) :=
  ds.mapIdx fun i d => (placeKey (count+i),d)

def DiagnosticsCursor.moved (c : DiagnosticsCursor) (k : Nat) : DiagnosticsCursor :=
  ⟨c.position+k,c.count+k⟩

def firstCursor (plans : Plans) (base : DiagnosticsCursor) : Cursor :=
  ⟨if plans.hasWithdrawals=true then .assertions else .complete,.empty,0,base,0⟩

def Retained.cursor (plans : Plans) (base : DiagnosticsCursor) (d : Retained) : Cursor :=
  d.checkpoints.getLast?.getD (firstCursor plans base)

section
variable (around : Surroundings) (plans : Plans) (base : DiagnosticsCursor)

def Plans.log : List (AsciiText×Assertion) := assertionLog around.nfc plans.all

def publishedOf (ps : List ObservationPlan) : List WithdrawalDiagnostic :=
  ps.flatMap (publishedDiagnostics around.nfc around.latest)

def Plans.conflicts : List WithdrawalDiagnostic := conflictDiagnostics (entities (plans.log around))

def Plans.diagnostics : List WithdrawalDiagnostic :=
  plans.conflicts around++publishedOf around plans.all

/-- The points of the phase, and how many diagnostics have been pushed there. -/
inductive Place : Cursor → Nat → Prop where
  | asserting (done rest : List ObservationPlan) (h : plans.all=done++rest) :
    Place ⟨.assertions,placeAfter ObservationPlan.sourceObservationId .empty done,
      (assertionLog around.nfc done).length,base.moved 0,done.length⟩ 0
  | reporting (done rest : List (AsciiText×Assertion)) (h : entities (plans.log around)=done++rest) :
    Place ⟨.conflicts,placeAfter Prod.fst .empty done,(plans.log around).length,
      base.moved (conflictDiagnostics done).length,plans.all.length⟩ (conflictDiagnostics done).length
  | publishing (done rest : List ObservationPlan) (h : plans.all=done++rest) :
    Place ⟨.published,placeAfter ObservationPlan.sourceObservationId .empty done,(plans.log around).length,
      base.moved (plans.conflicts around++publishedOf around done).length,plans.all.length⟩
      (plans.conflicts around++publishedOf around done).length
  | done : Place ⟨.complete,.empty,(plans.log around).length,
      base.moved (plans.diagnostics around).length,plans.all.length⟩
      (plans.diagnostics around).length
  | idle (h : plans.hasWithdrawals=false) : Place ⟨.complete,.empty,0,base.moved 0,0⟩ 0

/-- What is retained between attempts. -/
def Rests (d : Retained) : Prop :=
  ∃k,Place around plans base (d.cursor plans base) k ∧
    Holding 0 (plans.log around) (d.cursor plans base).assertions d.assertions ∧
    Holding base.position (placed base.count (plans.diagnostics around)) k d.diagnostics

/-- An attempt whose variables stand at a cursor with `k` diagnostics pushed. -/
structure Running (uncut : Prop) (s : Attempt Retained Variables) (c : Cursor) (k : Nat) :
    Prop where
  cursor : s.vars.cursor=c
  diagnostics : c.diagnostics=base.moved k
  follows : s.vars.assertions.Follows (plans.log around)
  written : c.assertions ≤ (plans.log around).length
  held : Holding 0 (plans.log around) c.assertions s.retained.assertions
  pushed : Holding base.position (placed base.count (plans.diagnostics around)) k
    s.retained.diagnostics
  number : s.vars.ordinal=s.retained.checkpoints.length
  last : ∃j,Place around plans base (s.retained.cursor plans base) j ∧
    (s.retained.cursor plans base).assertions ≤ c.assertions ∧ j ≤ k
  uncut : uncut → s.writes=none

/-- How an attempt may stop. -/
def Halts (yieldAtCheckpoint : Bool) (uncut : Prop) (r : Stopped JsString)
    (s : Attempt Retained Variables) : Prop :=
  Rests around plans base s.retained ∧ match r with
    | .cutOff => ¬uncut
    | .continuation _ => yieldAtCheckpoint=true
    | .failed _ => False

end

section
variable {around : Surroundings} {plans : Plans} {base : DiagnosticsCursor} {uncut : Prop}
  {s : Attempt Retained Variables} {c : Cursor} {k : Nat} {yieldAtCheckpoint : Bool}
variable {plan : ObservationPlan} {done rest : List ObservationPlan}

theorem Running.rests (h : Running around plans base uncut s c k) :
    Rests around plans base s.retained := by
  obtain ⟨j,hp,ha,hj⟩ := h.last
  exact ⟨j,hp,h.held.lower ha,h.pushed.lower hj⟩

theorem Running.cut (h : Running around plans base uncut s c k) (hw : s.writes=some 0) :
    Halts around plans base yieldAtCheckpoint uncut .cutOff s := by
  refine ⟨h.rests,fun hu => ?_⟩
  rw [h.uncut hu] at hw
  cases hw

theorem Running.lessened (h : Running around plans base uncut s c k) (hu : uncut) :
    s.writes.map (·-1)=none := by
  rw [h.uncut hu]
  rfl

theorem Running.assertions (h : Running around plans base uncut s c k) :
    s.vars.assertions.ordinal=c.assertions := congrArg Cursor.assertions h.cursor

theorem Running.assign (h : Running around plans base uncut s c k) {v : Variables}
    (hv : v.cursor=s.vars.cursor) (ha : v.assertions=s.vars.assertions)
    (ho : v.ordinal=s.vars.ordinal) :
    Running around plans base uncut { s with vars := v } c k :=
  ⟨hv.trans h.cursor,h.diagnostics,by rw [ha]; exact h.follows,h.written,h.held,h.pushed,
    ho.trans h.number,h.last,h.uncut⟩

theorem save_ends (h : Running around plans base uncut s c k) (hp : Place around plans base c k)
    {Q : Unit → Attempt Retained Variables → Prop}
    (hQ : ∀s',Running around plans base uncut s' c k → s'.retained.cursor plans base=c → Q () s') :
    (save yieldAtCheckpoint).Ends s Q (Halts around plans base yieldAtCheckpoint uncut) := by
  have hwrite : s.retained.checkpoint s.vars.ordinal s.vars.cursor=
      .ok { s.retained with checkpoints := s.retained.checkpoints++[s.vars.cursor] } := by
    rw [Retained.checkpoint,retainCheckpoint_next h.number]
    rfl
  have hlast : ∀d : Retained,Retained.cursor plans base
      { d with checkpoints := d.checkpoints++[s.vars.cursor] }=c := by
    intro d
    rw [Retained.cursor,List.getLast?_append]
    exact h.cursor
  refine Steps.Ends.bind (ends_vars ?_)
  refine Steps.Ends.bind (ends_write hwrite h.cut fun hw => ?_)
  have hnext : Running around plans base uncut
      ⟨{ s.retained with checkpoints := s.retained.checkpoints++[s.vars.cursor] },
        { s.vars with ordinal := s.vars.ordinal+1 },s.writes.map (·-1)⟩ c k := by
    refine ⟨h.cursor,h.diagnostics,h.follows,h.written,h.held,h.pushed,?_,⟨k,?_,?_,le_refl k⟩,
      h.lessened⟩
    · rw [length_append,h.number]
      rfl
    · rw [hlast]
      exact hp
    · rw [hlast]
  refine Steps.Ends.bind (ends_when (fun hy => ends_stop ?_) fun _ => ?_)
  · exact ⟨hnext.rests,hy⟩
  · exact ends_assign (hQ _ hnext (hlast _))

theorem budget_ends (h : Running around plans base uncut s c k) (hp : Place around plans base c k)
    (size : Nat) {Q : Unit → Attempt Retained Variables → Prop}
    (hQ : ∀s',Running around plans base uncut s' c k → Q () s') :
    (budget yieldAtCheckpoint size).Ends s Q (Halts around plans base yieldAtCheckpoint uncut) := by
  refine Steps.Ends.bind (ends_vars (Steps.Ends.bind (ends_when (fun _ => ?_) fun _ => ?_)))
  · refine Steps.Ends.bind (save_ends h hp fun s' h' _ => ends_assign ?_)
    exact ends_assign (hQ _ ((h'.assign rfl rfl rfl).assign rfl rfl rfl))
  · exact ends_assign (hQ _ (h.assign rfl rfl rfl))

/-- The index over the assertions stands behind the first `m` effects of the log. -/
structure Asserting (log : List (AsciiText×Assertion)) (m : Nat) (d : Retained) (v : Variables) :
    Prop where
  ordinal : v.assertions.ordinal=m
  written : m ≤ log.length
  follows : v.assertions.Follows log
  held : Holding 0 log m d.assertions

theorem Asserting.next {log : List (AsciiText×Assertion)} {m : Nat} {d : Retained} {v : Variables}
    (h : Asserting log m d v) {plan : ObservationPlan} {w : Withdrawal} {target : AsciiText}
    (he : log[m]?=some (target,assertionOf around.nfc (lastOf (log.take m) target) target plan w)) :
    let a := assertionOf around.nfc (v.assertions.get d.assertions target) target plan w
    ∃rows,Retained.assert (v.assertions.seedRow target a) d=.ok { d with assertions := rows } ∧
      Asserting log (m+1) { d with assertions := rows }
        { v with assertions := v.assertions.seeded around.whole target a } := by
  have hget : v.assertions.get d.assertions target=lastOf (log.take m) target := by
    rw [h.follows.get (by rw [h.ordinal]; exact h.held) (by rw [h.ordinal]; exact h.written),
      h.ordinal]
  intro a
  have ha : a=assertionOf around.nfc (lastOf (log.take m) target) target plan w := by
    rw [←hget]
  rw [←ha] at he
  obtain ⟨hok,hheld⟩ := h.held.retain he
  have hrow : v.assertions.seedRow target a=⟨0+m+1,target,a⟩ := by
    rw [LedgerIndex.seedRow,h.ordinal,Nat.zero_add]
  obtain ⟨rows,hrows⟩ : ∃rows,retainRow d.assertions ⟨0+m+1,target,a⟩=(true,rows) :=
    ⟨_,Prod.ext hok rfl⟩
  rw [hrows] at hheld
  refine ⟨rows,?_,?_,(List.getElem?_eq_some_iff.mp he).1,?_,hheld⟩
  · rw [hrow,Retained.assert,hrows]
  · rw [←h.ordinal]
    rfl
  · have hx := h.ordinal
    exact LedgerIndex.seeded_follows (x := v.assertions) (by rw [hx]; exact he)

theorem Running.asserting (h : Running around plans base uncut s c k) :
    Asserting (plans.log around) c.assertions s.retained s.vars :=
  ⟨h.assertions,h.written,h.follows,h.held⟩

theorem retainTarget_ends (h : Running around plans base uncut s c k)
    {w : Withdrawal} {target : AsciiText}
    (he : (plans.log around)[c.assertions]?=some (target,assertionOf around.nfc
      (lastOf ((plans.log around).take c.assertions) target) target plan w)) :
    (retainTarget around plan w target).Ends s
      (fun _ s' => Running around plans base uncut s' { c with assertions := c.assertions+1 } k)
      (Halts around plans base yieldAtCheckpoint uncut) := by
  obtain ⟨rows,hwrite,hnext⟩ := h.asserting.next he
  refine Steps.Ends.bind (ends_vars (Steps.Ends.bind (ends_retained ?_)))
  refine Steps.Ends.bind (ends_write hwrite h.cut fun hw => ends_assign ?_)
  obtain ⟨j,hj,hle,hjk⟩ := h.last
  refine ⟨?_,h.diagnostics,hnext.follows,hnext.written,hnext.held,h.pushed,h.number,
    ⟨j,hj,Nat.le_succ_of_le hle,hjk⟩,h.lessened⟩
  rw [←h.cursor]
  rfl

theorem fold_prefix (nfc : Nfc) (plan : ObservationPlan) (w : Withdrawal) (ts : List AsciiText)
    (log : List (AsciiText×Assertion)) : log <+: ts.foldl (assertTarget nfc plan w) log := by
  induction ts generalizing log with
  | nil => exact prefix_refl log
  | cons t ts ih => exact (prefix_append log _).trans (ih _)

theorem planLog_prefix (nfc : Nfc) (plan : ObservationPlan) (log : List (AsciiText×Assertion)) :
    log <+: assertPlanLog nfc log plan := by
  rw [assertPlanLog]
  cases plan.withdrawal with
  | none => exact prefix_refl log
  | some w => exact fold_prefix nfc plan w _ log

theorem log_prefix (nfc : Nfc) (done rest : List ObservationPlan) :
    assertionLog nfc done <+: assertionLog nfc (done++rest) := by
  induction rest using List.reverseRecOn with
  | nil => simp
  | append_singleton rest plan ih =>
    rw [←append_assoc,assertionLog_append]
    exact ih.trans ( planLog_prefix nfc plan _)

theorem retainAssertion_ends {log : List (AsciiText×Assertion)}
    {I : Nat → Attempt Retained Variables → Prop}
    {E : Stopped JsString → Attempt Retained Variables → Prop}
    (hwritten : ∀m s,I m s → m ≤ log.length)
    (hstep : ∀m s plan w target,I m s → log[m]?=some (target,assertionOf around.nfc
      (lastOf (log.take m) target) target plan w) →
        (retainTarget around plan w target).Ends s (fun _ s' => I (m+1) s') E)
    {m n : Nat} (h : I m s)
    (hlog : assertPlanLog around.nfc (log.take m) plan=log.take n) (hn : n ≤ log.length) :
    (retainAssertion around plan).Ends s (fun _ s' => I n s') E := by
  have hsame : ∀{i s'},I i s' → log.take i=log.take n → I n s' := by
    intro i s' hs hi
    have hl := congrArg List.length hi
    rw [length_take,length_take,min_eq_left (hwritten i s' hs),min_eq_left hn] at hl
    exact hl ▸ hs
  rw [retainAssertion]
  rw [assertPlanLog] at hlog
  cases hw : plan.withdrawal with
  | none =>
    rw [hw] at hlog
    exact ends_ret (hsame h hlog)
  | some w =>
    rw [hw] at hlog
    dsimp only at hlog ⊢
    refine (ends_each (fun ts s' => ∃i,I i s' ∧
      ts.foldl (assertTarget around.nfc plan w) (log.take i)=log.take n) ?_ ⟨m,h,hlog⟩).post ?_
    swap
    · rintro _ s' ⟨i,hs,hi⟩
      exact hsame hs hi
    rintro t ts s' ⟨i,hs,hts⟩
    rw [foldl_cons] at hts
    have hpre := fold_prefix around.nfc plan w ts (assertTarget around.nfc plan w (log.take i) t)
    rw [hts] at hpre
    have hpre := hpre.trans ( take_prefix n _)
    have hi : (log.take i).length=i := by
      rw [length_take,min_eq_left (hwritten i s' hs)]
    have hnext : log.take (i+1)=assertTarget around.nfc plan w (log.take i) t := by
      have htake := prefix_iff_eq_take.mp hpre
      rw [assertTarget,length_append,hi] at htake
      exact htake.symm
    have he : log[i]?=some (t,assertionOf around.nfc (lastOf (log.take i) t) t plan w) := by
      have hg : (log.take (i+1))[i]?=log[i]? := List.getElem?_take_of_lt (Nat.lt_succ_self i)
      rw [←hg,hnext,assertTarget,List.getElem?_append_right (le_of_eq hi),hi,Nat.sub_self]
      rfl
    refine (hstep i s' plan w t hs he).post fun _ s'' hs'' => ⟨i+1,hs'',?_⟩
    rw [hnext]
    exact hts

theorem Retained.push_kept {r : Numbered JsString WithdrawalDiagnostic} {d : Retained}
    {rows : List (Numbered JsString WithdrawalDiagnostic)}
    (h : retainRow d.diagnostics r=(true,rows)) :
    d.push r=.ok { d with diagnostics := rows } := by
  rw [Retained.push,h]

theorem push_ends (h : Running around plans base uncut s c k) {d : WithdrawalDiagnostic}
    (hd : (plans.diagnostics around)[k]?=some d) {Q : Unit → Attempt Retained Variables → Prop}
    (hQ : ∀s',Running around plans base uncut s' { c with diagnostics := base.moved (k+1) } (k+1) →
      Q () s') :
    (push d).Ends s Q (Halts around plans base yieldAtCheckpoint uncut) := by
  have hplace : s.vars.diagnostics=base.moved k :=
    (congrArg Cursor.diagnostics h.cursor).trans h.diagnostics
  have he : (placed base.count (plans.diagnostics around))[k]?=some (placeKey (base.count+k),d) := by
    rw [placed,List.getElem?_mapIdx,hd]
    rfl
  obtain ⟨hok,hpushed⟩ := h.pushed.retain he
  obtain ⟨rows,hrows⟩ : ∃rows,retainRow s.retained.diagnostics
      ⟨base.position+k+1,placeKey (base.count+k),d⟩=(true,rows) := ⟨_,Prod.ext hok rfl⟩
  have hwrite : Retained.push ⟨s.vars.diagnostics.position+1,placeKey s.vars.diagnostics.count,d⟩
      s.retained=.ok { s.retained with diagnostics := rows } := by
    rw [hplace]
    exact Retained.push_kept hrows
  rw [hrows] at hpushed
  refine Steps.Ends.bind (ends_vars ?_)
  refine Steps.Ends.bind (ends_write hwrite h.cut fun hw => ends_assign (hQ _ ?_))
  obtain ⟨j,hj,hle,hjk⟩ := h.last
  refine ⟨?_,rfl,h.follows,h.written,h.held,hpushed,h.number,
    ⟨j,hj,hle,Nat.le_succ_of_le hjk⟩,h.lessened⟩
  rw [←h.cursor]
  show Cursor.mk _ _ _ ⟨s.vars.diagnostics.position+1,s.vars.diagnostics.count+1⟩ _=_
  rw [hplace]
  rfl

theorem pushes_ends (h : Running around plans base uncut s c k) {ds : List WithdrawalDiagnostic}
    {n : Nat} (hds : (plans.diagnostics around).take k++ds=(plans.diagnostics around).take n)
    (hk : k ≤ (plans.diagnostics around).length) (hn : n ≤ (plans.diagnostics around).length)
    {Q : Unit → Attempt Retained Variables → Prop}
    (hQ : ∀s',Running around plans base uncut s' { c with diagnostics := base.moved n } n → Q () s') :
    (each push ds).Ends s Q (Halts around plans base yieldAtCheckpoint uncut) := by
  have hstart : Running around plans base uncut s { c with diagnostics := base.moved k } k := by
    rw [←h.diagnostics]
    exact h
  refine (ends_each (fun ds s' => ∃m,Running around plans base uncut s'
    { c with diagnostics := base.moved m } m ∧ m ≤ (plans.diagnostics around).length ∧
      (plans.diagnostics around).take m++ds=(plans.diagnostics around).take n) ?_
    ⟨k,hstart,hk,hds⟩).post fun _ s' hs => ?_
  · rintro d ds s' ⟨m,hs,hm,hds⟩
    have hlen : ((plans.diagnostics around).take m).length=m := by
      rw [length_take,min_eq_left hm]
    have hl := congrArg List.length hds
    rw [length_append,hlen,length_cons,length_take,min_eq_left hn] at hl
    have hd : (plans.diagnostics around)[m]?=some d := by
      have hg : ((plans.diagnostics around).take n)[m]?=(plans.diagnostics around)[m]? :=
        List.getElem?_take_of_lt (by omega)
      rw [←hg,←hds,List.getElem?_append_right (le_of_eq hlen),hlen,Nat.sub_self]
      rfl
    refine push_ends hs hd fun s'' hs'' => ⟨m+1,hs'',by omega,?_⟩
    rw [take_add_one,hd,Option.toList_some,append_assoc]
    exact hds
  · obtain ⟨m,hs,hm,hds⟩ := hs
    have hl := congrArg List.length hds
    rw [append_nil,length_take,length_take,min_eq_left hm,min_eq_left hn] at hl
    refine hQ s' ?_
    rw [←hl]
    exact hs

theorem values_behind (h : plans.all=done++rest) :
    plans.values (placeAfter ObservationPlan.sourceObservationId .empty done)=rest := by
  rw [Plans.values]
  have hs := plans.sorted
  have hn := plans.named
  rw [h] at hs hn ⊢
  exact filter_behind (fun p hp => AsciiText.empty_lt (hn p hp)) hs

/-- An attempt at a point of the phase; where that is its end, it has been retained. -/
def Stands (around : Surroundings) (plans : Plans) (base : DiagnosticsCursor) (uncut : Prop)
    (s : Attempt Retained Variables) : Prop :=
  ∃c k,Running around plans base uncut s c k ∧ Place around plans base c k ∧
    (c.stage=.complete → s.retained.cursor plans base=c)

theorem assertPlan_ends (hall : plans.all=done++plan::rest)
    (h : Running around plans base uncut s ⟨.assertions,
      placeAfter ObservationPlan.sourceObservationId .empty done,(assertionLog around.nfc done).length,
      base.moved 0,done.length⟩ 0) :
    (assertPlan yieldAtCheckpoint around plan).Ends s
      (fun _ s' => Running around plans base uncut s' ⟨.assertions,
        placeAfter ObservationPlan.sourceObservationId .empty (done++[plan]),
        (assertionLog around.nfc (done++[plan])).length,base.moved 0,(done++[plan]).length⟩ 0)
      (Halts around plans base yieldAtCheckpoint uncut) := by
  have hpre : assertionLog around.nfc (done++[plan]) <+: plans.log around := by
    have hsplit : plans.all=(done++[plan])++rest := by simp [hall]
    rw [Plans.log,hsplit]
    exact log_prefix around.nfc _ rest
  have hdone := ( log_prefix around.nfc done [plan]).trans hpre
  refine Steps.Ends.bind (budget_ends h (.asserting done (plan::rest) hall) _ fun s1 h1 => ?_)
  have hretain : (retainAssertion around plan).Ends s1
      (fun _ s' => Running around plans base uncut s' ⟨.assertions,
        placeAfter ObservationPlan.sourceObservationId .empty done,
        (assertionLog around.nfc (done++[plan])).length,base.moved 0,done.length⟩ 0)
      (Halts around plans base yieldAtCheckpoint uncut) := by
    refine retainAssertion_ends (I := fun m s => Running around plans base uncut s
      ⟨.assertions,placeAfter ObservationPlan.sourceObservationId .empty done,m,base.moved 0,done.length⟩ 0)
      (fun m s hs => hs.written) (fun m s p w t hs he => retainTarget_ends hs he) h1 ?_
      hpre.length_le
    rw [←prefix_iff_eq_take.mp hdone,←prefix_iff_eq_take.mp hpre,assertionLog_append]
  refine Steps.Ends.bind (hretain.post fun _ s2 h2 => ?_)
  · refine ends_assign ⟨?_,h2.diagnostics,h2.follows,h2.written,h2.held,h2.pushed,h2.number,
      h2.last,h2.uncut⟩
    have hc := h2.cursor
    simp only [Variables.cursor,Cursor.mk.injEq] at hc ⊢
    obtain ⟨hstage,-,ha,hd,hn⟩ := hc
    rw [placeAfter_append,length_append,hn]
    exact ⟨hstage,rfl,ha,hd,rfl⟩

theorem enter_ends (h : Running around plans base uncut s c k) {next : Stage}
    (hp : Place around plans base { c with stage := next, after := .empty } k)
    {Q : Unit → Attempt Retained Variables → Prop}
    (hQ : ∀s',Stands around plans base uncut s' → s'.vars.stage=next → Q () s') :
    (enter yieldAtCheckpoint next).Ends s Q
      (Halts around plans base yieldAtCheckpoint uncut) := by
  have hnext : Running around plans base uncut
      { s with vars := { s.vars with stage := next, after := .empty } }
      { c with stage := next, after := .empty } k := by
    refine ⟨?_,h.diagnostics,h.follows,h.written,h.held,h.pushed,h.number,h.last,h.uncut⟩
    rw [←h.cursor]
    rfl
  refine Steps.Ends.bind (ends_assign (save_ends hnext hp fun s' h' hlast => hQ s' ?_ ?_))
  · exact ⟨_,k,h',hp,fun _ => hlast⟩
  · exact congrArg Cursor.stage h'.cursor

theorem Stands.reset (h : Stands around plans base uncut s) :
    Stands around plans base uncut { s with vars := { s.vars with records := 0, bytes := 0 } } := by
  obtain ⟨c,k,hr,hp,hlast⟩ := h
  exact ⟨c,k,hr.assign rfl rfl rfl,hp,hlast⟩

theorem Running.stage (h : Running around plans base uncut s c k) : s.vars.stage=c.stage :=
  congrArg Cursor.stage h.cursor

theorem Running.after (h : Running around plans base uncut s c k) : s.vars.after=c.after :=
  congrArg Cursor.after h.cursor

theorem assertStage_ends (h : Stands around plans base uncut s) :
    (assertStage yieldAtCheckpoint around plans).Ends s
      (fun _ s' => Stands around plans base uncut s' ∧ s'.vars.stage≠.assertions)
      (Halts around plans base yieldAtCheckpoint uncut) := by
  refine Steps.Ends.bind (ends_vars (ends_when (fun hstage => ?_) fun hstage => ⟨h,hstage⟩))
  obtain ⟨c,k,hr,hp,-⟩ := h
  have hc : c.stage=.assertions := hr.stage.symm.trans hstage
  cases hp with
  | reporting done rest hall => cases hc
  | publishing done rest hall => cases hc
  | done => cases hc
  | idle hno => cases hc
  | asserting done rest hall =>
    rw [hr.after,values_behind hall]
    refine Steps.Ends.bind ((ends_each (fun ps s' => ∃done,plans.all=done++ps ∧
      Running around plans base uncut s' ⟨.assertions,
        placeAfter ObservationPlan.sourceObservationId .empty done,(assertionLog around.nfc done).length,
        base.moved 0,done.length⟩ 0) ?_ ⟨done,hall,hr⟩).post fun _ s' hs => ?_)
    · rintro plan ps s' ⟨done',hall',hs⟩
      refine (assertPlan_ends hall' hs).post fun _ s'' hs'' => ⟨done'++[plan],?_,hs''⟩
      rw [hall',append_assoc]
      rfl
    · obtain ⟨done',hall',hs⟩ := hs
      rw [append_nil] at hall'
      subst hall'
      refine Steps.Ends.bind (enter_ends hs ?_ fun s'' hs'' hnext => ends_assign ⟨?_,?_⟩)
      · exact .reporting [] (entities (plans.log around)) rfl
      · exact hs''.reset
      · dsimp only
        rw [hnext]
        decide

theorem entity_summary {k : AsciiText} {a : Assertion} (h : (k,a)∈entities (plans.log around)) :
    Summary around.nfc plans.all k a := by
  have hl : lastOf (assertionLog around.nfc plans.all) k=some a := mem_entities.mp h
  have hs : Summarized around.nfc plans.all k (lastOf (assertionLog around.nfc plans.all) k) :=
    assertionLog_summarized plans.all k
  rw [hl] at hs
  exact hs

theorem target_named {w : Withdrawal} {t : AsciiText} (h : t∈plan.targets w) : t≠.empty := by
  rintro rfl
  have hcard : ∀id,cardTarget id≠.empty := fun id he => by
    have ht := congrArg AsciiText.text he
    simp [cardTarget,AsciiText.after,AsciiText.empty,cardPrefix,js] at ht
  have hprinting : ∀id,printingTarget id≠.empty := fun id he => by
    have ht := congrArg AsciiText.text he
    simp [printingTarget,AsciiText.after,AsciiText.empty,printingPrefix,js] at ht
  rw [ObservationPlan.targets] at h
  rcases mem_append.mp h with h | h
  · split_ifs at h
    · exact hcard _ (mem_singleton.mp h).symm
    · cases h
  · cases hp : plan.printingId with
    | none =>
      rw [hp] at h
      cases h
    | some id =>
      rw [hp] at h
      dsimp only at h
      split_ifs at h
      · exact hprinting _ (mem_singleton.mp h).symm
      · cases h

theorem conflictDiagnostics_append (es : List (AsciiText×Assertion)) (e : AsciiText×Assertion) :
    conflictDiagnostics (es++[e])=
      conflictDiagnostics es++if e.2.conflict=true then [e.2.diagnostic] else [] := by
  rw [conflictDiagnostics,filter_append,map_append,conflictDiagnostics]
  by_cases h : e.2.conflict=true
  · rw [if_pos h,filter_cons,if_pos h]
    rfl
  · rw [if_neg h,filter_cons,if_neg h]
    rfl

theorem conflictDiagnostics_prefix (done rest : List (AsciiText×Assertion)) :
    conflictDiagnostics done <+: conflictDiagnostics (done++rest) := by
  rw [conflictDiagnostics,conflictDiagnostics,filter_append,map_append]
  exact prefix_append _ _

theorem reportAssertion_ends {done rest : List (AsciiText×Assertion)} {e : AsciiText×Assertion}
    (hall : entities (plans.log around)=done++e::rest)
    (h : Running around plans base uncut s ⟨.conflicts,placeAfter Prod.fst .empty done,
      (plans.log around).length,base.moved (conflictDiagnostics done).length,plans.all.length⟩
      (conflictDiagnostics done).length) :
    (reportAssertion yieldAtCheckpoint around e.2).Ends s
      (fun _ s' => Running around plans base uncut s' ⟨.conflicts,
        placeAfter Prod.fst .empty (done++[e]),(plans.log around).length,
        base.moved (conflictDiagnostics (done++[e])).length,plans.all.length⟩
        (conflictDiagnostics (done++[e])).length)
      (Halts around plans base yieldAtCheckpoint uncut) := by
  have hid : e.2.id=e.1 := by
    have hin : (e.1,e.2)∈entities (plans.log around) := by
      rw [hall]
      simp
    exact (entity_summary hin).id
  have hpre : conflictDiagnostics (done++[e]) <+: plans.diagnostics around := by
    have hsplit : done++e::rest=(done++[e])++rest := by simp
    rw [Plans.diagnostics,Plans.conflicts,hall,hsplit]
    exact ( conflictDiagnostics_prefix _ rest).trans (prefix_append _ _)
  refine Steps.Ends.bind (budget_ends h (.reporting done (e::rest) hall) _ fun s1 h1 => ?_)
  have hfinish : ∀s2 k,Running around plans base uncut s2 ⟨.conflicts,
      placeAfter Prod.fst .empty done,(plans.log around).length,base.moved k,plans.all.length⟩ k →
      Running around plans base uncut { s2 with vars := { s2.vars with after := e.2.id } }
        ⟨.conflicts,placeAfter Prod.fst .empty (done++[e]),(plans.log around).length,base.moved k,
          plans.all.length⟩ k := by
    intro s2 k h2
    refine ⟨?_,h2.diagnostics,h2.follows,h2.written,h2.held,h2.pushed,h2.number,h2.last,h2.uncut⟩
    have hc := h2.cursor
    simp only [Variables.cursor,Cursor.mk.injEq] at hc ⊢
    obtain ⟨hstage,-,hrest⟩ := hc
    rw [placeAfter_append,hid]
    exact ⟨hstage,rfl,hrest⟩
  rw [conflictDiagnostics_append] at hpre ⊢
  refine Steps.Ends.bind (ends_when (fun hc => ?_) fun hc => ends_assign ?_)
  · rw [if_pos hc] at hpre ⊢
    rw [length_append,length_singleton]
    refine push_ends h1 ?_ fun s2 h2 => ends_assign (hfinish s2 _ h2)
    obtain ⟨t,ht⟩ := hpre
    rw [←ht]
    simp
  · rw [if_neg hc,append_nil]
    exact hfinish s1 _ h1

theorem conflictStage_ends (h : Stands around plans base uncut s)
    (hpast : s.vars.stage≠.assertions) :
    (conflictStage yieldAtCheckpoint around).Ends s
      (fun _ s' => Stands around plans base uncut s' ∧ s'.vars.stage≠.assertions ∧
        s'.vars.stage≠.conflicts)
      (Halts around plans base yieldAtCheckpoint uncut) := by
  refine Steps.Ends.bind (ends_vars (Steps.Ends.bind (ends_retained
    (ends_when (fun hstage => ?_) fun hstage => ⟨h,hpast,hstage⟩))))
  obtain ⟨c,k,hr,hp,-⟩ := h
  have hc : c.stage=.conflicts := hr.stage.symm.trans hstage
  cases hp with
  | asserting done rest hall => cases hc
  | publishing done rest hall => cases hc
  | done => cases hc
  | idle hno => cases hc
  | reporting done rest hall =>
    have hread : entityValues s.retained.assertions s.vars.assertions.ordinal s.vars.after=rest := by
      have hsorted := entities_sorted (plans.log around)
      have hnamed : ∀e∈entities (plans.log around),AsciiText.empty < e.1 := by
        rintro ⟨t,a⟩ he
        obtain ⟨p,-,w,hw,-⟩ := (entity_summary he).semantic
        exact AsciiText.empty_lt (target_named hw.2)
      rw [hr.after,hr.assertions,hr.held.entityValues (le_refl _),take_length]
      rw [hall] at hsorted hnamed ⊢
      exact filter_behind hnamed hsorted
    rw [hread]
    refine Steps.Ends.bind ((ends_each (fun as s' => ∃done rest,
      entities (plans.log around)=done++rest ∧ as=rest.map Prod.snd ∧
      Running around plans base uncut s' ⟨.conflicts,placeAfter Prod.fst .empty done,
        (plans.log around).length,base.moved (conflictDiagnostics done).length,plans.all.length⟩
        (conflictDiagnostics done).length) ?_ ⟨done,rest,hall,rfl,hr⟩).post fun _ s' hs => ?_)
    · rintro a as s' ⟨done',rest',hall',has,hs⟩
      cases rest' with
      | nil => cases has
      | cons e rest' =>
        obtain ⟨rfl,rfl⟩ := List.cons.inj has
        refine (reportAssertion_ends hall' hs).post fun _ s'' hs'' =>
          ⟨done'++[e],rest',?_,rfl,hs''⟩
        rw [hall',append_assoc]
        rfl
    · obtain ⟨done',rest',hall',has,hs⟩ := hs
      obtain rfl := map_eq_nil_iff.mp has.symm
      rw [append_nil] at hall'
      subst hall'
      refine Steps.Ends.bind (enter_ends hs ?_ fun s'' hs'' hnext => ends_assign ⟨?_,?_⟩)
      · have hp : Place around plans base _ _ := .publishing [] plans.all rfl
        rw [publishedOf,flatMap_nil,append_nil] at hp
        exact hp
      · exact hs''.reset
      · dsimp only
        rw [hnext]
        decide

theorem publishedOf_prefix (done rest : List ObservationPlan) :
    publishedOf around done <+: publishedOf around (done++rest) := by
  rw [publishedOf,publishedOf,flatMap_append]
  exact prefix_append _ _

theorem reportPublished_ends (hall : plans.all=done++plan::rest)
    (h : Running around plans base uncut s ⟨.published,
      placeAfter ObservationPlan.sourceObservationId .empty done,(plans.log around).length,
      base.moved (plans.conflicts around++publishedOf around done).length,plans.all.length⟩
      (plans.conflicts around++publishedOf around done).length) :
    (reportPublished yieldAtCheckpoint around plan).Ends s
      (fun _ s' => Running around plans base uncut s' ⟨.published,
        placeAfter ObservationPlan.sourceObservationId .empty (done++[plan]),(plans.log around).length,
        base.moved (plans.conflicts around++publishedOf around (done++[plan])).length,
        plans.all.length⟩ (plans.conflicts around++publishedOf around (done++[plan])).length)
      (Halts around plans base yieldAtCheckpoint uncut) := by
  have hpre : plans.conflicts around++publishedOf around (done++[plan]) <+:
      plans.diagnostics around := by
    have hsplit : plans.all=(done++[plan])++rest := by simp [hall]
    rw [Plans.diagnostics,hsplit]
    exact (prefix_append_right_inj _).mpr ( publishedOf_prefix _ rest)
  have hone : plans.conflicts around++publishedOf around (done++[plan])=
      plans.conflicts around++publishedOf around done++
        publishedDiagnostics around.nfc around.latest plan := by
    simp [publishedOf]
  have hdone : plans.conflicts around++publishedOf around done <+: plans.diagnostics around := by
    refine List.IsPrefix.trans ?_ hpre
    rw [hone]
    exact prefix_append _ _
  refine Steps.Ends.bind (budget_ends h (.publishing done (plan::rest) hall) _ fun s1 h1 => ?_)
  refine Steps.Ends.bind (pushes_ends h1 ?_ hdone.length_le hpre.length_le fun s2 h2 => ?_)
  · rw [←prefix_iff_eq_take.mp hdone,←prefix_iff_eq_take.mp hpre,hone]
  · refine ends_assign ⟨?_,h2.diagnostics,h2.follows,h2.written,h2.held,h2.pushed,h2.number,
      h2.last,h2.uncut⟩
    have hc := h2.cursor
    simp only [Variables.cursor,Cursor.mk.injEq] at hc ⊢
    obtain ⟨hstage,-,hrest⟩ := hc
    rw [placeAfter_append]
    exact ⟨hstage,rfl,hrest⟩

theorem publishedStage_ends (h : Stands around plans base uncut s)
    (hpast : s.vars.stage≠.assertions ∧ s.vars.stage≠.conflicts) :
    (publishedStage yieldAtCheckpoint around plans).Ends s
      (fun _ s' => Stands around plans base uncut s' ∧ s'.vars.stage=.complete)
      (Halts around plans base yieldAtCheckpoint uncut) := by
  refine Steps.Ends.bind (ends_vars (ends_when (fun hstage => ?_) fun hstage => ⟨h,?_⟩))
  · obtain ⟨c,k,hr,hp,-⟩ := h
    have hc : c.stage=.published := hr.stage.symm.trans hstage
    cases hp with
    | asserting done rest hall => cases hc
    | reporting done rest hall => cases hc
    | done => cases hc
    | idle hno => cases hc
    | publishing done rest hall =>
      rw [hr.after,values_behind hall]
      refine Steps.Ends.bind ((ends_each (fun ps s' => ∃done,plans.all=done++ps ∧
        Running around plans base uncut s' ⟨.published,
          placeAfter ObservationPlan.sourceObservationId .empty done,(plans.log around).length,
          base.moved (plans.conflicts around++publishedOf around done).length,plans.all.length⟩
          (plans.conflicts around++publishedOf around done).length) ?_
        ⟨done,hall,hr⟩).post fun _ s' hs => ?_)
      · rintro plan ps s' ⟨done',hall',hs⟩
        refine (reportPublished_ends hall' hs).post fun _ s'' hs'' => ⟨done'++[plan],?_,hs''⟩
        rw [hall',append_assoc]
        rfl
      · obtain ⟨done',hall',hs⟩ := hs
        rw [append_nil] at hall'
        subst hall'
        exact enter_ends hs .done fun s'' hs'' hnext => ⟨hs'',hnext⟩
  · cases hs : s.vars.stage with
    | assertions => exact absurd hs hpast.1
    | conflicts => exact absurd hs hpast.2
    | published => exact absurd hs hstage
    | complete => rfl

theorem Stands.complete (h : Stands around plans base uncut s) (hs : s.vars.stage=.complete) :
    Rests around plans base s.retained ∧ (s.retained.cursor plans base).stage=.complete := by
  obtain ⟨c,k,hr,hp,hlast⟩ := h
  have hc : c.stage=.complete := hr.stage.symm.trans hs
  refine ⟨hr.rests,?_⟩
  rw [hlast hc]
  exact hc

theorem Place.bounds (h : Place around plans base c k) :
    c.assertions ≤ (plans.log around).length ∧ c.diagnostics=base.moved k := by
  cases h with
  | asserting done rest hall =>
    refine ⟨?_,rfl⟩
    rw [Plans.log,hall]
    exact ( log_prefix around.nfc done rest).length_le
  | reporting done rest hall => exact ⟨le_refl _,rfl⟩
  | publishing done rest hall => exact ⟨le_refl _,rfl⟩
  | done => exact ⟨le_refl _,rfl⟩
  | idle hno => exact ⟨Nat.zero_le _,rfl⟩

variable (around plans base) in
theorem startingVariables_cursor (d : Retained) : (startingVariables plans base d).cursor=d.cursor
    plans base ∧ (startingVariables plans base d).assertions.Follows (plans.log around) ∧
    (startingVariables plans base d).ordinal=d.checkpoints.length := by
  rw [startingVariables,Retained.cursor]
  cases d.checkpoints.getLast? with
  | none => exact ⟨rfl,LedgerIndex.fresh_follows _,rfl⟩
  | some c => exact ⟨rfl,LedgerIndex.resumeAt_follows _ _,rfl⟩

theorem startingVariables_running {d : Retained} (h : Rests around plans base d)
    {writes : Option Nat} (hu : uncut → writes=none) :
    ∃k,Running around plans base uncut ⟨d,startingVariables plans base d,writes⟩
      (d.cursor plans base) k ∧ Place around plans base (d.cursor plans base) k := by
  obtain ⟨k,hp,hheld,hpushed⟩ := h
  obtain ⟨hwritten,hplace⟩ := hp.bounds
  obtain ⟨hcursor,hfollows,hnumber⟩ := startingVariables_cursor around plans base d
  exact ⟨k,⟨hcursor,hplace,hfollows,hwritten,hheld,hpushed,hnumber,
    ⟨k,hp,le_refl _,le_refl k⟩,hu⟩,hp⟩

theorem attempt_ends {d : Retained} (h : Rests around plans base d) (writes : Option Nat) :
    (prepareWithdrawalDiagnostics yieldAtCheckpoint around plans d.checkpoints.getLast?.isSome).Ends
      ⟨d,startingVariables plans base d,writes⟩
      (fun _ s' => Rests around plans base s'.retained ∧
        (s'.retained.cursor plans base).stage=.complete)
      (Halts around plans base yieldAtCheckpoint (writes=none)) := by
  have huncut : writes=none → writes=none := id
  obtain ⟨k,hr,hp⟩ := startingVariables_running h huncut
  have hstages : ∀s',Stands around plans base (writes=none) s' → (do
      assertStage yieldAtCheckpoint around plans
      conflictStage yieldAtCheckpoint around
      publishedStage yieldAtCheckpoint around plans : Preparation Unit).Ends s'
      (fun _ s' => Rests around plans base s'.retained ∧
        (s'.retained.cursor plans base).stage=.complete)
      (Halts around plans base yieldAtCheckpoint (writes=none)) := by
    intro s' hs
    refine Steps.Ends.bind ((assertStage_ends hs).post fun _ s1 h1 => ?_)
    refine Steps.Ends.bind ((conflictStage_ends h1.1 h1.2).post fun _ s2 h2 => ?_)
    exact (publishedStage_ends h2.1 h2.2).post fun _ s3 h3 => h3.1.complete h3.2
  refine Steps.Ends.bind (ends_vars (ends_ite (fun hdone => ?_) fun hgo => ?_))
  · refine ends_pure ⟨h,?_⟩
    rw [←hr.stage]
    exact hdone.2
  · cases hcheck : d.checkpoints.getLast?.isSome with
    | false =>
      refine Steps.Ends.bind (ends_when (fun _ => ?_) fun hc => (hc rfl).elim)
      exact save_ends hr hp fun s' hs hlast => hstages s' ⟨_,k,hs,hp,fun _ => hlast⟩
    | true =>
      refine Steps.Ends.bind (ends_when (fun hc => by cases hc) fun _ => ?_)
      refine hstages _ ⟨_,k,hr,hp,fun hc => ?_⟩
      exact (hgo ⟨hcheck,hr.stage.trans hc⟩).elim

end

end CardKeepr.Reconciliation.Withdrawals
