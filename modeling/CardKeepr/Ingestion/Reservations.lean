import CardKeepr.Ingestion.RunEvents

namespace CardKeepr.Ingestion.Reservations

open List

-- The collection reservations and the summary of them that release and deletion gates read. Every
-- write is a batch of statements; a statement that fails leaves the store as it was.

structure Run where
  state : IngestionRunState
  failure_code : Option String := none
  approval_deadline : Option Nat := none
  /-- The evidence plan has a `collection_completed_at`. -/
  collected : Bool := false
  /-- The run has a row in `ingestion_run_terminations`. -/
  terminated : Bool := false
  deriving DecidableEq

structure Store where
  /-- `ingestion_runs` with `ingestion_run_current`, by run. -/
  runs : String → Option Run := fun _ => none
  ingestion_collection_reservations : List String := []
  ingestion_collection_completions : List String := []
  /-- The native rows of `reconciliation_operations`: a preparation and its run. -/
  preparations : List (String × String) := []
  active_ingestion_run_id : Option String := none
  /-- `recovery_health = 'blocked'`. -/
  recovery_blocked : Bool := false
  /-- `recovery_restore_guard = 'blocked'`. -/
  restore_blocked : Bool := false
  /-- A production release is active and has not expired. -/
  release_active : Bool := false

abbrev Statement := Store → Option Store

def setRun (id : String) (f : Run → Run) (s : Store) : Store :=
  { s with runs := fun k => if k=id then (s.runs k).map f else s.runs k }

def reservedStates : List IngestionRunState :=
  [.collecting,.paused,.parsing,.reconciling,.awaiting_approval,.publishing]

/-- `nextLiveIngestionReservationSql`. -/
def nextLiveIngestionReservation (s : Store) : Option String :=
  ((s.ingestion_collection_reservations.filter fun id =>
    (s.runs id).any fun run => reservedStates.contains run.state).insertionSort (· ≤ ·)).head?

/-- `createRunEventStatement` with its guards: the primary keys of a run and of its reservation,
and `runStartGuardStatement`. -/
def createRun (id : String) (state : IngestionRunState) : Statement := fun s =>
  if (s.runs id).isSome || s.ingestion_collection_reservations.contains id then none
  else if s.release_active || s.recovery_blocked || s.restore_blocked then none
  else some { s with
    runs := fun k => if k=id then some { state := state } else s.runs k
    ingestion_collection_reservations := s.ingestion_collection_reservations++[id] }

/-- `acquireRunLockStatement` and its copies in the start batches. -/
def acquireRunLock (id : String) : Statement := fun s =>
  some (if s.active_ingestion_run_id=none ∧ s.recovery_blocked=false then
    { s with active_ingestion_run_id := some id } else s)

def abandonedCodes : List String :=
  ["publication_abandoned","publication_precondition_failed","export_verification_failed"]

/-- An `UPDATE` of the run's state from one of `sources`, followed by
`runTransitionGuardStatement`: without a reservation only a failed publication and an expiry pass.
An `UPDATE` that finds no row changes nothing and passes. -/
def transition (sources : List IngestionRunState) (target : IngestionRunState) (set : Run → Run)
    (id : String) : Statement := fun s =>
  match s.runs id with
  | none => some s
  | some run =>
    if sources.contains run.state then
      let after := { set run with state := target }
      if s.ingestion_collection_reservations.contains id ||
          (sources=[.publishing] && target=.failed &&
            after.failure_code.any abandonedCodes.contains) ||
          (sources.contains .awaiting_approval && target=.expired && after.approval_deadline.isSome)
      then some (setRun id (fun _ => after) s) else none
    else some s

def fail (sources : List IngestionRunState) (code : String) (id : String) : Statement :=
  transition sources .failed (fun run => { run with failure_code := some code }) id

/-- `failRunStatement`: a run that could fail has to be the active one, a publication given up
apart. -/
def failRun (code : String) (id : String) : Statement := fun s =>
  match s.runs id with
  | none => some s
  | some run =>
    if (ingestionRunTransitionSources .failed).contains run.state then
      if s.active_ingestion_run_id=some id || (run.state=.publishing && abandonedCodes.contains code)
      then some (setRun id (fun run => { run with state := .failed,failure_code := some code }) s)
      else none
    else some s

/-- `UPDATE ingestion_evidence_plans SET collection_completed_at = ?` where it is null. -/
def completeCollection (id : String) : Statement := fun s =>
  some (setRun id (fun run => { run with collected := true }) s)

/-- `releaseActiveRunLockStatement` and its copies. -/
def releaseRunLock (id : String) : Statement := fun s =>
  some (if s.active_ingestion_run_id=some id then
    { s with active_ingestion_run_id := nextLiveIngestionReservation s } else s)

/-- `releaseFailedReconciliationWorkflowStatement`. -/
def releaseFailedReconciliationWorkflow (id code : String) : Statement := fun s =>
  some (if s.active_ingestion_run_id=some id ∧
      ((s.runs id).any fun run => run.state=.failed && run.failure_code=some code)=true then
    { s with active_ingestion_run_id := nextLiveIngestionReservation s } else s)

/-- The owner's decision, kept for a paused run only, and the transition it permits. -/
def terminateRun (id : String) : Statement := fun s =>
  let decided := setRun id (fun run =>
    if run.state=.paused then { run with terminated := true } else run) s
  transition [.paused] .failed (fun run => { run with failure_code := some "ingestion_run_terminated" })
    id decided

/-- `releaseTerminatedEvidenceRun`. -/
def releaseTerminated (id : String) : Statement := fun s =>
  some (if s.active_ingestion_run_id=some id ∧ ((s.runs id).any fun run => run.state=.failed &&
      run.failure_code=some "ingestion_run_terminated" && run.terminated)=true then
    { s with active_ingestion_run_id := nextLiveIngestionReservation s } else s)

/-- `expireRunEventsStatement`. -/
def expireRunEvents (observedAt : Nat) : Statement := fun s =>
  some { s with runs := fun k => (s.runs k).map fun run =>
    if run.state=.awaiting_approval ∧ run.approval_deadline.any (· ≤ observedAt)=true then
      { run with state := .expired } else run }

/-- `releaseTerminalRunEventLockStatement` over the states that are not terminal. -/
def releaseTerminalRunLock : Statement := fun s =>
  match s.active_ingestion_run_id with
  | none => some s
  | some id =>
    match s.runs id with
    | none => some { s with active_ingestion_run_id := none }
    | some run =>
      if isTerminalIngestionRunState run.state then
        some { s with active_ingestion_run_id := nextLiveIngestionReservation s }
      else some s

/-- `createGamePreparationStatement`: the row of a native preparation. -/
def createGamePreparation (preparation id : String) : Statement := fun s =>
  if s.preparations.any (·.1=preparation) then none
  else some { s with preparations := s.preparations++[(preparation,id)] }

/-- The completion of a collected run is kept once. -/
def completionsWith (id : String) (s : Store) : List String :=
  if ((s.runs id).any fun run => run.collected && run.state=.parsing) &&
      !s.ingestion_collection_completions.contains id
  then s.ingestion_collection_completions++[id] else s.ingestion_collection_completions

/-- A completed run gives its reservation up. -/
def recordCompletion (id : String) (s : Store) : Store :=
  { s with
    ingestion_collection_completions := completionsWith id s
    ingestion_collection_reservations := if (completionsWith id s).contains id then
      s.ingestion_collection_reservations.filter (·≠id)
      else s.ingestion_collection_reservations }

/-- `completeCollectedEvidenceReservationStatement`. -/
def completeCollectedEvidenceReservation (preparation : String) : Statement := fun s =>
  match s.preparations.lookup preparation with
  | none => some s
  | some id => releaseRunLock id (recordCompletion id s)

/-- Recovery and releases move their own columns of `operation_state`. -/
def setGuards (recovery restore release : Bool) : Statement := fun s =>
  some { s with recovery_blocked := recovery,restore_blocked := restore,release_active := release }

/-- The batches of the source, by what they are for. -/
inductive Batch where
  /-- `startEvidenceRun`, and `retryEvidenceRun` from an earlier run's plan. -/
  | startEvidenceRun (id : String)
  | prepareRun (id : String) (deadline : Nat)
  /-- A prepared run whose Curated Revisions do not hold. -/
  | prepareFailedRun (id code : String) (deadline : Nat)
  | pauseCollection (id : String)
  | resumeCollection (id : String)
  | finishCollection (id : String)
  | failCollection (id code : String)
  | prepareGame (preparation id : String)
  | persistReviewableCandidate (id : String) (deadline : Nat)
  | persistBlockedCandidate (id code : String)
  | failReconciliation (id : String)
  | failReconciliationWorkflow (id code : String)
  | failCuratedRun (id code : String)
  | failActiveRun (id code : String)
  | rejectRun (id : String)
  | expireOverdueRuns (observedAt : Nat)
  | reservePublication (id : String)
  | publishRun (id : String)
  | failReservedPublication (id code : String)
  | terminateEvidenceRun (id : String)
  | releaseTerminatedEvidenceRun (id : String)
  | moveGuards (recovery restore release : Bool)

open IngestionRunState in
def Batch.statements : Batch → List Statement
  | startEvidenceRun id => [createRun id collecting,acquireRunLock id]
  | prepareRun id deadline => [createRun id planning,acquireRunLock id,
      transition [planning] collecting id' id,transition [collecting] parsing id' id,
      transition [parsing] reconciling id' id,
      transition [reconciling] awaiting_approval (withDeadline deadline) id]
  | prepareFailedRun id code deadline => [createRun id planning,acquireRunLock id,
      transition [planning] failed
        (fun run => { run with failure_code := some code,approval_deadline := some deadline }) id,
      releaseRunLock id]
  | pauseCollection id => [transition [collecting] paused id' id]
  | resumeCollection id => [transition [paused] collecting id' id]
  | finishCollection id => [transition [collecting] parsing id' id,completeCollection id]
  | failCollection id code => [fail [collecting] code id,completeCollection id,releaseRunLock id]
  | prepareGame preparation id => [createGamePreparation preparation id,
      completeCollectedEvidenceReservation preparation]
  | persistReviewableCandidate id deadline => [transition [parsing] reconciling id' id,
      transition [reconciling] awaiting_approval (withDeadline deadline) id]
  | persistBlockedCandidate id code => [transition [parsing] reconciling id' id,
      fail [reconciling] code id,releaseRunLock id]
  | failReconciliation id => [transition [parsing] reconciling id' id,
      fail [reconciling] "printing_reconciliation_blocked" id,releaseRunLock id]
  | failReconciliationWorkflow id code => [fail [parsing,reconciling] code id,
      releaseFailedReconciliationWorkflow id code]
  | failCuratedRun id code => [fail [planning,collecting,parsing,reconciling,awaiting_approval] code id,
      releaseRunLock id]
  | failActiveRun id code => [failRun code id,releaseRunLock id]
  | rejectRun id => [transition [awaiting_approval] rejected id' id,releaseRunLock id]
  | expireOverdueRuns observedAt => [expireRunEvents observedAt,releaseTerminalRunLock]
  | reservePublication id => [transition [awaiting_approval] publishing id' id]
  | publishRun id => [transition [publishing] published id' id,releaseRunLock id]
  | failReservedPublication id code => [fail [publishing] code id,releaseRunLock id]
  | terminateEvidenceRun id => [terminateRun id]
  | releaseTerminatedEvidenceRun id => [releaseTerminated id]
  | moveGuards recovery restore release => [setGuards recovery restore release]
where
  id' : Run → Run := fun run => run
  withDeadline (deadline : Nat) : Run → Run := fun run => { run with approval_deadline := some deadline }

def runStatements : List Statement → Store → Option Store
  | [],s => some s
  | statement::rest,s => (statement s).bind (runStatements rest)

def commit (s : Store) (batch : Batch) : Store := (runStatements batch.statements s).getD s

def afterBatches (batches : List Batch) : Store := batches.foldl commit {}

def Run.Held (run : Run) : Prop :=
  isTerminalIngestionRunState run.state=false ∨ run.state=.failed ∧ run.terminated=true

/-- The summary tells the truth about the reservations, of all runs but the one a batch is at. -/
structure Summary (except : Option String) (s : Store) : Prop where
  reserved : ∀id∈s.ingestion_collection_reservations,(s.runs id).isSome=true
  idle : s.active_ingestion_run_id=none → ∀id∈s.ingestion_collection_reservations,∀run,
    s.runs id=some run → isTerminalIngestionRunState run.state=true
  named : ∀id,s.active_ingestion_run_id=some id → id∈s.ingestion_collection_reservations ∧
    (except=some id ∨ ∃run,s.runs id=some run ∧ run.Held)
  planned : ∀id run,s.runs id=some run → run.state=.planning → except=some id

/-- The summary holds of all runs but `id`, which is past its planning. -/
structure Working (id : String) (s : Store) : Prop where
  summary : Summary (some id) s
  begun : ∀run,s.runs id=some run → run.state≠.planning

section Statements

variable {s s' : Store} {id : String} {sources : List IngestionRunState}
  {target : IngestionRunState} {set : Run → Run}
variable {state : IngestionRunState}

variable {f : Run → Run}

theorem setRun_self {run : Run} (h : s.runs id=some run) :
    (setRun id f s).runs id=some (f run) := by
  simp [setRun,h]

theorem setRun_other {k : String} (h : k≠id) : (setRun id f s).runs k=s.runs k := by
  simp [setRun,h]

theorem reservedStates_iff (state : IngestionRunState) : reservedStates.contains state=true ↔
      isTerminalIngestionRunState state=false ∧ state≠.planning := by
  cases state <;> decide

theorem nextLive_none (h : nextLiveIngestionReservation s=none) :
    ∀id∈s.ingestion_collection_reservations,∀run,s.runs id=some run →
      reservedStates.contains run.state=false := by
  intro id hid run hrun
  rw [nextLiveIngestionReservation,List.head?_eq_none_iff] at h
  have hempty : id∉s.ingestion_collection_reservations.filter fun id =>
      (s.runs id).any fun run => reservedStates.contains run.state := by
    rw [← mem_insertionSort (· ≤ ·),h]
    exact not_mem_nil
  cases hstate : reservedStates.contains run.state with
  | false => rfl
  | true =>
    refine absurd (mem_filter.mpr ⟨hid,?_⟩) hempty
    rw [hrun]
    exact hstate

theorem nextLive_some (h : nextLiveIngestionReservation s=some id) :
    id∈s.ingestion_collection_reservations ∧
      ∃run,s.runs id=some run ∧ reservedStates.contains run.state=true := by
  have hmem := List.mem_of_mem_head? (Option.mem_def.mpr h)
  rw [mem_insertionSort] at hmem
  obtain ⟨hid,hlive⟩ := mem_filter.mp hmem
  cases hrun : s.runs id with
  | none => simp [hrun] at hlive
  | some run => exact ⟨hid,run,rfl,by simpa [hrun] using hlive⟩

theorem Summary.next (hreserved : ∀id∈s.ingestion_collection_reservations,(s.runs id).isSome=true)
    (hplanned : ∀id run,s.runs id=some run → run.state≠.planning) :
    Summary none { s with active_ingestion_run_id := nextLiveIngestionReservation s } where
  reserved := hreserved
  idle hnone id hid run hrun := by
    have hdead := nextLive_none hnone id hid run hrun
    cases hterminal : isTerminalIngestionRunState run.state with
    | true => rfl
    | false =>
      have hlive := (reservedStates_iff run.state).mpr ⟨hterminal,hplanned id run hrun⟩
      rw [hlive] at hdead
      cases hdead
  named id hsome := by
    obtain ⟨hid,run,hrun,hlive⟩ := nextLive_some hsome
    exact ⟨hid,.inr ⟨run,hrun,.inl ((reservedStates_iff run.state).mp hlive).1⟩⟩
  planned id run hrun hstate := absurd hstate (hplanned id run hrun)

theorem Summary.of_eq {except : Option String} (h : Summary except s) (hruns : s'.runs=s.runs)
    (hreserved : s'.ingestion_collection_reservations=s.ingestion_collection_reservations)
    (hactive : s'.active_ingestion_run_id=s.active_ingestion_run_id) : Summary except s' where
  reserved := by
    rw [hreserved,hruns]
    exact h.reserved
  idle := by
    rw [hreserved,hruns,hactive]
    exact h.idle
  named := by
    rw [hreserved,hruns,hactive]
    exact h.named
  planned := by
    rw [hruns]
    exact h.planned

theorem Working.start (h : Summary none s) (id : String) : Working id s where
  summary := ⟨h.reserved,h.idle,fun k hk => ⟨(h.named k hk).1,
    .inr ((h.named k hk).2.resolve_left nofun)⟩,fun k run hrun hstate => nomatch h.planned k run hrun hstate⟩
  begun run hrun hstate := nomatch h.planned id run hrun hstate

theorem Working.none_planned (h : Working id s) :
    ∀k run,s.runs k=some run → run.state≠.planning := by
  intro k run hrun hstate
  obtain rfl := Option.some.inj (h.summary.planned k run hrun hstate)
  exact h.begun run hrun hstate

theorem Working.settle (h : Working id s)
    (hheld : s.active_ingestion_run_id=some id → ∃run,s.runs id=some run ∧ run.Held) :
    Summary none s where
  reserved := h.summary.reserved
  idle := h.summary.idle
  named k hk := by
    obtain ⟨hin,hsame | hrun⟩ := h.summary.named k hk
    · obtain rfl := Option.some.inj hsame
      exact ⟨hin,.inr (hheld hk)⟩
    · exact ⟨hin,.inr hrun⟩
  planned k run hrun hstate := absurd hstate (h.none_planned k run hrun)

theorem Working.release (h : Working id s) (hs : releaseRunLock id s=some s') : Summary none s' := by
  rw [← Option.some.inj hs]
  split
  · exact .next h.summary.reserved h.none_planned
  · rename_i hne
    exact h.settle fun hactive => absurd hactive hne

theorem Summary.change {run after : Run} (h : Summary (some id) s) (hrun : s.runs id=some run)
    (hlive : isTerminalIngestionRunState run.state=false) :
    Summary (some id) (setRun id (fun _ => after) s) where
  reserved k hk := by
    by_cases hkid : k=id
    · rw [hkid,setRun_self hrun]
      rfl
    · rw [setRun_other hkid]
      exact h.reserved k hk
  idle hnone k hk next hnext := by
    by_cases hkid : k=id
    · have hterminal := h.idle hnone id (hkid ▸ hk) run hrun
      rw [hlive] at hterminal
      cases hterminal
    · rw [setRun_other hkid] at hnext
      exact h.idle hnone k hk next hnext
  named k hk := by
    obtain ⟨hin,hsame | ⟨next,hnext,hheld⟩⟩ := h.named k hk
    · exact ⟨hin,.inl hsame⟩
    · by_cases hkid : k=id
      · exact ⟨hin,.inl (congrArg some hkid.symm)⟩
      · exact ⟨hin,.inr ⟨next,(setRun_other hkid).trans hnext,hheld⟩⟩
  planned k next hnext hstate := by
    by_cases hkid : k=id
    · exact congrArg some hkid.symm
    · rw [setRun_other hkid] at hnext
      exact h.planned k next hnext hstate

theorem transition_cases (h : transition sources target set id s=some s') :
    s'=s ∨ ∃run,s.runs id=some run ∧ sources.contains run.state=true ∧
      s'=setRun id (fun _ => { set run with state := target }) s := by
  unfold transition at h
  split at h
  · exact .inl (Option.some.inj h).symm
  · rename_i run hrun
    split at h
    · rename_i hin
      dsimp only at h
      split at h
      · exact .inr ⟨run,hrun,hin,(Option.some.inj h).symm⟩
      · cases h
    · exact .inl (Option.some.inj h).symm

theorem transition_of_mem {run : Run} (hrun : s.runs id=some run)
    (hin : sources.contains run.state=true) (h : transition sources target set id s=some s') :
    s'=setRun id (fun _ => { set run with state := target }) s := by
  unfold transition at h
  rw [hrun] at h
  dsimp only at h
  rw [if_pos hin] at h
  split at h
  · exact (Option.some.inj h).symm
  · cases h

theorem live_of_contains (h : ∀state∈sources,isTerminalIngestionRunState state=false) (hin : sources.contains state=true) :
    isTerminalIngestionRunState state=false :=
  h state (contains_iff_mem.mp hin)

theorem Working.transition (h : Working id s)
    (hsources : ∀state∈sources,isTerminalIngestionRunState state=false) (htarget : target≠.planning)
    (hs : transition sources target set id s=some s') : Working id s' := by
  rcases transition_cases hs with rfl | ⟨run,hrun,hin,rfl⟩
  · exact h
  · refine ⟨h.summary.change hrun (live_of_contains hsources hin),?_⟩
    intro after hafter
    rw [setRun_self hrun] at hafter
    rw [← Option.some.inj hafter]
    exact htarget

theorem Summary.transition (h : Summary none s)
    (hsources : ∀state∈sources,isTerminalIngestionRunState state=false)
    (htarget : isTerminalIngestionRunState target=false ∧ target≠.planning)
    (hs : transition sources target set id s=some s') : Summary none s' := by
  have hworking := (Working.start h id).transition hsources htarget.2 hs
  rcases transition_cases hs with rfl | ⟨run,hrun,hin,rfl⟩
  · exact h
  · exact hworking.settle fun _ => ⟨_,setRun_self hrun,.inl htarget.1⟩

theorem Working.failRun {code : String} (h : Working id s) (hs : failRun code id s=some s') :
    Working id s' := by
  unfold Reservations.failRun at hs
  split at hs
  · rw [← Option.some.inj hs]
    exact h
  · rename_i run hrun
    split at hs
    · rename_i hin
      have hlive : isTerminalIngestionRunState run.state=false := by
        have hall : ∀state,(ingestionRunTransitionSources .failed).contains state=true →
            isTerminalIngestionRunState state=false := by
          intro state
          cases state <;> decide
        exact hall run.state hin
      split at hs
      · rw [← Option.some.inj hs]
        have hsame : setRun id (fun run => { run with state := .failed,failure_code := some code }) s=
            setRun id (fun _ => { run with state := .failed,failure_code := some code }) s := by
          unfold setRun
          congr 1
          funext k
          by_cases hk : k=id
          · simp [hk,hrun]
          · simp [hk]
        rw [hsame]
        refine ⟨h.summary.change hrun hlive,?_⟩
        intro after hafter
        rw [setRun_self hrun] at hafter
        rw [← Option.some.inj hafter]
        nofun
      · cases hs
    · rw [← Option.some.inj hs]
      exact h

theorem Summary.annotate {except : Option String} (h : Summary except s)
    (hstate : ∀run,(f run).state=run.state)
    (hended : ∀run : Run,run.terminated=true → (f run).terminated=true) :
    Summary except (setRun id f s) := by
  have hruns : ∀k run,(setRun id f s).runs k=some run → ∃before,s.runs k=some before ∧
      run.state=before.state := by
    intro k run hrun
    by_cases hk : k=id
    · subst hk
      cases hbefore : s.runs k with
      | none => simp [setRun,hbefore] at hrun
      | some before =>
        rw [setRun_self hbefore] at hrun
        rw [← Option.some.inj hrun]
        exact ⟨before,rfl,hstate before⟩
    · rw [setRun_other hk] at hrun
      exact ⟨run,hrun,rfl⟩
  have hkept : ∀k before,s.runs k=some before → ∃run,(setRun id f s).runs k=some run ∧
      run.state=before.state ∧ (before.terminated=true → run.terminated=true) := by
    intro k before hbefore
    by_cases hk : k=id
    · subst hk
      exact ⟨f before,setRun_self hbefore,hstate before,hended before⟩
    · exact ⟨before,(setRun_other hk).trans hbefore,rfl,fun hend => hend⟩
  refine ⟨?_,?_,?_,?_⟩
  · intro k hk
    obtain ⟨before,hbefore⟩ := Option.isSome_iff_exists.mp (h.reserved k hk)
    obtain ⟨run,hrun,-⟩ := hkept k before hbefore
    rw [hrun]
    rfl
  · intro hnone k hk run hrun
    obtain ⟨before,hbefore,hsame⟩ := hruns k run hrun
    rw [hsame]
    exact h.idle hnone k hk before hbefore
  · intro k hk
    obtain ⟨hin,hexcept | ⟨before,hbefore,hheld⟩⟩ := h.named k hk
    · exact ⟨hin,.inl hexcept⟩
    · obtain ⟨run,hrun,hsame,hend⟩ := hkept k before hbefore
      refine ⟨hin,.inr ⟨run,hrun,?_⟩⟩
      rw [Run.Held,hsame]
      exact hheld.imp_right fun hfailed => ⟨hfailed.1,hend hfailed.2⟩
  · intro k run hrun hplanning
    obtain ⟨before,hbefore,hsame⟩ := hruns k run hrun
    exact h.planned k before hbefore (hsame ▸ hplanning)

theorem Working.completeCollection (h : Working id s) (hs : completeCollection id s=some s') :
    Working id s' := by
  rw [← Option.some.inj hs]
  refine ⟨h.summary.annotate (fun _ => rfl) (fun _ hend => hend),?_⟩
  intro run hrun
  cases hbefore : s.runs id with
  | none => simp [setRun,hbefore] at hrun
  | some before =>
    rw [setRun_self hbefore] at hrun
    rw [← Option.some.inj hrun]
    exact h.begun before hbefore

/-- The store with a new run, as a start batch leaves it. -/
def started (id : String) (state : IngestionRunState) (s : Store) : Store :=
  { s with
    runs := fun k => if k=id then some { state := state } else s.runs k
    ingestion_collection_reservations := s.ingestion_collection_reservations++[id]
    active_ingestion_run_id := s.active_ingestion_run_id.or (some id) }

theorem start_cases {s'' : Store} (hcreate : createRun id state s=some s')
    (hlock : acquireRunLock id s'=some s'') : s.runs id=none ∧ s''=started id state s := by
  unfold createRun at hcreate
  split at hcreate
  · cases hcreate
  · rename_i hnew
    split at hcreate
    · cases hcreate
    · rename_i hopen
      simp only [Bool.or_eq_true,not_or,Bool.not_eq_true] at hnew hopen
      have hfresh : s.runs id=none := by simpa using hnew.1
      refine ⟨hfresh,?_⟩
      rw [← Option.some.inj hcreate] at hlock
      rw [← Option.some.inj hlock,started]
      cases hactive : s.active_ingestion_run_id with
      | none => simp [hopen.1.2]
      | some k => simp

theorem Summary.started (h : Summary none s) (hfresh : s.runs id=none)
    (state : IngestionRunState) : Summary (some id) (started id state s) where
  reserved k hk := by
    by_cases hkid : k=id
    · simp [Reservations.started,hkid]
    · have hk : k∈s.ingestion_collection_reservations := by
        simpa [Reservations.started,hkid] using hk
      simpa [Reservations.started,hkid] using h.reserved k hk
  idle hnone := by simp [Reservations.started] at hnone
  named k hk := by
    cases hactive : s.active_ingestion_run_id with
    | none =>
      have hkid : id=k := by simpa [Reservations.started,hactive] using hk
      exact ⟨by simp [Reservations.started,hkid],.inl (congrArg some hkid)⟩
    | some active =>
      have hkid : active=k := by simpa [Reservations.started,hactive] using hk
      subst hkid
      obtain ⟨hin,hheld⟩ := h.named active hactive
      refine ⟨mem_append_left _ hin,.inr ?_⟩
      obtain ⟨run,hrun,hheld⟩ := hheld.resolve_left nofun
      have hne : active≠id := by
        rintro rfl
        rw [hfresh] at hrun
        cases hrun
      exact ⟨run,by simpa [Reservations.started,hne] using hrun,hheld⟩
  planned k run hrun hstate := by
    by_cases hkid : k=id
    · exact congrArg some hkid.symm
    · have hrun : s.runs k=some run := by simpa [Reservations.started,hkid] using hrun
      exact nomatch h.planned k run hrun hstate

theorem Summary.terminate (h : Summary none s) (hs : terminateRun id s=some s') :
    Summary none s' := by
  let decide' : Run → Run := fun run =>
    if run.state=.paused then { run with terminated := true } else run
  have hstate : ∀run,(decide' run).state=run.state := by
    intro run
    by_cases hpaused : run.state=.paused
    · simp [decide',hpaused]
    · simp [decide',hpaused]
  have hended : ∀run : Run,run.terminated=true → (decide' run).terminated=true := by
    intro run hend
    by_cases hpaused : run.state=.paused
    · simp [decide',hpaused]
    · simp [decide',hpaused,hend]
  have hdecided : Summary none (setRun id decide' s) := h.annotate hstate hended
  have hmoved : Reservations.transition [.paused] .failed
      (fun run => { run with failure_code := some "ingestion_run_terminated" }) id
      (setRun id decide' s)=some s' := hs
  have hworking := (Working.start hdecided id).transition (by decide) (by decide) hmoved
  rcases transition_cases hs with rfl | ⟨run,hrun,hin,rfl⟩
  · exact hdecided
  · have hpaused : run.state=.paused := by simpa using hin
    have hterminated : run.terminated=true := by
      cases hbefore : s.runs id with
      | none => simp [setRun,hbefore] at hrun
      | some before =>
        rw [setRun_self hbefore] at hrun
        obtain rfl := Option.some.inj hrun
        rw [show (if before.state=.paused then { before with terminated := true } else before)=
          decide' before from rfl,hstate] at hpaused
        simp [hpaused]
    exact hworking.settle fun _ => ⟨_,setRun_self hrun,.inr ⟨rfl,hterminated⟩⟩

theorem Summary.expire {observedAt : Nat} {s'' : Store} (h : Summary none s)
    (hexpire : expireRunEvents observedAt s=some s') (hs : releaseTerminalRunLock s'=some s'') :
    Summary none s'' := by
  have hruns : ∀k run,s'.runs k=some run → ∃before,s.runs k=some before ∧
      (isTerminalIngestionRunState before.state=true → run=before) ∧
      (run.state=.planning → before.state=.planning) := by
    intro k run hrun
    rw [← Option.some.inj hexpire] at hrun
    obtain ⟨before,hbefore,rfl⟩ := Option.map_eq_some_iff.mp hrun
    refine ⟨before,hbefore,?_,?_⟩
    · intro hterminal
      have hne : before.state≠.awaiting_approval := by
        intro heq
        rw [heq] at hterminal
        cases hterminal
      simp [hne]
    · intro hplanning
      split at hplanning
      · cases hplanning
      · exact hplanning
  have hsome : ∀k,(s.runs k).isSome=true → (s'.runs k).isSome=true := by
    intro k hk
    rw [← Option.some.inj hexpire]
    simpa using hk
  have hreserved : s'.ingestion_collection_reservations=s.ingestion_collection_reservations := by
    rw [← Option.some.inj hexpire]
  have hactive : s'.active_ingestion_run_id=s.active_ingestion_run_id := by
    rw [← Option.some.inj hexpire]
  have hkept : ∀k∈s'.ingestion_collection_reservations,(s'.runs k).isSome=true := by
    intro k hk
    exact hsome k (h.reserved k (hreserved ▸ hk))
  have hplanned : ∀k run,s'.runs k=some run → run.state≠.planning := by
    intro k run hrun hplanning
    obtain ⟨before,hbefore,-,hstate⟩ := hruns k run hrun
    exact nomatch h.planned k before hbefore (hstate hplanning)
  unfold releaseTerminalRunLock at hs
  split at hs
  · rename_i hnone
    rw [← Option.some.inj hs]
    refine ⟨hkept,?_,fun k hk => by simp [hnone] at hk,
      fun k run hrun hstate => absurd hstate (hplanned k run hrun)⟩
    intro _ k hk run hrun
    obtain ⟨before,hbefore,hsame,-⟩ := hruns k run hrun
    have hterminal := h.idle (hactive ▸ hnone) k (hreserved ▸ hk) before hbefore
    rw [hsame hterminal]
    exact hterminal
  · rename_i k hk
    have hin := (h.named k (hactive ▸ hk)).1
    obtain ⟨run,hrun⟩ := Option.isSome_iff_exists.mp (hsome k (h.reserved k hin))
    rw [hrun] at hs
    dsimp only at hs
    split at hs
    · rw [← Option.some.inj hs]
      exact .next hkept hplanned
    · rename_i hlive
      rw [← Option.some.inj hs]
      refine ⟨hkept,fun hnone => by simp [hk] at hnone,?_,
        fun k run hrun hstate => absurd hstate (hplanned k run hrun)⟩
      intro k' hk'
      rw [hk] at hk'
      obtain rfl := Option.some.inj hk'
      exact ⟨hreserved ▸ hin,.inr ⟨run,hrun,.inl (by simpa using hlive)⟩⟩

theorem recordCompletion_reserved : (recordCompletion id s).ingestion_collection_reservations ⊆
      s.ingestion_collection_reservations := by
  intro k hk
  unfold recordCompletion at hk
  dsimp only at hk
  split at hk
  · exact mem_of_mem_filter hk
  · exact hk

theorem recordCompletion_other {k : String} (hne : k≠id)
    (hk : k∈s.ingestion_collection_reservations) :
    k∈(recordCompletion id s).ingestion_collection_reservations := by
  unfold recordCompletion
  dsimp only
  split
  · exact mem_filter.mpr ⟨hk,by simpa using hne⟩
  · exact hk

theorem Summary.takeOver {preparation : String} (h : Summary none s)
    (hs : completeCollectedEvidenceReservation preparation s=some s') : Summary none s' := by
  unfold completeCollectedEvidenceReservation at hs
  split at hs
  · rw [← Option.some.inj hs]
    exact h
  · rename_i id hprep
    have hplanned : ∀k run,s.runs k=some run → run.state≠.planning :=
      fun k run hrun hstate => nomatch h.planned k run hrun hstate
    have hreserved : ∀k∈(recordCompletion id s).ingestion_collection_reservations,
        (s.runs k).isSome=true := fun k hk => h.reserved k (recordCompletion_reserved hk)
    rw [← Option.some.inj hs]
    split
    · exact .next hreserved hplanned
    · rename_i hother
      refine ⟨hreserved,fun hnone k hk => h.idle hnone k (recordCompletion_reserved hk),?_,
        h.planned⟩
      intro k hk
      obtain ⟨hin,hheld⟩ := h.named k hk
      have hne : k≠id := by
        rintro rfl
        exact hother hk
      exact ⟨recordCompletion_other hne hin,hheld⟩

end Statements

theorem runStatements_cons {a : Statement} {rest : List Statement} {s s' : Store}
    (h : runStatements (a::rest) s=some s') : ∃mid,a s=some mid ∧ runStatements rest mid=some s' :=
  Option.bind_eq_some_iff.mp h

theorem runStatements_nil {s s' : Store} (h : runStatements [] s=some s') : s=s' := Option.some.inj h

section Batches

variable {s s' : Store} {id : String} {sources : List IngestionRunState}
variable {state target : IngestionRunState}

theorem Summary.ending {set : Run → Run} {s'' : Store}
    (h : Summary none s) (hsources : ∀state∈sources,isTerminalIngestionRunState state=false)
    (htarget : target≠.planning) (hmove : Reservations.transition sources target set id s=some s')
    (hrelease : releaseRunLock id s'=some s'') : Summary none s'' :=
  ((Working.start h id).transition hsources htarget hmove).release hrelease

theorem Summary.failWorkflow {code : String} {s'' : Store} (h : Summary none s)
    (hsources : ∀state∈sources,isTerminalIngestionRunState state=false)
    (hmove : fail sources code id s=some s')
    (hrelease : releaseFailedReconciliationWorkflow id code s'=some s'') : Summary none s'' := by
  have hworking := (Working.start h id).transition hsources (by decide) hmove
  rw [← Option.some.inj hrelease]
  split
  · exact .next hworking.summary.reserved hworking.none_planned
  · rename_i hkept
    rcases transition_cases hmove with rfl | ⟨run,hrun,-,rfl⟩
    · exact h
    · apply hworking.settle
      intro hactive
      refine absurd ⟨hactive,?_⟩ hkept
      rw [setRun_self hrun]
      simp

/-- The run is there, in `state`. -/
def Store.InState (s : Store) (id : String) (state : IngestionRunState) : Prop :=
  ∃run,s.runs id=some run ∧ run.state=state

theorem Summary.advance {source : IngestionRunState} {set : Run → Run} (h : Summary (some id) s)
    (hrun : s.InState id source) (hlive : isTerminalIngestionRunState source=false)
    (hmove : Reservations.transition [source] target set id s=some s') : Summary (some id) s' ∧
    s'.InState id target := by
  obtain ⟨run,hrun,hsource⟩ := hrun
  have hin : [source].contains run.state=true := by simp [hsource]
  rw [transition_of_mem hrun hin hmove]
  exact ⟨h.change hrun (by rw [hsource]; exact hlive),_,setRun_self hrun,rfl⟩

theorem Summary.of_run (h : Summary (some id) s)
    (hrun : s.InState id state) (hbegun : state≠.planning) : Working id s := by
  refine ⟨h,?_⟩
  intro other hother
  obtain ⟨run,hrun,hstate⟩ := hrun
  rw [hrun] at hother
  rw [← Option.some.inj hother,hstate]
  exact hbegun

theorem Summary.settle_live (h : Summary (some id) s) (hrun : s.InState id state)
    (hlive : isTerminalIngestionRunState state=false ∧ state≠.planning) : Summary none s := by
  refine (h.of_run hrun hlive.2).settle fun _ => ?_
  obtain ⟨run,hrun,hstate⟩ := hrun
  exact ⟨run,hrun,.inl (by rw [hstate]; exact hlive.1)⟩

theorem started_inState (state : IngestionRunState) : (started id state s).InState id state :=
  ⟨{ state := state },by simp [started],rfl⟩

theorem Summary.prepareRun {deadline : Nat} (h : Summary none s)
    (hrun : runStatements (Batch.prepareRun id deadline).statements s=some s') :
    Summary none s' := by
  obtain ⟨s1,h1,hrun⟩ := runStatements_cons hrun
  obtain ⟨s2,h2,hrun⟩ := runStatements_cons hrun
  obtain ⟨s3,h3,hrun⟩ := runStatements_cons hrun
  obtain ⟨s4,h4,hrun⟩ := runStatements_cons hrun
  obtain ⟨s5,h5,hrun⟩ := runStatements_cons hrun
  obtain ⟨s6,h6,hrun⟩ := runStatements_cons hrun
  obtain ⟨hfresh,hstarted⟩ := start_cases h1 h2
  rw [hstarted] at h3
  obtain ⟨k3,r3⟩ := (h.started hfresh .planning).advance (started_inState _) (by decide) h3
  obtain ⟨k4,r4⟩ := k3.advance r3 (by decide) h4
  obtain ⟨k5,r5⟩ := k4.advance r4 (by decide) h5
  obtain ⟨k6,r6⟩ := k5.advance r5 (by decide) h6
  rw [← runStatements_nil hrun]
  exact k6.settle_live r6 (by decide)

theorem Summary.prepareFailedRun {code : String} {deadline : Nat} (h : Summary none s)
    (hrun : runStatements (Batch.prepareFailedRun id code deadline).statements s=some s') :
    Summary none s' := by
  obtain ⟨s1,h1,hrun⟩ := runStatements_cons hrun
  obtain ⟨s2,h2,hrun⟩ := runStatements_cons hrun
  obtain ⟨s3,h3,hrun⟩ := runStatements_cons hrun
  obtain ⟨s4,h4,hrun⟩ := runStatements_cons hrun
  obtain ⟨hfresh,hstarted⟩ := start_cases h1 h2
  rw [hstarted] at h3
  obtain ⟨k3,r3⟩ := (h.started hfresh .planning).advance (started_inState _) (by decide) h3
  rw [← runStatements_nil hrun]
  exact (k3.of_run r3 (by decide)).release h4

end Batches

/-- Every batch leaves the summary true. -/
theorem Summary.commit {s : Store} (h : Summary none s) (batch : Batch) :
    Summary none (commit s batch) := by
  unfold Reservations.commit
  cases hrun : runStatements batch.statements s with
  | none => exact h
  | some s' =>
    show Summary none s'
    cases batch with
    | prepareRun id deadline => exact h.prepareRun hrun
    | prepareFailedRun id code deadline => exact h.prepareFailedRun hrun
    | startEvidenceRun id =>
      obtain ⟨s1,h1,hrun⟩ := runStatements_cons hrun
      obtain ⟨s2,h2,hrun⟩ := runStatements_cons hrun
      obtain ⟨hfresh,hstarted⟩ := start_cases h1 h2
      rw [← runStatements_nil hrun,hstarted]
      exact (h.started hfresh .collecting).settle_live (started_inState _) (by decide)
    | pauseCollection id | resumeCollection id | reservePublication id =>
      obtain ⟨s1,h1,hrun⟩ := runStatements_cons hrun
      rw [← runStatements_nil hrun]
      exact h.transition (by decide) (by decide) h1
    | finishCollection id =>
      obtain ⟨s1,h1,hrun⟩ := runStatements_cons hrun
      obtain ⟨s2,h2,hrun⟩ := runStatements_cons hrun
      rw [← runStatements_nil hrun,← Option.some.inj h2]
      exact (h.transition (by decide) (by decide) h1).annotate (fun _ => rfl) fun _ hend => hend
    | failCollection id code =>
      obtain ⟨s1,h1,hrun⟩ := runStatements_cons hrun
      obtain ⟨s2,h2,hrun⟩ := runStatements_cons hrun
      obtain ⟨s3,h3,hrun⟩ := runStatements_cons hrun
      rw [← runStatements_nil hrun]
      exact (((Working.start h id).transition (by decide) (by decide) h1).completeCollection h2).release h3
    | prepareGame preparation id =>
      obtain ⟨s1,h1,hrun⟩ := runStatements_cons hrun
      obtain ⟨s2,h2,hrun⟩ := runStatements_cons hrun
      rw [← runStatements_nil hrun]
      unfold createGamePreparation at h1
      split at h1
      · cases h1
      · rw [← Option.some.inj h1] at h2
        refine Summary.takeOver ?_ h2
        exact h.of_eq rfl rfl rfl
    | persistReviewableCandidate id deadline =>
      obtain ⟨s1,h1,hrun⟩ := runStatements_cons hrun
      obtain ⟨s2,h2,hrun⟩ := runStatements_cons hrun
      rw [← runStatements_nil hrun]
      exact (h.transition (by decide) (by decide) h1).transition (by decide) (by decide) h2
    | persistBlockedCandidate id code | failReconciliation id =>
      obtain ⟨s1,h1,hrun⟩ := runStatements_cons hrun
      obtain ⟨s2,h2,hrun⟩ := runStatements_cons hrun
      obtain ⟨s3,h3,hrun⟩ := runStatements_cons hrun
      rw [← runStatements_nil hrun]
      exact (h.transition (by decide) (by decide) h1).ending (by decide) (by decide) h2 h3
    | failReconciliationWorkflow id code =>
      obtain ⟨s1,h1,hrun⟩ := runStatements_cons hrun
      obtain ⟨s2,h2,hrun⟩ := runStatements_cons hrun
      rw [← runStatements_nil hrun]
      exact h.failWorkflow (by decide) h1 h2
    | failActiveRun id code =>
      obtain ⟨s1,h1,hrun⟩ := runStatements_cons hrun
      obtain ⟨s2,h2,hrun⟩ := runStatements_cons hrun
      rw [← runStatements_nil hrun]
      exact ((Working.start h id).failRun h1).release h2
    | failCuratedRun id code | rejectRun id | publishRun id | failReservedPublication id code =>
      obtain ⟨s1,h1,hrun⟩ := runStatements_cons hrun
      obtain ⟨s2,h2,hrun⟩ := runStatements_cons hrun
      rw [← runStatements_nil hrun]
      exact h.ending (by decide) (by decide) h1 h2
    | expireOverdueRuns observedAt =>
      obtain ⟨s1,h1,hrun⟩ := runStatements_cons hrun
      obtain ⟨s2,h2,hrun⟩ := runStatements_cons hrun
      rw [← runStatements_nil hrun]
      exact h.expire h1 h2
    | terminateEvidenceRun id =>
      obtain ⟨s1,h1,hrun⟩ := runStatements_cons hrun
      rw [← runStatements_nil hrun]
      exact h.terminate h1
    | releaseTerminatedEvidenceRun id =>
      obtain ⟨s1,h1,hrun⟩ := runStatements_cons hrun
      rw [← runStatements_nil hrun,← Option.some.inj h1]
      split
      · exact .next h.reserved fun k run hk hstate => nomatch h.planned k run hk hstate
      · exact h
    | moveGuards recovery restore release =>
      obtain ⟨s1,h1,hrun⟩ := runStatements_cons hrun
      rw [← runStatements_nil hrun,← Option.some.inj h1]
      exact h.of_eq rfl rfl rfl

theorem Summary.afterBatches (batches : List Batch) : Summary none (afterBatches batches) := by
  have hrun : ∀s,Summary none s → Summary none (batches.foldl Reservations.commit s) := by
    induction batches with
    | nil => exact fun s h => h
    | cons batch batches ih => exact fun s h => ih _ (h.commit batch)
  exact hrun {} ⟨nofun,nofun,nofun,nofun⟩

/-- The idle summary after any batches in any order: it is null only where no reserved run is left
to end, and otherwise names a reserved run that has not ended or that its owner terminated and the
summary has yet to leave. -/
theorem idle_summary_truthful (batches : List Batch) :
    let s := afterBatches batches
    (s.active_ingestion_run_id=none → ∀id∈s.ingestion_collection_reservations,∀run,
      s.runs id=some run → isTerminalIngestionRunState run.state=true) ∧
    ∀id,s.active_ingestion_run_id=some id → id∈s.ingestion_collection_reservations ∧
      ∃run,s.runs id=some run ∧ (isTerminalIngestionRunState run.state=false ∨
        run.state=.failed ∧ run.terminated=true) := by
  have h := Summary.afterBatches batches
  refine ⟨h.idle,?_⟩
  intro id hid
  obtain ⟨hin,hheld⟩ := h.named id hid
  exact ⟨hin,hheld.resolve_left nofun⟩

/-- A terminated run has failed, and the summary names it until its work is fenced off. -/
theorem terminated_run_named :
    let s := afterBatches [.startEvidenceRun "run",.pauseCollection "run",.terminateEvidenceRun "run"]
    s.active_ingestion_run_id=some "run" ∧
      ∀run,s.runs "run"=some run → isTerminalIngestionRunState run.state=true := by
  refine ⟨by decide +kernel,?_⟩
  intro run hrun
  have hfailed : (afterBatches [.startEvidenceRun "run",.pauseCollection "run",
      .terminateEvidenceRun "run"]).runs "run"=
        some ⟨.failed,some "ingestion_run_terminated",none,false,true⟩ := by
    decide +kernel
  rw [hfailed] at hrun
  rw [← Option.some.inj hrun]
  rfl

end CardKeepr.Ingestion.Reservations
