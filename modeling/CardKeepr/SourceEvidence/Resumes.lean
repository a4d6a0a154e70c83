import CardKeepr.SourceEvidence.PauseHistory
import Mathlib.Logic.Function.Basic

namespace CardKeepr.SourceEvidence.Pauses
open Ingestion

-- Concurrent resumes of one evidence run. A call reads the binding of the run's row in
-- `ingestion_evidence_plans`, which all its Evidence Plans share, and the newest attempt; its batch
-- meets what other calls, pauses and workflows have made of the run since.

inductive Transition where
  | paused
  | resumed (call attempt : Nat)
  /-- to a state that is neither `collecting` nor `paused` -/
  | left

structure World where
  run : CollectionRun
  /-- `last_event_sequence`, and the rows of `ingestion_run_events` with it -/
  events : Nat
  /-- The attempts whose identity the plan has named; workflows are created for these only. -/
  bound : List Nat
  /-- What the first read of a call returned, until its batch. -/
  calls : Nat → Option (Option String × Nat)
  /-- The transitions of the run, newest first. -/
  log : List Transition

/-- Batches that neither bind nor resume. -/
def Move.others : Move → Bool
  | .resume _ _ => false
  | .bind _ => false
  | _ => true

namespace World

/-- The event is appended where the update of the run found its row. -/
def after (w : World) (r : CollectionRun) (t : Transition) : World :=
  if r.state=w.run.state then { w with run := r }
  else { w with run := r, events := w.events+1, log := t::w.log }

/-- The batch of the call `i`, which read `previousParent` and `previousAttempt`; a refused one
leaves everything. -/
def resume (w : World) (i : Nat) (previousParent : Option String) (previousAttempt : Nat) : World :=
  let w' := match w.run.resumePaused previousParent previousAttempt with
    | none => w
    | some r =>
      let w' := w.after r (.resumed i (previousAttempt+1))
      if r.parent_workflow_id=w.run.parent_workflow_id then w'
      else { w' with bound := (previousAttempt+1)::w.bound }
  { w' with calls := Function.update w.calls i none }

end World

/-- `bindInitialParentWorkflowStatement` of the first attempt. -/
def CollectionRun.bindInitial (r : CollectionRun) : CollectionRun :=
  { r with parent_workflow_id := r.parent_workflow_id.or (some (parentWorkflowAttemptId r.id 1)) }

/-- `INSERT OR IGNORE` of the parent attempt `k`. -/
def CollectionRun.recordAttempt (k : Nat) (r : CollectionRun) : CollectionRun :=
  if k∈r.parent_attempts then r else { r with parent_attempts := r.parent_attempts++[k] }

inductive Step (w : World) : World → Prop where
  /-- The first read; another state ends the call. -/
  | read (i : Nat) (h : w.run.state=.paused) : Step w { w with
      calls := Function.update w.calls i (some (w.run.parent_workflow_id,w.run.attemptNumber)) }
  | commit (i : Nat) (p : Option String) (a : Nat) (h : w.calls i=some (p,a)) :
      Step w (w.resume i p a)
  /-- Pauses, capacity extensions and the collection itself. -/
  | other (m : Move) (now : Nat) (r : CollectionRun) (hm : m.others=true)
      (h : m.commit now w.run=some r) : Step w (w.after r .paused)
  | bind : Step w { w with
      run := w.run.bindInitial
      bound := if w.run.parent_workflow_id=none then 1::w.bound else w.bound }
  /-- `workflowAttemptStatements` of a workflow that was created at some time. -/
  | record (k : Nat) (h : k∈w.bound) : Step w { w with run := w.run.recordAttempt k }
  | leave (state : IngestionRunState) (reserved : Bool) (hs : state≠.collecting ∧ state≠.paused)
      (h : w.run.state=.collecting ∨ w.run.state=.paused) : Step w
        (w.after { w.run with state := state, reserved := reserved } .left)

/-- The histories of a run from its start. -/
inductive Happens : World → Prop where
  | start (r : CollectionRun) (events : Nat) (hs : r.state=.collecting) (hr : r.reserved=true)
      (hp : r.parent_workflow_id=none) (ha : r.parent_attempts=[]) :
      Happens ⟨r,events,[],fun _ => none,[]⟩
  | step {w w' : World} (h : Happens w) (hs : Step w w') : Happens w'

/-- `y` may come right before `x`. -/
def Follows : Transition → Transition → Prop
  | .resumed _ _,y => y=.paused
  | .paused,y => ∃i n,y=.resumed i n
  | .left,y => y≠.left

def Transition.attempt? : Transition → Option Nat
  | .resumed _ n => some n
  | _ => none

end CardKeepr.SourceEvidence.Pauses
