import CardKeepr.SourceEvidence.Resumes

namespace CardKeepr.SourceEvidence.Pauses
open Ingestion Shared List

variable {w w' : World} {r r' : CollectionRun} {log : List Transition}

theorem parentWorkflowAttemptId_inj {id : String} {m n : Nat} (hm : 1 ≤ m) (hn : 1 ≤ n)
    (h : parentWorkflowAttemptId id m=parentWorkflowAttemptId id n) : m=n := by
  have hlist := congrArg String.toList h
  have hdigits : ∀k : Nat,(toString k).toList=Nat.toDigits 10 k := by
    intro k
    simp [toString,Nat.repr]
  rw [parentWorkflowAttemptId,parentWorkflowAttemptId] at hlist
  split_ifs at hlist with h1 h2 h2
  · omega
  · have hlen := congrArg List.length hlist
    simp only [String.toList_append,length_append] at hlen
    have hsuffix : 0 < "-resume-".toList.length := by decide
    omega
  · have hlen := congrArg List.length hlist
    simp only [String.toList_append,length_append] at hlen
    have hsuffix : 0 < "-resume-".toList.length := by decide
    omega
  · simp only [String.toList_append,hdigits,append_cancel_left_eq] at hlist
    have hsame : decimal (m-1)=decimal (n-1) := by rw [decimal,decimal,hlist]
    have hpred := decimal_inj hsame
    omega

namespace CollectionRun

theorem attemptNumber_append {r r' : CollectionRun} {k : Nat}
    (h : r'.parent_attempts=r.parent_attempts++[k]) (hk : 1 ≤ k) :
    r'.attemptNumber=max r.attemptNumber k := by
  rw [attemptNumber,attemptNumber,h]
  cases r.parent_attempts with
  | nil =>
    have hone : max 1 k=k := max_eq_right hk
    simp [hone]
  | cons x xs =>
    rw [cons_append,List.max?_cons',List.max?_cons',foldl_append]
    rfl

/-- What a committing resume leaves. -/
def resumed (r : CollectionRun) : CollectionRun :=
  { r with
    state := .collecting
    requests := r.requests.map reopened
    parent_workflow_id := some (parentWorkflowAttemptId r.id (r.attemptNumber+1))
    parent_attempts := r.parent_attempts++[r.attemptNumber+1] }

def Named (r : CollectionRun) : Prop :=
  ∀x,r.parent_workflow_id=some x → ∃k,1 ≤ k ∧ k ≤ r.attemptNumber ∧ x=parentWorkflowAttemptId r.id k

theorem Named.next_free {r : CollectionRun} (h : r.Named) :
    r.parent_workflow_id≠some (parentWorkflowAttemptId r.id (r.attemptNumber+1)) := by
  intro hnext
  obtain ⟨k,hk,hle,heq⟩ := h _ hnext
  have hsame := parentWorkflowAttemptId_inj (by omega) hk heq
  omega

theorem resumePaused_cases {r : CollectionRun} (h : r.Named)
    (hreserved : r.state=.paused → r.reserved=true) (p : Option String) (a : Nat) :
    r.resumePaused p a=
      some (if r.state=.paused ∧ r.parent_workflow_id=p ∧ r.attemptNumber=a then r.resumed else r) := by
  rw [resumePaused]
  by_cases hread : r.state=.paused ∧ r.parent_workflow_id=p ∧ r.attemptNumber=a
  · obtain ⟨hpaused,rfl,rfl⟩ := hread
    have hrebound : toCollecting (parentWorkflowAttemptId r.id (r.attemptNumber+1)) r.attemptNumber
        { r with
          requests := r.requests.map reopened
          parent_workflow_id := some (parentWorkflowAttemptId r.id (r.attemptNumber+1)) }=
        some { r with
          state := .collecting
          requests := r.requests.map reopened
          parent_workflow_id := some (parentWorkflowAttemptId r.id (r.attemptNumber+1)) } := by
      rw [toCollecting,if_pos ⟨hpaused,rfl,rfl⟩,if_pos (hreserved hpaused)]
    simp only [hpaused,and_self,if_true]
    simp only [hpaused] at hrebound
    rw [hrebound]
    exact if_pos ⟨rfl,rfl,rfl⟩
  · rw [if_neg hread,if_neg hread,toCollecting]
    by_cases hnumber : r.attemptNumber=a
    · subst hnumber
      simp [h.next_free]
    · simp [hnumber]

theorem resumed_number (r : CollectionRun) : r.resumed.attemptNumber=r.attemptNumber+1 := by
  have hnew : r.resumed.attemptNumber=max r.attemptNumber (r.attemptNumber+1) :=
    @attemptNumber_append r r.resumed _ rfl (by omega)
  rw [hnew]
  omega

theorem resumed_named (r : CollectionRun) : r.resumed.Named := by
  intro x hx
  refine ⟨r.attemptNumber+1,by omega,?_,(Option.some.inj hx).symm⟩
  rw [resumed_number]

end CollectionRun

/-- What a batch that neither binds nor resumes keeps. -/
structure Kept (r r' : CollectionRun) : Prop where
  id : r'.id=r.id
  parent : r'.parent_workflow_id=r.parent_workflow_id
  attempts : r'.parent_attempts=r.parent_attempts
  reserved : r'.reserved=r.reserved
  state : r'.state=r.state ∨ r.state=.collecting ∧ r'.state=.paused

theorem Kept.refl (r : CollectionRun) : Kept r r := ⟨rfl,rfl,rfl,rfl,.inl rfl⟩

theorem toPaused_kept {b c : Bool} {s : CollectionRun} (h : r.toPaused b=some (s,c)) :
    Kept r s := by
  rcases toPaused_some h with ⟨-,hs,rfl⟩ | ⟨-,rfl,-⟩
  · exact ⟨rfl,rfl,rfl,rfl,.inr ⟨hs,rfl⟩⟩
  · exact .refl _

theorem workflowPause_kept {facts : WorkflowRecoveryFacts} {now : Nat}
    (h : r.workflowPause facts now=some r') : Kept r r' := by
  rw [CollectionRun.workflowPause] at h
  split at h
  · cases h
  · rename_i s c hpaused
    have hkept := toPaused_kept hpaused
    split at h
    · cases h
      exact ⟨hkept.id,hkept.parent,hkept.attempts,hkept.reserved,hkept.state⟩
    · cases h
      exact hkept

theorem others_kept {m : Move} {now : Nat} (hm : m.others=true)
    (h : m.commit now r=some r') : Kept r r' := by
  cases m with
  | requestCapacity parent problem =>
    simp only [Move.commit,CollectionRun.pauseForRequestCapacity] at h
    split at h
    · cases h
    · rename_i s c hpaused
      have hkept := toPaused_kept hpaused
      split at h
      · split at h
        · cases h
          exact ⟨hkept.id,hkept.parent,hkept.attempts,hkept.reserved,hkept.state⟩
        · cases h
      · cases h
        exact hkept
  | retriesExhausted facts =>
    simp only [Move.commit,CollectionRun.pauseForRetryExhaustion] at h
    split at h
    · cases h
    · rename_i s c hpaused
      have hkept := toPaused_kept hpaused
      split at h
      · split at h
        · cases h
          exact ⟨hkept.id,hkept.parent,hkept.attempts,hkept.reserved,hkept.state⟩
        · cases h
      · cases h
        exact hkept
  | workflow facts => exact workflowPause_kept h
  | owner key id status at' =>
    simp only [Move.commit,CollectionRun.pauseOnOwnerRequest] at h
    split at h
    · cases h
    · rename_i s hs
      have hkept := workflowPause_kept hs
      split at h
      · split at h
        · cases h
        · cases h
          exact ⟨hkept.id,hkept.parent,hkept.attempts,hkept.reserved,hkept.state⟩
      · cases h
        exact hkept
  | acquisition event facts =>
    simp only [Move.commit,CollectionRun.acquisitionPause] at h
    split at h
    · cases h
    · rename_i s c hpaused
      have hkept := toPaused_kept hpaused
      split at h
      · split at h
        · cases h
        · cases h
          exact ⟨hkept.id,hkept.parent,hkept.attempts,hkept.reserved,hkept.state⟩
      · cases h
        exact hkept
  | resume parent n => cases hm
  | extend row =>
    simp only [Move.commit,CollectionRun.extendCapacity] at h
    split at h
    · split at h
      · cases h
      · cases h
        exact ⟨rfl,rfl,rfl,rfl,.inl rfl⟩
    · cases h
      exact .refl r
  | bind id => cases hm
  | collect requests =>
    cases h
    exact ⟨rfl,rfl,rfl,rfl,.inl rfl⟩

/-- The newest transition tells the state. -/
def Tells (state : IngestionRunState) : List Transition → Prop
  | [] => state=.collecting
  | .paused::_ => state=.paused
  | .resumed _ _::_ => state=.collecting
  | .left::_ => state≠.collecting ∧ state≠.paused

structure Ordered (w : World) : Prop where
  named : w.run.Named
  rows : ∀k∈w.run.parent_attempts,1 ≤ k
  bound : ∀k∈w.bound,1 ≤ k ∧ k ≤ w.run.attemptNumber
  reserved : w.run.state=.collecting ∨ w.run.state=.paused → w.run.reserved=true
  tells : Tells w.run.state w.log
  follows : w.log.IsChain Follows
  newest : ∀n∈w.log.filterMap Transition.attempt?,n ≤ w.run.attemptNumber
  numbered : (w.log.filterMap Transition.attempt?).Pairwise (· > ·)

theorem attemptNumber_pos (h : ∀k∈r.parent_attempts,1 ≤ k) : 1 ≤ r.attemptNumber := by
  rw [CollectionRun.attemptNumber]
  cases hmax : r.parent_attempts.max? with
  | none => exact le_rfl
  | some k => exact h k (List.max?_mem hmax)

theorem Ordered.after (h : Ordered w) {t : Transition}
    (hnumber : w.run.attemptNumber ≤ r.attemptNumber) (hnamed : r.Named)
    (hrows : ∀k∈r.parent_attempts,1 ≤ k)
    (hreserved : r.state=.collecting ∨ r.state=.paused → r.reserved=true)
    (htells : r.state≠w.run.state → Tells r.state (t::w.log))
    (hfollows : r.state≠w.run.state → ∀y∈w.log.head?,Follows t y)
    (hattempt : ∀n,t.attempt?=some n → w.run.attemptNumber < n ∧ n ≤ r.attemptNumber) :
    Ordered (w.after r t) := by
  rw [World.after]
  split
  · rename_i hsame
    refine ⟨hnamed,hrows,?_,hreserved,?_,h.follows,?_,h.numbered⟩
    · intro k hk
      have hb := h.bound k hk
      exact ⟨hb.1,hb.2.trans hnumber⟩
    · have ht := h.tells
      rw [←hsame] at ht
      exact ht
    · exact fun n hn => (h.newest n hn).trans hnumber
  · rename_i hmoved
    have hold : ∀n∈w.log.filterMap Transition.attempt?,n ≤ w.run.attemptNumber := h.newest
    refine ⟨hnamed,hrows,?_,hreserved,htells hmoved,?_,?_,?_⟩
    · intro k hk
      have hb := h.bound k hk
      exact ⟨hb.1,hb.2.trans hnumber⟩
    · have hchain := h.follows
      have hhead := hfollows hmoved
      dsimp only
      cases hlog : w.log with
      | nil => exact .singleton t
      | cons y l =>
        rw [hlog] at hchain hhead
        exact .cons_cons (hhead y rfl) hchain
    · intro n hn
      cases ht : t.attempt? with
      | none =>
        rw [filterMap_cons_none ht] at hn
        exact (hold n hn).trans hnumber
      | some k =>
        rw [filterMap_cons_some ht] at hn
        rcases mem_cons.mp hn with rfl | hn
        · exact (hattempt n ht).2
        · exact (hold n hn).trans hnumber
    · cases ht : t.attempt? with
      | none =>
        rw [filterMap_cons_none ht]
        exact h.numbered
      | some k =>
        rw [filterMap_cons_some ht]
        refine pairwise_cons.mpr ⟨?_,h.numbered⟩
        intro n hn
        have hlt := (hattempt k ht).1
        have hle := hold n hn
        omega

theorem tells_paused (h : Tells .paused log) : ∀y∈log.head?,y=.paused := by
  intro y hy
  cases log with
  | nil => cases hy
  | cons x l =>
    obtain rfl := Option.some.inj hy
    cases x with
    | paused => rfl
    | resumed i n => cases h
    | left => exact absurd rfl h.2

theorem tells_collecting (h : Tells .collecting log) : ∀y∈log.head?,∃i n,y=.resumed i n := by
  intro y hy
  cases log with
  | nil => cases hy
  | cons x l =>
    obtain rfl := Option.some.inj hy
    cases x with
    | paused => cases h
    | resumed i n => exact ⟨i,n,rfl⟩
    | left => exact absurd rfl h.1

theorem tells_left {state : IngestionRunState} (h : Tells state log)
    (hstate : state=.collecting ∨ state=.paused) : ∀y∈log.head?,y≠.left := by
  rintro y hy rfl
  rcases hstate with rfl | rfl
  · obtain ⟨i,n,heq⟩ := tells_collecting h _ hy
    cases heq
  · cases tells_paused h _ hy

theorem attemptNumber_same (h : r'.parent_attempts=r.parent_attempts) :
    r'.attemptNumber=r.attemptNumber := by
  rw [CollectionRun.attemptNumber,CollectionRun.attemptNumber,h]

theorem CollectionRun.Named.same (h : r.Named) (hid : r'.id=r.id)
    (hparent : r'.parent_workflow_id=r.parent_workflow_id)
    (hnumber : r.attemptNumber ≤ r'.attemptNumber) : r'.Named := by
  intro x hx
  rw [hparent] at hx
  obtain ⟨k,hk,hle,heq⟩ := h x hx
  exact ⟨k,hk,hle.trans hnumber,by rw [hid]; exact heq⟩

theorem Ordered.rebound (h : Ordered w) (hrun : w'.run=w.run) (hlog : w'.log=w.log)
    (hbound : ∀k∈w'.bound,k∈w.bound ∨ 1 ≤ k ∧ k ≤ w.run.attemptNumber) : Ordered w' := by
  refine ⟨?_,?_,?_,?_,?_,?_,?_,?_⟩
  all_goals
    try rw [hrun]
    try rw [hlog]
  · exact h.named
  · exact h.rows
  · intro k hk
    rcases hbound k hk with hk | hk
    · exact h.bound k hk
    · exact hk
  · exact h.reserved
  · exact h.tells
  · exact h.follows
  · exact h.newest
  · exact h.numbered

theorem Ordered.resume_run (h : Ordered w) (i : Nat) (p : Option String) (a : Nat) :
    if w.run.state=.paused ∧ w.run.parent_workflow_id=p ∧ w.run.attemptNumber=a then
      (w.resume i p a).run=w.run.resumed ∧ (w.resume i p a).events=w.events+1 ∧
        (w.resume i p a).log=.resumed i (a+1)::w.log ∧ (w.resume i p a).bound=(a+1)::w.bound
    else (w.resume i p a).run=w.run ∧ (w.resume i p a).events=w.events ∧
      (w.resume i p a).log=w.log ∧ (w.resume i p a).bound=w.bound := by
  have hcases := CollectionRun.resumePaused_cases h.named (fun hp => h.reserved (.inr hp)) p a
  rw [World.resume,hcases]
  split
  · rename_i hread
    obtain ⟨hpaused,rfl,rfl⟩ := hread
    have hmoved : w.run.resumed.state≠w.run.state := by
      rw [hpaused]
      exact fun hs => by cases hs
    have hbound : w.run.resumed.parent_workflow_id≠w.run.parent_workflow_id :=
      h.named.next_free.symm
    simp only [hbound,if_false,World.after,hmoved]
    simp
  · simp [World.after]

theorem Ordered.step (h : Ordered w) (hs : Step w w') : Ordered w' := by
  cases hs with
  | read i hp => exact ⟨h.named,h.rows,h.bound,h.reserved,h.tells,h.follows,h.newest,h.numbered⟩
  | commit i p a hc =>
    have hrun := h.resume_run i p a
    split at hrun
    · rename_i hread
      obtain ⟨hpaused,rfl,rfl⟩ := hread
      obtain ⟨hrun,-,hlog,hbound⟩ := hrun
      have hnumber := CollectionRun.resumed_number w.run
      have htells := h.tells
      rw [hpaused] at htells
      have hafter : Ordered (w.after w.run.resumed (.resumed i (w.run.attemptNumber+1))) := by
        refine h.after (by omega) (CollectionRun.resumed_named _) ?_ ?_ (fun _ => rfl) ?_ ?_
        · intro k hk
          rcases mem_append.mp hk with hk | hk
          · exact h.rows k hk
          · rw [mem_singleton.mp hk]
            omega
        · exact fun _ => h.reserved (.inr hpaused)
        · exact fun _ => tells_paused htells
        · intro n hn
          obtain rfl := Option.some.inj hn
          exact ⟨by omega,by omega⟩
      have hmoved : w.run.resumed.state≠w.run.state := by
        rw [hpaused]
        exact fun hs => by cases hs
      rw [World.after,if_neg hmoved] at hafter
      refine hafter.rebound hrun hlog ?_
      intro k hk
      rw [hbound] at hk
      rcases mem_cons.mp hk with rfl | hk
      · exact .inr ⟨by omega,hnumber.ge⟩
      · exact .inl hk
    · obtain ⟨hrun,-,hlog,hbound⟩ := hrun
      exact h.rebound hrun hlog fun k hk => .inl (by rw [hbound] at hk; exact hk)
  | other m now r hm hc =>
    have hkept := others_kept hm hc
    have hnumber := attemptNumber_same hkept.attempts
    refine h.after hnumber.ge (h.named.same hkept.id hkept.parent hnumber.ge) ?_ ?_ ?_ ?_ ?_
    · rw [hkept.attempts]
      exact h.rows
    · intro hstate
      rw [hkept.reserved]
      rcases hkept.state with hsame | ⟨hcollecting,-⟩
      · rw [hsame] at hstate
        exact h.reserved hstate
      · exact h.reserved (.inl hcollecting)
    · intro hmoved
      exact (hkept.state.resolve_left hmoved).2
    · intro hmoved
      have htells := h.tells
      rw [(hkept.state.resolve_left hmoved).1] at htells
      exact tells_collecting htells
    · intro n hn
      cases hn
  | bind =>
    have hpos := attemptNumber_pos h.rows
    have hnumber : w.run.bindInitial.attemptNumber=w.run.attemptNumber := attemptNumber_same rfl
    refine ⟨?_,h.rows,?_,h.reserved,h.tells,h.follows,h.newest,h.numbered⟩
    · intro x hx
      cases hparent : w.run.parent_workflow_id with
      | none =>
        have hx' : some (parentWorkflowAttemptId w.run.id 1)=some x := by
          simpa [CollectionRun.bindInitial,hparent] using hx
        exact ⟨1,le_rfl,hpos,(Option.some.inj hx').symm⟩
      | some y =>
        have hx' : some y=some x := by simpa [CollectionRun.bindInitial,hparent] using hx
        exact h.named x (hparent.trans hx')
    · intro k hk
      dsimp only at hk ⊢
      rw [hnumber]
      split at hk
      · rcases mem_cons.mp hk with rfl | hk
        · exact ⟨le_rfl,hpos⟩
        · exact h.bound k hk
      · exact h.bound k hk
  | record k hk =>
    obtain ⟨hpos,hle⟩ := h.bound k hk
    have hnumber : (w.run.recordAttempt k).attemptNumber=w.run.attemptNumber := by
      rw [CollectionRun.recordAttempt]
      split
      · rfl
      · rw [CollectionRun.attemptNumber_append (r := w.run) rfl hpos]
        omega
    have hsame : (w.run.recordAttempt k).id=w.run.id ∧
        (w.run.recordAttempt k).parent_workflow_id=w.run.parent_workflow_id ∧
        (w.run.recordAttempt k).state=w.run.state ∧
        (w.run.recordAttempt k).reserved=w.run.reserved := by
      rw [CollectionRun.recordAttempt]
      split <;> exact ⟨rfl,rfl,rfl,rfl⟩
    obtain ⟨hid,hparent,hstate,hreserved⟩ := hsame
    refine ⟨h.named.same hid hparent hnumber.ge,?_,?_,?_,?_,h.follows,?_,h.numbered⟩
    · intro j hj
      dsimp only at hj
      rw [CollectionRun.recordAttempt] at hj
      split at hj
      · exact h.rows j hj
      · rcases mem_append.mp hj with hj | hj
        · exact h.rows j hj
        · rw [mem_singleton.mp hj]
          exact hpos
    · dsimp only
      rw [hnumber]
      exact h.bound
    · dsimp only
      rw [hstate,hreserved]
      exact h.reserved
    · dsimp only
      rw [hstate]
      exact h.tells
    · dsimp only
      rw [hnumber]
      exact h.newest
  | leave state reserved hout hin =>
    refine h.after le_rfl (h.named.same rfl rfl le_rfl) h.rows ?_ (fun _ => hout) ?_ ?_
    · rintro (hs | hs)
      · exact absurd hs hout.1
      · exact absurd hs hout.2
    · exact fun _ => tells_left h.tells hin
    · intro n hn
      cases hn

theorem Happens.ordered (h : Happens w) : Ordered w := by
  induction h with
  | start r events hs hr hp ha =>
    refine ⟨?_,?_,?_,fun _ => hr,hs,.nil,?_,.nil⟩
    · intro x hx
      rw [hp] at hx
      cases hx
    · intro k hk
      rw [ha] at hk
      cases hk
    · intro k hk
      cases hk
    · intro n hn
      cases hn
  | step _ hs ih => exact ih.step hs

/-- In every history the batch of a call resumes the run where what the call read still holds of a
paused run, and else changes nothing; every resume ends a pause of its own, under a later attempt
than the ones before. -/
theorem resume_once {w : World} (h : Happens w) : (∀i p a,w.calls i=some (p,a) →
      if w.run.state=.paused ∧ w.run.parent_workflow_id=p ∧ w.run.attemptNumber=a then
        (w.resume i p a).run={ w.run with
          state := .collecting
          requests := w.run.requests.map CollectionRun.reopened
          parent_workflow_id := some (parentWorkflowAttemptId w.run.id (a+1))
          parent_attempts := w.run.parent_attempts++[a+1] } ∧
        (w.resume i p a).events=w.events+1 ∧ (w.resume i p a).log=.resumed i (a+1)::w.log
      else (w.resume i p a).run=w.run ∧ (w.resume i p a).events=w.events ∧
        (w.resume i p a).log=w.log) ∧
    w.log.IsChain Follows ∧ (w.log.filterMap Transition.attempt?).Pairwise (· > ·) := by
  have hordered := h.ordered
  refine ⟨?_,hordered.follows,hordered.numbered⟩
  intro i p a _
  have hrun := hordered.resume_run i p a
  split at hrun
  · rename_i hread
    obtain ⟨hresumed,hevents,hlog,-⟩ := hrun
    rw [if_pos hread,hresumed,hevents,hlog]
    obtain ⟨-,-,rfl⟩ := hread
    exact ⟨rfl,rfl,rfl⟩
  · rename_i hread
    obtain ⟨hsame,hevents,hlog,-⟩ := hrun
    rw [if_neg hread]
    exact ⟨hsame,hevents,hlog⟩

section Example

/-- A run out of capacity, with two calls that read it. -/
def contested : World where
  run := { collectingRun with
    state := .paused
    parent_workflow_id := none
    parent_attempts := []
    capacity_pauses := [⟨⟨"lineage",8,1,8,2,10⟩,5,"request"⟩] }
  events := 2
  bound := []
  calls := Function.update (Function.update (fun _ => none) 1 (some (none,1))) 2 (some (none,1))
  log := [.paused]

theorem contested_happens : Happens contested := by
  have hstart : Happens ⟨{ collectingRun with parent_workflow_id := none, parent_attempts := [] },1,
    [],fun _ => none,[]⟩ := .start _ 1 rfl rfl rfl rfl
  have hpaused := hstart.step (.other exhausted 5 _ rfl rfl)
  have hread := hpaused.step (.read 1 rfl)
  exact hread.step (.read 2 rfl)

/-- The second of two calls with the same read finds the run resumed. -/
theorem resume_once_contested : (contested.resume 1 none 1).run.state=.collecting ∧
      ((contested.resume 1 none 1).resume 2 none 1).run=(contested.resume 1 none 1).run := by
  have hfirst := (resume_once contested_happens).1 1 none 1 rfl
  rw [if_pos ⟨rfl,rfl,by decide⟩] at hfirst
  have hnext : Happens (contested.resume 1 none 1) := contested_happens.step (.commit 1 none 1 rfl)
  have hcollecting : (contested.resume 1 none 1).run.state=.collecting := by rw [hfirst.1]
  have hpending : (contested.resume 1 none 1).calls 2=some (none,1) := by decide
  have hsecond := (resume_once hnext).1 2 none 1 hpending
  rw [if_neg (by rw [hcollecting]; exact fun h => by cases h.1)] at hsecond
  exact ⟨hcollecting,hsecond.1⟩

end Example
end CardKeepr.SourceEvidence.Pauses
