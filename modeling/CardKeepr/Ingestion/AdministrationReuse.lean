import CardKeepr.Ingestion.AdministrationRuns

namespace CardKeepr.Administration

open List

variable {legacy : String → Option LegacyRun} {s t : Tables} {c : IdempotencyContext}
  {x : Input} {w : State} {i : Nat}

def AnsweredOther (s : Tables) (c : IdempotencyContext) : Prop :=
  ∃o,s.outcomes c.key=some o ∧ (o.operation≠c.operation ∨ o.request_json≠c.requestJson)

def Foreign (s : Tables) (c : IdempotencyContext) : Prop :=
  AnsweredOther s c ∨ ∃cl,s.claims c.key=some cl ∧ cl.isOf c=false

/-- How many steps a call takes at most until it is refused, where it has done nothing so far. -/
def Phase.turns : Phase → Option Nat
  | .starting => some 4
  | .claiming => some 3
  | .refused => some 2
  | .vanished => some 1
  | .ended .reused => some 0
  | _ => none

/-- A call that has written nothing and is at most `n` steps from its refusal. -/
structure Turned (s : Tables) (c : IdempotencyContext) (ph : Phase) (n : Nat) : Prop where
  left : ∃m≤n,ph.turns=some m
  answered : ph=.vanished → AnsweredOther s c

theorem Turned.refused {ph : Phase} (h : Turned s c ph 0) : ph=.ended .reused := by
  obtain ⟨m,hm,h⟩ := h.left
  obtain rfl := Nat.le_zero.mp hm
  cases ph with
  | ended e =>
    cases e with
    | reused => rfl
    | _ => cases h
  | _ => cases h

theorem replayLegacy_foreign {cl : Claim} (hopen : OpenClaims legacy s)
    (hcl : s.claims c.key=some cl) (hof : cl.isOf c=false) :
    replayLegacyAdministration legacy c=.none ∨ replayLegacyAdministration legacy c=.reused := by
  let c' : IdempotencyContext := ⟨c.key,cl.operation,cl.request_json,0⟩
  have hown : cl.isOf c'=true := by
    rw [Claim.isOf,decide_eq_true_eq]
    exact ⟨rfl,rfl⟩
  have hnone := hopen c' cl hcl hown
  rw [Claim.isOf,decide_eq_false_iff_not] at hof
  rw [replayLegacyAdministration] at hnone ⊢
  cases hl : legacy c.key with
  | none => exact .inl rfl
  | some run =>
    have hl' : legacy c'.key=some run := hl
    rw [hl'] at hnone
    dsimp only at hnone ⊢
    split at hnone
    · rename_i hsame
      refine .inr (if_neg ?_)
      rintro ⟨hop,-,hreq⟩
      exact hof ⟨hsame.1.trans hop.symm,hsame.2.2.symm.trans hreq⟩
    · cases hnone

theorem replay_answeredOther {b : Bool} (h : AnsweredOther s c) :
    replayAdministration legacy s c b=.reused := by
  obtain ⟨o,ho,hne⟩ := h
  rw [replayAdministration,ho]
  exact if_pos hne

theorem AnsweredOther.unclaimed (hs : Consistent s) (h : AnsweredOther s c) :
    s.claims c.key=none := by
  obtain ⟨o,ho,-⟩ := h
  exact hs.exclusive c.key (by rw [ho]; rfl)

theorem Foreign.starting (hs : Consistent s) (hopen : OpenClaims legacy s) (hf : Foreign s c)
    (b : Bool) : replayAdministration legacy s c b=.none ∨
      replayAdministration legacy s c b=.reused := by
  rcases hf with hf | ⟨cl,hcl,hof⟩
  · exact .inr (replay_answeredOther hf)
  · have hout : s.outcomes c.key=none := by
      by_contra hsome
      have := hs.exclusive c.key (Option.isSome_iff_ne_none.mpr hsome)
      rw [hcl] at this
      cases this
    rw [replayAdministration,hout]
    exact replayLegacy_foreign hopen hcl hof

theorem Foreign.claiming (hf : Foreign s c) : s.acquireClaim c x.token=none := by
  rw [Tables.acquireClaim]
  refine if_pos ?_
  rcases hf with ⟨o,ho,-⟩ | ⟨cl,hcl,-⟩
  · simp [ho]
  · simp [hcl]

theorem Foreign.claimed {cl : Claim} (hs : Consistent s) (hf : Foreign s c)
    (hcl : s.claims c.key=some cl) : cl.isOf c=false := by
  rcases hf with hf | ⟨cl',hcl',hof⟩
  · rw [hf.unclaimed hs] at hcl
    cases hcl
  · rw [hcl] at hcl'
    obtain rfl := Option.some.inj hcl'
    exact hof

theorem Turned.ended {e : Ended} {n : Nat} (h : Turned s c (.ended e) n) : e=.reused := by
  obtain ⟨m,-,hm⟩ := h.left
  cases e with
  | reused => rfl
  | _ => cases hm

theorem Turned.advance {ph : Phase} {n : Nat} (hs : Consistent s) (hopen : OpenClaims legacy s)
    (hf : Foreign s c) (h : Turned s c ph n) : (advance legacy s c x ph).1=s ∧
      Turned s c (advance legacy s c x ph).2 (n-1) := by
  obtain ⟨m,hm,ht⟩ := h.left
  cases ph with
  | starting =>
    obtain rfl := Option.some.inj ht
    refine ⟨rfl,?_⟩
    simp only [Administration.advance]
    rcases hf.starting hs hopen x.readable with hr | hr
    · rw [hr]
      exact ⟨⟨3,by omega,rfl⟩,fun hv => by cases hv⟩
    · rw [hr]
      exact ⟨⟨0,by omega,rfl⟩,fun hv => by cases hv⟩
  | claiming =>
    obtain rfl := Option.some.inj ht
    simp only [Administration.advance,hf.claiming]
    exact ⟨trivial,⟨2,by omega,rfl⟩,fun hv => by cases hv⟩
  | refused =>
    obtain rfl := Option.some.inj ht
    refine ⟨rfl,?_⟩
    simp only [Administration.advance]
    cases hcl : s.claims c.key with
    | none =>
      refine ⟨⟨1,by omega,rfl⟩,fun _ => ?_⟩
      rcases hf with hf | ⟨cl,hcl',-⟩
      · exact hf
      · rw [hcl] at hcl'
        cases hcl'
    | some cl =>
      simp only [hf.claimed hs hcl]
      exact ⟨⟨0,by omega,rfl⟩,fun hv => by cases hv⟩
  | vanished =>
    obtain rfl := Option.some.inj ht
    refine ⟨rfl,?_⟩
    simp only [Administration.advance,replay_answeredOther (h.answered rfl)]
    exact ⟨⟨0,by omega,rfl⟩,fun hv => by cases hv⟩
  | ended e =>
    obtain rfl := h.ended
    exact ⟨rfl,⟨0,by omega,rfl⟩,fun hv => by cases hv⟩
  | _ => cases ht

theorem AnsweredOther.acts {c' : IdempotencyContext} {ph ph' : Phase} (h : AnsweredOther s c)
    (ha : Acts s c' x ph t ph') : AnsweredOther t c := by
  obtain ⟨o,ho,hne⟩ := h
  exact ⟨o,acts_outcomes ha ho,hne⟩

/-- How many of the steps are the call's. -/
def stepsOf (i : Nat) (moves : List Move) : Nat :=
  moves.countP fun m => match m with
    | .start _ => false
    | .step j _ => decide (j=i)

/-- A call that is being turned away, in a run of the others. -/
structure Refusal (legacy : String → Option LegacyRun) (w : State) (i : Nat)
    (c : IdempotencyContext) (n : Nat) : Prop where
  kept : Kept legacy w
  turned : ∃ph,w.calls[i]?=some ⟨c,ph⟩ ∧ Turned w.tables c ph n

theorem Refusal.next {n : Nat} {m : Move} (h : Refusal legacy w i c n)
    (hk : Kept legacy (w.next legacy m)) (hf : Foreign w.tables c) :
    Refusal legacy (w.next legacy m) i c (n-stepsOf i [m]) ∧
      (∀x,m=.step i x → (w.next legacy m).tables=w.tables) := by
  obtain ⟨ph,hi,ht⟩ := h.turned
  have hlt := (List.getElem?_eq_some_iff.mp hi).1
  cases m with
  | start c' =>
    refine ⟨⟨hk,ph,?_,ht⟩,fun x hx => by cases hx⟩
    rw [State.next,List.getElem?_append_left hlt]
    exact hi
  | step j x =>
    by_cases hj : j=i
    · subst hj
      obtain ⟨htab,hturn⟩ := ht.advance h.kept.tables h.kept.claims hf (x := x)
      refine ⟨⟨hk,(advance legacy w.tables c x ph).2,?_,?_⟩,fun _ _ => ?_⟩
      · rw [State.next,hi]
        exact List.getElem?_set_self hlt
      · have hone : stepsOf j [.step j x]=1 := by simp [stepsOf]
        rw [State.next,hi,hone]
        dsimp only
        rw [htab]
        exact hturn
      · rw [State.next,hi]
        exact htab
    · have hzero : stepsOf i [.step j x]=0 := by simp [stepsOf,hj]
      refine ⟨⟨hk,ph,?_,?_⟩,fun x' hx => ?_⟩
      · rw [State.next]
        split
        · exact hi
        · rw [← hi]
          exact List.getElem?_set_ne hj
      · rw [hzero,State.next]
        split
        · exact ht
        · exact ⟨ht.left,fun hv => (ht.answered hv).acts (advance_acts _)⟩
      · exact absurd (Move.step.inj hx).1 hj

theorem stepsOf_cons (m : Move) (ms : List Move) :
    stepsOf i (m::ms)=stepsOf i [m]+stepsOf i ms := by
  rw [stepsOf,stepsOf,stepsOf,countP_cons,countP_singleton,Nat.add_comm]

theorem Refusal.run {n : Nat} {moves : List Move} (h : Refusal legacy w i c n)
    (hf : w.freshly legacy moves=true) (hs : w.soundly legacy moves=true)
    (hfor : ∀mid,mid <+: moves → Foreign (w.run legacy mid).tables c) : Refusal legacy
    (w.run legacy moves) i c (n-stepsOf i moves) ∧ ∀mid x,mid++[.step i x] <+: moves →
    (w.run legacy (mid++[.step i x])).tables=(w.run legacy mid).tables := by
  induction moves generalizing w n with
  | nil =>
    refine ⟨h,fun mid x hp => ?_⟩
    rw [prefix_nil] at hp
    cases append_eq_nil_iff.mp hp |>.2
  | cons m ms ih =>
    obtain ⟨hnext,hsame⟩ := h.next (h.kept.next hf hs) (hfor [] nil_prefix)
    have hfor' : ∀mid,mid <+: ms → Foreign ((w.next legacy m).run legacy mid).tables c :=
      fun mid hp => hfor (m::mid) (cons_prefix_cons.mpr ⟨rfl,hp⟩)
    obtain ⟨hrun,hrest⟩ := ih hnext (along_cons hf).2 (along_cons hs).2 hfor'
    refine ⟨?_,fun mid x hp => ?_⟩
    · rw [stepsOf_cons,Nat.sub_add_eq]
      exact hrun
    · cases mid with
      | nil =>
        obtain ⟨rfl,-⟩ := cons_prefix_cons.mp hp
        exact hsame x rfl
      | cons m' mid =>
        obtain ⟨rfl,hp'⟩ := cons_prefix_cons.mp hp
        exact hrest mid x hp'

theorem run_append (a b : List Move) : w.run legacy (a++b)=(w.run legacy a).run legacy b :=
  foldl_append

theorem along_append {ok : State → Nat → Input → Call → Bool} {a b : List Move}
    (h : w.along legacy ok (a++b)=true) :
    w.along legacy ok a=true ∧ (w.run legacy a).along legacy ok b=true := by
  induction a generalizing w with
  | nil => exact ⟨rfl,h⟩
  | cons m ms ih =>
    simp only [cons_append,State.along,Bool.and_eq_true] at h ⊢
    obtain ⟨hms,hb⟩ := ih h.2
    exact ⟨⟨h.1,hms⟩,hb⟩

theorem run_outcomes {k : String} {o : Outcome} (moves : List Move)
    (h : w.tables.outcomes k=some o) : (w.run legacy moves).tables.outcomes k=some o := by
  induction moves generalizing w with
  | nil => exact h
  | cons m ms ih =>
    refine ih ?_
    cases m with
    | start c => exact h
    | step i x =>
      rw [State.next]
      split
      · exact h
      · exact acts_outcomes (advance_acts _) h

def initial : State := ⟨emptyTables,[]⟩

/-- What a run of calls promises of the keys, their outcomes and their domain batches. -/
structure Idempotent (legacy : String → Option LegacyRun) (moves : List Move) : Prop where
  /-- A key has one domain batch at most, of the owner that wrote its outcome. -/
  once : ((initial.run legacy moves).tables.batches.map Prod.fst).Nodup
  beside : ∀b∈(initial.run legacy moves).tables.batches,∃o,
    (initial.run legacy moves).tables.outcomes b.1=some o ∧ o.owner.ownerToken=b.2
  /-- The outcome of a key never changes. -/
  retained : ∀before rest,moves=before++rest → ∀k o,
    (initial.run legacy before).tables.outcomes k=some o →
      (initial.run legacy moves).tables.outcomes k=some o
  answered : ∀(i : Nat) (call : Call) (r : Result),(initial.run legacy moves).calls[i]?=some call →
    call.phase=.ended (.final r) → Answered legacy (initial.run legacy moves).tables call.context r
  /-- A call of another request under the key writes nothing and is refused. -/
  reused : ∀before c rest,moves=before++.start c::rest →
    (∀mid,mid <+: rest → Foreign (initial.run legacy (before++.start c::mid)).tables c) →
    (4 ≤ stepsOf (initial.run legacy before).calls.length rest →
      (initial.run legacy moves).calls[(initial.run legacy before).calls.length]?=
        some ⟨c,.ended .reused⟩) ∧
    ∀mid x,mid++[.step (initial.run legacy before).calls.length x] <+: rest →
      (initial.run legacy (before++.start c::
          (mid++[.step (initial.run legacy before).calls.length x]))).tables=
        (initial.run legacy (before++.start c::mid)).tables
  /-- An owner whose claim was taken over has written neither an outcome nor a batch. -/
  superseded : ∀token∈(initial.run legacy moves).tables.superseded,
    (∀k o,(initial.run legacy moves).tables.outcomes k=some o → o.owner.ownerToken≠token) ∧
    ∀b∈(initial.run legacy moves).tables.batches,b.2≠token

theorem reused_of_foreign {before rest : List Move}
    (hf : initial.freshly legacy (before++.start c::rest)=true)
    (hs : initial.soundly legacy (before++.start c::rest)=true)
    (hfor : ∀mid,mid <+: rest → Foreign (initial.run legacy (before++.start c::mid)).tables c) :
    Refusal legacy (initial.run legacy (before++.start c::rest))
        (initial.run legacy before).calls.length c
        (4-stepsOf (initial.run legacy before).calls.length rest) ∧
      ∀mid x,mid++[.step (initial.run legacy before).calls.length x] <+: rest →
        (initial.run legacy (before++.start c::
          (mid++[.step (initial.run legacy before).calls.length x]))).tables=
        (initial.run legacy (before++.start c::mid)).tables := by
  obtain ⟨hf₀,hf₁⟩ := along_append hf
  obtain ⟨hs₀,hs₁⟩ := along_append hs
  have hk : Kept legacy (initial.run legacy before) := Kept.empty.run hf₀ hs₀
  have hrun : ∀mid,initial.run legacy (before++.start c::mid)=
      ((initial.run legacy before).next legacy (.start c)).run legacy mid :=
    fun mid => run_append before (.start c::mid)
  have hstart : Refusal legacy ((initial.run legacy before).next legacy (.start c))
      (initial.run legacy before).calls.length c 4 := by
    refine ⟨hk.start c,.starting,?_,⟨4,Nat.le_refl 4,rfl⟩,fun hv => by cases hv⟩
    rw [State.next,List.getElem?_concat_length]
  have h := hstart.run (along_cons hf₁).2 (along_cons hs₁).2
    (fun mid hp => by rw [← hrun]; exact hfor mid hp)
  refine ⟨by rw [hrun]; exact h.1,fun mid x hp => ?_⟩
  rw [hrun,hrun]
  exact h.2 mid x hp

/-- Runs in which no step is taken past a claim that was given up keep every promise. -/
theorem idempotent_administration (legacy : String → Option LegacyRun) (moves : List Move)
    (hfresh : initial.freshly legacy moves=true) (hsound : initial.soundly legacy moves=true) :
    Idempotent legacy moves := by
  have h : Kept legacy (initial.run legacy moves) := Kept.empty.run hfresh hsound
  refine ⟨h.tables.nodup,h.tables.batch,?_,fun i call r hi => (h.calls i call hi).final r,?_,?_⟩
  · rintro before rest rfl k o ho
    rw [run_append]
    exact run_outcomes rest ho
  · rintro before c rest rfl hfor
    obtain ⟨hrefusal,hsame⟩ := reused_of_foreign hfresh hsound hfor
    refine ⟨fun hsteps => ?_,hsame⟩
    obtain ⟨ph,hi,ht⟩ := hrefusal.turned
    rw [Nat.sub_eq_zero_of_le hsteps] at ht
    rw [hi,ht.refused]
  · intro token htoken
    refine ⟨fun k o ho he => (h.tables.written k o ho).2 (he ▸ htoken),fun b hb he => ?_⟩
    obtain ⟨o,ho,howner⟩ := h.tables.batch b hb
    exact (h.tables.written _ o ho).2 (howner.trans he ▸ htoken)

/-- Two calls of one request and one of another under its key. -/
def contested : List Move :=
  let approve : IdempotencyContext := ⟨"key-1","approve_ingestion_run","\x7b\"run\":1\x7d",0⟩
  let commit : Input := ⟨"",true,.commit "published" true⟩
  let look : Input := ⟨"",true,.look⟩
  [.start approve,.step 0 look,.step 0 ⟨"a",true,.look⟩,.step 0 look,
    -- The lease of the first call is over: a retry takes its claim.
    .start { approve with observedAt := 300000 },.step 1 look,.step 1 look,.step 1 look,
    .step 1 ⟨"b",true,.look⟩,.step 1 look,.step 0 commit,.step 1 commit,.step 0 look,
    .start { approve with operation := "reject_ingestion_run" },.step 2 look,.step 2 look,
    .step 2 look,.step 2 look]

theorem idempotent_contested : initial.freshly (fun _ => none) contested=true ∧
    initial.soundly (fun _ => none) contested=true ∧ Idempotent (fun _ => none) contested ∧
    (initial.run (fun _ => none) contested).tables.batches=[("key-1","b")] := by
  have hfresh : initial.freshly (fun _ => none) contested=true := by decide +kernel
  have hsound : initial.soundly (fun _ => none) contested=true := by decide +kernel
  exact ⟨hfresh,hsound,idempotent_administration _ _ hfresh hsound,by decide +kernel⟩

/-- A cleanup whose claim was taken over while it ran: the other call finds the cleanup claimed in
the meantime, gives the key up, and the first one records its outcome after all. -/
def givenUp : List Move :=
  let cleanup : IdempotencyContext :=
    ⟨"key-1","retry_publication_cleanup","\x7b\"run_id\":\"run-1\"\x7d",0⟩
  let look : Input := ⟨"",true,.look⟩
  let changed : Problem := ⟨409,"publication_cleanup_claim_changed",
    "Publication cleanup ownership changed; retry the request."⟩
  [.start cleanup,.step 0 look,.step 0 ⟨"a",true,.look⟩,.step 0 look,
    .start { cleanup with observedAt := 300000 },.step 1 look,.step 1 look,.step 1 look,
    .step 1 ⟨"b",true,.look⟩,.step 1 look,.step 1 ⟨"",true,.fails changed false⟩,.step 1 look,
    .step 0 ⟨"",true,.commit "cleaned" true⟩]

theorem givenUp_superseded : initial.freshly (fun _ => none) givenUp=true ∧
    ¬Idempotent (fun _ => none) givenUp := by
  refine ⟨by decide +kernel,fun h => ?_⟩
  have hs : "a"∈(initial.run (fun _ => none) givenUp).tables.superseded := by decide +kernel
  have ho : ((initial.run (fun _ => none) givenUp).tables.outcomes "key-1").map
      (fun o => o.owner.ownerToken)=some "a" := by decide +kernel
  obtain ⟨o,ho,htoken⟩ := Option.map_eq_some_iff.mp ho
  exact (h.superseded "a" hs).1 "key-1" o ho htoken

end CardKeepr.Administration
