import CardKeepr.Publication.Commits
import CardKeepr.Shared.Sha256

namespace CardKeepr.Publication

open Lib Shared List

variable {id : JsString} {p : Operation} {generation : Nat}

/-- An approval names a new operation by a UUID. -/
def fits : Op → Prop
  | .approve p => p.id.length=48
  | _ => True

variable {s t : Store} {x : Except Conflict Store}

theorem batch_kept (h : Consistent s) (hx : ∀t,x=.ok t → Kept s t) : Kept s (batch s x).2 := by
  cases x with
  | error e => exact .refl h
  | ok t => exact hx t rfl

theorem retainPackage_kept (h : Consistent s) (id : JsString) (generation : Nat)
    (digest : JsString) (now : Nat) : Kept s (s.retainPackage id generation digest now) := by
  rw [Store.retainPackage]
  split
  · exact frame_same h rfl rfl rfl rfl rfl rfl (.same rfl rfl) rfl
  · exact .refl h

theorem handle_kept (i : Nat) (op : Op) (s : Store) (hop : fits op) (h : Consistent s) :
    Kept s (handle i op s).2 := by
  cases op with
  | approve p => exact batch_kept h fun t => approve_kept h hop
  | updateState id g state code => exact updateState_kept h id g state code
  | pauseSuccessor id g n next => exact pauseSuccessor_kept h id g n next
  | resume id g a at' => exact batch_kept h fun t => resume_kept h
  | retainPackage id g d now => exact retainPackage_kept h id g d now
  | retainComposition d games =>
    exact frame_same h rfl rfl rfl rfl rfl rfl (retainComposition_held s d games) rfl
  | switch id g p c now => exact batch_kept h fun t => switch_kept h
  | acceptUnchanged id g p c now => exact batch_kept h fun t => acceptUnchanged_kept h
  | surroundings e => exact frame_same h rfl rfl rfl rfl rfl rfl (surround_held s e) rfl
  | exportUnit c e => exact exportUnit_kept h c e
  | _ => exact .refl h

theorem Settled.trans {u : Store} (h : Settled s t) (h' : Settled t u) : Settled s u :=
  fun p hp ht => h' p (h p hp ht) ht

section

variable {α β : Type}

theorem only_perform {op : Op} (h : fits op) : (perform op).Only fits := ⟨h,fun _ => trivial⟩

theorem only_throw (code : String) : (throw' code : Program α).Only fits := trivial

theorem only_pure (a : α) : (pure a : Program α).Only fits := trivial

theorem only_bind {p : Program α} {f : α → Program β} (hp : p.Only fits)
    (hf : ∀a,(f a).Only fits) : (p >>= f).Only fits := hp.bind hf

theorem only_ite {c : Prop} [Decidable c] {p q : Program α} (hp : p.Only fits) (hq : q.Only fits) :
    (if c then p else q).Only fits := by
  split
  · exact hp
  · exact hq

theorem approvalReplay_only (input : ApprovalInput) : (approvalReplay input).Only fits := by
  rw [approvalReplay]
  refine only_bind (only_perform trivial) fun prior => ?_
  cases prior with
  | none => exact only_pure _
  | some prior =>
    dsimp only
    split
    · exact only_throw _
    · exact only_pure _

theorem publicationId_length {uuid : JsString} (h : uuid.length=36) :
    (publicationId uuid).length=48 := by
  rw [publicationId,length_append,h]
  rfl

theorem approveGamePublication_only (input : ApprovalInput) {uuid : JsString}
    (integrity : Option JsString) (at' : Nat) (h : uuid.length=36) :
    (approveGamePublication input uuid integrity at').Only fits := by
  rw [approveGamePublication]
  refine only_bind (approvalReplay_only input) fun replay => ?_
  cases replay with
  | some id => exact only_pure _
  | none =>
    refine only_bind (only_perform trivial) fun candidate => ?_
    cases candidate with
    | none => exact only_throw _
    | some candidate =>
      dsimp only
      split
      · exact only_throw _
      · cases integrity with
        | none => exact only_throw _
        | some receipt =>
          refine only_bind (only_perform (publicationId_length h)) fun answer => ?_
          cases answer with
          | ok _ => exact only_pure _
          | error _ =>
            refine only_bind (approvalReplay_only input) fun winner => ?_
            cases winner with
            | some winner => exact only_pure _
            | none => exact only_throw _

theorem afterConflict_only (id : JsString) (c : Conflict) {again : Program Outcome}
    (h : again.Only fits) : (afterConflict id c again).Only fits := by
  rw [afterConflict]
  refine only_bind (only_perform trivial) fun current => ?_
  split
  · exact only_pure _
  · split
    · exact only_pure _
    · exact h
    · trivial

theorem acceptAttempts_only (id : JsString) (generation : Nat) (attempts : List Attempt) :
    (acceptAttempts id generation attempts).Only fits := by
  induction attempts with
  | nil => exact only_pure _
  | cons a rest ih =>
    rw [acceptAttempts]
    refine only_bind (only_perform trivial) fun revision => ?_
    refine only_bind (only_perform trivial) fun ready => ?_
    split
    · exact only_pure _
    · refine only_bind (only_perform trivial) fun digest => ?_
      cases digest with
      | none => exact only_throw _
      | some digest =>
        dsimp only
        split
        · exact only_throw _
        · refine only_bind (only_perform trivial) fun answer => ?_
          cases answer with
          | ok _ => exact only_pure _
          | error c => exact afterConflict_only id c ih

theorem acceptUnchanged_only (id candidate : JsString) (generation : Nat)
    (attempts : List Attempt) :
    (acceptUnchangedGamePublication id candidate generation attempts).Only fits := by
  rw [acceptUnchangedGamePublication]
  refine only_bind (only_perform trivial) fun equal => ?_
  split
  · exact only_pure _
  · exact only_bind (acceptAttempts_only id generation attempts) fun _ => only_pure _

theorem composeGames_only (ids : List JsString) : (composeGames ids).Only fits := by
  induction ids with
  | nil => exact only_pure _
  | cons id ids ih =>
    rw [composeGames]
    refine only_bind (only_perform trivial) fun candidate => ?_
    cases candidate with
    | none => exact only_throw _
    | some candidate =>
      refine only_bind (only_perform trivial) fun preparation => ?_
      split
      · refine only_bind (only_perform trivial) fun prepared => ?_
        cases prepared with
        | none => exact only_throw _
        | some e =>
          dsimp only
          split
          · exact only_bind ih fun _ => only_pure _
          · exact only_throw _
      · exact only_throw _

variable (digest : List CompositionGame → JsString)

theorem compose_only (ids : List JsString) (intact : Bool) :
    (composePublicationArtifacts digest ids intact).Only fits := by
  rw [composePublicationArtifacts]
  split
  · refine only_bind (composeGames_only ids) fun games => ?_
    dsimp only
    split
    · split
      · exact only_bind (only_perform trivial) fun _ => only_pure _
      · exact only_throw _
    · exact only_throw _
  · exact only_throw _

theorem switchAttempts_only (id candidate game : JsString) (generation : Nat)
    (attempts : List Attempt) :
    (switchAttempts digest id candidate game generation attempts).Only fits := by
  induction attempts with
  | nil => exact only_pure _
  | cons a rest ih =>
    rw [switchAttempts]
    refine only_bind (only_perform trivial) fun head => ?_
    refine only_bind (only_perform trivial) fun ready => ?_
    split
    · exact only_pure _
    · refine only_bind (only_perform trivial) fun members => ?_
      refine only_bind (compose_only digest _ _) fun composition => ?_
      refine only_bind (only_perform trivial) fun _ => ?_
      refine only_bind (only_perform trivial) fun answer => ?_
      cases answer with
      | ok _ => exact only_pure _
      | error c => exact afterConflict_only id c ih

theorem settleOutcome_only (id : JsString) (generation : Nat) (outcome : Outcome) :
    (settleOutcome id generation outcome).Only fits := by
  cases outcome with
  | published => trivial
  | _ => exact only_perform trivial

theorem advanceExport_only (id candidate game : JsString) (generation : Nat)
    (attempts : List Attempt) :
    (advanceExport digest id candidate game generation attempts).Only fits := by
  rw [advanceExport]
  refine only_bind (only_perform trivial) fun prepared => ?_
  cases prepared with
  | none => exact only_perform trivial
  | some prepared =>
    dsimp only
    cases prepared.state with
    | verified =>
      exact only_bind (switchAttempts_only digest id candidate game generation attempts) fun o =>
        settleOutcome_only id generation o
    | failed => exact only_perform trivial
    | preparing => exact only_perform trivial

theorem advanceGamePublication_only (id : JsString) (generation at' : Nat) (w : Weather) :
    (advanceGamePublication digest id generation at' w).Only fits := by
  rw [advanceGamePublication]
  refine only_bind (only_perform trivial) fun operation => ?_
  cases operation with
  | none => exact only_throw _
  | some operation =>
    refine only_ite (only_pure _) (only_ite (only_throw _) (only_ite (only_perform trivial) ?_))
    refine only_bind (only_perform trivial) fun candidate => ?_
    cases candidate with
    | none => exact only_throw _
    | some candidate =>
      refine only_ite (only_perform trivial) (only_bind (only_perform trivial) fun prepared => ?_)
      refine only_ite (only_perform trivial) ?_
      refine only_bind (acceptUnchanged_only id _ generation _) fun outcome => ?_
      cases outcome with
      | some outcome => exact settleOutcome_only id generation outcome
      | none => exact advanceExport_only digest id _ _ generation _

theorem pauseGamePublication_only (id : JsString) (generation : Nat) (code : JsString)
    (successor : Option (Nat × JsString)) :
    (pauseGamePublication id generation code successor).Only fits := by
  refine only_bind (only_perform trivial) fun operation => ?_
  cases operation with
  | none => exact only_throw _
  | some operation =>
    cases successor with
    | some successor => exact only_perform trivial
    | none => exact only_perform trivial

theorem resumeGamePublication_only (id : JsString) (generation : Nat)
    (key request result : JsString) (at' : Nat) :
    (resumeGamePublication id generation key request result at').Only fits := by
  rw [resumeGamePublication]
  refine only_bind (only_perform trivial) fun operation => ?_
  cases operation with
  | none => exact only_throw _
  | some operation =>
    refine only_bind (only_perform trivial) fun prior => ?_
    cases prior with
    | some prior =>
      dsimp only
      split
      · exact only_throw _
      · exact only_pure _
    | none =>
      refine only_bind (only_perform trivial) fun answer => ?_
      cases answer with
      | ok _ => exact only_pure _
      | error _ =>
        refine only_bind (only_perform trivial) fun winner => ?_
        split
        · exact only_pure _
        · exact only_throw _

theorem Started.only {p : Program Unit} (h : Started digest p) : p.Only fits := by
  cases h with
  | approve input uuid integrity at' h =>
    exact only_bind (approveGamePublication_only input integrity at' h) fun _ => trivial
  | advance id generation at' w => exact advanceGamePublication_only digest id generation at' w
  | pause id generation code successor =>
    exact pauseGamePublication_only id generation code successor
  | resume id generation key request result at' =>
    exact resumeGamePublication_only id generation key request result at'
  | world op h =>
    cases op with
    | surroundings e => exact ⟨trivial,fun _ => trivial⟩
    | exportUnit c e => exact ⟨trivial,fun _ => trivial⟩
    | _ => cases h

end

def StaleGeneration (s : Store) (id : JsString) (generation : Nat) : Prop :=
  ∀p∈s.operations,p.id=id → p.generation≠generation

/-- A batch that carries a generation or a predecessor that is no longer current. -/
def Outdated (s : Store) : Op → Prop
  | .approve p => ∀c,s.candidates p.candidate_id=some c →
      c.generation≠p.candidate_generation ∨
      s.heads c.supported_game≠some c.expected_game_revision_id
  | .updateState id g _ _ | .pauseSuccessor id g _ _ | .resume id g _ _ | .retainPackage id g _ _ =>
      StaleGeneration s id g
  | .switch id g predecessor _ _ | .acceptUnchanged id g predecessor _ _ =>
      StaleGeneration s id g ∨ s.current≠predecessor
  | _ => False

theorem StaleGeneration.not_operation (h : StaleGeneration s id generation)
    (hp : s.operation id=some p) : p.generation≠generation := by
  obtain ⟨hm,hid⟩ := operation_some hp
  exact h p hm hid

theorem batch_rejected (h : ∀t,x≠.ok t) : (batch s x).2=s := by
  cases x with
  | error e => rfl
  | ok t => exact absurd rfl (h t)

theorem updateState_stale (h : StaleGeneration s id generation) (state : OperationState)
    (code : Option JsString) : s.updatePublicationState id generation state code=s := by
  rw [Store.updatePublicationState,Store.updateOperation]
  have hsame : ∀p∈s.operations,(if p.id=id then
      (if p.generation=generation ∧ p.state.isActive=true then
        { p with state := state, failure_code := code } else p) else p)=p := by
    intro p hp
    split
    · rename_i hid
      exact if_neg fun hc => h p hp hid hc.1
    · rfl
  rw [map_congr_left hsame,map_id']

theorem switchGuard_stale {predecessor composition : JsString} {now : Nat} {unchanged : Bool}
    (h : StaleGeneration s id generation ∨ s.current≠predecessor) (x : Unit) :
    s.switchGuard id generation predecessor composition now unchanged≠.ok x := by
  intro hok
  obtain ⟨p,c,hg,-⟩ := switchGuard_ok hok
  rcases h with h | h
  · exact h.not_operation hg.operation hg.generation
  · exact h hg.current

theorem approve_stale (h : Outdated s (.approve p)) : s.approve p≠.ok t := by
  intro hok
  rw [Store.approve] at hok
  obtain ⟨_,hg,-⟩ := bind_ok hok
  rw [Store.preparationGuard] at hg
  obtain ⟨_,-,hg⟩ := bind_ok hg
  obtain ⟨_,ho,hg⟩ := bind_ok hg
  obtain ⟨_,-,hg⟩ := bind_ok hg
  obtain ⟨_,hh,-⟩ := bind_ok hg
  obtain ⟨c,hc,ho⟩ := (Option.any_eq_true _ _).mp (demand_ok ho)
  obtain ⟨d,hd,hh⟩ := (Option.any_eq_true _ _).mp (demand_ok hh)
  obtain rfl := Option.some.inj (hc.symm.trans hd)
  simp only [Bool.and_eq_true,decide_eq_true_eq] at ho
  rcases h c hc with hgen | hhead
  · exact hgen ho.1.1.1.2
  · exact hhead (of_decide_eq_true hh)

theorem resume_stale {at' : Nat} {a : Action}
    (h : StaleGeneration s id generation) : s.resume id generation a at'≠.ok t := by
  intro hok
  rw [Store.resume] at hok
  obtain ⟨_,hd,-⟩ := bind_ok hok
  have hd := demand_ok hd
  rw [Bool.and_eq_true,Bool.and_eq_true,Bool.and_eq_true] at hd
  obtain ⟨p,hp,hc⟩ := (Option.any_eq_true _ _).mp hd.1.1.1
  rw [Bool.and_eq_true,Bool.and_eq_true] at hc
  exact h.not_operation hp (of_decide_eq_true hc.1.1)

theorem outdated_unchanged {op : Op} (i : Nat) (h : Outdated s op) : (handle i op s).2=s := by
  cases op with
  | approve p => exact batch_rejected fun t => approve_stale h
  | updateState id g state code => exact updateState_stale h state code
  | pauseSuccessor id g n next =>
    change s.pausePublicationSuccessor id g n next=s
    rw [Store.pausePublicationSuccessor]
    split
    · exact updateState_stale h _ _
    · rfl
  | resume id g a at' => exact batch_rejected fun t => resume_stale h
  | retainPackage id g d now =>
    refine if_neg fun hc => ?_
    obtain ⟨p,hp,hg,-⟩ := writable_true hc.1
    exact StaleGeneration.not_operation h hp hg
  | switch id g p c now =>
    refine batch_rejected fun t hok => ?_
    rw [Store.switch] at hok
    obtain ⟨x,hg,-⟩ := bind_ok hok
    exact switchGuard_stale h x hg
  | acceptUnchanged id g p c now =>
    refine batch_rejected fun t hok => ?_
    rw [Store.acceptUnchanged] at hok
    obtain ⟨x,hg,-⟩ := bind_ok hok
    exact switchGuard_stale h x hg
  | _ => cases h

/-- The current revision is the empty catalogue or has a verified backup, which is that of the
operation last accepted. -/
def Checkpointed (s : Store) : Prop :=
  s.current=spine ∨ ∃b∈s.backups,b.catalogue_revision_id=s.current ∧ b.verified=true ∧
    ∀head,s.acceptance=some head → b.publication_operation_id=some head

/-- A switch or an unchanged acceptance commits. -/
def Commits (s : Store) : Op → Prop
  | .switch id g predecessor composition now =>
    (s.switch id g predecessor composition now).isOk=true
  | .acceptUnchanged id g predecessor composition now =>
    (s.acceptUnchanged id g predecessor composition now).isOk=true
  | _ => False

theorem checkpoint_true (h : s.checkpoint s.current=true) : Checkpointed s := by
  rw [Store.checkpoint,Bool.or_eq_true] at h
  rcases h with h | h
  · exact .inl (of_decide_eq_true h)
  · obtain ⟨b,hb,hc⟩ := any_eq_true.mp h
    rw [Bool.and_eq_true,Bool.and_eq_true] at hc
    refine .inr ⟨b,hb,of_decide_eq_true hc.1.1,hc.1.2,fun head hh => ?_⟩
    have hlast := hc.2
    rw [hh] at hlast
    obtain ⟨p,hp,hlast⟩ := (Option.any_eq_true _ _).mp hlast
    rw [Bool.and_eq_true] at hlast
    have hid := (operation_some hp).2
    rw [← hid]
    exact of_decide_eq_true hlast.2

theorem commits_checkpointed {op : Op} (h : Commits s op) : Checkpointed s := by
  have hguard : ∀{id predecessor composition : JsString} {g now : Nat} {unchanged : Bool} {x : Unit},
      s.switchGuard id g predecessor composition now unchanged=.ok x → Checkpointed s := by
    intro id predecessor composition g now unchanged x hx
    obtain ⟨p,c,hg,-⟩ := switchGuard_ok hx
    have hk := hg.checkpoint
    rw [← hg.current] at hk
    exact checkpoint_true hk
  cases op with
  | switch id g p c now =>
    obtain ⟨t,hok⟩ := ok_of_isOk h
    rw [Store.switch] at hok
    obtain ⟨x,hg,-⟩ := bind_ok hok
    exact hguard hg
  | acceptUnchanged id g p c now =>
    obtain ⟨t,hok⟩ := ok_of_isOk h
    rw [Store.acceptUnchanged] at hok
    obtain ⟨x,hg,-⟩ := bind_ok hok
    exact hguard hg
  | _ => cases h

/-- A store in which nothing was approved or published yet. -/
structure Store.Unpublished (s : Store) : Prop where
  operations : s.operations=[]
  revisions : s.revisions=[]
  members : s.members=[]
  publications : s.publications=[]
  current : s.current=spine

theorem Store.Unpublished.consistent (h : s.Unpublished) : Consistent s where
  linked := by
    rw [h.revisions]
    exact h.current
  ids := by
    rw [h.revisions]
    exact nodup_nil
  composed := by
    rw [h.revisions]
    exact fun r hr => absurd hr not_mem_nil
  heads := by
    rw [h.members]
    exact fun m hm => absurd hm not_mem_nil
  publications := by
    rw [h.publications]
    exact nodup_nil
  operations := by
    rw [h.operations]
    exact nodup_nil
  lengths := by
    rw [h.operations]
    exact fun p hp => absurd hp not_mem_nil
  spineless := by
    rw [h.revisions]
    exact fun r hr => absurd hr not_mem_nil
  rooted := by
    rw [h.members]
    exact fun m hm => absurd hm not_mem_nil
  keys := by
    rw [h.members]
    exact fun m hm => absurd hm not_mem_nil
  exported := by
    rw [h.members]
    exact fun m hm => absurd hm not_mem_nil
  bound := by
    rw [h.members]
    exact fun m hm => absurd hm not_mem_nil

theorem operation_of_mem (h : Consistent s) (hp : p∈s.operations) : s.operation p.id=some p := by
  cases hf : s.operation p.id with
  | none =>
    have hno := List.find?_eq_none.mp hf p hp
    exact absurd (decide_eq_true rfl) hno
  | some q => rw [operation_unique h hf hp rfl]

abbrev Run (digest : List CompositionGame → JsString) :=
  Pool.Step (α := Unit) handle fun _ => Started digest

theorem steps_kept {digest : List CompositionGame → JsString}
    {v w : Pool Op Op.Ans Empty Problem Unit Store} (h : Relation.ReflTransGen (Run digest) v w)
    (hv : Consistent v.store) (ht : ∀p∈v.threads,p.Only fits) : Consistent w.store ∧ Settled v.store
    w.store ∧ ∀p∈w.threads,p.Only fits :=
  Pool.steps_kept (R := Settled) (fun _ _ hp => hp.only) (fun _ _ hp _ => hp)
    (fun _ _ _ => Settled.trans)
    (fun i op s hop hs => ⟨(handle_kept i op s hop hs).consistent,(handle_kept i op s hop hs).settled⟩)
    h hv ht

/-- In every interleaving of approvals, advances, pauses and resumptions, from any state reached
to any state reached after it. -/
theorem publication_switch_protocol (digest : List CompositionGame → JsString) {s : Store}
    (hs : s.Unpublished) {v w : Pool Op Op.Ans Empty Problem Unit Store}
    (hv : Pool.Reachable handle (fun _ => Started digest) s v)
    (hw : Relation.ReflTransGen (Run digest) v w) :
    (Linked w.store.revisions w.store.current ∧ (w.store.revisions.map Revision.id).Nodup) ∧
    (∀r∈w.store.revisions,Composed w.store r) ∧
    (∀id g predecessor composition now t,
      w.store.switch id g predecessor composition now=.ok t → Enters w.store t id) ∧
    (w.store.publications.map Prod.fst).Nodup ∧
    (∀p∈v.store.operations,p.state.isTerminal=true → w.store.operation p.id=some p) ∧
    (∀i op,Outdated w.store op → (handle i op w.store).2=w.store) ∧
    (∀m∈w.store.members,m.catalogue_revision_id=w.store.current →
      w.store.heads m.supported_game=some m.game_revision_id) ∧
    ∀op,Commits w.store op → Checkpointed w.store := by
  obtain ⟨hcv,-,htv⟩ := steps_kept hv hs.consistent fun p hp => absurd hp not_mem_nil
  obtain ⟨hc,hset,-⟩ := steps_kept hw hcv htv
  refine ⟨⟨hc.linked,hc.ids⟩,hc.composed,fun _ _ _ _ _ _ => switch_enters hc,hc.publications,
    fun p hp ht => ?_,fun i op => outdated_unchanged i,hc.heads,fun op => commits_checkpointed⟩
  exact operation_of_mem hc (hset p hp ht)

def compositionDigest (games : List CompositionGame) : JsString :=
  sha256Text (games.flatMap fun g => g.supported_game++g.candidate_id++g.root_digest)

def unpublished : Store where
  operations := []
  candidates _ := none
  reconciliations _ := none
  slots := []
  preparations _ := none
  exports _ := none
  heads _ := some (js "gamerev_empty".toList)
  accepted _ := none
  acceptance := none
  revisions := []
  members := []
  packages := []
  publications := []
  backups := []
  actions := []
  compositions _ := none
  current := spine
  health := ⟨true,false,true,false⟩

theorem unpublished_unpublished : unpublished.Unpublished := ⟨rfl,rfl,rfl,rfl,rfl⟩

def sealedCandidate (name : JsString) : Candidate :=
  ⟨name,js "run".toList,name,.sealed,0,name,10,js "gamerev_empty".toList,some name,none,some none,true⟩

/-- Prepared candidates `x` and `y`, of which some are published, with these backups. -/
def preparedGames (published : List JsString) (backups : List Backup) : Surroundings :=
  { candidates := fun c => some { sealedCandidate c with
      state := if c∈published then .published else .sealed }
    reconciliations := fun _ => some ⟨true,0,true⟩
    slots := [(js "x".toList,js "x".toList),(js "y".toList,js "y".toList)].filter fun slot =>
      decide (slot.1∉published)
    preparations := fun c => some ⟨c,0,true,some c⟩
    packages := []
    backups := backups
    health := ⟨true,false,true,false⟩ }

def uuidX : JsString := js "00000000-0000-4000-8000-00000000000a".toList
def uuidY : JsString := js "00000000-0000-4000-8000-00000000000b".toList

def approval (name : String) (uuid : JsString) : Program Unit :=
  approveGamePublication ⟨js name.toList,js name.toList,js "gamerev_empty".toList,0,js name.toList,
    js name.toList⟩ uuid (some (js name.toList)) 0 >>= fun _ => .ret ()

def verifiedExport (name : String) (uuid : JsString) : Program Unit :=
  .call (.exportUnit (js name.toList) ⟨publicationId uuid,revisionOf (publicationId uuid),.verified,
    some (js name.toList),1,none⟩) fun _ => .ret ()

def advance (uuid : JsString) : Program Unit :=
  advanceGamePublication compositionDigest (publicationId uuid) 0 1 ⟨true,[⟨1,true⟩],[⟨1,true⟩]⟩

/-- Two games are approved and exported; the second advances after the first was backed up. -/
def twoGames : List (Program Unit) :=
  [.call (.surroundings (preparedGames [] [])) fun _ => .ret (),
    approval "x" uuidX,approval "y" uuidY,verifiedExport "x" uuidX,verifiedExport "y" uuidY,
    advance uuidX,
    .call (.surroundings (preparedGames [js "x".toList] [⟨backupOf (publicationId uuidX),
      revisionOf (publicationId uuidX),true,some (publicationId uuidX),true⟩])) fun _ => .ret (),
    advance uuidY]

theorem twoGames_started : ∀p∈twoGames,Started compositionDigest p := by
  intro p hp
  simp only [twoGames,mem_cons,not_mem_nil,or_false] at hp
  rcases hp with rfl | rfl | rfl | rfl | rfl | rfl | rfl | rfl
  · exact .world _ rfl
  · exact .approve _ _ _ _ rfl
  · exact .approve _ _ _ _ rfl
  · exact .world _ rfl
  · exact .world _ rfl
  · exact .advance _ _ _ _
  · exact .world _ rfl
  · exact .advance _ _ _ _

def switchOrder : List Nat :=
  [0]++List.replicate 4 1++List.replicate 4 2++[3,4]++List.replicate 20 5++[6]++List.replicate 20 7

def bothSwitched : Pool Op Op.Ans Empty Problem Unit Store :=
  Pool.play handle unpublished twoGames switchOrder

theorem bothSwitched_reachable :
    Pool.Reachable handle (fun _ => Started compositionDigest) unpublished bothSwitched := by
  rw [bothSwitched]
  exact @Pool.reachable_play _ _ _ _ _ _ handle (fun _ => Started compositionDigest) unpublished
    twoGames twoGames_started switchOrder

theorem publication_switch_protocol_twoGames : bothSwitched.store.revisions.length=2 ∧
    bothSwitched.store.members.length=3 ∧
    ∀r∈bothSwitched.store.revisions,Composed bothSwitched.store r :=
  ⟨by decide +kernel,by decide +kernel,(publication_switch_protocol compositionDigest
    unpublished_unpublished bothSwitched_reachable .refl).2.1⟩

end CardKeepr.Publication
