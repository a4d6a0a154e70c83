import CardKeepr.Reconciliation.IdentityReplays

namespace CardKeepr.Reconciliation.Identity

open Lib Shared List Durable

variable {v : List AssociationStep} {size after association : Nat}

/-- Pinned decisions as they are stored: in the order of their sequence numbers, their texts read
back from canonical JSON, and small enough for the loop and for whole rows. -/
structure Readable (nfc : Nfc) (rows : List CorrectionRow) : Prop where
  sorted : rows.Pairwise fun a b => a.sequence < b.sequence
  positive : ∀r∈rows,0 < r.sequence
  bounded : ∀r∈rows,decisionBound nfc r.request=.ok ()
  identities : ∀r∈rows,∀e∈r.associations nfc,∃target,e.value=.str target ∧ IsIdentity nfc target
  steady : ∀r∈rows,∀e∈r.associations nfc,∀e'∈r.associations nfc,SamePlace e e' → e.value=e'.value

variable {nfc : Nfc}

def lastSequence (rows : List CorrectionRow) : Nat := (rows.getLast?.map (·.sequence)).getD 0

/-- Where `after` and `association` stand in the pinned rows when the steps `v` are left. -/
def Tracks (nfc : Nfc) (rows : List CorrectionRow) (after association : Nat)
    (v : List AssociationStep) : Prop :=
  ∃pre post,rows=pre++post ∧ after=lastSequence pre ∧
    (v=stepsOf nfc post ∧ association=0 ∨
      ∃r rest,post=r::rest ∧ v=r.inner nfc association++stepsOf nfc rest)

attribute [local simp] performActs walk associationsAttempt

theorem Tracks.begins {rows : List CorrectionRow} (h : Tracks nfc rows after association (.begins size::v)) :
    Tracks nfc rows after association v := by
  obtain ⟨pre,post,hrows,hafter,⟨hv,h0⟩ | ⟨r,rest,-,hv⟩⟩ := h
  · cases post with
    | nil => cases hv
    | cons r rest =>
      have hs : stepsOf nfc (r::rest)=.begins (r.size nfc)::(r.inner nfc 0++stepsOf nfc rest) := rfl
      rw [hs] at hv
      refine ⟨pre,r::rest,hrows,hafter,.inr ⟨r,rest,rfl,?_⟩⟩
      rw [(List.cons.inj hv).2,h0]
  · rw [CorrectionRow.inner] at hv
    cases hd : (r.associations nfc).drop association with
    | nil =>
      rw [hd] at hv
      cases hv
    | cons e es =>
      rw [hd] at hv
      cases hv

theorem Tracks.sets {rows : List CorrectionRow} {e : ReducerEntry} (h : Tracks nfc rows after association (.sets size e::v)) :
    Tracks nfc rows after (association+1) v := by
  obtain ⟨pre,post,hrows,hafter,⟨hv,-⟩ | ⟨r,rest,hpost,hv⟩⟩ := h
  · cases post with
    | nil => cases hv
    | cons r rest => cases hv
  · refine ⟨pre,post,hrows,hafter,.inr ⟨r,rest,hpost,?_⟩⟩
    rw [CorrectionRow.inner] at hv ⊢
    cases hd : (r.associations nfc).drop association with
    | nil =>
      rw [hd] at hv
      cases hv
    | cons e' es =>
      have hnext : (r.associations nfc).drop (association+1)=es := by
        rw [←drop_drop,hd,drop_one,tail_cons]
      rw [hd] at hv
      rw [hnext]
      exact (List.cons.inj hv).2

theorem Tracks.ends {rows : List CorrectionRow} {sequence : Nat} (h : Tracks nfc rows after association (.ends sequence::v)) :
    Tracks nfc rows sequence 0 v := by
  obtain ⟨pre,post,hrows,hafter,⟨hv,-⟩ | ⟨r,rest,hpost,hv⟩⟩ := h
  · cases post with
    | nil => cases hv
    | cons r rest => cases hv
  · rw [CorrectionRow.inner] at hv
    cases hd : (r.associations nfc).drop association with
    | nil =>
      rw [hd] at hv
      obtain ⟨hseq,hv⟩ := List.cons.inj hv
      refine ⟨pre++[r],rest,?_,?_,.inl ⟨hv,rfl⟩⟩
      · rw [hrows,hpost,append_assoc,singleton_append]
      · rw [lastSequence,List.getLast?_append]
        exact AssociationStep.ends.inj hseq
    | cons e es =>
      rw [hd] at hv
      cases hv

theorem lastSequence_below {rows pre post : List CorrectionRow} {r : CorrectionRow}
    (hr : Readable nfc rows) (h : rows=pre++post) :
    (r∈pre → r.sequence ≤ lastSequence pre) ∧ (r∈post → lastSequence pre < r.sequence) := by
  have hs := hr.sorted
  rw [h,pairwise_append] at hs
  rcases eq_nil_or_concat pre with rfl | ⟨init,q,rfl⟩
  · refine ⟨fun hm => (not_mem_nil hm).elim,fun hm => ?_⟩
    exact hr.positive r (by rw [h]; exact hm)
  · have hl : lastSequence (init.concat q)=q.sequence := by
      rw [lastSequence,concat_eq_append,List.getLast?_append]
      rfl
    rw [hl]
    refine ⟨fun hm => ?_,fun hm => hs.2.2 q (by simp) r hm⟩
    rw [concat_eq_append] at hm hs
    rcases mem_append.mp hm with hm | hm
    · exact Nat.le_of_lt ((pairwise_append.mp hs.1).2.2 r hm q mem_cons_self)
    · rw [mem_singleton.mp hm]

theorem rows_after {rows pre post : List CorrectionRow} (hr : Readable nfc rows)
    (h : rows=pre++post) : rows.filter (fun r => decide (lastSequence pre < r.sequence))=post := by
  rw [h,filter_append]
  have h1 : pre.filter (fun r => decide (lastSequence pre < r.sequence))=[] := by
    rw [filter_eq_nil_iff]
    intro r hm hc
    have := (lastSequence_below hr h).1 hm
    have := of_decide_eq_true hc
    omega
  have h2 : post.filter (fun r => decide (lastSequence pre < r.sequence))=post := by
    rw [filter_eq_self]
    intro r hm
    exact decide_eq_true ((lastSequence_below hr h).2 hm)
  rw [h1,h2,nil_append]

theorem Tracks.resumes {rows : List CorrectionRow} (hr : Readable nfc rows) (h : Tracks nfc rows after association v)
    (hv : ∀sequence us,v≠.ends sequence::us) :
    stepsFrom nfc (rows.filter fun r => decide (after < r.sequence)) association=
      match openSize v with
      | some size => .begins size::v
      | none => v := by
  obtain ⟨pre,post,hrows,rfl,⟨rfl,rfl⟩ | ⟨r,rest,rfl,rfl⟩⟩ := h
  · rw [rows_after hr hrows,stepsFrom_zero]
    cases post with
    | nil => rfl
    | cons r rest => rfl
  · rw [rows_after hr hrows,stepsFrom]
    rw [CorrectionRow.inner] at hv ⊢
    cases hd : (r.associations nfc).drop association with
    | nil =>
      rw [hd] at hv
      exact (hv _ _ rfl).elim
    | cons e es => rfl

/-- The latest checkpoint leaves the steps `us`. -/
structure Retained (nfc : Nfc) (rows : List CorrectionRow) (s : ResolverStore)
    (us : List AssociationStep) (position : Nat) : Prop where
  pending : s.cursor.complete=false
  merges : s.cursor.merges=position
  assignments : s.cursor.assignments=position
  tracks : Tracks nfc rows s.cursor.after s.cursor.association us
  head : ∀sequence v,us≠.ends sequence::v
  falls : Falls (stepsOf nfc rows) us

theorem Retained.reducer {rows : List CorrectionRow} {s : ResolverStore}
    {us : List AssociationStep} {position : Nat} (h : Retained nfc rows s us position)
    (u : ReducerStore) : Retained nfc rows { s with reducer := u } us position :=
  ⟨h.pending,h.merges,h.assignments,h.tracks,h.head,h.falls⟩

/-- The loop is done and its tables hold what the decisions set. -/
structure Done (nfc : Nfc) (rows : List CorrectionRow) (s : ResolverStore) : Prop where
  complete : s.cursor.complete=true
  tables : Tables nfc rows s.cursor.indexes s

/-- What every attempt finds and leaves; `n` bounds the steps that are left. -/
def Resting (nfc : Nfc) (rows : List CorrectionRow) (warm : Prop) (n : Nat) (s : ResolverStore) :
    Prop :=
  Done nfc rows s ∨ ∃us done g shift,us.length < n ∧ Retained nfc rows s us (g+shift) ∧
    effects 0 (stepsOf nfc rows)=done++effects g us ∧
    Held (effects 0 (stepsOf nfc rows)) warm s.reducer.state done us g shift

theorem Resting.mono {rows : List CorrectionRow} {warm : Prop} {m n : Nat} {s : ResolverStore}
    (h : Resting nfc rows warm m s) (hm : m ≤ n) : Resting nfc rows warm n s := by
  rcases h with h | ⟨us,done,g,shift,hl,h⟩
  · exact .inl h
  · exact .inr ⟨us,done,g,shift,lt_of_lt_of_le hl hm,h⟩

/-- An attempt under way from the checkpoint that leaves `us`, with `v` before it. -/
structure Running (nfc : Nfc) (rows : List CorrectionRow) (warm : Prop) (s : ResolverStore)
    (xs : Indexes) (ls : AssociationLoop) (done : List (Nat × ReducerEntry))
    (us : List AssociationStep) (g shift κ : Nat) (t v : List AssociationStep) : Prop where
  leg : Leg (effects 0 (stepsOf nfc rows)) warm s.reducer.state done us g shift κ t v ls.work
    ls.bytes
  retained : Retained nfc rows s us (g+shift)
  tracks : Tracks nfc rows ls.after ls.association v
  merges : View s.reducer.state correctionMerges (xs correctionMerges) (begun g t+κ)
    (effects (begun g t) v)
  assignments : View s.reducer.state correctionAssignments (xs correctionAssignments)
    (begun g t+κ) (effects (begun g t) v)
  ordinal : s.checkpoints.length=ls.ordinal

/-- What is shown of the end of an attempt. -/
structure Ends (nfc : Nfc) (rows : List CorrectionRow) (warm : Prop) (budget : Option Nat)
    (m n : Nat) (r : Ended × ResolverStore) : Prop where
  rests : Resting nfc rows warm m r.2
  unfailed : ∀e,r.1≠.failed e
  completed : ∀xs,r.1=.completed xs → Done nfc rows r.2 ∧ Tables nfc rows xs r.2
  uncut : budget=none → r.1≠.crashed
  onward : ∀o,r.1=.continuation o → Resting nfc rows warm n r.2

section
variable {rows : List CorrectionRow} {warm : Prop} {s : ResolverStore} {xs : Indexes}
  {ls : AssociationLoop} {done : List (Nat × ReducerEntry)} {us t v : List AssociationStep}
  {g shift κ m : Nat}

theorem Running.rests (h : Running nfc rows warm s xs ls done us g shift κ t v)
    (hm : us.length < m) : Resting nfc rows warm m s :=
  .inr ⟨us,done,g,shift,hm,h.retained,h.leg.entries,h.leg.held⟩

theorem Running.length (h : Running nfc rows warm s xs ls done us g shift κ t v) :
    v.length ≤ us.length := by
  rw [h.leg.split,length_append]
  omega

theorem Ends.mono {budget : Option Nat} {n n' : Nat} {r : Ended × ResolverStore}
    (h : Ends nfc rows warm budget m n r) (hn : n ≤ n') : Ends nfc rows warm budget m n' r :=
  ⟨h.rests,h.unfailed,h.completed,h.uncut,fun o ho => (h.onward o ho).mono hn⟩

theorem Running.begins {size : Nat}
    (h : Running nfc rows warm s xs ls done us g shift κ t (.begins size::v)) (hd : ¬ls.due size) :
    Running nfc rows warm s (Indexes.beginBoth xs) (ls.entered size) done us g shift κ
    (t++[.begins size]) v := by
  have hbegun : begun g (t++[.begins size])=begun g t+1 := by
    rw [begun_append]
    rfl
  have hpend : ∀n d r,s.reducer.state n d (begun g t+1+κ)=some r →
      ∃p∈effects (begun g t+1) v,At p.2 n d := fun n d r hr => h.leg.pending hr
  refine ⟨h.leg.begins hd,h.retained,h.tracks.begins,?_,?_,h.ordinal⟩
  · rw [hbegun]
    refine view_begun ?_ (hpend _)
    rw [h.merges.ordinal]
    omega
  · rw [hbegun]
    refine view_begun ?_ (hpend _)
    rw [h.assignments.ordinal]
    omega

theorem Running.ends {sequence : Nat}
    (h : Running nfc rows warm s xs ls done us g shift κ t (.ends sequence::v)) :
    Running nfc rows warm s xs (ls.decided sequence) done us g shift κ (t++[.ends sequence]) v := by
  have hbegun : begun g (t++[.ends sequence])=begun g t := by
    rw [begun_append]
    rfl
  refine ⟨h.leg.ends,h.retained,h.tracks.ends,?_,?_,h.ordinal⟩
  · rw [hbegun]
    exact h.merges
  · rw [hbegun]
    exact h.assignments

theorem spaces_of_association {r : CorrectionRow} {e : ReducerEntry} (h : e∈r.associations nfc) :
    e.space=correctionMerges ∨ e.space=correctionAssignments := by
  rcases mem_append.mp h with h | h
  · obtain ⟨p,-,rfl⟩ := mem_map.mp h
    exact .inl rfl
  · obtain ⟨p,-,rfl⟩ := mem_map.mp h
    exact .inr rfl

theorem Running.sets {size : Nat} {e : ReducerEntry}
    (h : Running nfc rows warm s xs ls done us g shift κ t (.sets size e::v)) (hw : ¬8 ≤ ls.work)
    (hr : Readable nfc rows) (hcalm : warm → Undisturbed nfc rows) :
    ∃xs',(alone (plain ReducerStore.refer) (set nfc xs e) s.reducer).result=.ok xs' ∧
      Running nfc rows warm
        { s with reducer := (alone (plain ReducerStore.refer) (set nfc xs e) s.reducer).store }
        xs' ls.associated done us g shift κ (t++[.sets size e]) v := by
  have hus : (begun g t,e)∈effects g us := by
    rw [h.leg.split,effects_append,effects]
    exact mem_append_right _ mem_cons_self
  obtain ⟨hpos,row,hrow,hassoc⟩ := mem_effects_rows (h.leg.mem_all hus)
  obtain ⟨target,he,hid⟩ := hr.identities row hrow e hassoc
  have hsteady := steady_rows hr.steady 0
  have hcalm : warm → Calm us g := by
    intro hwarm size' ho i e1 e2 h1 h2 hp
    obtain ⟨k,rfl,hk⟩ := mem_effects_shift.mp h1
    obtain ⟨k',hk',hk2⟩ := mem_effects_shift.mp h2
    have hkk : k'=k+1 := by omega
    subst hkk
    exact hcalm hwarm us size' h.retained.falls ho k e1 e2 hk hk2 hp
  have hord : (xs e.space).ordinal=begun g t+κ := by
    rcases spaces_of_association hassoc with hs | hs
    · rw [hs]
      exact h.merges.ordinal
    · rw [hs]
      exact h.assignments.ordinal
  have h0 : (xs e.space).ordinal≠0 := by omega
  have hmeets : ∀r,s.reducer.state e.space (sha256Text e.key) (begun g t+κ)=some r →
      r=entryRow e := fun r hr => h.leg.meets hw hsteady hcalm hr
  have hentry : entryRow e=identityRow target := by rw [entryRow,he]
  obtain ⟨hstore,hok,-⟩ := set_identity hid he h0 s.reducer
  have hres := hok <| by
    show s.reducer.state e.space (sha256Text e.key) (xs e.space).ordinal=none ∨ _
    rw [hord]
    cases hc : s.reducer.state e.space (sha256Text e.key) (begun g t+κ) with
    | none => exact .inl rfl
    | some r =>
      refine .inr ?_
      show s.reducer.state e.space (sha256Text e.key) (xs e.space).ordinal=_
      rw [hord,hc,hmeets r hc,hentry]
  have hstate : (alone (plain ReducerStore.refer) (set nfc xs e) s.reducer).store.state=
      setRow s.reducer.state e (begun g t+κ) := by
    funext n d o
    rw [hstore,retainReducerState_state hid,setRow,hentry,hord]
  have hbegun : begun g (t++[.sets size e])=begun g t := by
    rw [begun_append]
    rfl
  refine ⟨_,hres,?_,h.retained.reducer _,h.tracks.sets,?_,?_,h.ordinal⟩
  · rw [hstate]
    exact h.leg.sets hw hsteady hcalm
  · rw [hstate,hbegun]
    exact h.merges.sets he hmeets
  · rw [hstate,hbegun]
    exact h.assignments.sets he hmeets

def ResolverStore.retain (s : ResolverStore) (c : AssociationCursor) : ResolverStore :=
  { s with checkpoints := s.checkpoints++[c] }

theorem retain_cursor (s : ResolverStore) (c : AssociationCursor) : (s.retain c).cursor=c := by
  rw [ResolverStore.cursor,ResolverStore.retain,List.getLast?_append]
  rfl

theorem retainCheckpoint_next {s : ResolverStore} {ordinal : Nat} (h : s.checkpoints.length=ordinal)
    (c : AssociationCursor) : retainCheckpoint ordinal c s=(true,s.retain c) := by
  have hn : s.checkpoints[ordinal]?=none := List.getElem?_eq_none (by omega)
  rw [retainCheckpoint,hn]
  rfl

theorem Running.saves (h : Running nfc rows warm s xs ls done us g shift κ t v)
    (hd : stretch ls.work ls.bytes v=[]) (hv : ∀sequence us,v≠.ends sequence::us) :
    let c : AssociationCursor := ⟨ls.after,ls.association,(xs correctionMerges).ordinal,
      (xs correctionAssignments).ordinal,ls.processedDecisions,false⟩
    Resting nfc rows warm (v.length+1) (s.retain c) ∧ (warm →
      Running nfc rows warm (s.retain c) xs { ls.saved with bytes := (openSize v).getD 0 }
        (done++effects g t) v (begun g t) κ κ [] v) := by
  intro c
  have hc := retain_cursor s c
  have hfalls : Falls (stepsOf nfc rows) v := by
    rcases h.leg.kind with ⟨-,hs,-⟩ | ⟨-,size,ho,hs⟩
    · refine .goesOn h.retained.falls ?_
      rw [hs,hd,append_nil]
      exact h.leg.split
    · refine .restarts h.retained.falls ho ?_
      rw [hs,hd,append_nil]
      exact h.leg.split
  have hret : Retained nfc rows (s.retain c) v (begun g t+κ) := by
    refine ⟨?_,?_,?_,?_,hv,hfalls⟩
    · rw [hc]
    · rw [hc]
      exact h.merges.ordinal
    · rw [hc]
      exact h.assignments.ordinal
    · rw [hc]
      exact h.tracks
  refine ⟨.inr ⟨v,_,_,_,Nat.lt_succ_self _,hret,h.leg.rest,h.leg.finish hd⟩,fun hwarm => ?_⟩
  refine ⟨h.leg.goesOn hd fun _ => hwarm,hret,h.tracks,h.merges,h.assignments,?_⟩
  rw [ResolverStore.retain,length_append,h.ordinal]
  rfl

/-- The checkpoint at the end of the loop, and the tables that it completes. -/
theorem Running.completes (h : Running nfc rows warm s xs ls done us g shift κ t [])
    (hr : Readable nfc rows) :
    let c : AssociationCursor := ⟨ls.after,ls.association,(xs correctionMerges).ordinal,
      (xs correctionAssignments).ordinal,ls.processedDecisions,true⟩
    Done nfc rows (s.retain c) ∧ Tables nfc rows xs (s.retain c) := by
  intro c
  have hc := retain_cursor s c
  have hd : stretch ls.work ls.bytes []=[] := rfl
  have hheld := h.leg.finish hd
  have hall := h.leg.rest
  rw [effects,append_nil] at hall
  have hpast : ∀n d,latestBelow (s.reducer.state n d) (begun g t+κ+1)=
      (lastSet (effects 0 (stepsOf nfc rows)) n d).map entryRow := by
    intro n d
    rcases hheld.past n d with hp | ⟨e,he,-⟩
    · rw [hall]
      exact hp
    · cases he
  have hzero : ∀n d,begun g t+κ=0 →
      latestBelow (s.reducer.state n d) (begun g t+κ+1)=none := by
    intro n d h0
    rw [latestBelow]
    cases hrow : s.reducer.state n d (begun g t+κ) with
    | some r =>
      obtain ⟨e,he,-⟩ := hheld.now n d r hrow
      have := (mem_effects_rows he).1
      omega
    | none => rw [h0,latestBelow]
  have hid : ∀n d e,lastSet (effects 0 (stepsOf nfc rows)) n d=some e →
      ∃target,e.value=.str target ∧ IsIdentity nfc target := by
    intro n d e he
    rw [lastSet_all] at he
    obtain ⟨r,hrow,he⟩ := mem_flatMap.mp (mem_reverse.mp (List.mem_of_find?_eq_some he))
    exact hr.identities r hrow e he
  have htables : ∀ys : Indexes,
      View s.reducer.state correctionMerges (ys correctionMerges) (begun g t+κ) [] →
      View s.reducer.state correctionAssignments (ys correctionAssignments) (begun g t+κ) [] →
      Tables nfc rows ys (s.retain c) := by
    intro ys hm ha name
    obtain ⟨ht1,ht2⟩ := @lastSet_table nfc rows (sha256Text name)
    have hassoc : associationsOf nfc rows=_ := associationsOf_append rows ⟨[],[]⟩
    constructor
    · have hg := get_view name hm (hpast _ _) (hzero _ _) (hid _ _)
      rw [lastSet_all,ht1,Option.map_map] at hg
      rw [hassoc,append_nil]
      exact hg
    · have hg := get_view name ha (hpast _ _) (hzero _ _) (hid _ _)
      rw [lastSet_all,ht2,Option.map_map] at hg
      rw [hassoc,append_nil,append_nil]
      exact hg
  refine ⟨⟨by rw [hc],?_⟩,htables xs h.merges h.assignments⟩
  rw [hc]
  refine htables _ ?_ ?_
  · have hi : c.indexes correctionMerges=.resumeAt (begun g t+κ) := by
      rw [AssociationCursor.indexes,if_pos rfl]
      exact congrArg _ h.merges.ordinal
    rw [hi]
    exact view_reopened _ _ _ _
  · have hi : c.indexes correctionAssignments=.resumeAt (begun g t+κ) := by
      rw [AssociationCursor.indexes,if_neg merges_ne.symm,if_pos rfl]
      exact congrArg _ h.assignments.ordinal
    rw [hi]
    exact view_reopened _ _ _ _

theorem stretch_due {us : List AssociationStep} {size : Nat} (h : ls.due size) :
    stretch ls.work ls.bytes (.begins size::us)=[] := by
  rw [stretch]
  exact if_pos h

theorem walk_begins (size : Nat) (us : List AssociationStep) (ls : AssociationLoop)
    (h : ¬ls.due size) : walk (.begins size::us) ls=.beginObservation::walk us (ls.entered size) := by
  rw [walk,if_neg h]

theorem walk_sets (size : Nat) (e : ReducerEntry) (us : List AssociationStep)
    (ls : AssociationLoop) (h : ¬8 ≤ ls.work) :
    walk (.sets size e::us) ls=.set e::walk us ls.associated := by rw [walk,if_neg h]

theorem not_due_saved (ls : AssociationLoop) (bytes size : Nat) :
    ¬AssociationLoop.due { ls.saved with bytes := bytes } size := fun h => Nat.lt_irrefl 0 h.1

section
variable {yieldAtCheckpoint : Bool} {budget : Option Nat}

theorem perform_cut (acts : List AssociationAct) (ls : AssociationLoop) (complete : Bool)
    (xs : Indexes) (s : ResolverStore) : performActs nfc yieldAtCheckpoint (some 0)
      (ls.saving complete::acts) xs s=(.crashed,s) := by
  simp [AssociationLoop.saving,performActs]

theorem perform_set_cut (acts : List AssociationAct) (e : ReducerEntry) (xs : Indexes)
    (s : ResolverStore) :
    performActs nfc yieldAtCheckpoint (some 0) (.set e::acts) xs s=(.crashed,s) := by
  simp [performActs]

theorem perform_set (hb : budget≠some 0) {e : ReducerEntry} {acts : List AssociationAct}
    {xs xs' : Indexes} {s : ResolverStore}
    (h : (alone (plain ReducerStore.refer) (set nfc xs e) s.reducer).result=.ok xs') : performActs
    nfc yieldAtCheckpoint budget (.set e::acts) xs s= performActs nfc yieldAtCheckpoint
    (budget.map (·-1)) acts xs' { s with reducer :=
          (alone (plain ReducerStore.refer) (set nfc xs e) s.reducer).store } := by
  cases budget with
  | none => simp [performActs,h]
  | some k =>
    cases k with
    | zero => exact absurd rfl hb
    | succ k => simp [performActs,h]

theorem perform_save (hb : budget≠some 0) {acts : List AssociationAct} {ls : AssociationLoop}
    {complete : Bool} {xs : Indexes} {s : ResolverStore} (h : s.checkpoints.length=ls.ordinal) :
    performActs nfc yieldAtCheckpoint budget (ls.saving complete::acts) xs s=
      if yieldAtCheckpoint=true then (.continuation ls.ordinal,s.retain ⟨ls.after,ls.association,
        (xs correctionMerges).ordinal,(xs correctionAssignments).ordinal,ls.processedDecisions,
        complete⟩)
      else performActs nfc yieldAtCheckpoint (budget.map (·-1)) acts xs (s.retain ⟨ls.after,
        ls.association,(xs correctionMerges).ordinal,(xs correctionAssignments).ordinal,
        ls.processedDecisions,complete⟩) := by
  cases budget with
  | none => simp [AssociationLoop.saving,performActs,retainCheckpoint_next h]
  | some k =>
    cases k with
    | zero => exact absurd rfl hb
    | succ k => simp [AssociationLoop.saving,performActs,retainCheckpoint_next h]

theorem perform_begin (acts : List AssociationAct) (xs : Indexes) (s : ResolverStore) :
    performActs nfc yieldAtCheckpoint budget (.beginObservation::acts) xs s=
      performActs nfc yieldAtCheckpoint budget acts (Indexes.beginBoth xs) s := by
  cases budget with
  | none => rw [performActs]
  | some k =>
    cases k with
    | zero => rw [performActs]
    | succ k => rw [performActs]

theorem ends_crashed {n : Nat} (h : Resting nfc rows warm m s) :
    Ends nfc rows warm (some 0) m n (.crashed,s) :=
  ⟨h,fun _ hc => (by cases hc),fun _ hc => (by cases hc),fun hc => (by cases hc),fun _ hc => (by cases hc)⟩

theorem Running.due (hwarm : yieldAtCheckpoint=false → warm) (hm : us.length < m)
    (h : Running nfc rows warm s xs ls done us g shift κ t v)
    (hd : stretch ls.work ls.bytes v=[]) (hv : ∀sequence us,v≠.ends sequence::us)
    (hwalk : walk v ls= ls.saving false::walk v { ls.saved with bytes := (openSize v).getD 0 })
    (hgo : ∀b s',Running nfc rows warm s' xs { ls.saved with bytes := (openSize v).getD 0 }
        (done++effects g t) v (begun g t) κ κ [] v → (budget=none → b=none) →
      Ends nfc rows warm b m (v.length+1) (performActs nfc yieldAtCheckpoint b
        (walk v { ls.saved with bytes := (openSize v).getD 0 }) xs s')) :
    Ends nfc rows warm budget m (v.length+1)
      (performActs nfc yieldAtCheckpoint budget (walk v ls) xs s) := by
  obtain ⟨hrest,hnext⟩ := h.saves hd hv
  have hvm : v.length+1 ≤ m := lt_of_le_of_lt h.length hm
  rw [hwalk]
  by_cases hb : budget=some 0
  · rw [hb,perform_cut]
    exact ends_crashed (h.rests hm)
  · rw [perform_save hb h.ordinal]
    split
    · exact ⟨hrest.mono hvm,fun _ hc => (by cases hc),fun _ hc => (by cases hc),
        fun _ hc => (by cases hc),fun _ _ => hrest⟩
    · rename_i hy
      have hy : yieldAtCheckpoint=false := by simpa using hy
      have hmap : budget=none → budget.map (·-1)=none := by
        rintro rfl
        rfl
      have he := hgo _ _ (hnext (hwarm hy)) hmap
      exact ⟨he.rests,he.unfailed,he.completed,fun hn => he.uncut (hmap hn),he.onward⟩

theorem Running.takesSet {size n : Nat} {e : ReducerEntry} (hr : Readable nfc rows)
    (hcalm : warm → Undisturbed nfc rows) (hm : us.length < m)
    (h : Running nfc rows warm s xs ls done us g shift κ t (.sets size e::v)) (hw : ¬8 ≤ ls.work)
    (hgo : ∀b xs' s',Running nfc rows warm s' xs' ls.associated done us g shift κ
        (t++[.sets size e]) v →
      Ends nfc rows warm b m n (performActs nfc yieldAtCheckpoint b (walk v ls.associated) xs' s')) :
    Ends nfc rows warm budget m n
      (performActs nfc yieldAtCheckpoint budget (walk (.sets size e::v) ls) xs s) := by
  rw [walk_sets size e v ls hw]
  by_cases hb : budget=some 0
  · rw [hb,perform_set_cut]
    exact ends_crashed (h.rests hm)
  · obtain ⟨xs',hok,h'⟩ := h.sets hw hr hcalm
    rw [perform_set hb hok]
    have he := hgo (budget.map (·-1)) _ _ h'
    refine ⟨he.rests,he.unfailed,he.completed,fun hn => he.uncut ?_,he.onward⟩
    rw [hn]
    rfl

theorem Running.finishes {n : Nat} (hr : Readable nfc rows) (hm : us.length < m)
    (h : Running nfc rows warm s xs ls done us g shift κ t []) :
    Ends nfc rows warm budget m n (performActs nfc yieldAtCheckpoint budget (walk [] ls) xs s) := by
  rw [walk]
  obtain ⟨hdone,htables⟩ := h.completes hr
  by_cases hb : budget=some 0
  · rw [hb,perform_cut]
    exact ends_crashed (h.rests hm)
  · rw [perform_save hb h.ordinal]
    split
    · exact ⟨.inl hdone,fun _ hc => (by cases hc),fun _ hc => (by cases hc),
        fun _ hc => (by cases hc),fun _ _ => .inl hdone⟩
    · rw [performActs]
      refine ⟨.inl hdone,fun _ hc => (by cases hc),fun ys hc => ?_,fun _ hc => (by cases hc),
        fun _ hc => (by cases hc)⟩
      cases hc
      exact ⟨hdone,htables⟩

theorem Running.walks (hr : Readable nfc rows) (hcalm : warm → Undisturbed nfc rows)
    (hwarm : yieldAtCheckpoint=false → warm) (hm : us.length < m)
    (h : Running nfc rows warm s xs ls done us g shift κ t v) : Ends nfc rows warm budget m
    (v.length+1) (performActs nfc yieldAtCheckpoint budget (walk v ls) xs s) := by
  induction v generalizing s xs ls done us g shift κ t budget with
  | nil =>
    exact h.finishes hr hm
  | cons u v ih =>
    cases u with
    | ends sequence =>
      rw [walk]
      exact (ih hm h.ends).mono (Nat.le_succ _)
    | begins size =>
      by_cases hd : ls.due size
      · refine h.due hwarm hm (stretch_due hd) (fun _ _ hc => by cases hc) ?_ fun b s' h' _ => ?_
        · rw [walk,if_pos hd,walk_begins _ _ _ (not_due_saved ls _ size)]
          rfl
        · rw [walk_begins _ _ _ (not_due_saved ls _ size),perform_begin]
          exact (ih (lt_of_le_of_lt h.length hm) (h'.begins (not_due_saved ls _ size))).mono (Nat.le_succ _)
      · rw [walk_begins size v ls hd,perform_begin]
        exact (ih hm (h.begins hd)).mono (Nat.le_succ _)
    | sets size e =>
      have hset : ∀{s : ResolverStore} {ls done us g shift κ t} (b : Option Nat),us.length < m →
          Running nfc rows warm s xs ls done us g shift κ t (.sets size e::v) → ¬8 ≤ ls.work →
          Ends nfc rows warm b m (v.length+2)
            (performActs nfc yieldAtCheckpoint b (walk (.sets size e::v) ls) xs s) := by
        intro s ls done us g shift κ t b hm h hw
        refine (h.takesSet hr hcalm hm hw fun b' xs' s' h' => ?_).mono (Nat.le_succ _)
        exact ih hm h'
      by_cases hw : 8 ≤ ls.work
      · refine h.due hwarm hm (by rw [stretch,if_pos hw]) (fun _ _ hc => by cases hc) ?_
          fun b s' h' _ => hset b (lt_of_le_of_lt h.length hm) h' (Nat.not_succ_le_zero 7)
        rw [walk,if_pos hw,walk_sets _ _ _ _ (Nat.not_succ_le_zero 7)]
        rfl
      · exact hset budget hm h hw

/-- An attempt from a checkpoint ends with the tables complete, or leaves less to do. -/
theorem attempt_ends {pin : CorrectionPin} {decisions : List CorrectionRow} {m : Nat}
    (hr : Readable nfc (pinnedCorrectionRows pin decisions)) (hpin : pin.decision_cutoff≠0)
    (hcalm : warm → Undisturbed nfc (pinnedCorrectionRows pin decisions))
    (hwarm : yieldAtCheckpoint=false → warm)
    (h : Resting nfc (pinnedCorrectionRows pin decisions) warm m s) :
    Ends nfc (pinnedCorrectionRows pin decisions) warm budget m (m-1)
      (associationsAttempt nfc pin decisions yieldAtCheckpoint budget s) := by
  rw [associationsAttempt,if_neg hpin]
  rcases h with hdone | ⟨us,done,g,shift,hm,hret,hall,hheld⟩
  · rw [if_pos hdone.complete]
    refine ⟨.inl hdone,fun _ hc => (by cases hc),fun ys hc => ?_,fun _ hc => (by cases hc),
      fun _ hc => (by cases hc)⟩
    cases hc
    exact ⟨hdone,hdone.tables⟩
  · rw [if_neg (by rw [hret.pending]; exact Bool.false_ne_true)]
    have hbound : ∀r∈(pinnedCorrectionRows pin decisions).filter
        (fun r => decide (s.cursor.after < r.sequence)),decisionBound nfc r.request=.ok () :=
      fun r hm => hr.bounded r (mem_filter.mp hm).1
    rw [AssociationCursor.acts,decideRows_walk hbound]
    dsimp only
    rw [hret.tracks.resumes hr hret.head]
    have hm1 : s.cursor.indexes correctionMerges=.resumeAt (g+shift) := by
      rw [AssociationCursor.indexes,if_pos rfl,hret.merges]
    have hm2 : s.cursor.indexes correctionAssignments=.resumeAt (g+shift) := by
      rw [AssociationCursor.indexes,if_neg merges_ne.symm,if_pos rfl,hret.assignments]
    cases us with
    | nil =>
      have hrun : Running nfc (pinnedCorrectionRows pin decisions) warm s s.cursor.indexes
          ⟨s.cursor.after,s.cursor.association,s.cursor.processedDecisions,s.checkpoints.length,
            0,0⟩ done [] g shift shift [] [] := by
        refine ⟨hheld.restarts hall rfl,hret,hret.tracks,?_,?_,rfl⟩
        · rw [hm1]
          exact view_reopened _ _ _ _
        · rw [hm2]
          exact view_reopened _ _ _ _
      exact hrun.finishes hr hm
    | cons u v =>
      cases u with
      | ends sequence => exact (hret.head sequence v rfl).elim
      | begins size =>
        have hrun : Running nfc (pinnedCorrectionRows pin decisions) warm s s.cursor.indexes
            ⟨s.cursor.after,s.cursor.association,s.cursor.processedDecisions,s.checkpoints.length,
              0,0⟩ done (.begins size::v) g shift shift [] (.begins size::v) := by
          refine ⟨hheld.restarts hall rfl,hret,hret.tracks,?_,?_,rfl⟩
          · rw [hm1]
            exact view_reopened _ _ _ _
          · rw [hm2]
            exact view_reopened _ _ _ _
        have hd : ¬AssociationLoop.due ⟨s.cursor.after,s.cursor.association,
            s.cursor.processedDecisions,s.checkpoints.length,0,0⟩ size :=
          fun hc => Nat.lt_irrefl 0 hc.1
        show Ends _ _ _ _ _ _ (performActs _ _ _ (walk (.begins size::v) _) _ _)
        rw [walk_begins _ _ _ hd,perform_begin]
        exact ((hrun.begins hd).walks hr hcalm hwarm hm).mono (Nat.le_sub_one_of_lt hm)
      | sets size e =>
        have hrun : Running nfc (pinnedCorrectionRows pin decisions) warm s
            (Indexes.beginBoth s.cursor.indexes)
            (AssociationLoop.entered ⟨s.cursor.after,s.cursor.association,
              s.cursor.processedDecisions,s.checkpoints.length,0,0⟩ size)
            done (.sets size e::v) g shift (shift+1) [] (.sets size e::v) := by
          have hleg := @Held.restartsInside _ _ _ _ _ _ _ size hheld hall rfl
          refine ⟨?_,hret,hret.tracks,?_,?_,rfl⟩
          · rw [AssociationLoop.entered]
            dsimp only
            rw [Nat.zero_add,Nat.zero_add]
            exact hleg
          · refine view_begun ?_ fun d r hrow => hheld.pending hrow
            rw [hm1]
            rfl
          · refine view_begun ?_ fun d r hrow => hheld.pending hrow
            rw [hm2]
            rfl
        have hd : ¬AssociationLoop.due ⟨s.cursor.after,s.cursor.association,
            s.cursor.processedDecisions,s.checkpoints.length,0,0⟩ size :=
          fun hc => Nat.lt_irrefl 0 hc.1
        show Ends _ _ _ _ _ _
          (performActs _ _ _ (walk (.begins size::.sets size e::v) _) _ _)
        rw [walk_begins _ _ _ hd,perform_begin]
        refine (hrun.takesSet hr hcalm hm ?_ fun b xs' s' h' => ?_).mono (Nat.le_sub_one_of_lt hm)
        · show ¬8 ≤ 0+1
          omega
        · exact h'.walks hr hcalm hwarm hm

end

theorem resting_empty (warm : Prop) :
    Resting nfc rows warm ((stepsOf nfc rows).length+1) .empty := by
  have hnone : ∀m n : Nat,latestBelow (fun _ => (none : Option StateRow)) n=none := by
    intro m n
    induction n with
    | zero => rfl
    | succ n ih => exact ih
  refine .inr ⟨stepsOf nfc rows,[],0,0,Nat.lt_succ_self _,⟨rfl,rfl,rfl,?_,?_,.first⟩,rfl,
    ⟨fun n d => .inl (hnone 0 _),fun n d r hr => (by cases hr),fun n d o r _ hr => (by cases hr)⟩⟩
  · exact ⟨[],rows,rfl,rfl,.inl ⟨rfl,rfl⟩⟩
  · cases rows with
    | nil => exact fun _ _ hc => (by cases hc)
    | cons r rows => exact fun _ _ hc => (by cases hc)

variable {pin : CorrectionPin} {decisions : List CorrectionRow}

/-- The attempts of a series that are not cut off. -/
def uncut (attempts : List (Bool × Option Nat)) : Nat :=
  (attempts.filter fun a => a.2.isNone).length

theorem resting_after {m : Nat} (hr : Readable nfc (pinnedCorrectionRows pin decisions))
    (hpin : pin.decision_cutoff≠0)
    (hcalm : warm → Undisturbed nfc (pinnedCorrectionRows pin decisions))
    {attempts : List (Bool × Option Nat)} (hwarm : ∀a∈attempts,a.1=false → warm)
    (h : Resting nfc (pinnedCorrectionRows pin decisions) warm m s) :
    Resting nfc (pinnedCorrectionRows pin decisions) warm (m-uncut attempts)
      (afterAttempts nfc pin decisions attempts s) := by
  induction attempts generalizing s m with
  | nil => exact h
  | cons a attempts ih =>
    have hrest : ∀b∈attempts,b.1=false → warm := fun b hb => hwarm b (mem_cons_of_mem _ hb)
    have he : Ends nfc (pinnedCorrectionRows pin decisions) warm a.2 m (m-1)
        (associationsAttempt nfc pin decisions a.1 a.2 s) :=
      attempt_ends hr hpin hcalm (hwarm a mem_cons_self) h
    rw [afterAttempts]
    by_cases hn : a.2=none
    · have hless : Resting nfc (pinnedCorrectionRows pin decisions) warm (m-1)
          (associationsAttempt nfc pin decisions a.1 a.2 s).2 := by
        cases hend : (associationsAttempt nfc pin decisions a.1 a.2 s).1 with
        | completed xs => exact .inl (he.completed xs hend).1
        | continuation o => exact he.onward o hend
        | failed e => exact (he.unfailed e hend).elim
        | crashed => exact (he.uncut hn hend).elim
      have hcount : m-uncut (a::attempts)=m-1-uncut attempts := by
        rw [uncut,filter_cons,hn,Option.isNone_none,if_pos rfl,length_cons,uncut]
        omega
      rw [hcount]
      exact ih hrest hless
    · have hsome : a.2.isNone=false := by
        cases hb : a.2 with
        | none => exact (hn hb).elim
        | some k => rfl
      have hcount : m-uncut (a::attempts)=m-uncut attempts := by
        rw [uncut,filter_cons,hsome,if_neg Bool.false_ne_true,uncut]
      rw [hcount]
      exact ih hrest he.rests

theorem tables_unpinned (hr : Readable nfc (pinnedCorrectionRows pin decisions))
    (hpin : pin.decision_cutoff=0) (s : ResolverStore) :
    Tables nfc (pinnedCorrectionRows pin decisions) (fun _ => .fresh) s := by
  have hempty : pinnedCorrectionRows pin decisions=[] := by
    rw [eq_nil_iff_forall_not_mem]
    intro r hm
    have hp := hr.positive r hm
    have hl := (mem_pinned.mp hm).2.1
    omega
  rw [hempty]
  exact fun name => ⟨rfl,rfl⟩

/-- Attempts at the associations of pinned decisions, cut off and repeated in any way: none fails,
an attempt that completes has the tables of the decisions in their order, and one that is not cut
off completes once enough others were not. -/
theorem associations_replayed (hr : Readable nfc (pinnedCorrectionRows pin decisions))
    {attempts : List (Bool × Option Nat)} {a : Bool × Option Nat}
    (h : Undisturbed nfc (pinnedCorrectionRows pin decisions) ∨ ∀b∈attempts++[a],b.1=true) :
    let r := associationsAttempt nfc pin decisions a.1 a.2
      (afterAttempts nfc pin decisions attempts .empty)
    (∀e,r.1≠.failed e) ∧
      (∀xs,r.1=.completed xs → Tables nfc (pinnedCorrectionRows pin decisions) xs r.2) ∧
      (a.2=none → (stepsOf nfc (pinnedCorrectionRows pin decisions)).length < uncut attempts →
        ∃xs,r.1=.completed xs) := by
  intro r
  by_cases hpin : pin.decision_cutoff=0
  · have hrun : r=(.completed fun _ => .fresh,afterAttempts nfc pin decisions attempts .empty) :=
      if_pos hpin
    rw [hrun]
    refine ⟨fun e hc => (by cases hc),fun xs hc => ?_,fun _ _ => ⟨_,rfl⟩⟩
    cases hc
    exact tables_unpinned hr hpin _
  · have hcalm : Undisturbed nfc (pinnedCorrectionRows pin decisions) →
        Undisturbed nfc (pinnedCorrectionRows pin decisions) := id
    have hwarm : ∀b∈attempts++[a],b.1=false →
        Undisturbed nfc (pinnedCorrectionRows pin decisions) := by
      intro b hb hfalse
      rcases h with h | h
      · exact h
      · rw [h b hb] at hfalse
        cases hfalse
    have hrest := resting_after hr hpin hcalm
      (fun b hb => hwarm b (mem_append_left _ hb)) (resting_empty _)
    have hends := @attempt_ends _ _ _ _ a.2 _ _ _ hr hpin hcalm (hwarm a (by simp)) hrest
    refine ⟨hends.unfailed,fun xs hx => (hends.completed xs hx).2,fun ha hn => ?_⟩
    have hzero : (stepsOf nfc (pinnedCorrectionRows pin decisions)).length+1-uncut attempts=0 := by
      omega
    rw [hzero] at hrest
    rcases hrest with hdone | ⟨us,_,_,_,hlt,-⟩
    · refine ⟨(afterAttempts nfc pin decisions attempts .empty).cursor.indexes,?_⟩
      show (associationsAttempt _ _ _ _ _ _).1=_
      rw [associationsAttempt,if_neg hpin,if_pos hdone.complete]
    · exact (Nat.not_lt_zero _ hlt).elim

end

theorem sampleRows_readable :
    Readable asciiNfc (pinnedCorrectionRows ⟨[key "magic"],2⟩ sampleRows) := by
  have hpin : pinnedCorrectionRows ⟨[key "magic"],2⟩ sampleRows=sampleRows :=
    filter_eq_self.mpr (by decide +kernel)
  rw [hpin]
  have hrow : ∀r∈sampleRows,decisionBound asciiNfc r.request=.ok () ∧
      ∃(k : JsString × JsString) (target : JsString),r.associations asciiNfc=[⟨k.1,k.2,.str target⟩] ∧ target.length ≤ 32768 := by
    intro r hr
    rcases mem_cons.mp hr with rfl | hr
    · obtain ⟨u,hu⟩ := ok_of_isOk (x := decisionBound asciiNfc (retained asciiNfc sampleSplit))
        (by decide +kernel)
      exact ⟨hu,(correctionAssignments,_),key "card_b",rfl,by decide⟩
    · obtain rfl := mem_singleton.mp hr
      obtain ⟨u,hu⟩ := ok_of_isOk (x := decisionBound asciiNfc (retained asciiNfc sampleMerge))
        (by decide +kernel)
      exact ⟨hu,(correctionMerges,_),key "card_c",rfl,by decide⟩
  refine ⟨by simp [sampleRows],by simp [sampleRows],fun r hr => (hrow r hr).1,?_,?_⟩
  · intro r hr e he
    obtain ⟨-,k,target,hk,hs⟩ := hrow r hr
    rw [hk] at he
    obtain rfl := mem_singleton.mp he
    exact ⟨target,rfl,rfl,hs⟩
  · intro r hr e he e' he' _
    obtain ⟨-,k,target,hk,-⟩ := hrow r hr
    rw [hk] at he he'
    rw [mem_singleton.mp he,mem_singleton.mp he']

/-- A split and a merge, with an attempt cut off before the one that is shown. -/
theorem associations_replayed_split_merge :
    Readable asciiNfc (pinnedCorrectionRows ⟨[key "magic"],2⟩ sampleRows) ∧
      ∀e,(associationsAttempt asciiNfc ⟨[key "magic"],2⟩ sampleRows true none
        (afterAttempts asciiNfc ⟨[key "magic"],2⟩ sampleRows [(true,some 1)] .empty)).1≠
          .failed e :=
  ⟨sampleRows_readable,(associations_replayed (a := (true,none)) sampleRows_readable
    (.inr (by simp : ∀b∈[(true,some 1)]++[(true,none)],b.1=true))).1⟩

/-- A split of a Card without Printings. -/
def bareSplit (source : String) : IdentityCorrectionProposal where
  game := key "magic"
  entity_kind := .card
  action := .split
  source_ids := [key source]
  replacement_ids := [key "card_x",key "card_y"]
  printing_assignments := []
  expected_current_revision_id := key "revision_1"
  rationale := key "conflated"
  attestation := key "seen"

/-- Six such splits, one with two Printings, and the reassignment of the second of them. -/
def reassignedRows : List CorrectionRow :=
  (["card_a","card_b","card_c","card_d","card_e","card_f"].zipIdx.map fun s =>
    ⟨s.2+1,key s.1,key "magic",bareSplit s.1⟩)++[
  ⟨7,key "split",key "magic",{ bareSplit "card_g" with
    printing_assignments := [(key "printing_p",key "card_x"),(key "printing_q",key "card_x")] }⟩,
  ⟨8,key "assign",key "magic",{ bareSplit "card_g" with
    action := .assign,
    replacement_ids := [key "card_y"],
    printing_assignments := [(key "printing_q",key "card_y")] }⟩]

def reassignedPin : CorrectionPin := ⟨[key "magic"],8⟩

def assigned (printing target : String) : ReducerEntry :=
  ⟨correctionAssignments,associationKey asciiNfc (key "card_g") (key printing),.str (key target)⟩

deriving instance DecidableEq for ReducerEntry
deriving instance DecidableEq for AssociationAct

theorem first_acts : AssociationCursor.first.acts asciiNfc 0
    (pinnedCorrectionRows reassignedPin reassignedRows)=
    List.replicate 7 .beginObservation++[.set (assigned "printing_p" "card_x"),
      .save 0 6 1 6 false,.set (assigned "printing_q" "card_x"),.beginObservation,
      .set (assigned "printing_q" "card_y"),.save 1 8 0 8 true] := by decide +kernel

theorem restarted_acts : AssociationCursor.acts asciiNfc ⟨6,1,7,7,6,false⟩ 1
    (pinnedCorrectionRows reassignedPin reassignedRows)=
    [.beginObservation,.set (assigned "printing_q" "card_x"),.beginObservation,
      .set (assigned "printing_q" "card_y"),.save 1 8 0 8 true] := by decide +kernel

theorem card_identity (target : String) (h : (key target).length ≤ 32768) :
    IsIdentity asciiNfc (key target) := ⟨rfl,h⟩

def Ended.error : Ended → Option JsString
  | .failed e => some e
  | _ => none

theorem perform_identity {target : JsString} (hid : IsIdentity nfc target) {k : Nat}
    {e : ReducerEntry} (he : e.value=.str target) {acts : List AssociationAct} {xs : Indexes}
    {s : ResolverStore} (h0 : (xs e.space).ordinal≠0)
    (hrow : ∀r,s.reducer.state e.space (sha256Text e.key) (xs e.space).ordinal=some r →
      r=identityRow target) :
    ∃xs' u,performActs nfc false (some (k+1)) (.set e::acts) xs s=
        performActs nfc false (some k) acts xs' { s with reducer := u } ∧
      (∀space,(xs' space).ordinal=(xs space).ordinal) ∧
      ∀n d o,u.state n d o=if At e n d ∧ o=(xs e.space).ordinal then some (identityRow target)
        else s.reducer.state n d o := by
  obtain ⟨hstore,hok,-⟩ := set_identity hid he h0 s.reducer
  have hres := hok <| by
    show s.reducer.state e.space (sha256Text e.key) (xs e.space).ordinal=none ∨ _
    cases hc : s.reducer.state e.space (sha256Text e.key) (xs e.space).ordinal with
    | none => exact .inl rfl
    | some r => exact .inr (hc.trans (congrArg some (hrow r hc)))
  refine ⟨_,_,perform_set (by simp) hres,fun space => ?_,fun n d o => ?_⟩
  · exact (accept_accepted xs (w := identityWrite (xs e.space) e target) rfl space).ordinal
  · rw [hstore,retainReducerState_state hid]
    split
    · rename_i hk
      obtain ⟨⟨rfl,rfl⟩,rfl⟩ := hk
      cases hc : s.reducer.state e.space (sha256Text e.key) (xs e.space).ordinal with
      | none => rfl
      | some r => rw [Option.getD_some,hrow r hc]
    · rfl

/-- What the attempt leaves that is cut off before its last checkpoint: the reassignment, at the
ordinal after the one that its checkpoint names. -/
theorem first_attempt : ∃s : ResolverStore,
    afterAttempts asciiNfc reassignedPin reassignedRows [(false,some 4)] .empty=s ∧
      s.checkpoints=[⟨6,1,7,7,6,false⟩] ∧
      s.reducer.state correctionAssignments (sha256Text (assigned "printing_q" "card_y").key) 8=
        some (identityRow (key "card_y")) := by
  have hx := card_identity "card_x" (by decide)
  have hy := card_identity "card_y" (by decide)
  have hc : ResolverStore.empty.cursor=AssociationCursor.first := rfl
  have hlen : ResolverStore.empty.checkpoints.length=0 := rfl
  refine ⟨_,rfl,?_⟩
  rw [afterAttempts,afterAttempts,associationsAttempt,if_neg (by decide),hc,hlen,
    if_neg (by decide),first_acts]
  simp only [replicate_succ,replicate_zero,cons_append,nil_append,perform_begin]
  generalize hxs : Indexes.beginBoth _=xs
  have hm : (xs correctionMerges).ordinal=7 := by
    rw [←hxs]
    decide +kernel
  have ha : (xs correctionAssignments).ordinal=7 := by
    rw [←hxs]
    decide +kernel
  have hspace : ∀p c,(assigned p c).space=correctionAssignments := fun _ _ => rfl
  obtain ⟨xs1,u1,hset1,hord1,hu1⟩ := @perform_identity asciiNfc _ hx 3
    (assigned "printing_p" "card_x") rfl (.save 0 6 1 6 false::.set (assigned "printing_q" "card_x")::
      .beginObservation::.set (assigned "printing_q" "card_y")::[.save 1 8 0 8 true]) xs .empty
    (by rw [hspace,ha]; decide) (fun r hr => by cases hr)
  have hsave : performActs asciiNfc false (some 3) (.save 0 6 1 6 false::
      .set (assigned "printing_q" "card_x")::.beginObservation::
        .set (assigned "printing_q" "card_y")::[.save 1 8 0 8 true]) xs1 ⟨u1,[]⟩=
      performActs asciiNfc false (some 2) (.set (assigned "printing_q" "card_x")::
        .beginObservation::.set (assigned "printing_q" "card_y")::[.save 1 8 0 8 true]) xs1
        ⟨u1,[⟨6,1,7,7,6,false⟩]⟩ := by
    have h := @perform_save asciiNfc false (some 3) (by decide)
      (.set (assigned "printing_q" "card_x")::.beginObservation::
        .set (assigned "printing_q" "card_y")::[.save 1 8 0 8 true]) ⟨6,1,6,0,0,0⟩ false xs1
      ⟨u1,[]⟩ rfl
    rw [if_neg Bool.false_ne_true,hord1,hord1,hm,ha] at h
    exact h
  have hold : ∀r,u1.state correctionAssignments (sha256Text (assigned "printing_q" "card_x").key) 7=
      some r → r=identityRow (key "card_x") := by
    intro r hr
    rw [hu1] at hr
    split at hr
    · exact (Option.some.inj hr).symm
    · cases hr
  obtain ⟨xs2,u2,hset2,hord2,hu2⟩ := @perform_identity asciiNfc _ hx 1
    (assigned "printing_q" "card_x") rfl (.beginObservation::
      .set (assigned "printing_q" "card_y")::[.save 1 8 0 8 true]) xs1 ⟨u1,[⟨6,1,7,7,6,false⟩]⟩
    (by rw [hspace,hord1,ha]; decide) (fun r hr => hold r (by rw [hspace,hord1,ha] at hr; exact hr))
  have hbegin : (Indexes.beginBoth xs2 correctionAssignments).ordinal=8 := by
    rw [Indexes.beginBoth,if_pos (.inr rfl),IndexState.beginObservation,hord2,hord1,ha]
  have hfree : u2.state correctionAssignments (sha256Text (assigned "printing_q" "card_y").key) 8=
      none := by
    rw [hu2,if_neg (by rw [hspace,hord1,ha]; exact fun hc => absurd hc.2 (by decide)),hu1,
      if_neg (by rw [hspace,ha]; exact fun hc => absurd hc.2 (by decide))]
    rfl
  obtain ⟨xs3,u3,hset3,-,hu3⟩ := @perform_identity asciiNfc _ hy 0
    (assigned "printing_q" "card_y") rfl [.save 1 8 0 8 true] (Indexes.beginBoth xs2)
    ⟨u2,[⟨6,1,7,7,6,false⟩]⟩ (by rw [hspace,hbegin]; decide)
    (fun r hr => by
      rw [hspace,hbegin] at hr
      rw [hfree] at hr
      cases hr)
  have hcut := @perform_cut asciiNfc false [] ⟨8,0,8,1,0,0⟩ true xs3 ⟨u3,[⟨6,1,7,7,6,false⟩]⟩
  have hnone : ResolverStore.empty.checkpoints=[] := rfl
  rw [hset1,hnone,hsave,hset2,perform_begin,hset3]
  rw [show AssociationAct.save 1 8 0 8 true=AssociationLoop.saving ⟨8,0,8,1,0,0⟩ true from rfl,hcut]
  refine ⟨rfl,?_⟩
  show u3.state _ _ _=_
  rw [hu3,if_pos ⟨⟨rfl,rfl⟩,by rw [hspace,hbegin]⟩]

/-- The attempt restarted at the checkpoint begins its observation at the ordinal of the
reassignment, and finds it there. -/
theorem reassigned_attempt_fails : (associationsAttempt asciiNfc reassignedPin reassignedRows
    false none (afterAttempts asciiNfc reassignedPin reassignedRows [(false,some 4)]
      .empty)).1.error=some reducerReplayChanged := by
  obtain ⟨s,hs,hc,hrow⟩ := first_attempt
  have hx := card_identity "card_x" (by decide)
  have hy := card_identity "card_y" (by decide)
  have hcursor : s.cursor=⟨6,1,7,7,6,false⟩ := by
    rw [ResolverStore.cursor,hc]
    rfl
  have hlen : s.checkpoints.length=1 := by
    rw [hc]
    rfl
  rw [hs,associationsAttempt,if_neg (by decide),hcursor,hlen,if_neg (by decide),restarted_acts,
    perform_begin]
  generalize hxs : Indexes.beginBoth _=xs
  have ha : (xs correctionAssignments).ordinal=8 := by
    rw [←hxs]
    decide +kernel
  have hspace : (assigned "printing_q" "card_x").space=correctionAssignments := rfl
  obtain ⟨-,-,hbad⟩ := @set_identity asciiNfc _ hx xs (assigned "printing_q" "card_x") rfl
    (by rw [hspace,ha]; decide) s.reducer
  have hkey : (assigned "printing_q" "card_y").key=(assigned "printing_q" "card_x").key := rfl
  have hat : s.reducer.at (identityWrite (xs correctionAssignments) (assigned "printing_q" "card_x")
      (key "card_x"))=s.reducer.state correctionAssignments
        (sha256Text (assigned "printing_q" "card_x").key) (xs correctionAssignments).ordinal := rfl
  rw [hkey] at hrow
  rw [hspace] at hbad
  have hfail := hbad (identityRow (key "card_y")) (by rw [hat,ha,hrow])
    fun hc => absurd (identityRow_inj hy hx hc) (by decide)
  simp [performActs,hfail,Ended.error]

end CardKeepr.Reconciliation.Identity
