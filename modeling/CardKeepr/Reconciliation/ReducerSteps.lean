import CardKeepr.Reconciliation.ReducerCommits

namespace CardKeepr.Reconciliation

open Lib Shared List Durable ReducerStore

variable {space : JsString} {ys ys' : Indexes} {u v : ReducerStore}

/-- The indexes a call writes in the observation that is already open. -/
def ReducerOp.writes : ReducerOp → List JsString
  | .set entry => [entry.space]
  | .setAlongside entry other additional => (entry::other::additional.toList).map (·.space)
  | _ => []

/-- The index a call opens a new observation of. -/
def ReducerOp.begun : ReducerOp → Option JsString
  | .beginObservation space => some space
  | .seed entry => some entry.space
  | _ => none

theorem Kept.congr {y : IndexState} (h : y.Kept u space)
    (e : ∀d o,v.state space d o=u.state space d o) : y.Kept v space where
  running := h.running
  later d o ho := (e d o).trans (h.later d o ho)
  now d := by rw [e]; exact h.now d
  last w hw := by rw [e]; exact h.last w hw

theorem Kept.begin {y : IndexState} (h : y.Kept u space) : y.beginObservation.Kept u space where
  running := rfl
  later d o ho := h.later d o (Nat.lt_of_succ_lt ho)
  now d := by
    have hnone : u.state space d (y.ordinal+1)=none := h.later d _ (Nat.lt_succ_self _)
    simp [IndexState.beginObservation,hnone]
  last w hw := by cases hw

theorem fresh_kept (space : JsString) : IndexState.fresh.Kept .empty space where
  running := rfl
  later _ _ _ := rfl
  now d := by simp [IndexState.fresh,ReducerStore.empty]
  last w hw := by cases hw

/-- An index after its writes have been accepted. -/
structure Accepted (ws : List PreparedWrite) (space : JsString) (y y' : IndexState) : Prop where
  ordinal : y'.ordinal=y.ordinal
  running : y'.completedPrefix=y.completedPrefix
  written : ∀d,d∈y'.written ↔ d∈y.written ∨ ∃w∈ws,w.space=space ∧ w.digest=d
  last : ∀l,y'.lastWrite=some l → y.lastWrite=some l ∨
    ∃w∈ws,w.space=space ∧ w.whole=true ∧ l=⟨w.digest,w.content⟩
  other : (∀w∈ws,w.space≠space) → y'=y

theorem accept_accepted (ys : Indexes) {w : PreparedWrite} (h : w.ordinal=(ys w.space).ordinal)
    (space : JsString) : Accepted [w] space (ys space) (ys.accept w space) := by
  by_cases hs : space=w.space
  · subst hs
    have ha : ys.accept w w.space=
        { ys w.space with
          written := w.digest::(ys w.space).written,
          lastWrite := if w.whole ∧ byteLength w.content ≤ 32768 then some ⟨w.digest,w.content⟩
            else none } := by
      rw [Indexes.accept,Function.update_self,accept,if_pos h.symm]
    rw [ha]
    refine ⟨rfl,rfl,fun d => ?_,fun l hl => ?_,fun hne => ?_⟩
    · simp only [mem_cons,not_mem_nil,or_false,exists_eq_left,true_and]
      tauto
    · dsimp only at hl
      split at hl
      · rename_i hw
        exact .inr ⟨w,by simp,rfl,hw.1,(Option.some.inj hl).symm⟩
      · cases hl
    · exact (hne w (by simp) rfl).elim
  · have ha : ys.accept w space=ys space := Function.update_of_ne hs _ _
    rw [ha]
    refine ⟨rfl,rfl,fun d => ?_,fun l hl => .inl hl,fun _ => rfl⟩
    constructor
    · exact .inl
    · rintro (hd | ⟨w',hw',rfl,-⟩)
      · exact hd
      · rw [mem_singleton.mp hw'] at hs
        exact (hs rfl).elim

theorem Accepted.trans {ws : List PreparedWrite} {w : PreparedWrite}
    {a b c : IndexState} (h : Accepted [w] space a b) (k : Accepted ws space b c) :
    Accepted (w::ws) space a c where
  ordinal := k.ordinal.trans h.ordinal
  running := k.running.trans h.running
  written d := by
    rw [k.written,h.written]
    simp only [mem_cons,not_mem_nil,or_false,exists_eq_left,exists_eq_or_imp]
    tauto
  last l hl := by
    rcases k.last l hl with hb | ⟨w',hw',hc⟩
    · rcases h.last l hb with ha | ⟨w',hw',hc⟩
      · exact .inl ha
      · exact .inr ⟨w',mem_cons.mpr (.inl (mem_singleton.mp hw')),hc⟩
    · exact .inr ⟨w',mem_cons_of_mem _ hw',hc⟩
  other hne := by
    rw [k.other fun w' hw' => hne w' (mem_cons_of_mem _ hw'),
      h.other fun w' hw' => hne w' (by rw [mem_singleton.mp hw']; exact mem_cons_self)]

theorem foldl_accepted (ws : List PreparedWrite) (ys : Indexes)
    (h : ∀w∈ws,w.ordinal=(ys w.space).ordinal) (space : JsString) :
    Accepted ws space (ys space) (ws.foldl Indexes.accept ys space) := by
  induction ws generalizing ys with
  | nil => exact ⟨rfl,rfl,fun d => by simp,fun l hl => .inl hl,fun _ => rfl⟩
  | cons w ws ih =>
    have hw := accept_accepted ys (h w mem_cons_self)
    refine (hw space).trans (ih (ys.accept w) fun w' hw' => ?_)
    rw [(hw w'.space).ordinal]
    exact h w' (mem_cons_of_mem _ hw')

theorem Accepted.kept {ws : List PreparedWrite}
    {y y' : IndexState} (h : Accepted ws space y y') (hk : y.Kept u space) (huv : u ≤ v)
    (hw : ∀w∈ws,w.space=space → w.ordinal=y.ordinal ∧ w.Sound)
    (hother : ∀n d o,(¬∃w∈ws,n=w.space ∧ d=w.digest ∧ o=w.ordinal) → v.state n d o=u.state n d o)
    (hrows : ∀w∈ws,v.at w=some w.row) : y'.Kept v space where
  running := h.running.trans hk.running
  later d o ho := by
    rw [h.ordinal] at ho
    rw [hother]
    · exact hk.later d o ho
    · rintro ⟨w,hin,hs,-,ho2⟩
      have := (hw w hin hs.symm).1
      omega
  now d := by
    rw [h.written,h.ordinal]
    constructor
    · rintro (hd | ⟨w,hin,rfl,rfl⟩)
      · obtain ⟨r,hr⟩ := (hk.now d).mp hd
        exact ⟨r,huv.1 _ _ _ _ hr⟩
      · refine ⟨w.row,?_⟩
        rw [←(hw w hin rfl).1]
        exact hrows w hin
    · rintro ⟨r,hr⟩
      by_cases hex : ∃w∈ws,space=w.space ∧ d=w.digest ∧ y.ordinal=w.ordinal
      · obtain ⟨w,hin,hs,hd,-⟩ := hex
        exact .inr ⟨w,hin,hs.symm,hd.symm⟩
      · rw [hother _ _ _ hex] at hr
        exact .inl ((hk.now d).mpr ⟨r,hr⟩)
  last l hl := by
    rw [h.ordinal]
    rcases h.last l hl with hold | ⟨w,hin,rfl,hwhole,rfl⟩
    · obtain ⟨hr,hj⟩ := hk.last l hold
      exact ⟨huv.1 _ _ _ _ hr,hj⟩
    · obtain ⟨ho,hs⟩ := hw w hin rfl
      refine ⟨?_,hs.whole hwhole⟩
      rw [←ho]
      have hr : v.state w.space w.digest w.ordinal=some ⟨w.content,w.sha256⟩ := hrows w hin
      rw [hr,hs.sha256]

/-- What one call of the uninterrupted run does to its indexes `ys` and the store `u`: new rows
stand at the ordinal of an index it writes, or of the observation it opens. -/
structure Performed {α : Type} (op : ReducerOp) (ys : Indexes) (u : ReducerStore)
    (r : Outcome ReducerEvent JsString (α × Indexes) ReducerStore) : Prop where
  rows : ∀n d o,r.store.state n d o≠u.state n d o →
    n∈op.writes ∧ o=(ys n).ordinal ∨ op.begun=some n ∧ o=(ys n).ordinal+1
  ordinal : ∀a,r.result=.ok a → ∀n,(a.2 n).ordinal=(ys n).ordinal+if op.begun=some n then 1 else 0
  kept : (∀n,(ys n).Kept u n) → ∀a,r.result=.ok a → ∀n,(a.2 n).Kept r.store n

theorem get_reads (space : JsString) (x : IndexState) (key : JsString) :
    Durable.Reads refer (get space x key) := by
  rw [get]
  cases readRequest x key with
  | cached value => trivial
  | statement d b => exact ⟨fun u => rfl,fun rows => restoreRow_reads _⟩

theorem finishReads_reads (left right : ReadRequest) (rows : List (Option StateRow)) :
    Durable.Reads refer (finishReads left right rows) := by
  have h : ∀req row,Durable.Reads refer (finishRead req row) := by
    intro req row
    cases req with
    | cached value => trivial
    | statement d b => exact restoreRow_reads _
  exact reads_bind (h _ _) fun _ => reads_bind (h _ _) fun _ => trivial

theorem getAlongside_reads (space : JsString) (x : IndexState) (key other : JsString)
    (x' : IndexState) (key' : JsString) :
    Durable.Reads refer (getAlongside space x key other x' key') := by
  rw [getAlongside_eq]
  dsimp only
  split
  · exact finishReads_reads _ _ _
  · exact ⟨fun u => rfl,fun rows => finishReads_reads _ _ _⟩

theorem getMany_reads (space : JsString) (x : IndexState) (keys : List JsString) :
    Durable.Reads refer (getMany space x keys) := by
  rw [getMany_eq]
  split
  · trivial
  · split
    · trivial
    · refine ⟨fun u => rfl,fun page => ?_⟩
      rw [finishPage]
      split
      · trivial
      · exact reads_bind (restoreRows_reads _) fun _ => trivial

variable {op : ReducerOp}

theorem reading_performed {α : Type} {p : ReducerProg α} (hp : Durable.Reads refer p)
    (hb : op.begun=none) : Performed op ys u
    (alone (plain refer) (p >>= fun a => pure (a,ys)) u) := by
  rw [alone_bind]
  have hs := hp.alone u
  cases hr : (alone (plain refer) p u).result with
  | error e =>
    refine ⟨fun n d o hne => ?_,fun a h => (by cases h),fun _ a h => (by cases h)⟩
    exact (hne (by rw [hs])).elim
  | ok a =>
    refine ⟨fun n d o hne => ?_,fun a h n => ?_,fun hk a h n => ?_⟩
    · exact (hne (by show (alone _ p u).store.state n d o=_; rw [hs])).elim
    · obtain rfl := Except.ok.inj h
      simp [hb]
    · obtain rfl := Except.ok.inj h
      show (ys n).Kept (alone _ p u).store n
      rw [hs]
      exact hk n

theorem prepareWrite_quiet (nfc : Nfc) (x : IndexState) (entry : ReducerEntry) :
    Durable.Quiet (prepareWrite nfc x entry) := by
  have hbatches : ∀batches,Durable.Quiet (retainBatches (fun chunks =>
      ask (.retainText chunks)) batches : ReducerProg Unit) := by
    intro batches
    induction batches with
    | nil => trivial
    | cons batch batches ih =>
      intro found
      show Durable.Quiet (if _ then _ else _)
      split
      · exact ih
      · trivial
  refine quiet_bind (quiet_bind (hbatches _) fun _ => trivial) fun e => ?_
  rw [boundWrite]
  split
  · trivial
  · split
    · trivial
    · trivial

theorem finishWrite_quiet (w : PreparedWrite) (rows : Option (List (Option StateRow))) :
    Durable.Quiet (finishWrite w rows) := by
  cases rows with
  | none => trivial
  | some rows =>
    rw [finishWrite]
    split
    · show Durable.Quiet (if _ then _ else _)
      split
      · trivial
      · trivial
    · intro retained
      show Durable.Quiet (if _ then _ else _)
      split
      · trivial
      · trivial

theorem finishCommit_quiet (ws : List PreparedWrite) (rows : Option (List (Option StateRow))) :
    Durable.Quiet (finishCommit ws rows) := by
  cases rows with
  | none => trivial
  | some rows =>
    have hcheck : ∀retained,Durable.Quiet (if fillConflicts rows retained=
        ws.map fun w => some w.row then pure () else .fail reducerReplayChanged :
          ReducerProg Unit) := by
      intro retained
      split
      · trivial
      · trivial
    rw [finishCommit]
    split
    · exact hcheck []
    · exact hcheck

theorem prepareWrites_quiet (nfc : Nfc) (xs : Indexes) (entries : List ReducerEntry) :
    Durable.Quiet (prepareWrites nfc xs entries) := by
  induction entries with
  | nil => trivial
  | cons entry entries ih =>
    exact quiet_bind (prepareWrite_quiet nfc _ _) fun _ =>
      quiet_bind ih fun _ => trivial

theorem set_quiet (nfc : Nfc) (xs : Indexes) (entry : ReducerEntry) :
    Durable.Quiet (set nfc xs entry) :=
  quiet_bind (prepareWrite_quiet nfc _ _) fun w =>
    quiet_bind (finishWrite_quiet w) fun _ => trivial

theorem perform_quiet (nfc : Nfc) (xs : Indexes) (op : ReducerOp) :
    Durable.Quiet (perform nfc xs op) := by
  cases op with
  | beginObservation space => trivial
  | get space key => exact quiet_bind (get_reads _ _ _).quiet fun _ => trivial
  | getMany space keys => exact quiet_bind (getMany_reads _ _ _).quiet fun _ => trivial
  | getAlongside space key other otherKey =>
    exact quiet_bind (getAlongside_reads _ _ _ _ _ _).quiet fun _ => trivial
  | set entry => exact quiet_bind (set_quiet nfc _ _) fun _ => trivial
  | seed entry => exact quiet_bind (set_quiet nfc _ _) fun _ => trivial
  | setAlongside entry other additional =>
    exact quiet_bind (quiet_bind (prepareWrites_quiet nfc _ _) fun ws =>
      quiet_bind (finishCommit_quiet ws) fun _ => trivial) fun _ => trivial

/-- Prepared writes that are then committed. -/
theorem writing_performed
    {prepare : ReducerProg (List PreparedWrite)} {commit : List PreparedWrite → ReducerProg Unit}
    (hprep : (alone (plain refer) prepare u).store.state=u.state)
    (hsound : ∀ws,(alone (plain refer) prepare u).result=.ok ws →
      ∀w∈ws,(w.space∈op.writes ∧ ys' w.space=ys w.space ∨ op.begun=some w.space) ∧
        w.ordinal=(ys' w.space).ordinal ∧ w.Sound)
    (hcommit : ∀ws v,Committed ws v (alone (plain refer) (commit ws) v))
    (hopen : ∀n,ys' n=if op.begun=some n then (ys n).beginObservation else ys n) :
    Performed op ys u (alone (plain refer) (do
      let ws ← prepare
      commit ws
      return ((),ws.foldl Indexes.accept ys')) u) := by
  have hord : ∀n,(ys' n).ordinal=(ys n).ordinal+if op.begun=some n then 1 else 0 := by
    intro n
    rw [hopen]
    split
    · rfl
    · rfl
  rw [alone_bind]
  cases hr : (alone (plain refer) prepare u).result with
  | error e =>
    refine ⟨fun n d o hne => ?_,fun a h => (by cases h),fun _ a h => (by cases h)⟩
    exact (hne (congrFun (congrFun (congrFun hprep n) d) o)).elim
  | ok ws =>
    have hs := hsound ws hr
    generalize hv : (alone (plain refer) prepare u).store=v at *
    have hc := hcommit ws v
    have hgrow : v ≤ (alone (plain refer) (commit ws) v).store :=
      alone_grows (F := reducerReference v [] (fun _ _ => True) fun _ _ _ _ h => h) _ v
    have hrows : ∀n d o,(alone (plain refer) (commit ws) v).store.state n d o≠
        u.state n d o → n∈op.writes ∧ o=(ys n).ordinal ∨ op.begun=some n ∧ o=(ys n).ordinal+1 := by
      intro n d o hne
      by_cases hex : ∃w∈ws,n=w.space ∧ d=w.digest ∧ o=w.ordinal
      · obtain ⟨w,hin,rfl,rfl,rfl⟩ := hex
        obtain ⟨hplace,ho,-⟩ := hs w hin
        rcases hplace with ⟨hw,he⟩ | hb
        · exact .inl ⟨hw,by rw [ho,he]⟩
        · refine .inr ⟨hb,?_⟩
          rw [ho,hord,if_pos hb]
      · rw [hc.other n d o hex,hprep] at hne
        exact (hne rfl).elim
    dsimp only
    rw [alone_bind]
    cases hr2 : (alone (plain refer) (commit ws) v).result with
    | error e => exact ⟨hrows,fun a h => (by cases h),fun _ a h => (by cases h)⟩
    | ok a =>
      obtain ⟨-,hat⟩ := hc.accepted a hr2
      have hacc := foldl_accepted ws ys' fun w hw => (hs w hw).2.1
      refine ⟨hrows,fun b h n => ?_,fun hk b h n => ?_⟩
      · obtain rfl := Except.ok.inj h
        exact (hacc n).ordinal.trans (hord n)
      · obtain rfl := Except.ok.inj h
        have hk' : (ys' n).Kept v n := by
          have hu : (ys' n).Kept u n := by
            rw [hopen]
            split
            · exact Kept.begin (hk n)
            · exact hk n
          exact Kept.congr hu fun d o => congrFun (congrFun (congrFun hprep n) d) o
        exact (hacc n).kept hk' hgrow (fun w hw he => by
          obtain ⟨-,ho,hsd⟩ := hs w hw
          rw [he] at ho
          exact ⟨ho,hsd⟩) hc.other hat

theorem prepareWrites_alone (nfc : Nfc) (ys : Indexes) (entries : List ReducerEntry)
    (u : ReducerStore) : (alone (plain refer) (prepareWrites nfc ys entries) u).store.state=
    u.state ∧ ∀ws,(alone (plain refer) (prepareWrites nfc ys entries) u).result=.ok ws →
    ∀w∈ws,w.space∈entries.map (·.space) ∧ w.ordinal=(ys w.space).ordinal ∧ w.Sound := by
  induction entries generalizing u with
  | nil =>
    refine ⟨rfl,fun ws h w hw => ?_⟩
    obtain rfl := Except.ok.inj h
    exact (not_mem_nil hw).elim
  | cons entry entries ih =>
    rw [prepareWrites,alone_bind]
    obtain ⟨hs,hw⟩ := prepareWrite_alone nfc (ys entry.space) entry u
    cases hr : (alone (plain refer) (prepareWrite nfc (ys entry.space) entry) u).result with
    | error e => exact ⟨hs,fun ws h => by cases h⟩
    | ok w =>
      obtain ⟨hsp,ho,hsd⟩ := hw w hr
      generalize (alone (plain refer) (prepareWrite nfc (ys entry.space) entry) u).store=v at *
      obtain ⟨hs2,hw2⟩ := ih v
      dsimp only
      rw [alone_bind]
      cases hr2 : (alone (plain refer) (prepareWrites nfc ys entries) v).result with
      | error e => exact ⟨hs2.trans hs,fun ws h => by cases h⟩
      | ok ws =>
        refine ⟨hs2.trans hs,fun ws' h w' hw' => ?_⟩
        obtain rfl := Except.ok.inj h
        rcases mem_cons.mp hw' with rfl | hw'
        · exact ⟨by simp [hsp],by rw [ho,hsp],hsd⟩
        · obtain ⟨h1,h2⟩ := hw2 ws hr2 w' hw'
          exact ⟨mem_cons_of_mem _ h1,h2⟩

/-- A commit of writes prepared together, or of one alone. -/
def commitAny : List PreparedWrite → ReducerProg Unit
  | [w] => commitWrite w
  | ws => commitWrites ws

theorem commitAny_committed (ws : List PreparedWrite) (u : ReducerStore) :
    Committed ws u (alone (plain refer) (commitAny ws) u) := by
  rw [commitAny.eq_def]
  split
  · exact commitWrite_alone _ u
  · exact commitWrites_alone _ u

theorem set_performed (nfc : Nfc) (u : ReducerStore)
    {entry : ReducerEntry} (hop : entry.space∈op.writes ∧ ys' entry.space=ys entry.space ∨
      op.begun=some entry.space)
    (hopen : ∀n,ys' n=if op.begun=some n then (ys n).beginObservation else ys n) :
    Performed op ys u (alone (plain refer)
      (set nfc ys' entry >>= fun xs => pure ((),xs)) u) := by
  have he : (set nfc ys' entry >>= fun xs => pure ((),xs))=(do
      let ws ← prepareWrite nfc (ys' entry.space) entry >>= fun w => pure [w]
      commitAny ws
      return ((),ws.foldl Indexes.accept ys')) := by
    rw [set,Prog.bind_assoc,Prog.bind_assoc]
    congr 1
    funext w
    rw [Prog.bind_assoc]
    rfl
  obtain ⟨hs,hw⟩ := prepareWrite_alone nfc (ys' entry.space) entry u
  rw [he]
  apply writing_performed ?_ ?_ (fun ws v => commitAny_committed ws v) hopen
  · rw [alone_bind]
    cases hr : (alone (plain refer) (prepareWrite nfc (ys' entry.space) entry) u).result with
    | error e => exact hs
    | ok w => exact hs
  · intro ws hws w hin
    rw [alone_bind] at hws
    cases hr : (alone (plain refer) (prepareWrite nfc (ys' entry.space) entry) u).result with
    | error e =>
      rw [hr] at hws
      cases hws
    | ok w' =>
      rw [hr] at hws
      obtain rfl := Except.ok.inj hws
      obtain ⟨hsp,ho,hsd⟩ := hw w' hr
      rw [mem_singleton.mp hin,hsp]
      exact ⟨hop,ho,hsd⟩

theorem perform_performed (nfc : Nfc) (ys : Indexes) (op : ReducerOp) (u : ReducerStore) :
    Performed op ys u (alone (plain refer) (perform nfc ys op) u) := by
  cases op with
  | beginObservation space =>
    refine ⟨fun n d o hne => (hne rfl).elim,fun a h n => ?_,fun hk a h n => ?_⟩
    · obtain rfl := Except.ok.inj h
      by_cases hn : n=space
      · subst hn
        simp [ReducerOp.begun,IndexState.beginObservation]
      · simp [ReducerOp.begun,hn,Ne.symm hn]
    · obtain rfl := Except.ok.inj h
      show (Function.update ys space (ys space).beginObservation n).Kept u n
      by_cases hn : n=space
      · subst hn
        simpa using Kept.begin (hk n)
      · simpa [hn] using hk n
  | get space key => exact reading_performed (get_reads _ _ _) rfl
  | getMany space keys => exact reading_performed (getMany_reads _ _ _) rfl
  | getAlongside space key other otherKey =>
    exact reading_performed (getAlongside_reads _ _ _ _ _ _) rfl
  | set entry =>
    exact set_performed nfc u (.inl ⟨by simp [ReducerOp.writes],rfl⟩) fun n => by
      simp [ReducerOp.begun]
  | seed entry =>
    refine set_performed nfc u (.inr rfl) fun n => ?_
    by_cases hn : n=entry.space
    · subst hn
      simp [ReducerOp.begun]
    · simp [ReducerOp.begun,hn,Ne.symm hn]
  | setAlongside entry other additional =>
    obtain ⟨hs,hw⟩ := prepareWrites_alone nfc ys (entry::other::additional.toList) u
    have he : perform nfc ys (.setAlongside entry other additional)=(do
        let ws ← prepareWrites nfc ys (entry::other::additional.toList)
        commitWrites ws
        return ((),ws.foldl Indexes.accept ys)) := by
      rw [perform,setAlongside,Prog.bind_assoc]
      congr 1
      funext ws
      rw [Prog.bind_assoc]
      rfl
    rw [he]
    refine writing_performed hs ?_ (fun ws v => commitWrites_alone ws v) fun n => by
      simp [ReducerOp.begun]
    intro ws hws w hin
    obtain ⟨hsp,ho,hsd⟩ := hw ws hws w hin
    exact ⟨.inl ⟨hsp,rfl⟩,ho,hsd⟩

section
variable {z : ReducerStore} {L : List ReducerEvent}
  {Good : ReducerCheckpoint → ReducerStore → Prop} {mono : ∀c u v,u ≤ v → Good c u → Good c v}
variable {xs ys : Indexes}

def Together {α : Type} (xs ys : Indexes) (a b : α × Indexes) : Prop :=
  a.1=b.1 ∧ ∀n,a.2 n=xs n ∧ b.2 n=ys n ∨ a.2 n=b.2 n

theorem read_follows {α : Type} {p q q' : ReducerProg α} {u : ReducerStore}
    (h : Durable.Follows (reducerReference z L Good mono) Eq p q' u)
    (he : alone (plain refer) q u= alone (plain refer) q' u) :
    Durable.Follows (reducerReference z L Good mono) (Together xs ys)
      (p >>= fun a => pure (a,xs)) (q >>= fun a => pure (a,ys)) u := by
  refine follows_bind (follows_congr h he) fun a b hab _ => ?_
  exact follows_ret ⟨hab,fun n => .inl ⟨rfl,rfl⟩⟩ _

theorem accept_same {w : PreparedWrite} (h : xs w.space=ys w.space)
    (n : JsString) : xs.accept w n=xs n ∧ ys.accept w n=ys n ∨ xs.accept w n=ys.accept w n := by
  by_cases hn : n=w.space
  · subst hn
    right
    simp [Indexes.accept,h]
  · left
    simp [Indexes.accept,hn]

theorem foldl_same {ws : List PreparedWrite} (h : ∀w∈ws,xs w.space=ys w.space) (n : JsString) :
    ws.foldl Indexes.accept xs n=xs n ∧ ws.foldl Indexes.accept ys n=ys n ∨
      ws.foldl Indexes.accept xs n=ws.foldl Indexes.accept ys n := by
  induction ws generalizing xs ys with
  | nil => exact .inl ⟨rfl,rfl⟩
  | cons w ws ih =>
    have hw := accept_same (h w mem_cons_self)
    have hrest : ∀w'∈ws,xs.accept w w'.space=ys.accept w w'.space := by
      intro w' hw'
      rcases hw w'.space with ⟨h1,h2⟩ | he
      · rw [h1,h2]
        exact h w' (mem_cons_of_mem _ hw')
      · exact he
    rcases ih hrest with ⟨h1,h2⟩ | he
    · rcases hw n with ⟨h3,h4⟩ | he
      · exact .inl ⟨h1.trans h3,h2.trans h4⟩
      · exact .inr (h1.trans (he.trans h2.symm))
    · exact .inr he

theorem set_follows (nfc : Nfc) {entry : ReducerEntry} (u : ReducerStore)
    (h : xs entry.space=ys entry.space) : Durable.Follows (reducerReference z L Good mono)
    (fun a b => ∀n,a n=xs n ∧ b n=ys n ∨ a n=b n) (set nfc xs entry) (set nfc ys entry) u := by
  rw [set,set,h]
  refine follows_bind (prepareWrite_follows nfc _ entry u) fun w w' hw hr => ?_
  subst hw
  refine follows_bind (commitWrite_follows w _) fun _ _ _ _ => ?_
  refine follows_ret (accept_same ?_) _
  rw [((prepareWrite_alone nfc _ entry u).2 w hr).1]
  exact h

theorem prepareWrites_follows (nfc : Nfc) (xs : Indexes) (entries : List ReducerEntry)
    (u : ReducerStore) : Durable.Follows (reducerReference z L Good mono) Eq
      (prepareWrites nfc xs entries) (prepareWrites nfc xs entries) u := by
  induction entries generalizing u with
  | nil => exact follows_ret rfl u
  | cons entry entries ih =>
    refine follows_bind (prepareWrite_follows nfc _ entry u) fun w w' hw _ => ?_
    subst hw
    refine follows_bind (ih _) fun ws ws' hws _ => ?_
    subst hws
    exact follows_ret rfl _

theorem prepareWrites_congr (nfc : Nfc) (h : ∀n,(xs n).ordinal=(ys n).ordinal)
    (entries : List ReducerEntry) : prepareWrites nfc xs entries=prepareWrites nfc ys entries := by
  induction entries with
  | nil => rfl
  | cons entry entries ih => rw [prepareWrites,prepareWrites,prepareWrite_congr nfc (h _),ih]

theorem perform_follows (nfc : Nfc) {u : ReducerStore} (op : ReducerOp) (hk : ∀n,(ys n).Kept u n)
    (hf : ∀n,Frozen u z n (ys n).ordinal) (hx : ∀n,Reopened u z n (xs n) (ys n))
    (hw : ∀n∈op.writes,xs n=ys n) (huz : u ≤ z) : Durable.Follows (reducerReference z L Good mono)
    (Together xs ys) (perform nfc xs op) (perform nfc ys op) u := by
  cases op with
  | beginObservation space =>
    refine follows_ret ⟨rfl,fun n => ?_⟩ u
    by_cases hn : n=space
    · subst hn
      right
      simp [IndexState.beginObservation,(hx n).ordinal]
    · left
      simp [hn]
  | get space key =>
    exact read_follows (get_follows (hk _) (hf _) (hx _) key) (get_alone (hk _) key)
  | getMany space keys =>
    exact read_follows (getMany_follows (hk _) (hf _) (hx _) keys) (getMany_alone keys)
  | getAlongside space key other otherKey =>
    exact read_follows (getAlongside_follows (hk _) (hf _) (hx _) (hk _) (hf _) (hx _) huz key
      otherKey) (getAlongside_alone (hk _) (hk _) key otherKey)
  | set entry =>
    refine follows_bind (set_follows nfc u (hw _ (by simp [ReducerOp.writes])))
      fun a b hab _ => ?_
    exact follows_ret ⟨rfl,hab⟩ _
  | seed entry =>
    refine follows_bind (set_follows nfc u ?_) fun a b hab _ => ?_
    · simp [IndexState.beginObservation,(hx _).ordinal]
    · refine follows_ret ⟨rfl,fun n => ?_⟩ _
      rcases hab n with ⟨h1,h2⟩ | he
      · by_cases hn : n=entry.space
        · subst hn
          right
          show a entry.space=b entry.space
          rw [h1,h2]
          simp [IndexState.beginObservation,(hx _).ordinal]
        · left
          exact ⟨h1.trans (by simp [hn]),h2.trans (by simp [hn])⟩
      · exact .inr he
  | setAlongside entry other additional =>
    have hprep := prepareWrites_congr nfc (fun n => (hx n).ordinal)
      (entry::other::additional.toList)
    rw [perform,perform,setAlongside,setAlongside,hprep,Prog.bind_assoc,Prog.bind_assoc]
    refine follows_bind (prepareWrites_follows nfc ys _ u) fun ws ws' hws hr => ?_
    subst hws
    rw [Prog.bind_assoc,Prog.bind_assoc]
    refine follows_bind (commitWrites_follows ws _) fun _ _ _ _ => ?_
    refine follows_ret ⟨rfl,foldl_same fun w hin => hw _ ?_⟩ _
    exact ((prepareWrites_alone nfc ys _ u).2 ws hr w hin).1

end

end CardKeepr.Reconciliation
