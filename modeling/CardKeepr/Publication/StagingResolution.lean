import CardKeepr.Publication.StagingSafety

namespace CardKeepr.Staging

open Lib Shared List

variable {i : Nat} {op : Op}

/-- Every thread may rely on the step, the one that makes it included. -/
abbrev all : Nat → Prop := fun _ => True

variable {s : Store}

theorem keeps_call {α : Type} {k : op.Ans → Program α} {post : Except Problem α → Store → Prop}
    (h : ∀t,Relies i s t → Sound t → Harmless t (handle i op t).2 ∧
      Keeps protocol i all post (k (handle i op t).1) (handle i op t).2) :
    Keeps protocol i all post (.call op k) s := by
  intro t ht hi
  have hc := h t ht hi
  exact ⟨hc.1.sound,fun j _ => hc.1.relies j,hc.2⟩

theorem keeps_perform {post : Except Problem op.Ans → Store → Prop}
    (h : ∀t,Relies i s t → Sound t → Harmless t (handle i op t).2 ∧
      ∀u,Relies i (handle i op t).2 u → post (.ok (handle i op t).1) u) :
    Keeps protocol i all post (perform op) s := by
  apply keeps_call
  intro t ht hi
  have hc := h t ht hi
  exact ⟨hc.1,fun u hu _ => hc.2 u hu⟩

theorem keeps_plain {i : Nat} {op : Op} {s : Store}
    (h : ∀t,Sound t → Harmless t (handle i op t).2) :
    Keeps protocol i all (fun _ _ => True) (perform op) s :=
  keeps_perform fun t _ hi => ⟨h t hi,fun _ _ => trivial⟩

theorem batch_harmless {x : Except Fault Store} (h : Sound s)
    (hx : ∀t,x=.ok t → Harmless s t) : Harmless s (batch s x).2 := by
  cases x with
  | ok t => exact hx t rfl
  | error f => exact .refl h

theorem keeps_ret {α : Type} {a : α} {post : Except Problem α → Store → Prop}
    (h : ∀t,Relies i s t → post (.ok a) t) : Keeps protocol i all post (.ret a : Program α) s :=
  fun t ht _ => h t ht

theorem keeps_fail {α : Type} {e : Problem} {post : Except Problem α → Store → Prop} (h : ∀t,post (.error e) t) : Keeps protocol i all post (.fail e : Program α) s :=
  fun t _ _ => h t

theorem orTrue {α : Type} {p : Program α} {G : Nat → Prop} {post : Except Problem α → Store → Prop}
    (h : Keeps protocol i G post p s) : Keeps protocol i G (OnOk fun _ _ => True) p s := by
  apply h.imp
  intro r t _ _
  cases r <;> trivial

theorem keeps_committed (x : Except Fault Unit) (s : Store) :
    Keeps protocol i all (OnOk fun _ _ => True) (committed x) s := by
  cases x with
  | ok a => exact keeps_ret fun _ _ => trivial
  | error f => exact keeps_fail fun _ => trivial

theorem keeps_throwRejected {α : Type} (rs : List (Except Problem α)) (s : Store)
    {R : Store → Prop} (hs : R s) (hR : ∀t,Relies i s t → R s → R t) :
    Keeps protocol i all (OnOk fun _ t => (∀r∈rs,∃a,r=.ok a) ∧ R t) (throwRejected rs) s := by
  induction rs with
  | nil => exact keeps_ret fun t ht => ⟨fun r hr => (not_mem_nil hr).elim,hR t ht hs⟩
  | cons r rs ih =>
    cases r with
    | error e => exact keeps_fail fun _ => trivial
    | ok a =>
      apply ih.imp
      intro x t _ hx
      cases x with
      | error e => trivial
      | ok u =>
        refine ⟨fun q hq => ?_,hx.2⟩
        rcases mem_cons.mp hq with rfl | hq
        · exact ⟨a,rfl⟩
        · exact hx.1 q hq

theorem keeps_observedHead (i : Nat) (k : ObjectKey) (s : Store) :
    Keeps protocol i all (OnOk fun _ _ => True) (observedHead k) s := by
  apply Keeps.seq (orTrue (@keeps_plain i (.head k) s fun t ht => .refl ht))
  intro object t ht _
  have hack : Keeps protocol i all (OnOk fun _ _ => True) (acknowledgeObserved k object) t := by
    cases object with
    | none => exact keeps_ret fun _ _ => trivial
    | some o =>
      obtain ⟨content,token⟩ := o
      cases token with
      | none => exact keeps_ret fun _ _ => trivial
      | some token => exact orTrue (keeps_plain fun u hu => finishObserved_harmless hu k token)
  apply Keeps.seq hack
  intro _ _ _ _
  exact keeps_ret fun _ _ => trivial

theorem keeps_putObject (i : Nat) (u : StagingUpload) (s : Store) :
    Keeps protocol i all (OnOk fun _ _ => True) (putObject u) s := by
  have hput : ∀t,Sound t →
      Harmless t (handle i (.put u.key ⟨u.content,some u.token⟩ u.answered) t).2 := by
    intro t ht
    cases u.answered with
    | true => exact put_harmless ht _ _
    | false => exact ht.frame rfl rfl rfl rfl rfl (fun _ h => h) fun _ _ h => h
  apply Keeps.seq (orTrue (keeps_plain hput))
  intro answer t ht _
  cases answer with
  | stored => exact keeps_ret fun _ _ => trivial
  | refused => exact keeps_ret fun _ _ => trivial
  | rejected => exact keeps_fail fun _ => trivial

theorem keeps_allSettled {α : Type} (order : List Nat) {ps : List (Program α)} (s : Store)
    (h : ∀p∈ps,∀t,Keeps protocol i all (OnOk fun _ _ => True) p t) :
    Keeps protocol i all (OnOk fun _ _ => True) (Prog.allSettled order ps) s := by
  refine orTrue (Keeps.allSettled (Q := fun _ _ _ => True) order trivial
    (fun _ _ _ _ _ _ _ => trivial) fun j p hp => ?_)
  exact (h p (List.mem_of_getElem? hp) s).imp fun _ _ _ _ => trivial

theorem keeps_settleWrites (i : Nat) (tokens : List JsString) (s : Store) :
    Keeps protocol i all (OnOk fun _ _ => True) (settleWrites tokens) s := by
  cases tokens with
  | nil => exact keeps_ret fun _ _ => trivial
  | cons token tokens =>
    exact orTrue (@keeps_plain i (.finishWrites (token::tokens)) s fun u hu =>
      finishWrites_harmless hu (token::tokens))

theorem keeps_writeStagingObjects (i : Nat) (c : Weather) (preparation : JsString)
    (objects : List (ObjectKey × List UInt8)) (s : Store) :
    Keeps protocol i all (OnOk fun _ _ => True) (writeStagingObjects c preparation objects) s := by
  rw [writeStagingObjects]
  split
  · exact keeps_ret fun _ _ => trivial
  split
  · exact keeps_fail fun _ => trivial
  have hbegin : ∀ws t,Sound t → Harmless t (handle i (.beginWrites preparation ws) t).2 :=
    fun ws t ht => batch_harmless ht fun u hu => beginWrites_harmless preparation ht hu
  apply Keeps.seq (orTrue (keeps_plain (hbegin _)))
  intro begun t ht _
  apply Keeps.seq (keeps_committed begun t)
  intro _ t ht _
  apply Keeps.seq (keeps_allSettled c.puts t fun p hp u => ?_)
  · intro results t ht _
    apply Keeps.seq (keeps_settleWrites i _ t)
    intro _ t ht _
    apply Keeps.seq (keeps_allSettled c.observations t fun p hp u => ?_)
    · intro observations t ht _
      apply Keeps.seq (keeps_throwRejected results t trivial fun _ _ _ => trivial)
      intro _ t ht _
      apply Keeps.seq (keeps_throwRejected observations t trivial fun _ _ _ => trivial)
      intro _ t ht _
      exact keeps_ret fun _ _ => trivial
    · obtain ⟨k,-,rfl⟩ := mem_map.mp hp
      exact keeps_observedHead i k u
  · obtain ⟨x,-,rfl⟩ := mem_map.mp hp
    exact keeps_putObject i x u

def Confirmed (k : ObjectKey) (sha : JsString) (bytes n : Nat) (s : Store) : Prop :=
  ∀r : Receipt,r.key=k → r.sha256=sha → r.byte_length=bytes → r.seen=n → Verified s r

theorem Confirmed.mono {i n bytes : Nat} {k : ObjectKey} {sha : JsString} {s t : Store}
    (h : Confirmed k sha bytes n s) (hr : Relies i s t) : Confirmed k sha bytes n t :=
  fun r h1 h2 h3 h4 => (h r h1 h2 h3 h4).mono hr

theorem keeps_verify (i : Nat) (k : ObjectKey) (sha : JsString) (bytes : Nat) (s : Store) :
    Keeps protocol i all (OnOk fun n t => Confirmed k sha bytes n t)
      (verifyPublicationObject k sha bytes) s := by
  rw [verifyPublicationObject]
  split
  · exact keeps_fail fun _ => trivial
  apply keeps_call
  intro t ht hi
  refine ⟨.refl hi,?_⟩
  cases hb : t.bucket k with
  | none =>
    simp only [handle,hb]
    exact keeps_fail fun _ => trivial
  | some o =>
    simp only [handle,hb]
    change Keeps protocol i all _ (if _ then throw' _ else pure _ : Program Nat) t
    split
    · exact keeps_fail fun _ => trivial
    · rename_i hok
      rw [not_or,not_not,not_not] at hok
      apply keeps_ret
      intro u hu
      have hnow : Confirmed k sha bytes (t.incarnation k) t := by
        intro r hk hsha hlen hseen
        refine ⟨by rw [hk,hseen],fun _ _ => ⟨o,by rw [hk]; exact hb,?_,?_⟩⟩
        · rw [hlen]
          exact hok.1
        · rw [hsha]
          exact hok.2
      exact hnow.mono hu

theorem mem_receiptsOf {r : Receipt} {os : List PendingObject} : ∀{heads written : List Bool}
    {seen : List Nat},r∈receiptsOf os heads written seen → ∃(j : Nat) (o : PendingObject) (n : Nat),os[j]?=some o ∧
      seen[j]?=some n ∧ r.key=o.key ∧ r.sha256=o.sha256 ∧ r.byte_length=o.byte_length ∧
      r.seen=n := by
  induction os with
  | nil =>
    intro heads written seen h
    simp [receiptsOf] at h
  | cons o os ih =>
    intro heads written seen h
    cases heads with
    | nil => simp [receiptsOf] at h
    | cons existed heads =>
      cases seen with
      | nil => simp [receiptsOf] at h
      | cons n seen =>
        rw [receiptsOf] at h
        rcases mem_cons.mp h with rfl | h
        · exact ⟨0,o,n,rfl,rfl,rfl,rfl,rfl,rfl⟩
        · obtain ⟨j,p,m,hp,hm,hrest⟩ := ih h
          exact ⟨j+1,p,m,hp,hm,hrest⟩

/-- What the verifications of a batch say, object by object. -/
def BatchConfirmed (batch : List PendingObject) (rs : List (Except Problem Nat)) (s : Store) :
    Prop :=
  ∀(j n : Nat) (o : PendingObject),batch[j]?=some o → rs[j]?=some (.ok n) →
    Confirmed o.key o.sha256 o.byte_length n s

theorem keeps_verifications (i : Nat) (order : List Nat) (batch : List PendingObject) (s : Store) :
    Keeps protocol i all (OnOk fun rs t => BatchConfirmed batch rs t) (Prog.allSettled order
      (batch.map fun o => verifyPublicationObject o.key o.sha256 o.byte_length)) s := by
  let Q : Nat → Except Problem Nat → Store → Prop := fun j r u =>
    ∀o n,batch[j]?=some o → r=.ok n → Confirmed o.key o.sha256 o.byte_length n u
  have hQ : ∀j r u v,Relies i u v → Sound v → Q j r u → Q j r v :=
    fun j r u v huv _ hq o n ho hr => (hq o n ho hr).mono huv
  have htask : ∀j p,(batch.map fun o => verifyPublicationObject o.key o.sha256 o.byte_length)[j]?=
      some p → Keeps protocol i all (Q j) p s := by
    intro j p hp
    rw [List.getElem?_map,Option.map_eq_some_iff] at hp
    obtain ⟨o,ho,rfl⟩ := hp
    apply (keeps_verify i o.key o.sha256 o.byte_length s).imp
    intro r t _ hr q n hq hn
    rw [ho] at hq
    obtain rfl := Option.some.inj hq
    subst hn
    exact hr
  apply (Keeps.allSettled order trivial hQ htask).imp
  intro r t _ hr
  obtain ⟨rs,rfl,hrs⟩ := hr
  exact fun j n o ho hn => hrs j _ hn o n ho rfl

theorem keeps_flush (i : Nat) (c : Weather) (preparation : JsString) (batch : List PendingObject)
    (s : Store) : Keeps protocol i all (OnOk fun rs t => ∀r∈rs,Verified t r)
      (flush c preparation batch) s := by
  rw [flush]
  split
  · exact keeps_ret fun _ _ r hr => (not_mem_nil hr).elim
  have hheads : ∀p∈batch.map fun o => observedHead o.key,∀u,
      Keeps protocol i all (OnOk fun _ _ => True) p u := by
    intro p hp u
    obtain ⟨o,-,rfl⟩ := mem_map.mp hp
    exact keeps_observedHead i o.key u
  apply Keeps.seq (keeps_allSettled c.heads s hheads)
  intro heads t _ _
  apply Keeps.seq (keeps_throwRejected heads t trivial fun _ _ _ => trivial)
  intro _ t _ _
  apply Keeps.seq (keeps_writeStagingObjects i c preparation _ t)
  intro written t _ _
  apply Keeps.seq (keeps_verifications i c.verifications batch t)
  intro rs t _ hrs
  have hstay : ∀u,Relies i t u → BatchConfirmed batch rs t → BatchConfirmed batch rs u :=
    fun u hu h j n o ho hn => (h j n o ho hn).mono hu
  apply Keeps.seq (keeps_throwRejected rs t hrs hstay)
  intro _ u _ hok
  apply keeps_ret
  intro w hw q hq
  obtain ⟨j,o,n,ho,hn,hk,hsha,hlen,hseen⟩ := mem_receiptsOf hq
  rw [List.getElem?_map,Option.map_eq_some_iff] at hn
  obtain ⟨a,ha,hn⟩ := hn
  obtain ⟨m,rfl⟩ := hok.1 a (List.mem_of_getElem? ha)
  have hconf := (hok.2 j m o ho ha).mono hw
  exact hconf q hk hsha hlen (hseen.trans hn.symm)

theorem keeps_checkNode {o : PendingObject} {R : Store → Prop} (hs : R s)
    (hR : ∀t,Relies i s t → R s → R t) :
    Keeps protocol i all (OnOk fun _ t => R t) (checkNode o) s := by
  rw [checkNode]
  split
  · split
    · exact keeps_fail fun _ => trivial
    · exact keeps_ret fun t ht => hR t ht hs
  · exact keeps_ret fun t ht => hR t ht hs

def Receipts (rs : List Receipt) (s : Store) : Prop := ∀r∈rs,Verified s r

theorem Receipts.mono {i : Nat} {rs : List Receipt} {s t : Store} (h : Receipts rs s)
    (hr : Relies i s t) : Receipts rs t :=
  fun r hm => (h r hm).mono hr

theorem Receipts.append {rs qs : List Receipt} (h : Receipts rs s)
    (g : Receipts qs s) : Receipts (rs++qs) s := by
  intro r hr
  rcases mem_append.mp hr with hr | hr
  · exact h r hr
  · exact g r hr

theorem keeps_receipts {α : Type} {p : Program α} {mid : α → Store → Prop}
    {rs : List Receipt} (h : Keeps protocol i all (OnOk mid) p s) (hrs : Receipts rs s) :
    Keeps protocol i all (OnOk fun a t => mid a t ∧ Receipts rs t) p s := by
  apply (h.tracked trivial (Relies.refl i s)).imp
  intro r t _ hr
  cases r with
  | error e => trivial
  | ok a => exact ⟨hr.1,hrs.mono hr.2⟩

theorem keeps_prepareUnits (i : Nat) (preparation : JsString) (last : Weather)
    (units : List (Weather × PreparationUnit)) : ∀(pending : List PendingObject) (rs : List Receipt)
    (s : Store),Receipts rs s → Keeps protocol i all (OnOk fun qs t => Receipts qs t)
    (prepareUnits preparation last units pending rs) s := by
  induction units with
  | nil =>
    intro pending rs s hrs
    rw [prepareUnits]
    apply Keeps.seq (keeps_receipts (keeps_flush i last preparation pending s) hrs)
    intro more t _ hmore
    exact keeps_ret fun u hu => (hmore.2.append hmore.1).mono hu
  | cons unit units ih =>
    intro pending rs s hrs
    obtain ⟨c,unit⟩ := unit
    cases unit with
    | image ordinal key sha bytes =>
      rw [prepareUnits]
      split
      · exact keeps_fail fun _ => trivial
      apply Keeps.seq (keeps_receipts (keeps_verify i _ sha bytes s) hrs)
      intro seen t _ hseen
      apply ih
      apply hseen.2.append
      intro r hr
      obtain rfl := mem_singleton.mp hr
      exact hseen.1 _ rfl rfl rfl rfl
    | stage row content key =>
      rw [prepareUnits]
      split
      · exact keeps_fail fun _ => trivial
      have hstay : ∀qs t u,Relies i t u → Receipts qs t → Receipts qs u :=
        fun qs t u hu h => h.mono hu
      split
      · apply Keeps.seq (keeps_receipts (keeps_flush i c preparation pending s) hrs)
        intro more t _ hmore
        apply Keeps.seq (keeps_checkNode (hmore.2.append hmore.1) (hstay _ t))
        intro _ u _ hu
        exact ih _ _ u hu
      · apply Keeps.seq (keeps_checkNode hrs (hstay _ s))
        intro _ u _ hu
        exact ih _ _ u hu

theorem keeps_advancePublicationPreparation (i : Nat) (candidate preparation : JsString)
    (units : List (Weather × PreparationUnit)) (last : Weather) (s : Store) : Keeps protocol i all
    (OnOk fun _ _ => True) (advancePublicationPreparation candidate preparation units last) s := by
  apply Keeps.seq (keeps_prepareUnits i preparation last units [] [] s
    fun r hr => (not_mem_nil hr).elim)
  intro rs t _ hrs
  have hcommit : Keeps protocol i all (fun _ _ => True) (perform (.commit candidate rs)) t := by
    apply keeps_perform
    intro u hu hi
    exact ⟨batch_harmless hi fun v hv => commit_harmless hi (hrs.mono hu) hv,fun _ _ => trivial⟩
  apply Keeps.seq (orTrue hcommit)
  intro answer u _ _
  exact keeps_committed answer u

theorem keeps_own {α : Type} {k : op.Ans → Program α} {post : Except Problem α → Store → Prop}
    (h : ∀t,Relies i s t → Sound t → Sound (handle i op t).2 ∧
      (∀j,j≠i → Relies j t (handle i op t).2) ∧
      Keeps protocol i (·≠i) post (k (handle i op t).1) (handle i op t).2) :
    Keeps protocol i (·≠i) post (.call op k) s :=
  fun t ht hi => h t ht hi

theorem keeps_others {α : Type} {p : Program α} {post : Except Problem α → Store → Prop} (h : Keeps protocol i all post p s) : Keeps protocol i (·≠i) post p s :=
  h.guarantee fun _ _ => trivial

theorem keeps_deleteStagingObject (i : Nat) (id : JsString) (unit : CleanupUnit) (n : Nat)
    (s : Store) : Keeps protocol i (·≠i) (OnOk fun _ _ => True) (deleteStagingObject id unit n) s := by
  rw [deleteStagingObject]
  apply keeps_own
  intro t ht hi
  cases hbegin : t.beginStagingDelete i id unit.key n unit.token with
  | error f =>
    simp only [handle,hbegin]
    exact ⟨hi,fun j _ => Relies.refl j t,keeps_others (keeps_fail fun _ => trivial)⟩
  | ok r =>
    obtain ⟨changes,u⟩ := r
    obtain ⟨hu,hholds⟩ := beginDelete_kept hi hbegin
    simp only [handle,hbegin]
    refine ⟨hu.sound,fun j _ => hu.relies j,?_⟩
    cases changes with
    | zero => exact keeps_others (keeps_ret fun _ _ => trivial)
    | succ c =>
      have hd := hholds (Nat.succ_ne_zero c)
      apply keeps_own
      intro v hv hiv
      have hdv := hd.mono hv
      cases unit.answered with
      | false =>
        have hlose := lose_kept hiv hdv
        exact ⟨hlose.1,hlose.2,keeps_others (keeps_ret fun _ _ => trivial)⟩
      | true =>
        have hdel := delete_harmless hiv hdv.mem hdv.pending
        refine ⟨hdel.sound,fun j _ => hdel.relies j,?_⟩
        have hdw := hdv.mono (hdel.relies i)
        apply keeps_own
        intro w hw hiw
        have hcomp := completeDelete_kept hiw (hdw.mono hw)
        cases hmark : (w.completeDelete unit.token).markDeleted unit.key n with
        | error f =>
          simp only [handle,Store.finishStagingDelete,hmark,batch]
          exact ⟨hiw,fun j _ => Relies.refl j w,keeps_others (keeps_committed (.error f) w)⟩
        | ok x =>
          simp only [handle,Store.finishStagingDelete,hmark,batch]
          have hx := markDeleted_harmless hcomp.1 hmark
          exact ⟨hx.sound,fun j hj => (hcomp.2 j hj).trans (hx.relies j),
            keeps_others (keeps_committed (.ok ()) x)⟩

theorem keeps_reclaimReserved (i : Nat) (id : JsString) (unit : CleanupUnit)
    (object : StagingObject) (s : Store) :
    Keeps protocol i (·≠i) (OnOk fun _ _ => True) (reclaimReserved id unit object) s := by
  rw [reclaimReserved]
  apply keeps_own
  intro t ht hi
  refine ⟨hi,fun j _ => Relies.refl j t,?_⟩
  change Keeps protocol i (·≠i) _ (if t.openStagingTickets unit.key object.incarnation=true then _
    else _) t
  split
  · exact keeps_others (keeps_ret fun _ _ => trivial)
  split
  · apply keeps_own
    intro u hu hiu
    have hp : Harmless u (handle i (.promote id unit.key object.incarnation) u).2 :=
      batch_harmless hiu fun v hv => promote_harmless hiu hv
    refine ⟨hp.sound,fun j _ => hp.relies j,?_⟩
    cases (handle i (.promote id unit.key object.incarnation) u).1 with
    | ok a => exact keeps_deleteStagingObject i id unit _ _
    | error f =>
      cases f with
      | staging_delete_waiting => exact keeps_others (keeps_ret fun _ _ => trivial)
      | _ => exact keeps_others (keeps_fail fun _ => trivial)
  · exact keeps_deleteStagingObject i id unit _ t

theorem keeps_reclaimObject (i : Nat) (id : JsString) (unit : CleanupUnit)
    (object : StagingObject) (s : Store) :
    Keeps protocol i (·≠i) (OnOk fun _ _ => True) (reclaimObject id unit object) s := by
  rw [reclaimObject]
  split
  · exact keeps_others (keeps_ret fun _ _ => trivial)
  split
  · exact keeps_others (keeps_ret fun _ _ => trivial)
  · exact keeps_reclaimReserved i id unit object s

theorem keeps_advanceUnit (i : Nat) (id : JsString) (at' : Nat) (unit : CleanupUnit) (s : Store) :
    Keeps protocol i (·≠i) (OnOk fun _ _ => True) (advanceUnit id at' unit) s := by
  rw [advanceUnit]
  apply keeps_own
  intro t ht hi
  refine ⟨hi,fun j _ => Relies.refl j t,?_⟩
  cases hobj : t.objects unit.key with
  | none =>
    simp only [handle,hobj]
    exact keeps_others (keeps_fail fun _ => trivial)
  | some object =>
    simp only [handle,hobj]
    change Keeps protocol i (·≠i) _ (if object.state=.available then _ else _) t
    split
    · apply keeps_own
      intro u hu hiu
      have hr : Harmless u (handle i (.reserve id unit.key object.incarnation at') u).2 :=
        batch_harmless hiu fun v hv => reserve_harmless hiu hv
      refine ⟨hr.sound,fun j _ => hr.relies j,?_⟩
      cases (handle i (.reserve id unit.key object.incarnation at') u).1 with
      | error f =>
        cases f with
        | staging_reference_protected => exact keeps_others (keeps_ret fun _ _ => trivial)
        | _ => exact keeps_others (keeps_fail fun _ => trivial)
      | ok a =>
        apply keeps_own
        intro v hv hiv
        refine ⟨hiv,fun j _ => Relies.refl j v,?_⟩
        cases hagain : v.objects unit.key with
        | none =>
          simp only [handle,hagain]
          exact keeps_others (keeps_fail fun _ => trivial)
        | some again =>
          simp only [handle,hagain]
          exact keeps_reclaimObject i id unit again v
    · exact keeps_reclaimObject i id unit object t

theorem keeps_advanceStagingCleanup (i : Nat) (id : JsString) (at' : Nat)
    (units : List CleanupUnit) : ∀s,Keeps protocol i (·≠i) (OnOk fun _ _ => True)
      (advanceStagingCleanup id at' units) s := by
  induction units with
  | nil => exact fun s => keeps_others (keeps_ret fun _ _ => trivial)
  | cons unit units ih =>
    intro s
    rw [advanceStagingCleanup]
    apply Keeps.seq (keeps_advanceUnit i id at' unit s)
    exact fun _ t _ _ => ih t

theorem world_harmless (i : Nat) (hop : op.isWorld=true) (h : Sound s) :
    Harmless s (handle i op s).2 := by
  have hsame : ∀t : Store,t.objects=s.objects → t.deletes=s.deletes →
      t.lostDeletes=s.lostDeletes → t.references=s.references → t.deletions=s.deletions →
      t.writes=s.writes → t.bucket=s.bucket → Harmless s t := by
    intro t ho hd hl hr hx hw hb
    refine h.frame ho hd hl hr hx ?_ fun k o hk => by rw [hb]; exact hk
    intro k hk
    rw [Store.openWrite,hw]
    exact hk
  cases op with
  | insertCleanup id p days at' =>
    change Harmless s (s.insertStagingCleanup id p days at')
    rw [Store.insertStagingCleanup]
    split
    · split
      · exact hsame _ rfl rfl rfl rfl rfl rfl rfl
      · exact .refl h
    · exact .refl h
  | settlePreparation id p => exact hsame _ rfl rfl rfl rfl rfl rfl rfl
  | retain keys => exact hsame _ rfl rfl rfl rfl rfl rfl rfl
  | backup covers => exact hsame _ rfl rfl rfl rfl rfl rfl rfl
  | landPut n =>
    cases hn : s.lostPuts[n]? with
    | none =>
      simp only [handle,hn]
      exact .refl h
    | some p =>
      simp only [handle,hn]
      have herase : Harmless s { s with lostPuts := s.lostPuts.eraseIdx n } :=
        hsame _ rfl rfl rfl rfl rfl rfl rfl
      exact herase.trans (put_harmless herase.sound p.1 p.2)
  | landDelete n =>
    cases hn : s.lostDeletes[n]? with
    | none =>
      simp only [handle,hn]
      exact .refl h
    | some l =>
      simp only [handle,hn]
      exact landDelete_harmless h hn
  | _ => cases hop

theorem started_keeps {p : Program Unit} (hp : Started p) (i : Nat) (s : Store) :
    Keeps protocol i (·≠i) (OnOk fun _ _ => True) p s := by
  cases hp with
  | preparation candidate preparation units last =>
    exact keeps_others (keeps_advancePublicationPreparation i candidate preparation units last s)
  | cleanup id at' units => exact keeps_advanceStagingCleanup i id at' units s
  | world op h =>
    apply keeps_others
    apply keeps_call
    intro t _ hi
    exact ⟨world_harmless i h hi,keeps_ret fun _ _ => trivial⟩

/-- A store before any callback or cleanup; the buckets may hold anything. -/
structure Store.Initial (s : Store) : Prop where
  objects : s.objects=fun _ => none
  writes : s.writes=[]
  deletes : s.deletes=[]
  references : s.references=[]
  lostPuts : s.lostPuts=[]
  lostDeletes : s.lostDeletes=[]
  deletions : s.deletions=[]

theorem Store.Initial.sound (h : s.Initial) : Sound s := by
  refine ⟨fun k o hk => ?_,?_,?_,?_,?_,?_,?_⟩
  · rw [h.objects] at hk
    cases hk
  · rw [h.deletes]
    exact fun d hd => (not_mem_nil hd).elim
  · rw [h.deletes]
    exact nodup_nil
  · rw [h.lostDeletes]
    exact fun l hl => (not_mem_nil hl).elim
  · rw [h.references]
    exact fun r hr => (not_mem_nil hr).elim
  · rw [h.references]
    exact fun r hr => (not_mem_nil hr).elim
  · rw [h.deletions]
    exact fun d hd => (not_mem_nil hd).elim

/-- The pools that callbacks, cleanups and the rest of the system reach from an initial store. -/
def Reached (s : Store) : Pool Op Op.Ans Empty Problem Unit Store → Prop :=
  Pool.Reachable handle (fun _ p => Started p) s

/-- What the component is for: every committed row resolves, and no delete hits a writer or a
later incarnation. -/
structure Published (s : Store) : Prop where
  resolves : ∀r∈s.references,s.Resolves r.toReceipt
  deletions : ∀d∈s.deletions,d.Safe

/-- In every interleaving, deletes are safe, and a row resolves in every state after its commit if
it protects the bucket of its object and the incarnation that was verified was still in force. -/
theorem publication_references_resolve {s : Store} {w : Pool Op Op.Ans Empty Problem Unit Store}
    (hs : s.Initial) (hw : Reached s w) : ((∀r∈w.store.references,r.Guarded) → Published w.store) ∧
    (∀r∈w.store.references,r.Guarded → w.store.Resolves r.toReceipt) ∧
    ∀d∈w.store.deletions,d.Safe := by
  have hstart : ∀t i p,Sound t → Started p → Keeps protocol i (·≠i) (OnOk fun _ _ => True) p t :=
    fun t i p _ hp => started_keeps hp i t
  have hkept : w.Kept protocol (OnOk fun _ _ => True) := Pool.Reachable.kept hw hs.sound hstart
  have hsound : Sound w.store := hkept.inv
  exact ⟨fun hg => ⟨fun r hr => hsound.resolves r hr (hg r hr),hsound.deletions⟩,
    hsound.resolves,hsound.deletions⟩

/-- Buckets and tables without a row, every preparation under way. -/
def Store.blank : Store where
  bucket _ := none
  objects _ := none
  writes := []
  deletes := []
  preparations _ := some ⟨.active,none⟩
  candidates _ := none
  cleanups := []
  references := []
  retained := []
  backup := false
  lostPuts := []
  lostDeletes := []
  deletions := []

theorem blank_initial : Store.blank.Initial := ⟨rfl,rfl,rfl,rfl,rfl,rfl,rfl⟩

def calm (token : String) : Weather := ⟨[],[],[],[],fun _ => js token.toList,fun _ => true⟩

/-- A callback of a preparation that retains one artifact. -/
def retainOne (preparation kind token : String) : Program Unit :=
  advancePublicationPreparation (js "candidate".toList) (js preparation.toList)
    [(calm token,.stage (.artifact 0 (js kind.toList)) (js "record".toList) none)] (calm token)

/-- Preparations A, P and B retain the same record; A fails and its cleanup takes up the object. -/
def reclaimers (kind : String) : List (Program Unit) :=
  [retainOne "A" kind "first",retainOne "P" kind "second",retainOne "B" kind "third",
    .call (.settlePreparation (js "A".toList) ⟨.failed,some 0⟩) fun _ => .ret (),
    .call (.insertCleanup (js "cleanup".toList) (js "A".toList) 1 day) fun _ => .ret (),
    advanceStagingCleanup (js "cleanup".toList) day
      [⟨(pendingObject .root (js "record".toList) none).key,js "delete".toList,true⟩]]

theorem reclaimers_started (kind : String) : ∀p∈reclaimers kind,Started p := by
  intro p hp
  simp only [reclaimers,mem_cons,not_mem_nil,or_false] at hp
  rcases hp with rfl | rfl | rfl | rfl | rfl | rfl
  · exact .preparation _ _ _ _
  · exact .preparation _ _ _ _
  · exact .preparation _ _ _ _
  · exact .world _ rfl
  · exact .world _ rfl
  · exact .cleanup _ _ _

/-- A stores the object and fails, its cleanup deletes it, and P stores it again and commits. -/
def retained : Pool Op Op.Ans Empty Problem Unit Store :=
  Pool.play handle .blank (reclaimers "cards")
    [0,0,0,0,0,3,4,5,5,5,5,5,5,5,5,1,1,1,1,1,1,1,1]

theorem guarded_of_all {rs : List Reference} (h : (rs.all fun r =>
    decide (r.row.binding=r.stored ∧ r.seen=r.admitted))=true) : ∀r∈rs,r.Guarded := by
  intro r hr
  have hb := of_decide_eq_true (all_eq_true.mp h r hr)
  exact ⟨hb.1,hb.2⟩

/-- A stores an exported image record and fails, P verifies it and commits its row, and A's
cleanup deletes it: the row protects the key in the image bucket. -/
def unprotectedImage : Pool Op Op.Ans Empty Problem Unit Store :=
  Pool.play handle .blank (reclaimers "printing_images")
    [0,0,0,0,0,3,1,1,1,1,4,5,5,5,5,5,5,5,5]

/-- P has verified the object when A's cleanup deletes it; B is admitted to its next incarnation
and P commits before B's put. -/
def staleReuse : Pool Op Op.Ans Empty Problem Unit Store :=
  Pool.play handle .blank (reclaimers "cards") [0,0,0,0,0,3,1,1,1,4,5,5,5,5,5,5,5,5,2,2,1]

theorem plays_end : ((retained.store.references.length=1 ∧ retained.store.deletions.length=1) ∧
    (retained.store.references.all fun r =>
      decide (r.row.binding=r.stored ∧ r.seen=r.admitted))=true) ∧
    (unprotectedImage.store.references.any fun r =>
      decide (unprotectedImage.store.bucket r.key=none))=true ∧
    (staleReuse.store.references.any fun r =>
      decide (staleReuse.store.bucket r.key=none))=true := by decide +kernel

theorem publication_references_resolve_retained : (retained.store.references.length=1 ∧
    retained.store.deletions.length=1) ∧ Published retained.store := by
  have hreached : Reached .blank retained := Pool.reachable_play (reclaimers_started _) _
  have hresolve := (publication_references_resolve blank_initial hreached).1
  exact ⟨plays_end.1.1,hresolve (guarded_of_all plays_end.1.2)⟩

theorem not_published
    (h : (s.references.any fun r => decide (s.bucket r.key=none))=true) : ¬Published s := by
  intro hp
  obtain ⟨r,hr,hn⟩ := any_eq_true.mp h
  obtain ⟨o,ho,-⟩ := hp.resolves r hr
  rw [of_decide_eq_true hn] at ho
  cases ho

theorem published_reference_lost : Store.blank.Initial ∧
    (Reached .blank unprotectedImage ∧ ¬Published unprotectedImage.store) ∧
    Reached .blank staleReuse ∧ ¬Published staleReuse.store :=
  ⟨blank_initial,⟨Pool.reachable_play (reclaimers_started _) _,not_published plays_end.2.1⟩,
    Pool.reachable_play (reclaimers_started _) _,not_published plays_end.2.2⟩

end CardKeepr.Staging
