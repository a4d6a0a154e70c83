import CardKeepr.Reconciliation.ReducerSteps
import CardKeepr.Shared.CanonicalTies
import Mathlib.Data.List.Chain

namespace CardKeepr.Reconciliation

open Lib Shared List Durable ReducerStore

section
variable (nfc : Nfc)

/-- Every checkpoint of the run is an observation boundary: along it, an index is written only in
an observation that was begun after the last checkpoint. -/
def Reducer.AtBoundaries : Reducer → Indexes → ReducerStore → (JsString → Prop) → Prop
  | .ret _,_,_,_ => True
  | .fail _,_,_,_ => True
  | .tell _ _,_,_,_ => True
  | .call (.save _) k,ys,u,_ => AtBoundaries (k ()) ys u fun _ => False
  | .call (.store op) k,ys,u,opened =>
    let r := alone (plain refer) (perform nfc ys op) u
    (∀n∈op.writes,opened n) ∧
      match r.result with
      | .ok a => AtBoundaries (k a.1) a.2 r.store fun n => op.begun=some n ∨ opened n
      | .error _ => True

/-- The run of a reducer that nothing interrupts. -/
def Reducer.uninterrupted (p : Reducer) : Outcome ReducerEvent JsString Indexes ReducerStore :=
  alone (plain refer) (p.run nfc (fun _ => .fresh) []) .empty

/-- An attempt restarted at a checkpoint: every index is reopened with `resumeAt`. -/
def Reducer.resume (c : ReducerCheckpoint) : Thread (Durable ReducerCall ReducerCheckpoint)
    (Durable.Answer ReducerCall.Answer) ReducerEvent JsString Indexes :=
  ⟨c.log,c.rest.run nfc (fun n => .resumeAt (c.positions n)) c.log⟩

/-- A point of the uninterrupted run `o`: the rest of it starts from the indexes `ys` and the
store `u` after the events `log`. -/
structure Stage (o : Outcome ReducerEvent JsString Indexes ReducerStore) (rest : Reducer)
    (ys : Indexes) (u : ReducerStore) (log : List ReducerEvent) (opened : JsString → Prop) :
    Prop where
  run : alone (plain refer) (rest.run nfc ys log) u=
    ⟨o.log.drop log.length,o.result,o.store⟩
  told : log <+: o.log
  placed : rest.AtBoundaries nfc ys u opened
  kept : ∀n,(ys n).Kept u n

end

theorem told_next {α : Type} {l r : List α} {e : α} {t : List α} (h : l <+: r)
    (hd : r.drop l.length=e::t) : l++[e] <+: r ∧ r.drop (l++[e]).length=t := by
  obtain ⟨s,rfl⟩ := h
  rw [drop_left] at hd
  subst hd
  refine ⟨⟨t,by simp⟩,?_⟩
  rw [show l++e::t=l++[e]++t by simp,drop_left]

section
variable {nfc : Nfc} {o : Outcome ReducerEvent JsString Indexes ReducerStore}
variable {op : ReducerOp}

theorem save_run (k : Durable.Answer ReducerOp.Reply (.save ()) → Reducer) (ys : Indexes)
    (log : List ReducerEvent) (u : ReducerStore) :
    alone (plain refer) (Reducer.run nfc (.call (.save ()) k) ys log) u=
      let r := alone (plain refer)
        (Reducer.run nfc (k ()) ys (log++[.checkpoint])) u
      ⟨.checkpoint::r.log,r.result,r.store⟩ := rfl

theorem store_run {k : op.Reply → Reducer} {ys : Indexes}
    {log : List ReducerEvent} {u : ReducerStore} {a : op.Reply × Indexes}
    (h : (alone (plain refer) (perform nfc ys op) u).result=.ok a) :
    alone (plain refer) (Reducer.run nfc (.call (.store op) k) ys log) u=
      let s := alone (plain refer)
        (Reducer.run nfc (k a.1) a.2 (log++[.did op a.1]))
        (alone (plain refer) (perform nfc ys op) u).store
      ⟨.did op a.1::s.log,s.result,s.store⟩ := by
  show alone _ (perform nfc ys op >>= _) u=_
  rw [alone_bind,h,(perform_quiet nfc ys op).alone]
  rfl

theorem store_run_fails {k : op.Reply → Reducer} {ys : Indexes}
    {log : List ReducerEvent} {u : ReducerStore} {e : JsString}
    (h : (alone (plain refer) (perform nfc ys op) u).result=.error e) :
    alone (plain refer) (Reducer.run nfc (.call (.store op) k) ys log) u=
      ⟨[],.error e,(alone (plain refer) (perform nfc ys op) u).store⟩ := by
  show alone _ (perform nfc ys op >>= _) u=_
  rw [alone_bind,h,(perform_quiet nfc ys op).alone]

theorem later_rows (rest : Reducer) {ys : Indexes} {u : ReducerStore} {log : List ReducerEvent}
    {opened : JsString → Prop} (hb : rest.AtBoundaries nfc ys u opened) {n d : JsString} {i : Nat}
    {r : StateRow} (hz : (alone (plain refer) (rest.run nfc ys log) u).store.state n d i= some r)
    (hu : u.state n d i=none) : (ys n).ordinal ≤ i ∧ (¬opened n → (ys n).ordinal < i) := by
  induction rest generalizing ys u log opened with
  | ret a =>
    rw [show u.state n d i=some r from hz] at hu
    cases hu
  | fail e =>
    rw [show u.state n d i=some r from hz] at hu
    cases hu
  | tell e p ih => exact nomatch e
  | call op k ih =>
    cases op with
    | save c =>
      obtain ⟨h1,h2⟩ := ih () hb hz hu
      exact ⟨h1,fun _ => h2 (fun h => h)⟩
    | store op =>
      rw [Reducer.AtBoundaries] at hb
      obtain ⟨hw,hrest⟩ := hb
      have hp := perform_performed nfc ys op u
      have hnew : ∀v : ReducerStore,v.state n d i≠u.state n d i →
          (∀n d o,v.state n d o≠u.state n d o →
            n∈op.writes ∧ o=(ys n).ordinal ∨ op.begun=some n ∧ o=(ys n).ordinal+1) →
          (ys n).ordinal ≤ i ∧ (¬opened n → (ys n).ordinal < i) := by
        intro v hne hrows
        rcases hrows n d i hne with ⟨hin,he⟩ | ⟨-,he⟩
        · exact ⟨by omega,fun ho => (ho (hw n hin)).elim⟩
        · exact ⟨by omega,fun _ => by omega⟩
      cases hr : (alone (plain refer) (perform nfc ys op) u).result with
      | error e =>
        rw [store_run_fails hr] at hz
        exact hnew _ (by rw [hu]; intro h; rw [hz] at h; cases h) hp.rows
      | ok a =>
        rw [store_run hr] at hz
        simp only [hr] at hrest
        by_cases hold : (alone (plain refer) (perform nfc ys op) u).store.state n d i=none
        · obtain ⟨h1,h2⟩ := ih a.1 hrest hz hold
          rw [hp.ordinal a hr n] at h1 h2
          split at h1
          · exact ⟨by omega,fun _ => by omega⟩
          · rename_i hne
            rw [if_neg hne] at h2
            exact ⟨by omega,fun ho => by
              have := h2 fun h => h.elim hne ho
              omega⟩
        · exact hnew _ (by rw [hu]; exact hold) hp.rows

variable {rest : Reducer} {xs ys : Indexes} {u : ReducerStore} {log : List ReducerEvent}
  {opened : JsString → Prop}

theorem Stage.grown (h : Stage nfc o rest ys u log opened) : u ≤ o.store := by
  have hg := alone_grows
    (F := reducerReference u [] (fun _ _ => True) fun _ _ _ _ h => h) (rest.run nfc ys log) u
  change u ≤ (alone (plain refer) (rest.run nfc ys log) u).store at hg
  rwa [h.run] at hg

theorem Stage.frozen (h : Stage nfc o rest ys u log opened) {n : JsString} {i : Nat}
    (hi : i ≤ (ys n).ordinal ∨ ¬opened n ∧ i ≤ (ys n).ordinal+1) : Frozen u o.store n i := by
  intro d j r hj hz
  cases hu : u.state n d j with
  | some s =>
    have := h.grown.1 _ _ _ _ hu
    rw [hz] at this
    exact this.symm
  | none =>
    have hrun := h.run
    obtain ⟨h1,h2⟩ := later_rows rest h.placed (show (alone (plain refer)
      (rest.run nfc ys log) u).store.state n d j=some r by rw [hrun]; exact hz) hu
    rcases hi with hi | ⟨ho,hi⟩
    · omega
    · have := h2 ho
      omega

/-- A retained checkpoint stands at a point of the uninterrupted run whose effects are all there. -/
def GoodCheckpoint (nfc : Nfc) (o : Outcome ReducerEvent JsString Indexes ReducerStore)
    (c : ReducerCheckpoint) (u : ReducerStore) : Prop :=
  ∃v ys,v ≤ u ∧ (∀n,c.positions n=(ys n).ordinal) ∧ Stage nfc o c.rest ys v c.log fun _ => False

theorem goodCheckpoint_mono (nfc : Nfc) (o : Outcome ReducerEvent JsString Indexes ReducerStore)
    (c : ReducerCheckpoint) (u v : ReducerStore) (h : u ≤ v) (hc : GoodCheckpoint nfc o c u) :
    GoodCheckpoint nfc o c v := by
  obtain ⟨w,ys,hw,hrest⟩ := hc
  exact ⟨w,ys,le_trans hw h,hrest⟩

def runReference (nfc : Nfc) (o : Outcome ReducerEvent JsString Indexes ReducerStore) :
    Durable.Reference ReducerCall ReducerCheckpoint ReducerCall.Answer ReducerEvent ReducerStore :=
  reducerReference o.store o.log (GoodCheckpoint nfc o) (goodCheckpoint_mono nfc o)

theorem Stage.saved {k : Durable.Answer ReducerOp.Reply (.save ()) → Reducer}
    (h : Stage nfc o (.call (.save ()) k) ys u log opened) :
    Stage nfc o (k ()) ys u (log++[.checkpoint]) fun _ => False := by
  have hrun := h.run
  rw [save_run] at hrun
  injection hrun with h1 h2 h3
  obtain ⟨ht,hd⟩ := told_next h.told h1.symm
  refine ⟨?_,ht,h.placed,h.kept⟩
  rw [hd,←h2,←h3]

theorem Stage.did {k : op.Reply → Reducer} {a : op.Reply × Indexes}
    (h : Stage nfc o (.call (.store op) k) ys u log opened)
    (hr : (alone (plain refer) (perform nfc ys op) u).result=.ok a) :
    Stage nfc o (k a.1) a.2 (alone (plain refer) (perform nfc ys op) u).store
      (log++[.did op a.1]) fun n => op.begun=some n ∨ opened n := by
  have hrun := h.run
  rw [store_run hr] at hrun
  injection hrun with h1 h2 h3
  obtain ⟨ht,hd⟩ := told_next h.told h1.symm
  have hp := h.placed
  rw [Reducer.AtBoundaries] at hp
  have hplaced := hp.2
  simp only [hr] at hplaced
  refine ⟨?_,ht,hplaced,(perform_performed nfc ys op u).kept h.kept a hr⟩
  rw [hd,←h2,←h3]

theorem run_follows (rest : Reducer) {xs ys : Indexes} {u : ReducerStore}
    {log : List ReducerEvent} {opened : JsString → Prop} (h : Stage nfc o rest ys u log opened)
    (hx : ∀n,Reopened u o.store n (xs n) (ys n)) (ho : ∀n,opened n → xs n=ys n) :
    Durable.Follows (runReference nfc o) (fun a b => ∀n,(a n).ordinal=(b n).ordinal)
      (rest.run nfc xs log) (rest.run nfc ys log) u := by
  induction rest generalizing xs ys u log opened with
  | ret a => exact follows_ret (fun n => (hx n).ordinal) u
  | fail e => exact follows_fail e u
  | tell e p ih => exact nomatch e
  | call op k ih =>
    cases op with
    | save c =>
      have hs := h.saved
      refine follows_save ⟨u,ys,le_refl u,fun n => (hx n).ordinal,hs⟩ ?_
      exact follows_tell _ (ih () hs hx fun n hn => hn.elim)
    | store op =>
      have hw : ∀n∈op.writes,xs n=ys n := by
        have hp := h.placed
        rw [Reducer.AtBoundaries] at hp
        exact fun n hn => ho n (hp.1 n hn)
      refine follows_bind (perform_follows nfc op h.kept
        (fun n => h.frozen (.inl (le_refl _))) hx hw h.grown) fun a b hab hr => ?_
      obtain ⟨a1,a2⟩ := a
      obtain ⟨rfl,hidx⟩ := hab
      have hs := h.did hr
      refine follows_tell _ (ih b.1 hs (fun n => ?_) fun n hn => ?_)
      · rcases hidx n with ⟨h1,h2⟩ | he
        · rw [h1,h2]
          rcases hx n with he | ⟨he,hf⟩
          · exact .inl he
          · refine .inr ⟨he,fun d j r hj hz => ?_⟩
            exact (alone_grows (F := runReference nfc o) (perform nfc ys op) u).1 _ _ _ _
              (hf d j r hj hz)
        · exact .inl he
      · rcases hidx n with ⟨h1,h2⟩ | he
        · rcases hn with hb | hn
          · -- the index was begun by this call, so it is the same in both
            have := (perform_performed nfc ys op u).ordinal b hr n
            rw [h2,if_pos hb] at this
            omega
          · rw [h1,h2]
            exact ho n hn
        · exact he

/-- A single read directly after a window or a paired read returns what that read returned for its
key. -/
def Agrees : ReducerEvent → ReducerEvent → Prop
  | .did (.getMany space keys) (some values),.did (.get space' key) value =>
    space'=space → key∈keys → values.lookup key=some value
  | .did (.getAlongside space key other otherKey) values,.did (.get space' key') value =>
    (space'=space → key'=key → values.1=value) ∧ (space'=other → key'=otherKey → values.2=value)
  | _,_ => True

theorem first_event {e : ReducerEvent} {l : List ReducerEvent}
    (hl : (alone (plain refer) (rest.run nfc ys log) u).log=e::l) : e=.checkpoint ∨ ∃op a,e=.did op
    a.1 ∧ (alone (plain refer) (perform nfc ys op) u).result=.ok a := by
  cases rest with
  | ret a => cases hl
  | fail e => cases hl
  | tell e p => exact nomatch e
  | call op k =>
    cases op with
    | save c =>
      rw [save_run] at hl
      injection hl with he
      exact .inl he.symm
    | store op =>
      cases hr : (alone (plain refer) (perform nfc ys op) u).result with
      | error e =>
        rw [store_run_fails hr] at hl
        cases hl
      | ok a =>
        rw [store_run hr] at hl
        injection hl with he
        exact .inr ⟨op,a,he.symm,hr⟩

theorem read_result {α : Type} {p : ReducerProg α} {b : α × Indexes} (hp : Durable.Reads refer p)
    (h : (alone (plain refer) (p >>= fun a => pure (a,ys)) u).result=.ok b) :
    (alone (plain refer) p u).result=.ok b.1 ∧ b.2=ys ∧
      (alone (plain refer) (p >>= fun a => pure (a,ys)) u).store=u := by
  rw [alone_bind] at h ⊢
  cases hr : (alone (plain refer) p u).result with
  | error e =>
    rw [hr] at h
    cases h
  | ok a =>
    rw [hr] at h
    obtain rfl := Except.ok.inj h
    exact ⟨rfl,rfl,hp.alone u⟩

theorem next_agrees {op' : ReducerOp} {a : op.Reply × Indexes} {b : op'.Reply × Indexes}
    (h : ∀n,(ys n).Kept u n)
    (ha : (alone (plain refer) (perform nfc ys op) u).result=.ok a)
    (hb : (alone (plain refer) (perform nfc a.2 op')
      (alone (plain refer) (perform nfc ys op) u).store).result=.ok b) :
    Agrees (.did op a.1) (.did op' b.1) := by
  cases op with
  | getMany space keys =>
    obtain ⟨h1,h2,h3⟩ := read_result (getMany_reads _ _ _) ha
    rw [h2,show (alone _ (perform nfc ys (.getMany space keys)) u).store=u from h3] at hb
    cases op' with
    | get space' key =>
      obtain ⟨h4,-,-⟩ := read_result (get_reads _ _ _) hb
      obtain ⟨values,a2⟩ := a
      cases values with
      | none => trivial
      | some values =>
        rintro rfl hkey
        obtain ⟨v,hv,hl⟩ := getMany_agrees (h _) h1 hkey
        rw [hv] at h4
        rw [hl,Except.ok.inj h4]
    | _ => cases a.1 <;> trivial
  | getAlongside space key other otherKey =>
    obtain ⟨h1,h2,h3⟩ := read_result (getAlongside_reads _ _ _ _ _ _) ha
    rw [h2,show (alone _ (perform nfc ys (.getAlongside space key other otherKey)) u).store=u
      from h3] at hb
    cases op' with
    | get space' key' =>
      obtain ⟨h4,-,-⟩ := read_result (get_reads _ _ _) hb
      obtain ⟨h5,h6⟩ := getAlongside_agrees (h _) (h _) h1
      constructor
      · rintro rfl rfl
        rw [h5] at h4
        exact Except.ok.inj h4
      · rintro rfl rfl
        rw [h6] at h4
        exact Except.ok.inj h4
    | _ => trivial
  | _ => trivial

theorem run_agrees (rest : Reducer) {ys : Indexes} {u : ReducerStore} {log : List ReducerEvent}
    (h : ∀n,(ys n).Kept u n) :
    (alone (plain refer) (rest.run nfc ys log) u).log.IsChain Agrees := by
  induction rest generalizing ys u log with
  | ret a => exact .nil
  | fail e => exact .nil
  | tell e p ih => exact nomatch e
  | call op k ih =>
    cases op with
    | save c =>
      rw [save_run]
      have hrest : (alone (plain refer)
        (Reducer.run nfc (k ()) ys (log++[.checkpoint])) u).log.IsChain Agrees := ih () h
      dsimp only
      generalize (alone (plain refer)
        (Reducer.run nfc (k ()) ys (log++[.checkpoint])) u).log=l at hrest ⊢
      cases l with
      | nil => exact .singleton _
      | cons e l => exact .cons_cons trivial hrest
    | store op =>
      cases hr : (alone (plain refer) (perform nfc ys op) u).result with
      | error e =>
        rw [store_run_fails hr]
        exact .nil
      | ok a =>
        rw [store_run hr]
        have hk := (perform_performed nfc ys op u).kept h a hr
        have hrest : (alone (plain refer)
            (Reducer.run nfc (k a.1) a.2 (log++[.did op a.1]))
            (alone (plain refer) (perform nfc ys op) u).store).log.IsChain
              Agrees := ih a.1 hk
        dsimp only
        cases hl : (alone (plain refer) (Reducer.run nfc (k a.1) a.2 (log++[.did op a.1]))
            (alone (plain refer) (perform nfc ys op) u).store).log with
        | nil => exact .singleton _
        | cons e l =>
          rw [hl] at hrest
          refine .cons_cons ?_ hrest
          rcases first_event hl with rfl | ⟨op',b,rfl,hb⟩
          · cases op with
            | getMany space keys => cases a.1 <;> trivial
            | _ => trivial
          · exact next_agrees h hr hb

end

/-- Replay determinism: whatever attempts ran before, in whatever order and wherever they were cut,
an attempt has answered as the uninterrupted run does, has failed only as that run fails, and has
left that run's rows when it is done. -/
theorem reducer_replays (nfc : Nfc) (p : Reducer)
    (hp : p.AtBoundaries nfc (fun _ => .fresh) .empty fun _ => True)
    {w : World (Durable ReducerCall ReducerCheckpoint) (Durable.Answer ReducerCall.Answer)
      ReducerEvent JsString Indexes (ReducerStore × List ReducerCheckpoint)}
    (hw : World.Reachable (handle refer)
      (Durable.Starts (p.run nfc (fun _ => .fresh) []) (Reducer.resume nfc)) (.empty,[]) w) :
    ∀t∈w.threads,t.log <+: (p.uninterrupted nfc).log ∧ t.log.IsChain Agrees ∧
      (∀xs,t.prog=.ret xs → t.log=(p.uninterrupted nfc).log ∧
        (∃ys,(p.uninterrupted nfc).result=.ok ys ∧ ∀n,(xs n).ordinal=(ys n).ordinal) ∧
        ∀space digest before,reducerStateStatement w.store.1 space digest before=
          reducerStateStatement (p.uninterrupted nfc).store space digest before) ∧
      ∀e,t.prog=.fail e → t.log=(p.uninterrupted nfc).log ∧
        (p.uninterrupted nfc).result=.error e := by
  have hstage : Stage nfc (p.uninterrupted nfc) p (fun _ => .fresh) .empty [] fun _ => True :=
    ⟨rfl,⟨_,rfl⟩,hp,fresh_kept⟩
  have hall := replays (F := runReference nfc (p.uninterrupted nfc))
    (run_follows p hstage (fun n => .inl rfl) fun _ _ => rfl) hstage.run ?_ hw
  · intro t ht
    obtain ⟨hlog,-,hret,hfail⟩ := hall t ht
    refine ⟨hlog,?_,fun xs hxs => ?_,fun e he => ?_⟩
    · rw [prefix_iff_eq_take.mp hlog]
      exact (run_agrees p fresh_kept).take _
    · obtain ⟨h1,h2,h3⟩ := hret xs hxs
      refine ⟨h1,?_,fun space digest before => ?_⟩
      · cases hr : (p.uninterrupted nfc).result with
        | ok ys =>
          rw [hr] at h2
          exact ⟨ys,rfl,h2⟩
        | error e =>
          rw [hr] at h2
          exact h2.elim
      · rw [h3]
        rfl
    · obtain ⟨h1,h2,-⟩ := hfail e he
      exact ⟨h1,h2⟩
  · rintro c u ⟨v,ys,hv,hpos,hs⟩
    refine ⟨c.rest.run nfc ys c.log,v,hv,run_follows c.rest hs (fun n => ?_) fun n h => h.elim,
      hs.run,hs.told⟩
    exact .inr ⟨congrArg _ (hpos n),hs.frozen (.inr ⟨fun h => h,le_refl _⟩)⟩

/-- The content of a row that holds a one-digit number. -/
def digitContent (digit : Char) : JsString :=
  js ("\x7b\"contract\":\"card-keepr-partitioned-record@1\",\"text_parts\":[],\"value\":".toList++
    [digit,'\x7d'])

def digitWrite (ordinal : Nat) (digit : Char) : PreparedWrite :=
  ⟨js ['n'],sha256Text (js ['k']),ordinal,digitContent digit,sha256Text (digitContent digit),true⟩

theorem head_text :
    "\x7b\"contract\":\"card-keepr-partitioned-record@1\",\"text_parts\":[],\"value\":".toList=
    ['\x7b','"','c','o','n','t','r','a','c','t','"',':','"','c','a','r','d','-','k','e','e','p',
      'r','-','p','a','r','t','i','t','i','o','n','e','d','-','r','e','c','o','r','d','@','1','"',
      ',','"','t','e','x','t','_','p','a','r','t','s','"',':','[',']',',','"','v','a','l','u','e',
      '"',':'] := String.toList_ofList

theorem digit_content {v : Json} {digit : Char} (hi : v.Integral)
    (hv : (v.canonical acute).print=js [digit]) (he : envelope acute v=⟨v,[]⟩) :
    canonicalJson acute (envelope acute v).json=.ok (digitContent digit) := by
  rw [he,canonicalJson_envelope acute hi,digitContent,head_text,contract_text,text_parts_text,
    value_text,record_contract_text]
  generalize v.canonical acute=w at hv
  simp only [Json.print,printMembers,hv]
  rfl

theorem store_run_result {nfc : Nfc} {op : ReducerOp} {k : op.Reply → Reducer} {ys zs : Indexes}
    {log : List ReducerEvent} {u v : ReducerStore} {a : op.Reply}
    (h : alone (plain refer) (perform nfc ys op) u=⟨[],.ok (a,zs),v⟩) :
    (alone (plain refer) (Reducer.run nfc (.call (.store op) k) ys log) u).result=
    (alone (plain refer) (Reducer.run nfc (k a) zs (log++[.did op a])) v).result := by
  rw [store_run (by rw [h]),h]

theorem prepareWrite_digit {x : IndexState} {m : ℚ} {digit : Char}
    (hc : canonicalJson acute (envelope acute (.num m)).json=.ok (digitContent digit))
    (hb : byteLength (digitContent digit) ≤ 524288) (u : ReducerStore) :
    alone (plain refer) (prepareWrite acute x ⟨js ['n'],js ['k'],.num m⟩) u=
      ⟨[],.ok (digitWrite x.ordinal digit),u⟩ := by
  show alone _ (boundWrite acute x ⟨js ['n'],js ['k'],.num m⟩ (envelope acute (.num m))) u=_
  rw [boundWrite,hc]
  simp only [if_neg (Nat.not_lt.mpr hb)]
  rfl

theorem commitWrite_verdict {w : PreparedWrite} (h0 : w.ordinal≠0) (u : ReducerStore) : alone
    (plain refer) (commitWrite w) u= alone (plain refer) (verdict (retainReducerState u w).2 [w])
    (retainReducerState u w).2 := by
  have he : alone (plain refer) (commitWrite w) u=
      alone (plain refer)
        (finishWrite w (refer (.retainStates [w]) u).1)
        (refer (.retainStates [w]) u).2 := rfl
  rw [he,retainStates_refer,if_neg (by simpa using h0)]
  exact finishWrite_alone (retainReducerStates_answered [w] u)

/-- A reducer that sets one key twice in one observation. -/
def twoValues : Reducer :=
  .call (.store (.beginObservation (js ['n']))) fun _ =>
  .call (.store (.set ⟨js ['n'],js ['k'],.num 1⟩)) fun _ =>
  .call (.store (.set ⟨js ['n'],js ['k'],.num 2⟩)) fun _ => .ret ()

theorem set_digit (xs : Indexes) (m : ℚ) (digit : Char) (u : ReducerStore)
    (hc : canonicalJson acute (envelope acute (.num m)).json=.ok (digitContent digit))
    (hb : byteLength (digitContent digit) ≤ 524288) (h0 : (xs (js ['n'])).ordinal≠0) :
    let w := digitWrite (xs (js ['n'])).ordinal digit
    alone (plain refer) (perform acute xs (.set ⟨js ['n'],js ['k'],.num m⟩)) u=
      if (retainReducerState u w).2.at w=some w.row then
        ⟨[],.ok ((),xs.accept w),(retainReducerState u w).2⟩
      else ⟨[],.error reducerReplayChanged,(retainReducerState u w).2⟩ := by
  intro w
  rw [perform,set,Prog.bind_assoc,alone_bind,prepareWrite_digit hc hb]
  simp only [Prog.bind_assoc]
  rw [alone_bind,commitWrite_verdict h0,verdict]
  simp only [mem_singleton,forall_eq]
  by_cases h : (retainReducerState u w).2.at w=some w.row
  · rw [if_pos h,if_pos h]
    rfl
  · rw [if_neg h,if_neg h]
    rfl

theorem digitWrite_stored (ordinal : Nat) (digit : Char) :
    (digitWrite ordinal digit).stored.content=storedText (digitContent digit) := by
  rw [digitWrite,PreparedWrite.stored]

theorem digitWrite_row (ordinal : Nat) (digit : Char) :
    (digitWrite ordinal digit).row.content=digitContent digit := by
  rw [digitWrite,PreparedWrite.row]

theorem storedText_digit : storedText (digitContent '1')=digitContent '1' := by
  rw [digitContent,head_text]
  decide

theorem digits_short : byteLength (digitContent '1') ≤ 524288 ∧
    byteLength (digitContent '2') ≤ 524288 := by
  rw [digitContent,digitContent,head_text]
  decide

theorem digits_differ : digitContent '1'≠digitContent '2' := by
  rw [digitContent,digitContent,head_text]
  decide

theorem first_value : ∀xs : Indexes,(xs (js ['n'])).ordinal=1 →
    let w := digitWrite 1 '1'
    alone (plain refer)
      (perform acute xs (.set ⟨js ['n'],js ['k'],.num 1⟩)) .empty=
    ⟨[],.ok ((),xs.accept w),(retainReducerState .empty w).2⟩ := by
  intro xs hx
  have h := set_digit xs 1 '1' .empty (digit_content rfl rfl rfl) digits_short.1
    (by rw [hx]; decide)
  rw [hx] at h
  rw [h,if_pos]
  rw [retainReducerState_at]
  simp [ReducerStore.at,ReducerStore.empty,PreparedWrite.stored,PreparedWrite.row,digitWrite,
    storedText_digit]

def retainedOne : ReducerStore := (retainReducerState .empty (digitWrite 1 '1')).2

theorem second_value : ∀xs : Indexes,(xs (js ['n'])).ordinal=1 → (alone (plain refer)
      (perform acute xs (.set ⟨js ['n'],js ['k'],.num 2⟩)) retainedOne).result=
      .error reducerReplayChanged := by
  intro xs hx
  have h := set_digit xs 2 '2' retainedOne
    (digit_content rfl rfl rfl) digits_short.2
    (by rw [hx]; decide)
  rw [hx] at h
  rw [h,if_neg]
  intro hat
  rw [retainReducerState_at] at hat
  have hat1 : retainedOne.at (digitWrite 1 '2')=
      some (digitWrite 1 '1').stored := by
    have hplace : ∀u : ReducerStore,u.at (digitWrite 1 '2')=u.at (digitWrite 1 '1') := by
      intro u
      rw [ReducerStore.at,ReducerStore.at,digitWrite,digitWrite]
    rw [hplace]
    exact retainReducerState_at .empty (digitWrite 1 '1')
  rw [hat1,Option.getD_some] at hat
  have hcontent := congrArg StateRow.content (Option.some.inj hat)
  rw [digitWrite_stored,digitWrite_row,storedText_digit] at hcontent
  exact digits_differ hcontent

def opened : Indexes :=
  Function.update (fun _ => .fresh) (js ['n']) IndexState.fresh.beginObservation

def written : Indexes := opened.accept (digitWrite 1 '1')

theorem opened_ordinal : (opened (js ['n'])).ordinal=1 := by
  simp [opened,IndexState.beginObservation,IndexState.fresh]

theorem oneValue_begin : alone (plain refer) (perform acute (fun _ => .fresh)
    (.beginObservation (js ['n']))) .empty=⟨[],.ok ((),opened),.empty⟩ := rfl

theorem oneValue_set : alone (plain refer)
    (perform acute opened (.set ⟨js ['n'],js ['k'],.num 1⟩)) .empty=
      ⟨[],.ok ((),written),retainedOne⟩ := first_value opened opened_ordinal

/-- A second value for a key of the same observation is rejected in the uninterrupted run itself. -/
theorem twoValues_rejected : (twoValues.uninterrupted acute).result=.error reducerReplayChanged := by
  have hacc := (accept_accepted opened (w := digitWrite 1 '1') opened_ordinal.symm (js ['n'])).ordinal
  rw [Reducer.uninterrupted,twoValues,store_run_result oneValue_begin,store_run_result oneValue_set]
  rw [store_run_fails (second_value written (hacc.trans opened_ordinal))]

theorem save_run_result {nfc : Nfc} {k : Unit → Reducer} {ys : Indexes} {log : List ReducerEvent}
    {u : ReducerStore} :
    (alone (plain refer) (Reducer.run nfc (.call (.save ()) k) ys log) u).result=
      (alone (plain refer) (Reducer.run nfc (k ()) ys (log++[.checkpoint])) u).result := rfl

theorem atBoundaries_store {nfc : Nfc} {op : ReducerOp} {k : op.Reply → Reducer} {ys : Indexes}
    {u : ReducerStore} {opened : JsString → Prop} (hw : ∀n∈op.writes,opened n)
    (hk : ∀(a : op.Reply × Indexes) v,Reducer.AtBoundaries nfc (k a.1) a.2 v fun n => op.begun=some n ∨ opened n) :
    Reducer.AtBoundaries nfc (.call (.store op) k) ys u opened := by
  rw [Reducer.AtBoundaries]
  refine ⟨hw,?_⟩
  split
  · exact hk _ _
  · trivial

/-- A reducer with a checkpoint between a write and a read of it. -/
def oneValue : Reducer :=
  .call (.store (.beginObservation (js ['n']))) fun _ =>
  .call (.store (.set ⟨js ['n'],js ['k'],.num 1⟩)) fun _ =>
  .call (.save ()) fun _ =>
  .call (.store (.get (js ['n']) (js ['k']))) fun _ => .ret ()

/-- The answer of a read of the value that the same observation has written. -/
def cachedOne : Option Json := (jsonParse (digitContent '1')).bind (Json.member (js "value".toList))

def savedOne : ReducerCheckpoint :=
  ⟨fun space => (written space).ordinal,
    .call (.store (.get (js ['n']) (js ['k']))) fun _ => .ret (),
    [.did (.beginObservation (js ['n'])) (),.did (.set ⟨js ['n'],js ['k'],.num 1⟩) (),.checkpoint]⟩

theorem cached_get : perform acute written (.get (js ['n']) (js ['k']))=pure (cachedOne,written) := by
  have hx : written (js ['n'])=⟨1,false,[sha256Text (js ['k'])],
      some ⟨sha256Text (js ['k']),digitContent '1'⟩⟩ := by
    have hshort : byteLength (digitContent '1') ≤ 32768 := by
      rw [digitContent,head_text]
      decide
    rw [written,Indexes.accept]
    simp [digitWrite,opened,accept,IndexState.beginObservation,IndexState.fresh,hshort]
  have hread : readRequest (written (js ['n'])) (js ['k'])=.cached cachedOne := by
    rw [hx,readRequest,if_neg Nat.one_ne_zero]
    simp only [Option.filter,decide_true,if_true]
    rfl
  rw [perform,get,hread]
  rfl

theorem oneValue_result : (oneValue.uninterrupted acute).result=.ok written := by
  have hread : alone (plain refer)
      (perform acute written (.get (js ['n']) (js ['k']))) retainedOne=
        ⟨[],.ok (cachedOne,written),retainedOne⟩ := by
    rw [cached_get]
    rfl
  rw [Reducer.uninterrupted,oneValue,store_run_result oneValue_begin,store_run_result oneValue_set,
    save_run_result,store_run_result hread]
  rfl

theorem oneValue_boundaries : oneValue.AtBoundaries acute (fun _ => .fresh) .empty fun _ => True := by
  apply atBoundaries_store (fun n hn => trivial)
  intro a u
  apply atBoundaries_store (fun n hn => .inr trivial)
  intro a u
  apply atBoundaries_store (fun n hn => (not_mem_nil hn).elim)
  intro a u
  trivial

/-- The first attempt is cut off behind its checkpoint, and one that resumes there completes. -/
theorem oneValue_replays : ∃w xs,World.Reachable (handle refer)
      (Durable.Starts (oneValue.run acute (fun _ => .fresh) []) (Reducer.resume acute)) (.empty,[]) w ∧
    w.store.2=[savedOne] ∧
    w.threads=[⟨savedOne.log,savedOne.rest.run acute written savedOne.log⟩,
      ⟨(oneValue.uninterrupted acute).log,.ret xs⟩] ∧
    (∀n,(xs n).ordinal=(written n).ordinal) ∧
    ∀space digest before,reducerStateStatement w.store.1 space digest before=
      reducerStateStatement (oneValue.uninterrupted acute).store space digest before := by
  have hs : World.Reachable (handle refer)
      (Durable.Starts (oneValue.run acute (fun _ => .fresh) []) (Reducer.resume acute)) (.empty,[])
      ⟨(.empty,[]),[]++[⟨[],oneValue.run acute (fun _ => .fresh) []⟩]⟩ :=
    Relation.ReflTransGen.single (.spawn (.inl rfl))
  have hbegun := World.Reachable.moved hs
  rw [(perform_quiet acute _ _).alone_handle,oneValue_begin] at hbegun
  have hset := World.Reachable.moved (hbegun.tail (World.Step.tell (r := [])))
  rw [(perform_quiet acute _ _).alone_handle,oneValue_set] at hset
  have hcut : World.Reachable (handle refer)
      (Durable.Starts (oneValue.run acute (fun _ => .fresh) []) (Reducer.resume acute)) (.empty,[])
      ⟨(retainedOne,[savedOne]),[⟨savedOne.log,savedOne.rest.run acute written savedOne.log⟩]⟩ :=
    ((hset.tail (World.Step.tell (r := []))).tail (World.Step.call (r := []))).tail
      (World.Step.tell (r := []))
  have hread := World.Reachable.moved
    (hcut.tail (World.Step.spawn (.inr ⟨savedOne,mem_cons_self,rfl⟩)))
  rw [(perform_quiet acute _ _).alone_handle,Outcome.rest] at hread
  dsimp only at hread
  cases hr : (alone (plain refer) (perform acute
      (fun n => .resumeAt (savedOne.positions n)) (.get (js ['n']) (js ['k']))) retainedOne).result with
  | error e =>
    rw [hr] at hread
    have hfail := (reducer_replays acute oneValue oneValue_boundaries hread _
      (mem_append_right _ mem_cons_self)).2.2.2 e rfl
    rw [oneValue_result] at hfail
    cases hfail.2
  | ok r =>
    rw [hr] at hread
    have hdone := hread.tail (World.Step.tell (r := []))
    obtain ⟨hlog,⟨ys,hys,hxs⟩,hrows⟩ := (reducer_replays acute oneValue oneValue_boundaries hdone _
      (mem_append_right _ mem_cons_self)).2.2.1 r.2 rfl
    rw [oneValue_result] at hys
    cases hys
    refine ⟨_,r.2,hdone,rfl,?_,hxs,hrows⟩
    rw [← hlog]
    rfl

end CardKeepr.Reconciliation
