import CardKeepr.Export.DeletionStuck
import CardKeepr.Export.DeletionHistories

namespace CardKeepr.Export

open Lib List

variable {α β : Type} {s t : Store} {id : String} {i : Nat}
variable {retryKey : Option String} {f : DeletionRow → DeletionRow}

/-- The row of then, with the response it had. -/
structure Held (d d' : DeletionRow) : Prop where
  key : d'.idempotency_key=d.idempotency_key
  request : d'.request=d.request
  response : ∀document,d.confirmation_response=some document →
    d'.confirmation_response=some document

structure HeldRetry (r r' : RetryRow) : Prop where
  key : r'.idempotency_key=r.idempotency_key
  deletion : r'.deletion_id=r.deletion_id
  request : r'.request=r.request
  response : ∀document,r.response=some document → r'.response=some document

/-- Keys keep their requests, and their responses once they have them. -/
structure Retains (s t : Store) : Prop where
  deletions : ∀d∈s.deletions,∃d'∈t.deletions,Held d d'
  retries : ∀r∈s.retries,∃r'∈t.retries,HeldRetry r r'

theorem Held.refl (d : DeletionRow) : Held d d := ⟨rfl,rfl,fun _ h => h⟩

theorem HeldRetry.refl (r : RetryRow) : HeldRetry r r := ⟨rfl,rfl,rfl,fun _ h => h⟩

theorem Retains.refl (s : Store) : Retains s s :=
  ⟨fun d hd => ⟨d,hd,Held.refl d⟩,fun r hr => ⟨r,hr,HeldRetry.refl r⟩⟩

theorem Retains.trans {u : Store} (h : Retains s t) (g : Retains t u) : Retains s u := by
  refine ⟨fun d hd => ?_,fun r hr => ?_⟩
  · obtain ⟨d₁,hd₁,h₁⟩ := h.deletions d hd
    obtain ⟨d₂,hd₂,h₂⟩ := g.deletions d₁ hd₁
    exact ⟨d₂,hd₂,h₂.key.trans h₁.key,h₂.request.trans h₁.request,
      fun doc hdoc => h₂.response doc (h₁.response doc hdoc)⟩
  · obtain ⟨r₁,hr₁,h₁⟩ := h.retries r hr
    obtain ⟨r₂,hr₂,h₂⟩ := g.retries r₁ hr₁
    exact ⟨r₂,hr₂,h₂.key.trans h₁.key,h₂.deletion.trans h₁.deletion,h₂.request.trans h₁.request,
      fun doc hdoc => h₂.response doc (h₁.response doc hdoc)⟩

theorem retains_modify {p : DeletionRow → Bool}
    (hd : t.deletions=(s.modify p f).deletions) (hf : ∀d,p d=true → Held d (f d))
    (hr : ∀r∈s.retries,∃r'∈t.retries,HeldRetry r r') : Retains s t := by
  refine ⟨fun d hds => ?_,hr⟩
  rw [hd]
  refine ⟨_,mem_map_of_mem hds,?_⟩
  split
  · exact hf d ‹_›
  · exact Held.refl d

theorem retries_of_eq (h : t.retries=s.retries) : ∀r∈s.retries,∃r'∈t.retries,HeldRetry r r' := by
  rw [h]
  exact fun r hr => ⟨r,hr,HeldRetry.refl r⟩

theorem retains_of_eq (hd : t.deletions=s.deletions)
    (hr : ∀r∈s.retries,∃r'∈t.retries,HeldRetry r r') : Retains s t := by
  refine ⟨?_,hr⟩
  rw [hd]
  exact fun d hd => ⟨d,hd,Held.refl d⟩

theorem retries_unanswered {p : RetryRow → Prop} [DecidablePred p] {document : Document}
    (h : t.retries=s.retries.map fun r => if p r then { r with response := some document } else r)
    (hp : ∀r,p r → r.response=none) : ∀r∈s.retries,∃r'∈t.retries,HeldRetry r r' := by
  intro r hr
  rw [h]
  refine ⟨_,mem_map_of_mem hr,?_⟩
  split
  · refine ⟨rfl,rfl,rfl,fun doc hdoc => ?_⟩
    rw [hp r ‹_›] at hdoc
    cases hdoc
  · exact HeldRetry.refl r

theorem persistResponseOf_retains (retryKey : Option String) (document : Document) :
    Retains s (s.persistResponseOf retryKey document) := by
  cases retryKey with
  | none => exact Retains.refl s
  | some key => exact retains_of_eq rfl (retries_unanswered rfl fun _ hr => hr.2)

theorem handle_retains (op : Op) : Retains s (handle i op s).2 := by
  have hself : Retains s s := Retains.refl s
  have hended : ∀{d d' : DeletionRow} {document : Document},d'.idempotency_key=d.idempotency_key →
      d'.request=d.request →
      d'.confirmation_response=some (d.confirmation_response.getD document) → Held d d' := by
    intro d d' document hk hq hresp
    refine ⟨hk,hq,fun doc hdoc => ?_⟩
    rw [hresp,hdoc]
    rfl
  cases op with
  | delete id key fate =>
    simp only [handle]
    split
    · exact hself
    · exact retains_of_eq rfl (retries_of_eq rfl)
  | insertPlan p =>
    simp only [handle,Store.insertPlan]
    split
    · exact hself
    · exact retains_of_eq rfl (retries_of_eq rfl)
  | confirmDeletion plan request at' token =>
    simp only [handle,Store.confirmDeletion]
    split
    · exact ⟨fun d hd => ⟨d,mem_append_left _ hd,Held.refl d⟩,retries_of_eq rfl⟩
    · exact hself
  | claimLease id retryKey token at' =>
    simp only [handle,Store.claimLease]
    split
    · exact retains_modify rfl (fun d _ => ⟨rfl,rfl,fun _ h => h⟩) (retries_of_eq rfl)
    · exact hself
  | renewLease id retryKey token at' =>
    simp only [handle,Store.renewLease]
    split
    · exact retains_modify rfl (fun d _ => ⟨rfl,rfl,fun _ h => h⟩) (retries_of_eq rfl)
    · exact hself
  | retryDeletion id request at' token =>
    simp only [handle,Store.retryDeletion]
    split
    · refine retains_modify rfl (fun d _ => ⟨rfl,rfl,fun _ h => h⟩) fun r hr => ?_
      exact ⟨r,mem_append_left _ hr,HeldRetry.refl r⟩
    · exact hself
  | persistRetryResponse key document =>
    exact retains_of_eq rfl (retries_unanswered rfl fun _ hr => hr.2)
  | acceptRetry key id document =>
    exact retains_of_eq rfl (retries_unanswered rfl fun _ hr => hr.2.2)
  | acceptConfirmation id document =>
    simp only [handle,Store.acceptConfirmation]
    split
    · exact hself
    · refine retains_modify rfl (fun d hd => ⟨rfl,rfl,fun doc hdoc => ?_⟩) (retries_of_eq rfl)
      rw [(of_decide_eq_true hd).2.2] at hdoc
      cases hdoc
  | completeDeletion id plan retryKey token leaseAt at' document =>
    simp only [handle,Store.completeDeletion]
    split
    · refine Retains.trans ?_ (persistResponseOf_retains retryKey document)
      exact retains_modify rfl (fun d _ => hended rfl rfl rfl) (retries_of_eq rfl)
    · exact hself
  | failDeletion id retryKey token leaseAt document =>
    simp only [handle,Store.failDeletion]
    split
    · refine Retains.trans ?_ (persistResponseOf_retains retryKey document)
      exact retains_modify rfl (fun d _ => hended rfl rfl rfl) (retries_of_eq rfl)
    · exact hself
  | upload key =>
    simp only [handle,Store.upload]
    split
    · exact hself
    · exact retains_of_eq rfl (retries_of_eq rfl)
  | publish revision key digest =>
    simp only [handle,Store.publish]
    split
    · exact hself
    · exact retains_of_eq rfl (retries_of_eq rfl)
  | operate o => exact retains_of_eq rfl (retries_of_eq rfl)
  | _ => exact hself

theorem ended_of_rows (h : ∀d'∈t.deletions,d'.state=.deleted →
    ∃d∈s.deletions,d.id=d'.id ∧ d.state=.deleted) (he : Ended t id) : Ended s id := by
  obtain ⟨d',hd',hid,hdel⟩ := he
  obtain ⟨d,hd,hid',hdel'⟩ := h d' hd' hdel
  exact ⟨d,hd,hid'.trans hid,hdel'⟩

theorem ended_of_modify {p : DeletionRow → Bool} (he : Ended t id)
    (hd : t.deletions=(s.modify p f).deletions)
    (hf : ∀d,p d=true → (f d).id=d.id ∧ ((f d).state=.deleted → d.state=.deleted)) :
    Ended s id := by
  refine ended_of_rows (fun d' hd' hdel => ?_) he
  rw [hd] at hd'
  obtain ⟨d,hds,rfl⟩ := mem_map.mp hd'
  refine ⟨d,hds,?_⟩
  split at hdel
  · rename_i hp
    rw [if_pos hp]
    exact ⟨(hf d hp).1.symm,(hf d hp).2 hdel⟩
  · rename_i hp
    rw [if_neg hp]
    exact ⟨rfl,hdel⟩

/-- The row that the last batch of an execution needs. -/
def Owned (s : Store) (id : String) (retryKey : Option String) (token : String) (at' : Nat) : Prop :=
  ∃d∈s.deletions,Store.owned id retryKey token d=true ∧ Store.leaseAfter at' d=true

/-- A deletion ends by the batch of the owner of its lease. -/
theorem handle_ended {op : Op} (hn : ¬Ended s id) (he : Ended (handle i op s).2 id) : ∃plan retryKey
    token leaseAt at' document, op=.completeDeletion id plan retryKey token leaseAt at' document ∧
    Owned s id retryKey token leaseAt := by
  have hrows : ∀{t : Store},t.deletions=s.deletions → ¬Ended t id := by
    intro t ht hc
    rw [Ended,ht] at hc
    exact hn hc
  cases op with
  | completeDeletion id' plan retryKey token leaseAt at' document =>
    simp only [handle,Store.completeDeletion] at he
    split at he
    swap
    · exact absurd he hn
    · rename_i hok
      rw [Bool.and_eq_true,any_eq_true] at hok
      obtain ⟨d,hd,hown⟩ := hok.1
      rw [Bool.and_eq_true] at hown
      obtain ⟨d',hd',hid,hdel⟩ := he
      rw [persistResponseOf_deletions] at hd'
      obtain ⟨d₀,hd₀,rfl⟩ := mem_map.mp hd'
      split at hid
      · rename_i hp
        obtain rfl : id'=id := (owned_iff.mp hp).1.symm.trans hid
        exact ⟨plan,retryKey,token,leaseAt,at',document,rfl,d,hd,hown⟩
      · rename_i hp
        rw [if_neg hp] at hdel
        exact absurd ⟨d₀,hd₀,hid,hdel⟩ hn
  | confirmDeletion plan request at' token =>
    simp only [handle,Store.confirmDeletion] at he
    split at he
    · refine absurd (ended_of_rows (fun d' hd' hdel => ?_) he) hn
      rcases mem_append.mp hd' with hd' | hd'
      · exact ⟨d',hd',rfl,hdel⟩
      · rw [mem_singleton.mp hd'] at hdel
        cases hdel
    · exact absurd he hn
  | claimLease id' retryKey token at' =>
    simp only [handle,Store.claimLease] at he
    split at he
    · exact absurd (ended_of_modify he rfl fun _ _ => ⟨rfl,fun h => h⟩) hn
    · exact absurd he hn
  | renewLease id' retryKey token at' =>
    simp only [handle,Store.renewLease] at he
    split at he
    · exact absurd (ended_of_modify he rfl fun _ _ => ⟨rfl,fun h => h⟩) hn
    · exact absurd he hn
  | retryDeletion id' request at' token =>
    simp only [handle,Store.retryDeletion] at he
    split at he
    · exact absurd (ended_of_modify he rfl fun _ _ => ⟨rfl,fun h => by cases h⟩) hn
    · exact absurd he hn
  | acceptConfirmation id' document =>
    simp only [handle,Store.acceptConfirmation] at he
    split at he
    · exact absurd he hn
    · exact absurd (ended_of_modify he rfl fun _ _ => ⟨rfl,fun h => h⟩) hn
  | failDeletion id' retryKey token leaseAt document =>
    simp only [handle,Store.failDeletion] at he
    split at he
    · exact absurd (ended_of_modify he (persistResponseOf_deletions _ retryKey document)
        fun _ _ => ⟨rfl,fun h => by cases h⟩) hn
    · exact absurd he hn
  | delete id' key fate =>
    simp only [handle] at he
    split at he
    · exact absurd he hn
    · exact absurd he (hrows rfl)
  | insertPlan p =>
    simp only [handle,Store.insertPlan] at he
    split at he
    · exact absurd he hn
    · exact absurd he (hrows rfl)
  | upload key =>
    simp only [handle,Store.upload] at he
    split at he
    · exact absurd he hn
    · exact absurd he (hrows rfl)
  | publish revision key digest =>
    simp only [handle,Store.publish] at he
    split at he
    · exact absurd he hn
    · exact absurd he (hrows rfl)
  | operate o => exact absurd he (hrows rfl)
  | _ => exact absurd he hn

/-- The statements that only the owner of a lease may make. -/
def Op.owner : Op → Option (String × Option String × String × Nat)
  | .renewLease id retryKey token at' => some (id,retryKey,token,at')
  | .completeDeletion id _ retryKey token leaseAt _ _ => some (id,retryKey,token,leaseAt)
  | .failDeletion id retryKey token leaseAt _ => some (id,retryKey,token,leaseAt)
  | _ => none

theorem not_owned {token : String} {at' : Nat} (h : ¬Owned s id retryKey token at') :
    s.deletions.any (fun d => Store.owned id retryKey token d && Store.leaseAfter at' d)=false := by
  rw [any_eq_false]
  intro d hd hc
  rw [Bool.and_eq_true] at hc
  exact h ⟨d,hd,hc⟩

theorem handle_unowned {op : Op} {token : String} {at' : Nat}
    (ho : op.owner=some (id,retryKey,token,at')) (hn : ¬Owned s id retryKey token at') :
    (handle i op s).2=s := by
  have hany := not_owned hn
  cases op with
  | renewLease id' retryKey' token' now =>
    obtain ⟨rfl,rfl,rfl,rfl⟩ : id'=id ∧ retryKey'=retryKey ∧ token'=token ∧ now=at' := by
      simpa [Op.owner] using ho
    simp only [handle,Store.renewLease]
    rw [if_neg]
    rw [Bool.not_eq_true,any_eq_false]
    intro d' hd' hc
    obtain ⟨d,hd,rfl⟩ := mem_map.mp hd'
    have hfalse := any_eq_false.mp hany d hd
    rw [if_neg hfalse,Bool.and_eq_true,decide_eq_true_eq] at hc
    refine hfalse ?_
    rw [Bool.and_eq_true,Store.leaseAfter,hc.2,Option.any_some,decide_eq_true_eq]
    refine ⟨hc.1,?_⟩
    rw [leaseExpiresAt,EXECUTION_LEASE_MS]
    omega
  | completeDeletion id' plan retryKey' token' leaseAt now document =>
    obtain ⟨rfl,rfl,rfl,rfl⟩ : id'=id ∧ retryKey'=retryKey ∧ token'=token ∧ leaseAt=at' := by
      simpa [Op.owner] using ho
    simp only [handle,Store.completeDeletion]
    rw [hany]
    rfl
  | failDeletion id' retryKey' token' leaseAt document =>
    obtain ⟨rfl,rfl,rfl,rfl⟩ : id'=id ∧ retryKey'=retryKey ∧ token'=token ∧ leaseAt=at' := by
      simpa [Op.owner] using ho
    simp only [handle,Store.failDeletion]
    rw [hany]
    rfl
  | _ => cases ho

/-- Nothing is changed, or the key gets a response where it has none. -/
def AnswersOnly (id : String) (retryKey : Option String) (s t : Store) : Prop :=
  t=s ∨ ∃document,
    (retryKey=none ∧ t=s.modify
      (fun d => decide (d.id=id ∧ d.state=.deleting ∧ d.confirmation_response=none))
      fun d => { d with confirmation_response := some document }) ∨
    ∃key,retryKey=some key ∧ t={ s with retries := s.retries.map fun r =>
      if r.idempotency_key=key ∧ r.deletion_id=id ∧ r.response=none then
        { r with response := some document }
      else r }

theorem handle_waits {op : Op} (h : Waits id retryKey op) :
    AnswersOnly id retryKey s (handle i op s).2 := by
  cases op with
  | response id' key => exact .inl rfl
  | deletionById id' => exact .inl rfl
  | acceptConfirmation id' document =>
    obtain ⟨rfl,rfl⟩ := h
    simp only [handle,Store.acceptConfirmation]
    split
    · exact .inl rfl
    · exact .inr ⟨document,.inl ⟨rfl,rfl⟩⟩
  | acceptRetry key id' document =>
    obtain ⟨rfl,rfl⟩ := h
    exact .inr ⟨document,.inr ⟨key,rfl,rfl⟩⟩
  | _ => exact h.elim

/-- The response that is retained for the key of a request. -/
def Request.retained (s : Store) : Request → Option Document
  | .confirm request _ _ _ _ => (s.deletionByKey request.idempotency_key).bind
    (·.confirmation_response)
  | .retry _ request _ _ _ => (s.retry request.idempotency_key).bind (·.response)
  | _ => none

/-- The key came with this request before. -/
def Request.repeated (s : Store) : Request → Bool
  | .confirm request _ _ _ _ => (s.deletionByKey request.idempotency_key).any fun d =>
    decide (d.request=request)
  | .retry id request _ _ _ => (s.retry request.idempotency_key).any fun q =>
    decide (q.deletion_id=id ∧ q.request=request)
  | _ => false

theorem retained_later {r : Request} {document : Document} (ht : Sound t)
    (h : Retains s t) (hr : r.retained s=some document) : r.retained t=some document := by
  cases r with
  | confirm request at' token v w =>
    obtain ⟨d,hd,hdoc⟩ := Option.bind_eq_some_iff.mp hr
    obtain ⟨hmem,hkey⟩ := mem_of_keyed hd
    obtain ⟨d',hd',hheld⟩ := h.deletions d hmem
    have hfound : t.deletionByKey request.idempotency_key=some d' :=
      keyed_of_mem ht.keys hd' (hheld.key.trans hkey)
    rw [Request.retained,hfound]
    exact hheld.response document hdoc
  | retry id request at' token w =>
    obtain ⟨q,hq,hdoc⟩ := Option.bind_eq_some_iff.mp hr
    obtain ⟨hmem,hkey⟩ := mem_of_keyed hq
    obtain ⟨q',hq',hheld⟩ := h.retries q hmem
    have hfound : t.retry request.idempotency_key=some q' :=
      keyed_of_mem ht.retryKeys hq' (hheld.key.trans hkey)
    rw [Request.retained,hfound]
    exact hheld.response document hdoc
  | prepare request at' v => cases hr
  | upload key => cases hr
  | publish revision key digest => cases hr
  | operate o => cases hr

def reused : Problem := .problem 409 "idempotency_key_reused"

theorem retained_returned {digest : List ObjectKey → String} {planDigest : PlanRow → String}
    {r : Request} {document : Document} (hr : r.retained s=some document) :
    ∃op k,r.program digest planDigest=.call op k ∧
      k (handle i op s).1=if r.repeated s then .ret (some document) else .fail reused := by
  cases r with
  | confirm request at' token v w =>
    obtain ⟨d,hd,hdoc⟩ := Option.bind_eq_some_iff.mp hr
    refine ⟨.deletionByKey request.idempotency_key,_,rfl,?_⟩
    have hans : (handle i (.deletionByKey request.idempotency_key) s).1=some d := hd
    rw [hans,Request.repeated,hd,Option.any_some]
    show some <$> replayConfirmation d request at' token w=_
    by_cases hsame : d.request=request
    · rw [replayConfirmation,if_neg (not_not.mpr hsame),hdoc,decide_eq_true hsame]
      rfl
    · rw [replayConfirmation,if_pos hsame,decide_eq_false hsame]
      rfl
  | retry id request at' token w =>
    obtain ⟨q,hq,hdoc⟩ := Option.bind_eq_some_iff.mp hr
    refine ⟨.retry request.idempotency_key,_,rfl,?_⟩
    have hans : (handle i (.retry request.idempotency_key) s).1=some q := hq
    rw [hans,Request.repeated,hq,Option.any_some]
    show some <$> (if q.deletion_id≠id ∨ q.request≠request then throw' reused
      else _ : Program Document)=_
    by_cases hsame : q.deletion_id=id ∧ q.request=request
    · have hn : ¬(q.deletion_id≠id ∨ q.request≠request) := by
        rw [not_or,not_not,not_not]
        exact hsame
      rw [if_neg hn,hdoc,decide_eq_true hsame]
      rfl
    · rw [if_pos (not_and_or.mp hsame),decide_eq_false hsame]
      rfl
  | prepare request at' v => cases hr
  | upload key => cases hr
  | publish revision key digest => cases hr
  | operate o => cases hr

section

variable (digest : List ObjectKey → String) (planDigest : PlanRow → String)

/-- Requests under way, with the journal of their calls. -/
abbrev Running := Pool Op Op.Ans Empty Problem (Option Document) (Store × Journal Op Op.Ans)

abbrev Step : Running → Running → Prop :=
  Pool.Step (journaled handle) fun s => start digest planDigest s.1

def Leased (s : Store) (id token : String) (now : Nat) : Prop :=
  ∃d∈s.deletions,d.id=id ∧ d.execution_owner_token=some token ∧ Store.leaseAfter now d=true

structure DeletionSafe (w : Running) : Prop where
  owner : ∀id now token token',Leased w.store.1 id token now → Leased w.store.1 id token' now →
    token=token'
  together : ∀d∈w.store.1.deletions,∃p∈w.store.1.plans,∃e∈w.store.1.exports,
    p.id=d.plan_id ∧ e.catalogue_revision_id=d.catalogue_revision_id ∧
    (d.state=.deleted ↔ e.maintenance_state=.deleted) ∧
    (d.state=.deleted ↔ ∃m∈w.store.1.tombstones,m.deletion_id=d.id) ∧
    (d.state=.deleted → Absent w.store.1 p e.manifest_key)
  ended : ∀i op k,w.threads[i]?=some (.call op k) → ∀id,¬Ended w.store.1 id →
    Ended (handle i op w.store.1).2 id → ∃plan retryKey token leaseAt at' document,
      op=.completeDeletion id plan retryKey token leaseAt at' document ∧
      Owned w.store.1 id retryKey token leaseAt ∧ plan∈w.store.1.plans ∧
      (∃d∈w.store.1.deletions,d.id=id ∧ d.plan_id=plan.id) ∧ Observed (w.history i) plan
  removals : ∀r∈w.store.1.removals,Removed w.store.1 r
  keys : ∀p∈w.store.1.plans,∀k∈p.object_keys,k.revision=some p.catalogue_revision_id
  marks : ∀m∈w.store.1.marks,m.1≠m.2
  unowned : ∀i op k,w.threads[i]?=some (.call op k) → ∀id retryKey token at',
    op.owner=some (id,retryKey,token,at') → ¬Owned w.store.1 id retryKey token at' →
      (handle i op w.store.1).2=w.store.1
  lost : ∀i op k,w.threads[i]?=some (.call op k) → ∀m∈w.history i,∀id retryKey,
    refusal m=some (id,retryKey) → AnswersOnly id retryKey w.store.1 (handle i op w.store.1).2
  later : ∀v,Relation.ReflTransGen (Step digest planDigest) w v →
    (∀p∈w.store.1.plans,p∈v.store.1.plans) ∧
    ∀(r : Request) document,r.retained w.store.1=some document →
      ∀i : Nat,v.threads[i]?=some (r.program digest planDigest) →
        (v.move (journaled handle) i).threads[i]?=some
          (if r.repeated v.store.1 then .ret (some document) else .fail reused)

end

section

variable {digest : List ObjectKey → String} {planDigest : PlanRow → String} {s₀ : Store}
  {w v : Running}

theorem Sound.leased (h : Sound s) {token token' : String} {now : Nat}
    (hl : Leased s id token now) (hl' : Leased s id token' now) : token=token' := by
  obtain ⟨d,hd,hid,htoken,-⟩ := hl
  obtain ⟨d',hd',hid',htoken',-⟩ := hl'
  obtain rfl := eq_of_key h.ids hd hd' (hid.trans hid'.symm)
  exact Option.some.inj (htoken.symm.trans htoken')

theorem Sound.together (h : Sound s) {d : DeletionRow} (hd : d∈s.deletions) :
    ∃p∈s.plans,∃e∈s.exports,p.id=d.plan_id ∧ e.catalogue_revision_id=d.catalogue_revision_id ∧
      (d.state=.deleted ↔ e.maintenance_state=.deleted) ∧
      (d.state=.deleted ↔ ∃m∈s.tombstones,m.deletion_id=d.id) ∧
      (d.state=.deleted → Absent s p e.manifest_key) := by
  have hrec := h.deletions d hd
  obtain ⟨p,hp,e,he,hpid,-,-,-,herev,-,hmain,hgone⟩ := hrec.planned
  refine ⟨p,hp,e,he,hpid,herev,?_,⟨fun hdel => ?_,?_⟩,hgone⟩
  · rw [hmain,maintenance_deleted]
  · obtain ⟨m,hm,hmid,-⟩ := hrec.tombstone hdel
    exact ⟨m,hm,hmid⟩
  · rintro ⟨m,hm,hmid⟩
    obtain ⟨d',hd',hid',-,hdel⟩ := h.tombstones m hm
    obtain rfl := eq_of_key h.ids hd' hd (hid'.trans hmid)
    exact hdel

theorem step_retains (h : Step digest planDigest w v) : Retains w.store.1 v.store.1 := by
  cases h with
  | spawn hst => exact Retains.refl _
  | tell ht => exact Retains.refl _
  | call hc => exact handle_retains _

theorem steps_retain (h : Relation.ReflTransGen (Step digest planDigest) w v) :
    Retains w.store.1 v.store.1 := by
  induction h with
  | refl => exact Retains.refl _
  | tail _ hs ih => exact ih.trans (step_retains hs)

theorem steps_plans (h₀ : Fresh s₀)
    (hw : Pool.Reachable (journaled handle) (fun s => start digest planDigest s.1) (s₀,[]) w)
    (h : Relation.ReflTransGen (Step digest planDigest) w v) :
    ∀p∈w.store.1.plans,p∈v.store.1.plans := by
  induction h with
  | refl => exact fun p hp => hp
  | @tail u v hsteps hs ih =>
    have hu := Pool.Reachable.plain (hw.trans hsteps)
    intro p hp
    have hpu := ih p hp
    cases hs with
    | spawn hst => exact hpu
    | tell ht => exact hpu
    | @call s ts j op k hc =>
      have hgrows := handle_sound j op (reachable_sound hu h₀) (reachable_fits hu h₀ hc)
      exact hgrows.2.plans p hpu

/-- In every state that any interleaving of preparations, confirmations, retries and publications
reaches, with any of them cut off anywhere. -/
theorem export_deletion_safe (digest : List ObjectKey → String) (planDigest : PlanRow → String)
    (s₀ : Store) (h₀ : Fresh s₀) (w : Running)
    (hw : Pool.Reachable (journaled handle) (fun s => start digest planDigest s.1) (s₀,[]) w) :
    DeletionSafe digest planDigest w := by
  have hplain := Pool.Reachable.plain hw
  have hsound : Sound w.store.1 := reachable_sound hplain h₀
  have htraced : ∀i (p : Program (Option Document)),w.threads[i]?=some p →
      p.Traced Allowed (fun _ _ => True) (w.history i) := by
    refine (Pool.Reachable.traced hw ?_).1
    rintro s p ⟨r,rfl⟩
    exact program_traced r
  refine ⟨fun id now token token' => hsound.leased,fun d hd => hsound.together hd,?_,
    hsound.removals,?_,hsound.marks,?_,?_,?_⟩
  · intro i op k hi id hn he
    obtain ⟨plan,retryKey,token,leaseAt,at',document,rfl,hown⟩ := handle_ended hn he
    obtain ⟨m,hbound,-⟩ := reachable_fits hplain h₀ hi
    have hobs := (htraced i _ hi).1.observed id plan retryKey token leaseAt at' document rfl
    exact ⟨plan,retryKey,token,leaseAt,at',document,rfl,hown,hbound.planned,hbound.deletion,hobs⟩
  · intro p hp
    obtain ⟨e,hplanned⟩ := hsound.plans p hp
    exact hplanned.keys
  · exact fun i op k _ id retryKey token at' => handle_unowned
  · intro i op k hi m hm id retryKey hr
    exact handle_waits ((htraced i _ hi).1.lost m hm id retryKey hr)
  · intro v hv
    refine ⟨steps_plans h₀ hw hv,fun r document hr i hi => ?_⟩
    have hvsound : Sound v.store.1 := reachable_sound (Pool.Reachable.plain (hw.trans hv)) h₀
    have hrv := retained_later hvsound (steps_retain hv) hr
    obtain ⟨op,k,hp,hk⟩ := @retained_returned v.store.1 i digest planDigest r document hrv
    rw [hp] at hi
    have hlt := (List.getElem?_eq_some_iff.mp hi).1
    rw [Pool.move,hi]
    show (v.threads.set i (k (handle i op v.store.1).1))[i]?=_
    rw [List.getElem?_set_self hlt,hk]

end

/-- The first caller comes back after its lease has expired and another has taken it. -/
def lateThreads : List (Program (Option Document)) :=
  [Request.program objectSetDigest samplePlanDigest
      (.prepare ⟨"rev-1","d1","rev-2","plan-1"⟩ 0 ⟨true,[],true⟩),
    Request.program objectSetDigest samplePlanDigest
      (.confirm sampleConfirmation 1000 "token-a" ⟨true,[],true⟩ (still 302000)),
    Request.program objectSetDigest samplePlanDigest
      (.confirm sampleConfirmation 301000 "token-b" ⟨true,[],true⟩ (still 301000))]

theorem lateThreads_start : ∀p∈lateThreads,start objectSetDigest samplePlanDigest published p := by
  intro p hp
  rcases mem_cons.mp hp with rfl | hp
  · exact ⟨_,rfl⟩
  · rcases mem_cons.mp hp with rfl | hp
    · exact ⟨_,rfl⟩
    · rw [mem_singleton.mp hp]
      exact ⟨_,rfl⟩

/-- The second caller holds the lease, and the first has waited for its response. -/
def overtaken : Running :=
  Pool.play (journaled handle) (published,[]) lateThreads
    (List.replicate 5 0++(List.replicate 8 1++(List.replicate 2 2++List.replicate 9 1)))

theorem overtaken_reachable : Pool.Reachable (journaled handle)
    (fun s => start objectSetDigest samplePlanDigest s.1) (published,[]) overtaken := by
  rw [overtaken]
  refine Pool.reachable_play ?_ _
  exact lateThreads_start

theorem overtaken_safe : DeletionSafe objectSetDigest samplePlanDigest overtaken :=
  export_deletion_safe objectSetDigest samplePlanDigest published published_fresh overtaken
    overtaken_reachable

/-- The caller that lost its lease still changes the row of the deletion. -/
theorem lost_lease_changes_row : Pool.Reachable (journaled handle)
      (fun s => start objectSetDigest samplePlanDigest s.1) (published,[]) overtaken ∧
    (overtaken.history 1).any (fun m => (refusal m).isSome)=true ∧
    (overtaken.move (journaled handle) 1).store.1.deletions≠overtaken.store.1.deletions :=
  ⟨overtaken_reachable,by decide +kernel,by decide +kernel⟩

end CardKeepr.Export
