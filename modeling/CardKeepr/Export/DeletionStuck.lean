import CardKeepr.Shared.Sha256
import CardKeepr.Export.DeletionProgress

namespace CardKeepr.Export

open Lib List

variable {α β : Type} {s t : Store} {id : String}
variable {d : DeletionRow} {f : DeletionRow → DeletionRow} {digest : List ObjectKey → String}

/-- The deletion is under way, and the key that owns its turn has a response. -/
structure Stuck (s : Store) (id : String) : Prop where
  row : ∃d,s.deletionById id=some d ∧ d.state=.deleting ∧
    (s.response id d.retry_owner_idempotency_key).isSome=true
  answered : ∀d∈s.deletions,d.id=id → d.state=.deleting ∧ d.confirmation_response.isSome=true

/-- A call that is about another deletion. -/
def Elsewhere (id : String) : Op → Prop
  | .confirmDeletion _ request _ _ => request.deletion_id≠id
  | .claimLease id' _ _ _ | .renewLease id' _ _ _ | .retryDeletion id' _ _ _
  | .acceptRetry _ id' _ | .acceptConfirmation id' _ | .completeDeletion id' _ _ _ _ _ _
  | .failDeletion id' _ _ _ _ => id'≠id
  | _ => True

def Answers (s t : Store) : Prop := ∀id key document,s.response id (some key)=some document →
  t.response id (some key)=some document

theorem answers_of_eq (h : t.retries=s.retries) : Answers s t := by
  intro id key document hr
  rw [Store.response] at hr ⊢
  rw [h]
  exact hr

theorem Answers.trans {u : Store} (h : Answers s t) (g : Answers t u) : Answers s u :=
  fun id key document hr => g id key document (h id key document hr)

theorem answers_map {g : RetryRow → RetryRow} (h : t.retries=s.retries.map g)
    (hg : ∀r,(g r).idempotency_key=r.idempotency_key ∧ (g r).deletion_id=r.deletion_id ∧
      ∀document,r.response=some document → (g r).response=some document) : Answers s t := by
  intro id key document hr
  rw [Store.response] at hr ⊢
  obtain ⟨r,hf,hdoc⟩ := Option.bind_eq_some_iff.mp hr
  have hp : (fun r : RetryRow => decide (r.idempotency_key=key ∧ r.deletion_id=id))∘g=
      fun r => decide (r.idempotency_key=key ∧ r.deletion_id=id) := by
    funext r
    rw [Function.comp,(hg r).1,(hg r).2.1]
  rw [h,List.find?_map,hp,hf]
  exact (hg r).2.2 document hdoc

theorem answers_append {r : RetryRow} (h : t.retries=s.retries++[r]) : Answers s t := by
  intro id key document hr
  rw [Store.response] at hr ⊢
  obtain ⟨r,hf,hdoc⟩ := Option.bind_eq_some_iff.mp hr
  rw [h,List.find?_append,hf]
  exact hdoc

theorem answers_unanswered {p : RetryRow → Prop} [DecidablePred p] {document : Document}
    (h : t.retries=s.retries.map fun r =>
      if p r then { r with response := some document } else r)
    (hp : ∀r,p r → r.response=none) : Answers s t := by
  refine answers_map h fun r => ?_
  split
  · refine ⟨rfl,rfl,fun d hd => ?_⟩
    rw [hp r ‹_›] at hd
    cases hd
  · exact ⟨rfl,rfl,fun _ hd => hd⟩

theorem persistRetryResponse_answers (key : String) (document : Document) :
    Answers s (s.persistRetryResponse key document) := answers_unanswered rfl fun _ hr => hr.2

theorem persistResponseOf_answers (retryKey : Option String) (document : Document) :
    Answers s (s.persistResponseOf retryKey document) := by
  cases retryKey with
  | none => exact answers_of_eq rfl
  | some key => exact persistRetryResponse_answers key document

theorem persistResponseOf_deletions (s : Store) (retryKey : Option String) (document : Document) :
    (s.persistResponseOf retryKey document).deletions=s.deletions := by
  cases retryKey with
  | none => rfl
  | some key => rfl

theorem acceptRetry_answers (key id : String) (document : Document) :
    Answers s (s.acceptRetry key id document) := answers_unanswered rfl fun _ hr => hr.2.2

theorem Stuck.frame (h : Stuck s id) (hrow : t.deletionById id=s.deletionById id)
    (hrows : ∀d∈t.deletions,d.id=id → d∈s.deletions) (hr : Answers s t) : Stuck t id := by
  obtain ⟨d,hd,hstate,hresp⟩ := h.row
  refine ⟨⟨d,hrow.trans hd,hstate,?_⟩,fun d' hd' hid => h.answered d' (hrows d' hd' hid) hid⟩
  cases ho : d.retry_owner_idempotency_key with
  | some key =>
    rw [ho] at hresp
    obtain ⟨document,hdoc⟩ := Option.isSome_iff_exists.mp hresp
    rw [hr id key document hdoc]
    rfl
  | none =>
    rw [ho] at hresp
    rw [Store.response,hd] at hresp
    rw [Store.response,hrow,hd]
    exact hresp

theorem modify_row {p : DeletionRow → Bool} (hp : ∀d,p d=true → d.id≠id ∧ (f d).id=d.id) :
    (s.modify p f).deletionById id=s.deletionById id ∧
      ∀d∈(s.modify p f).deletions,d.id=id → d∈s.deletions := by
  have hid : ∀d : DeletionRow,(if p d then f d else d).id=d.id := by
    intro d
    split
    · exact (hp d ‹_›).2
    · rfl
  have hsame : ∀d : DeletionRow,d.id=id → (if p d then f d else d)=d :=
    fun d hd => if_neg fun hpd => (hp d hpd).1 hd
  refine ⟨?_,fun d' hd' hid' => ?_⟩
  · rw [Store.deletionById,Store.modify,keyed_map fun d _ => hid d]
    cases hf : s.deletions.find? fun d => decide (d.id=id) with
    | none => rw [Store.deletionById,hf]; rfl
    | some d =>
      rw [Store.deletionById,hf,Option.map_some,hsame d (mem_of_keyed hf).2]
  · obtain ⟨d,hd,rfl⟩ := mem_map.mp hd'
    rw [hid] at hid'
    rw [hsame d hid']
    exact hd

theorem Stuck.modified {p : DeletionRow → Bool} (h : Stuck s id)
    (hd : t.deletions=(s.modify p f).deletions)
    (hp : ∀d,p d=true → d.id≠id ∧ (f d).id=d.id) (hr : Answers s t) : Stuck t id := by
  obtain ⟨hrow,hrows⟩ := modify_row (s := s) hp
  refine h.frame ?_ ?_ hr
  · rw [← hrow,Store.deletionById,Store.deletionById,hd]
  · rw [hd]
    exact hrows

theorem owned_elsewhere {id' token : String} {retryKey : Option String} (hne : id'≠id) (h : Store.owned id' retryKey token d=true) : d.id≠id := by
  rw [(owned_iff.mp h).1]
  exact hne

theorem Stuck.handle {op : Op} (h : Stuck s id) (he : Elsewhere id op) :
    Stuck (handle 0 op s).2 id := by
  have hframe : ∀{t : Store},t.deletions=s.deletions → t.retries=s.retries → Stuck t id := by
    intro t hd hr
    refine h.frame ?_ ?_ (answers_of_eq hr)
    · rw [Store.deletionById,Store.deletionById,hd]
    · rw [hd]
      exact fun d hd _ => hd
  cases op with
  | confirmDeletion plan request at' token =>
    simp only [Export.handle,Store.confirmDeletion]
    split
    swap
    · exact h
    · refine h.frame ?_ ?_ (answers_of_eq rfl)
      · obtain ⟨d,hd,-⟩ := h.row
        rw [hd]
        rw [Store.deletionById] at hd ⊢
        exact List.find?_append.trans (by rw [hd]; rfl)
      · intro d hd hid
        rcases mem_append.mp hd with hd | hd
        · exact hd
        · rw [mem_singleton.mp hd] at hid
          exact absurd hid he
  | claimLease id' retryKey token at' =>
    simp only [Export.handle,Store.claimLease]
    split
    · refine h.modified rfl (fun d hd => ⟨?_,rfl⟩) (answers_of_eq rfl)
      rw [Bool.and_eq_true,decide_eq_true_eq] at hd
      rw [hd.1.1]
      exact he
    · exact h
  | renewLease id' retryKey token at' =>
    simp only [Export.handle,Store.renewLease]
    split
    · refine h.modified rfl (fun d hd => ⟨?_,rfl⟩) (answers_of_eq rfl)
      rw [Bool.and_eq_true] at hd
      exact owned_elsewhere he hd.1
    · exact h
  | retryDeletion id' request at' token =>
    simp only [Export.handle,Store.retryDeletion]
    split
    swap
    · exact h
    · have hp : ∀d : DeletionRow,decide (d.id=id' ∧ d.state=.failed)=true → d.id≠id := by
        intro d hd
        rw [(of_decide_eq_true hd).1]
        exact he
      exact h.modified rfl (fun d hd => ⟨hp d hd,rfl⟩) (answers_append rfl)
  | persistRetryResponse key document =>
    exact h.frame rfl (fun d hd _ => hd) (persistRetryResponse_answers key document)
  | acceptRetry key id' document =>
    exact h.frame rfl (fun d hd _ => hd) (acceptRetry_answers key id' document)
  | acceptConfirmation id' document =>
    simp only [Export.handle,Store.acceptConfirmation]
    split
    · exact h
    · refine h.modified rfl (fun d hd => ⟨?_,rfl⟩) (answers_of_eq rfl)
      rw [(of_decide_eq_true hd).1]
      exact he
  | completeDeletion id' plan retryKey token leaseAt at' document =>
    simp only [Export.handle,Store.completeDeletion]
    split
    · refine h.modified (persistResponseOf_deletions _ retryKey document)
        (fun d hd => ⟨owned_elsewhere he hd,rfl⟩) ?_
      refine Answers.trans ?_ (persistResponseOf_answers retryKey document)
      exact answers_of_eq rfl
    · exact h
  | failDeletion id' retryKey token leaseAt document =>
    simp only [Export.handle,Store.failDeletion]
    split
    · refine h.modified (persistResponseOf_deletions _ retryKey document)
        (fun d hd => ⟨owned_elsewhere he hd,rfl⟩) ?_
      refine Answers.trans ?_ (persistResponseOf_answers retryKey document)
      exact answers_of_eq rfl
    · exact h
  | delete id' key fate =>
    simp only [Export.handle]
    split
    · exact h
    · exact hframe rfl rfl
  | insertPlan plan =>
    simp only [Export.handle,Store.insertPlan]
    split
    · exact h
    · exact hframe rfl rfl
  | upload key =>
    simp only [Export.handle,Store.upload]
    split
    · exact h
    · exact hframe rfl rfl
  | publish revision key digest =>
    simp only [Export.handle,Store.publish]
    split
    · exact h
    · exact hframe rfl rfl
  | operate o => exact hframe rfl rfl
  | _ => exact h

def Stays (id : String) (p : Program α) (s : Store) : Prop :=
  Stuck s id → Stuck (alone (handle 0) p s).store id

theorem stays_only {p : Program α} (h : p.Only (Elsewhere id)) : Stays id p s := by
  intro hs
  induction p generalizing s with
  | ret a => exact hs
  | fail e => exact hs
  | tell e p ih => exact ih h hs
  | call op k ih => exact ih _ (h.2 _) (hs.handle h.1)

theorem stays_call {op : Op} {k : op.Ans → Program α} (he : Elsewhere id op)
    (h : Stuck s id → Stays id (k (handle 0 op s).1) (handle 0 op s).2) :
    Stays id (perform op >>= k) s := fun hs => h hs (hs.handle he)

theorem stays_insist {e : Problem} {b : Bool} {k : Unit → Program α}
    (h : b=true → Stays id (k ()) s) : Stays id (insist e b >>= k) s := by
  cases b with
  | true => exact h rfl
  | false => exact fun hs => hs

theorem stays_required {e : Problem} {o : Option β} {k : β → Program α}
    (h : ∀b,o=some b → Stays id (k b) s) : Stays id (required e o >>= k) s := by
  cases o with
  | none => exact fun hs => hs
  | some b => exact h b rfl

theorem Stays.bind {p : Program α} {f : α → Program β} (hp : Stays id p s)
    (hf : ∀a t,Stays id (f a) t) : Stays id (p >>= f) s := by
  intro hs
  rw [alone_bind]
  cases (alone (handle 0) p s).result with
  | error e => exact hp hs
  | ok a => exact hf a _ (hp hs)

section

variable {id' : String} {retryKey : Option String} {x : Execution} {w : Weather} {token : String}
  {at' : Nat}
variable {row : DeletionRow} {digest : List ObjectKey → String}
  {request : ConfirmCatalogueExportDeletion}

theorem Reads.elsewhere {op : Op} (h : Reads op) : Elsewhere id op := by
  cases op <;> first | exact trivial | exact h.elim

theorem stays_reading {p : Program α} (h : p.Only Reads) : Stays id p s :=
  stays_only (h.imp fun _ => Reads.elsewhere)

theorem Settles.elsewhere {op : Op} (hne : id'≠id) (h : Settles id' retryKey op) :
    Elsewhere id op := by
  cases op with
  | renewLease id₁ key token at' =>
    rw [Elsewhere,h.1]
    exact hne
  | failDeletion id₁ key token leaseAt document =>
    rw [Elsewhere,show id₁=id' from h]
    exact hne
  | acceptConfirmation id₁ document =>
    rw [Elsewhere,h.1]
    exact hne
  | acceptRetry key id₁ document =>
    rw [Elsewhere,h.1]
    exact hne
  | _ => first | exact trivial | exact h.elim

theorem wait_elsewhere (h : id'≠id) : (waitForDeletionResponse id' retryKey).Only (Elsewhere id) :=
  (waitForDeletionResponse_only id' retryKey).imp fun _ hw => hw.settles.1.elsewhere h

theorem looks_elsewhere {op : Op} (hne : id'≠id) (h : Reads op ∨ Waits id' retryKey op) :
    Elsewhere id op :=
  h.elim Reads.elsewhere fun h => h.settles.1.elsewhere hne

theorem renewed_elsewhere (h : x.id≠id) (now : Nat) : (x.renewed now).Only (Elsewhere id) :=
  only_bind (only_perform h) fun ok => only_insist _ ok

theorem headObject_elsewhere (key : ObjectKey) (answered : Bool) :
    (headObject key answered).Only (Elsewhere id) :=
  only_bind (only_perform trivial) fun present => only_required _ present

theorem removeObjects_elsewhere (h : x.id≠id) (keys : List ObjectKey) (n : Nat) :
    (removeObjects x w keys n).Only (Elsewhere id) := by
  induction keys generalizing n with
  | nil => trivial
  | cons key keys ih =>
    refine only_bind (renewed_elsewhere h _) fun _ => only_bind (headObject_elsewhere _ _) ?_
    refine fun present => only_bind ?_ fun _ => ih (n+1)
    rw [removePresent]
    split
    · exact only_bind (renewed_elsewhere h _) fun _ => only_bind (only_perform trivial)
        fun removed => only_insist _ removed
    · trivial

theorem remainingObjects_elsewhere (h : x.id≠id) (keys : List ObjectKey) (n : Nat) :
    (remainingObjects x w keys n).Only (Elsewhere id) := by
  induction keys generalizing n with
  | nil => trivial
  | cons key keys ih =>
    refine only_bind (renewed_elsewhere h _) fun _ => only_bind (headObject_elsewhere _ _) ?_
    exact fun present => only_bind (ih (n+1)) fun rest => trivial

theorem remainingPrefix_elsewhere (h : x.id≠id) : (remainingPrefix x w).Only (Elsewhere id) := by
  rw [remainingPrefix]
  split
  · trivial
  · exact only_bind (renewed_elsewhere h _) fun _ => only_bind (only_perform trivial)
      fun keys => only_required _ keys

theorem attemptDeletion_elsewhere (h : x.id≠id) (operation : DeletionRow) :
    (attemptDeletion x w operation).Only (Elsewhere id) := by
  refine only_bind (removeObjects_elsewhere h _ _) fun _ => ?_
  refine only_bind (remainingObjects_elsewhere h _ _) fun remaining => ?_
  refine only_bind (remainingPrefix_elsewhere h) fun listed => only_bind (only_insist _ _) fun _ => ?_
  refine only_bind (renewed_elsewhere h _) fun _ => ?_
  exact only_bind (only_perform h) fun completed => only_insist _ completed

theorem executeDeletion_elsewhere (h : x.id≠id) : (executeDeletion x w).Only (Elsewhere id) := by
  refine only_bind (only_perform trivial) fun row => only_bind (only_required _ row) ?_
  refine fun operation => only_bind ?_ fun outcome => ?_
  · exact Prog.Only.settled (attemptDeletion_elsewhere h operation)
  · exact (settleDeletion_only x w operation outcome).imp fun _ => Settles.elsewhere h

theorem executeWithManifest_elsewhere {plan : PlanRow} (h : id'≠id) :
    (executeWithManifest id' plan at' retryKey token w).Only (Elsewhere id) :=
  only_bind (only_perform trivial) fun row => only_bind (only_required _ row) fun _ =>
    executeDeletion_elsewhere h

theorem replayConfirmation_stays
    (hrow : row∈s.deletions) : Stays id (replayConfirmation row request at' token w) s := by
  intro hs
  by_cases hid : row.id=id
  · -- The response is returned, whoever owns the turn.
    obtain ⟨document,hdoc⟩ := Option.isSome_iff_exists.mp (hs.answered row hrow hid).2
    rw [replayConfirmation,hdoc]
    split
    · exact hs
    · exact hs
  · refine stays_only ?_ hs
    rw [replayConfirmation]
    split
    · trivial
    · cases row.confirmation_response with
      | some document => trivial
      | none =>
        dsimp only
        split
        · refine only_bind (only_perform hid) fun claimed => ?_
          cases claimed with
          | true =>
            refine only_bind (only_perform trivial) fun plan => ?_
            exact only_bind (only_required _ plan) fun _ => executeWithManifest_elsewhere hid
          | false => exact wait_elsewhere hid
        · trivial

theorem assertMaintenanceIdle_elsewhere (expected : String) :
    (assertMaintenanceIdle expected at').Only (Elsewhere id) :=
  (assertMaintenanceIdle_only expected at').imp fun _ => Reads.elsewhere

theorem newConfirmation_stays {v : Evidence} :
    Stays id (newConfirmation digest request at' token v w) s := by
  rw [newConfirmation]
  refine stays_call trivial fun _ => stays_required fun plan _ => ?_
  refine stays_insist fun _ => stays_insist fun _ => ?_
  refine (stays_reading (assertMutationGuards_only plan _ at')).bind fun _ t => ?_
  refine stays_call trivial fun _ => stays_required fun e _ => stays_insist fun _ => ?_
  refine (stays_reading (exactObjects_only e v)).bind fun keys u => stays_insist fun _ => ?_
  refine stays_call trivial fun hu => stays_insist fun hnone => ?_
  -- The identity of the stuck deletion is in use.
  have hne : request.deletion_id≠id := by
    rintro rfl
    obtain ⟨d,hd,-⟩ := hu.row
    have hsome : (u.deletionById request.deletion_id).isNone=true := hnone
    rw [hd] at hsome
    cases hsome
  refine stays_only (only_bind (only_perform hne) fun inserted => ?_)
  cases inserted with
  | true => exact executeDeletion_elsewhere hne
  | false => exact (concurrentConfirmation_only request).imp fun _ => looks_elsewhere hne

theorem newRetry_elsewhere {request : RetryRequest} (h : row.id≠id) :
    (newRetry row request at' token w).Only (Elsewhere id) := by
  refine only_bind (only_insist _ _) fun _ => only_bind (only_insist _ _) fun _ => ?_
  refine only_bind (only_perform trivial) fun plan => only_bind (only_required _ plan) fun _ => ?_
  refine only_bind (assertMaintenanceIdle_elsewhere _) fun _ => ?_
  refine only_bind (only_perform h) fun inserted => ?_
  cases inserted with
  | true => exact executeWithManifest_elsewhere h
  | false => exact (concurrentRetry_only row.id request).imp fun _ => looks_elsewhere h

theorem replayRetry_elsewhere {request : RetryRequest} (h : row.id≠id) :
    (replayRetry row request at' token w).Only (Elsewhere id) := by
  rw [replayRetry]
  split
  · exact only_bind (only_perform trivial) fun _ => trivial
  · refine only_bind (only_insist _ _) fun _ => only_bind (only_insist _ _) fun _ => ?_
    refine only_bind (only_perform h) fun claimed => ?_
    cases claimed with
    | true =>
      refine only_bind (only_perform trivial) fun plan => only_bind (only_required _ plan) ?_
      exact fun _ => only_bind (assertMaintenanceIdle_elsewhere _) fun _ =>
        executeWithManifest_elsewhere h
    | false => exact wait_elsewhere h

theorem response_of_retry {r : RetryRow} {key : String} (h : s.retry key=some r)
    (hid : r.deletion_id=id) : s.response id (some key)=r.response := by
  rw [Store.retry,List.find?_eq_some_iff_append] at h
  obtain ⟨hk,before,rest,hl,hbefore⟩ := h
  have hf : s.retries.find? (fun r => decide (r.idempotency_key=key ∧ r.deletion_id=id))=some r := by
    rw [List.find?_eq_some_iff_append]
    refine ⟨decide_eq_true ⟨of_decide_eq_true hk,hid⟩,before,rest,hl,fun a ha => ?_⟩
    have := hbefore a ha
    rw [Bool.not_eq_true',decide_eq_false_iff_not] at this
    rw [Bool.not_eq_true',decide_eq_false_iff_not]
    exact fun hc => this hc.1
  rw [Store.response,hf]
  rfl

theorem retry_stays {id' : String} {request : RetryRequest} :
    Stays id (retryCatalogueExportDeletion id' request at' token w) s := by
  intro hs
  have hread : ∀k : DeletionRow → Program Document,
      (∀row,s.deletionById id'=some row → Stays id (k row) s) →
      Stays id (retriedDeletion id' >>= k) s := by
    intro k hk
    show Stays id (required (.problem 404 "export_deletion_not_found") (s.deletionById id') >>= k) s
    exact stays_required hk
  obtain ⟨d,hd,hstate,hresp⟩ := hs.row
  have helse : ∀row,s.deletionById id'=some row → id'≠id → row.id≠id := by
    intro row hrow hne
    rw [(mem_of_keyed hrow).2]
    exact hne
  rw [retryCatalogueExportDeletion]
  refine stays_call trivial (fun _ => ?_) hs
  generalize hr : (handle 0 (.retry request.idempotency_key) s).1=row
  cases row with
  | none =>
    refine hread _ fun row hrow => ?_
    by_cases hid : id'=id
    · subst hid
      rw [hd] at hrow
      obtain rfl := Option.some.inj hrow
      rw [newRetry,hstate]
      exact fun hs => hs
    · exact stays_only (newRetry_elsewhere (helse row hrow hid))
  | some prior =>
    dsimp only
    split
    · exact fun hs => hs
    · rename_i hsame
      rw [not_or,not_not] at hsame
      cases hp : prior.response with
      | some document => exact fun hs => hs
      | none =>
        refine hread _ fun row hrow => ?_
        by_cases hid : id'=id
        · subst hid
          rw [hd] at hrow
          obtain rfl := Option.some.inj hrow
          -- The turn is another key's: this one has no response.
          have howner : d.retry_owner_idempotency_key≠some request.idempotency_key := by
            intro ho
            rw [ho,response_of_retry hr hsame.1,hp] at hresp
            cases hresp
          rw [replayRetry,if_neg (not_not.mpr hstate),decide_eq_false howner]
          exact fun hs => hs
        · exact stays_only (replayRetry_elsewhere (helse row hrow hid))

theorem confirm_stays {v : Evidence} :
    Stays id (confirmCatalogueExportDeletion digest request at' token v w) s := by
  rw [confirmCatalogueExportDeletion]
  refine stays_call trivial fun _ => ?_
  generalize hr : (handle 0 (.deletionByKey request.idempotency_key) s).1=row
  cases row with
  | some row => exact replayConfirmation_stays (mem_of_keyed hr).1
  | none => exact newConfirmation_stays

end

/-- A confirmation or a retry, at a time of the owner's choice. -/
inductive Call where
  | confirm (request : ConfirmCatalogueExportDeletion) (observedAt : Nat) (token : String)
  | retry (id : String) (request : RetryRequest) (observedAt : Nat) (token : String)

def Call.observedAt : Call → Nat
  | .confirm _ at' _ => at'
  | .retry _ _ at' _ => at'

def Call.program (digest : List ObjectKey → String) (v : Evidence) (w : Weather) :
    Call → Program Document
  | .confirm request at' token => confirmCatalogueExportDeletion digest request at' token v w
  | .retry id request at' token => retryCatalogueExportDeletion id request at' token w

/-- The calls one after the other, each in its weather. -/
def callAll (digest : List ObjectKey → String) : List (Call × Evidence × Weather) → Store → Store
  | [],s => s
  | c::cs,s => callAll digest cs (alone (handle 0) (c.1.program digest c.2.1 c.2.2) s).store

/-- There are calls after which the deletion has ended, as long as the bucket answers. -/
def Finishable (digest : List ObjectKey → String) (s : Store) (id : String) : Prop :=
  ∃calls : List Call,∀met : List (Call × Evidence × Weather),met.map Prod.fst=calls →
    (∀c∈met,c.2.2.Calm c.1.observedAt) → Ended (callAll digest met s) id

theorem Stuck.not_ended (h : Stuck s id) : ¬Ended s id := by
  rintro ⟨d,hd,hid,hdel⟩
  rw [(h.answered d hd hid).1] at hdel
  cases hdel

theorem Stuck.callAll (h : Stuck s id)
    (met : List (Call × Evidence × Weather)) : Stuck (callAll digest met s) id := by
  induction met generalizing s with
  | nil => exact h
  | cons c cs ih =>
    refine ih ?_
    cases hc : c.1 with
    | confirm request at' token => exact confirm_stays h
    | retry id' request at' token => exact retry_stays h

theorem Stuck.of_sound (hs : Sound s) (hd : s.deletionById id=some d) (hstate : d.state=.deleting)
    (hr : (s.response id d.retry_owner_idempotency_key).isSome=true) : Stuck s id := by
  obtain ⟨hmem,hid⟩ := mem_of_keyed hd
  refine ⟨⟨d,hd,hstate,hr⟩,fun d' hd' hid' => ?_⟩
  obtain rfl := eq_of_key hs.ids hd' hmem (hid'.trans hid.symm)
  refine ⟨hstate,?_⟩
  cases ho : d'.retry_owner_idempotency_key with
  | some key => exact ((hs.deletions d' hmem).retried key ho).1
  | none =>
    rw [ho,Store.response,hd] at hr
    exact hr

def still (lo : Nat) : Weather :=
  ⟨fun _ => lo,fun _ => lo,fun _ => lo,lo,lo,lo,fun _ => true,fun _ => .done,fun _ => true,true⟩

theorem still_calm (lo : Nat) : (still lo).Calm lo := by
  have h : lo ≤ lo ∧ lo < leaseExpiresAt lo := by
    refine ⟨Nat.le_refl lo,?_⟩
    rw [leaseExpiresAt,EXECUTION_LEASE_MS]
    omega
  exact ⟨fun _ => h,fun _ => h,fun _ => h,h,h,fun _ => rfl,fun _ => rfl,fun _ => rfl,rfl⟩

theorem Stuck.not_finishable (h : Stuck s id) : ¬Finishable digest s id := by
  rintro ⟨calls,hcalls⟩
  let met := calls.map fun c => (c,(⟨true,[],true⟩ : Evidence),still c.observedAt)
  refine (h.callAll met).not_ended (hcalls met ?_ ?_)
  · rw [map_map]
    exact map_id _
  · intro c hc
    obtain ⟨c',-,rfl⟩ := mem_map.mp hc
    exact still_calm _

theorem idle_mono {o : OperationState} {at₀ at' : Nat} (h : o.idle at₀=true) (hle : at₀ ≤ at') :
    o.idle at'=true := by
  rw [OperationState.idle,Bool.and_eq_true,Bool.not_eq_true'] at h ⊢
  refine ⟨h.1,?_⟩
  have h2 := h.2
  cases ho : o.active_production_release with
  | none => rfl
  | some r =>
    rw [ho,Option.any_some,decide_eq_false_iff_not] at h2
    rw [Option.any_some,decide_eq_false_iff_not]
    omega

theorem finishable_of_call (c : Call) (h : ∀(v : Evidence) (w : Weather),w.Calm c.observedAt →
      Ended (alone (handle 0) (c.program digest v w) s).store id) : Finishable digest s id := by
  refine ⟨[c],fun met hmet hcalm => ?_⟩
  obtain ⟨m,rfl⟩ : ∃m,met=[m] := by
    have hlen := congrArg List.length hmet
    rw [length_map] at hlen
    exact length_eq_one_iff.mp hlen
  obtain rfl : m.1=c := by simpa using hmet
  exact h m.2.1 m.2.2 (hcalm m mem_cons_self)

theorem finishable_iff {at₀ : Nat}
    (hs : Sound s) (hd : s.deletionById id=some d) (hlive : d.state≠.deleted)
    (hcurrent : s.operation.current_revision_id=d.expected_current_revision_id)
    (hidle : s.operation.idle at₀=true) : Finishable digest s id ↔
      d.state=.failed ∨ s.response id d.retry_owner_idempotency_key=none := by
  obtain ⟨hmem,rfl⟩ := mem_of_keyed hd
  refine ⟨fun hfin => ?_,fun h => ?_⟩
  · by_contra hc
    rw [not_or] at hc
    have hstate : d.state=.deleting := by
      cases hst : d.state with
      | deleting => rfl
      | deleted => exact absurd hst hlive
      | failed => exact absurd hst hc.1
    have hsome : (s.response d.id d.retry_owner_idempotency_key).isSome=true :=
      Option.isSome_iff_ne_none.mpr hc.2
    exact (Stuck.of_sound hs hd hstate hsome).not_finishable hfin
  · cases hst : d.state with
    | deleted => exact absurd hst hlive
    | failed =>
      obtain ⟨k,hk⟩ := exists_new_key (s.retries.map RetryRow.idempotency_key)
      refine finishable_of_call (.retry d.id ⟨d.object_set_digest,k⟩ at₀ "") fun v w hw => ?_
      exact newRetry_ends hs hmem hst (fun r hr => hk _ (mem_map_of_mem hr)) hw hcurrent hidle
    | deleting =>
      have hnone := h.resolve_left (by rw [hst]; exact nofun)
      obtain ⟨lease,hlease⟩ := Option.isSome_iff_exists.mp (hs.deletions d hmem).leased.2
      cases ho : d.retry_owner_idempotency_key with
      | none =>
        rw [ho,Store.response,hd] at hnone
        refine finishable_of_call (.confirm d.request lease "") fun v w hw => ?_
        exact confirm_ends hs hmem hst ho hnone hlease (Nat.le_refl _) hw
      | some k =>
        rw [ho] at hnone
        refine finishable_of_call (.retry d.id ⟨d.object_set_digest,k⟩ (max lease at₀) "")
          fun v w hw => ?_
        exact replayRetry_ends hs hmem hst ho hnone hlease (Nat.le_max_left _ _) hw hcurrent
          (idle_mono hidle (Nat.le_max_right _ _))

theorem response_of_row (hd : s.deletionById id=some d) :
    s.response id none=d.confirmation_response := by
  rw [Store.response,hd]
  rfl

/-- In every state that calls, crashes and publications can reach: while the expected revision is
current and maintenance is idle, a deletion under way can be finished exactly when it has failed or
the key that owns its turn has no response. -/
theorem interrupted_deletion_finishable_iff (digest : List ObjectKey → String)
    (planDigest : PlanRow → String) (s₀ : Store) (h₀ : Fresh s₀)
    (pool : Pool Op Op.Ans Empty Problem (Option Document) Store)
    (hpool : Pool.Reachable handle (start digest planDigest) s₀ pool) (id : String)
    (d : DeletionRow) (hd : pool.store.deletionById id=some d) (hlive : d.state≠.deleted)
    (hcurrent : pool.store.operation.current_revision_id=d.expected_current_revision_id) (at₀ : Nat)
    (hidle : pool.store.operation.idle at₀=true) : Finishable digest pool.store id ↔
    d.state=.failed ∨ pool.store.response id d.retry_owner_idempotency_key=none :=
  finishable_iff (reachable_sound hpool h₀) hd hlive hcurrent hidle

/-- The digest of keys that need no escape. -/
def objectSetDigest (keys : List ObjectKey) : String :=
  let text := "["++String.intercalate "," (keys.map fun k => "\""++k.text++"\"")++"]"
  String.ofList ((Shared.sha256Text (Shared.js text.toList)).map fun u => Char.ofNat u.toNat)

def published : Store where
  exports := [⟨"rev-1",.manifest "rev-1" "d1","d1",.available,none,none⟩,
    ⟨"rev-2",.manifest "rev-2" "d2","d2",.available,none,none⟩]
  plans := []
  deletions := []
  retries := []
  tombstones := []
  operation := ⟨"rev-2",none,none,true⟩
  bucket := [.manifest "rev-1" "d1",.manifest "rev-2" "d2"]
  removals := []
  marks := []

theorem published_fresh : Fresh published := by
  refine ⟨by decide,?_,rfl,rfl,rfl,rfl,rfl,rfl⟩
  intro e he
  rcases mem_cons.mp he with rfl | he
  · rfl
  · rw [mem_singleton.mp he]

def samplePlanDigest (plan : PlanRow) : String := "plan:"++plan.id++":"++plan.object_set_digest

def sampleConfirmation : ConfirmCatalogueExportDeletion :=
  ⟨"plan-1","plan:plan-1:"++objectSetDigest [.manifest "rev-1" "d1"],"rev-1","d1","rev-2","rev-1",
    "deletion-1","confirm-1"⟩

/-- A plan, its confirmation, and the same confirmation once more a minute later. -/
def sampleThreads : List (Program (Option Document)) :=
  [Request.program objectSetDigest samplePlanDigest
      (.prepare ⟨"rev-1","d1","rev-2","plan-1"⟩ 0 ⟨true,[],true⟩),
    Request.program objectSetDigest samplePlanDigest
      (.confirm sampleConfirmation 1000 "token-a" ⟨true,[],true⟩ (still 1000)),
    Request.program objectSetDigest samplePlanDigest
      (.confirm sampleConfirmation 61000 "token-b" ⟨true,[],true⟩ (still 61000))]

theorem sampleThreads_start : ∀p∈sampleThreads,
    start objectSetDigest samplePlanDigest published p := by
  intro p hp
  rcases mem_cons.mp hp with rfl | hp
  · exact ⟨_,rfl⟩
  · rcases mem_cons.mp hp with rfl | hp
    · exact ⟨_,rfl⟩
    · rw [mem_singleton.mp hp]
      exact ⟨_,rfl⟩

def interrupted : Pool Op Op.Ans Empty Problem (Option Document) Store :=
  Pool.play handle published sampleThreads (List.replicate 5 0++List.replicate 7 1)

theorem interrupted_deletion_finishable : ∃d,interrupted.store.deletionById "deletion-1"=some d ∧
    d.state=.deleting ∧ Finishable objectSetDigest interrupted.store "deletion-1" := by
  have hrow : (interrupted.store.deletionById "deletion-1").map (fun d =>
      (d.state,d.expected_current_revision_id,d.retry_owner_idempotency_key,
        d.confirmation_response))=some (.deleting,"rev-2",none,none) := by decide +kernel
  obtain ⟨d,hd,hfields⟩ := Option.map_eq_some_iff.mp hrow
  rw [Prod.mk.injEq,Prod.mk.injEq,Prod.mk.injEq] at hfields
  obtain ⟨hstate,hexpected,howner,hresponse⟩ := hfields
  refine ⟨d,hd,hstate,?_⟩
  have hreach : Pool.Reachable handle (start objectSetDigest samplePlanDigest) published
      interrupted := Pool.reachable_play sampleThreads_start _
  refine (interrupted_deletion_finishable_iff objectSetDigest samplePlanDigest published
    published_fresh _ hreach "deletion-1" d hd (by rw [hstate]; exact nofun)
    (by rw [hexpected]; decide +kernel) 0 (by decide +kernel)).mpr (.inr ?_)
  rw [howner,response_of_row hd]
  exact hresponse

/-- A replay within the lease waits in vain and retains the accepted response. -/
def accepted : Pool Op Op.Ans Empty Problem (Option Document) Store :=
  Pool.play handle published sampleThreads
    (List.replicate 5 0++(List.replicate 7 1++List.replicate 12 2))

theorem accepted_deletion_not_finishable :
    Pool.Reachable handle (start objectSetDigest samplePlanDigest) published accepted ∧
    accepted.store.operation.current_revision_id="rev-2" ∧ accepted.store.operation.idle 0=true ∧
    ∃d,accepted.store.deletionById "deletion-1"=some d ∧ d.state=.deleting ∧
      d.expected_current_revision_id="rev-2" ∧
      ¬Finishable objectSetDigest accepted.store "deletion-1" := by
  have hreach : Pool.Reachable handle (start objectSetDigest samplePlanDigest) published accepted :=
    Pool.reachable_play sampleThreads_start _
  have hrow : (accepted.store.deletionById "deletion-1").map (fun d =>
      (d.state,d.expected_current_revision_id,d.retry_owner_idempotency_key,
        d.confirmation_response.isSome))=some (.deleting,"rev-2",none,true) := by decide +kernel
  obtain ⟨d,hd,hfields⟩ := Option.map_eq_some_iff.mp hrow
  rw [Prod.mk.injEq,Prod.mk.injEq,Prod.mk.injEq] at hfields
  obtain ⟨hstate,hexpected,howner,hresponse⟩ := hfields
  refine ⟨hreach,by decide +kernel,by decide +kernel,d,hd,hstate,hexpected,?_⟩
  refine (Stuck.of_sound (reachable_sound hreach published_fresh) hd hstate ?_).not_finishable
  rw [howner,response_of_row hd]
  exact hresponse

end CardKeepr.Export
