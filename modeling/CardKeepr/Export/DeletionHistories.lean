import CardKeepr.Lib.History
import CardKeepr.Export.DeletionSafety

namespace CardKeepr.Export

open Lib List

variable {α β : Type} {x : Execution} {w : Weather} {at' : Nat} {token : String} {v : Evidence}
variable {op : Op} {e : Problem} {id : String} {retryKey : Option String}

abbrev Calls := List (Made Op Op.Ans)

variable {l : Calls}

/-- The deletion and the key whose lease could not be renewed. -/
def refusal : Made Op Op.Ans → Option (String × Option String)
  | ⟨.renewLease id retryKey _ _,renewed⟩ =>
    if (show Bool from renewed) then none else some (id,retryKey)
  | _ => none

/-- Every object of the plan was found absent, and the prefix empty unless the manifest is of a
native package. -/
structure Observed (l : Calls) (plan : PlanRow) : Prop where
  keys : ∀k∈plan.object_keys,∃answered,⟨.head k answered,some false⟩∈l
  listed : (∃e,⟨.exportRow plan.catalogue_revision_id,some e⟩∈l ∧
      isNativeExportPackage e.manifest_key=true) ∨
    ∃answered,⟨.list plan.catalogue_revision_id answered,some []⟩∈l

/-- After a refused renewal there is nothing but waiting, and before a deletion is ended its objects
are looked for. -/
structure Allowed (l : Calls) (op : Op) : Prop where
  lost : ∀m∈l,∀id retryKey,refusal m=some (id,retryKey) → Waits id retryKey op
  observed : ∀id plan retryKey token leaseAt at' document,
    op=.completeDeletion id plan retryKey token leaseAt at' document → Observed l plan

def Unrefused (l : Calls) : Prop := ∀m∈l,refusal m=none

def Lost (id : String) (retryKey : Option String) (l : Calls) : Prop :=
  ∀m∈l,∀r,refusal m=some r → r=(id,retryKey)

theorem Unrefused.lost (h : Unrefused l) (id : String) (retryKey : Option String) :
    Lost id retryKey l := by
  intro m hm r hr
  rw [h m hm] at hr
  cases hr

theorem refusal_plain (h : Plain op) (a : op.Ans) : refusal ⟨op,a⟩=none := by
  cases op <;> first | rfl | exact h.elim

theorem unrefused_append {m : Made Op Op.Ans} (h : Unrefused l) (hm : refusal m=none) :
    Unrefused (l++[m]) := by
  intro m' hm'
  rcases mem_append.mp hm' with hm' | hm'
  · exact h m' hm'
  · rw [mem_singleton.mp hm']
    exact hm

theorem allowed_unrefused (h : Unrefused l) (ho : ∀id plan retryKey token leaseAt at' document,
      op=.completeDeletion id plan retryKey token leaseAt at' document → Observed l plan) :
    Allowed l op := by
  refine ⟨fun m hm id retryKey hr => ?_,ho⟩
  rw [h m hm] at hr
  cases hr

theorem allowed_plain (h : Unrefused l) (hp : Plain op) : Allowed l op := by
  refine allowed_unrefused h ?_
  rintro id plan retryKey token leaseAt at' document rfl
  exact hp.elim

theorem plain_traced {p : Program α} (h : p.Only Plain) (hl : Unrefused l) :
    p.Traced Allowed (fun _ l' => Unrefused l' ∧ ∀m∈l,m∈l') l :=
  Prog.Traced.of_only h (fun _ _ => allowed_plain)
    (fun _ _ a hl hp => unrefused_append hl (refusal_plain hp a)) hl

theorem wait_traced (hl : Lost id retryKey l) :
    (waitForDeletionResponse id retryKey).Traced Allowed (fun _ _ => True) l := by
  have hkeep : ∀l op (a : Op.Ans op),Lost id retryKey l → Waits id retryKey op →
      Lost id retryKey (l++[⟨op,a⟩]) := by
    intro l op a hl hop m hm r hr
    rcases mem_append.mp hm with hm | hm
    · exact hl m hm r hr
    · rw [mem_singleton.mp hm,refusal_plain hop.settles.2] at hr
      cases hr
  have hok : ∀l op,Lost id retryKey l → Waits id retryKey op → Allowed l op := by
    intro l op hl hop
    refine ⟨fun m hm id' retryKey' hr => ?_,?_⟩
    · obtain ⟨rfl,rfl⟩ := Prod.mk.inj (hl m hm _ hr)
      exact hop
    · rintro id' plan key token leaseAt at' document rfl
      exact hop.elim
  exact (Prog.Traced.of_only (waitForDeletionResponse_only id retryKey) hok hkeep hl).imp
    fun _ _ _ => trivial

/-- What an attempt leaves: a lease that is lost is its own. -/
def Attempted (x : Execution) (Q : α → Calls → Prop) (l : Calls) (r : Except Problem α)
    (l' : Calls) : Prop :=
  (∀m∈l,m∈l') ∧ match r with
    | .ok a => Unrefused l' ∧ Q a l'
    | .error e => Lost x.id x.retryKey l' ∧ (e≠.leaseLost → Unrefused l')

theorem attempt_seq {Q : α → Calls → Prop} {R : β → Calls → Prop} {p : Program α}
    {f : α → Program β} (h : p.Traced Allowed (Attempted x Q l) l)
    (hf : ∀a l',(∀m∈l,m∈l') → Unrefused l' → Q a l' → (f a).Traced Allowed (Attempted x R l') l') :
    (p >>= f).Traced Allowed (Attempted x R l) l := by
  refine Prog.Traced.bind (h.imp fun r l' hr => ?_)
  obtain ⟨hin,hr⟩ := hr
  cases r with
  | error e => exact ⟨hin,hr⟩
  | ok a =>
    refine (hf a l' hin hr.1 hr.2).imp fun r l'' hr' => ?_
    exact ⟨fun m hm => hr'.1 m (hin m hm),hr'.2⟩

theorem attempt_plain {p : Program α} (h : p.Only Plain) (hl : Unrefused l) :
    p.Traced Allowed (Attempted x (fun _ _ => True) l) l := by
  refine (plain_traced h hl).imp fun r l' hr => ⟨hr.2,?_⟩
  cases r with
  | ok a => exact ⟨hr.1,trivial⟩
  | error e => exact ⟨hr.1.lost _ _,fun _ => hr.1⟩

theorem attempt_insist {b : Bool} {k : Unit → Program α} {Q : α → Calls → Prop}
    (hl : Unrefused l) (h : b=true → (k ()).Traced Allowed (Attempted x Q l) l) :
    (insist e b >>= k).Traced Allowed (Attempted x Q l) l := by
  cases b with
  | true => exact h rfl
  | false => exact ⟨fun _ hm => hm,hl.lost _ _,fun _ => hl⟩

theorem renewed_traced (now : Nat) (hl : Unrefused l) :
    (x.renewed now).Traced Allowed (Attempted x (fun _ _ => True) l) l := by
  refine ⟨allowed_unrefused hl nofun,fun ok => ?_⟩
  cases ok with
  | true =>
    refine ⟨fun m hm => mem_append_left _ hm,?_,trivial⟩
    exact unrefused_append hl rfl
  | false =>
    refine ⟨fun m hm => mem_append_left _ hm,?_,fun h => absurd rfl h⟩
    intro m hm r hr
    rcases mem_append.mp hm with hm | hm
    · rw [hl m hm] at hr
      cases hr
    · rw [mem_singleton.mp hm] at hr
      exact (Option.some.inj hr).symm

theorem headObject_traced (key : ObjectKey) (answered : Bool) (hl : Unrefused l) :
    (headObject key answered).Traced Allowed (Attempted x (fun present l' =>
      present=false → ⟨.head key answered,some false⟩∈l') l) l := by
  refine ⟨allowed_plain hl trivial,fun present => ?_⟩
  have hl' : Unrefused (l++[⟨.head key answered,present⟩]) := unrefused_append hl rfl
  have hin : ∀m∈l,m∈l++[(⟨.head key answered,present⟩ : Made Op Op.Ans)] :=
    fun m hm => mem_append_left _ hm
  cases present with
  | none => exact ⟨hin,hl'.lost _ _,fun _ => hl'⟩
  | some present =>
    refine ⟨hin,hl',?_⟩
    rintro rfl
    exact mem_append_right _ (mem_singleton_self _)

theorem removePresent_traced (key : ObjectKey) (n : Nat) (present : Bool) (hl : Unrefused l) :
    (removePresent x w key n present).Traced Allowed (Attempted x (fun _ _ => True) l) l := by
  cases present with
  | false => exact ⟨fun _ hm => hm,hl,trivial⟩
  | true =>
    refine attempt_seq (renewed_traced _ hl) fun _ l₁ _ hl₁ _ => attempt_plain ?_ hl₁
    exact only_bind (only_perform trivial) fun removed => only_insist _ removed

theorem removeObjects_traced (keys : List ObjectKey) (n : Nat) (hl : Unrefused l) :
    (removeObjects x w keys n).Traced Allowed (Attempted x (fun _ _ => True) l) l := by
  induction keys generalizing n l with
  | nil => exact ⟨fun _ hm => hm,hl,trivial⟩
  | cons key keys ih =>
    refine attempt_seq (renewed_traced _ hl) fun _ l₁ _ hl₁ _ => ?_
    refine attempt_seq (headObject_traced key _ hl₁) fun present l₂ _ hl₂ _ => ?_
    exact attempt_seq (removePresent_traced key n present hl₂) fun _ l₃ _ hl₃ _ => ih (n+1) hl₃

theorem remainingObjects_traced (keys : List ObjectKey) (n : Nat) (hl : Unrefused l) :
    (remainingObjects x w keys n).Traced Allowed (Attempted x (fun remaining l' =>
      remaining=false → ∀k∈keys,∃answered,⟨.head k answered,some false⟩∈l') l) l := by
  induction keys generalizing n l with
  | nil => exact ⟨fun _ hm => hm,hl,fun _ k hk => by cases hk⟩
  | cons key keys ih =>
    refine attempt_seq (renewed_traced _ hl) fun _ l₁ _ hl₁ _ => ?_
    refine attempt_seq (headObject_traced key _ hl₁) fun present l₂ _ hl₂ hp => ?_
    refine attempt_seq (ih (n+1) hl₂) fun rest l₃ hin hl₃ hr => ⟨fun _ hm => hm,hl₃,?_⟩
    intro hnone k hk
    rw [Bool.or_eq_false_iff] at hnone
    rcases mem_cons.mp hk with rfl | hk
    · exact ⟨_,hin _ (hp hnone.1)⟩
    · exact hr hnone.2 k hk

theorem remainingPrefix_traced (hl : Unrefused l) :
    (remainingPrefix x w).Traced Allowed (Attempted x (fun listed l' => listed.isEmpty=true →
      isNativeExportPackage x.manifestKey=true ∨
        ∃answered,⟨.list x.plan.catalogue_revision_id answered,some []⟩∈l') l) l := by
  rw [remainingPrefix]
  split
  · rename_i hn
    exact ⟨fun _ hm => hm,hl,fun _ => .inl hn⟩
  · refine attempt_seq (renewed_traced _ hl) fun _ l₁ _ hl₁ _ => ?_
    refine ⟨allowed_plain hl₁ trivial,fun keys => ?_⟩
    have hl₂ : Unrefused (l₁++[⟨.list x.plan.catalogue_revision_id w.lists,keys⟩]) :=
      unrefused_append hl₁ rfl
    have hin : ∀m∈l₁,m∈l₁++[(⟨.list x.plan.catalogue_revision_id w.lists,keys⟩ :
        Made Op Op.Ans)] := fun m hm => mem_append_left _ hm
    cases keys with
    | none => exact ⟨hin,hl₂.lost _ _,fun _ => hl₂⟩
    | some keys =>
      refine ⟨hin,hl₂,fun hempty => .inr ⟨w.lists,?_⟩⟩
      obtain rfl := List.isEmpty_iff.mp hempty
      exact mem_append_right _ (mem_singleton_self _)

theorem attemptDeletion_traced {operation : DeletionRow} {e : ExportRow}
    (he : ⟨.exportRow x.plan.catalogue_revision_id,some e⟩∈l) (hm : e.manifest_key=x.manifestKey)
    (hl : Unrefused l) :
    (attemptDeletion x w operation).Traced Allowed (Attempted x (fun _ _ => True) l) l := by
  refine attempt_seq (removeObjects_traced _ _ hl) fun _ l₁ h₁ hl₁ _ => ?_
  refine attempt_seq (remainingObjects_traced _ _ hl₁) fun remaining l₂ h₂ hl₂ hkeys => ?_
  refine attempt_seq (remainingPrefix_traced hl₂) fun listed l₃ h₃ hl₃ hlisted => ?_
  refine attempt_insist hl₃ fun hnone => ?_
  rw [Bool.and_eq_true,Bool.not_eq_true'] at hnone
  refine attempt_seq (renewed_traced _ hl₃) fun _ l₄ h₄ hl₄ _ => ?_
  have hobserved : Observed l₄ x.plan := by
    refine ⟨fun k hk => ?_,?_⟩
    · obtain ⟨answered,hfound⟩ := hkeys hnone.1 k hk
      exact ⟨answered,h₄ _ (h₃ _ hfound)⟩
    · rcases hlisted hnone.2 with hn | ⟨answered,hfound⟩
      · exact .inl ⟨e,h₄ _ (h₃ _ (h₂ _ (h₁ _ he))),by rw [hm]; exact hn⟩
      · exact .inr ⟨answered,h₄ _ hfound⟩
  refine ⟨allowed_unrefused hl₄ ?_,fun completed => ?_⟩
  · intro id plan retryKey token leaseAt at' document hop
    injection hop with _ hplan
    rw [← hplan]
    exact hobserved
  · have hl₅ := unrefused_append hl₄ (m := ⟨.completeDeletion x.id x.plan x.retryKey x.token w.terminal
      x.observedAt (deletionDocument { operation with
        state := .deleted, completed_at := some x.observedAt, failure_code := none }),completed⟩) rfl
    cases completed with
    | true => exact ⟨fun m hm => mem_append_left _ hm,hl₅,trivial⟩
    | false => exact ⟨fun m hm => mem_append_left _ hm,hl₅.lost _ _,fun _ => hl₅⟩

theorem traced_plain {p : Program α} {f : α → Program β} (h : p.Only Plain) (hl : Unrefused l)
    (hf : ∀a l',(∀m∈l,m∈l') → Unrefused l' → (f a).Traced Allowed (fun _ _ => True) l') :
    (p >>= f).Traced Allowed (fun _ _ => True) l := by
  refine Prog.Traced.bind ((plain_traced h hl).imp fun r l' hr => ?_)
  cases r with
  | ok a => exact hf a l' hr.2 hr.1
  | error e => trivial

theorem plain_ends {p : Program α} (h : p.Only Plain) (hl : Unrefused l) :
    p.Traced Allowed (fun _ _ => True) l := (plain_traced h hl).imp fun _ _ _ => trivial

theorem traced_call {k : op.Ans → Program α} (h : Plain op) (hl : Unrefused l)
    (hk : ∀a,Unrefused (l++[⟨op,a⟩]) → (k a).Traced Allowed (fun _ _ => True) (l++[⟨op,a⟩])) :
    (perform op >>= k).Traced Allowed (fun _ _ => True) l :=
  ⟨allowed_plain hl h,fun a => hk a (unrefused_append hl (refusal_plain h a))⟩

theorem traced_required {o : Option β} {k : β → Program α}
    (h : ∀b,o=some b → (k b).Traced Allowed (fun _ _ => True) l) :
    (required e o >>= k).Traced Allowed (fun _ _ => True) l := by
  cases o with
  | none => trivial
  | some b => exact h b rfl

theorem traced_insist {b : Bool} {k : Unit → Program α}
    (h : b=true → (k ()).Traced Allowed (fun _ _ => True) l) :
    (insist e b >>= k).Traced Allowed (fun _ _ => True) l := by
  cases b with
  | true => exact h rfl
  | false => trivial

theorem settleDeletion_traced {operation : DeletionRow} {outcome : Except Problem Unit} {l₀ : Calls}
    (h : Attempted x (fun _ _ => True) l₀ outcome l) :
    (settleDeletion x w operation outcome).Traced Allowed (fun _ _ => True) l := by
  have hfailed : Unrefused l → (do
      let ok ← x.renew w.failing
      if ok then recordFailure x w operation
      else waitForDeletionResponse x.id x.retryKey : Program Document).Traced Allowed
        (fun _ _ => True) l := by
    intro hl
    refine ⟨allowed_unrefused hl nofun,fun ok => ?_⟩
    cases ok with
    | true =>
      have hl' := unrefused_append hl (m := ⟨.renewLease x.id x.retryKey x.token w.failing,true⟩) rfl
      exact plain_ends ((recordFailure_only x w operation).imp fun _ h => h.2) hl'
    | false =>
      refine wait_traced fun m hm r hr => ?_
      rcases mem_append.mp hm with hm | hm
      · rw [hl m hm] at hr
        cases hr
      · rw [mem_singleton.mp hm] at hr
        exact (Option.some.inj hr).symm
  cases outcome with
  | ok _ => exact plain_ends ((finalResponse_only x).imp fun _ h => h.settles.2) h.2.1
  | error e =>
    cases e with
    | leaseLost => exact wait_traced h.2.1
    | problem status code => exact hfailed (h.2.2 nofun)
    | error text => exact hfailed (h.2.2 nofun)

theorem executeDeletion_traced {e : ExportRow}
    (he : ⟨.exportRow x.plan.catalogue_revision_id,some e⟩∈l) (hm : e.manifest_key=x.manifestKey)
    (hl : Unrefused l) : (executeDeletion x w).Traced Allowed (fun _ _ => True) l := by
  refine traced_call trivial hl fun row hl₁ => traced_required fun operation _ => ?_
  have hattempt : (attemptDeletion x w operation).Traced Allowed _ _ :=
    attemptDeletion_traced (mem_append_left _ he) hm hl₁
  refine Prog.Traced.bind (hattempt.settled.imp fun r l' hr => ?_)
  obtain ⟨outcome,rfl,hout⟩ := hr
  exact settleDeletion_traced hout

theorem executeWithManifest_traced {plan : PlanRow} (hl : Unrefused l) :
    (executeWithManifest id plan at' retryKey token w).Traced Allowed (fun _ _ => True) l := by
  refine traced_call trivial hl fun row hl₁ => traced_required fun e he => ?_
  refine executeDeletion_traced (e := e) ?_ rfl hl₁
  rw [he]
  exact mem_append_right _ (mem_singleton_self _)

theorem replayConfirmation_traced {row : DeletionRow} {request : ConfirmCatalogueExportDeletion}
    (hl : Unrefused l) :
    (replayConfirmation row request at' token w).Traced Allowed (fun _ _ => True) l := by
  rw [replayConfirmation]
  split
  · trivial
  · cases row.confirmation_response with
    | some document => trivial
    | none =>
      dsimp only
      split
      · refine traced_call trivial hl fun claimed hl₁ => ?_
        cases claimed with
        | true =>
          refine traced_call trivial hl₁ fun plan hl₂ => traced_required fun plan _ => ?_
          exact executeWithManifest_traced hl₂
        | false => exact wait_traced (hl₁.lost _ _)
      · trivial

theorem looks_plain (h : Reads op ∨ Waits id retryKey op) : Plain op :=
  h.elim (fun h => h.free.2) fun h => h.settles.2

section

variable {digest : List ObjectKey → String} {planDigest : PlanRow → String}
variable {request : RetryRequest}

theorem newConfirmation_traced {request : ConfirmCatalogueExportDeletion} (hl : Unrefused l) :
    (newConfirmation digest request at' token v w).Traced Allowed (fun _ _ => True) l := by
  rw [newConfirmation]
  refine traced_call trivial hl fun row hl₁ => traced_required fun plan _ => ?_
  refine traced_insist fun _ => traced_insist fun _ => ?_
  have hguards := (assertMutationGuards_only plan request.confirmation_revision_id at').imp
    fun _ h => h.free.2
  refine traced_plain hguards hl₁ fun _ l₂ _ hl₂ => ?_
  refine traced_call trivial hl₂ fun row hl₃ => traced_required fun e he => traced_insist fun _ => ?_
  have hexport : (⟨.exportRow plan.catalogue_revision_id,some e⟩ : Made Op Op.Ans)∈
      l₂++[⟨.exportRow plan.catalogue_revision_id,row⟩] := by
    rw [he]
    exact mem_append_right _ (mem_singleton_self _)
  have hkeys := (exactObjects_only e v).imp fun _ h => h.free.2
  refine traced_plain hkeys hl₃ fun keys l₄ h₄ hl₄ => traced_insist fun _ => ?_
  refine traced_call trivial hl₄ fun existing hl₅ => traced_insist fun _ => ?_
  refine traced_call trivial hl₅ fun inserted hl₆ => ?_
  cases inserted with
  | true =>
    refine executeDeletion_traced (e := e) ?_ rfl hl₆
    exact mem_append_left _ (mem_append_left _ (h₄ _ hexport))
  | false => exact plain_ends ((concurrentConfirmation_only request).imp fun _ => looks_plain) hl₆

theorem confirm_traced {request : ConfirmCatalogueExportDeletion} (hl : Unrefused l) :
    (confirmCatalogueExportDeletion digest request at' token v w).Traced Allowed
      (fun _ _ => True) l := by
  refine traced_call trivial hl fun replay hl₁ => ?_
  cases replay with
  | some row => exact replayConfirmation_traced hl₁
  | none => exact newConfirmation_traced hl₁

theorem newRetry_traced {row : DeletionRow} (hl : Unrefused l) :
    (newRetry row request at' token w).Traced Allowed (fun _ _ => True) l := by
  refine traced_insist fun _ => traced_insist fun _ => ?_
  refine traced_call trivial hl fun plan hl₁ => traced_required fun plan _ => ?_
  have hidle := (assertMaintenanceIdle_only plan.expected_current_revision_id at').imp
    fun _ h => h.free.2
  refine traced_plain hidle hl₁ fun _ l₂ _ hl₂ => ?_
  refine traced_call trivial hl₂ fun inserted hl₃ => ?_
  cases inserted with
  | true => exact executeWithManifest_traced hl₃
  | false => exact plain_ends ((concurrentRetry_only row.id request).imp fun _ => looks_plain) hl₃

theorem replayRetry_traced {row : DeletionRow} (hl : Unrefused l) :
    (replayRetry row request at' token w).Traced Allowed (fun _ _ => True) l := by
  rw [replayRetry]
  split
  · exact plain_ends (only_bind (only_perform trivial) fun _ => trivial) hl
  · refine traced_insist fun _ => traced_insist fun _ => ?_
    refine traced_call trivial hl fun claimed hl₁ => ?_
    cases claimed with
    | true =>
      refine traced_call trivial hl₁ fun plan hl₂ => traced_required fun plan _ => ?_
      have hidle := (assertMaintenanceIdle_only plan.expected_current_revision_id at').imp
        fun _ h => h.free.2
      exact traced_plain hidle hl₂ fun _ l₃ _ hl₃ => executeWithManifest_traced hl₃
    | false => exact wait_traced (hl₁.lost _ _)

theorem retriedDeletion_only (id : String) : (retriedDeletion id).Only Plain :=
  only_bind (only_perform trivial) fun row => only_required _ row

theorem retry_traced {id : String} (hl : Unrefused l) :
    (retryCatalogueExportDeletion id request at' token w).Traced Allowed (fun _ _ => True) l := by
  refine traced_call trivial hl fun replay hl₁ => ?_
  cases replay with
  | none =>
    exact traced_plain (retriedDeletion_only id) hl₁ fun row l₂ _ hl₂ => newRetry_traced hl₂
  | some prior =>
    dsimp only
    split
    · trivial
    · cases prior.response with
      | some document => trivial
      | none =>
        exact traced_plain (retriedDeletion_only id) hl₁ fun row l₂ _ hl₂ => replayRetry_traced hl₂

theorem prepare_only {request : PrepareCatalogueExportDeletion} :
    (prepareCatalogueExportDeletion digest planDigest request at' v).Only Plain := by
  have hkeys : ∀e,(verifiedExportObjects e v).Only Plain := by
    intro e
    rw [verifiedExportObjects]
    split
    · refine only_bind (only_insist _ _) fun _ => only_bind (only_perform trivial) fun _ => ?_
      exact only_bind (only_insist _ _) fun _ => trivial
    · refine only_bind (only_perform trivial) fun _ => only_bind (only_insist _ _) fun _ => ?_
      refine only_bind (only_perform trivial) fun _ => ?_
      exact only_bind (only_insist _ _) fun _ => trivial
  refine only_bind (only_perform trivial) fun row => only_bind (only_required _ row) fun e => ?_
  refine only_bind (only_insist _ _) fun _ => only_bind (only_insist _ _) fun _ => ?_
  refine only_bind (only_perform trivial) fun o => only_bind (only_insist _ _) fun _ => ?_
  refine only_bind (only_perform trivial) fun prior => only_bind (only_insist _ _) fun _ => ?_
  refine only_bind (hkeys e) fun keys => only_bind (only_perform trivial) fun inserted => ?_
  exact only_bind (only_insist _ _) fun _ => trivial

theorem traced_map {p : Program α} {f : α → β} (h : p.Traced Allowed (fun _ _ => True) l) :
    (f <$> p).Traced Allowed (fun _ _ => True) l := by
  refine Prog.Traced.bind (h.imp fun r l' _ => ?_)
  cases r with
  | ok a => trivial
  | error e => trivial

theorem program_traced (r : Request) :
    (r.program digest planDigest).Traced Allowed (fun _ _ => True) [] := by
  have hl : Unrefused [] := fun m hm => by cases hm
  cases r with
  | prepare request at' v => exact plain_ends (only_bind prepare_only fun _ => trivial) hl
  | confirm request at' token v w => exact traced_map (confirm_traced hl)
  | retry id request at' token w => exact traced_map (retry_traced hl)
  | upload key => exact plain_ends (only_bind (only_perform trivial) fun _ => trivial) hl
  | publish revision key manifest_digest =>
    exact plain_ends (only_bind (only_perform trivial) fun _ => trivial) hl
  | operate o => exact plain_ends (only_bind (only_perform trivial) fun _ => trivial) hl

end

end CardKeepr.Export
