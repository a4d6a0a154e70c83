import CardKeepr.Export.DeletionInvariant

namespace CardKeepr.Export

open Lib List

variable {α β : Type} {s t : Store} {i : Nat} {G : Nat → Prop}
variable {op : Op} {e : Problem} {plan : PlanRow} {k m : ObjectKey} {id token : String}
  {retryKey : Option String} {request : ConfirmCatalogueExportDeletion}

open Classical in
/-- A call that is made where it does not fit breaks the store. -/
noncomputable def checked (i : Nat) (op : Op) (s : Store) : op.Ans × Store :=
  ((handle i op s).1,if Fits s op then (handle i op s).2 else { s with marks := [("","")] })

theorem checked_eq (h : Fits s op) : checked i op s=handle i op s := by
  rw [checked,if_pos h]

theorem fits_of_checked (h : Sound (checked i op s).2) : Fits s op := by
  by_contra hn
  rw [checked,if_neg hn] at h
  exact h.marks ("","") mem_cons_self rfl

noncomputable def protocol : Protocol Op Op.Ans Store where
  handle := checked
  Inv := Sound
  rely _ := Grows
  refl _ := Grows.refl
  trans _ _ _ _ h g := h.trans g

def Free (op : Op) : Prop := ∀s,Fits s op

section

variable {ok : Op → Prop} {p : Program α} {f : α → Program β}

theorem only_perform {op : Op} (h : ok op) : (perform op).Only ok := ⟨h,fun _ => trivial⟩

theorem only_bind (hp : p.Only ok) (hf : ∀a,(f a).Only ok) : (p >>= f).Only ok := hp.bind hf

theorem only_insist (e : Problem) (b : Bool) : (insist e b).Only ok := by
  rw [insist]
  split
  · trivial
  · trivial

theorem only_required (e : Problem) (a : Option α) : (required e a).Only ok := by
  cases a with
  | none => trivial
  | some a => trivial

end

/-- The calls that change nothing. -/
def Reads : Op → Prop
  | .exportRow _ | .operationState | .plan _ | .deletionById _ | .deletionByKey _ | .retry _
  | .response _ _ | .head _ _ | .list _ _ => True
  | _ => False

/-- The calls of a wait for the response of a key. -/
def Waits (id : String) (retryKey : Option String) : Op → Prop
  | .response id' key => id'=id ∧ key=retryKey
  | .deletionById id' => id'=id
  | .acceptConfirmation id' _ => id'=id ∧ retryKey=none
  | .acceptRetry key id' _ => id'=id ∧ retryKey=some key
  | _ => False

/-- The calls that end an execution, whatever came of it. -/
def Settles (id : String) (retryKey : Option String) : Op → Prop
  | .renewLease id' key _ _ => id'=id ∧ key=retryKey
  | .failDeletion id' _ _ _ _ => id'=id
  | op => Waits id retryKey op

/-- Neither a renewal nor the end of a deletion. -/
def Plain : Op → Prop
  | .renewLease _ _ _ _ | .completeDeletion _ _ _ _ _ _ _ => False
  | _ => True

theorem Reads.free (h : Reads op) : Free op ∧ Plain op := by
  cases op <;> first | exact ⟨fun _ => trivial,trivial⟩ | exact h.elim

theorem Waits.settles (h : Waits id retryKey op) : Settles id retryKey op ∧ Plain op := by
  cases op <;> first | exact ⟨h,trivial⟩ | exact h.elim

theorem Settles.free (h : Settles id retryKey op) : Free op := by
  cases op <;> first | exact fun _ => trivial | exact h.elim

theorem free_of_looks (h : Reads op ∨ Waits id retryKey op) : Free op :=
  h.elim (fun h => h.free.1) fun h => h.settles.1.free

theorem awaitResponse_only (id : String) (retryKey : Option String) (n : Nat) :
    (awaitResponse id retryKey n).Only (Waits id retryKey) := by
  induction n with
  | zero => trivial
  | succ n ih =>
    refine only_bind (only_perform ⟨rfl,rfl⟩) fun response => ?_
    cases response with
    | none => exact ih
    | some document => trivial

theorem acceptResponse_only (id : String) (retryKey : Option String) :
    (acceptResponse id retryKey).Only (Waits id retryKey) := by
  refine only_bind (only_perform rfl) fun row => ?_
  refine only_bind (only_required _ row) fun operation => ?_
  refine only_bind ?_ fun _ => only_bind (only_perform ⟨rfl,rfl⟩) fun retained =>
    only_required _ retained
  cases retryKey with
  | none => exact only_bind (only_perform ⟨rfl,rfl⟩) fun recorded => only_insist _ recorded
  | some key => exact only_perform ⟨rfl,rfl⟩

theorem waitForDeletionResponse_only (id : String) (retryKey : Option String) :
    (waitForDeletionResponse id retryKey).Only (Waits id retryKey) := by
  refine only_bind (awaitResponse_only id retryKey _) fun response => ?_
  cases response with
  | none => exact acceptResponse_only id retryKey
  | some document => trivial

theorem finalResponse_only (x : Execution) : (finalResponse x).Only (Waits x.id x.retryKey) := by
  refine only_bind (only_perform ⟨rfl,rfl⟩) fun response => ?_
  cases response with
  | none =>
    refine only_bind (only_perform rfl) fun row => ?_
    exact only_bind (only_required _ row) fun current => trivial
  | some document => trivial

theorem recordFailure_only (x : Execution) (w : Weather) (operation : DeletionRow) :
    (recordFailure x w operation).Only fun op => Settles x.id x.retryKey op ∧ Plain op := by
  have hfinal := (finalResponse_only x).imp fun _ => Waits.settles
  refine only_bind (only_perform ⟨rfl,trivial⟩) fun recorded => ?_
  cases recorded with
  | true => exact hfinal
  | false =>
    refine only_bind (only_perform ⟨⟨rfl,rfl⟩,trivial⟩) fun reconciled => ?_
    exact only_bind (only_insist _ _) fun _ => hfinal

theorem settleDeletion_only (x : Execution) (w : Weather) (operation : DeletionRow)
    (outcome : Except Problem Unit) :
    (settleDeletion x w operation outcome).Only (Settles x.id x.retryKey) := by
  have hwait := (waitForDeletionResponse_only x.id x.retryKey).imp fun _ h => h.settles.1
  have hfailed : (do
      let ok ← x.renew w.failing
      if ok then recordFailure x w operation
      else waitForDeletionResponse x.id x.retryKey : Program Document).Only
        (Settles x.id x.retryKey) := by
    refine only_bind (only_perform ⟨rfl,rfl⟩) fun ok => ?_
    cases ok with
    | true => exact (recordFailure_only x w operation).imp fun _ h => h.1
    | false => exact hwait
  cases outcome with
  | ok _ => exact (finalResponse_only x).imp fun _ h => h.settles.1
  | error e =>
    cases e with
    | leaseLost => exact hwait
    | problem status code => exact hfailed
    | error text => exact hfailed

theorem keeps_free {p : Program α} (h : p.Only Free) :
    Keeps protocol i G (OnOk fun _ _ => True) p s := by
  induction p generalizing s with
  | ret a => exact fun _ _ _ => trivial
  | fail e => exact fun _ _ _ => trivial
  | tell e p ih => exact ih h
  | call op k ih =>
    intro t _ hi
    obtain ⟨hs,hg⟩ := handle_sound i op hi (h.1 t)
    rw [show protocol.handle i op t=handle i op t from checked_eq (h.1 t)]
    exact ⟨hs,fun _ _ => hg,ih _ (h.2 _)⟩

theorem wait_keeps (id : String) (retryKey : Option String) :
    Keeps protocol i G (OnOk fun _ _ => True) (waitForDeletionResponse id retryKey) s :=
  keeps_free ((waitForDeletionResponse_only id retryKey).imp fun _ h => h.settles.1.free)

theorem keeps_call {k : op.Ans → Program α} {post : α → Store → Prop}
    (hfit : ∀t,Grows s t → Sound t → Fits t op)
    (hk : ∀t,Grows s t → Sound t → Sound (handle i op t).2 → Grows t (handle i op t).2 →
      Keeps protocol i G (OnOk post) (k (handle i op t).1) (handle i op t).2) :
    Keeps protocol i G (OnOk post) (perform op >>= k) s := by
  intro t ht hi
  obtain ⟨hs,hg⟩ := handle_sound i op hi (hfit t ht hi)
  show Sound (checked i op t).2 ∧ (∀j,G j → Grows t (checked i op t).2) ∧
    Keeps protocol i G (OnOk post) (k (checked i op t).1) (checked i op t).2
  rw [checked_eq (hfit t ht hi)]
  exact ⟨hs,fun _ _ => hg,hk t ht hi hs hg⟩

theorem keeps_insist {b : Bool} {k : Unit → Program α} {post : α → Store → Prop}
    (h : b=true → Keeps protocol i G (OnOk post) (k ()) s) :
    Keeps protocol i G (OnOk post) (insist e b >>= k) s := by
  cases b with
  | true => exact h rfl
  | false => exact fun _ _ _ => trivial

theorem keeps_required {a : Option β} {k : β → Program α} {post : α → Store → Prop}
    (h : ∀b,a=some b → Keeps protocol i G (OnOk post) (k b) s) :
    Keeps protocol i G (OnOk post) (required e a >>= k) s := by
  cases a with
  | none => exact fun _ _ _ => trivial
  | some b => exact h b rfl

theorem keeps_insisted {b : Bool} {post : Unit → Store → Prop}
    (h : b=true → ∀t,Grows s t → Sound t → post () t) :
    Keeps protocol i G (OnOk post) (insist e b) s := by
  cases b with
  | true => exact h rfl
  | false => exact fun _ _ _ => trivial

theorem keeps_found {a : Option β} {post : β → Store → Prop}
    (h : ∀b,a=some b → ∀t,Grows s t → Sound t → post b t) :
    Keeps protocol i G (OnOk post) (required e a) s := by
  cases a with
  | none => exact fun _ _ _ => trivial
  | some b => exact h b rfl

variable {x : Execution} {w : Weather}

theorem Bound.gone (h : Bound s id plan m)
    (hg : Grows s t) (hk : k∈plan.object_keys) (hs : k∉s.bucket) : k∉t.bucket := by
  obtain ⟨e,hpl,-⟩ := h.manifest
  intro ht
  refine hs (hg.objects e hpl.recorded k ht ?_)
  rw [hpl.revision]
  exact hpl.keys k hk

theorem renewed_keeps (now : Nat) :
    Keeps protocol i G (OnOk fun _ t => Grows s t) (x.renewed now) s := by
  refine keeps_call (fun _ _ _ => trivial) fun t ht _ _ hg => ?_
  exact keeps_insisted fun _ u hu _ => (ht.trans hg).trans hu

theorem headObject_keeps (key : ObjectKey) (answered : Bool) :
    Keeps protocol i G (OnOk fun present t => ∃u,Grows s u ∧ Grows u t ∧
      present=decide (key∈u.bucket)) (headObject key answered) s := by
  refine keeps_call (fun _ _ _ => trivial) fun t ht _ _ _ => ?_
  refine keeps_found fun present hp u hu _ => ⟨t,ht,hu,?_⟩
  cases answered with
  | false => cases hp
  | true => exact (Option.some.inj hp).symm

theorem removePresent_keeps {key : ObjectKey} {n : Nat} {present : Bool}
    (hb : Bound s x.id x.plan x.manifestKey) (hkey : key∈x.plan.object_keys)
    (hlast : key=x.manifestKey → ∀k∈x.plan.object_keys,k≠x.manifestKey → k∉s.bucket)
    (hpresent : present=false → key∉s.bucket) : Keeps protocol i G
    (OnOk fun _ t => Grows s t ∧ key∉t.bucket) (removePresent x w key n present) s := by
  cases present with
  | false => exact fun t ht _ => ⟨ht,hb.gone ht hkey (hpresent rfl)⟩
  | true =>
    refine (renewed_keeps (w.deleting n)).seq fun _ t _ ht => ?_
    refine keeps_call (fun u hu _ => ?_) fun u hu _ _ hg => ?_
    · have hbu : Bound u x.id x.plan x.manifestKey := hb.mono (ht.trans hu)
      obtain ⟨d,hd,hid,hplan⟩ := hbu.deletion
      obtain ⟨e,hpl,hm⟩ := hbu.manifest
      refine ⟨d,hd,x.plan,hbu.planned,e,hpl.recorded,hid,hplan.symm,hpl.revision,hkey,?_⟩
      rw [hm]
      exact fun he k hk hne => hb.gone (ht.trans hu) hk (hlast he k hk hne)
    · refine keeps_insisted fun hdone v hv _ => ?_
      have hall := (ht.trans hu).trans (hg.trans hv)
      refine ⟨hall,hb.mono ((ht.trans hu).trans hg) |>.gone hv hkey ?_⟩
      have hfate : w.deletes n=.done := of_decide_eq_true hdone
      show key∉(if w.deletes n=.refused then u else u.delete x.id key).bucket
      rw [hfate,if_neg (by decide)]
      exact fun hmem => by simpa using (mem_filter.mp hmem).2

theorem removeObjects_keeps {keys : List ObjectKey} {n : Nat}
    (hb : Bound s x.id x.plan x.manifestKey) (hkeys : ∀k∈keys,k∈x.plan.object_keys)
    (hlast : x.manifestKey∈keys → ∀k∈x.plan.object_keys,k≠x.manifestKey → k∉s.bucket) : Keeps
    protocol i G (OnOk fun _ t => Grows s t ∧ ∀k∈keys,k∉t.bucket) (removeObjects x w keys n) s := by
  induction keys generalizing s n with
  | nil => exact fun t ht _ => ⟨ht,fun k hk => by cases hk⟩
  | cons key keys ih =>
    have hkey := hkeys key mem_cons_self
    refine (renewed_keeps (w.removing n)).seq fun _ t _ ht => ?_
    refine (headObject_keeps key (w.heads n)).seq fun present u _ hu => ?_
    obtain ⟨v,htv,hvu,hp⟩ := hu
    have hbv : Bound v x.id x.plan x.manifestKey := hb.mono (ht.trans htv)
    have hsu : Grows s u := (ht.trans htv).trans hvu
    refine (removePresent_keeps (hb.mono hsu) hkey (fun he k hk hne => ?_) fun hpf => ?_).seq
      fun _ v₁ _ hgone => ?_
    · exact hb.gone hsu hk (hlast (by rw [← he]; exact mem_cons_self) k hk hne)
    · exact hbv.gone hvu hkey (of_decide_eq_false (hp.symm.trans hpf))
    · have hsv : Grows s v₁ := hsu.trans hgone.1
      have hrest := ih (hb.mono hsv) (fun k hk => hkeys k (mem_cons_of_mem _ hk))
        (fun hm k hk hne => hb.gone hsv hk (hlast (mem_cons_of_mem _ hm) k hk hne)) (n := n+1)
      refine hrest.imp fun r t' _ hr => ?_
      cases r with
      | error e => trivial
      | ok _ =>
        refine ⟨hsv.trans hr.1,fun k hk => ?_⟩
        rcases mem_cons.mp hk with rfl | hk
        · exact (hb.mono hsv).gone hr.1 hkey hgone.2
        · exact hr.2 k hk

theorem remainingObjects_keeps {keys : List ObjectKey} {n : Nat}
    (hb : Bound s x.id x.plan x.manifestKey) (hkeys : ∀k∈keys,k∈x.plan.object_keys) : Keeps protocol
    i G (OnOk fun r t => Grows s t ∧ (r=false → ∀k∈keys,k∉t.bucket)) (remainingObjects x w keys n)
    s := by
  induction keys generalizing s n with
  | nil => exact fun t ht _ => ⟨ht,fun _ k hk => by cases hk⟩
  | cons key keys ih =>
    have hkey := hkeys key mem_cons_self
    refine (renewed_keeps (w.verifying n)).seq fun _ t _ ht => ?_
    refine (headObject_keeps key (w.verifications n)).seq fun present u _ hu => ?_
    obtain ⟨v,htv,hvu,hp⟩ := hu
    have hsv : Grows s v := ht.trans htv
    have hsu : Grows s u := hsv.trans hvu
    have hrest := ih (hb.mono hsu) (fun k hk => hkeys k (mem_cons_of_mem _ hk)) (n := n+1)
    refine hrest.seq fun rest t' _ hr => ?_
    intro u' hu' _
    have hall : Grows s u' := (hsu.trans hr.1).trans hu'
    refine ⟨hall,fun hfalse k hk => ?_⟩
    rw [Bool.or_eq_false_iff] at hfalse
    rcases mem_cons.mp hk with rfl | hk
    · exact (hb.mono hsv).gone (hvu.trans (hr.1.trans hu')) hkey
        (of_decide_eq_false (hp.symm.trans hfalse.1))
    · exact (hb.mono (hsu.trans hr.1)).gone hu' (hkeys k (mem_cons_of_mem _ hk))
        (hr.2 hfalse.2 k hk)

theorem removeObjects_append (a b : List ObjectKey) (n : Nat) : removeObjects x w (a++b) n=
      (removeObjects x w a n >>= fun _ => removeObjects x w b (n+a.length)) := by
  induction a generalizing n with
  | nil => rfl
  | cons key a ih =>
    have hlen : n+(key::a).length=n+1+a.length := by
      rw [length_cons]
      omega
    rw [cons_append,removeObjects,removeObjects,hlen,ih (n+1)]
    simp only [Prog.bind_assoc]

theorem removeOrdered_keeps (hb : Bound s x.id x.plan x.manifestKey) :
    Keeps protocol i G (OnOk fun _ t => Grows s t) (removeObjects x w x.ordered 0) s := by
  obtain ⟨e,hpl,hm⟩ := hb.manifest
  rw [Execution.ordered,removeObjects_append]
  have hothers : Keeps protocol i G (OnOk fun _ t => Grows s t ∧
      ∀k∈x.plan.object_keys.filter (fun key => decide (key≠x.manifestKey)),k∉t.bucket)
      (removeObjects x w (x.plan.object_keys.filter fun key => decide (key≠x.manifestKey)) 0) s :=
    removeObjects_keeps hb (fun k hk => (mem_filter.mp hk).1)
      (fun hmem => absurd rfl (of_decide_eq_true (mem_filter.mp hmem).2))
  refine hothers.seq fun _ t _ ht => ?_
  have hlast : ∀n,Keeps protocol i G (OnOk fun _ u => Grows t u ∧ ∀k∈[x.manifestKey],k∉u.bucket)
      (removeObjects x w [x.manifestKey] n) t := fun n =>
    removeObjects_keeps (hb.mono ht.1)
      (fun k hk => by rw [mem_singleton.mp hk,← hm]; exact hpl.manifest)
      (fun _ k hk hne => ht.2 k (mem_filter.mpr ⟨hk,decide_eq_true hne⟩))
  refine (hlast _).imp fun r u _ hr => ?_
  cases r with
  | error e => trivial
  | ok _ => exact ht.1.trans hr.1

theorem mem_listObjectKeys {revision : String} :
    k∈s.listObjectKeys revision ↔ k∈s.bucket ∧ k.under revision=true := by
  rw [Store.listObjectKeys,mem_mergeSort,mem_filter]

theorem remainingPrefix_keeps (hb : Bound s x.id x.plan x.manifestKey) :
    Keeps protocol i G (OnOk fun listed t => Grows s t ∧ (listed.isEmpty=true →
      isNativeExportPackage x.manifestKey=false →
        ∀k∈t.bucket,k.under x.plan.catalogue_revision_id=false)) (remainingPrefix x w) s := by
  rw [remainingPrefix]
  split
  · rename_i hnative
    intro t ht _
    refine ⟨ht,fun _ hn => ?_⟩
    rw [hnative] at hn
    cases hn
  · refine (renewed_keeps w.listing).seq fun _ t _ ht => ?_
    refine keeps_call (fun _ _ _ => trivial) fun u hu _ _ _ => ?_
    refine keeps_found fun keys hkeys v hv _ => ⟨(ht.trans hu).trans hv,fun hempty _ k hk => ?_⟩
    have hlist : u.listObjectKeys x.plan.catalogue_revision_id=keys := by
      cases hl : w.lists with
      | false =>
        rw [hl] at hkeys
        cases hkeys
      | true =>
        rw [hl] at hkeys
        exact Option.some.inj hkeys
    by_contra hunder
    rw [Bool.not_eq_false] at hunder
    obtain ⟨e,hpl,-⟩ := (hb.mono (ht.trans hu)).manifest
    have hku : k∈u.bucket := by
      refine hv.objects e hpl.recorded k hk ?_
      rw [hpl.revision]
      exact under_revision hunder
    have hmem := mem_listObjectKeys.mpr ⟨hku,hunder⟩
    rw [hlist,List.isEmpty_iff.mp hempty] at hmem
    cases hmem

theorem attemptDeletion_keeps (operation : DeletionRow) (hb : Bound s x.id x.plan x.manifestKey) :
    Keeps protocol i G (OnOk fun _ _ => True) (attemptDeletion x w operation) s := by
  rw [attemptDeletion]
  refine (removeOrdered_keeps hb).seq fun _ t _ ht => ?_
  refine (remainingObjects_keeps (hb.mono ht) fun _ hk => hk).seq fun remaining u _ hu => ?_
  have hbu := hb.mono (ht.trans hu.1)
  refine (remainingPrefix_keeps hbu).seq fun listed v _ hv => ?_
  refine keeps_insist fun hnone => ?_
  rw [Bool.and_eq_true,Bool.not_eq_true'] at hnone
  refine (renewed_keeps w.terminal).seq fun _ v' _ hv' => ?_
  refine keeps_call (fun z hz _ => ?_) fun z _ _ _ _ => keeps_insisted fun _ _ _ _ => trivial
  have huz : Grows u z := (hv.1.trans hv').trans hz
  have hbv := hbu.mono hv.1
  refine ⟨x.manifestKey,hbu.mono huz,?_,fun hn k hk => ?_⟩
  · exact fun k hk => hbu.gone huz hk (hu.2 hnone.1 k hk)
  · -- What the listing missed would be an object of the export.
    obtain ⟨e,hpl,-⟩ := hbv.manifest
    by_contra hunder
    rw [Bool.not_eq_false] at hunder
    have hkv : k∈v.bucket := by
      refine (hv'.trans hz).objects e hpl.recorded k hk ?_
      rw [hpl.revision]
      exact under_revision hunder
    rw [hv.2 hnone.2 hn k hkv] at hunder
    cases hunder

theorem executeDeletion_keeps (hb : Bound s x.id x.plan x.manifestKey) :
    Keeps protocol i G (OnOk fun _ _ => True) (executeDeletion x w) s := by
  rw [executeDeletion]
  refine keeps_call (fun _ _ _ => trivial) fun t ht _ _ hg => ?_
  refine keeps_required fun operation _ => ?_
  refine Keeps.bind ((attemptDeletion_keeps operation (hb.mono (ht.trans hg))).settled.imp ?_)
  rintro r u _ ⟨outcome,rfl,-⟩
  exact keeps_free ((settleDeletion_only x w operation outcome).imp fun _ => Settles.free)

theorem Bound.of_rows (hs : Sound s)
    (hd : ∃d∈s.deletions,d.id=id ∧ d.plan_id=plan.id) (hp : plan∈s.plans)
    (he : ∃e∈s.exports,e.catalogue_revision_id=plan.catalogue_revision_id ∧ e.manifest_key=m) :
    Bound s id plan m := by
  obtain ⟨e,hes,hrev,hm⟩ := he
  obtain ⟨e₁,hpl⟩ := hs.plans plan hp
  obtain rfl := hs.export_eq hes hpl.recorded (hrev.trans hpl.revision.symm)
  exact ⟨hd,hp,e,hpl,hm⟩

theorem Grows.deletion {plan : String} (h : Grows s t)
    (hd : ∃d∈s.deletions,d.id=id ∧ d.plan_id=plan) : ∃d∈t.deletions,d.id=id ∧ d.plan_id=plan := by
  obtain ⟨d,hds,hid,hplan⟩ := hd
  obtain ⟨d',hd',hsame⟩ := h.deletions d hds
  exact ⟨d',hd',hsame.id.trans hid,hsame.plan.trans hplan⟩

theorem executeWithManifest_keeps {at' : Nat} (hd : ∃d∈s.deletions,d.id=id ∧ d.plan_id=plan.id)
    (hp : plan∈s.plans) : Keeps protocol i G (OnOk fun _ _ => True)
      (executeWithManifest id plan at' retryKey token w) s := by
  rw [executeWithManifest]
  refine keeps_call (fun _ _ _ => trivial) fun t ht hi _ _ => keeps_required fun e he => ?_
  obtain ⟨hes,hrev⟩ := mem_of_keyed he
  exact executeDeletion_keeps
    (Bound.of_rows hi (ht.deletion hd) (ht.plans plan hp) ⟨e,hes,hrev,rfl⟩)

theorem replayConfirmation_keeps {row : DeletionRow} {at' : Nat} (hrow : row∈s.deletions) :
    Keeps protocol i G (OnOk fun _ _ => True) (replayConfirmation row request at' token w) s := by
  rw [replayConfirmation]
  split
  · exact fun _ _ _ => trivial
  · cases hr : row.confirmation_response with
    | some document => exact fun _ _ _ => trivial
    | none =>
      dsimp only
      split
      · refine keeps_call (fun _ _ _ => trivial) fun t ht _ _ hg => ?_
        split
        · refine keeps_call (fun _ _ _ => trivial) fun u hu _ _ _ => ?_
          refine keeps_required fun plan hplan => ?_
          obtain ⟨hps,hpid⟩ := mem_of_keyed hplan
          refine executeWithManifest_keeps ?_ hps
          rw [hpid]
          exact ((ht.trans hg).trans hu).deletion ⟨row,hrow,rfl,rfl⟩
        · exact wait_keeps row.id none
      · exact fun _ _ _ => trivial

theorem exactObjects_only (e : ExportRow) (v : Evidence) : (exactObjects e v).Only Reads := by
  rw [exactObjects]
  split
  · rename_i hn
    rw [verifiedExportObjects,if_pos hn]
    refine only_bind (only_insist _ _) fun _ => only_bind (only_perform trivial) fun manifest => ?_
    exact only_bind (only_insist _ _) fun _ => trivial
  · exact only_bind (only_perform trivial) fun keys => only_required _ keys

theorem concurrentConfirmation_only (request : ConfirmCatalogueExportDeletion) :
    (concurrentConfirmation request).Only fun op =>
      Reads op ∨ Waits request.deletion_id none op := by
  refine only_bind (only_perform (.inl trivial)) fun row => ?_
  refine only_bind (only_required _ row) fun concurrent => only_bind (only_insist _ _) fun _ => ?_
  cases concurrent.confirmation_response with
  | some document => trivial
  | none => exact (waitForDeletionResponse_only _ none).imp fun _ => .inr

theorem assertMaintenanceIdle_only (expected : String) (at' : Nat) :
    (assertMaintenanceIdle expected at').Only Reads := by
  refine only_bind (only_perform trivial) fun o => ?_
  exact only_bind (only_insist _ _) fun _ => only_insist _ _

theorem assertMutationGuards_only (plan : PlanRow) (confirmation : String) (at' : Nat) :
    (assertMutationGuards plan confirmation at').Only Reads :=
  only_bind (only_insist _ _) fun _ => only_bind (only_insist _ _) fun _ =>
    assertMaintenanceIdle_only _ at'

theorem keeps_reading {p : Program β} {k : β → Program α} (hp : p.Only Reads)
    (h : ∀b t,Grows s t → Sound t → Keeps protocol i (fun _ => True) (OnOk fun _ _ => True) (k b) t) :
    Keeps protocol i (fun _ => True) (OnOk fun _ _ => True) (p >>= k) s := by
  refine Keeps.bind (((keeps_free (hp.imp fun _ h => h.free.1)).tracked trivial (Grows.refl s)).imp ?_)
  rintro r t hi ⟨-,hg⟩
  cases r with
  | error e => trivial
  | ok b => exact h b t hg hi

theorem confirmDeletion_true {at' : Nat} (h : (s.confirmDeletion plan request at' token).1=true) :
    ∃d∈(s.confirmDeletion plan request at' token).2.deletions,
      d.id=request.deletion_id ∧ d.plan_id=plan.id := by
  rw [Store.confirmDeletion] at h ⊢
  split at h
  · rename_i hok
    rw [if_pos hok]
    exact ⟨_,mem_append_right _ (mem_singleton_self _),rfl,rfl⟩
  · cases h

section

variable {digest : List ObjectKey → String} {planDigest : PlanRow → String} {at' : Nat}
  {token : String} {v : Evidence}
variable {request : RetryRequest}

theorem newConfirmation_keeps {request : ConfirmCatalogueExportDeletion} : Keeps protocol i
    (fun _ => True) (OnOk fun _ _ => True) (newConfirmation digest request at' token v w) s := by
  rw [newConfirmation]
  refine keeps_call (fun _ _ _ => trivial) fun t₀ _ _ _ hg₀ => keeps_required fun plan hplan => ?_
  obtain ⟨hps,-⟩ := mem_of_keyed hplan
  refine keeps_insist fun _ => keeps_insist fun _ => ?_
  refine keeps_reading (assertMutationGuards_only _ _ _) fun _ t₁ ht₁ _ => ?_
  refine keeps_call (fun _ _ _ => trivial) fun t₂ ht₂ _ _ hg₂ => keeps_required fun e he => ?_
  obtain ⟨hes,hrev⟩ := mem_of_keyed he
  refine keeps_insist fun _ => keeps_reading (exactObjects_only e v) fun keys t₃ ht₃ _ => ?_
  refine keeps_insist fun _ => keeps_call (fun _ _ _ => trivial) fun t₄ ht₄ _ _ hg₄ => ?_
  refine keeps_insist fun _ => keeps_call (fun _ _ _ => trivial) fun t₅ ht₅ _ hs₅ hg₅ => ?_
  split
  · rename_i hok
    have hlast := ht₃.trans (ht₄.trans (hg₄.trans (ht₅.trans hg₅)))
    refine executeDeletion_keeps (Bound.of_rows hs₅ (confirmDeletion_true hok) ?_ ?_)
    · exact hlast.plans _ (hg₂.plans _ (ht₂.plans _ (ht₁.plans _ (hg₀.plans _ hps))))
    · obtain ⟨e',he',hr',hm'⟩ := hlast.exports e (by exact hes)
      exact ⟨e',he',hr'.trans hrev,hm'⟩
  · exact keeps_free ((concurrentConfirmation_only request).imp fun _ => free_of_looks)

theorem confirmCatalogueExportDeletion_keeps {request : ConfirmCatalogueExportDeletion} :
    Keeps protocol i (fun _ => True) (OnOk fun _ _ => True)
      (confirmCatalogueExportDeletion digest request at' token v w) s := by
  rw [confirmCatalogueExportDeletion]
  refine keeps_call (fun _ _ _ => trivial) fun t _ _ _ _ => ?_
  split
  · rename_i row hrow
    exact replayConfirmation_keeps (mem_of_keyed hrow).1
  · exact newConfirmation_keeps

theorem concurrentRetry_only (id : String) (request : RetryRequest) :
    (concurrentRetry id request).Only fun op =>
      Reads op ∨ Waits id (some request.idempotency_key) op := by
  refine only_bind (only_perform (.inl trivial)) fun row => ?_
  refine only_bind (only_required _ row) fun concurrent => only_bind (only_insist _ _) fun _ => ?_
  cases concurrent.response with
  | some document => trivial
  | none => exact (waitForDeletionResponse_only id _).imp fun _ => .inr

theorem replayRetry_keeps {row : DeletionRow}
    (hrow : ∃d∈s.deletions,d.id=row.id ∧ d.plan_id=row.plan_id) : Keeps protocol i (fun _ => True)
    (OnOk fun _ _ => True) (replayRetry row request at' token w) s := by
  rw [replayRetry]
  split
  · exact keeps_free (only_bind (only_perform fun _ => trivial) fun _ => trivial)
  · refine keeps_insist fun _ => keeps_insist fun _ => ?_
    refine keeps_call (fun _ _ _ => trivial) fun t ht _ _ hg => ?_
    split
    · refine keeps_call (fun _ _ _ => trivial) fun u hu _ _ hgu => ?_
      refine keeps_required fun plan hplan => ?_
      obtain ⟨hps,hpid⟩ := mem_of_keyed hplan
      refine keeps_reading (assertMaintenanceIdle_only _ _) fun _ z hz _ => ?_
      refine executeWithManifest_keeps ?_ (hz.plans plan (hgu.plans plan hps))
      rw [hpid]
      exact ((ht.trans hg).trans (hu.trans (hgu.trans hz))).deletion hrow
    · exact wait_keeps row.id _

theorem newRetry_keeps {row : DeletionRow}
    (hrow : ∃d∈s.deletions,d.id=row.id ∧ d.plan_id=row.plan_id) :
    Keeps protocol i (fun _ => True) (OnOk fun _ _ => True) (newRetry row request at' token w) s := by
  rw [newRetry]
  refine keeps_insist fun _ => keeps_insist fun _ => ?_
  refine keeps_call (fun _ _ _ => trivial) fun t ht _ _ hg => keeps_required fun plan hplan => ?_
  obtain ⟨hps,hpid⟩ := mem_of_keyed hplan
  refine keeps_reading (assertMaintenanceIdle_only _ _) fun _ u hu _ => ?_
  refine keeps_call (fun _ _ _ => trivial) fun z hz _ _ hgz => ?_
  have hlast := hg.trans (hu.trans (hz.trans hgz))
  split
  · refine executeWithManifest_keeps ?_ (hlast.plans plan hps)
    rw [hpid]
    exact (ht.trans hlast).deletion hrow
  · exact keeps_free ((concurrentRetry_only row.id request).imp fun _ => free_of_looks)

theorem retriedDeletion_keeps (id : String) : Keeps protocol i G
    (OnOk fun row t => ∃d∈t.deletions,d.id=row.id ∧ d.plan_id=row.plan_id)
      (retriedDeletion id) s := by
  rw [retriedDeletion]
  refine keeps_call (fun _ _ _ => trivial) fun t _ _ _ _ => keeps_found fun row hrow u hu _ => ?_
  exact hu.deletion ⟨row,(mem_of_keyed hrow).1,rfl,rfl⟩

theorem retryCatalogueExportDeletion_keeps {id : String} : Keeps protocol i (fun _ => True)
    (OnOk fun _ _ => True) (retryCatalogueExportDeletion id request at' token w) s := by
  rw [retryCatalogueExportDeletion]
  refine keeps_call (fun _ _ _ => trivial) fun t _ _ _ _ => ?_
  split
  · exact (retriedDeletion_keeps id).seq fun row u _ hrow => newRetry_keeps hrow
  · split
    · exact fun _ _ _ => trivial
    · split
      · exact fun _ _ _ => trivial
      · exact (retriedDeletion_keeps id).seq fun row u _ hrow => replayRetry_keeps hrow

/-- The objects that a plan of the export may name. -/
structure Scope (s : Store) (e : ExportRow) (keys : List ObjectKey) : Prop where
  manifest : e.manifest_key∈keys
  named : ∀k∈keys,k.revision=some e.catalogue_revision_id
  covered : isNativeExportPackage e.manifest_key=false →
    ∀k∈s.bucket,k.under e.catalogue_revision_id=true → k∈keys

theorem verifiedExportObjects_keeps {e : ExportRow}
    (he : ∃e'∈s.exports,e'.catalogue_revision_id=e.catalogue_revision_id) : Keeps protocol i G
    (OnOk fun keys t => Grows s t ∧ Scope t e keys) (verifiedExportObjects e v) s := by
  rw [verifiedExportObjects]
  split
  · rename_i hn
    rw [nativeExportDeletionScope]
    refine keeps_insist fun hkey => keeps_call (fun _ _ _ => trivial) fun t ht _ _ _ => ?_
    refine keeps_insist fun _ u hu _ => ⟨ht.trans hu,mem_singleton_self _,?_,?_⟩
    · intro k hk
      rw [Bool.and_eq_true,decide_eq_true_eq] at hkey
      rw [mem_singleton.mp hk,hkey.2]
      rfl
    · intro hnn
      rw [hn] at hnn
      cases hnn
  · refine keeps_call (fun _ _ _ => trivial) fun t ht _ _ _ => keeps_insist fun _ => ?_
    refine keeps_call (fun _ _ _ => trivial) fun u hu _ _ _ => keeps_insist fun hall => ?_
    rw [Bool.and_eq_true] at hall
    intro z hz _
    have hlisted : u.listObjectKeys e.catalogue_revision_id=expectedObjects e v := by
      have h : (if v.answered then some (u.listObjectKeys e.catalogue_revision_id) else none)=
          some (expectedObjects e v) := of_decide_eq_true hall.1
      cases hv : v.answered with
      | false =>
        rw [hv] at h
        cases h
      | true =>
        rw [hv] at h
        exact Option.some.inj h
    refine ⟨ht.trans (hu.trans hz),?_,?_,?_⟩
    · rw [expectedObjects,mem_mergeSort,mem_eraseDups]
      exact mem_append_right _ (mem_singleton_self _)
    · exact fun k hk => under_revision (all_eq_true.mp hall.2 k hk)
    · intro _ k hk hunder
      obtain ⟨e₀,he₀,hrev₀⟩ := he
      obtain ⟨e',he',hrev',-⟩ := (ht.trans hu).exports e₀ he₀
      rw [← hlisted,mem_listObjectKeys]
      refine ⟨hz.objects e' he' k hk ?_,hunder⟩
      rw [hrev',hrev₀]
      exact under_revision hunder

theorem prepareCatalogueExportDeletion_keeps {request : PrepareCatalogueExportDeletion} :
    Keeps protocol i (fun _ => True) (OnOk fun _ _ => True)
      (prepareCatalogueExportDeletion digest planDigest request at' v) s := by
  rw [prepareCatalogueExportDeletion]
  refine keeps_call (fun _ _ _ => trivial) fun t ht _ _ _ => keeps_required fun e he => ?_
  obtain ⟨hes,hrev⟩ := mem_of_keyed he
  refine keeps_insist fun _ => keeps_insist fun _ => ?_
  refine keeps_call (fun _ _ _ => trivial) fun t₁ ht₁ _ _ _ => keeps_insist fun _ => ?_
  refine keeps_call (fun _ _ _ => trivial) fun t₂ ht₂ _ _ _ => keeps_insist fun _ => ?_
  obtain ⟨e₀,he₀,hrev₀,-⟩ := (ht₁.trans ht₂).exports e hes
  refine (verifiedExportObjects_keeps ⟨e₀,he₀,hrev₀⟩).seq fun keys t₃ _ hkeys => ?_
  refine keeps_call (fun t₄ ht₄ _ => ?_) fun _ _ _ _ _ => keeps_insist fun _ _ _ _ => trivial
  obtain ⟨hg₃,hmanifest,hnamed,hcovered⟩ := hkeys
  obtain ⟨e',he',hrev',hm'⟩ := (ht₁.trans (ht₂.trans (hg₃.trans ht₄))).exports e hes
  obtain ⟨e₃,he₃,hrev₃,-⟩ := (ht₁.trans (ht₂.trans hg₃)).exports e hes
  refine ⟨e',he',hrev'.trans hrev,by rw [hm']; exact hmanifest,?_,fun hn k hk hunder => ?_⟩
  · rw [← hrev]
    exact hnamed
  · have hunder' : k.under e.catalogue_revision_id=true := by
      rw [hrev]
      exact hunder
    rw [hm'] at hn
    refine hcovered hn k (ht₄.objects e₃ he₃ k hk ?_) hunder'
    rw [hrev₃]
    exact under_revision hunder'

end

/-- What may be asked of the system, by owners and by the rest of it. -/
inductive Request where
  | prepare (request : PrepareCatalogueExportDeletion) (observedAt : Nat) (v : Evidence)
  | confirm (request : ConfirmCatalogueExportDeletion) (observedAt : Nat) (token : String)
    (v : Evidence) (w : Weather)
  | retry (id : String) (request : RetryRequest) (observedAt : Nat) (token : String) (w : Weather)
  | upload (key : ObjectKey)
  | publish (revision : String) (manifest_key : ObjectKey) (manifest_digest : String)
  | operate (o : OperationState)

section

variable (digest : List ObjectKey → String) (planDigest : PlanRow → String)

def Request.program : Request → Program (Option Document)
  | .prepare request at' v => do
    let _ ← prepareCatalogueExportDeletion digest planDigest request at' v
    pure none
  | .confirm request at' token v w =>
    some <$> confirmCatalogueExportDeletion digest request at' token v w
  | .retry id request at' token w => some <$> retryCatalogueExportDeletion id request at' token w
  | .upload key => do
    perform (.upload key)
    pure none
  | .publish revision key manifest_digest => do
    perform (.publish revision key manifest_digest)
    pure none
  | .operate o => do
    perform (.operate o)
    pure none

def start (_ : Store) (p : Program (Option Document)) : Prop :=
  ∃r,p=Request.program digest planDigest r

end

/-- A store from before any deletion: its exports are available. -/
structure Fresh (s : Store) : Prop where
  exportIds : (s.exports.map ExportRow.catalogue_revision_id).Nodup
  available : ∀e∈s.exports,e.maintenance_state=.available
  plans : s.plans=[]
  deletions : s.deletions=[]
  retries : s.retries=[]
  tombstones : s.tombstones=[]
  removals : s.removals=[]
  marks : s.marks=[]

theorem Fresh.sound (h : Fresh s) : Sound s := by
  refine ⟨h.exportIds,?_,?_,?_,?_,?_,?_,?_,fun e he hav => absurd (h.available e he) hav,?_,?_⟩
  all_goals simp [h.plans,h.deletions,h.retries,h.tombstones,h.removals,h.marks]

section

variable {digest : List ObjectKey → String} {planDigest : PlanRow → String}

theorem keeps_map {p : Program α} {f : α → β} (h : Keeps protocol i G (OnOk fun _ _ => True) p s) :
    Keeps protocol i G (OnOk fun _ _ => True) (f <$> p) s :=
  h.seq fun _ _ _ _ _ _ _ => trivial

theorem program_keeps (r : Request) : Keeps protocol i (fun _ => True) (OnOk fun _ _ => True)
    (r.program digest planDigest) s := by
  cases r with
  | prepare request at' v =>
    exact prepareCatalogueExportDeletion_keeps.seq fun _ _ _ _ _ _ _ => trivial
  | confirm request at' token v w => exact keeps_map confirmCatalogueExportDeletion_keeps
  | retry id request at' token w => exact keeps_map retryCatalogueExportDeletion_keeps
  | upload key => exact keeps_free (only_bind (only_perform fun _ => trivial) fun _ => trivial)
  | publish revision key manifest_digest =>
    exact keeps_free (only_bind (only_perform fun _ => trivial) fun _ => trivial)
  | operate o => exact keeps_free (only_bind (only_perform fun _ => trivial) fun _ => trivial)

theorem reachable_kept {s₀ : Store} {w : Pool Op Op.Ans Empty Problem (Option Document) Store}
    (h : Pool.Reachable handle (start digest planDigest) s₀ w) (h₀ : Fresh s₀) :
    w.Kept protocol (OnOk fun _ _ => True) := by
  have hstart : ∀s i p,Sound s → start digest planDigest s p →
      Keeps protocol i (·≠i) (OnOk fun _ _ => True) p s := by
    rintro s i p - ⟨r,rfl⟩
    exact (program_keeps r).guarantee fun _ _ => trivial
  induction h with
  | refl => exact ⟨h₀.sound,fun i p hp => by simp at hp⟩
  | @tail v w _ hs ih =>
    refine ih.step hstart ?_
    cases hs with
    | spawn hst => exact .spawn hst
    | tell ht => exact .tell ht
    | @call s ts i op k hc =>
      have hinv := (ih.threads i _ hc s (Grows.refl s) ih.inv).1
      rw [← checked_eq (fits_of_checked hinv)]
      exact .call hc

theorem reachable_sound {s₀ : Store} {w : Pool Op Op.Ans Empty Problem (Option Document) Store}
    (h : Pool.Reachable handle (start digest planDigest) s₀ w) (h₀ : Fresh s₀) : Sound w.store :=
  (reachable_kept h h₀).inv

theorem reachable_fits {s₀ : Store} {w : Pool Op Op.Ans Empty Problem (Option Document) Store}
    (h : Pool.Reachable handle (start digest planDigest) s₀ w) (h₀ : Fresh s₀) {op : Op}
    {k : op.Ans → Program (Option Document)} (hi : w.threads[i]?=some (.call op k)) :
    Fits w.store op := by
  have hk := reachable_kept h h₀
  exact fits_of_checked (hk.threads i _ hi w.store (Grows.refl _) hk.inv).1

end

end CardKeepr.Export
