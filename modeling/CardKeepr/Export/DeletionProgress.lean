import CardKeepr.Export.DeletionSafety

namespace CardKeepr.Export

open Lib List

variable {α β : Type} {s t : Store} {x : Execution} {w : Weather} {lo : Nat}
variable {d : DeletionRow} {k token : String} {n at' now lease : Nat}
  {digest : List ObjectKey → String}

/-- The program by itself ends with a result, and leaves the store as `Q` says. -/
def Returns (p : Program α) (s : Store) (Q : α → Store → Prop) : Prop :=
  ∃a,(alone (handle 0) p s).result=.ok a ∧ Q a (alone (handle 0) p s).store

theorem returns_pure {a : α} {Q : α → Store → Prop} (h : Q a s) : Returns (pure a) s Q := ⟨a,rfl,h⟩

theorem Returns.bind {p : Program α} {f : α → Program β} {Q : α → Store → Prop}
    {R : β → Store → Prop} (h : Returns p s Q) (hf : ∀a t,Q a t → Returns (f a) t R) :
    Returns (p >>= f) s R := by
  obtain ⟨a,ha,hq⟩ := h
  obtain ⟨b,hb,hr⟩ := hf a _ hq
  refine ⟨b,?_,?_⟩
  · rw [alone_bind,ha]
    exact hb
  · rw [alone_bind,ha]
    exact hr

theorem returns_call {op : Op} {k : op.Ans → Program α} {Q : α → Store → Prop}
    (h : Returns (k (handle 0 op s).1) (handle 0 op s).2 Q) : Returns (perform op >>= k) s Q := h

theorem returns_insist {e : Problem} {b : Bool} {k : Unit → Program α} {Q : α → Store → Prop}
    (hb : b=true) (h : Returns (k ()) s Q) : Returns (insist e b >>= k) s Q := by
  subst hb
  exact h

theorem returns_insisted {e : Problem} {b : Bool} {Q : Unit → Store → Prop} (hb : b=true)
    (h : Q () s) : Returns (insist e b) s Q := by
  subst hb
  exact returns_pure h

/-- The bucket answers, and the clock stays within the lease that was taken at `lo`. -/
structure Weather.Calm (w : Weather) (lo : Nat) : Prop where
  removing : ∀n,lo ≤ w.removing n ∧ w.removing n < leaseExpiresAt lo
  deleting : ∀n,lo ≤ w.deleting n ∧ w.deleting n < leaseExpiresAt lo
  verifying : ∀n,lo ≤ w.verifying n ∧ w.verifying n < leaseExpiresAt lo
  listing : lo ≤ w.listing ∧ w.listing < leaseExpiresAt lo
  terminal : lo ≤ w.terminal ∧ w.terminal < leaseExpiresAt lo
  heads : ∀n,w.heads n=true
  deletes : ∀n,w.deletes n=.done
  verifications : ∀n,w.verifications n=true
  lists : w.lists=true

/-- The execution holds its lease, and has touched no more than leases and objects since `s`. -/
structure Holding (x : Execution) (lo : Nat) (s t : Store) : Prop where
  plans : t.plans=s.plans
  exports : t.exports=s.exports
  tombstones : t.tombstones=s.tombstones
  bucket : ∀k∈t.bucket,k∈s.bucket
  row : ∃d∈t.deletions,Store.owned x.id x.retryKey x.token d=true ∧
    ∃lease,d.execution_lease_expires_at=some lease ∧ leaseExpiresAt lo ≤ lease

theorem renewLease_true (h : Holding x lo s t) (hlo : lo ≤ now) (hhi : now < leaseExpiresAt lo) :
    (t.renewLease x.id x.retryKey x.token now).1=true ∧
      Holding x lo s (t.renewLease x.id x.retryKey x.token now).2 ∧
      (t.renewLease x.id x.retryKey x.token now).2.bucket=t.bucket := by
  obtain ⟨d,hd,hown,lease,hlease,hle⟩ := h.row
  let d' : DeletionRow := { d with execution_lease_expires_at := some (leaseExpiresAt now) }
  let f (d : DeletionRow) : DeletionRow :=
    if (Store.owned x.id x.retryKey x.token d && Store.leaseAfter now d)=true then
      { d with execution_lease_expires_at := some (leaseExpiresAt now) }
    else d
  have hafter : Store.leaseAfter now d=true := by
    rw [Store.leaseAfter,hlease,Option.any_some,decide_eq_true_eq]
    omega
  have hf : f d=d' := if_pos (by rw [hown,hafter]; rfl)
  have hmem : d'∈t.deletions.map f := mem_map.mpr ⟨d,hd,hf⟩
  have hguard : (t.deletions.map f).any (fun d => Store.owned x.id x.retryKey x.token d &&
      decide (d.execution_lease_expires_at=some (leaseExpiresAt now)))=true := by
    refine any_eq_true.mpr ⟨d',hmem,?_⟩
    rw [Bool.and_eq_true,decide_eq_true_eq]
    exact ⟨hown,rfl⟩
  have hrenew : t.renewLease x.id x.retryKey x.token now=
      (true,{ t with deletions := t.deletions.map f }) := if_pos hguard
  rw [hrenew]
  refine ⟨rfl,⟨h.plans,h.exports,h.tombstones,h.bucket,d',hmem,hown,_,rfl,?_⟩,rfl⟩
  rw [leaseExpiresAt,leaseExpiresAt]
  omega

theorem renewed_returns (h : Holding x lo s t) (hlo : lo ≤ now) (hhi : now < leaseExpiresAt lo) :
    Returns (x.renewed now) t (fun _ u => Holding x lo s u ∧ u.bucket=t.bucket) := by
  obtain ⟨htrue,hrest⟩ := renewLease_true h hlo hhi
  refine returns_call (returns_insisted ?_ hrest)
  exact htrue

theorem headObject_returns (key : ObjectKey) {answered : Bool} (ha : answered=true) :
    Returns (headObject key answered) t (fun present u => u=t ∧ present=decide (key∈t.bucket)) := by
  subst ha
  exact ⟨_,rfl,rfl,rfl⟩

theorem removePresent_returns {key : ObjectKey} {present : Bool} (h : Holding x lo s t)
    (hw : w.Calm lo) (hp : present=decide (key∈t.bucket)) :
    Returns (removePresent x w key n present) t (fun _ u => Holding x lo s u ∧ key∉u.bucket ∧
      ∀k∈u.bucket,k∈t.bucket) := by
  cases present with
  | false =>
    exact returns_pure ⟨h,of_decide_eq_false hp.symm,fun _ hk => hk⟩
  | true =>
    refine (renewed_returns h (hw.deleting n).1 (hw.deleting n).2).bind fun _ u hu => ?_
    refine returns_call (returns_insisted ?_ ?_)
    · exact decide_eq_true (hw.deletes n)
    · show Holding x lo s (if w.deletes n=.refused then u else u.delete x.id key) ∧ _
      rw [hw.deletes n,if_neg (by decide)]
      have hsub : ∀k∈(u.delete x.id key).bucket,k∈u.bucket := fun k hk => (mem_filter.mp hk).1
      refine ⟨⟨hu.1.plans,hu.1.exports,hu.1.tombstones,fun k hk => hu.1.bucket k (hsub k hk),
        hu.1.row⟩,fun hk => ?_,fun k hk => hu.2 ▸ hsub k hk⟩
      exact of_decide_eq_true (mem_filter.mp hk).2 rfl

theorem removeObjects_returns {keys : List ObjectKey} (h : Holding x lo s t)
    (hw : w.Calm lo) : Returns (removeObjects x w keys n) t (fun _ u => Holding x lo s u ∧
      (∀k∈keys,k∉u.bucket) ∧ ∀k∈u.bucket,k∈t.bucket) := by
  induction keys generalizing t n with
  | nil => exact returns_pure ⟨h,nofun,fun _ hk => hk⟩
  | cons key keys ih =>
    rw [removeObjects]
    refine (renewed_returns h (hw.removing n).1 (hw.removing n).2).bind fun _ u hu => ?_
    refine (headObject_returns key (hw.heads n)).bind fun present u' hu' => ?_
    obtain ⟨rfl,hp⟩ := hu'
    refine (removePresent_returns hu.1 hw hp).bind fun _ v hv => ?_
    obtain ⟨a,ha,hrest⟩ := ih hv.1 (n := n+1)
    refine ⟨a,ha,hrest.1,fun k hk => ?_,fun k hk => ?_⟩
    · rcases mem_cons.mp hk with rfl | hk
      · exact fun hmem => hv.2.1 (hrest.2.2 _ hmem)
      · exact hrest.2.1 k hk
    · rw [← hu.2]
      exact hv.2.2 k (hrest.2.2 k hk)

theorem remainingObjects_returns {keys : List ObjectKey} (h : Holding x lo s t)
    (hw : w.Calm lo) (hgone : ∀k∈keys,k∉t.bucket) : Returns (remainingObjects x w keys n) t
      (fun r u => r=false ∧ Holding x lo s u ∧ u.bucket=t.bucket) := by
  induction keys generalizing t n with
  | nil => exact returns_pure ⟨rfl,h,rfl⟩
  | cons key keys ih =>
    rw [remainingObjects]
    refine (renewed_returns h (hw.verifying n).1 (hw.verifying n).2).bind fun _ u hu => ?_
    refine (headObject_returns key (hw.verifications n)).bind fun present u' hu' => ?_
    obtain ⟨rfl,hp⟩ := hu'
    have hrest := ih hu.1 (fun k hk => hu.2 ▸ hgone k (mem_cons_of_mem _ hk)) (n := n+1)
    refine hrest.bind fun r v hv => returns_pure ⟨?_,hv.2.1,hv.2.2.trans hu.2⟩
    have hfalse : present=false := by
      rw [hp,hu.2]
      exact decide_eq_false (hgone key mem_cons_self)
    rw [hfalse,hv.1]
    rfl

theorem remainingPrefix_returns (h : Holding x lo s t) (hw : w.Calm lo)
    (hgone : isNativeExportPackage x.manifestKey=false →
      ∀k∈t.bucket,k.under x.plan.catalogue_revision_id=false) :
    Returns (remainingPrefix x w) t (fun listed u => listed.isEmpty=true ∧ Holding x lo s u) := by
  rw [remainingPrefix]
  split
  · exact returns_pure ⟨rfl,h⟩
  · rename_i hn
    rw [Bool.not_eq_true] at hn
    refine (renewed_returns h hw.listing.1 hw.listing.2).bind fun _ u hu => ?_
    have hempty : u.listObjectKeys x.plan.catalogue_revision_id=[] := by
      refine eq_nil_iff_forall_not_mem.mpr fun k hk => ?_
      obtain ⟨hmem,hunder⟩ := mem_listObjectKeys.mp hk
      rw [hu.2] at hmem
      rw [hgone hn k hmem] at hunder
      cases hunder
    refine returns_call ?_
    show Returns (required _ (if w.lists then some (u.listObjectKeys _) else none)) u _
    rw [hw.lists,if_pos rfl,hempty]
    exact returns_pure ⟨rfl,hu.1⟩

theorem Sound.unburied (h : Sound s) (hd : d∈s.deletions)
    (hstate : d.state≠.deleted) : s.tombstones.any (fun m =>
      decide (m.catalogue_revision_id=d.catalogue_revision_id ∨ m.deletion_id=d.id))=false := by
  refine any_eq_false.mpr fun m hm hc => ?_
  obtain ⟨d',hd',hid',hrev',hdel⟩ := h.tombstones m hm
  have hsame : d'=d := by
    rcases of_decide_eq_true hc with hc | hc
    · -- Two deletions of one export are the one that it names.
      obtain ⟨_,_,e,he,-,-,-,-,hr,hop,-⟩ := (h.deletions d hd).planned
      obtain ⟨_,_,e',he',-,-,-,-,hr',hop',-⟩ := (h.deletions d' hd').planned
      obtain rfl := h.export_eq he he' (hr.trans (hc.symm.trans (hrev'.symm.trans hr'.symm)))
      rw [hop] at hop'
      exact eq_of_key h.ids hd' hd (Option.some.inj hop').symm
    · exact eq_of_key h.ids hd' hd (hid'.trans hc)
  rw [hsame] at hdel
  exact hstate hdel

theorem completeDeletion_true {leaseAt : Nat} (at' : Nat) (document : Document)
    (h : Holding x lo s t)
    (hleft : s.tombstones.any (fun m => decide (m.catalogue_revision_id=x.plan.catalogue_revision_id ∨
      m.deletion_id=x.id))=false) (hlease : leaseAt < leaseExpiresAt lo) :
    (t.completeDeletion x.id x.plan x.retryKey x.token leaseAt at' document).1=true ∧
      ∃d∈(t.completeDeletion x.id x.plan x.retryKey x.token leaseAt at' document).2.deletions,
        d.id=x.id ∧ d.state=.deleted := by
  obtain ⟨d,hd,hown,lease,hl,hle⟩ := h.row
  have hguard : t.deletions.any (fun d => Store.owned x.id x.retryKey x.token d &&
      Store.leaseAfter leaseAt d)=true := by
    refine any_eq_true.mpr ⟨d,hd,?_⟩
    rw [hown,Store.leaseAfter,hl,Option.any_some,Bool.true_and,decide_eq_true_eq]
    omega
  have hdel : ∀(u : Store) (doc : Document),(u.persistResponseOf x.retryKey doc).deletions=
      u.deletions := by
    intro u doc
    cases x.retryKey with
    | none => rfl
    | some key => rfl
  rw [Store.completeDeletion,if_pos (by rw [hguard,h.tombstones,hleft]; rfl)]
  let d' : DeletionRow := { d with
    state := .deleted
    completed_at := some at'
    failure_code := none
    confirmation_response := some (d.confirmation_response.getD document) }
  refine ⟨rfl,d',?_,(owned_iff.mp hown).1,rfl⟩
  dsimp only
  rw [hdel]
  exact mem_map.mpr ⟨d,hd,if_pos hown⟩

theorem finalResponse_alone (x : Execution) (s : Store) :
    alone (handle 0) (finalResponse x) s=alone (handle 0) (match s.response x.id x.retryKey with
      | some document => pure document
      | none => do
        let row : Option DeletionRow ← perform (.deletionById x.id)
        let current ← required (.problem 404 "export_deletion_not_found") row
        pure (deletionDocument current)) s := rfl

theorem finalResponse_store (x : Execution) (s : Store) :
    (alone (handle 0) (finalResponse x) s).store=s := by
  rw [finalResponse_alone]
  cases s.response x.id x.retryKey with
  | some document => rfl
  | none =>
    show (alone (handle 0) (required (.problem 404 "export_deletion_not_found")
      (s.deletionById x.id) >>= fun current =>
        (pure (deletionDocument current) : Program Document)) s).store=s
    cases s.deletionById x.id with
    | some row => rfl
    | none => rfl

theorem attemptDeletion_returns (operation : DeletionRow) (hs : Sound s)
    (hb : Bound s x.id x.plan x.manifestKey) (hh : Holding x lo s s) (hw : w.Calm lo) : Returns
    (attemptDeletion x w operation) s (fun _ t => ∃d∈t.deletions,d.id=x.id ∧ d.state=.deleted) := by
  obtain ⟨d,hd,hown,-⟩ := hh.row
  obtain ⟨hdid,hdstate,-⟩ := owned_iff.mp hown
  obtain ⟨e,hpl,hm⟩ := hb.manifest
  rw [attemptDeletion]
  refine (removeObjects_returns hh hw).bind fun _ t ht => ?_
  have hgone : ∀k∈x.plan.object_keys,k∉t.bucket := by
    intro k hk
    refine ht.2.1 k ?_
    by_cases hkm : k=x.manifestKey
    · exact mem_append_right _ (mem_singleton.mpr hkm)
    · exact mem_append_left _ (mem_filter.mpr ⟨hk,decide_eq_true hkm⟩)
  refine (remainingObjects_returns ht.1 hw hgone).bind fun remaining u hu => ?_
  have hlisted : isNativeExportPackage x.manifestKey=false →
      ∀k∈u.bucket,k.under x.plan.catalogue_revision_id=false := by
    intro hn k hk
    by_contra hunder
    rw [Bool.not_eq_false] at hunder
    rw [hu.2.2] at hk
    rw [← hm] at hn
    exact hgone k (hpl.covered hn k (ht.1.bucket k hk) hunder) hk
  refine (remainingPrefix_returns hu.2.1 hw hlisted).bind fun listed v hv => ?_
  refine returns_insist (by rw [hu.1,hv.1]; rfl) ?_
  refine (renewed_returns hv.2 hw.terminal.1 hw.terminal.2).bind fun _ z hz => ?_
  -- The plan is that of the row, so the row says that no tombstone is in the way.
  have hleft : s.tombstones.any (fun m => decide (m.catalogue_revision_id=
      x.plan.catalogue_revision_id ∨ m.deletion_id=x.id))=false := by
    obtain ⟨d₀,hd₀,hid₀,hplan₀⟩ := hb.deletion
    obtain rfl := eq_of_key hs.ids hd hd₀ (hdid.trans hid₀.symm)
    obtain ⟨p,hps,-,-,hpid,hprev,-⟩ := (hs.deletions d hd).planned
    obtain rfl := eq_of_key hs.planIds hps hb.planned (hpid.trans hplan₀)
    rw [hprev,← hdid]
    exact hs.unburied hd (by rw [hdstate]; decide)
  obtain ⟨htrue,hdone⟩ := completeDeletion_true x.observedAt (deletionDocument { operation with
    state := .deleted, completed_at := some x.observedAt, failure_code := none }) hz.1 hleft
    hw.terminal.2
  exact returns_call (returns_insisted htrue hdone)

def Ended (s : Store) (id : String) : Prop := ∃d∈s.deletions,d.id=id ∧ d.state=.deleted

theorem settled_alone (p : Program α) (s : Store) :
    alone (handle 0) p.settled s=⟨(alone (handle 0) p s).log,.ok (alone (handle 0) p s).result,
      (alone (handle 0) p s).store⟩ := by
  induction p generalizing s with
  | ret a => rfl
  | fail e => rfl
  | tell e p ih =>
    rw [Prog.settled,alone,alone,ih]
  | call op k ih => exact ih _ _

theorem executeDeletion_ends (hs : Sound s) (hb : Bound s x.id x.plan x.manifestKey)
    (hh : Holding x lo s s) (hw : w.Calm lo) :
    Ended (alone (handle 0) (executeDeletion x w) s).store x.id := by
  obtain ⟨d,hd,hid,-⟩ := hb.deletion
  have hrow : s.deletionById x.id=some d := keyed_of_mem hs.ids hd hid
  obtain ⟨_,hok,hend⟩ := attemptDeletion_returns d hs hb hh hw
  show Ended (alone (handle 0) (required _ (s.deletionById x.id) >>= fun operation =>
    (attemptDeletion x w operation).settled >>= settleDeletion x w operation) s).store x.id
  rw [hrow]
  show Ended (alone (handle 0) ((attemptDeletion x w d).settled >>=
    settleDeletion x w d) s).store x.id
  rw [alone_bind,settled_alone,hok]
  dsimp only
  rw [settleDeletion,finalResponse_store]
  exact hend

theorem Sound.bound (h : Sound s) (hd : d∈s.deletions) : ∃p e,
    s.plan d.plan_id=some p ∧ p.catalogue_revision_id=d.catalogue_revision_id ∧
    p.expected_current_revision_id=d.expected_current_revision_id ∧
    p.object_set_digest=d.object_set_digest ∧
    s.exportRow p.catalogue_revision_id=some e ∧ Bound s d.id p e.manifest_key := by
  obtain ⟨p,hps,e,hes,hpid,hprev,hpexp,hpobj,herev,-⟩ := (h.deletions d hd).planned
  refine ⟨p,e,keyed_of_mem h.planIds hps hpid,hprev,hpexp,hpobj,
    keyed_of_mem h.exportIds hes (herev.trans hprev.symm),?_⟩
  exact Bound.of_rows h ⟨d,hd,rfl,hpid.symm⟩ hps ⟨e,hes,herev.trans hprev.symm,rfl⟩

theorem plan_eq (h : t.plans=s.plans) (id : String) : t.plan id=s.plan id := by
  rw [Store.plan,Store.plan,h]

theorem exportRow_eq (h : t.exports=s.exports) (revision : String) :
    t.exportRow revision=s.exportRow revision := by
  rw [Store.exportRow,Store.exportRow,h]

theorem claimLease_true (token : String) (hd : d∈s.deletions) (hstate : d.state=.deleting)
    (hlease : d.execution_lease_expires_at=some lease) (hle : lease ≤ at') : ∃t,s.claimLease d.id
    d.retry_owner_idempotency_key token at'=(true,t) ∧ t.plans=s.plans ∧ t.exports=s.exports ∧
    t.operation=s.operation ∧ ∃d'∈t.deletions,Store.owned d.id d.retry_owner_idempotency_key token
    d'=true ∧ d'.execution_lease_expires_at=some (leaseExpiresAt at') := by
  let d' : DeletionRow := { d with
    execution_owner_token := some token
    execution_lease_expires_at := some (leaseExpiresAt at') }
  let f (e : DeletionRow) : DeletionRow :=
    if (decide (e.id=d.id ∧ e.state=.deleting ∧
        e.retry_owner_idempotency_key=d.retry_owner_idempotency_key) &&
        (e.execution_owner_token.isNone ||
          e.execution_lease_expires_at.any fun lease => decide (lease ≤ at')))=true then
      { e with
        execution_owner_token := some token
        execution_lease_expires_at := some (leaseExpiresAt at') }
    else e
  have hf : f d=d' := by
    refine if_pos ?_
    rw [hlease,Option.any_some,decide_eq_true hle,Bool.or_true,Bool.and_true]
    exact decide_eq_true ⟨rfl,hstate,rfl⟩
  have hmem : d'∈s.deletions.map f := mem_map.mpr ⟨d,hd,hf⟩
  have hown : Store.owned d.id d.retry_owner_idempotency_key token d'=true :=
    owned_iff.mpr ⟨rfl,hstate,rfl,rfl⟩
  have hguard : (s.deletions.map f).any
      (Store.owned d.id d.retry_owner_idempotency_key token)=true :=
    any_eq_true.mpr ⟨d',hmem,hown⟩
  refine ⟨{ s with deletions := s.deletions.map f },?_,rfl,rfl,rfl,d',hmem,hown,rfl⟩
  exact if_pos hguard

theorem executeWithManifest_ends {d : DeletionRow} {p : PlanRow} {e : ExportRow} {at' : Nat}
    {token : String} {retryKey : Option String} (hs : Sound t) (hp : p∈t.plans)
    (he : t.exportRow p.catalogue_revision_id=some e) (hd : d∈t.deletions)
    (hplan : d.plan_id=p.id) (hown : Store.owned d.id retryKey token d=true)
    (hlease : d.execution_lease_expires_at=some (leaseExpiresAt at')) (hw : w.Calm at') :
    Ended (alone (handle 0) (executeWithManifest d.id p at' retryKey token w) t).store d.id := by
  obtain ⟨hes,hrev⟩ := mem_of_keyed he
  let x : Execution := ⟨d.id,p,e.manifest_key,at',retryKey,token⟩
  have hb : Bound t d.id p e.manifest_key :=
    Bound.of_rows hs ⟨d,hd,rfl,hplan⟩ hp ⟨e,hes,hrev,rfl⟩
  have hh : Holding x at' t t :=
    ⟨rfl,rfl,rfl,fun _ hk => hk,d,hd,hown,leaseExpiresAt at',hlease,Nat.le_refl _⟩
  show Ended (alone (handle 0) (required _ (t.exportRow p.catalogue_revision_id) >>= fun e =>
    executeDeletion ⟨d.id,p,e.manifest_key,at',retryKey,token⟩ w) t).store d.id
  rw [he]
  exact executeDeletion_ends (x := x) hs hb hh hw

theorem claimed_ends (token : String) (hs : Sound s)
    (hd : d∈s.deletions) (hstate : d.state=.deleting)
    (hlease : d.execution_lease_expires_at=some lease) (hle : lease ≤ at') (hw : w.Calm at') :
    ∃t p,s.claimLease d.id d.retry_owner_idempotency_key token at'=(true,t) ∧
      t.operation=s.operation ∧ t.plan d.plan_id=some p ∧
      p.expected_current_revision_id=d.expected_current_revision_id ∧
      Ended (alone (handle 0) (executeWithManifest d.id p at' d.retry_owner_idempotency_key token w)
        t).store d.id := by
  obtain ⟨p,e,hp,hprev,hpexp,-,he,hb⟩ := hs.bound hd
  obtain ⟨hps,hpid⟩ := mem_of_keyed hp
  obtain ⟨t,ht,hplans,hexports,hop,d',hd',hown,hl'⟩ := claimLease_true token hd hstate hlease hle
  have hclaim := claimLease_sound hs d.id d.retry_owner_idempotency_key token at'
  rw [ht] at hclaim
  have hid' : d'.id=d.id := (owned_iff.mp hown).1
  have hplan' : d'.plan_id=p.id := by
    obtain ⟨d₁,hd₁,hsame⟩ := hclaim.2.deletions d hd
    obtain rfl := eq_of_key hclaim.1.ids hd' hd₁ (hid'.trans hsame.id.symm)
    exact hsame.plan.trans hpid.symm
  refine ⟨t,p,ht,hop,by rw [plan_eq hplans]; exact hp,hpexp,?_⟩
  have hexec := @executeWithManifest_ends t w d' p e at' token d.retry_owner_idempotency_key
    hclaim.1 (by rw [hplans]; exact hps) (by rw [exportRow_eq hexports]; exact he) hd' hplan'
    (by rw [hid']; exact hown) hl' hw
  rw [hid'] at hexec
  exact hexec

theorem confirmation_alone {request : ConfirmCatalogueExportDeletion} {v : Evidence} :
    alone (handle 0) (confirmCatalogueExportDeletion digest request at' token v w) s=
      alone (handle 0) (match s.deletionByKey request.idempotency_key with
        | some row => replayConfirmation row request at' token w
        | none => newConfirmation digest request at' token v w) s := rfl

theorem confirm_ends {v : Evidence} (hs : Sound s) (hd : d∈s.deletions) (hstate : d.state=.deleting)
    (howner : d.retry_owner_idempotency_key=none) (hnone : d.confirmation_response=none)
    (hlease : d.execution_lease_expires_at=some lease) (hle : lease ≤ at') (hw : w.Calm at') :
    Ended (alone (handle 0) (confirmCatalogueExportDeletion digest d.request at' token v w) s).store
      d.id := by
  have hrow : s.deletionByKey d.request.idempotency_key=some d :=
    keyed_of_mem hs.keys hd (hs.deletions d hd).request.symm
  obtain ⟨t,p,ht,-,hp,-,hexec⟩ := claimed_ends token hs hd hstate hlease hle hw
  rw [howner] at ht hexec
  rw [confirmation_alone,hrow]
  dsimp only
  rw [replayConfirmation,if_neg (not_not.mpr rfl),hnone]
  dsimp only
  rw [if_pos hstate]
  show Ended (alone (handle 0) (if (s.claimLease d.id none token at').1 then (do
      let row : Option PlanRow ← perform (.plan d.plan_id)
      let plan ← required (.error "Deletion plan evidence is unavailable") row
      executeWithManifest d.id plan at' none token w)
    else waitForDeletionResponse d.id none) (s.claimLease d.id none token at').2).store d.id
  rw [ht]
  show Ended (alone (handle 0) (required (.error "Deletion plan evidence is unavailable")
    (t.plan d.plan_id) >>= fun plan => executeWithManifest d.id plan at' none token w) t).store d.id
  rw [hp]
  exact hexec

theorem assertMaintenanceIdle_alone {expected : String}
    (hcurrent : s.operation.current_revision_id=expected) (hidle : s.operation.idle at'=true)
    (k : Unit → Program α) :
    alone (handle 0) (assertMaintenanceIdle expected at' >>= k) s=alone (handle 0) (k ()) s := by
  show alone (handle 0) ((insist (.problem 409 "current_revision_mismatch")
      (decide (s.operation.current_revision_id=expected)) >>= fun _ =>
    insist (.problem 409 "maintenance_not_idle") (s.operation.idle at')) >>= k) s=_
  rw [hidle,decide_eq_true hcurrent]
  rfl

theorem Sound.retry_of_mem (h : Sound s) {r : RetryRow} (hr : r∈s.retries) :
    s.retry r.idempotency_key=some r := keyed_of_mem h.retryKeys hr rfl

theorem Sound.response_of_mem (h : Sound s) {r : RetryRow} (hr : r∈s.retries) :
    s.response r.deletion_id (some r.idempotency_key)=r.response := by
  rw [Store.response]
  cases hf : s.retries.find? fun r' =>
      decide (r'.idempotency_key=r.idempotency_key ∧ r'.deletion_id=r.deletion_id) with
  | none =>
    have := List.find?_eq_none.mp hf r hr
    exact absurd (decide_eq_true ⟨rfl,rfl⟩) this
  | some r' =>
    have hk := List.find?_some hf
    rw [decide_eq_true_eq] at hk
    rw [eq_of_key h.retryKeys (List.mem_of_find?_eq_some hf) hr hk.1]
    rfl

theorem retry_alone {id : String} {request : RetryRequest} :
    alone (handle 0) (retryCatalogueExportDeletion id request at' token w) s=
      alone (handle 0) (match s.retry request.idempotency_key with
        | none => do
          let row ← retriedDeletion id
          newRetry row request at' token w
        | some prior =>
          if prior.deletion_id≠id ∨ prior.request≠request then
            throw' (.problem 409 "idempotency_key_reused")
          else match prior.response with
            | some document => pure document
            | none => do
              let row ← retriedDeletion id
              replayRetry row request at' token w) s := rfl

theorem replayRetry_ends (hs : Sound s) (hd : d∈s.deletions) (hstate : d.state=.deleting)
    (howner : d.retry_owner_idempotency_key=some k) (hnone : s.response d.id (some k)=none)
    (hlease : d.execution_lease_expires_at=some lease) (hle : lease ≤ at') (hw : w.Calm at')
    (hcurrent : s.operation.current_revision_id=d.expected_current_revision_id)
    (hidle : s.operation.idle at'=true) :
    Ended (alone (handle 0) (retryCatalogueExportDeletion d.id ⟨d.object_set_digest,k⟩ at' token w)
      s).store d.id := by
  obtain ⟨-,r,hr,rfl,hrid,hreq⟩ := (hs.deletions d hd).retried k howner
  have hresponse : r.response=none := by
    rw [← hs.response_of_mem hr,hrid]
    exact hnone
  have hrow : s.deletionById d.id=some d := keyed_of_mem hs.ids hd rfl
  obtain ⟨t,p,ht,hop,hp,hpexp,hexec⟩ := claimed_ends token hs hd hstate hlease hle hw
  rw [howner] at ht hexec
  rw [retry_alone,hs.retry_of_mem hr]
  dsimp only
  rw [if_neg (by rw [hrid,hreq]; simp),hresponse]
  show Ended (alone (handle 0) (required _ (s.deletionById d.id) >>= fun row =>
    replayRetry row ⟨d.object_set_digest,r.idempotency_key⟩ at' token w) s).store d.id
  rw [hrow]
  show Ended (alone (handle 0) (replayRetry d ⟨d.object_set_digest,r.idempotency_key⟩ at' token w)
    s).store d.id
  rw [replayRetry,if_neg (not_not.mpr hstate),howner]
  simp only [decide_true,insist,if_pos]
  show Ended (alone (handle 0) (if (s.claimLease d.id (some r.idempotency_key) token at').1 then (do
      let plan? : Option PlanRow ← perform (.plan d.plan_id)
      let plan ← required (.error "Deletion plan evidence is unavailable") plan?
      assertMaintenanceIdle plan.expected_current_revision_id at'
      executeWithManifest d.id plan at' (some r.idempotency_key) token w)
    else waitForDeletionResponse d.id (some r.idempotency_key))
      (s.claimLease d.id (some r.idempotency_key) token at').2).store d.id
  rw [ht]
  show Ended (alone (handle 0) (required (.error "Deletion plan evidence is unavailable")
    (t.plan d.plan_id) >>= fun plan => assertMaintenanceIdle plan.expected_current_revision_id at'
      >>= fun _ => executeWithManifest d.id plan at' (some r.idempotency_key) token w) t).store d.id
  rw [hp]
  show Ended (alone (handle 0) (assertMaintenanceIdle p.expected_current_revision_id at'
      >>= fun _ => executeWithManifest d.id p at' (some r.idempotency_key) token w) t).store d.id
  rw [assertMaintenanceIdle_alone (by rw [hop,hpexp]; exact hcurrent) (by rw [hop]; exact hidle)]
  exact hexec

theorem exists_new_key (keys : List String) : ∃k,∀a∈keys,a≠k := by
  have hlong : ∃n,∀a∈keys,a.length < n := by
    induction keys with
    | nil => exact ⟨0,nofun⟩
    | cons a keys ih =>
      obtain ⟨n,hn⟩ := ih
      refine ⟨max n (a.length+1),fun b hb => ?_⟩
      rcases mem_cons.mp hb with rfl | hb
      · omega
      · have := hn b hb
        omega
  obtain ⟨n,hn⟩ := hlong
  refine ⟨String.ofList (List.replicate n 'k'),fun a ha he => ?_⟩
  have := hn a ha
  rw [he,String.length_ofList,length_replicate] at this
  omega

theorem retryDeletion_true {d : DeletionRow} {k token : String} {at' : Nat} (hs : Sound s)
    (hd : d∈s.deletions) (hstate : d.state=.failed) (hk : ∀r∈s.retries,r.idempotency_key≠k)
    (hcurrent : s.operation.current_revision_id=d.expected_current_revision_id)
    (hidle : s.operation.idle at'=true) : ∃t,s.retryDeletion d.id ⟨d.object_set_digest,k⟩ at'
    token=(true,t) ∧ t.plans=s.plans ∧ t.exports=s.exports ∧ ∃d'∈t.deletions,d'.plan_id=d.plan_id ∧
    Store.owned d.id (some k) token d'=true ∧ d'.execution_lease_expires_at=some
    (leaseExpiresAt at') := by
  obtain ⟨p,e,hp,hprev,-,hpobj,-⟩ := hs.bound hd
  let d' : DeletionRow := { d with
    state := .deleting
    failure_code := none
    retry_owner_idempotency_key := some k
    execution_owner_token := some token
    execution_lease_expires_at := some (leaseExpiresAt at') }
  let f (e : DeletionRow) : DeletionRow :=
    if decide (e.id=d.id ∧ e.state=.failed)=true then
      { e with
        state := .deleting
        failure_code := none
        retry_owner_idempotency_key := some k
        execution_owner_token := some token
        execution_lease_expires_at := some (leaseExpiresAt at') }
    else e
  have hf : f d=d' := if_pos (decide_eq_true ⟨rfl,hstate⟩)
  have hmem : d'∈s.deletions.map f := mem_map.mpr ⟨d,hd,hf⟩
  have hown : Store.owned d.id (some k) token d'=true := owned_iff.mpr ⟨rfl,rfl,rfl,rfl⟩
  have hnew : s.retries.any (fun r => decide (r.idempotency_key=k))=false :=
    any_eq_false.mpr fun r hr he => hk r hr (of_decide_eq_true he)
  have hthere : s.deletions.any (fun e => decide (e.id=d.id))=true :=
    any_eq_true.mpr ⟨d,hd,decide_eq_true rfl⟩
  have hguard : s.guardRetrying d.id ⟨d.object_set_digest,k⟩ at'=true := by
    refine all_eq_true.mpr fun e he => ?_
    by_cases hfailed : e.id=d.id ∧ e.state=.failed
    · obtain rfl := eq_of_key hs.ids he hd hfailed.1
      rw [decide_eq_true hfailed,Bool.not_true,Bool.false_or,hp,Option.any_some,hidle,Bool.and_true]
      refine decide_eq_true ⟨hpobj,hcurrent,?_,rfl⟩
      rw [hprev,hcurrent]
      exact (hs.deletions e hd).foreign
    · rw [decide_eq_false hfailed]
      rfl
  have hlast : (s.deletions.map f).any (Store.owned d.id (some k) token)=true :=
    any_eq_true.mpr ⟨d',hmem,hown⟩
  refine ⟨{ s with
    deletions := s.deletions.map f
    retries := s.retries++[⟨k,d.id,d.object_set_digest,⟨d.object_set_digest,k⟩,none,at'⟩] },?_,
    rfl,rfl,d',hmem,rfl,hown,rfl⟩
  refine if_pos ?_
  rw [hnew,hthere,hguard]
  exact hlast

theorem newRetry_ends (hs : Sound s)
    (hd : d∈s.deletions) (hstate : d.state=.failed) (hk : ∀r∈s.retries,r.idempotency_key≠k)
    (hw : w.Calm at') (hcurrent : s.operation.current_revision_id=d.expected_current_revision_id)
    (hidle : s.operation.idle at'=true) :
    Ended (alone (handle 0) (retryCatalogueExportDeletion d.id ⟨d.object_set_digest,k⟩ at' token w)
      s).store d.id := by
  have hnone : s.retry k=none :=
    List.find?_eq_none.mpr fun r hr he => hk r hr (of_decide_eq_true he)
  have hrow : s.deletionById d.id=some d := keyed_of_mem hs.ids hd rfl
  obtain ⟨p,e,hp,hprev,hpexp,-,he,-⟩ := hs.bound hd
  obtain ⟨hps,hpid⟩ := mem_of_keyed hp
  obtain ⟨t,ht,hplans,hexports,d',hd',hplan',hown,hl'⟩ :=
    @retryDeletion_true s d k token at' hs hd hstate hk hcurrent hidle
  have hst := (retryDeletion_sound hs d.id ⟨d.object_set_digest,k⟩ at' token).1
  rw [ht] at hst
  have hid' : d'.id=d.id := (owned_iff.mp hown).1
  have hexec := @executeWithManifest_ends t w d' p e at' token (some k) hst
    (by rw [hplans]; exact hps) (by rw [exportRow_eq hexports]; exact he) hd'
    (hplan'.trans hpid.symm) (by rw [hid']; exact hown) hl' hw
  rw [hid'] at hexec
  rw [retry_alone,hnone]
  show Ended (alone (handle 0) (required _ (s.deletionById d.id) >>= fun row =>
    newRetry row ⟨d.object_set_digest,k⟩ at' token w) s).store d.id
  rw [hrow]
  show Ended (alone (handle 0) (newRetry d ⟨d.object_set_digest,k⟩ at' token w) s).store d.id
  rw [newRetry,hstate]
  simp only [decide_true,insist,if_pos]
  show Ended (alone (handle 0) (required (.error "Deletion plan evidence is unavailable")
    (s.plan d.plan_id) >>= fun plan => assertMaintenanceIdle plan.expected_current_revision_id at'
      >>= fun _ => perform (.retryDeletion d.id ⟨d.object_set_digest,k⟩ at' token) >>= fun (inserted : Bool) =>
        if inserted then executeWithManifest d.id plan at' (some k) token w
        else concurrentRetry d.id ⟨d.object_set_digest,k⟩) s).store d.id
  rw [hp]
  show Ended (alone (handle 0) (assertMaintenanceIdle p.expected_current_revision_id at'
      >>= fun _ => perform (.retryDeletion d.id ⟨d.object_set_digest,k⟩ at' token) >>= fun (inserted : Bool) =>
        if inserted then executeWithManifest d.id p at' (some k) token w
        else concurrentRetry d.id ⟨d.object_set_digest,k⟩) s).store d.id
  rw [assertMaintenanceIdle_alone (by rw [hpexp]; exact hcurrent) hidle]
  show Ended (alone (handle 0)
    (if (s.retryDeletion d.id ⟨d.object_set_digest,k⟩ at' token).1 then
      executeWithManifest d.id p at' (some k) token w
    else concurrentRetry d.id ⟨d.object_set_digest,k⟩)
      (s.retryDeletion d.id ⟨d.object_set_digest,k⟩ at' token).2).store d.id
  rw [ht]
  exact hexec

end CardKeepr.Export
