import CardKeepr.Lib.Keyed
import CardKeepr.Export.DeletionPrograms

namespace CardKeepr.Export

open Lib List

variable {s t : Store} {d : DeletionRow}

/-- Every object of the plan is gone, and with it the whole prefix of a package of its own. -/
structure Absent (s : Store) (p : PlanRow) (manifestKey : ObjectKey) : Prop where
  keys : ∀k∈p.object_keys,k∉s.bucket
  listed : isNativeExportPackage manifestKey=false →
    ∀k∈s.bucket,k.under p.catalogue_revision_id=false

/-- A plan names its manifest and objects of its own export only, and all that a package of its
own still has. -/
structure Planned (s : Store) (p : PlanRow) (e : ExportRow) : Prop where
  recorded : e∈s.exports
  revision : e.catalogue_revision_id=p.catalogue_revision_id
  manifest : e.manifest_key∈p.object_keys
  keys : ∀k∈p.object_keys,k.revision=some p.catalogue_revision_id
  covered : isNativeExportPackage e.manifest_key=false →
    ∀k∈s.bucket,k.under p.catalogue_revision_id=true → k∈p.object_keys

/-- What the state of a deletion makes of the state of its export. -/
def DeletionState.maintenance : DeletionState → MaintenanceState
  | .deleted => .deleted
  | _ => .deleting

/-- The part of a deletion that never changes. -/
structure SameDeletion (d d' : DeletionRow) : Prop where
  id : d'.id=d.id
  plan : d'.plan_id=d.plan_id
  revision : d'.catalogue_revision_id=d.catalogue_revision_id
  expected : d'.expected_current_revision_id=d.expected_current_revision_id
  objects : d'.object_set_digest=d.object_set_digest
  key : d'.idempotency_key=d.idempotency_key
  request : d'.request=d.request

structure Recorded (s : Store) (d : DeletionRow) : Prop where
  planned : ∃p∈s.plans,∃e∈s.exports,p.id=d.plan_id ∧
    p.catalogue_revision_id=d.catalogue_revision_id ∧
    p.expected_current_revision_id=d.expected_current_revision_id ∧
    p.object_set_digest=d.object_set_digest ∧ e.catalogue_revision_id=d.catalogue_revision_id ∧
    e.deletion_operation_id=some d.id ∧ e.maintenance_state=d.state.maintenance ∧
    (d.state=.deleted → Absent s p e.manifest_key)
  foreign : d.catalogue_revision_id≠d.expected_current_revision_id
  tombstone : d.state=.deleted →
    ∃m∈s.tombstones,m.deletion_id=d.id ∧ m.catalogue_revision_id=d.catalogue_revision_id
  request : d.request.idempotency_key=d.idempotency_key
  answered : d.state≠.deleting → d.confirmation_response.isSome=true
  leased : d.execution_owner_token.isSome=true ∧ d.execution_lease_expires_at.isSome=true
  retried : ∀k,d.retry_owner_idempotency_key=some k → d.confirmation_response.isSome=true ∧
    ∃r∈s.retries,r.idempotency_key=k ∧ r.deletion_id=d.id ∧ r.request=⟨d.object_set_digest,k⟩

/-- A removal was of an object of the plan, and of the manifest after all others. -/
def Removed (s : Store) (r : Removal) : Prop :=
  ∃d∈s.deletions,∃p∈s.plans,∃e∈s.exports,d.id=r.deletion ∧ p.id=d.plan_id ∧
    e.catalogue_revision_id=p.catalogue_revision_id ∧ r.key∈p.object_keys ∧
    (r.key=e.manifest_key → ∀k∈p.object_keys,k≠e.manifest_key → k∉r.held)

structure Sound (s : Store) : Prop where
  exportIds : (s.exports.map ExportRow.catalogue_revision_id).Nodup
  planIds : (s.plans.map PlanRow.id).Nodup
  ids : (s.deletions.map DeletionRow.id).Nodup
  keys : (s.deletions.map DeletionRow.idempotency_key).Nodup
  retryKeys : (s.retries.map RetryRow.idempotency_key).Nodup
  plans : ∀p∈s.plans,∃e,Planned s p e
  deletions : ∀d∈s.deletions,Recorded s d
  tombstones : ∀m∈s.tombstones,∃d∈s.deletions,d.id=m.deletion_id ∧
    d.catalogue_revision_id=m.catalogue_revision_id ∧ d.state=.deleted
  exports : ∀e∈s.exports,e.maintenance_state≠.available →
    ∃d∈s.deletions,d.catalogue_revision_id=e.catalogue_revision_id ∧
      e.maintenance_state=d.state.maintenance
  removals : ∀r∈s.removals,Removed s r
  marks : ∀m∈s.marks,m.1≠m.2

/-- What every step keeps: rows are added and updated, and exports that are recorded get no new
objects. -/
structure Grows (s t : Store) : Prop where
  plans : ∀p∈s.plans,p∈t.plans
  exports : ∀e∈s.exports,∃e'∈t.exports,e'.catalogue_revision_id=e.catalogue_revision_id ∧
    e'.manifest_key=e.manifest_key
  deletions : ∀d∈s.deletions,∃d'∈t.deletions,SameDeletion d d'
  objects : ∀e∈s.exports,∀k∈t.bucket,k.revision=some e.catalogue_revision_id → k∈s.bucket

theorem SameDeletion.refl (d : DeletionRow) : SameDeletion d d := ⟨rfl,rfl,rfl,rfl,rfl,rfl,rfl⟩

theorem SameDeletion.trans {e f : DeletionRow} (h : SameDeletion d e) (g : SameDeletion e f) :
    SameDeletion d f :=
  ⟨g.id.trans h.id,g.plan.trans h.plan,g.revision.trans h.revision,g.expected.trans h.expected,
    g.objects.trans h.objects,g.key.trans h.key,g.request.trans h.request⟩

theorem Grows.refl (s : Store) : Grows s s :=
  ⟨fun _ hp => hp,fun e he => ⟨e,he,rfl,rfl⟩,fun d hd => ⟨d,hd,SameDeletion.refl d⟩,
    fun _ _ _ hk _ => hk⟩

theorem Grows.trans {u : Store} (h : Grows s t) (g : Grows t u) : Grows s u := by
  refine ⟨fun p hp => g.plans p (h.plans p hp),fun e he => ?_,fun d hd => ?_,fun e he k hk hr => ?_⟩
  · obtain ⟨e₁,he₁,hr₁,hm₁⟩ := h.exports e he
    obtain ⟨e₂,he₂,hr₂,hm₂⟩ := g.exports e₁ he₁
    exact ⟨e₂,he₂,hr₂.trans hr₁,hm₂.trans hm₁⟩
  · obtain ⟨d₁,hd₁,h₁⟩ := h.deletions d hd
    obtain ⟨d₂,hd₂,h₂⟩ := g.deletions d₁ hd₁
    exact ⟨d₂,hd₂,h₁.trans h₂⟩
  · obtain ⟨e₁,he₁,hr₁,-⟩ := h.exports e he
    exact h.objects e he k (g.objects e₁ he₁ k hk (by rw [hr₁]; exact hr)) hr

theorem under_revision {k : ObjectKey} {r : String} (h : k.under r=true) : k.revision=some r := by
  cases k with
  | exported r' name =>
    rw [ObjectKey.under,decide_eq_true_eq] at h
    rw [h]
    rfl
  | manifest r' digest => cases h
  | other key => cases h

theorem Absent.mono {s t : Store} {p : PlanRow} {m : ObjectKey} (h : Absent s p m)
    (hb : ∀k∈t.bucket,k.revision=some p.catalogue_revision_id → k∈s.bucket)
    (hk : ∀k∈p.object_keys,k.revision=some p.catalogue_revision_id) : Absent t p m := by
  refine ⟨fun k hkp hkt => h.keys k hkp (hb k hkt (hk k hkp)),fun hn k hkt => ?_⟩
  by_contra hu
  rw [Bool.not_eq_false] at hu
  have := h.listed hn k (hb k hkt (under_revision hu))
  rw [hu] at this
  cases this

theorem Planned.mono {s t : Store} {p : PlanRow} {e e' : ExportRow} (h : Planned s p e)
    (he : e'∈t.exports) (hr : e'.catalogue_revision_id=e.catalogue_revision_id)
    (hm : e'.manifest_key=e.manifest_key)
    (hb : ∀k∈t.bucket,k.revision=some p.catalogue_revision_id → k∈s.bucket) : Planned t p e' := by
  refine ⟨he,hr.trans h.revision,by rw [hm]; exact h.manifest,h.keys,fun hn k hk hu => ?_⟩
  rw [hm] at hn
  exact h.covered hn k (hb k hk (under_revision hu)) hu

theorem Grows.planned (h : Grows s t) {p : PlanRow} {e : ExportRow}
    (hp : Planned s p e) : ∃e',Planned t p e' ∧ e'.manifest_key=e.manifest_key := by
  obtain ⟨e',he',hr,hm⟩ := h.exports e hp.recorded
  refine ⟨e',hp.mono he' hr hm fun k hk hkr => ?_,hm⟩
  exact h.objects e hp.recorded k hk (by rw [hp.revision]; exact hkr)

theorem maintenance_deleted {x : DeletionState} : x.maintenance=.deleted ↔ x=.deleted := by
  cases x with
  | deleted => simp [DeletionState.maintenance]
  | deleting => simp [DeletionState.maintenance]
  | failed => simp [DeletionState.maintenance]

theorem Removed.mono {s t : Store} {r : Removal} (h : Removed s r) (hp : ∀p∈s.plans,p∈t.plans)
    (he : ∀e∈s.exports,∃e'∈t.exports,e'.catalogue_revision_id=e.catalogue_revision_id ∧
      e'.manifest_key=e.manifest_key)
    (hd : ∀d∈s.deletions,∃d'∈t.deletions,SameDeletion d d') : Removed t r := by
  obtain ⟨d,hds,p,hps,e,hes,hid,hplan,hrev,hkey,hlast⟩ := h
  obtain ⟨d',hd',hsame⟩ := hd d hds
  obtain ⟨e',he',hr,hm⟩ := he e hes
  refine ⟨d',hd',p,hp p hps,e',he',hsame.id.trans hid,hplan.trans hsame.plan.symm,hr.trans hrev,
    hkey,?_⟩
  rw [hm]
  exact hlast

/-- What an update may do to a deletion that it does not end. -/
structure Updated (t : Store) (d d' : DeletionRow) : Prop where
  same : SameDeletion d d'
  maintenance : d'.state.maintenance=d.state.maintenance
  answered : d'.state≠.deleting → d'.confirmation_response.isSome=true
  leased : d'.execution_owner_token.isSome=true ∧ d'.execution_lease_expires_at.isSome=true
  retried : ∀k,d'.retry_owner_idempotency_key=some k → d'.confirmation_response.isSome=true ∧
    ∃r∈t.retries,r.idempotency_key=k ∧ r.deletion_id=d'.id ∧ r.request=⟨d'.object_set_digest,k⟩

theorem Updated.recorded {d' : DeletionRow} (h : Updated t d d')
    (hr : Recorded s d) (hp : t.plans=s.plans) (he : t.exports=s.exports)
    (hm : t.tombstones=s.tombstones) (hb : t.bucket=s.bucket) : Recorded t d' := by
  have hdel : d'.state=.deleted ↔ d.state=.deleted := by
    rw [← maintenance_deleted,h.maintenance,maintenance_deleted]
  obtain ⟨p,hps,e,hes,h1,h2,h3,h4,h5,h6,h7,h8⟩ := hr.planned
  refine ⟨⟨p,by rw [hp]; exact hps,e,by rw [he]; exact hes,h1.trans h.same.plan.symm,
    h2.trans h.same.revision.symm,h3.trans h.same.expected.symm,h4.trans h.same.objects.symm,
    h5.trans h.same.revision.symm,by rw [h.same.id]; exact h6,h7.trans h.maintenance.symm,?_⟩,
    ?_,?_,?_,h.answered,h.leased,h.retried⟩
  · intro hd
    obtain ⟨hkeys,hlisted⟩ := h8 (hdel.mp hd)
    refine ⟨?_,?_⟩
    · rw [hb]
      exact hkeys
    · rw [hb]
      exact hlisted
  · rw [h.same.revision,h.same.expected]
    exact hr.foreign
  · intro hd
    obtain ⟨m,hms,hid,hrev⟩ := hr.tombstone (hdel.mp hd)
    exact ⟨m,by rw [hm]; exact hms,hid.trans h.same.id.symm,hrev.trans h.same.revision.symm⟩
  · rw [h.same.request,h.same.key]
    exact hr.request

theorem Sound.updated (h : Sound s) (f : DeletionRow → DeletionRow)
    (hd : t.deletions=s.deletions.map f) (hf : ∀d∈s.deletions,Recorded s d → Updated t d (f d))
    (hr : (t.retries.map RetryRow.idempotency_key).Nodup) (hp : t.plans=s.plans)
    (he : t.exports=s.exports) (hm : t.tombstones=s.tombstones) (hb : t.bucket=s.bucket)
    (hx : t.removals=s.removals) (hk : t.marks=s.marks) : Sound t ∧ Grows s t := by
  have hup : ∀d∈s.deletions,Updated t d (f d) := fun d hds => hf d hds (h.deletions d hds)
  have hgrow : Grows s t := by
    refine ⟨by rw [hp]; exact fun p hp => hp,?_,?_,?_⟩
    · rw [he]
      exact fun e he => ⟨e,he,rfl,rfl⟩
    · intro d hds
      rw [hd]
      exact ⟨f d,mem_map_of_mem hds,(hup d hds).same⟩
    · rw [hb]
      exact fun _ _ _ hk _ => hk
  refine ⟨⟨?_,?_,?_,?_,hr,?_,?_,?_,?_,?_,?_⟩,hgrow⟩
  · rw [he]
    exact h.exportIds
  · rw [hp]
    exact h.planIds
  · rw [hd,keys_map fun d hds => (hup d hds).same.id]
    exact h.ids
  · rw [hd,keys_map fun d hds => (hup d hds).same.key]
    exact h.keys
  · rw [hp]
    intro p hps
    obtain ⟨e,hpl⟩ := h.plans p hps
    exact ⟨e,hpl.mono (by rw [he]; exact hpl.recorded) rfl rfl (by rw [hb]; exact fun _ hk _ => hk)⟩
  · rw [hd]
    intro d' hd'
    obtain ⟨d,hds,rfl⟩ := mem_map.mp hd'
    exact (hup d hds).recorded (h.deletions d hds) hp he hm hb
  · rw [hm,hd]
    intro m hms
    obtain ⟨d,hds,hid,hrev,hdel⟩ := h.tombstones m hms
    have hu := hup d hds
    refine ⟨f d,mem_map_of_mem hds,hu.same.id.trans hid,hu.same.revision.trans hrev,?_⟩
    rw [← maintenance_deleted,hu.maintenance,maintenance_deleted]
    exact hdel
  · rw [he,hd]
    intro e hes hav
    obtain ⟨d,hds,hrev,hmain⟩ := h.exports e hes hav
    have hu := hup d hds
    exact ⟨f d,mem_map_of_mem hds,hu.same.revision.trans hrev,hmain.trans hu.maintenance.symm⟩
  · rw [hx]
    exact fun r hrs => (h.removals r hrs).mono hgrow.plans hgrow.exports hgrow.deletions
  · rw [hk]
    exact h.marks

theorem Recorded.updated (h : Recorded s d)
    (hr : ∀r∈s.retries,∃r'∈t.retries,r'.idempotency_key=r.idempotency_key ∧
      r'.deletion_id=r.deletion_id ∧ r'.request=r.request) : Updated t d d := by
  refine ⟨SameDeletion.refl d,rfl,h.answered,h.leased,fun k hk => ?_⟩
  obtain ⟨hans,r,hrs,h1,h2,h3⟩ := h.retried k hk
  obtain ⟨r',hr',g1,g2,g3⟩ := hr r hrs
  exact ⟨hans,r',hr',g1.trans h1,g2.trans h2,g3.trans h3⟩

theorem retries_self (s : Store) : ∀r∈s.retries,∃r'∈s.retries,
    r'.idempotency_key=r.idempotency_key ∧ r'.deletion_id=r.deletion_id ∧ r'.request=r.request :=
  fun r hr => ⟨r,hr,rfl,rfl,rfl⟩

theorem Sound.modified (h : Sound s) (p : DeletionRow → Bool)
    (f : DeletionRow → DeletionRow) (g : RetryRow → RetryRow)
    (hf : ∀d∈s.deletions,p d=true → Recorded s d → Updated t d (f d))
    (hg : ∀r∈s.retries,(g r).idempotency_key=r.idempotency_key ∧
      (g r).deletion_id=r.deletion_id ∧ (g r).request=r.request)
    (ht : t={ s.modify p f with retries := s.retries.map g }) : Sound t ∧ Grows s t := by
  have hr : ∀r∈s.retries,∃r'∈t.retries,r'.idempotency_key=r.idempotency_key ∧
      r'.deletion_id=r.deletion_id ∧ r'.request=r.request := by
    intro r hrs
    rw [ht]
    exact ⟨g r,mem_map_of_mem hrs,hg r hrs⟩
  refine h.updated (fun d => if p d then f d else d) (by rw [ht]; rfl) (fun d hds hrec => ?_) ?_
    (by rw [ht]; rfl) (by rw [ht]; rfl) (by rw [ht]; rfl) (by rw [ht]; rfl) (by rw [ht]; rfl)
    (by rw [ht]; rfl)
  · by_cases hp : p d=true
    · rw [if_pos hp]
      exact hf d hds hp hrec
    · rw [if_neg hp]
      exact hrec.updated hr
  · rw [ht]
    have := keys_map (fun r hrs => (hg r hrs).1 : ∀r∈s.retries,_)
    rw [this]
    exact h.retryKeys

theorem Sound.modify (h : Sound s) (p : DeletionRow → Bool) (f : DeletionRow → DeletionRow)
    (hf : ∀d∈s.deletions,p d=true → Recorded s d → Updated (s.modify p f) d (f d)) :
    Sound (s.modify p f) ∧ Grows s (s.modify p f) := by
  refine h.modified p f id hf (fun r _ => ⟨rfl,rfl,rfl⟩) ?_
  rw [map_id]
  rfl

theorem owned_iff {id token : String} {retryKey : Option String} :
    Store.owned id retryKey token d=true ↔ d.id=id ∧ d.state=.deleting ∧
      d.retry_owner_idempotency_key=retryKey ∧ d.execution_owner_token=some token := by
  rw [Store.owned,decide_eq_true_eq]

theorem claimLease_sound (h : Sound s) (id : String) (retryKey : Option String)
    (token : String) (at' : Nat) : Sound (s.claimLease id retryKey token at').2 ∧
      Grows s (s.claimLease id retryKey token at').2 := by
  rw [Store.claimLease]
  split
  · refine h.modify _ _ fun d _ _ hrec => ?_
    exact ⟨⟨rfl,rfl,rfl,rfl,rfl,rfl,rfl⟩,rfl,hrec.answered,⟨rfl,rfl⟩,hrec.retried⟩
  · exact ⟨h,Grows.refl s⟩

theorem renewLease_sound (h : Sound s) (id : String) (retryKey : Option String)
    (token : String) (at' : Nat) : Sound (s.renewLease id retryKey token at').2 ∧
      Grows s (s.renewLease id retryKey token at').2 := by
  rw [Store.renewLease]
  split
  · refine h.modify _ _ fun d _ _ hrec => ?_
    exact ⟨⟨rfl,rfl,rfl,rfl,rfl,rfl,rfl⟩,rfl,hrec.answered,⟨hrec.leased.1,rfl⟩,hrec.retried⟩
  · exact ⟨h,Grows.refl s⟩

theorem acceptConfirmation_sound (h : Sound s) (id : String) (document : Document) :
    Sound (s.acceptConfirmation id document).2 ∧ Grows s (s.acceptConfirmation id document).2 := by
  rw [Store.acceptConfirmation]
  dsimp only
  split
  · exact ⟨h,Grows.refl s⟩
  · refine h.modify _ _ fun d _ _ hrec => ?_
    exact ⟨⟨rfl,rfl,rfl,rfl,rfl,rfl,rfl⟩,rfl,fun _ => rfl,hrec.leased,
      fun k hk => ⟨rfl,(hrec.retried k hk).2⟩⟩

theorem Sound.answered (h : Sound s) (g : RetryRow → RetryRow)
    (hg : ∀r∈s.retries,(g r).idempotency_key=r.idempotency_key ∧
      (g r).deletion_id=r.deletion_id ∧ (g r).request=r.request) :
    Sound { s with retries := s.retries.map g } ∧ Grows s { s with retries := s.retries.map g } := by
  refine h.modified (fun _ => false) (fun d => d) g (fun d _ hp => by cases hp) hg ?_
  have : s.modify (fun _ => false) (fun d => d)=s := by
    rw [Store.modify]
    simp
  rw [this]

theorem acceptRetry_sound (h : Sound s) (key id : String) (document : Document) :
    Sound (s.acceptRetry key id document) ∧ Grows s (s.acceptRetry key id document) := by
  refine h.answered _ fun r _ => ?_
  split
  · exact ⟨rfl,rfl,rfl⟩
  · exact ⟨rfl,rfl,rfl⟩

theorem persistRetryResponse_sound (h : Sound s) (key : String) (document : Document) : Sound
    (s.persistRetryResponse key document) ∧ Grows s (s.persistRetryResponse key document) := by
  refine h.answered _ fun r _ => ?_
  split
  · exact ⟨rfl,rfl,rfl⟩
  · exact ⟨rfl,rfl,rfl⟩

theorem persistResponseOf_sound (h : Sound s) (retryKey : Option String)
    (document : Document) : Sound (s.persistResponseOf retryKey document) ∧
      Grows s (s.persistResponseOf retryKey document) := by
  cases retryKey with
  | none => exact ⟨h,Grows.refl s⟩
  | some key => exact persistRetryResponse_sound h key document

theorem failDeletion_sound (h : Sound s) (id : String) (retryKey : Option String)
    (token : String) (leaseAt : Nat) (document : Document) :
    Sound (s.failDeletion id retryKey token leaseAt document).2 ∧
      Grows s (s.failDeletion id retryKey token leaseAt document).2 := by
  rw [Store.failDeletion]
  split
  · have hmod := h.modify (Store.owned id retryKey token) (fun d => { d with
      state := .failed
      failure_code := some "deleted_object_set_mismatch"
      confirmation_response := some (d.confirmation_response.getD document) })
      (fun d _ hown hrec => by
        have hstate := (owned_iff.mp hown).2.1
        refine ⟨⟨rfl,rfl,rfl,rfl,rfl,rfl,rfl⟩,?_,fun _ => rfl,hrec.leased,
          fun k hk => ⟨rfl,(hrec.retried k hk).2⟩⟩
        rw [hstate]
        rfl)
    obtain ⟨hs,hg⟩ := persistResponseOf_sound hmod.1 retryKey document
    exact ⟨hs,hmod.2.trans hg⟩
  · exact ⟨h,Grows.refl s⟩

theorem retryDeletion_sound (h : Sound s) (id : String) (request : RetryRequest)
    (at' : Nat) (token : String) : Sound (s.retryDeletion id request at' token).2 ∧
      Grows s (s.retryDeletion id request at' token).2 := by
  rw [Store.retryDeletion]
  split
  · rename_i hok
    rw [Bool.and_eq_true,Bool.and_eq_true,Bool.and_eq_true] at hok
    obtain ⟨⟨⟨hnew,-⟩,hguard⟩,-⟩ := hok
    refine h.updated (fun d => if decide (d.id=id ∧ d.state=.failed) then _ else d) rfl
      (fun d hds hrec => ?_) ?_ rfl rfl rfl rfl rfl rfl
    · split
      · rename_i hd
        have hd' := of_decide_eq_true hd
        have hresp := hrec.answered (by rw [hd'.2]; exact fun hc => by cases hc)
        refine ⟨⟨rfl,rfl,rfl,rfl,rfl,rfl,rfl⟩,?_,fun _ => hresp,⟨rfl,rfl⟩,fun k hk => ?_⟩
        · rw [hd'.2]
          rfl
        · obtain rfl := Option.some.inj hk
          refine ⟨hresp,_,mem_append_right _ (mem_singleton_self _),rfl,hd'.1.symm,?_⟩
          -- The guard has compared the digest of the request with the row's.
          rw [Store.guardRetrying,all_eq_true] at hguard
          have hrow := hguard d hds
          rw [hd,Bool.not_true,Bool.false_or,Option.any_eq_true] at hrow
          obtain ⟨p,-,hp⟩ := hrow
          rw [Bool.and_eq_true,decide_eq_true_eq] at hp
          show request=⟨d.object_set_digest,request.idempotency_key⟩
          rw [← hp.1.2.2.2]
      · exact hrec.updated fun r hr => ⟨r,mem_append_left _ hr,rfl,rfl,rfl⟩
    · refine keys_append h.retryKeys fun r hr => ?_
      rw [Bool.not_eq_true',any_eq_false] at hnew
      exact fun he => hnew r hr (decide_eq_true he)
  · exact ⟨h,Grows.refl s⟩

theorem Recorded.of_frame (h : Recorded s d) (hs : Sound s) (hp : ∀p∈s.plans,p∈t.plans)
    (he : ∀e∈s.exports,e.deletion_operation_id=some d.id → e∈t.exports)
    (hm : ∀m∈s.tombstones,m∈t.tombstones)
    (hr : ∀r∈s.retries,∃r'∈t.retries,r'.idempotency_key=r.idempotency_key ∧
      r'.deletion_id=r.deletion_id ∧ r'.request=r.request)
    (hb : ∀k∈t.bucket,k.revision=some d.catalogue_revision_id → k∈s.bucket) : Recorded t d := by
  obtain ⟨p,hps,e,hes,h1,h2,h3,h4,h5,h6,h7,h8⟩ := h.planned
  refine ⟨⟨p,hp p hps,e,he e hes h6,h1,h2,h3,h4,h5,h6,h7,fun hd => ?_⟩,h.foreign,fun hd => ?_,
    h.request,h.answered,h.leased,fun k hk => ?_⟩
  · obtain ⟨e',hpl⟩ := hs.plans p hps
    exact (h8 hd).mono (by rw [h2]; exact hb) hpl.keys
  · obtain ⟨m,hms,hrest⟩ := h.tombstone hd
    exact ⟨m,hm m hms,hrest⟩
  · obtain ⟨hans,r,hrs,g1,g2,g3⟩ := h.retried k hk
    obtain ⟨r',hr',f1,f2,f3⟩ := hr r hrs
    exact ⟨hans,r',hr',f1.trans g1,f2.trans g2,f3.trans g3⟩

theorem grows_bucket (hp : t.plans=s.plans) (he : t.exports=s.exports)
    (hd : t.deletions=s.deletions)
    (hb : ∀e∈s.exports,∀k∈t.bucket,k.revision=some e.catalogue_revision_id → k∈s.bucket) :
    Grows s t := by
  refine ⟨by rw [hp]; exact fun p hp => hp,?_,?_,hb⟩
  · rw [he]
    exact fun e he => ⟨e,he,rfl,rfl⟩
  · rw [hd]
    exact fun d hd => ⟨d,hd,SameDeletion.refl d⟩

theorem Sound.objects (h : Sound s) (hp : t.plans=s.plans) (he : t.exports=s.exports)
    (hd : t.deletions=s.deletions) (hr : t.retries=s.retries) (hm : t.tombstones=s.tombstones)
    (hk : t.marks=s.marks)
    (hb : ∀e∈s.exports,∀k∈t.bucket,k.revision=some e.catalogue_revision_id → k∈s.bucket)
    (hx : ∀r∈t.removals,Removed s r) : Sound t ∧ Grows s t := by
  have hgrow := grows_bucket hp he hd hb
  refine ⟨⟨?_,?_,?_,?_,?_,?_,?_,?_,?_,?_,?_⟩,hgrow⟩
  · rw [he]
    exact h.exportIds
  · rw [hp]
    exact h.planIds
  · rw [hd]
    exact h.ids
  · rw [hd]
    exact h.keys
  · rw [hr]
    exact h.retryKeys
  · rw [hp]
    intro p hps
    obtain ⟨e,hpl⟩ := h.plans p hps
    obtain ⟨e',hpl',-⟩ := hgrow.planned hpl
    exact ⟨e',hpl'⟩
  · rw [hd]
    intro d hds
    have hrec := h.deletions d hds
    obtain ⟨p,hps,e,hes,-,-,-,-,h5,-⟩ := hrec.planned
    refine hrec.of_frame h hgrow.plans (by rw [he]; exact fun e he _ => he)
      (by rw [hm]; exact fun m hm => hm) (by rw [hr]; exact retries_self s) ?_
    rw [← h5]
    exact hb e hes
  · rw [hm,hd]
    exact h.tombstones
  · rw [he,hd]
    exact h.exports
  · exact fun r hrs => (hx r hrs).mono hgrow.plans hgrow.exports hgrow.deletions
  · rw [hk]
    exact h.marks

theorem delete_sound (h : Sound s) (id : String) (key : ObjectKey)
    (hr : Removed s ⟨id,key,s.bucket⟩) : Sound (s.delete id key) ∧ Grows s (s.delete id key) := by
  refine h.objects rfl rfl rfl rfl rfl rfl (fun e _ k hk _ => (mem_filter.mp hk).1) ?_
  intro r hrs
  rcases mem_cons.mp hrs with rfl | hrs
  · exact hr
  · exact h.removals r hrs

theorem upload_sound (h : Sound s) (key : ObjectKey) :
    Sound (s.upload key) ∧ Grows s (s.upload key) := by
  rw [Store.upload]
  split
  · exact ⟨h,Grows.refl s⟩
  · rename_i hnew
    rw [Bool.not_eq_true,any_eq_false] at hnew
    refine h.objects rfl rfl rfl rfl rfl rfl (fun e hes k hk hrev => ?_) h.removals
    rcases mem_cons.mp hk with rfl | hk
    · exact absurd (decide_eq_true hrev) (hnew e hes)
    · exact (mem_filter.mp hk).1

theorem operate_sound (h : Sound s) (o : OperationState) :
    Sound { s with operation := o } ∧ Grows s { s with operation := o } :=
  h.objects rfl rfl rfl rfl rfl rfl (fun _ _ _ hk _ => hk) h.removals

theorem insertPlan_sound (h : Sound s) {p : PlanRow} (hp : ∃e,Planned s p e) :
    Sound (s.insertPlan p).2 ∧ Grows s (s.insertPlan p).2 := by
  rw [Store.insertPlan]
  split
  · exact ⟨h,Grows.refl s⟩
  · rename_i hnew
    rw [Bool.not_eq_true,any_eq_false] at hnew
    have hplans : ∀q∈s.plans,q∈s.plans++[p] := fun q hq => mem_append_left _ hq
    have hgrow : Grows s { s with plans := s.plans++[p] } :=
      ⟨hplans,fun e he => ⟨e,he,rfl,rfl⟩,fun d hd => ⟨d,hd,SameDeletion.refl d⟩,
        fun _ _ _ hk _ => hk⟩
    refine ⟨⟨h.exportIds,?_,h.ids,h.keys,h.retryKeys,?_,?_,h.tombstones,h.exports,?_,h.marks⟩,hgrow⟩
    · exact keys_append h.planIds fun q hq he => hnew q hq (decide_eq_true (.inl he))
    · have hframe : ∀q e,Planned s q e → Planned { s with plans := s.plans++[p] } q e :=
        fun q e hpl => hpl.mono hpl.recorded rfl rfl fun _ hk _ => hk
      intro q hq
      rcases mem_append.mp hq with hq | hq
      · obtain ⟨e,hpl⟩ := h.plans q hq
        exact ⟨e,hframe q e hpl⟩
      · obtain ⟨e,hpl⟩ := hp
        exact ⟨e,mem_singleton.mp hq ▸ hframe p e hpl⟩
    · exact fun d hd => (h.deletions d hd).of_frame h hplans (fun e he _ => he) (fun m hm => hm)
        (retries_self s) fun _ hk _ => hk
    · exact fun r hr => (h.removals r hr).mono hplans hgrow.exports hgrow.deletions

theorem publish_sound (h : Sound s) (revision : String) (key : ObjectKey) (digest : String) : Sound
    (s.publish revision key digest) ∧ Grows s (s.publish revision key digest) := by
  rw [Store.publish]
  split
  · exact ⟨h,Grows.refl s⟩
  · rename_i hnew
    rw [Bool.not_eq_true,any_eq_false] at hnew
    generalize hrow : (⟨revision,key,digest,.available,none,none⟩ : ExportRow)=row
    have hexports : ∀e∈s.exports,e∈s.exports++[row] := fun e he => mem_append_left _ he
    have hgrow : Grows s { s with exports := s.exports++[row] } :=
      ⟨fun p hp => hp,fun e he => ⟨e,hexports e he,rfl,rfl⟩,
        fun d hd => ⟨d,hd,SameDeletion.refl d⟩,fun _ _ _ hk _ => hk⟩
    refine ⟨⟨?_,h.planIds,h.ids,h.keys,h.retryKeys,?_,?_,h.tombstones,?_,?_,h.marks⟩,hgrow⟩
    · subst hrow
      exact keys_append h.exportIds fun e he hr => hnew e he (decide_eq_true (.inl hr))
    · intro p hps
      obtain ⟨e,hpl⟩ := h.plans p hps
      exact ⟨e,hpl.mono (hexports e hpl.recorded) rfl rfl fun _ hk _ => hk⟩
    · exact fun d hd => (h.deletions d hd).of_frame h (fun p hp => hp) (fun e he _ => hexports e he)
        (fun m hm => hm) (retries_self s) fun _ hk _ => hk
    · intro e he hav
      rcases mem_append.mp he with he | he
      · exact h.exports e he hav
      · rw [mem_singleton.mp he,← hrow] at hav
        exact absurd rfl hav
    · exact fun r hr => (h.removals r hr).mono hgrow.plans hgrow.exports hgrow.deletions

theorem guardNewDeletion_true {plan : PlanRow} {request : ConfirmCatalogueExportDeletion}
    {at' : Nat} (h : s.guardNewDeletion plan request at'=true) :
    ∃p∈s.plans,∃e∈s.exports,p.id=plan.id ∧ p.catalogue_revision_id=plan.catalogue_revision_id ∧
    p.expected_current_revision_id=plan.expected_current_revision_id ∧
    p.object_set_digest=plan.object_set_digest ∧
    p.catalogue_revision_id≠s.operation.current_revision_id ∧
    s.operation.current_revision_id=p.expected_current_revision_id ∧
    e.catalogue_revision_id=p.catalogue_revision_id ∧ e.maintenance_state=.available := by
  rw [Store.guardNewDeletion,Bool.and_eq_true,Option.any_eq_true] at h
  obtain ⟨⟨p,hp,hrest⟩,-⟩ := h
  rw [Bool.and_eq_true,Option.any_eq_true,decide_eq_true_eq] at hrest
  obtain ⟨⟨h1,-,h3,h4,-,-,-,-,-,-,-,h12,h13⟩,e,he,hav⟩ := hrest
  rw [decide_eq_true_eq] at hav
  obtain ⟨hps,hid⟩ := mem_of_keyed hp
  obtain ⟨hes,hrev⟩ := mem_of_keyed he
  exact ⟨p,hps,e,hes,hid,h1,h3,h4,h12,h13,hrev,hav.1⟩

theorem confirmDeletion_sound (h : Sound s) (plan : PlanRow)
    (request : ConfirmCatalogueExportDeletion) (at' : Nat) (token : String) :
    Sound (s.confirmDeletion plan request at' token).2 ∧
      Grows s (s.confirmDeletion plan request at' token).2 := by
  rw [Store.confirmDeletion]
  generalize hrow : (⟨request.deletion_id,plan.id,.deleting,plan.catalogue_revision_id,
    plan.manifest_digest,plan.expected_current_revision_id,plan.object_set_digest,
    request.idempotency_key,request,at',none,none,none,some token,some (leaseExpiresAt at'),none⟩ :
      DeletionRow)=row
  split
  swap
  · exact ⟨h,Grows.refl s⟩
  rename_i hok
  rw [Bool.and_eq_true,Bool.and_eq_true,Bool.not_eq_true',Bool.not_eq_true',any_eq_false,
    any_eq_false] at hok
  obtain ⟨⟨hguard,hnew⟩,hunmarked⟩ := hok
  obtain ⟨p,hps,e,hes,hpid,hprev,hpexp,hpobj,hforeign,hcurrent,herev,heav⟩ :=
    guardNewDeletion_true hguard
  let mark (e : ExportRow) : ExportRow :=
    if e.catalogue_revision_id=plan.catalogue_revision_id ∧ e.maintenance_state=.available then
      { e with maintenance_state := .deleting, deletion_operation_id := some row.id }
    else e
  have hmark : ∀e,(mark e).catalogue_revision_id=e.catalogue_revision_id ∧
      (mark e).manifest_key=e.manifest_key := by
    intro e
    dsimp only [mark]
    split
    · exact ⟨rfl,rfl⟩
    · exact ⟨rfl,rfl⟩
  generalize ht : ({ s with
    deletions := s.deletions++[row]
    exports := s.exports.map mark
    marks := (plan.catalogue_revision_id,s.operation.current_revision_id)::s.marks } : Store)=t
  have hexports : t.exports=s.exports.map mark := by rw [← ht]
  have hdeletions : t.deletions=s.deletions++[row] := by rw [← ht]
  have hgrow : Grows s t := by
    subst ht
    exact ⟨fun p hp => hp,fun e he => ⟨mark e,mem_map_of_mem he,hmark e⟩,
      fun d hd => ⟨d,mem_append_left _ hd,SameDeletion.refl d⟩,fun _ _ _ hk _ => hk⟩
  -- An export with a deletion is not available, so its row stays.
  have hkept : ∀e∈s.exports,∀id,e.deletion_operation_id=some id → e∈t.exports := by
    intro e he id hid
    have hstay : mark e=e := by
      refine if_neg fun hc => hunmarked e he (decide_eq_true ⟨hc.1,hc.2,fun hn => ?_⟩)
      rw [hid] at hn
      cases hn.1
    rw [hexports,← hstay]
    exact mem_map_of_mem he
  have hmarked : mark e={ e with
      maintenance_state := .deleting, deletion_operation_id := some row.id } :=
    if_pos ⟨herev.trans hprev,heav⟩
  have hrecorded : Recorded t row := by
    subst hrow
    refine ⟨⟨p,hgrow.plans p hps,mark e,by rw [hexports]; exact mem_map_of_mem hes,hpid,hprev,
      hpexp,hpobj,(hmark e).1.trans (herev.trans hprev),by rw [hmarked],by rw [hmarked]; rfl,
      nofun⟩,?_,nofun,rfl,fun hd => absurd rfl hd,⟨rfl,rfl⟩,nofun⟩
    show plan.catalogue_revision_id≠plan.expected_current_revision_id
    rw [← hprev,← hpexp,← hcurrent]
    exact hforeign
  have hretries : t.retries=s.retries := by rw [← ht]
  have htomb : t.tombstones=s.tombstones := by rw [← ht]
  have hplans : t.plans=s.plans := by rw [← ht]
  have hbucket : t.bucket=s.bucket := by rw [← ht]
  refine ⟨⟨?_,?_,?_,?_,?_,?_,?_,?_,?_,?_,?_⟩,hgrow⟩
  · rw [hexports,keys_map fun e _ => (hmark e).1]
    exact h.exportIds
  · rw [hplans]
    exact h.planIds
  · rw [hdeletions]
    exact keys_append h.ids fun d hd he => hnew d hd (decide_eq_true (.inl he))
  · rw [hdeletions]
    exact keys_append h.keys fun d hd he => hnew d hd (decide_eq_true (.inr (.inr he)))
  · rw [hretries]
    exact h.retryKeys
  · rw [hplans]
    intro q hq
    obtain ⟨e,hpl⟩ := h.plans q hq
    obtain ⟨e',hpl',-⟩ := hgrow.planned hpl
    exact ⟨e',hpl'⟩
  · rw [hdeletions]
    intro d hd
    rcases mem_append.mp hd with hd | hd
    · exact (h.deletions d hd).of_frame h hgrow.plans (fun e he => hkept e he d.id)
        (by rw [htomb]; exact fun m hm => hm) (by rw [hretries]; exact retries_self s)
        (by rw [hbucket]; exact fun _ hk _ => hk)
    · exact mem_singleton.mp hd ▸ hrecorded
  · rw [htomb,hdeletions]
    intro m hm
    obtain ⟨d,hd,hrest⟩ := h.tombstones m hm
    exact ⟨d,mem_append_left _ hd,hrest⟩
  · rw [hexports,hdeletions]
    intro e' he' hav
    obtain ⟨e₀,he₀,rfl⟩ := mem_map.mp he'
    by_cases hc : e₀.catalogue_revision_id=plan.catalogue_revision_id ∧
        e₀.maintenance_state=.available
    · refine ⟨row,mem_append_right _ (mem_singleton_self _),?_,?_⟩
      · rw [(hmark e₀).1,hc.1,← hrow]
      · have hm₀ : mark e₀={ e₀ with
            maintenance_state := .deleting, deletion_operation_id := some row.id } := if_pos hc
        rw [hm₀,← hrow]
        rfl
    · have hm₀ : mark e₀=e₀ := if_neg hc
      rw [hm₀] at hav ⊢
      obtain ⟨d,hd,hrest⟩ := h.exports e₀ he₀ hav
      exact ⟨d,mem_append_left _ hd,hrest⟩
  · rw [show t.removals=s.removals by rw [← ht]]
    exact fun r hr => (h.removals r hr).mono hgrow.plans hgrow.exports hgrow.deletions
  · rw [show t.marks=(plan.catalogue_revision_id,s.operation.current_revision_id)::s.marks by
      rw [← ht]]
    intro m hm
    rcases mem_cons.mp hm with rfl | hm
    · rw [← hprev]
      exact hforeign
    · exact h.marks m hm

/-- The deletion, its plan and the manifest of its export belong together. -/
structure Bound (s : Store) (id : String) (plan : PlanRow) (manifestKey : ObjectKey) : Prop where
  deletion : ∃d∈s.deletions,d.id=id ∧ d.plan_id=plan.id
  planned : plan∈s.plans
  manifest : ∃e,Planned s plan e ∧ e.manifest_key=manifestKey

theorem Bound.mono {s t : Store} {id : String} {plan : PlanRow} {m : ObjectKey}
    (h : Bound s id plan m) (hg : Grows s t) : Bound t id plan m := by
  obtain ⟨d,hd,hid,hplan⟩ := h.deletion
  obtain ⟨d',hd',hsame⟩ := hg.deletions d hd
  obtain ⟨e,hpl,hm⟩ := h.manifest
  obtain ⟨e',hpl',hm'⟩ := hg.planned hpl
  exact ⟨⟨d',hd',hsame.id.trans hid,hsame.plan.trans hplan⟩,hg.plans _ h.planned,e',hpl',hm'.trans hm⟩

theorem Sound.export_eq (h : Sound s) {e e' : ExportRow} (he : e∈s.exports)
    (he' : e'∈s.exports) (hr : e.catalogue_revision_id=e'.catalogue_revision_id) : e=e' :=
  eq_of_key h.exportIds he he' hr

theorem completeDeletion_sound (h : Sound s) (id : String) (plan : PlanRow)
    (retryKey : Option String) (token : String) (leaseAt at' : Nat) (document : Document)
    {m : ObjectKey} (hb : Bound s id plan m) (habs : Absent s plan m) :
    Sound (s.completeDeletion id plan retryKey token leaseAt at' document).2 ∧
      Grows s (s.completeDeletion id plan retryKey token leaseAt at' document).2 := by
  rw [Store.completeDeletion]
  split
  swap
  · exact ⟨h,Grows.refl s⟩
  rename_i hok
  rw [Bool.and_eq_true,any_eq_true] at hok
  obtain ⟨⟨d,hds,hd⟩,-⟩ := hok
  rw [Bool.and_eq_true] at hd
  obtain ⟨hdid,hdstate,-⟩ := owned_iff.mp hd.1
  -- The row that ends is the deletion of the plan.
  obtain ⟨d₀,hd₀,hid₀,hplan₀⟩ := hb.deletion
  obtain rfl := eq_of_key h.ids hds hd₀ (hdid.trans hid₀.symm)
  have hrec := h.deletions d hds
  obtain ⟨p,hps,e,hes,hpid,hprev,hpexp,hpobj,herev,heop,hestate,-⟩ := hrec.planned
  obtain rfl := eq_of_key h.planIds hps hb.planned (hpid.trans hplan₀)
  obtain ⟨e₁,hpl₁,hm₁⟩ := hb.manifest
  obtain rfl := h.export_eq hes hpl₁.recorded (herev.trans (hprev.symm.trans hpl₁.revision.symm))
  rw [hdstate] at hestate
  let f (d : DeletionRow) : DeletionRow := { d with
    state := .deleted
    completed_at := some at'
    failure_code := none
    confirmation_response := some (d.confirmation_response.getD document) }
  let g (d : DeletionRow) : DeletionRow := if Store.owned id retryKey token d then f d else d
  let mark (e : ExportRow) : ExportRow :=
    if e.catalogue_revision_id=p.catalogue_revision_id ∧ e.maintenance_state=.deleting ∧
        e.deletion_operation_id=some id then
      { e with maintenance_state := .deleted, deleted_at := some at' }
    else e
  let stone : Tombstone :=
    ⟨p.catalogue_revision_id,id,p.manifest_digest,p.object_set_digest,at'⟩
  have hg : ∀d,SameDeletion d (g d) := by
    intro d
    dsimp only [g]
    split
    · exact ⟨rfl,rfl,rfl,rfl,rfl,rfl,rfl⟩
    · exact SameDeletion.refl d
  have hgd : g d=f d := if_pos hd.1
  have hother : ∀d'∈s.deletions,d'.id≠id → g d'=d' := by
    intro d' _ hne
    exact if_neg fun ho => hne (owned_iff.mp ho).1
  have hmark : ∀e,(mark e).catalogue_revision_id=e.catalogue_revision_id ∧
      (mark e).manifest_key=e.manifest_key := by
    intro e
    dsimp only [mark]
    split
    · exact ⟨rfl,rfl⟩
    · exact ⟨rfl,rfl⟩
  have hmarked : mark e={ e with maintenance_state := .deleted, deleted_at := some at' } :=
    if_pos ⟨herev.trans hprev.symm,hestate,by rw [heop,hdid]⟩
  have hunmarked : ∀e'∈s.exports,e'.catalogue_revision_id≠p.catalogue_revision_id →
      mark e'=e' := fun e' _ hne => if_neg fun hc => hne hc.1
  let t : Store := { s with
    deletions := s.deletions.map g
    exports := s.exports.map mark
    tombstones := s.tombstones++[stone] }
  have hgrow : Grows s t :=
    ⟨fun p hp => hp,fun e he => ⟨mark e,mem_map_of_mem he,hmark e⟩,
      fun d hd => ⟨g d,mem_map_of_mem hd,hg d⟩,fun _ _ _ hk _ => hk⟩
  have hrecorded : Recorded t (f d) := by
    refine ⟨⟨p,hps,mark e,mem_map_of_mem hes,hpid,hprev,hpexp,hpobj,?_,?_,?_,fun _ => ?_⟩,
      hrec.foreign,fun _ => ?_,hrec.request,fun _ => rfl,hrec.leased,
      fun k hk => ⟨rfl,(hrec.retried k hk).2⟩⟩
    · rw [(hmark e).1]
      exact herev
    · rw [hmarked]
      exact heop
    · rw [hmarked]
      rfl
    · rw [(hmark e).2,hm₁]
      exact ⟨habs.keys,habs.listed⟩
    · exact ⟨stone,mem_append_right _ (mem_singleton_self _),hdid.symm,hprev⟩
  have hsound : Sound t := by
    refine ⟨?_,h.planIds,?_,?_,h.retryKeys,?_,?_,?_,?_,?_,h.marks⟩
    · show ((s.exports.map mark).map _).Nodup
      rw [keys_map fun e _ => (hmark e).1]
      exact h.exportIds
    · show ((s.deletions.map g).map _).Nodup
      rw [keys_map fun d _ => (hg d).id]
      exact h.ids
    · show ((s.deletions.map g).map _).Nodup
      rw [keys_map fun d _ => (hg d).key]
      exact h.keys
    · intro q hq
      obtain ⟨e,hpl⟩ := h.plans q hq
      obtain ⟨e',hpl',-⟩ := hgrow.planned hpl
      exact ⟨e',hpl'⟩
    · intro d' hd'
      obtain ⟨d₁,hd₁,rfl⟩ := mem_map.mp hd'
      by_cases hid : d₁.id=id
      · obtain rfl := eq_of_key h.ids hd₁ hds (hid.trans hdid.symm)
        rw [hgd]
        exact hrecorded
      · rw [hother d₁ hd₁ hid]
        refine (h.deletions d₁ hd₁).of_frame h hgrow.plans (fun e' he' hop => ?_)
          (fun m hm => mem_append_left _ hm) (retries_self s) fun _ hk _ => hk
        have hstay : mark e'=e' := by
          refine if_neg fun hc => hid ?_
          rw [hop] at hc
          exact Option.some.inj hc.2.2
        exact mem_map.mpr ⟨e',he',hstay⟩
    · intro m hm
      rcases mem_append.mp hm with hm | hm
      · obtain ⟨d₁,hd₁,hid₁,hrev₁,hstate₁⟩ := h.tombstones m hm
        refine ⟨g d₁,mem_map_of_mem hd₁,(hg d₁).id.trans hid₁,(hg d₁).revision.trans hrev₁,?_⟩
        dsimp only [g]
        split
        · rfl
        · exact hstate₁
      · rw [mem_singleton.mp hm]
        exact ⟨g d,mem_map_of_mem hds,(hg d).id.trans hdid,
          (hg d).revision.trans hprev.symm,by rw [hgd]⟩
    · intro e' he' hav
      obtain ⟨e₂,he₂,rfl⟩ := mem_map.mp he'
      by_cases hr : e₂.catalogue_revision_id=p.catalogue_revision_id
      · obtain rfl := h.export_eq he₂ hes (hr.trans (hprev.trans herev.symm))
        refine ⟨g d,mem_map_of_mem hds,?_,?_⟩
        · rw [(hg d).revision,(hmark e₂).1]
          exact herev.symm
        · rw [hmarked,hgd]
          rfl
      · rw [hunmarked e₂ he₂ hr] at hav ⊢
        obtain ⟨d₂,hd₂,hrev₂,hmain₂⟩ := h.exports e₂ he₂ hav
        have hne : d₂.id≠id := by
          intro hid
          obtain rfl := eq_of_key h.ids hd₂ hds (hid.trans hdid.symm)
          exact hr (hrev₂.symm.trans hprev.symm)
        exact ⟨d₂,mem_map.mpr ⟨d₂,hd₂,hother d₂ hd₂ hne⟩,hrev₂,hmain₂⟩
    · exact fun r hr => (h.removals r hr).mono hgrow.plans hgrow.exports hgrow.deletions
  obtain ⟨hs,hgs⟩ := persistResponseOf_sound hsound retryKey document
  exact ⟨hs,hgrow.trans hgs⟩

/-- What a call is made under, beside the guards of its own statement. -/
def Fits (s : Store) : Op → Prop
  | .insertPlan p => ∃e,Planned s p e
  | .delete id key _ => Removed s ⟨id,key,s.bucket⟩
  | .completeDeletion id plan _ _ _ _ _ => ∃m,Bound s id plan m ∧ Absent s plan m
  | _ => True

theorem handle_sound (i : Nat) (op : Op) (h : Sound s) (hf : Fits s op) :
    Sound (handle i op s).2 ∧ Grows s (handle i op s).2 := by
  have hself : Sound s ∧ Grows s s := ⟨h,Grows.refl s⟩
  cases op with
  | delete id key fate =>
    simp only [handle]
    split
    · exact hself
    · exact delete_sound h id key hf
  | insertPlan p => exact insertPlan_sound h hf
  | confirmDeletion plan request at' token => exact confirmDeletion_sound h plan request at' token
  | claimLease id retryKey token at' => exact claimLease_sound h id retryKey token at'
  | renewLease id retryKey token at' => exact renewLease_sound h id retryKey token at'
  | retryDeletion id request at' token => exact retryDeletion_sound h id request at' token
  | persistRetryResponse key document => exact persistRetryResponse_sound h key document
  | acceptRetry key id document => exact acceptRetry_sound h key id document
  | acceptConfirmation id document => exact acceptConfirmation_sound h id document
  | completeDeletion id plan retryKey token leaseAt at' document =>
    obtain ⟨m,hb,ha⟩ := hf
    exact completeDeletion_sound h id plan retryKey token leaseAt at' document hb ha
  | failDeletion id retryKey token leaseAt document =>
    exact failDeletion_sound h id retryKey token leaseAt document
  | upload key => exact upload_sound h key
  | publish revision key digest => exact publish_sound h revision key digest
  | operate o => exact operate_sound h o
  | _ => exact hself

end CardKeepr.Export
