import Mathlib.Data.List.Perm.Basic
import CardKeepr.SourceEvidence.DiscoverySelection

namespace CardKeepr.SourceEvidence.Discovery
open Lib Shared List

variable {r : SelectableRequest} {rs : List SelectableRequest} {ids admitted : List RequestId}
  {selection : DiscoverySelection}

def chosen (selection : DiscoverySelection) (admitted : List RequestId) (r : SelectableRequest) : Bool :=
  decide (r.id.role=selection.role ∧ r.id∉admitted)

attribute [local simp] partitionFrom

theorem partition_perm (selection : DiscoverySelection) (admitted : List RequestId) (held : Nat)
    (rs : List SelectableRequest) :
    ((partitionFrom selection admitted held rs).1++(partitionFrom selection admitted held rs).2).Perm rs := by
  induction rs generalizing held with
  | nil => exact .refl _
  | cons r rs ih =>
    rw [partitionFrom]
    split
    · exact (ih held).cons r
    · split
      · exact perm_middle.trans ((ih held).cons r)
      · exact (ih (held+1)).cons r

theorem partition_sublist (selection : DiscoverySelection) (admitted : List RequestId) (held : Nat)
    (rs : List SelectableRequest) : (partitionFrom selection admitted held rs).1.Sublist rs ∧
      (partitionFrom selection admitted held rs).2.Sublist rs := by
  induction rs generalizing held with
  | nil => exact ⟨.refl _,.refl _⟩
  | cons r rs ih =>
    rw [partitionFrom]
    split
    · exact ⟨(ih held).1.cons_cons r,(ih held).2.cons r⟩
    · split
      · exact ⟨(ih held).1.cons r,(ih held).2.cons_cons r⟩
      · exact ⟨(ih (held+1)).1.cons_cons r,(ih (held+1)).2.cons r⟩

theorem partition_selected {held : Nat} (h : r∈(partitionFrom selection admitted held rs).1) :
    chosen selection admitted r=false ∨ listed selection r=true := by
  induction rs generalizing held with
  | nil => cases h
  | cons q rs ih =>
    rw [partitionFrom] at h
    split at h
    · rename_i hq
      rcases mem_cons.mp h with rfl | h
      · left
        have hno : ¬(r.id.role=selection.role ∧ r.id∉admitted) := by
          rintro ⟨hrole,hid⟩
          exact hq.elim (fun hne => hne hrole) hid
        exact decide_eq_false hno
      · exact ih h
    · split at h
      · exact ih h
      · rename_i hq
        rcases mem_cons.mp h with rfl | h
        · right
          rw [not_or,Bool.not_eq_false] at hq
          exact hq.1
        · exact ih h

theorem partition_deferred {held : Nat}
    (h : r∈(partitionFrom selection admitted held rs).2) : chosen selection admitted r=true ∧
      (listed selection r=false ∨ ∃m,selection.maximum_requests=some m ∧
        m ≤ held+((partitionFrom selection admitted held rs).1.filter (chosen selection admitted)).length) := by
  induction rs generalizing held with
  | nil => cases h
  | cons q rs ih =>
    rw [partitionFrom] at h ⊢
    split at h
    · rename_i hq
      rw [if_pos hq]
      obtain ⟨hc,hl⟩ := ih h
      refine ⟨hc,hl.imp_right ?_⟩
      rintro ⟨m,hm,hle⟩
      refine ⟨m,hm,hle.trans ?_⟩
      have hsub : (partitionFrom selection admitted held rs).1.Sublist
          (q::(partitionFrom selection admitted held rs).1) := sublist_cons_self _ _
      have hlen := (hsub.filter (chosen selection admitted)).length_le
      dsimp only
      omega
    · rename_i hq
      rw [if_neg hq]
      have hqc : chosen selection admitted q=true := by
        rw [not_or,not_not] at hq
        exact decide_eq_true hq
      split at h
      · rename_i hd
        rw [if_pos hd]
        rcases mem_cons.mp h with rfl | h
        · refine ⟨hqc,hd.imp_right fun hm => ?_⟩
          cases hmax : selection.maximum_requests with
          | none =>
            rw [hmax] at hm
            cases hm
          | some m =>
            rw [hmax] at hm
            have hle : m ≤ held := of_decide_eq_true hm
            exact ⟨m,rfl,by omega⟩
        · exact ih h
      · rename_i hd
        rw [if_neg hd]
        obtain ⟨hc,hl⟩ := ih h
        refine ⟨hc,hl.imp_right ?_⟩
        rintro ⟨m,hm,hle⟩
        refine ⟨m,hm,?_⟩
        rw [filter_cons_of_pos hqc,length_cons]
        omega

theorem insertAdmitted_mem {id : RequestId} :
    id∈insertAdmitted admitted ids ↔ id∈admitted ∨ id∈ids := by
  induction ids generalizing admitted with
  | nil => simp [insertAdmitted]
  | cons i ids ih =>
    have hstep : insertAdmitted admitted (i::ids)=
        insertAdmitted (if i∈admitted then admitted else admitted++[i]) ids := rfl
    rw [hstep,ih]
    split
    · rename_i hi
      constructor
      · rintro (h | h)
        · exact .inl h
        · exact .inr (mem_cons_of_mem i h)
      · rintro (h | h)
        · exact .inl h
        · rcases mem_cons.mp h with rfl | h
          · exact .inl hi
          · exact .inr h
    · simp [or_assoc]

theorem insertAdmitted_nodup (h : admitted.Nodup) (ids : List RequestId) :
    (insertAdmitted admitted ids).Nodup := by
  induction ids generalizing admitted with
  | nil => exact h
  | cons i ids ih =>
    have hstep : insertAdmitted admitted (i::ids)=
        insertAdmitted (if i∈admitted then admitted else admitted++[i]) ids := rfl
    rw [hstep]
    apply ih
    split
    · exact h
    · rename_i hi
      exact h.append (nodup_singleton i) (disjoint_singleton.mpr hi)

theorem insertAdmitted_present (h : ∀id∈ids,id∈admitted) :
    insertAdmitted admitted ids=admitted := by
  induction ids with
  | nil => rfl
  | cons i ids ih =>
    have hi : i∈admitted := h i mem_cons_self
    have hstep : insertAdmitted admitted (i::ids)=
        insertAdmitted (if i∈admitted then admitted else admitted++[i]) ids := rfl
    rw [hstep,if_pos hi]
    exact ih fun id hid => h id (mem_cons_of_mem i hid)

def ofRole (lineage : JsString) (role : DiscoveredRole) (id : RequestId) : Bool :=
  decide (id.lineage=lineage ∧ id.role=role)

theorem admittedRoleCount_le {lineage : JsString} {role : DiscoveredRole} {s t : DiscoveryStore}
    (hs : s.admitted.Nodup) (h : ∀id∈s.admitted,ofRole lineage role id=true → id∈t.admitted) :
    admittedRoleCount lineage role s ≤ admittedRoleCount lineage role t := by
  have hsub : s.admitted.filter (ofRole lineage role) ⊆ t.admitted.filter (ofRole lineage role) := by
    intro id hid
    rw [mem_filter] at hid ⊢
    exact ⟨h id hid.1 hid.2,hid.2⟩
  exact (subperm_of_subset (hs.filter _) hsub).length_le

/-- What a batch of the lineage decides from its two reads. -/
structure Decided (key : List RequestId → JsString) (selection : DiscoverySelection) (m : Nat)
    (batch : DiscoveryBatch) (readAdmitted readCount : DiscoveryStore) (result : SelectedRequests) : Prop where
  parts : (result.selected++result.deferred).Perm batch.requests
  sublists : result.selected.Sublist batch.requests ∧ result.deferred.Sublist batch.requests
  selected : ∀r∈result.selected,chosen selection readAdmitted.admitted r=true → listed selection r=true
  deferred : ∀r∈result.deferred,chosen selection readAdmitted.admitted r=true ∧
    (listed selection r=false ∨ m ≤ admittedRoleCount batch.lineage selection.role readCount+
      (result.selected.filter (chosen selection readAdmitted.admitted)).length)
  unguarded : result.guarded=none → ∀r∈result.selected,chosen selection readAdmitted.admitted r=false
  guarded : ∀k,result.guarded=some k → k=m
  receipt : result.deferral.map (fun e => (e.parentRequestId,e.deferralKey))=
    if result.deferred=[] then none
    else some (batch.parentRequestId,key (result.deferred.map SelectableRequest.id))

theorem selectedDiscoveryRequests_decided (key : List RequestId → JsString) {m : Nat} (hm : selection.maximum_requests=some m)
    (batch : DiscoveryBatch) (A C : DiscoveryStore) (recordedAt : JsString) :
    Decided key selection m batch A C
      (selectedDiscoveryRequests key (some selection) batch A C recordedAt) := by
  unfold selectedDiscoveryRequests
  dsimp only
  split
  · rename_i hnone
    have hother : ∀r∈batch.requests,chosen selection A.admitted r=false := by
      intro r hr
      refine decide_eq_false fun hc => ?_
      have hmem : r∈batch.requests.filter fun r => decide (r.id.role=selection.role) :=
        mem_filter.mpr ⟨hr,decide_eq_true hc.1⟩
      rw [hnone] at hmem
      cases hmem
    constructor
    · simp
    · exact ⟨.refl _,nil_sublist _⟩
    · intro r hr hc
      rw [hother r hr] at hc
      cases hc
    · intro r hr
      cases hr
    · intro _ r hr
      exact hother r hr
    · intro k hk
      cases hk
    · rfl
  · have hmax : selection.maximum_requests≠none := by simp [hm]
    rw [if_neg hmax,if_neg hmax]
    set ids := (batch.requests.filter fun r => decide (r.id.role=selection.role)).map SelectableRequest.id
      with hids
    set count := admittedRoleCount batch.lineage selection.role C
    -- only candidates are looked up, which is enough for the requests of the batch
    have hchosen : ∀r∈batch.requests,
        chosen selection (admittedDiscoveryRequests ids A) r=chosen selection A.admitted r := by
      intro r hr
      unfold chosen
      apply decide_eq_decide.mpr
      apply and_congr_right
      intro hrole
      apply not_congr
      have hid : r.id∈ids :=
        mem_map.mpr ⟨r,mem_filter.mpr ⟨hr,decide_eq_true hrole⟩,rfl⟩
      rw [admittedDiscoveryRequests,mem_filter]
      exact ⟨And.left,fun h => ⟨h,decide_eq_true hid⟩⟩
    have hsub := partition_sublist selection (admittedDiscoveryRequests ids A) count batch.requests
    have hfilter : (partitionFrom selection (admittedDiscoveryRequests ids A) count batch.requests).1.filter
          (chosen selection (admittedDiscoveryRequests ids A))=
        (partitionFrom selection (admittedDiscoveryRequests ids A) count batch.requests).1.filter
          (chosen selection A.admitted) :=
      filter_congr fun r hr => hchosen r (hsub.1.subset hr)
    simp only [partitionDiscoveredRequests]
    constructor
    · exact partition_perm selection _ count batch.requests
    · exact hsub
    · intro r hr hc
      rw [←hchosen r (hsub.1.subset hr)] at hc
      rcases partition_selected hr with h | h
      · rw [hc] at h
        cases h
      · exact h
    · intro r hr
      obtain ⟨hc,hl⟩ := partition_deferred hr
      rw [hchosen r (hsub.2.subset hr)] at hc
      rw [hfilter] at hl
      refine ⟨hc,hl.imp_right ?_⟩
      rintro ⟨k,hk,hle⟩
      rw [hm] at hk
      cases hk
      exact hle
    · intro hg r hr
      by_contra hc
      rw [Bool.not_eq_false] at hc
      have hmem : r∈(partitionFrom selection (admittedDiscoveryRequests ids A) count batch.requests).1.filter
          (chosen selection (admittedDiscoveryRequests ids A)) :=
        mem_filter.mpr ⟨hr,(hchosen r (hsub.1.subset hr)).trans hc⟩
      have hpos := length_pos_of_mem hmem
      have hg' : (if ((partitionFrom selection (admittedDiscoveryRequests ids A) count batch.requests).1.filter
          (chosen selection (admittedDiscoveryRequests ids A))).length=0 then none
          else selection.maximum_requests)=none := hg
      rw [if_neg (by omega),hm] at hg'
      cases hg'
    · intro k hk
      have hk' : (if ((partitionFrom selection (admittedDiscoveryRequests ids A) count batch.requests).1.filter
          (chosen selection (admittedDiscoveryRequests ids A))).length=0 then none
          else selection.maximum_requests)=some k := hk
      by_cases hzero : ((partitionFrom selection (admittedDiscoveryRequests ids A) count batch.requests).1.filter
          (chosen selection (admittedDiscoveryRequests ids A))).length=0
      · rw [if_pos hzero] at hk'
        cases hk'
      · rw [if_neg hzero,hm] at hk'
        exact (Option.some.inj hk').symm
    · by_cases hnone : (partitionFrom selection (admittedDiscoveryRequests ids A) count batch.requests).2=[]
      · simp [hnone]
      · simp [hnone]

theorem selected_own {key : List RequestId → JsString} {selection : Option DiscoverySelection}
    {batch : DiscoveryBatch} {A C : DiscoveryStore} {recordedAt : JsString}
    (h : r∈(selectedDiscoveryRequests key selection batch A C recordedAt).selected) :
    r∈batch.requests := by
  unfold selectedDiscoveryRequests at h
  split at h
  · exact h
  · dsimp only at h
    split at h
    · exact h
    · exact (partition_sublist _ _ _ _).1.subset h

theorem admit_some {selection : Option DiscoverySelection} {batch : DiscoveryBatch}
    {result : SelectedRequests} {s after : DiscoveryStore} (h : admitDiscovered selection batch result s=some after) :
    after={ admitted := insertAdmitted s.admitted (result.selected.map SelectableRequest.id)
            deferrals := result.deferral.elim s.deferrals (insertDeferral s.deferrals) } ∧
      ∀p k,selection=some p → result.guarded=some k → admittedRoleCount batch.lineage p.role after ≤ k := by
  unfold admitDiscovered at h
  dsimp only at h
  split at h
  · rename_i p k hp
    split at h
    · cases h
    · rename_i hle
      cases h
      refine ⟨rfl,?_⟩
      intro p' k' hp' hk'
      cases hp'
      rw [hp] at hk'
      cases hk'
      exact Nat.le_of_not_lt hle
  · rename_i hno
    cases h
    refine ⟨rfl,?_⟩
    intro p k hp hk
    exact (hno p k hp hk).elim

end CardKeepr.SourceEvidence.Discovery
