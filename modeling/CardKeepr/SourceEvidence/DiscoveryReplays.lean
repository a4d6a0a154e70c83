import Mathlib.Data.List.Induction
import CardKeepr.SourceEvidence.DiscoveryAdmission

namespace CardKeepr.SourceEvidence.Discovery
open Lib Shared List

def Commit.wanted (selection : DiscoverySelection) (c : Commit) : List SelectableRequest :=
  c.batch.requests.filter fun r => chosen selection c.readAdmitted.admitted r && listed selection r

/-- Where the maximum does not hold all that a batch wants, its count covers none of it; and batches
that claim one request agree whether its group is listed. -/
structure Run.Consistent (selection : DiscoverySelection) (m : Nat) (lineage : JsString)
    (d : Run) : Prop where
  counted : ∀c∈d.commits,c.batch.lineage=lineage →
    m < admittedRoleCount lineage selection.role c.readCount+(c.wanted selection).length →
    ∀r∈c.wanted selection,r.id∉c.readCount.admitted
  grouped : ∀c∈d.commits,∀c'∈d.commits,c.batch.lineage=lineage → c'.batch.lineage=lineage →
    ∀r∈c.batch.requests,∀r'∈c'.batch.requests,r.id=r'.id → r.id.role=selection.role →
      listed selection r=listed selection r'

/-- Both attempts decided the same, and the later one wrote nothing. -/
def Replays (later first : Commit) : Prop :=
  later.result.selected=first.result.selected ∧ later.result.deferred=first.result.deferred ∧
    later.after=later.before

/-- What holds of the lineage in every state of a run. -/
structure Invariant (key : List RequestId → JsString) (selection : DiscoverySelection) (m : Nat)
    (lineage : JsString) (d : Run) : Prop where
  past : ∀s∈d.states,s.admitted.Nodup ∧ s.admitted⊆d.current.admitted
  nodup : d.current.admitted.Nodup
  bound : admittedRoleCount lineage selection.role d.current ≤ m
  decided : ∀c∈d.commits,c.batch.lineage=lineage →
    Decided key selection m c.batch c.readAdmitted c.readCount c.result
  kept : ∀c∈d.commits,c.batch.lineage=lineage → ∀r∈c.result.selected,
    r.id∈c.after.admitted ∧ r.id∈d.current.admitted
  source : ∀id∈d.current.admitted,ofRole lineage selection.role id=true →
    ∃c∈d.commits,c.batch.lineage=lineage ∧ ∃r∈c.batch.requests,r.id=id ∧ listed selection r=true
  full : ∀c∈d.commits,c.batch.lineage=lineage → ∀r∈c.result.deferred,listed selection r=true →
    admittedRoleCount lineage selection.role d.current=m ∧ r.id∉d.current.admitted
  receipts : ∀c∈d.commits,c.batch.lineage=lineage → ∀e,c.result.deferral=some e →
    ∃e'∈d.current.deferrals,e'.parentRequestId=e.parentRequestId ∧ e'.deferralKey=e.deferralKey

section
variable {key : List RequestId → JsString} {plan : JsString → Option DiscoverySelection}
  {selection : DiscoverySelection} {m : Nat} {lineage : JsString} {d : Run}
variable {r : SelectableRequest} {batch : DiscoveryBatch} {result : SelectedRequests}

theorem Run.at_cases (d : Run) (time : Nat) : d.at time∈d.states ∨ d.at time=d.current := by
  unfold Run.at
  rw [List.getD_eq_getElem?_getD]
  cases h : d.states.reverse[time]? with
  | none => exact .inr rfl
  | some s => exact .inl (mem_reverse.mp (List.mem_of_getElem? h))

theorem Invariant.read (hi : Invariant key selection m lineage d) (time : Nat) :
    (d.at time).admitted.Nodup ∧ (d.at time).admitted⊆d.current.admitted := by
  rcases d.at_cases time with h | h
  · exact hi.past _ h
  · rw [h]
    exact ⟨hi.nodup,fun _ hid => hid⟩

theorem next_cases (key : List RequestId → JsString) (plan : JsString → Option DiscoverySelection)
    (d : Run) (a : Attempt) : d.next key plan a=⟨d.current::d.states,d.commits⟩ ∨ ∃c :
    Commit,d.next key plan a=⟨c.after::d.states,c::d.commits⟩ ∧ c.batch=a.batch ∧
    c.readAdmitted=d.at a.admittedAt ∧ c.readCount=d.at a.countedAt ∧ c.before=d.current ∧
    c.result=selectedDiscoveryRequests key (plan a.batch.lineage) a.batch (d.at a.admittedAt)
    (d.at a.countedAt) a.recordedAt ∧ admitDiscovered (plan a.batch.lineage) a.batch c.result
    d.current=some c.after := by
  unfold Run.next
  dsimp only
  split
  · exact .inl rfl
  · rename_i after hafter
    right
    refine ⟨⟨a.batch,d.at a.admittedAt,d.at a.countedAt,
      selectedDiscoveryRequests key (plan a.batch.lineage) a.batch (d.at a.admittedAt)
        (d.at a.countedAt) a.recordedAt,d.current,after⟩,rfl,rfl,rfl,rfl,rfl,rfl,?_⟩
    split at hafter
    · cases hafter
    · exact hafter

variable {c c' : Commit}

theorem consistent_tail {states states' : List DiscoveryStore}
    (h : Run.Consistent selection m lineage ⟨states,c::d.commits⟩) :
    Run.Consistent selection m lineage ⟨states',d.commits⟩ where
  counted c' hc' := h.counted c' (mem_cons_of_mem c hc')
  grouped c₁ h₁ c₂ h₂ := h.grouped c₁ (mem_cons_of_mem c h₁) c₂ (mem_cons_of_mem c h₂)

theorem ofRole_of_request (h : batch.lineage=lineage) (hr : r∈batch.requests)
    (hrole : r.id.role=selection.role) : ofRole lineage selection.role r.id=true :=
  decide_eq_true ⟨(batch.own r hr).trans h,hrole⟩

theorem chosen_iff {admitted : List RequestId} :
    chosen selection admitted r=true ↔ r.id.role=selection.role ∧ r.id∉admitted := decide_eq_true_iff

theorem ids_nodup {A C : DiscoveryStore}
    (hd : Decided key selection m batch A C result) (hr : r∈result.deferred) :
    (((result.selected.filter (chosen selection A.admitted))++[r]).map SelectableRequest.id).Nodup := by
  have hperm := (hd.parts.map SelectableRequest.id).nodup_iff.mpr batch.distinct
  have hsub : ((result.selected.filter (chosen selection A.admitted))++[r]).Sublist
      (result.selected++result.deferred) :=
    (filter_sublist).append (singleton_sublist.mpr hr)
  exact hperm.sublist (hsub.map SelectableRequest.id)

/-- A batch that defers for the maximum leaves it full, without the deferred request. -/
theorem deferred_full (hlin : c.batch.lineage=lineage)
    (hd : Decided key selection m c.batch c.readAdmitted c.readCount c.result)
    (hcount : m < admittedRoleCount lineage selection.role c.readCount+(c.wanted selection).length →
      ∀r∈c.wanted selection,r.id∉c.readCount.admitted)
    (hread : c.readCount.admitted.Nodup ∧ c.readCount.admitted⊆c.after.admitted)
    (hkept : ∀r∈c.result.selected,r.id∈c.after.admitted)
    (hbound : admittedRoleCount lineage selection.role c.after ≤ m) (hr : r∈c.result.deferred) (hlisted : listed selection r=true) :
    admittedRoleCount lineage selection.role c.after=m ∧ r.id∉c.after.admitted := by
  obtain ⟨hchosen,hcases⟩ := hd.deferred r hr
  have hheld := hcases.resolve_left (by rw [hlisted]; decide)
  rw [hlin] at hheld
  set added := c.result.selected.filter (chosen selection c.readAdmitted.admitted) with hadded
  have hnodup := ids_nodup hd hr
  rw [←hadded] at hnodup
  -- what is added and the deferred request are all wanted
  have hwanted : added++[r]⊆c.wanted selection := by
    intro q hq
    unfold Commit.wanted
    rw [mem_filter,Bool.and_eq_true]
    rcases mem_append.mp hq with hq | hq
    · obtain ⟨hsel,hc⟩ := mem_filter.mp hq
      exact ⟨hd.sublists.1.subset hsel,hc,hd.selected q hsel hc⟩
    · rw [mem_singleton.mp hq]
      exact ⟨hd.sublists.2.subset hr,hchosen,hlisted⟩
  have hlen := (subperm_of_subset hnodup.of_map hwanted).length_le
  rw [length_append,length_singleton] at hlen
  have hmiss := hcount (by omega)
  -- so the counted identities are others
  set counted := c.readCount.admitted.filter (ofRole lineage selection.role) with hcounted
  have hcl : counted.length=admittedRoleCount lineage selection.role c.readCount := rfl
  have hdisj : counted.Disjoint ((added++[r]).map SelectableRequest.id) := by
    intro id hid hnew
    obtain ⟨q,hq,rfl⟩ := mem_map.mp hnew
    exact hmiss q (hwanted hq) (mem_filter.mp hid).1
  have hall : (counted++(added++[r]).map SelectableRequest.id).Nodup :=
    (hread.1.filter _).append hnodup hdisj
  have hrole : ∀q∈added++[r],ofRole lineage selection.role q.id=true := by
    intro q hq
    obtain ⟨hreq,hc⟩ := mem_filter.mp (hwanted hq)
    exact ofRole_of_request hlin hreq (chosen_iff.mp (Bool.and_eq_true _ _ |>.mp hc).1).1
  have hin : ∀id∈counted++added.map SelectableRequest.id,
      id∈c.after.admitted.filter (ofRole lineage selection.role) := by
    intro id hid
    rw [mem_filter]
    rcases mem_append.mp hid with hid | hid
    · obtain ⟨hc,hr⟩ := mem_filter.mp hid
      exact ⟨hread.2 hc,hr⟩
    · obtain ⟨q,hq,rfl⟩ := mem_map.mp hid
      exact ⟨hkept q (mem_filter.mp hq).1,hrole q (mem_append_left _ hq)⟩
  rw [map_append,←append_assoc] at hall
  have hle := (subperm_of_subset hall.of_append_left hin).length_le
  have hac : (c.after.admitted.filter (ofRole lineage selection.role)).length=
      admittedRoleCount lineage selection.role c.after := rfl
  rw [length_append,length_map,hcl,hac] at hle
  refine ⟨by omega,fun hmem => ?_⟩
  have hmore : ∀id∈counted++added.map SelectableRequest.id++[r].map SelectableRequest.id,
      id∈c.after.admitted.filter (ofRole lineage selection.role) := by
    intro id hid
    rcases mem_append.mp hid with hid | hid
    · exact hin id hid
    · rw [map_singleton,mem_singleton] at hid
      rw [hid,mem_filter]
      exact ⟨hmem,hrole r (by simp)⟩
  have hover := (subperm_of_subset hall hmore).length_le
  rw [length_append,length_append,length_map,length_map,length_singleton,hcl,hac] at hover
  omega

theorem role_count_lt {s t : DiscoveryStore} (hs : s.admitted.Nodup) (h : s.admitted⊆t.admitted)
    {id : RequestId} (hid : id∉s.admitted) (ht : id∈t.admitted)
    (hrole : ofRole lineage selection.role id=true) :
    admittedRoleCount lineage selection.role s < admittedRoleCount lineage selection.role t := by
  have hnodup : (id::s.admitted.filter (ofRole lineage selection.role)).Nodup :=
    nodup_cons.mpr ⟨fun hmem => hid (mem_filter.mp hmem).1,hs.filter _⟩
  have hsub : id::s.admitted.filter (ofRole lineage selection.role)⊆
      t.admitted.filter (ofRole lineage selection.role) := by
    intro i hi
    rw [mem_filter]
    rcases mem_cons.mp hi with rfl | hi
    · exact ⟨ht,hrole⟩
    · exact ⟨h (mem_filter.mp hi).1,(mem_filter.mp hi).2⟩
  exact (subperm_of_subset hnodup hsub).length_le

theorem invariant_start (key : List RequestId → JsString) (selection : DiscoverySelection) (m : Nat)
    (lineage : JsString) : Invariant key selection m lineage .start where
  past s hs := by
    rw [mem_singleton.mp hs]
    exact ⟨.nil,fun _ hid => hid⟩
  nodup := .nil
  bound := Nat.zero_le m
  decided c hc := by cases hc
  kept c hc := by cases hc
  source id hid := by cases hid
  full c hc := by cases hc
  receipts c hc := by cases hc

theorem insertDeferral_mem {deferrals : List DiscoveryDeferral} {e : DiscoveryDeferral}
    (d : DiscoveryDeferral) (he : e∈deferrals) : e∈insertDeferral deferrals d := by
  unfold insertDeferral
  split
  · exact he
  · exact mem_append_left _ he

theorem insertDeferral_receipt (deferrals : List DiscoveryDeferral) (d : DiscoveryDeferral) :
    ∃e∈insertDeferral deferrals d,
      e.parentRequestId=d.parentRequestId ∧ e.deferralKey=d.deferralKey := by
  unfold insertDeferral
  split
  · rename_i hany
    obtain ⟨e,he,hkey⟩ := any_eq_true.mp hany
    exact ⟨e,he,of_decide_eq_true hkey⟩
  · exact ⟨d,mem_append_right _ (mem_singleton_self d),rfl,rfl⟩

theorem admit_grows {p : Option DiscoverySelection}
    {s after : DiscoveryStore} (h : admitDiscovered p batch result s=some after) :
    s.admitted⊆after.admitted ∧ (∀r∈result.selected,r.id∈after.admitted) ∧
      (∀id∈after.admitted,id∈s.admitted ∨ ∃r∈result.selected,r.id=id) ∧
      (s.admitted.Nodup → after.admitted.Nodup) ∧ s.deferrals⊆after.deferrals ∧
      ∀e,result.deferral=some e → ∃e'∈after.deferrals,
        e'.parentRequestId=e.parentRequestId ∧ e'.deferralKey=e.deferralKey := by
  obtain ⟨rfl,-⟩ := admit_some h
  refine ⟨?_,?_,?_,?_,?_,?_⟩
  · intro id hid
    exact insertAdmitted_mem.mpr (.inl hid)
  · intro r hr
    exact insertAdmitted_mem.mpr (.inr (mem_map_of_mem hr))
  · intro id hid
    exact (insertAdmitted_mem.mp hid).imp_right mem_map.mp
  · intro hn
    exact insertAdmitted_nodup hn _
  · intro e he
    show e∈result.deferral.elim s.deferrals (insertDeferral s.deferrals)
    cases result.deferral with
    | none => exact he
    | some d => exact insertDeferral_mem d he
  · intro e he
    show ∃e'∈result.deferral.elim s.deferrals (insertDeferral s.deferrals),_
    rw [he]
    exact insertDeferral_receipt s.deferrals e

theorem bound_step (hplan : plan lineage=some selection) (hm : selection.maximum_requests=some m)
    (hi : Invariant key selection m lineage d) {time counted : Nat}
    {recordedAt : JsString} {after : DiscoveryStore}
    (h : admitDiscovered (plan batch.lineage) batch (selectedDiscoveryRequests key (plan batch.lineage) batch
      (d.at time) (d.at counted) recordedAt) d.current=some after) :
    admittedRoleCount lineage selection.role after ≤ m := by
  obtain ⟨-,-,hfrom,hnodup,-,-⟩ := admit_grows h
  have hsame (hadd : ∀r∈(selectedDiscoveryRequests key (plan batch.lineage) batch
      (d.at time) (d.at counted) recordedAt).selected,ofRole lineage selection.role r.id=true →
        r.id∈d.current.admitted) : admittedRoleCount lineage selection.role after ≤ m := by
    refine (admittedRoleCount_le (hnodup hi.nodup) fun id hid hrole => ?_).trans hi.bound
    rcases hfrom id hid with hid | ⟨r,hr,rfl⟩
    · exact hid
    · exact hadd r hr hrole
  by_cases hlin : batch.lineage=lineage
  · have hd := selectedDiscoveryRequests_decided key hm batch (d.at time) (d.at counted) recordedAt
    rw [hlin,hplan] at h hsame
    cases hg : (selectedDiscoveryRequests key (some selection) batch (d.at time) (d.at counted)
        recordedAt).guarded with
    | none =>
      refine hsame fun r hr hrole => ?_
      have hno := hd.unguarded hg r hr
      by_contra hcur
      have hyes : chosen selection (d.at time).admitted r=true :=
        chosen_iff.mpr ⟨(of_decide_eq_true hrole).2,fun hmem => hcur ((hi.read time).2 hmem)⟩
      rw [hyes] at hno
      cases hno
    | some k =>
      have hle := (admit_some h).2 selection k rfl hg
      rw [hd.guarded k hg,hlin] at hle
      exact hle
  · refine hsame fun r hr hrole => ?_
    have hown := batch.own r (selected_own hr)
    exact (hlin (hown.symm.trans (of_decide_eq_true hrole).1)).elim

/-- Step: the next attempt keeps what holds of the lineage. -/
theorem invariant_next (hplan : plan lineage=some selection) (hm : selection.maximum_requests=some m)
    (hi : Invariant key selection m lineage d) (a : Attempt)
    (hc : Run.Consistent selection m lineage (d.next key plan a)) :
    Invariant key selection m lineage (d.next key plan a) := by
  rcases next_cases key plan d a with hnext | ⟨c,hnext,hbatch,hra,hrc,hbefore,hresult, hadmit⟩
  · rw [hnext]
    refine ⟨?_,hi.nodup,hi.bound,hi.decided,hi.kept,hi.source,hi.full,hi.receipts⟩
    intro s hs
    rcases mem_cons.mp hs with rfl | hs
    · exact ⟨hi.nodup,fun _ hid => hid⟩
    · exact hi.past s hs
  · rw [hnext] at hc ⊢
    rw [←hbatch] at hresult hadmit
    have hgrows := admit_grows hadmit
    obtain ⟨hmono,hselected,hfrom,hnodup,hmonod,hreceipt⟩ := hgrows
    have hbound : admittedRoleCount lineage selection.role c.after ≤ m := by
      rw [hresult] at hadmit
      exact bound_step hplan hm hi hadmit
    have hdecided : c.batch.lineage=lineage →
        Decided key selection m c.batch c.readAdmitted c.readCount c.result := by
      intro hlin
      rw [hresult,hlin,hplan,hra,hrc]
      exact selectedDiscoveryRequests_decided key hm c.batch _ _ _
    refine ⟨?_,hnodup hi.nodup,hbound,?_,?_,?_,?_,?_⟩
    · intro s hs
      rcases mem_cons.mp hs with rfl | hs
      · exact ⟨hnodup hi.nodup,fun _ hid => hid⟩
      · exact ⟨(hi.past s hs).1,fun id hid => hmono ((hi.past s hs).2 hid)⟩
    · intro c' hc' hlin
      rcases mem_cons.mp hc' with rfl | hc'
      · exact hdecided hlin
      · exact hi.decided c' hc' hlin
    · intro c' hc' hlin r hr
      rcases mem_cons.mp hc' with rfl | hc'
      · exact ⟨hselected r hr,hselected r hr⟩
      · exact ⟨(hi.kept c' hc' hlin r hr).1,hmono (hi.kept c' hc' hlin r hr).2⟩
    · intro id hid hrole
      have hold (hcur : id∈d.current.admitted) : ∃c'∈c::d.commits,c'.batch.lineage=lineage ∧
          ∃r∈c'.batch.requests,r.id=id ∧ listed selection r=true := by
        obtain ⟨c',hc',h⟩ := hi.source id hcur hrole
        exact ⟨c',mem_cons_of_mem c hc',h⟩
      rcases hfrom id hid with hcur | ⟨r,hr,rfl⟩
      · exact hold hcur
      · by_cases hcur : r.id∈d.current.admitted
        · exact hold hcur
        · have hreq : r∈c.batch.requests := by
            rw [hresult] at hr
            exact selected_own hr
          have hlin : c.batch.lineage=lineage :=
            (c.batch.own r hreq).symm.trans (of_decide_eq_true hrole).1
          have hchosen : chosen selection c.readAdmitted.admitted r=true := by
            rw [hra]
            exact chosen_iff.mpr ⟨(of_decide_eq_true hrole).2,fun hmem => hcur ((hi.read _).2 hmem)⟩
          exact ⟨c,mem_cons_self,hlin,r,hreq,rfl,(hdecided hlin).selected r hr hchosen⟩
    · intro c' hc' hlin r hr hlisted
      rcases mem_cons.mp hc' with rfl | hc'
      · refine deferred_full hlin (hdecided hlin) (hc.counted c' mem_cons_self hlin) ?_ hselected
          hbound hr hlisted
        rw [hrc]
        exact ⟨(hi.read _).1,fun id hid => hmono ((hi.read _).2 hid)⟩
      · obtain ⟨hfull,hno⟩ := hi.full c' hc' hlin r hr hlisted
        have hd' := hi.decided c' hc' hlin
        have hrole : ofRole lineage selection.role r.id=true :=
          ofRole_of_request hlin (hd'.sublists.2.subset hr) (chosen_iff.mp (hd'.deferred r hr).1).1
        have hle := admittedRoleCount_le hi.nodup fun id hid
          (_ : ofRole lineage selection.role id=true) => hmono hid
        refine ⟨by show admittedRoleCount lineage selection.role c.after=m; omega,fun hmem => ?_⟩
        have hlt := role_count_lt hi.nodup hmono hno hmem hrole
        omega
    · intro c' hc' hlin e he
      rcases mem_cons.mp hc' with rfl | hc'
      · exact hreceipt e he
      · obtain ⟨e',he',h⟩ := hi.receipts c' hc' hlin e he
        exact ⟨e',hmonod he',h⟩

theorem Invariant.apart (hi : Invariant key selection m lineage d)
    (hc : Run.Consistent selection m lineage d) (hmem : c∈d.commits)
    (hmem' : c'∈d.commits) (hlin : c.batch.lineage=lineage) (hlin' : c'.batch.lineage=lineage) (hr : r∈c.result.deferred) : r∉c'.result.selected := by
  intro hr'
  have hcur := (hi.kept c' hmem' hlin' r hr').2
  cases hlisted : listed selection r with
  | true => exact (hi.full c hmem hlin r hr hlisted).2 hcur
  | false =>
    have hd := hi.decided c hmem hlin
    have hreq := hd.sublists.2.subset hr
    have hrole := (chosen_iff.mp (hd.deferred r hr).1).1
    obtain ⟨s,hs,hslin,q,hq,hid,hql⟩ := hi.source r.id hcur (ofRole_of_request hlin hreq hrole)
    have hsame := hc.grouped s hs c hmem hslin hlin q hq r hreq hid (by rw [hid]; exact hrole)
    rw [hql,hlisted] at hsame
    cases hsame

theorem parts_unique {rs a b a' b' : List SelectableRequest} (hrs : rs.Nodup)
    (h : (a++b).Perm rs) (h' : (a'++b').Perm rs) (ha : a.Sublist rs) (ha' : a'.Sublist rs)
    (hab : ∀r∈b,r∉a') (hab' : ∀r∈b',r∉a) : a=a' := by
  apply (List.Nodup.perm_iff_eq_of_sublist hrs ha ha').mp
  rw [perm_ext_iff_of_nodup (hrs.sublist ha) (hrs.sublist ha')]
  intro r
  constructor
  · intro hr
    rcases mem_append.mp (h'.mem_iff.mpr (ha.subset hr)) with hr' | hr'
    · exact hr'
    · exact (hab' r hr' hr).elim
  · intro hr
    rcases mem_append.mp (h.mem_iff.mpr (ha'.subset hr)) with hr' | hr'
    · exact hr'
    · exact (hab r hr' hr).elim

theorem Invariant.same_parts (hi : Invariant key selection m lineage d)
    (hc : Run.Consistent selection m lineage d) (hmem : c∈d.commits)
    (hmem' : c'∈d.commits) (hlin : c'.batch.lineage=lineage) (hbatch : c.batch=c'.batch) :
    c.result.selected=c'.result.selected ∧ c.result.deferred=c'.result.deferred := by
  have hlin₂ : c.batch.lineage=lineage := by rw [hbatch,hlin]
  have hd := hi.decided c hmem hlin₂
  have hd' := hi.decided c' hmem' hlin
  rw [hbatch] at hd
  have hnodup : c'.batch.requests.Nodup := c'.batch.distinct.of_map
  have hab : ∀r∈c.result.deferred,r∉c'.result.selected := fun r =>
    hi.apart hc hmem hmem' hlin₂ hlin
  have hab' : ∀r∈c'.result.deferred,r∉c.result.selected := fun r =>
    hi.apart hc hmem' hmem hlin hlin₂
  constructor
  · exact parts_unique hnodup hd.parts hd'.parts hd.sublists.1 hd'.sublists.1 hab hab'
  · refine parts_unique hnodup (perm_append_comm.trans hd.parts)
      (perm_append_comm.trans hd'.parts) hd.sublists.2 hd'.sublists.2 ?_ ?_
    · exact fun r hr hr' => hab' r hr' hr
    · exact fun r hr hr' => hab r hr' hr

theorem replays_next (hi : Invariant key selection m lineage d) (a : Attempt)
    (hnew : Invariant key selection m lineage (d.next key plan a))
    (hc : Run.Consistent selection m lineage (d.next key plan a))
    (h : d.commits.Pairwise fun later first =>
      later.batch=first.batch → first.batch.lineage=lineage → Replays later first) :
    (d.next key plan a).commits.Pairwise fun later first =>
      later.batch=first.batch → first.batch.lineage=lineage → Replays later first := by
  rcases next_cases key plan d a with hnext | ⟨c,hnext,-,-,-,hbefore,-, hadmit⟩
  · rw [hnext]
    exact h
  · rw [hnext] at hc hnew ⊢
    refine pairwise_cons.mpr ⟨?_,h⟩
    intro first hfirst hbatch hlin
    have hmem : first∈c::d.commits := mem_cons_of_mem c hfirst
    obtain ⟨hselected,hdeferred⟩ := hnew.same_parts hc mem_cons_self hmem hlin hbatch
    refine ⟨hselected,hdeferred,?_⟩
    rw [(admit_some hadmit).1,hbefore]
    have hadmitted : insertAdmitted d.current.admitted (c.result.selected.map SelectableRequest.id)=
        d.current.admitted := by
      apply insertAdmitted_present
      intro id hid
      obtain ⟨r,hr,rfl⟩ := mem_map.mp hid
      rw [hselected] at hr
      exact (hi.kept first hfirst hlin r hr).2
    have hdeferrals : c.result.deferral.elim d.current.deferrals (insertDeferral d.current.deferrals)=
        d.current.deferrals := by
      cases he : c.result.deferral with
      | none => rfl
      | some e =>
        have hkey := (hnew.decided c mem_cons_self (by rw [hbatch,hlin])).receipt
        have hkey' := (hi.decided first hfirst hlin).receipt
        rw [hdeferred,hbatch] at hkey
        rw [←hkey,he] at hkey'
        obtain ⟨e',he',hee'⟩ := Option.map_eq_some_iff.mp hkey'
        obtain ⟨f,hf,hfp,hfk⟩ := hi.receipts first hfirst hlin e' he'
        obtain ⟨hp,hk⟩ := Prod.mk.inj hee'
        show insertDeferral d.current.deferrals e=d.current.deferrals
        unfold insertDeferral
        rw [if_pos]
        exact any_eq_true.mpr ⟨f,hf,decide_eq_true ⟨hfp.trans hp,hfk.trans hk⟩⟩
    rw [hadmitted,hdeferrals]

theorem Run.of_append (attempts : List Attempt) (a : Attempt) :
    Run.of key plan (attempts++[a])=(Run.of key plan attempts).next key plan a :=
  foldl_append

theorem consistent_before {a : Attempt}
    (h : Run.Consistent selection m lineage (d.next key plan a)) :
    Run.Consistent selection m lineage d := by
  rcases next_cases key plan d a with hnext | ⟨c,hnext,-⟩
  · rw [hnext] at h
    exact ⟨h.counted,h.grouped⟩
  · rw [hnext] at h
    exact consistent_tail h

theorem invariant_run (hplan : plan lineage=some selection) (hm : selection.maximum_requests=some m)
    (attempts : List Attempt)
    (hc : Run.Consistent selection m lineage (Run.of key plan attempts)) :
    Invariant key selection m lineage (Run.of key plan attempts) ∧
      (Run.of key plan attempts).commits.Pairwise fun later first =>
        later.batch=first.batch → first.batch.lineage=lineage → Replays later first := by
  induction attempts using List.reverseRecOn with
  | nil => exact ⟨invariant_start key selection m lineage,.nil⟩
  | append_singleton attempts a ih =>
    rw [Run.of_append] at hc ⊢
    obtain ⟨hi,hr⟩ := ih (consistent_before hc)
    have hnew := invariant_next hplan hm hi a hc
    exact ⟨hnew,replays_next hi a hnew hc hr⟩

/-- Where the reads fit together, the maximum holds, a replay repeats its first commit and writes
nothing, other roles are admitted, and what was deferred for the maximum stays out. -/
theorem discovery_bounded (hplan : plan lineage=some selection) (hm : selection.maximum_requests=some m)
    (attempts : List Attempt)
    (hc : Run.Consistent selection m lineage (Run.of key plan attempts)) :
    admittedRoleCount lineage selection.role (Run.of key plan attempts).current ≤ m ∧
    ((Run.of key plan attempts).commits.Pairwise fun later first =>
      later.batch=first.batch → first.batch.lineage=lineage → Replays later first) ∧
    ∀c∈(Run.of key plan attempts).commits,c.batch.lineage=lineage →
      (∀r∈c.batch.requests,r.id.role≠selection.role → r∈c.result.selected ∧ r.id∈c.after.admitted) ∧
      ∀r∈c.result.deferred,listed selection r=true →
        r.id∉(Run.of key plan attempts).current.admitted := by
  obtain ⟨hi,hr⟩ := invariant_run hplan hm attempts hc
  refine ⟨hi.bound,hr,?_⟩
  intro c hmem hlin
  have hd := hi.decided c hmem hlin
  constructor
  · intro r hreq hrole
    rcases mem_append.mp (hd.parts.mem_iff.mpr hreq) with hr | hr
    · exact ⟨hr,(hi.kept c hmem hlin r hr).1⟩
    · exact (hrole (chosen_iff.mp (hd.deferred r hr).1).1).elim
  · intro r hr hlisted
    exact (hi.full c hmem hlin r hr hlisted).2

end

def tranche : DiscoverySelection := ⟨.image,none,some 2⟩

def tranchePlan (lineage : JsString) : Option DiscoverySelection :=
  if lineage=[109] then some tranche else none

def trancheImage (digest : UInt16) : SelectableRequest := ⟨⟨[109],.image,[digest]⟩,some [110]⟩

def trancheKey (ids : List RequestId) : JsString := (ids.map RequestId.digest).flatten

def tranchePage (parent : UInt16) (digests : List UInt16) (h : digests.Nodup) : DiscoveryBatch where
  lineage := [109]
  parentRequestId := [parent]
  requests := digests.map trancheImage
  distinct := by
    rw [map_map]
    refine h.map fun x y hxy => ?_
    have hdigest := congrArg RequestId.digest hxy
    exact (List.cons.inj hdigest).1
  own r hr := by
    obtain ⟨d,-,rfl⟩ := mem_map.mp hr
    rfl

/-- The second page reads what is admitted before the first one commits, and the count after it. -/
def trancheRaced : List Attempt := [
  ⟨tranchePage 1 [1] (by decide),0,0,false,[]⟩,
  ⟨tranchePage 2 [1,2] (by decide),0,1,false,[]⟩,
  ⟨tranchePage 3 [2] (by decide),2,2,false,[]⟩,
  ⟨tranchePage 2 [1,2] (by decide),3,3,false,[]⟩]

/-- One of two places was taken when the second page deferred its other image for the maximum; the
third page admits it, and a replay of the second page selects both. -/
theorem raced_page_deferred :
    (Run.of trancheKey tranchePlan trancheRaced).commits.map (fun c =>
      (c.batch.parentRequestId,admittedRoleCount [109] .image c.before,
        c.result.selected,c.result.deferred))=[
      ([2],2,[trancheImage 1,trancheImage 2],[]),
      ([3],1,[trancheImage 2],[]),
      ([2],1,[trancheImage 1],[trancheImage 2]),
      ([1],0,[trancheImage 1],[])] ∧
    listed tranche (trancheImage 2)=true ∧
    (trancheImage 2).id∈(Run.of trancheKey tranchePlan trancheRaced).current.admitted := by
  decide +kernel

/-- The same pages with both reads at one time. -/
def trancheOrdered : List Attempt := [
  ⟨tranchePage 1 [1] (by decide),0,0,false,[]⟩,
  ⟨tranchePage 2 [1,2,3] (by decide),1,1,false,[]⟩,
  ⟨tranchePage 2 [1,2,3] (by decide),2,2,false,[]⟩]

theorem ordered_pages_bounded :
    admittedRoleCount [109] .image (Run.of trancheKey tranchePlan trancheOrdered).current ≤ 2 ∧
    (trancheImage 3).id∉(Run.of trancheKey tranchePlan trancheOrdered).current.admitted := by
  have hc : Run.Consistent tranche 2 [109] (Run.of trancheKey tranchePlan trancheOrdered) :=
    ⟨by decide +kernel,by decide +kernel⟩
  obtain ⟨hbound,-,hall⟩ := discovery_bounded (m := 2) (show tranchePlan [109]=some tranche from rfl) rfl
    trancheOrdered hc
  refine ⟨hbound,?_⟩
  have hcommit : ∃c∈(Run.of trancheKey tranchePlan trancheOrdered).commits,
      c.batch.lineage=[109] ∧ trancheImage 3∈c.result.deferred := by decide +kernel
  obtain ⟨c,hmem,hlin,hr⟩ := hcommit
  exact (hall c hmem hlin).2 _ hr (by decide)

end CardKeepr.SourceEvidence.Discovery
