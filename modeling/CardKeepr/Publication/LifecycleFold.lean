import CardKeepr.Publication.PublicLifecycle

namespace CardKeepr.Publication.Lifecycle

open Shared Lib List

variable {nfc : Nfc} {kind : Kind} {id : JsString}
variable {e : Evidence} {predecessor : Option JsString} {prior : Option PublicLifecycleFact}

/-- The withdrawal that the code reads: of a product with membership evidence it reads none. -/
def Link.read (l : Link) (kind : Kind) : Option Json :=
  if kind=.products ∧ (member "membership_evidence" l.value).isSome then none
  else l.withdrawal kind

theorem fact_ok {l : Link} {f : PublicLifecycleFact} (h : l.fact nfc kind=.ok (some f))
    (hp : l.predecessor=.ok predecessor) : ∃e,l.store.evidence nfc l.candidate predecessor kind
    l.value=.ok e ∧ lifecycleFact nfc l.candidate kind (entityId l.value) l.value
    (l.store.priorPublicLifecycle predecessor kind (entityId l.value)) e=.ok f := by
  rw [Link.fact,preparePublicLifecycle] at h
  split at h
  · cases h
  · obtain ⟨q,hq,h⟩ := bind_ok h
    have hqp : q=predecessor := Except.ok.inj (hq.symm.trans hp)
    subst hqp
    obtain ⟨e,he,h⟩ := bind_ok h
    obtain ⟨g,hg,h⟩ := bind_ok h
    have hgf : g=f := Option.some.inj (Except.ok.inj h)
    exact ⟨e,he,hgf ▸ hg⟩

/-- The columns of a new row. -/
structure Built (kind : Kind) (l : Link) (prior : Option PublicLifecycleFact) (e : Evidence)
    (f : PublicLifecycleFact) : Prop where
  candidate : f.candidate_id=l.candidate.id
  of_kind : f.kind=kind
  entity : f.entity_id=entityId l.value
  first : f.first_candidate_id=
    (prior.map PublicLifecycleFact.first_candidate_id).getD l.candidate.id
  last : f.last_observed_candidate_id=if e.observed then l.candidate.id
    else (prior.map PublicLifecycleFact.last_observed_candidate_id).getD l.candidate.id
  withdrawn : f.withdrawn=nowWithdrawn kind l.value prior e
  by_candidate : transition kind l.value prior e=false →
    f.withdrawal_candidate_id=prior.bind PublicLifecycleFact.withdrawal_candidate_id
  by_evidence : transition kind l.value prior e=false →
    f.withdrawal_evidence_json=prior.bind PublicLifecycleFact.withdrawal_evidence_json
  digest : f.observation_digest=e.observationDigest

theorem lifecycleFact_ok {l : Link} {f : PublicLifecycleFact}
    (h : lifecycleFact nfc l.candidate kind (entityId l.value) l.value prior e=.ok f) :
    Built kind l prior e f := by
  rw [lifecycleFact] at h
  obtain ⟨evidence,he,h⟩ := bind_ok h
  obtain ⟨u,_,h⟩ := bind_ok h
  obtain rfl := Except.ok.inj h
  refine ⟨rfl,rfl,rfl,rfl,rfl,rfl,?_,?_,rfl⟩
  · intro ht
    simp only [ht,Bool.false_and,Bool.false_eq_true,if_false]
  · intro ht
    rw [withdrawalEvidence,if_neg (by simp [ht])] at he
    exact (Except.ok.inj he).symm

theorem planned_ne {kind : Kind} (h : kind.isPlanned=true) :
    kind≠.products ∧ kind.isRelationship=false := by
  cases kind with
  | cards => exact ⟨by decide,rfl⟩
  | printings => exact ⟨by decide,rfl⟩
  | _ => cases h

theorem planned_evidence {l : Link} (hk : kind.isPlanned=true)
    (h : l.store.evidence nfc l.candidate predecessor kind l.value=.ok e) :
    e.withdrawal=l.withdrawal kind ∧ (e.observed=true ↔
      ∃plan∈l.store.matching l.candidate.preparation_id kind (entityId l.value),
        l.store.knownTo predecessor kind (entityId l.value) plan=false) := by
  rw [Store.evidence,if_pos hk,Store.publicationObservedPlan] at h
  rw [Link.withdrawal,if_pos hk]
  cases hf : firstPlan (l.store.matching l.candidate.preparation_id kind (entityId l.value)) with
  | none =>
    rw [hf] at h
    obtain rfl := Except.ok.inj h
    have hnil : l.store.matching l.candidate.preparation_id kind (entityId l.value)=[] := by
      cases hm : l.store.matching l.candidate.preparation_id kind (entityId l.value) with
      | nil => rfl
      | cons p ps =>
        rw [hm,firstPlan] at hf
        split at hf
        · cases hf
        · split at hf <;> cases hf
    exact ⟨rfl,by simp [hnil]⟩
  | some plan =>
    rw [hf,Option.map_some,planEvidence] at h
    split at h
    · cases h
    · obtain rfl := Except.ok.inj h
      refine ⟨rfl,?_⟩
      rw [any_eq_true]
      exact ⟨fun ⟨p,hp,hn⟩ => ⟨p,hp,by simpa using hn⟩,fun ⟨p,hp,hn⟩ => ⟨p,hp,by simpa using hn⟩⟩

theorem value_evidence {l : Link} (hk : kind.isPlanned=false)
    (h : l.store.evidence nfc l.candidate predecessor kind l.value=.ok e) :
    ∃digest,evidenceDigest nfc kind l.value=.ok digest ∧ e.observationDigest=some digest ∧
      (kind.isRelationship=false → e.withdrawal=l.read kind) ∧
      (e.observed=true ↔ (kind=.errata ∨ member "observed" l.value=some (.bool true)) ∧
        some digest≠(l.store.priorPublicLifecycle predecessor kind (entityId l.value)).bind
          PublicLifecycleFact.observation_digest) := by
  have hk' : ¬kind.isPlanned=true := by simp [hk]
  rw [Store.evidence,if_neg hk',valueEvidence] at h
  obtain ⟨digest,hd,h⟩ := bind_ok h
  refine ⟨digest,hd,?_⟩
  rw [Link.read]
  split at h
  · rename_i hm
    obtain rfl := Except.ok.inj h
    have hne : kind≠.errata := by rw [hm.1]; decide
    refine ⟨rfl,fun _ => by rw [if_pos hm],?_⟩
    simp [hne]
  · rename_i hm
    obtain rfl := Except.ok.inj h
    refine ⟨rfl,fun hr => ?_,by simp⟩
    rw [if_neg hm,Link.withdrawal,if_neg hk',if_neg (by simp [hr])]

theorem prior_eq {p l : Link} {f : PublicLifecycleFact} (h : Link.Follows kind id p l f)
    (hc : f.candidate_id=p.candidate.id) (hk : f.kind=kind) (he : f.entity_id=id) :
    l.store.priorPublicLifecycle (some p.candidate.id) kind id=some f := by
  rw [Store.priorPublicLifecycle]
  have hkeyed := h.keyed
  have hmem := h.retained
  revert hkeyed hmem
  generalize l.store.lifecycles=rows
  intro hkeyed hmem
  induction rows with
  | nil => cases hmem
  | cons g rows ih =>
    rw [pairwise_cons] at hkeyed
    rcases mem_cons.mp hmem with rfl | hmem
    · rw [List.find?_cons_of_pos (by simp [hc,hk,he])]
    · have hne := hkeyed.1 f hmem
      rw [List.find?_cons_of_neg]
      · exact ih hkeyed.2 hmem
      · rw [hc,hk,he] at hne
        simpa using hne

namespace Chain

variable {l p : Link} {ls : List Link} {f f₀ : PublicLifecycleFact}

theorem head_fact (h : Chain nfc kind id (l::ls) f) :
    l.fact nfc kind=.ok (some f) ∧ entityId l.value=id := by
  cases h with
  | first hid _ _ hfact => exact ⟨hfact,hid⟩
  | next _ hid _ hfact => exact ⟨hfact,hid⟩

theorem unique {g : PublicLifecycleFact} (h : Chain nfc kind id (l::ls) f)
    (h' : Chain nfc kind id (l::ls) g) : f=g :=
  Option.some.inj (Except.ok.inj (h.head_fact.1.symm.trans h'.head_fact.1))

theorem of_one (h : Chain nfc kind id [l] f) : ∃predecessor e,
    l.store.evidence nfc l.candidate predecessor kind l.value=.ok e ∧
      l.store.priorPublicLifecycle predecessor kind id=none ∧ Built kind l none e f := by
  cases h with
  | first hid hpred hprior hfact =>
    obtain ⟨e,he,hf⟩ := fact_ok hfact hpred
    rw [hid,hprior,← hid] at hf
    exact ⟨_,e,he,hprior,lifecycleFact_ok hf⟩

theorem head_key (h : Chain nfc kind id (l::ls) f) :
    f.candidate_id=l.candidate.id ∧ f.kind=kind ∧ f.entity_id=id := by
  obtain ⟨hfact,hid⟩ := h.head_fact
  have hb : ∃prior e,Built kind l prior e f := by
    cases h with
    | first _ hpred _ hfact =>
      obtain ⟨e,-,hf⟩ := fact_ok hfact hpred
      exact ⟨_,e,lifecycleFact_ok hf⟩
    | next _ _ hfollows hfact =>
      obtain ⟨e,-,hf⟩ := fact_ok hfact hfollows.predecessor
      exact ⟨_,e,lifecycleFact_ok hf⟩
  obtain ⟨prior,e,hb⟩ := hb
  exact ⟨hb.candidate,hb.of_kind,hb.entity.trans hid⟩

theorem of_next (h : Chain nfc kind id (l::p::ls) f) : ∃f₀ e, Chain nfc kind id (p::ls) f₀ ∧
    Link.Follows kind id p l f₀ ∧ l.store.evidence nfc l.candidate (some p.candidate.id) kind
    l.value=.ok e ∧ l.store.priorPublicLifecycle (some p.candidate.id) kind id=some f₀ ∧ Built kind
    l (some f₀) e f := by
  cases h with
  | @next _ _ _ f₀ _ hp hid hfollows hfact =>
    obtain ⟨e,he,hf⟩ := fact_ok hfact hfollows.predecessor
    obtain ⟨hc,hk,hi⟩ := hp.head_key
    have hprior := prior_eq hfollows hc hk hi
    rw [hid,hprior,← hid] at hf
    exact ⟨f₀,e,hp,hfollows,he,hprior,lifecycleFact_ok hf⟩

theorem head_digest (h : Chain nfc kind id (l::ls) f) (hk : kind.isPlanned=false) :
    ∃digest,evidenceDigest nfc kind l.value=.ok digest ∧ f.observation_digest=some digest := by
  cases ls with
  | nil =>
    obtain ⟨predecessor,e,he,-,hb⟩ := h.of_one
    obtain ⟨digest,hd,hs,-⟩ := value_evidence hk he
    exact ⟨digest,hd,hb.digest.trans hs⟩
  | cons p ls =>
    obtain ⟨f₀,e,-,-,he,-,hb⟩ := h.of_next
    obtain ⟨digest,hd,hs,-⟩ := value_evidence hk he
    exact ⟨digest,hd,hb.digest.trans hs⟩

theorem observed_iff {e : Evidence} (hp : Chain nfc kind id (p::ls) f₀) (hid : entityId l.value=id)
    (he : l.store.evidence nfc l.candidate (some p.candidate.id) kind l.value=.ok e)
    (hprior : l.store.priorPublicLifecycle (some p.candidate.id) kind id=some f₀) :
    e.observed=true ↔ Link.Fresh nfc kind p l := by
  rw [Link.Fresh]
  cases hk : kind.isPlanned with
  | true =>
    rw [if_pos rfl]
    exact (planned_evidence hk he).2
  | false =>
    obtain ⟨digest,hd,-,-,ho⟩ := value_evidence hk he
    obtain ⟨d₀,hd₀,hs⟩ := hp.head_digest hk
    rw [if_neg (by simp),ho,hid,hprior,hd,hd₀,Option.bind_some,hs]
    simp

end Chain

theorem evidence_withdrawal {l : Link} (hr : kind.isRelationship=false)
    (he : l.store.evidence nfc l.candidate predecessor kind l.value=.ok e) :
    e.withdrawal=l.read kind := by
  cases hk : kind.isPlanned with
  | true =>
    rw [(planned_evidence hk he).1,Link.read,if_neg fun h => (planned_ne hk).1 h.1]
  | false =>
    obtain ⟨_,-,-,hw,-⟩ := value_evidence hk he
    exact hw hr

theorem nowWithdrawn_read {l : Link} (hr : kind.isRelationship=false)
    (he : l.store.evidence nfc l.candidate predecessor kind l.value=.ok e) :
    nowWithdrawn kind l.value prior e=((l.read kind).map (verdict kind)).getD (priorWithdrawn prior) := by
  rw [nowWithdrawn,if_neg (by simp [hr]),evidence_withdrawal hr he]
  cases l.read kind with
  | none => rfl
  | some w => rfl

theorem Chain.withdrawn_read {ls : List Link} {f : PublicLifecycleFact}
    (h : Chain nfc kind id ls f) (hr : kind.isRelationship=false) :
    f.withdrawn=(ls.findSome? fun l => (l.read kind).map (verdict kind)).getD false := by
  induction ls generalizing f with
  | nil => cases h
  | cons l ls ih =>
    rw [List.findSome?_cons]
    cases ls with
    | nil =>
      obtain ⟨_,e,he,-,hb⟩ := h.of_one
      rw [hb.withdrawn,nowWithdrawn_read hr he]
      cases l.read kind with
      | none => rfl
      | some w => rfl
    | cons p ls =>
      obtain ⟨f₀,e,hp,-,he,-,hb⟩ := h.of_next
      rw [hb.withdrawn,nowWithdrawn_read hr he]
      cases l.read kind with
      | none => exact ih hp
      | some w => rfl

theorem Chain.related {l : Link} {ls : List Link} {f : PublicLifecycleFact}
    (h : Chain nfc kind id (l::ls) f) (hr : kind.isRelationship=true) :
    f.withdrawn=decide (member "observed" l.value=some (.bool false)) := by
  cases ls with
  | nil =>
    obtain ⟨_,e,-,-,hb⟩ := h.of_one
    rw [hb.withdrawn,nowWithdrawn,if_pos hr]
  | cons p ls =>
    obtain ⟨_,e,-,-,-,-,hb⟩ := h.of_next
    rw [hb.withdrawn,nowWithdrawn,if_pos hr]

theorem Chain.first_candidate {ls : List Link} {f : PublicLifecycleFact}
    (h : Chain nfc kind id ls f) : ∃l,ls.getLast?=some l ∧ f.first_candidate_id=l.candidate.id := by
  induction ls generalizing f with
  | nil => cases h
  | cons l ls ih =>
    cases ls with
    | nil =>
      obtain ⟨_,e,-,-,hb⟩ := h.of_one
      exact ⟨l,rfl,hb.first⟩
    | cons p ls =>
      obtain ⟨f₀,e,hp,-,-,-,hb⟩ := h.of_next
      obtain ⟨m,hm,hf⟩ := ih hp
      exact ⟨m,by rw [List.getLast?_cons_cons,hm],hb.first.trans hf⟩

theorem Chain.last_fresh {ls : List Link} {f : PublicLifecycleFact}
    (h : Chain nfc kind id ls f) : LastFresh nfc kind ls f.last_observed_candidate_id := by
  induction ls generalizing f with
  | nil => cases h
  | cons l ls ih =>
    cases ls with
    | nil =>
      obtain ⟨_,e,-,-,hb⟩ := h.of_one
      have hl : f.last_observed_candidate_id=l.candidate.id := by
        rw [hb.last]
        exact ite_self _
      exact ⟨0,l,rfl,hl.symm,.inl rfl,fun j _ _ hj => absurd hj (Nat.not_lt_zero j)⟩
    | cons p ls =>
      obtain ⟨f₀,e,hp,hfollows,he,hprior,hb⟩ := h.of_next
      have hfresh := hp.observed_iff h.head_fact.2 he hprior
      by_cases ho : e.observed=true
      · have hl : f.last_observed_candidate_id=l.candidate.id := by rw [hb.last,if_pos ho]
        exact ⟨0,l,rfl,hl.symm,.inr ⟨p,rfl,hfresh.mp ho⟩,
          fun j _ _ hj => absurd hj (Nat.not_lt_zero j)⟩
      · have hl : f.last_observed_candidate_id=f₀.last_observed_candidate_id := by
          rw [hb.last,if_neg ho]
          rfl
        obtain ⟨k,m,hm,hmid,hk,hj⟩ := ih hp
        refine ⟨k+1,m,hm,hmid.trans hl.symm,?_,?_⟩
        · rcases hk with hk | ⟨q,hq,hf⟩
          · exact .inl (by rw [length_cons,hk])
          · exact .inr ⟨q,hq,hf⟩
        · intro j q m hjk hm hq
          cases j with
          | zero =>
            obtain rfl := Option.some.inj hm
            obtain rfl := Option.some.inj hq
            exact fun hf => ho (hfresh.mpr hf)
          | succ j => exact hj j q m (Nat.lt_of_succ_lt_succ hjk) hm hq

def ObservationPlan.columns (p : ObservationPlan) : JsString × JsString × JsString × Nat :=
  (p.key_digest,p.content,p.sha256,p.observation_ordinal)

theorem columns_eq {p q : ObservationPlan} (h : p.columns=q.columns) : p.key_digest=q.key_digest ∧
    p.content=q.content ∧ p.observation_ordinal=q.observation_ordinal := by
  simp only [ObservationPlan.columns,Prod.mk.injEq] at h
  exact ⟨h.1,h.2.1,h.2.2.2⟩

theorem precedes_congr {p q p' q' : ObservationPlan} (hp : p.columns=p'.columns)
    (hq : q.columns=q'.columns) : p.precedes q=p'.precedes q' := by
  obtain ⟨-,hpc,hpo⟩ := columns_eq hp
  obtain ⟨-,hqc,hqo⟩ := columns_eq hq
  simp only [ObservationPlan.precedes,ObservationPlan.effectiveAt,ObservationPlan.field,hpc,hpo,
    hqc,hqo]

variable {ps qs : List ObservationPlan}

theorem firstPlan_congr (h : ps.map ObservationPlan.columns=qs.map ObservationPlan.columns) :
    (firstPlan ps).map ObservationPlan.columns=(firstPlan qs).map ObservationPlan.columns := by
  induction ps generalizing qs with
  | nil =>
    cases qs with
    | nil => rfl
    | cons q qs => cases h
  | cons p ps ih =>
    cases qs with
    | nil => cases h
    | cons q qs =>
      obtain ⟨hpq,hrest⟩ := List.cons.inj h
      have hi := ih hrest
      rw [firstPlan,firstPlan]
      cases hf : firstPlan ps with
      | none =>
        rw [hf] at hi
        cases hg : firstPlan qs with
        | none => exact congrArg some hpq
        | some b => rw [hg] at hi; cases hi
      | some a =>
        rw [hf] at hi
        cases hg : firstPlan qs with
        | none => rw [hg] at hi; cases hi
        | some b =>
          rw [hg] at hi
          have hab : a.columns=b.columns := Option.some.inj hi
          simp only [precedes_congr hab hpq]
          split
          · exact hi
          · exact congrArg some hpq

theorem firstPlan_withdrawal (h : ps.map ObservationPlan.columns=qs.map ObservationPlan.columns) :
    (firstPlan ps).bind (fun plan => plan.withdrawal kind)=
      (firstPlan qs).bind fun plan => plan.withdrawal kind := by
  have hf := firstPlan_congr h
  cases ha : firstPlan ps with
  | none =>
    rw [ha] at hf
    cases hb : firstPlan qs with
    | none => rfl
    | some b => rw [hb] at hf; cases hf
  | some a =>
    rw [ha] at hf
    cases hb : firstPlan qs with
    | none => rw [hb] at hf; cases hf
    | some b =>
      rw [hb] at hf
      have hc := (columns_eq (Option.some.inj hf)).2.1
      simp only [Option.bind_some,ObservationPlan.withdrawal,ObservationPlan.field,hc]

section

variable {l p : Link} {ls : List Link} {f₀ : PublicLifecycleFact}

theorem not_fresh_of_carries (h : Link.Carries nfc kind p l)
    (hf : Link.Follows kind (entityId l.value) p l f₀) : ¬Link.Fresh nfc kind p l := by
  rw [Link.Carries] at h
  rw [Link.Fresh]
  cases hk : kind.isPlanned with
  | true =>
    rw [hk,if_pos rfl] at h
    rw [if_pos rfl]
    rintro ⟨plan,hplan,hknown⟩
    have hmem : plan.columns∈Link.plansOf l.store p.candidate.preparation_id kind
        (entityId l.value) := h ▸ mem_map_of_mem hplan
    obtain ⟨old,hold,hcols⟩ := mem_map.mp hmem
    rw [Store.matching,mem_filter] at hold
    obtain ⟨hin,hold⟩ := hold
    simp only [Bool.and_eq_true,decide_eq_true_eq] at hold
    have hyes : l.store.knownTo (some p.candidate.id) kind (entityId l.value) plan=true := by
      rw [Store.knownTo,any_eq_true]
      refine ⟨p.candidate,hf.candidate,?_⟩
      rw [Bool.and_eq_true,any_eq_true]
      refine ⟨by simp,old,hin,?_⟩
      simp [hold.1.1,hold.1.2,(columns_eq hcols).1]
    rw [hyes] at hknown
    cases hknown
  | false =>
    rw [hk,if_neg (by simp)] at h
    rw [if_neg (by simp)]
    exact fun hfresh => hfresh.2 h.1

theorem read_of_carries (h : Link.Carries nfc kind p l) (hp : entityId p.value=entityId l.value)
    (hf : Link.Follows kind (entityId l.value) p l f₀) : l.read kind=p.read kind := by
  rw [Link.Carries] at h
  cases hk : kind.isPlanned with
  | true =>
    rw [hk,if_pos rfl] at h
    rw [Link.read,Link.read,if_neg fun h => (planned_ne hk).1 h.1,
      if_neg fun h => (planned_ne hk).1 h.1,Link.withdrawal,Link.withdrawal,if_pos hk,if_pos hk,hp]
    exact firstPlan_withdrawal (h.trans hf.plans)
  | false =>
    rw [hk,if_neg (by simp)] at h
    rw [Link.read,Link.read,Link.withdrawal,Link.withdrawal,h.2.2.1,h.2.2.2,hk]
    rfl

theorem observed_of_carries (h : Link.Carries nfc kind p l) (hr : kind.isRelationship=true) :
    member "observed" l.value=member "observed" p.value := by
  rw [Link.Carries,if_neg fun hk => by rw [(planned_ne hk).2] at hr; cases hr] at h
  exact h.2.1

theorem Chain.continues {f : PublicLifecycleFact} (h : Chain nfc kind id (l::p::ls) f)
    (h₀ : Chain nfc kind id (p::ls) f₀) : Continues nfc kind p l f₀ f := by
  obtain ⟨g,e,hp,hfollows,he,hprior,hb⟩ := h.of_next
  obtain rfl : g=f₀ := hp.unique h₀
  have hid := h.head_fact.2
  refine ⟨hb.first,fun hne => ?_,fun hc => ?_⟩
  · have ht : transition kind l.value (some g) e=true := by
      by_contra hf
      exact hne (hb.by_candidate (by simpa using hf))
    rw [transition,Bool.and_eq_true,decide_eq_true_eq] at ht
    rw [hb.withdrawn]
    exact ht.2
  · have hfollows' : Link.Follows kind (entityId l.value) p l g := hid ▸ hfollows
    have ho : ¬e.observed=true := fun ho =>
      not_fresh_of_carries hc hfollows' ((hp.observed_iff hid he hprior).mp ho)
    have hw : nowWithdrawn kind l.value (some g) e=g.withdrawn := by
      cases hr : kind.isRelationship with
      | true => rw [nowWithdrawn,if_pos hr,observed_of_carries hc hr,hp.related hr]
      | false =>
        rw [nowWithdrawn_read hr he,read_of_carries hc (hp.head_fact.2.trans hid.symm) hfollows']
        cases hread : p.read kind with
        | none => rfl
        | some w =>
          rw [hp.withdrawn_read hr,List.findSome?_cons,hread]
          rfl
    have ht : transition kind l.value (some g) e=false := by
      rw [transition,hw]
      simp [priorWithdrawn]
    refine ⟨?_,hb.withdrawn.trans hw,hb.by_candidate ht,hb.by_evidence ht⟩
    rw [hb.last,if_neg ho]
    rfl

end

/-- A withdrawn product is seen as withdrawn: one of the candidates that carry a withdrawal for it
carries no membership evidence with it. -/
def WithdrawalRead (kind : Kind) (ls : List Link) : Prop :=
  kind=.products → (∃l∈ls,(l.withdrawal kind).isSome=true) →
    ∃l∈ls,(l.withdrawal kind).isSome=true ∧ member "membership_evidence" l.value=none

theorem findSome_constant {ls : List Link} {g : Link → Option Json} :
    (ls.findSome? fun l => (g l).map (verdict .products)).getD false=true ↔
      ∃l∈ls,(g l).isSome=true := by
  induction ls with
  | nil => simp
  | cons l ls ih =>
    rw [List.findSome?_cons]
    cases hg : g l with
    | none => simpa [hg] using ih
    | some w => simp [hg,verdict]

theorem withdrawal_folds_iff (ls : List Link) :
    (ls.findSome? fun l => (l.read kind).map (verdict kind)).getD false=
      (ls.findSome? fun l => l.asserted kind).getD false ↔ WithdrawalRead kind ls := by
  by_cases hk : kind=.products
  · subst hk
    rw [Bool.eq_iff_iff,show (fun l : Link => l.asserted .products)=
      fun l => (l.withdrawal .products).map (verdict .products) from rfl,findSome_constant,
      findSome_constant]
    have hread : ∀l : Link,(l.read .products).isSome=true ↔
        (l.withdrawal .products).isSome=true ∧ member "membership_evidence" l.value=none := by
      intro l
      rw [Link.read]
      cases hm : member "membership_evidence" l.value with
      | none => simp
      | some m => simp
    constructor
    · intro h _ hw
      obtain ⟨l,hl,hr⟩ := h.mpr hw
      exact ⟨l,hl,(hread l).mp hr⟩
    · intro h
      refine ⟨fun ⟨l,hl,hr⟩ => ⟨l,hl,((hread l).mp hr).1⟩,fun hw => ?_⟩
      obtain ⟨l,hl,hr⟩ := h rfl hw
      exact ⟨l,hl,(hread l).mpr hr⟩
  · have hread : (fun l : Link => (l.read kind).map (verdict kind))=fun l => l.asserted kind := by
      funext l
      rw [Link.read,if_neg fun h => hk h.1,Link.asserted]
    rw [hread]
    exact ⟨fun _ h => absurd h hk,fun _ => rfl⟩

/-- The public fact of an entity is the fold over its unbroken chain of candidates exactly when no
withdrawal of a product is hidden by membership evidence. -/
theorem public_lifecycle_iff (nfc : Nfc) (kind : Kind) (id : JsString) (ls : List Link)
    (f : PublicLifecycleFact) (h : Chain nfc kind id ls f) :
    Folded nfc kind id ls f ↔ WithdrawalRead kind ls := by
  constructor
  · intro hf
    by_cases hk : kind=.products
    · have hr : kind.isRelationship=false := by rw [hk]; rfl
      exact (withdrawal_folds_iff ls).mp ((h.withdrawn_read hr).symm.trans (hf.withdrawn hr))
    · exact fun hp => absurd hp hk
  · intro hw
    refine ⟨h.first_candidate,h.last_fresh,?_,?_,?_⟩
    · intro hr l hl
      cases ls with
      | nil => cases hl
      | cons m ls =>
        obtain rfl := Option.some.inj hl
        rw [h.related hr,decide_eq_true_eq]
    · exact fun hr => (h.withdrawn_read hr).trans ((withdrawal_folds_iff ls).mpr hw)
    · rintro l p ls' f₀ rfl h₀
      exact h.continues h₀

def boosterCandidate (id : String) : Candidate :=
  ⟨js id.toList,js id.toList,js "revision".toList,js "digimon".toList⟩

/-- A product that carries a withdrawal, with what else it carries. -/
def withdrawnBooster (members : List (JsString × Json)) : Json :=
  .obj ([(js "id".toList,.str (js "booster".toList)),(js "observed".toList,.bool true),
    (js "withdrawal".toList,.obj [(js "evidence".toList,.obj [])])]++members)

/-- The tables before a native candidate, of which `predecessor` has been prepared. -/
def boosterTables (rows : List PublicLifecycleFact) (id : String) (predecessor : Option String) :
    Store where
  lifecycles := rows
  plans := []
  candidates := boosterCandidate id::(predecessor.map boosterCandidate).toList
  operations := [(js id.toList,some (js "digimon".toList))]
  compositionGames := []
  predecessors := [(js id.toList,predecessor.map fun p => js p.toList)]

/-- A product bound to its memberships by a receipt. -/
def membershipBooster : Link where
  store := boosterTables [] "first" none
  candidate := boosterCandidate "first"
  value := withdrawnBooster [(js "membership_evidence".toList,
    .obj [(js "sha256".toList,.str (List.replicate 64 97)),(js "count".toList,.num 1)])]

def listedBooster : Link where
  store := boosterTables [] "first" none
  candidate := boosterCandidate "first"
  value := withdrawnBooster []

/-- The fact of a product's only candidate. -/
def boosterFact (withdrawn : Bool) (evidence : Option String) (digest : JsString) :
    PublicLifecycleFact :=
  ⟨js "first".toList,.products,js "booster".toList,js "first".toList,js "first".toList,withdrawn,
    evidence.map fun _ => js "first".toList,evidence.map fun e => js e.toList,some digest⟩

/-- Texts that are in normal form already. -/
def normalTexts : Nfc := ⟨fun s => s,fun _ => rfl,fun _ _ => rfl⟩

theorem booster_chain {l : Link} {f : PublicLifecycleFact}
    (hid : entityId l.value=js "booster".toList) (hpred : l.predecessor=.ok none)
    (hfact : l.fact normalTexts .products=.ok (some f)) (hrows : l.store.lifecycles=[]) :
    Chain normalTexts .products (js "booster".toList) [l] f := by
  refine .first hid hpred ?_ hfact
  rw [Store.priorPublicLifecycle,hrows]
  rfl

/-- The withdrawal of a product that carries membership evidence is not seen. -/
theorem public_lifecycle_hidden :
    Chain normalTexts .products (js "booster".toList) [membershipBooster]
        (boosterFact false none (List.replicate 64 97)) ∧
      ¬Folded normalTexts .products (js "booster".toList) [membershipBooster]
        (boosterFact false none (List.replicate 64 97)) := by
  refine ⟨booster_chain (by decide +kernel) (by decide +kernel) (by decide +kernel) rfl,?_⟩
  intro hf
  have hw := hf.withdrawn rfl
  have hseen : ([membershipBooster].findSome? fun l => l.asserted .products).getD false=true := by
    decide +kernel
  rw [hseen] at hw
  cases hw

def emptyDigest : JsString := sha256Text (js "[]".toList)

def listedFact : PublicLifecycleFact :=
  boosterFact true (some "\x7b\"evidence\":\x7b\x7d\x7d") emptyDigest

/-- The next candidate, which carries the product over without its withdrawal. -/
def carriedBooster : Link where
  store := boosterTables [listedFact] "second" (some "first")
  candidate := boosterCandidate "second"
  value := .obj [(js "id".toList,.str (js "booster".toList)),(js "observed".toList,.bool false)]

def carriedFact : PublicLifecycleFact := { listedFact with candidate_id := js "second".toList }

/-- A product whose withdrawal stands in its value is withdrawn, and stays so. -/
theorem public_lifecycle_listed :
    Chain normalTexts .products (js "booster".toList) [carriedBooster,listedBooster] carriedFact ∧
      Folded normalTexts .products (js "booster".toList) [carriedBooster,listedBooster]
        carriedFact := by
  have hfirst : Chain normalTexts .products (js "booster".toList) [listedBooster] listedFact :=
    booster_chain (by decide +kernel) (by decide +kernel) (by decide +kernel) rfl
  have hfollows : Link.Follows .products (js "booster".toList) listedBooster carriedBooster
      listedFact :=
    ⟨by decide +kernel,mem_singleton_self _,pairwise_singleton _ _,by decide +kernel,rfl⟩
  have h : Chain normalTexts .products (js "booster".toList) [carriedBooster,listedBooster]
      carriedFact := .next hfirst (by decide +kernel) hfollows (by decide +kernel)
  refine ⟨h,(public_lifecycle_iff normalTexts .products _ _ _ h).mpr fun _ _ => ?_⟩
  exact ⟨listedBooster,by simp,by decide +kernel,by decide +kernel⟩

end CardKeepr.Publication.Lifecycle
