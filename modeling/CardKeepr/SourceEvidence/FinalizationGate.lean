import CardKeepr.SourceEvidence.Finalization

namespace CardKeepr.SourceEvidence.Finalization
open Ingestion Ingestion.Reservations Lib List
open Plans (redirectDiscoveredFailureCode toleratedPrintingImageFailureCodes)

variable {plans : List EvidencePlan} {requests : SourceRequests} {completedAt id : String}
  {c c' : Collection}
variable {ids : List String} {q : SourceRequest} {p : SourceRequest → Bool}
  {target : IngestionRunState}

theorem redirect_not_image : redirectDiscoveredFailureCode∉toleratedPrintingImageFailureCodes := by
  decide

theorem tolerated_queries (q : SourceRequest) (h : q.state=.failed) :
    ((toleratedImage q).not.and (redirectDiscovered q).not)=
      some (!toleratesRequestFailure q.request_role q.failure_code) := by
  obtain ⟨code,hcode⟩ := Option.isSome_iff_exists.mp (q.coded h)
  rw [toleratedImage,redirectDiscovered,hcode]
  simp only [Truth.equals_known,Truth.within_known,Truth.and_known,Truth.not_known]
  rw [toleratesRequestFailure]
  by_cases hredirect : code=redirectDiscoveredFailureCode
  · subst hredirect
    simp [redirect_not_image]
  · simp [hredirect]

theorem reported_eq (q : SourceRequest) : reported q=
    (decide (q.state=.failed) && !toleratesRequestFailure q.request_role q.failure_code) := by
  rw [reported,Truth.holds_and,Truth.holds_and,Truth.equals_known,Truth.holds_known,Bool.and_assoc,
    ←Truth.holds_and]
  by_cases h : q.state=.failed
  · rw [tolerated_queries q h,Truth.holds_known]
  · simp [h]

theorem counted_eq (ids : List String) (q : SourceRequest) : counted ids q=
    (reported q && !decide (q.request_id∈ids)) := by
  rw [counted,reported]
  simp only [Truth.holds_and,Truth.within_known,Truth.not_known,Truth.equals_known,
    Truth.holds_known]
  cases decide (q.state=.failed) <;> cases decide (q.request_id∈ids) <;> simp

def Planned (plans : List EvidencePlan) (requests : SourceRequests) : Prop :=
  ∀q∈requests.rows,q.state=.failed → (evidencePlanForRequest plans q.request_id).isSome=true

theorem same_request (requests : SourceRequests) {q' : SourceRequest} (hq : q∈requests.rows)
    (hq' : q'∈requests.rows) (h : q.request_id=q'.request_id) : q=q' :=
  inj_on_of_nodup_map requests.keyed hq hq' h

theorem planned_iff : Planned plans requests ↔ (optionalOutageIds plans requests).isSome=true := by
  rw [optionalOutageIds,Option.isSome_map,mapM_isSome,Planned]
  simp [mem_filter]

/-- The request's source is optional and was out. -/
def optionalOutage (plans : List EvidencePlan) (q : SourceRequest) : Bool :=
  (evidencePlanForRequest plans q.request_id).any fun plan =>
    isOptionalSourceOutage plan q.failure_code

theorem outage_mem (h : optionalOutageIds plans requests=some ids) (hq : q∈requests.rows) (hf : q.state=.failed) :
    q.request_id∈ids ↔ optionalOutage plans q=true := by
  obtain ⟨rs,hrs,rfl⟩ := Option.map_eq_some_iff.mp h
  have hmem := mapM_some_mem hrs
  rw [optionalOutage]
  constructor
  · intro hid
    obtain ⟨r,hr,hid⟩ := mem_map.mp hid
    obtain ⟨hr,htrue⟩ := mem_filter.mp hr
    obtain ⟨q',hq',hplan⟩ := (hmem r).mp hr
    obtain ⟨plan,hown,rfl⟩ := Option.map_eq_some_iff.mp hplan
    obtain rfl := same_request requests (mem_filter.mp hq').1 hq hid
    rw [hown]
    exact htrue
  · intro hout
    obtain ⟨plan,hplan,htrue⟩ := (Option.any_eq_true _ _).mp hout
    rw [mem_map]
    refine ⟨(q.request_id,true),mem_filter.mpr ⟨?_,rfl⟩,rfl⟩
    rw [hmem]
    refine ⟨q,mem_filter.mpr ⟨hq,by simpa using hf⟩,?_⟩
    rw [hplan,Option.map_some,htrue]

theorem counted_untolerated (h : optionalOutageIds plans requests=some ids) (hq : q∈requests.rows) : counted ids q=untolerated plans q := by
  rw [counted_eq,reported_eq,untolerated,tolerated]
  by_cases hf : q.state=.failed
  · have hmem := outage_mem h hq hf
    have hdec : decide (q.request_id∈ids)=optionalOutage plans q := by
      rw [Bool.eq_iff_iff,decide_eq_true_eq]
      exact hmem
    rw [hdec,optionalOutage,Bool.not_or,Bool.and_assoc]
  · simp [hf]

theorem any_counted (h : optionalOutageIds plans requests=some ids) :
    requests.rows.any (counted ids)=requests.rows.any (untolerated plans) := by
  rw [Bool.eq_iff_iff,any_eq_true,any_eq_true]
  exact exists_congr fun q => and_congr_right fun hq => by rw [counted_untolerated h hq]

def firstCode (p : SourceRequest → Bool) (requests : SourceRequests) : Option String :=
  (firstOf p requests).bind SourceRequest.failure_code

theorem verdict_of_planned (hplanned : Planned plans requests) :
    verdict plans requests=if requests.rows.any active then .waiting
      else if requests.rows.any (untolerated plans) then
        .failed ((firstCode reported requests).getD "source_evidence_failed")
      else .complete := by
  obtain ⟨ids,hids⟩ := Option.isSome_iff_exists.mp (planned_iff.mp hplanned)
  rw [verdict,hids]
  simp only [any_counted hids,firstCode]

theorem verdict_unplanned (h : ¬Planned plans requests) : verdict plans requests=.refused := by
  rw [planned_iff,Bool.not_eq_true,Option.isSome_eq_false_iff,Option.isNone_iff_eq_none] at h
  rw [verdict,h]

theorem stateOf_some {state : IngestionRunState} (h : c.stateOf id=some state) :
    ∃run,c.store.runs id=some run ∧ run.state=state := Option.map_eq_some_iff.mp h

theorem transition_collecting {set : Run → Run} {run : Run}
    {s : Store} (hrun : s.runs id=some run) (hstate : run.state=.collecting)
    (htarget : target=.parsing ∨ target=.failed) :
    transition [.collecting] target set id s=
      if id∈s.ingestion_collection_reservations then
        some (setRun id (fun _ => { set run with state := target }) s) else none := by
  rw [transition,hrun]
  simp only [hstate]
  rw [if_pos (by decide)]
  rcases htarget with rfl | rfl
  · simp
  · simp

theorem transition_other {set : Run → Run} {s : Store} {run : Run} (hrun : s.runs id=some run)
    (hstate : run.state≠.collecting) : transition [.collecting] target set id s=some s := by
  rw [transition,hrun]
  simp [hstate]

/-- The condition of the gate, for the run as the batch meets it. -/
def GateOpen (plans : List EvidencePlan) (requests : SourceRequests) (id : String)
    (c : Collection) : Prop :=
  requests.rows.any active=true ∨
  (c.stateOf id=some .collecting ∧ Planned plans requests ∧
    id∈c.store.ingestion_collection_reservations ∧
    (requests.rows.any (untolerated plans)=true →
      firstCode reported requests=firstCode (untolerated plans) requests)) ∨
  (c.stateOf id≠some .collecting ∧ (c.stateOf id=none ∨ ¬Planned plans requests ∨
    c.plan.collection_completed_at≠none ∧ (requests.rows.any (untolerated plans)=true →
      c.store.active_ingestion_run_id=some id → nextLiveIngestionReservation c.store=some id)))

theorem record_failing {code : String} {run : Run} (hrun : c.store.runs id=some run)
    (hstate : run.state=.collecting) (hreserved : id∈c.store.ingestion_collection_reservations) :
    (record (failing code id) completedAt (some code) c).stateOf id=some .failed ∧
      (record (failing code id) completedAt (some code) c).failureOf id=some code := by
  rw [record,failing,runStatements,fail,transition_collecting hrun hstate (.inr rfl),
    if_pos hreserved,Option.bind_some,runStatements,releaseRunLock,Option.bind_some,runStatements]
  rw [Collection.stateOf,Collection.failureOf]
  split_ifs
  all_goals
    dsimp only
    rw [setRun_self hrun]
    exact ⟨rfl,rfl⟩

theorem record_finishing {run : Run} (hrun : c.store.runs id=some run)
    (hstate : run.state=.collecting) (hreserved : id∈c.store.ingestion_collection_reservations) :
    (record (finishing id) completedAt none c).stateOf id=some .parsing := by
  rw [record,finishing,runStatements,transition_collecting hrun hstate (.inl rfl),
    if_pos hreserved,Option.bind_some,runStatements,Collection.stateOf]
  dsimp only
  rw [setRun_self hrun]
  rfl

theorem record_unreserved {code : String} {run : Run} (hrun : c.store.runs id=some run)
    (hstate : run.state=.collecting) (hreserved : id∉c.store.ingestion_collection_reservations) :
    record (failing code id) completedAt (some code) c=c ∧
      record (finishing id) completedAt none c=c := by
  rw [record,record,failing,finishing,runStatements,runStatements,fail,
    transition_collecting hrun hstate (.inr rfl),transition_collecting hrun hstate (.inl rfl),
    if_neg hreserved,if_neg hreserved]
  exact ⟨rfl,rfl⟩

theorem record_other {code : String} {run : Run} (hrun : c.store.runs id=some run)
    (hstate : run.state≠.collecting) :
    record (failing code id) completedAt (some code) c=
        ⟨if c.store.active_ingestion_run_id=some id then
            { c.store with active_ingestion_run_id := nextLiveIngestionReservation c.store }
          else c.store,c.plan.complete completedAt (some code)⟩ ∧
      record (finishing id) completedAt none c=⟨c.store,c.plan.complete completedAt none⟩ := by
  rw [record,record,failing,finishing,runStatements,runStatements,fail,
    transition_other hrun hstate,transition_other hrun hstate]
  exact ⟨rfl,rfl⟩

theorem complete_same (failureCode : Option String) (f : PlanFacts) :
    f.complete completedAt failureCode=f ↔ f.collection_completed_at≠none := by
  rw [PlanFacts.complete]
  split
  · rename_i hnone
    constructor
    · intro h
      rw [←h] at hnone
      cases hnone
    · exact fun h => absurd hnone h
  · rename_i hsome
    exact ⟨fun _ => hsome,fun _ => rfl⟩

theorem firstOf_mem (h : firstOf p requests=some q) : q∈requests.rows ∧ p q=true :=
  mem_filter.mp (argmin_mem h)

theorem firstOf_exists (h : requests.rows.any p=true) : ∃q,firstOf p requests=some q := by
  obtain ⟨q,hq,hp⟩ := any_eq_true.mp h
  have hmem : q∈requests.rows.filter p := mem_filter.mpr ⟨hq,hp⟩
  cases hfirst : firstOf p requests with
  | some r => exact ⟨r,rfl⟩
  | none =>
    rw [firstOf,argmin_eq_none] at hfirst
    rw [hfirst] at hmem
    cases hmem

theorem firstCode_some (hp : ∀q,p q=true → q.state=.failed) (h : requests.rows.any p=true) : ∃q
    code,firstOf p requests=some q ∧ q.failure_code=some code ∧ firstCode p requests=some code := by
  obtain ⟨q,hq⟩ := firstOf_exists h
  obtain ⟨code,hcode⟩ := Option.isSome_iff_exists.mp (q.coded (hp q (firstOf_mem hq).2))
  exact ⟨q,code,hq,hcode,by rw [firstCode,hq,Option.bind_some,hcode]⟩

theorem untolerated_failed (q : SourceRequest) (h : untolerated plans q=true) :
    q.state=.failed := by
  rw [untolerated,Bool.and_eq_true,decide_eq_true_eq] at h
  exact h.1

theorem untolerated_reported (q : SourceRequest) (h : untolerated plans q=true) :
    reported q=true := by
  rw [untolerated,tolerated,Bool.not_or,Bool.and_eq_true,Bool.and_eq_true] at h
  rw [reported_eq,h.1,h.2.1]
  rfl

theorem reported_failed (q : SourceRequest) (h : reported q=true) : q.state=.failed := by
  rw [reported_eq,Bool.and_eq_true,decide_eq_true_eq] at h
  exact h.1

theorem undecided (hactive : requests.rows.any active=false)
    (hstate : c.stateOf id=some .collecting) : ¬Gate plans requests id c c := by
  intro h
  have hfails := h.fails hactive hstate
  have hparses := h.parses hactive hstate
  rw [hstate] at hfails hparses
  cases hany : requests.rows.any (untolerated plans) with
  | true => cases hfails.mpr hany
  | false => cases hparses.mpr hany

theorem gate_collecting (hactive : requests.rows.any active=false)
    (hstate : c.stateOf id=some .collecting) :
    Gate plans requests id c (finalizeEvidenceRun plans requests completedAt id c) ↔
      Planned plans requests ∧ id∈c.store.ingestion_collection_reservations ∧
        (requests.rows.any (untolerated plans)=true →
          firstCode reported requests=firstCode (untolerated plans) requests) := by
  obtain ⟨run,hrun,hcollecting⟩ := stateOf_some hstate
  have hisNone : (c.store.runs id).isNone=false := by rw [hrun]; rfl
  rw [finalizeEvidenceRun,hisNone]
  simp only [Bool.false_eq_true,if_false]
  by_cases hplanned : Planned plans requests
  swap
  · rw [verdict_unplanned hplanned]
    exact ⟨fun h => absurd h (undecided hactive hstate),fun h => absurd h.1 hplanned⟩
  rw [verdict_of_planned hplanned,hactive]
  simp only [Bool.false_eq_true,if_false,hplanned,true_and]
  by_cases hreserved : id∈c.store.ingestion_collection_reservations
  swap
  · obtain ⟨hfailing,hfinishing⟩ := @record_unreserved completedAt _ _
      ((firstCode reported requests).getD "source_evidence_failed") _ hrun hcollecting hreserved
    have hsame := @undecided plans _ _ _ hactive hstate
    split_ifs
    · dsimp only
      rw [hfailing]
      exact ⟨fun h => absurd h hsame,fun h => absurd h.1 hreserved⟩
    · rw [hfinishing]
      exact ⟨fun h => absurd h hsame,fun h => absurd h.1 hreserved⟩
  simp only [hreserved,true_and]
  cases hany : requests.rows.any (untolerated plans) with
  | false =>
    simp only [Bool.false_eq_true,if_false,false_implies,iff_true]
    have hparsing := @record_finishing completedAt _ _ _ hrun hcollecting hreserved
    refine ⟨?_,?_,?_,?_,?_⟩
    · intro h
      rw [hactive] at h
      cases h
    · intro _ _
      rw [hparsing,hany]
      simp
    · intro _ _ q hq
      have huntolerated := any_eq_false.mp hany q (firstOf_mem hq).1
      exact absurd (firstOf_mem hq).2 huntolerated
    · intro _ _
      rw [hparsing,hany]
      simp
    · intro _ hother
      exact absurd hstate hother
  | true =>
    obtain ⟨r,code,hr,hcode,hfirst⟩ := firstCode_some reported_failed
      (any_eq_true.mpr ((any_eq_true.mp hany).imp fun q h => ⟨h.1,untolerated_reported q h.2⟩))
    obtain ⟨q,code',hq,hcode',hfirst'⟩ := firstCode_some untolerated_failed hany
    rw [hfirst,hfirst']
    simp only [if_true,Option.getD_some,true_implies,Option.some.injEq]
    obtain ⟨hfailed,hfailure⟩ := @record_failing completedAt _ _ code _ hrun hcollecting
      hreserved
    constructor
    · intro h
      have hnames := h.names hactive hstate q hq
      rw [hfailure,hcode'] at hnames
      exact Option.some.inj hnames
    · rintro rfl
      refine ⟨?_,?_,?_,?_,?_⟩
      · intro h
        rw [hactive] at h
        cases h
      · intro _ _
        simp [hfailed,hany]
      · intro _ _ q' hq'
        obtain rfl := Option.some.inj (hq.symm.trans hq')
        rw [hfailure,hcode']
      · intro _ _
        simp [hfailed,hany]
      · intro _ hother
        exact absurd hstate hother

theorem gate_other (hactive : requests.rows.any active=false)
    (hstate : c.stateOf id≠some .collecting) :
    Gate plans requests id c (finalizeEvidenceRun plans requests completedAt id c) ↔
      (c.stateOf id=none ∨ ¬Planned plans requests ∨ c.plan.collection_completed_at≠none ∧
        (requests.rows.any (untolerated plans)=true → c.store.active_ingestion_run_id=some id →
          nextLiveIngestionReservation c.store=some id)) := by
  have hspared : ∀c',Gate plans requests id c c' ↔ c'.plan=c.plan ∧
      c'.store.ingestion_collection_reservations=c.store.ingestion_collection_reservations ∧
      c'.store.active_ingestion_run_id=c.store.active_ingestion_run_id := by
    intro c'
    constructor
    · exact fun h => h.spares hactive hstate
    · refine fun h => ⟨?_,fun _ hc => absurd hc hstate,fun _ hc => absurd hc hstate,
        fun _ hc => absurd hc hstate,fun _ _ => h⟩
      intro ha
      rw [hactive] at ha
      cases ha
  rw [hspared,finalizeEvidenceRun]
  cases hrun : c.store.runs id with
  | none =>
    have hnone : c.stateOf id=none := by rw [Collection.stateOf,hrun]; rfl
    simp [hnone]
  | some run =>
    have hsome : c.stateOf id≠none := by
      rw [Collection.stateOf,hrun]
      simp
    have hnot : run.state≠.collecting := by
      intro h
      apply hstate
      rw [Collection.stateOf,hrun,Option.map_some,h]
    by_cases hplanned : Planned plans requests
    swap
    · rw [verdict_unplanned hplanned]
      simp [hplanned]
    obtain ⟨hfailing,hfinishing⟩ := @record_other completedAt _ _
      ((firstCode reported requests).getD "source_evidence_failed") _ hrun hnot
    rw [verdict_of_planned hplanned,hactive]
    simp only [Option.isNone_some,Bool.false_eq_true,if_false,hsome,hplanned,not_true,false_or]
    cases hany : requests.rows.any (untolerated plans) with
    | false =>
      simp only [Bool.false_eq_true,if_false,hfinishing,false_implies,and_true]
      exact complete_same none c.plan
    | true =>
      simp only [if_true,hfailing,true_implies]
      rw [complete_same]
      by_cases hrunning : c.store.active_ingestion_run_id=some id
      · simp [hrunning]
      · simp [hrunning]

/-- The gate holds exactly where its condition does. -/
theorem finalization_gate (plans : List EvidencePlan) (requests : SourceRequests)
    (completedAt id : String) (c : Collection) : Gate plans requests id c
    (finalizeEvidenceRun plans requests completedAt id c) ↔ GateOpen plans requests id c := by
  rw [GateOpen]
  cases hactive : requests.rows.any active with
  | true =>
    have hsame : finalizeEvidenceRun plans requests completedAt id c=c := by
      rw [finalizeEvidenceRun]
      by_cases hplanned : Planned plans requests
      · simp [verdict_of_planned hplanned,hactive]
      · simp [verdict_unplanned hplanned]
    simp only [true_or,iff_true,hsame]
    refine ⟨fun _ => rfl,?_,?_,?_,?_⟩
    all_goals
      intro h
      rw [hactive] at h
      cases h
  | false =>
    simp only [Bool.false_eq_true,false_or]
    by_cases hstate : c.stateOf id=some .collecting
    · rw [gate_collecting hactive hstate]
      simp [hstate]
    · rw [gate_other hactive hstate]
      simp [hstate]

section Example

/-- The seed of an optional source and that of a required one. -/
def twoPlans : List EvidencePlan :=
  [⟨"extra",true,["extra:discovery"]⟩,⟨"base",false,["discovery"]⟩]

def outage : SourceRequest where
  request_id := "extra:discovery"
  sequence_number := 0
  state := .failed
  failure_code := some "source_request_rejected"
  request_role := .surface
  coded _ := rfl

def redirected : SourceRequest where
  request_id := "discovery"
  sequence_number := 1
  state := .failed
  failure_code := some "source_redirect_rejected"
  request_role := .surface
  coded _ := rfl

def observed : SourceRequest where
  request_id := "discovery"
  sequence_number := 1
  state := .observed
  failure_code := none
  request_role := .surface
  coded := by simp

def outageFirst : SourceRequests := ⟨[outage,redirected],by decide,by decide⟩

def outageOnly : SourceRequests := ⟨[outage,observed],by decide,by decide⟩

def holding (state : IngestionRunState) : Collection where
  store := {
    runs := fun k => if k="run" then some { state := state } else none
    ingestion_collection_reservations := ["run"]
    active_ingestion_run_id := some "run" }
  plan := ⟨none,none⟩

/-- The failed run names the tolerated outage, and a run paused before the batch gets the
completion of a collection that goes on. -/
theorem finalization_gate_broken :
    ¬Gate twoPlans outageFirst "run" (holding .collecting)
      (finalizeEvidenceRun twoPlans outageFirst "now" "run" (holding .collecting)) ∧
    ¬Gate twoPlans outageOnly "run" (holding .paused)
      (finalizeEvidenceRun twoPlans outageOnly "now" "run" (holding .paused)) := by
  constructor
  · intro h
    have hfirst : firstOf (untolerated twoPlans) outageFirst=some redirected := by rfl
    have hname := h.names (by decide) rfl redirected hfirst
    have hcode : (finalizeEvidenceRun twoPlans outageFirst "now" "run"
        (holding .collecting)).failureOf "run"=some "source_request_rejected" := by decide
    rw [hcode] at hname
    exact absurd hname (by decide)
  · intro h
    have hplan := (h.spares (by decide) (by decide)).1
    have hcomplete : (finalizeEvidenceRun twoPlans outageOnly "now" "run"
        (holding .paused)).plan=⟨some "now",none⟩ := by decide
    rw [hcomplete] at hplan
    exact absurd hplan (by decide)

end Example
end CardKeepr.SourceEvidence.Finalization
