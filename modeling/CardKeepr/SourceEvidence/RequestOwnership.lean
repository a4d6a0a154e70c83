import CardKeepr.SourceEvidence.EvidencePlans
import CardKeepr.Shared.Sha256
import Mathlib.Algebra.Order.BigOperators.Group.List
import Mathlib.Algebra.Order.Group.Nat
import Mathlib.Data.List.Flatten

namespace CardKeepr.SourceEvidence.Plans

open Lib List

variable {subset lineage : String}

-- Which plan owns a Source Request: the look-up over the whole plan document, the SQL predicate
-- of one game's preparation, and the look-up over that game's document.

/-- `request_plan_json`: one plan as it is, several under `plans`. -/
inductive PlanDocument where
  | plan (p : EvidencePlan)
  | plans (ps : List EvidencePlan)

def planDocument : List EvidencePlan → PlanDocument
  | [p] => .plan p
  | ps => .plans ps

def parseEvidencePlans : PlanDocument → Except Failure (List EvidencePlan)
  | .plan p => .ok [p]
  | .plans [] => .error (.error "Stored ingestion evidence plan is invalid")
  | .plans ps => .ok ps

def EvidencePlan.roots (plan : EvidencePlan) : List String := plan.requests.map (·.id)

def evidencePlanForRequest (document : PlanDocument) (requestId : String) :
    Except Failure EvidencePlan := do
  let plans ← parseEvidencePlans document
  match soleOwner (fun plan => plan.roots.contains requestId)
    (fun plan => plan.source_lineage=lineagePart requestId) plans with
  | some plan => .ok plan
  | none => .error (.error
      ("Source Request "++requestId++" does not have exactly one Evidence Plan."))

def evidencePlansSql : PlanDocument → List EvidencePlan
  | .plan p => [p]
  | .plans ps => ps

/-- `substr(id, 1, instr(id, ':') - 1)`, which is empty where there is no colon. -/
def sqlLineagePart (requestId : String) : String :=
  if ':'∈requestId.toList then lineagePart requestId else ""

/-- The predicate of a preparation for `game`; an operation without a game takes every request. -/
def requestInPreparationGame (document : PlanDocument) (game : Option String)
    (requestId : String) : Bool :=
  match game with
  | none => true
  | some game =>
    (evidencePlansSql document).any fun selected =>
      selected.supported_game=game && (selected.roots.contains requestId ||
        (selected.source_lineage=sqlLineagePart requestId &&
          !(evidencePlansSql document).any fun any_plan => any_plan.roots.contains requestId))

def reconciliationEvidencePlan (document : PlanDocument) (game : Option String) : PlanDocument :=
  match game with
  | none => document
  | some game => .plans ((evidencePlansSql document).filter (·.supported_game=game))

structure DiscoveredEvidenceRequest where
  role : DiscoveredRole
  discoveryKey : Option String
  url : String
  headers : Headers

/-- `/^[a-z0-9]+(?:-[a-z0-9]+)*$/`. -/
def isDiscoveryKey (key : String) : Bool :=
  (key.toList.splitOn '-').all fun word =>
    !word.isEmpty && word.all fun c => ('a' ≤ c && c ≤ 'z') || ('0' ≤ c && c ≤ '9')

/-- A row of `source_requests`, with the lineage under which it was written. -/
structure HeldRequest where
  id : String
  lineage : String

section Requests

variable (platform : Platform)

/-- The identity `appendDiscoveredEvidenceRequests` gives one claim. -/
def discoveredRequestId (lineage : String) (request : DiscoveredEvidenceRequest) :
    Except Failure String := do
  demand (request.discoveryKey.all isDiscoveryKey) (.problem 422 "source_discovery_failed"
    "The Official Source discovery stage identity is invalid.")
  let url ← hrefOf platform request.url
  assertBoundedOfficialSourceRequest platform url request.headers true
  let digest :=
    platform.discoveryDigest lineage request.role request.discoveryKey url request.headers
  .ok (lineage++":"++match request.discoveryKey with
    | none => request.role.text++":"++digest
    | some key => request.role.text++":"++key++":"++digest)

/-- The lineage and the identities of what a parent's parse claims to have found. -/
def discoveredRequestIds (document : PlanDocument) (parent : String)
    (claims : List DiscoveredEvidenceRequest) : Except Failure (String × List String) := do
  let plan ← evidencePlanForRequest document parent
  let registered ← requiredSourceAdapter plan.adapter_version
  let adapter ← sourceAdapterForCoverage registered plan.coverage.subset
  let discovered := claims.filter fun request =>
    adapter.acquiredDiscoveryRoles.all (·.contains request.role)
  let ids ← discovered.mapM (discoveredRequestId platform plan.source_lineage)
  .ok (plan.source_lineage,ids)

/-- The lineage and the identities of the Collection Plan a discovery parent completes. -/
def collectionRequestIds (document : PlanDocument) (parent : String) :
    Except Failure (String × List String) := do
  let plan ← evidencePlanForRequest document parent
  let registered ← requiredSourceAdapter plan.adapter_version
  let adapter ← sourceAdapterForCoverage registered plan.coverage.subset
  match adapter.requestUrlForDiscovery,adapter.surfaces with
  | some _,some surfaces =>
    .ok (plan.source_lineage,surfaces.map fun surface => plan.source_lineage++":"++surface.1)
  | _,_ => .error (.error
      "The Source Adapter has no complete Official Source discovery contract.")

/-- `INSERT OR IGNORE`: an identity that is held keeps its row. -/
def insertIgnoring (lineage : String) (held : List HeldRequest) (id : String) : List HeldRequest :=
  if held.any (·.id=id) then held else held++[⟨id,lineage⟩]

def plannedRequests (plans : List EvidencePlan) : List HeldRequest :=
  plans.flatMap fun plan => plan.roots.map (⟨·,plan.source_lineage⟩)

/-- The rows of `source_requests` of a run over `plans`, after any number of discoveries. Which of
the identities of a batch are admitted is left to the selection and the capacity of the plan. -/
inductive Holds (plans : List EvidencePlan) : List HeldRequest → Prop
  | planned : Holds plans (plannedRequests plans)
  | discovered {held : List HeldRequest} {parent : HeldRequest}
      {claims : List DiscoveredEvidenceRequest} {lineage : String} {ids admitted : List String}
      (before : Holds plans held) (holds : parent∈held)
      (found : discoveredRequestIds platform (planDocument plans) parent.id claims=
        .ok (lineage,ids))
      (chosen : admitted.Sublist ids) :
      Holds plans (admitted.foldl (insertIgnoring lineage) held)
  | collected {held : List HeldRequest} {parent : HeldRequest} {lineage : String}
      {ids : List String} (before : Holds plans held) (holds : parent∈held)
      (found : collectionRequestIds (planDocument plans) parent.id=.ok (lineage,ids))
      (fresh : ∀id∈ids,id∉held.map (·.id)) :
      Holds plans (held++ids.map (⟨·,lineage⟩))

end Requests

/-- The request belongs to one plan, that of its lineage, and to the game of that plan. -/
def Owned (plans : List EvidencePlan) (request : HeldRequest) : Prop :=
  ∃plan,evidencePlanForRequest (planDocument plans) request.id=.ok plan ∧
    plan.source_lineage=request.lineage ∧
    (∀game,requestInPreparationGame (planDocument plans) (some game) request.id=true ↔
      game=plan.supported_game) ∧
    evidencePlanForRequest (reconciliationEvidencePlan (planDocument plans)
      (some plan.supported_game)) request.id=.ok plan

theorem filter_owner {α β : Type} [DecidableEq β] {f : α → List β} {as : List α} {a : α} {x : β}
    (hnodup : (as.flatMap f).Nodup) (ha : a∈as) (hx : x∈f a) :
    as.filter (fun a => (f a).contains x)=[a] := by
  induction as with
  | nil => cases ha
  | cons b as ih =>
    rw [flatMap_cons,nodup_append] at hnodup
    obtain ⟨-,hrest,hapart⟩ := hnodup
    rcases mem_cons.mp ha with rfl | ha
    · have hnone : as.filter (fun a => (f a).contains x)=[] := by
        rw [filter_eq_nil_iff]
        intro c hc hin
        exact hapart x hx x (mem_flatMap.mpr ⟨c,hc,by simpa using hin⟩) rfl
      rw [filter_cons_of_pos (by simpa using hx),hnone]
    · have hb : ¬(f b).contains x=true := by
        intro hin
        exact hapart x (by simpa using hin) x (mem_flatMap.mpr ⟨a,ha,hx⟩) rfl
      rw [filter_cons,if_neg hb]
      exact ih hrest ha

theorem parse_planDocument {plans : List EvidencePlan} (h : plans≠[]) :
    parseEvidencePlans (planDocument plans)=.ok plans := by
  match plans,h with
  | [_],_ => rfl
  | _::_::_,_ => rfl

theorem sql_planDocument (plans : List EvidencePlan) :
    evidencePlansSql (planDocument plans)=plans := by
  match plans with
  | [] => rfl
  | [_] => rfl
  | _::_::_ => rfl

section Lookup

variable {document : PlanDocument} {plans : List EvidencePlan} {plan : EvidencePlan} {id : String}

theorem lookup_iff (hparse : parseEvidencePlans document=.ok plans) :
    evidencePlanForRequest document id=.ok plan ↔
      plans.filter (fun plan => plan.roots.contains id)=[plan] ∨
      plans.filter (fun plan => plan.roots.contains id)=[] ∧
        plans.filter (fun plan => plan.source_lineage=lineagePart id)=[plan] := by
  rw [evidencePlanForRequest,hparse,ok_bind,←soleOwner_some]
  cases soleOwner _ _ plans with
  | none => simp
  | some p => exact ⟨fun h => congrArg some (Except.ok.inj h),fun h => congrArg _ (Option.some.inj h)⟩

theorem lookup_root (hparse : parseEvidencePlans document=.ok plans)
    (hnodup : (rootIds plans).Nodup) (hplan : plan∈plans) (hid : id∈plan.roots) :
    evidencePlanForRequest document id=.ok plan :=
  (lookup_iff hparse).mpr (.inl (filter_owner hnodup hplan hid))

theorem not_root_filter (hid : id∉rootIds plans) :
    plans.filter (fun plan => plan.roots.contains id)=[] := by
  rw [filter_eq_nil_iff]
  intro p hp hin
  exact hid (mem_flatMap.mpr ⟨p,hp,by simpa [EvidencePlan.roots] using hin⟩)

theorem lookup_dynamic (hparse : parseEvidencePlans document=.ok plans) (hid : id∉rootIds plans)
    (hone : plans.filter (fun plan => plan.source_lineage=lineagePart id)=[plan]) :
    evidencePlanForRequest document id=.ok plan :=
  (lookup_iff hparse).mpr (.inr ⟨not_root_filter hid,hone⟩)

theorem lookup_dynamic_iff (hparse : parseEvidencePlans document=.ok plans)
    (hid : id∉rootIds plans) : evidencePlanForRequest document id=.ok plan ↔ plans.filter
    (fun plan => plan.source_lineage=lineagePart id)=[plan] := by
  refine ⟨fun h => ?_,lookup_dynamic hparse hid⟩
  obtain h | ⟨-,h⟩ := (lookup_iff hparse).mp h
  · rw [not_root_filter hid] at h
    cases h
  · exact h

theorem lookup_ok (hparse : parseEvidencePlans document=.ok plans)
    (h : evidencePlanForRequest document id=.ok plan) : plan∈plans := by
  obtain h | ⟨-,h⟩ := (lookup_iff hparse).mp h
  all_goals
    have hmem := mem_singleton_self plan
    rw [←h] at hmem
    exact mem_of_mem_filter hmem

end Lookup

theorem lineagePart_append (h : ':'∉lineage.toList) (rest : String) :
    lineagePart (lineage++":"++rest)=lineage := by
  have htake : (lineage.toList++ ':'::rest.toList).takeWhile (·≠ ':')=lineage.toList := by
    rw [takeWhile_append_of_pos]
    · simp
    · intro c hc
      simp only [ne_eq,decide_not,Bool.not_eq_eq_eq_not,Bool.not_true,decide_eq_false_iff_not]
      rintro rfl
      exact h hc
  rw [lineagePart,String.toList_append,String.toList_append]
  show String.ofList ((lineage.toList++[':']++rest.toList).takeWhile _)=lineage
  rw [append_assoc]
  exact (congrArg String.ofList htake).trans (String.ofList_toList)

theorem sqlLineagePart_append (h : ':'∉lineage.toList) (rest : String) :
    sqlLineagePart (lineage++":"++rest)=lineage := by
  rw [sqlLineagePart,if_pos,lineagePart_append h]
  simp

theorem registered_lineages :
    ∀a∈installedSourceAdapterRegistrations,':'∉a.sourceLineage.toList := by decide

/-- Where a held request comes from: it is a root of a plan of its lineage, or its identity was
made from the lineage of a plan and is no root. -/
def Derived (plans : List EvidencePlan) (request : HeldRequest) : Prop :=
  ∃plan∈plans,plan.source_lineage=request.lineage ∧ (request.id∈plan.roots ∨
    request.id∉rootIds plans ∧ ∃rest,request.id=request.lineage++":"++rest)

theorem mem_insertIgnoring {id : String} {held : List HeldRequest} {r : HeldRequest}
    (h : r∈insertIgnoring lineage held id) : r∈held ∨ r=⟨id,lineage⟩ ∧ id∉held.map (·.id) := by
  unfold insertIgnoring at h
  split at h
  · exact .inl h
  · rename_i hnew
    rcases mem_append.mp h with h | h
    · exact .inl h
    · refine .inr ⟨mem_singleton.mp h,?_⟩
      simpa using hnew

theorem subset_insertIgnoring (lineage id : String) (held : List HeldRequest) :
    held ⊆ insertIgnoring lineage held id := by
  intro r hr
  unfold insertIgnoring
  split
  · exact hr
  · exact mem_append_left _ hr

theorem subset_insertAll (lineage : String) (ids : List String) (held : List HeldRequest) :
    held ⊆ ids.foldl (insertIgnoring lineage) held := by
  induction ids generalizing held with
  | nil => exact fun r hr => hr
  | cons id ids ih => exact fun r hr => ih _ (subset_insertIgnoring lineage id held hr)

theorem mem_insertAll {ids : List String} {held : List HeldRequest}
    {r : HeldRequest} (h : r∈ids.foldl (insertIgnoring lineage) held) :
    r∈held ∨ r.lineage=lineage ∧ r.id∈ids ∧ r.id∉held.map (·.id) := by
  induction ids generalizing held with
  | nil => exact .inl h
  | cons id ids ih =>
    rcases ih h with h | ⟨hlineage,hid,hnew⟩
    · rcases mem_insertIgnoring h with h | ⟨rfl,hnew⟩
      · exact .inl h
      · exact .inr ⟨rfl,mem_cons_self,hnew⟩
    · refine .inr ⟨hlineage,mem_cons_of_mem _ hid,?_⟩
      intro hin
      exact hnew (map_subset _ (subset_insertIgnoring lineage id held) hin)

section Runs

variable {platform : Platform} {plans : List EvidencePlan}
variable {parent lineage : String}

theorem discoveredRequestId_ok {id : String} {request : DiscoveredEvidenceRequest}
    (h : discoveredRequestId platform lineage request=.ok id) : ∃rest,id=lineage++":"++rest := by
  unfold discoveredRequestId at h
  obtain ⟨_,-,h⟩ := bind_ok h
  obtain ⟨url,-,h⟩ := bind_ok h
  obtain ⟨_,-,h⟩ := bind_ok h
  exact ⟨_,(Except.ok.inj h).symm⟩

theorem discoveredRequestIds_ok (hne : plans≠[]) {ids : List String}
    {claims : List DiscoveredEvidenceRequest}
    (h : discoveredRequestIds platform (planDocument plans) parent claims=.ok (lineage,ids)) :
    (∃plan∈plans,plan.source_lineage=lineage) ∧ ∀id∈ids,∃rest,id=lineage++":"++rest := by
  unfold discoveredRequestIds at h
  obtain ⟨plan,hplan,h⟩ := bind_ok h
  obtain ⟨registered,-,h⟩ := bind_ok h
  obtain ⟨adapter,-,h⟩ := bind_ok h
  obtain ⟨found,hfound,h⟩ := bind_ok h
  obtain ⟨rfl,rfl⟩ := Prod.mk.inj (Except.ok.inj h)
  refine ⟨⟨plan,lookup_ok (parse_planDocument hne) hplan,rfl⟩,?_⟩
  intro id hid
  obtain ⟨request,-,hrequest⟩ := mapM_ok_mem hfound hid
  exact discoveredRequestId_ok hrequest

theorem collectionRequestIds_ok (hne : plans≠[]) {ids : List String}
    (h : collectionRequestIds (planDocument plans) parent=.ok (lineage,ids)) :
    (∃plan∈plans,plan.source_lineage=lineage) ∧ ∀id∈ids,∃rest,id=lineage++":"++rest := by
  unfold collectionRequestIds at h
  obtain ⟨plan,hplan,h⟩ := bind_ok h
  obtain ⟨registered,-,h⟩ := bind_ok h
  obtain ⟨adapter,-,h⟩ := bind_ok h
  split at h
  · obtain ⟨rfl,rfl⟩ := Prod.mk.inj (Except.ok.inj h)
    refine ⟨⟨plan,lookup_ok (parse_planDocument hne) hplan,rfl⟩,?_⟩
    intro id hid
    obtain ⟨surface,-,rfl⟩ := mem_map.mp hid
    exact ⟨surface.1,rfl⟩
  · cases h

theorem planned_ids (plans : List EvidencePlan) :
    (plannedRequests plans).map (·.id)=rootIds plans := by
  simp only [plannedRequests,rootIds,EvidencePlan.roots,map_flatMap,map_map]
  rfl

theorem Derived.of_new {held : List HeldRequest} {r : HeldRequest}
    (hroots : plannedRequests plans ⊆ held) (hplan : ∃plan∈plans,plan.source_lineage=r.lineage)
    (hid : ∃rest,r.id=r.lineage++":"++rest) (hnew : r.id∉held.map (·.id)) : Derived plans r := by
  obtain ⟨plan,hmem,hlineage⟩ := hplan
  refine ⟨plan,hmem,hlineage,.inr ⟨?_,hid⟩⟩
  intro hroot
  rw [← planned_ids] at hroot
  exact hnew (map_subset _ hroots hroot)

theorem Holds.derived (hne : plans≠[]) {held : List HeldRequest} (h : Holds platform plans held) :
    plannedRequests plans ⊆ held ∧ ∀r∈held,Derived plans r := by
  induction h with
  | planned =>
    refine ⟨fun r hr => hr,?_⟩
    intro r hr
    obtain ⟨plan,hplan,hr⟩ := mem_flatMap.mp hr
    obtain ⟨id,hid,rfl⟩ := mem_map.mp hr
    exact ⟨plan,hplan,rfl,.inl hid⟩
  | @discovered held parent claims lineage ids admitted before hparent found chosen ih =>
    obtain ⟨hplan,hids⟩ := discoveredRequestIds_ok hne found
    refine ⟨fun r hr => subset_insertAll _ _ _ (ih.1 hr),?_⟩
    intro r hr
    rcases mem_insertAll hr with hr | ⟨rfl,hid,hnew⟩
    · exact ih.2 r hr
    · exact .of_new ih.1 hplan (hids r.id (chosen.subset hid)) hnew
  | @collected held parent lineage ids before hparent found fresh ih =>
    obtain ⟨hplan,hids⟩ := collectionRequestIds_ok hne found
    refine ⟨fun r hr => mem_append_left _ (ih.1 hr),?_⟩
    intro r hr
    rcases mem_append.mp hr with hr | hr
    · exact ih.2 r hr
    · obtain ⟨id,hid,rfl⟩ := mem_map.mp hr
      exact .of_new ih.1 hplan (hids id hid) (fresh id hid)

end Runs

section Ownership

variable {plans : List EvidencePlan}

theorem requestInPreparationGame_iff {game id : String} : requestInPreparationGame
    (planDocument plans) (some game) id=true ↔ ∃selected∈plans,selected.supported_game=game ∧
    (id∈selected.roots ∨ selected.source_lineage=sqlLineagePart id ∧ id∉rootIds plans) := by
  have hroot : (plans.any fun plan => plan.roots.contains id)=false ↔ id∉rootIds plans := by
    simp [rootIds,EvidencePlan.roots]
  simp only [requestInPreparationGame,sql_planDocument,any_eq_true,Bool.and_eq_true,
    Bool.or_eq_true,decide_eq_true_eq,contains_iff_mem,Bool.not_eq_true',hroot]

theorem root_owner {plan other : EvidencePlan} {id : String} (hnodup : (rootIds plans).Nodup)
    (hplan : plan∈plans) (hid : id∈plan.roots) (hother : other∈plans) (hin : id∈other.roots) :
    other=plan := by
  have hone : plans.filter (fun plan => plan.roots.contains id)=[plan] :=
    filter_owner hnodup hplan hid
  have hmem : other∈plans.filter (fun plan => plan.roots.contains id) :=
    mem_filter.mpr ⟨hother,by simpa using hin⟩
  rw [hone] at hmem
  exact mem_singleton.mp hmem

theorem lineage_owner {plan : EvidencePlan} (hnodup : (plans.map (·.source_lineage)).Nodup)
    (hplan : plan∈plans) :
    plans.filter (fun other => other.source_lineage=plan.source_lineage)=[plan] := by
  have hflat : (plans.flatMap fun plan => [plan.source_lineage]).Nodup := by
    rwa [← map_eq_flatMap]
  have hone := filter_owner hflat hplan (mem_singleton_self plan.source_lineage)
  rw [← hone]
  congr 1
  funext other
  simp [eq_comm]

theorem rootIds_sublist {plans others : List EvidencePlan} (h : others.Sublist plans) :
    (rootIds others).Sublist (rootIds plans) := h.flatMap _

theorem owned_of_derived (hdistinct : (rootIds plans).Nodup)
    (hlineages : (plans.map (·.source_lineage)).Nodup)
    (hcolon : ∀plan∈plans,':'∉plan.source_lineage.toList) {r : HeldRequest}
    (h : Derived plans r) : Owned plans r := by
  obtain ⟨plan,hplan,hlineage,hroot⟩ := h
  have hne : plans≠[] := ne_nil_of_mem hplan
  have hgame : plan∈plans.filter (·.supported_game=plan.supported_game) :=
    mem_filter.mpr ⟨hplan,by simp⟩
  have hsub : (plans.filter (·.supported_game=plan.supported_game)).Sublist plans :=
    filter_sublist
  have hparse : parseEvidencePlans (reconciliationEvidencePlan (planDocument plans)
      (some plan.supported_game))=.ok (plans.filter (·.supported_game=plan.supported_game)) := by
    rw [reconciliationEvidencePlan,sql_planDocument]
    cases hf : plans.filter (·.supported_game=plan.supported_game) with
    | nil => simp [hf] at hgame
    | cons p ps => rfl
  refine ⟨plan,?_⟩
  rcases hroot with hroot | ⟨hfree,rest,hid⟩
  · refine ⟨lookup_root (parse_planDocument hne) hdistinct hplan hroot,hlineage,?_,
      lookup_root hparse (hdistinct.sublist (rootIds_sublist hsub)) hgame hroot⟩
    intro game
    rw [requestInPreparationGame_iff]
    constructor
    · rintro ⟨selected,hselected,rfl,hin | ⟨-,hnot⟩⟩
      · rw [root_owner hdistinct hplan hroot hselected hin]
      · exact absurd (mem_flatMap.mpr ⟨plan,hplan,hroot⟩) hnot
    · rintro rfl
      exact ⟨plan,hplan,rfl,.inl hroot⟩
  · have hpart : lineagePart r.id=plan.source_lineage := by
      rw [hid,← hlineage]
      exact lineagePart_append (hcolon plan hplan) rest
    have hsql : sqlLineagePart r.id=plan.source_lineage := by
      rw [hid,← hlineage]
      exact sqlLineagePart_append (hcolon plan hplan) rest
    refine ⟨lookup_dynamic (parse_planDocument hne) hfree ?_,hlineage,?_,
      lookup_dynamic hparse (fun hin => hfree ((rootIds_sublist hsub).subset hin)) ?_⟩
    · rw [hpart]
      exact lineage_owner hlineages hplan
    · intro game
      rw [requestInPreparationGame_iff]
      constructor
      · rintro ⟨selected,hselected,rfl,hin | ⟨hsame,-⟩⟩
        · exact absurd (mem_flatMap.mpr ⟨selected,hselected,hin⟩) hfree
        · rw [hsql] at hsame
          rw [inj_on_of_nodup_map hlineages hselected hplan hsame]
      · rintro rfl
        exact ⟨plan,hplan,rfl,.inr ⟨hsql.symm,hfree⟩⟩
    · rw [hpart]
      exact lineage_owner (hlineages.sublist (hsub.map _)) hgame

end Ownership

theorem registered_listings : ∀a∈installedSourceAdapterRegistrations,a.acquiredDiscoveryRoles=none ∧
      ∀c∈a.coverageContracts.getD [],c.2.acquiredDiscoveryRoles.all (·.contains .listing)=true := by
  decide

theorem coverageContract_cases {contracts : Option (List (String × CoverageContract))} {contract : CoverageContract}
    (h : coverageContract contracts subset=some contract) :
    (subset,contract)∈contracts.getD [] ∨ subset∈inheritedMembers ∧ contract={} := by
  cases contracts with
  | none => cases h
  | some table =>
    rw [coverageContract,Option.bind_some] at h
    split at h
    · rename_i found
      obtain ⟨before,after,hsplit,-⟩ := lookup_eq_some_iff.mp found
      rw [← Option.some.inj h]
      left
      simp [hsplit]
    · split at h
      · rename_i hin
        exact .inr ⟨hin,(Option.some.inj h).symm⟩
      · cases h

theorem covered_listings {registered covered : SourceAdapterRegistration}
    (hin : registered∈installedSourceAdapterRegistrations)
    (h : sourceAdapterForCoverage registered subset=.ok covered) :
    covered.acquiredDiscoveryRoles.all (·.contains .listing)=true := by
  obtain ⟨hnone,hcontracts⟩ := registered_listings registered hin
  unfold sourceAdapterForCoverage at h
  split at h
  · rw [← Except.ok.inj h,hnone]
    rfl
  · split at h
    · cases h
    · rename_i contract hcontract
      rw [← Except.ok.inj h]
      show (contract.acquiredDiscoveryRoles.orElse fun _ => registered.acquiredDiscoveryRoles).all
        (·.contains .listing)=true
      rw [hnone]
      rcases coverageContract_cases hcontract with hmem | ⟨-,rfl⟩
      · have hall := hcontracts _ hmem
        cases hroles : contract.acquiredDiscoveryRoles with
        | none => rfl
        | some roles => simpa [hroles] using hall
      · rfl

section Discovery

variable {platform : Platform} {inputs : List EvidencePlanInput} {plans : List EvidencePlan}

def longKey (plans : List EvidencePlan) : String :=
  String.ofList (List.replicate (((rootIds plans).map String.length).sum+1) 'a')

theorem longKey_key (plans : List EvidencePlan) : isDiscoveryKey (longKey plans)=true := by
  have hsplit : (longKey plans).toList.splitOn '-'=[(longKey plans).toList] := by
    apply splitOnP_eq_singleton
    intro c hc
    have hc : c= 'a' := by
      rw [longKey,String.toList_ofList] at hc
      exact eq_of_mem_replicate hc
    rw [hc]
    rfl
  rw [isDiscoveryKey,hsplit]
  simp [longKey]

theorem longKey_length (plans : List EvidencePlan) {id : String} (h : id∈rootIds plans) :
    id.length<(longKey plans).length := by
  have hle : id.length ≤ ((rootIds plans).map String.length).sum :=
    le_sum_of_mem (mem_map_of_mem h)
  have hkey : (longKey plans).length=((rootIds plans).map String.length).sum+1 := by
    simp [longKey]
  omega

theorem Accepts.valid_mem (h : Accepts platform inputs plans) {plan : EvidencePlan}
    (hplan : plan∈plans) : ∃input,plan.Valid platform input := by
  obtain ⟨hvalid,-,-⟩ := h
  induction hvalid with
  | nil => cases hplan
  | cons hhead _ ih =>
    rcases mem_cons.mp hplan with rfl | hplan
    · exact ⟨_,hhead⟩
    · exact ih hplan

theorem Accepts.discovers (h : Accepts platform inputs plans) {plan : EvidencePlan}
    (hplan : plan∈plans) :
    ∃held rest,Holds platform plans held ∧
      ⟨plan.source_lineage++":"++rest,plan.source_lineage⟩∈held ∧
      plan.source_lineage++":"++rest∉rootIds plans := by
  obtain ⟨input,hvalid⟩ := h.valid_mem hplan
  obtain ⟨registered,hinstalled,covered,hregistered,hcovered,-,-⟩ := hvalid.adapter
  obtain ⟨request,more,hrequests⟩ := exists_cons_of_ne_nil hvalid.some_request
  have hrequest : request∈plan.requests := by simp [hrequests]
  have hroot : request.id∈plan.roots := mem_map_of_mem hrequest
  obtain ⟨text,url,hurl,hhref,hbound⟩ := hvalid.checked request hrequest
  let claim : DiscoveredEvidenceRequest := ⟨.listing,some (longKey plans),text,request.headers⟩
  let digest := platform.discoveryDigest plan.source_lineage .listing (some (longKey plans))
    url.href request.headers
  let rest := "listing"++":"++longKey plans++":"++digest
  have hid : discoveredRequestId platform plan.source_lineage claim=
      .ok (plan.source_lineage++":"++rest) := by
    have hbound : assertBoundedOfficialSourceRequest platform url.href request.headers true=.ok () := by
      rw [hhref]
      exact bounded_again hbound
    simp only [discoveredRequestId,claim,Option.all_some,longKey_key,demand_true,ok_bind,hrefOf,
      hurl,hbound]
    rfl
  have hfound : discoveredRequestIds platform (planDocument plans) request.id [claim]=
      .ok (plan.source_lineage,[plan.source_lineage++":"++rest]) := by
    have hlookup := lookup_root (parse_planDocument (ne_nil_of_mem hplan)) h.distinct hplan
      hroot
    have hkept : [claim].filter (fun request =>
        covered.acquiredDiscoveryRoles.all (·.contains request.role))=[claim] := by
      rw [filter_cons,if_pos (covered_listings hinstalled hcovered)]
      rfl
    rw [discoveredRequestIds,hlookup,ok_bind,hregistered,ok_bind,hcovered,ok_bind,hkept]
    show ([claim].mapM _ >>= _)=_
    rw [mapM_cons,hid]
    rfl
  have hlong : plan.source_lineage++":"++rest∉rootIds plans := by
    intro hin
    have hlt := longKey_length plans hin
    simp only [rest,String.length_append] at hlt
    omega
  have hparent : ⟨request.id,plan.source_lineage⟩∈plannedRequests plans :=
    mem_flatMap.mpr ⟨plan,hplan,mem_map_of_mem hroot⟩
  refine ⟨_,rest,.discovered .planned hparent hfound (List.Sublist.refl _),?_,hlong⟩
  have hnew : (plannedRequests plans).any (·.id=plan.source_lineage++":"++rest)=false := by
    rw [any_eq_false]
    intro r hr heq
    apply hlong
    rw [← planned_ids,← of_decide_eq_true heq]
    exact mem_map_of_mem hr
  rw [foldl_cons,foldl_nil,insertIgnoring,hnew]
  simp

end Discovery

section Claim

variable {platform : Platform} {inputs : List EvidencePlanInput} {plans : List EvidencePlan}

theorem Accepts.no_colon (h : Accepts platform inputs plans) :
    ∀plan∈plans,':'∉plan.source_lineage.toList := by
  intro plan hplan
  obtain ⟨input,hvalid⟩ := h.valid_mem hplan
  obtain ⟨registered,hinstalled,-,-,-,hlineage,-⟩ := hvalid.adapter
  rw [hlineage]
  exact registered_lineages registered hinstalled

theorem nodup_of_owners
    (h : ∀plan∈plans,∃owner,plans.filter (·.source_lineage=plan.source_lineage)=[owner]) :
    (plans.map (·.source_lineage)).Nodup := by
  rw [nodup_iff_count_le_one]
  intro lineage
  by_cases hin : lineage∈plans.map (·.source_lineage)
  · obtain ⟨plan,hplan,rfl⟩ := mem_map.mp hin
    obtain ⟨owner,howner⟩ := h plan hplan
    have hcount : (plans.map (·.source_lineage)).count plan.source_lineage=
        (plans.filter (·.source_lineage=plan.source_lineage)).length := by
      rw [List.count,countP_map,countP_eq_length_filter]
      congr 2
    rw [hcount,howner]
    simp
  · rw [count_eq_zero_of_not_mem hin]
    omega

/-- Every request a run over accepted plans can hold belongs to one plan and one game exactly
when the plans name distinct lineages. -/
theorem requests_owned_iff {key : String} (h : validateEvidencePlans platform key inputs=.ok plans) :
    (∀held,Holds platform plans held → ∀r∈held,Owned plans r) ↔
      (inputs.map (·.source_lineage)).Nodup := by
  obtain ⟨haccepts,hsome⟩ := validateEvidencePlans_ok h
  have hne : plans≠[] := by
    rintro rfl
    exact hsome (map_eq_nil_iff.mp haccepts.lineages.symm)
  rw [← haccepts.lineages]
  constructor
  · intro howned
    apply nodup_of_owners
    intro plan hplan
    obtain ⟨held,rest,hholds,hmem,hfree⟩ := haccepts.discovers hplan
    obtain ⟨owner,hlookup,-⟩ := howned held hholds _ hmem
    rw [lookup_dynamic_iff (parse_planDocument hne) hfree,
      lineagePart_append (haccepts.no_colon plan hplan)] at hlookup
    exact ⟨owner,hlookup⟩
  · intro hlineages held hholds r hr
    exact owned_of_derived haccepts.distinct hlineages haccepts.no_colon
      ((hholds.derived hne).2 r hr)

end Claim

section Example

open Shared

def quoted (text : String) : String := "\""++text++"\""
def recordText (members : List (String × String)) : String :=
  "\x7b"++",".intercalate (members.map fun m => quoted m.1++":"++m.2)++"\x7d"
def headersText (headers : Headers) : String :=
  recordText (headers.map fun h => (h.1,quoted h.2))
def digestText (text : String) : String :=
  String.ofList ((sha256Text (js text.toList)).map fun u => Char.ofNat u.toNat)

/-- The platform on plain texts: nothing to escape, URLs in normal form. -/
def plainPlatform : Platform where
  url text := if "https://".isPrefixOf text then some ⟨text,"https:","","",""⟩ else none
  headersJson := headersText
  representationFingerprint url headers := digestText (recordText
    [("headers",headersText headers),("method",quoted "GET"),("url",quoted url)])
  discoveryDigest lineage role key url headers := digestText (recordText
    [("discovery_key",(key.map quoted).getD "null"),("headers",headersText headers),
      ("method",quoted "GET"),("role",quoted role.text),("source_lineage",quoted lineage),
      ("url",quoted url)])

section
variable (a : SourceAdapterRegistration)

def planInput (subset : Option String) (id url : String) : EvidencePlanInput where
  subset := subset
  supported_game := a.supportedGame
  source_lineage := a.sourceLineage
  adapter_version := a.adapterVersion
  requests := [{ id := id,url := url }]

def onePlan (subset id url : String) : EvidencePlan where
  participation := .required
  coverage := ⟨"catalogue",subset⟩
  supported_game := a.supportedGame
  source_lineage := a.sourceLineage
  game_profile_version := a.gameProfileVersion
  adapter_version := a.adapterVersion
  requests := [⟨id,url,[],plainPlatform.representationFingerprint url []⟩]
  discovery_selection := none

end

def plainUrl (url : String) : Url := ⟨url,"https:","","",""⟩

theorem assertRoots_digest {platform : Platform} {adapter : SourceAdapterRegistration}
    {id url : String} {headers : Headers} (d e : String) : assertRoots platform adapter
    [⟨id,url,headers,d⟩]= assertRoots platform adapter [⟨id,url,headers,e⟩] := by
  unfold assertRoots
  rfl

def constructorScope : SourceAdapterRegistration :=
  { riftboundSourceAdapterRegistration with surfaces := none }

/-- What is left of it by the public inventory. -/
def inventoryScope : SourceAdapterRegistration :=
  (sourceAdapterForCoverage riftboundSourceAdapterRegistration "public-english-inventory").toOption.getD
    riftboundSourceAdapterRegistration

def censusUrl : String := "https://piltoverarchive.com/cards?page=1"

def censusScope : SourceAdapterRegistration :=
  (sourceAdapterForCoverage piltoverArchiveSourceAdapterRegistration "gallery-census").toOption.getD
    piltoverArchiveSourceAdapterRegistration

/-- The binding of a registered adapter passes its checks. -/
structure SourceAdapterRegistration.Bound (a : SourceAdapterRegistration) : Prop where
  game : assertIdentifier a.supportedGame "supported_game"=.ok ()
  lineage : assertIdentifier a.sourceLineage "source_lineage"=.ok ()
  version : assertIdentifier a.adapterVersion "adapter_version"=.ok ()
  active : requiredActiveSourceAdapter a.adapterVersion=.ok a

theorem riftbound_bound : riftboundSourceAdapterRegistration.Bound :=
  ⟨by decide +kernel,by decide +kernel,by decide +kernel,rfl⟩

theorem piltover_bound : piltoverArchiveSourceAdapterRegistration.Bound :=
  ⟨by decide +kernel,by decide +kernel,by decide +kernel,rfl⟩

theorem example_fields : assertIdentifier "key" "idempotency_key"=.ok () ∧
    (∀id∈["first","second","riftbound-en:catalogue","piltover-archive-en:gallery-census"],
      assertIdentifier id "requests[].id"=.ok ()) ∧
    (∀url∈["https://playriftbound.com/first","https://playriftbound.com/second",
        riftboundInventoryUrl,censusUrl],
      validOfficialSourceUrl plainPlatform url=.ok (plainUrl url) ∧
      assertBoundedOfficialSourceRequest plainPlatform url [] false=.ok ()) ∧
    (∀adapter∈[constructorScope,inventoryScope],
      assertAdapterBinding adapter "riftbound-en" "riftbound"=.ok ()) ∧
    assertAdapterBinding censusScope "piltover-archive-en" "riftbound"=.ok () ∧
    (hrefOf plainPlatform "https://playriftbound.com/page"=.ok "https://playriftbound.com/page" ∧
      assertBoundedOfficialSourceRequest plainPlatform "https://playriftbound.com/page" []
        true=.ok ()) ∧
    (∀id∈["first","second"],lineagePart id≠"riftbound-en") ∧
    assertRoots plainPlatform inventoryScope
      [⟨"riftbound-en:catalogue",riftboundInventoryUrl,[],""⟩]=.ok () ∧
    assertRoots plainPlatform censusScope
      [⟨"piltover-archive-en:gallery-census",censusUrl,[],""⟩]=.ok () := by decide +kernel

theorem plan_valid {a covered : SourceAdapterRegistration} {subset id url : String} (ha : a.Bound)
    (hcovered : sourceAdapterForCoverage a subset=.ok covered)
    (hbinding : assertAdapterBinding covered a.sourceLineage a.supportedGame=.ok ())
    (hid : assertIdentifier id "requests[].id"=.ok ())
    (hurl : validOfficialSourceUrl plainPlatform url=.ok (plainUrl url))
    (hsurface : assertAdapterRequestSurface covered (plainUrl url)=.ok ())
    (hbound : assertBoundedOfficialSourceRequest plainPlatform url [] false=.ok ())
    (hroots : assertRoots plainPlatform covered [⟨id,url,[],""⟩]=.ok ()) :
    validateEvidencePlan plainPlatform "key" (planInput a (some subset) id url)=
      .ok (covered,{ onePlan a subset id url with
        coverage := ⟨covered.reconciliationCapability.text,subset⟩
        supported_game := covered.supportedGame
        source_lineage := covered.sourceLineage
        game_profile_version := covered.gameProfileVersion
        adapter_version := covered.adapterVersion }) := by
  have hrequest : validateRequest plainPlatform covered [] { id := id,url := url }=
      .ok [⟨id,url,[],plainPlatform.representationFingerprint url []⟩] := by
    have hheaders : normalizedHeaders []=.ok [] := rfl
    rw [plainUrl] at hurl hsurface
    rw [validateRequest,hid]
    simp only [hurl,hsurface,hheaders,hbound,ok_bind]
    rfl
  rw [validateEvidencePlan]
  simp only [planInput,ha.game,ha.lineage,ha.version,example_fields.1,ha.active,ok_bind,
    Option.getD_some,hcovered,hbinding,foldlM_cons,foldlM_nil,hrequest]
  have hlast : (assertRoots plainPlatform covered
      [⟨id,url,[],plainPlatform.representationFingerprint url []⟩])=.ok () :=
    (assertRoots_digest _ _).trans hroots
  show (assertRoots plainPlatform covered
      [⟨id,url,[],plainPlatform.representationFingerprint url []⟩] >>= fun _ => _)=_
  rw [hlast]
  rfl

def inheritedInput (id url : String) : EvidencePlanInput :=
  planInput riftboundSourceAdapterRegistration (some "constructor") id url

def inheritedPlan (id url : String) : EvidencePlan :=
  onePlan riftboundSourceAdapterRegistration "constructor" id url

def inheritedInputs : List EvidencePlanInput :=
  [inheritedInput "first" "https://playriftbound.com/first",
    inheritedInput "second" "https://playriftbound.com/second"]

def inheritedPlans : List EvidencePlan :=
  [inheritedPlan "first" "https://playriftbound.com/first",
    inheritedPlan "second" "https://playriftbound.com/second"]

def foundListing : HeldRequest where
  id := "riftbound-en:listing:"++plainPlatform.discoveryDigest "riftbound-en" .listing none
    "https://playriftbound.com/page" []
  lineage := "riftbound-en"

theorem constructor_scope : sourceAdapterForCoverage riftboundSourceAdapterRegistration
    "constructor"=.ok constructorScope := rfl

theorem inherited_valid :
    validateEvidencePlans plainPlatform "key" inheritedInputs=.ok inheritedPlans := by
  obtain ⟨hkey,hids,hurls,hbindings,-⟩ := example_fields
  have hbinding := hbindings constructorScope (by simp)
  obtain ⟨hurl1,hbound1⟩ := hurls "https://playriftbound.com/first" (by simp)
  obtain ⟨hurl2,hbound2⟩ := hurls "https://playriftbound.com/second" (by simp)
  have hfirst := @plan_valid _ _ _ "first" "https://playriftbound.com/first" riftbound_bound
    constructor_scope hbinding (hids "first" (by simp)) hurl1 rfl hbound1 rfl
  have hsecond := @plan_valid _ _ _ "second" "https://playriftbound.com/second" riftbound_bound
    constructor_scope hbinding (hids "second" (by simp)) hurl2 rfl hbound2 rfl
  rw [validateEvidencePlans,hkey]
  simp only [inheritedInputs,inheritedInput,foldlM_cons,foldlM_nil,validateNext,hfirst,hsecond,ok_bind]
  rfl

theorem listing_starts (digest : String) :
    "riftbound-en:listing:"++digest="riftbound-en"++":"++("listing"++":"++digest) := by
  have hspelled : "riftbound-en:listing:"="riftbound-en"++":"++("listing"++":") := by decide
  rw [hspelled,String.append_assoc]

theorem listing_shape : ∃digest,plainPlatform.discoveryDigest "riftbound-en" .listing none
      "https://playriftbound.com/page" []=digest ∧
    foundListing.id="riftbound-en"++":"++("listing"++":"++digest) :=
  ⟨_,rfl,listing_starts _⟩

theorem listing_lineage : lineagePart foundListing.id="riftbound-en" := by
  obtain ⟨digest,-,hshape⟩ := listing_shape
  rw [hshape]
  exact lineagePart_append (by decide) _

theorem listing_no_root : foundListing.id∉rootIds inheritedPlans := by
  have hroots : rootIds inheritedPlans=["first","second"] := rfl
  have hothers := example_fields.2.2.2.2.2.2.1
  have hfirst := hothers "first" (by simp)
  have hsecond := hothers "second" (by simp)
  rw [hroots]
  intro hin
  rcases mem_cons.mp hin with h | hin
  · exact hfirst (by rw [←h,listing_lineage])
  · exact hsecond (by rw [←mem_singleton.mp hin,listing_lineage])

theorem listing_found : discoveredRequestIds plainPlatform (planDocument inheritedPlans) "first"
    [⟨.listing,none,"https://playriftbound.com/page",[]⟩]=
      .ok ("riftbound-en",[foundListing.id]) := by
  have hplan : evidencePlanForRequest (planDocument inheritedPlans) "first"=
      .ok (inheritedPlan "first" "https://playriftbound.com/first") := by
    apply lookup_root (parse_planDocument (by simp [inheritedPlans]))
    · decide
    · exact mem_cons_self
    · exact mem_cons_self
  have hadapter : requiredSourceAdapter "riftbound-en@1"=
      .ok riftboundSourceAdapterRegistration := rfl
  obtain ⟨-,-,-,-,-,⟨hurl,hbound⟩,-⟩ := example_fields
  have hid : discoveredRequestId plainPlatform "riftbound-en"
      ⟨.listing,none,"https://playriftbound.com/page",[]⟩=.ok foundListing.id := by
    obtain ⟨digest,hdigest,hshape⟩ := listing_shape
    rw [hshape,discoveredRequestId]
    simp only [hurl,hbound,ok_bind,Option.all_none,demand_true,hdigest]
    rfl
  have hclaims : [(⟨.listing,none,"https://playriftbound.com/page",[]⟩ :
      DiscoveredEvidenceRequest)].filter (fun request =>
        constructorScope.acquiredDiscoveryRoles.all (·.contains request.role))=
      [⟨.listing,none,"https://playriftbound.com/page",[]⟩] := rfl
  have hversion : (inheritedPlan "first" "https://playriftbound.com/first").adapter_version=
      "riftbound-en@1" := rfl
  have hsubset : (inheritedPlan "first" "https://playriftbound.com/first").coverage.subset=
      "constructor" := rfl
  have hlineage : (inheritedPlan "first" "https://playriftbound.com/first").source_lineage=
      "riftbound-en" := rfl
  rw [discoveredRequestIds,hplan,ok_bind,hversion,hadapter,ok_bind,hsubset,constructor_scope,ok_bind,
    hlineage,hclaims]
  simp only [mapM_cons,mapM_nil,hid,ok_bind]
  rfl

/-- The subset `constructor` is no contract, yet two plans of one lineage pass with it. A listing
found under the first belongs to neither. -/
theorem inherited_subset_unowned :
    validateEvidencePlans plainPlatform "key" inheritedInputs=.ok inheritedPlans ∧
      ∃held,Holds plainPlatform inheritedPlans held ∧ foundListing∈held ∧
        ¬Owned inheritedPlans foundListing := by
  have hparent : (⟨"first","riftbound-en"⟩ : HeldRequest)∈plannedRequests inheritedPlans :=
    mem_cons_self
  have hplanned : Holds plainPlatform inheritedPlans (plannedRequests inheritedPlans) := .planned
  have hholds := hplanned.discovered hparent listing_found (List.Sublist.refl _)
  refine ⟨inherited_valid,_,hholds,?_,?_⟩
  · have hnew : ¬(plannedRequests inheritedPlans).any (·.id=foundListing.id)=true := by
      rw [any_eq_true]
      rintro ⟨r,hr,hid⟩
      have hmem : r.id∈rootIds inheritedPlans := by
        rw [←planned_ids]
        exact mem_map_of_mem hr
      rw [of_decide_eq_true hid] at hmem
      exact listing_no_root hmem
    rw [foldl_cons,foldl_nil,insertIgnoring,if_neg hnew]
    exact mem_append_right _ (mem_singleton.mpr rfl)
  · rintro ⟨plan,hlookup,-⟩
    rw [lookup_dynamic_iff (parse_planDocument (by simp [inheritedPlans])) listing_no_root,
      listing_lineage] at hlookup
    have hlen : (inheritedPlans.filter fun plan => plan.source_lineage="riftbound-en").length=2 := by
      decide
    rw [hlookup] at hlen
    cases hlen

def inventoryInputs : List EvidencePlanInput :=
  [planInput riftboundSourceAdapterRegistration (some "public-english-inventory")
      "riftbound-en:catalogue" riftboundInventoryUrl,
    planInput piltoverArchiveSourceAdapterRegistration (some "gallery-census")
      "piltover-archive-en:gallery-census" censusUrl]

def inventoryPlans : List EvidencePlan :=
  [onePlan riftboundSourceAdapterRegistration "public-english-inventory" "riftbound-en:catalogue"
      riftboundInventoryUrl,
    onePlan piltoverArchiveSourceAdapterRegistration "gallery-census"
      "piltover-archive-en:gallery-census" censusUrl]

/-- The public inventory and another source's census: two lineages with a plan each. -/
theorem inventory_requests_owned :
    validateEvidencePlans plainPlatform "key" inventoryInputs=.ok inventoryPlans ∧
    ∀held,Holds plainPlatform inventoryPlans held → ∀r∈held,Owned inventoryPlans r := by
  obtain ⟨hkey,hids,hurls,hbindings,hcensus,-,-,hroots,hcensusRoots⟩ := example_fields
  obtain ⟨hurl1,hbound1⟩ := hurls riftboundInventoryUrl (by simp)
  obtain ⟨hurl2,hbound2⟩ := hurls censusUrl (by simp)
  have hinventory := @plan_valid _ inventoryScope "public-english-inventory"
    "riftbound-en:catalogue" riftboundInventoryUrl riftbound_bound rfl
    (hbindings inventoryScope (by simp)) (hids "riftbound-en:catalogue" (by simp)) hurl1 rfl hbound1
    hroots
  have hgallery := @plan_valid _ censusScope "gallery-census" "piltover-archive-en:gallery-census"
    censusUrl piltover_bound rfl hcensus (hids "piltover-archive-en:gallery-census" (by simp)) hurl2
    rfl hbound2 hcensusRoots
  have hvalid : validateEvidencePlans plainPlatform "key" inventoryInputs=.ok inventoryPlans := by
    rw [validateEvidencePlans,hkey]
    simp only [inventoryInputs,foldlM_cons,foldlM_nil,validateNext,hinventory,hgallery,ok_bind]
    rfl
  exact ⟨hvalid,(requests_owned_iff hvalid).mpr (by decide)⟩

end Example

end CardKeepr.SourceEvidence.Plans
