import CardKeepr.SourceEvidence.EvidencePlans
import Mathlib.Data.Prod.Lex
import Mathlib.Data.String.Basic

namespace CardKeepr.Reconciliation.Selection

open Lib SourceEvidence.Plans

inductive RequestRole where
  | surface | listing | detail | product_detail | image
  deriving DecidableEq

structure PlannedRequestRow where
  request_id : String
  sequence_number : Nat
  method : String
  url : String
  request_headers_json : String
  representation_fingerprint : String
  request_role : RequestRole
  discovered_from_request_id : Option String
  state : String
  source_snapshot_id : Option String
  failure_code : Option String

/-- `(sequence_number, request_id)`, the order requests are read in. -/
def PlannedRequestRow.key (r : PlannedRequestRow) : Int ×ₗ String :=
  toLex (r.sequence_number,r.request_id)

structure EvidenceRow where
  request_id : String
  observation_set_id : String
  source_snapshot_id : String
  retrieved_at : String
  source_lineage : String
  supported_game : String
  game_profile_version : String
  adapter_version : String
  content_digest : String
  snapshot_content_digest : String
  content_byte_length : Nat
  content_object_key : String
  observation_count : Nat
  plan_origin : String
  snapshot_request_method : String
  snapshot_request_url : String
  snapshot_request_headers_json : String
  snapshot_representation_fingerprint : String

structure EvidenceSelection where
  request : PlannedRequestRow
  row : Option EvidenceRow

/-- What `canonicalValueDigest` is asked for. -/
inductive DigestValue where
  | plan (evidencePlanRow : List EvidencePlan) (omittedLineages : List String)
  | evidence (previous : String) (evidence : EvidenceSelection)

def redirectDiscoveryRoles : List RequestRole := [.listing,.detail,.product_detail]

def toleratesRequestFailure (role : RequestRole) (failureCode : Option String) : Bool :=
  if failureCode=some redirectDiscoveredFailureCode then redirectDiscoveryRoles.contains role
  else role=.image && failureCode.any toleratedPrintingImageFailureCodes.contains

def isOptionalSourceOutage (plan : EvidencePlan) (failureCode : Option String) : Bool :=
  plan.participation=.optional && (failureCode=some "source_request_rejected" ||
    failureCode=some "optional_source_unavailable")

def evidencePlanForRequest (plans : List EvidencePlan) (requestId : String) :
    Except String EvidencePlan :=
  match soleOwner (fun plan => plan.requests.any fun r => r.id=requestId)
    (fun plan => plan.source_lineage=lineagePart requestId) plans with
  | some plan => .ok plan
  | none => .error ("Source Request " ++ requestId ++ " does not have exactly one Evidence Plan.")

/-- What a preparation finds in the database: its requests in the order they are read, and the
collection observation sets of a snapshot. -/
structure SelectionInput where
  evidencePlanRow : List EvidencePlan
  requests : List PlannedRequestRow
  ordered : (requests.map PlannedRequestRow.key).Pairwise (· < ·)
  distinct : (requests.map (·.request_id)).Nodup
  observationSets : String → List EvidenceRow
  maximumSnapshotBytes : String → Nat
  /-- The stages on authorities, roots, collection and discovery plans, evidence and surfaces, which
  can only refuse. -/
  plansAgree : Except String Unit

inductive SelectionStage where
  | outages | optional_failures | authorities | roots | collection_plans | discovery_plans
  | request_coverage | evidence_coverage | selection | surface_coverage | complete
  deriving DecidableEq

/-- The `source_selection` checkpoint, as far as it is read again. -/
structure SourceSelection where
  stage : SelectionStage
  requestCount : Nat
  inputDigest : String
  omittedLineages : List String

section
variable (digest : DigestValue → String) (w : SelectionInput)

def failed (r : PlannedRequestRow) : Bool := r.state="failed"

/-- Stage `outages`. -/
def outages : List PlannedRequestRow → List String → Except String (List String)
  | [],omitted => .ok omitted
  | r::rs,omitted => do
    let plan ← evidencePlanForRequest w.evidencePlanRow r.request_id
    let omits := failed r && isOptionalSourceOutage plan r.failure_code &&
      !omitted.contains plan.source_lineage
    outages rs (if omits then omitted++[plan.source_lineage] else omitted)

/-- Stage `optional_failures`. -/
def optionalFailures (omitted : List String) : List PlannedRequestRow → Except String Unit
  | [] => .ok ()
  | r::rs => do
    let plan ← evidencePlanForRequest w.evidencePlanRow r.request_id
    if failed r && omitted.contains plan.source_lineage &&
        !isOptionalSourceOutage plan r.failure_code &&
        !toleratesRequestFailure r.request_role r.failure_code then
      .error ("Optional Source " ++ plan.source_lineage ++ " has blocking evidence failure " ++
        r.failure_code.getD "null" ++ ".")
    else optionalFailures omitted rs

def selected (omitted : List String) (r : PlannedRequestRow) : Except String Bool :=
  if failed r && toleratesRequestFailure r.request_role r.failure_code then .ok false
  else do
    let plan ← evidencePlanForRequest w.evidencePlanRow r.request_id
    return !omitted.contains plan.source_lineage

def observedSnapshot (r : PlannedRequestRow) : Except String String :=
  match r.source_snapshot_id with
  | some snapshot => if r.state="observed" then .ok snapshot else .error unobserved
  | none => .error unobserved
where
  unobserved := "Planned Source Request " ++ r.request_id ++ " has no observed Source Snapshot."

/-- Stage `request_coverage`: the snapshots that are selected. -/
def requestCoverage (omitted : List String) :
    List PlannedRequestRow → List String → Except String (List String)
  | [],snapshots => .ok snapshots
  | r::rs,snapshots => do
    let isSelected ← selected w omitted r
    if !isSelected then requestCoverage omitted rs snapshots
    else do
      let snapshot ← observedSnapshot r
      if snapshots.contains snapshot then
        .error "Planned Source Requests selected a duplicate Source Snapshot."
      else requestCoverage omitted rs (snapshot::snapshots)

def checkedRow (r : PlannedRequestRow) (row : EvidenceRow) : Except String Unit := do
  let plan ← evidencePlanForRequest w.evidencePlanRow row.request_id
  if row.request_id≠r.request_id ∨ row.snapshot_request_method≠r.method ∨
      row.snapshot_request_url≠r.url ∨
      row.snapshot_representation_fingerprint≠r.representation_fingerprint then
    .error "Retained Source Snapshot provenance differs from its immutable Source Request."
  else if row.source_lineage≠plan.source_lineage ∨ row.supported_game≠plan.supported_game ∨
      row.game_profile_version≠plan.game_profile_version ∨
      row.adapter_version≠plan.adapter_version then
    .error "Retained Source Observation Set provenance is inconsistent with its Evidence Plan."
  else if row.content_byte_length > w.maximumSnapshotBytes row.adapter_version then
    .error ("Retained Source Observation Set " ++ row.observation_set_id ++
      " exceeds its adapter byte limit.")
  else .ok ()

/-- The row of a selected request. -/
def selectedRow (omitted : List String) (r : PlannedRequestRow) :
    Except String (Option EvidenceRow) := do
  let isSelected ← selected w omitted r
  if !isSelected then return none
  match w.observationSets (r.source_snapshot_id.getD "") with
  | [row] => do
    checkedRow w r row
    return some row
  | _ => .error ("Planned Source Request " ++ r.request_id ++
      " requires exactly one collection Source Observation Set.")

def fold (previous : String) (s : EvidenceSelection) : String :=
  match s.row with
  | none => previous
  | some _ => digest (.evidence previous s)

/-- Stage `selection`: the rows that are retained, and the digest they are folded into. -/
def selection (omitted : List String) :
    List PlannedRequestRow → String → Except String (List EvidenceSelection × String)
  | [],inputDigest => .ok ([],inputDigest)
  | r::rs,inputDigest => do
    let row ← selectedRow w omitted r
    let rest ← selection omitted rs (fold digest inputDigest ⟨r,row⟩)
    return (⟨r,row⟩::rest.1,rest.2)

/-- The checkpoint and the retained selection a preparation ends with. -/
def prepareSourceSelection : Except String (SourceSelection × List EvidenceSelection) := do
  let omitted ← outages w w.requests []
  optionalFailures w omitted w.requests
  w.plansAgree
  let snapshots ← requestCoverage w omitted w.requests []
  if snapshots=[] then .error "No independently complete Source Coverage remains in this refresh."
  else
    let r ← selection digest w omitted w.requests (digest (.plan w.evidencePlanRow omitted))
    return (⟨.complete,w.requests.length,r.2,omitted⟩,r.1)

end

/-- What a completed selection leaves behind for those who read it. -/
structure Retained (digest : DigestValue → String) (plans : List EvidencePlan)
    (s : SourceSelection) (rows : List EvidenceSelection) : Prop where
  complete : s.stage=.complete
  count : s.requestCount=rows.length
  some_request : rows≠[]
  folded : s.inputDigest=rows.foldl (fold digest) (digest (.plan plans s.omittedLineages))
  ordered : (rows.map fun e => e.request.key).Pairwise (· < ·)
  distinct : (rows.map fun e => e.request.request_id).Nodup

section
variable {digest : DigestValue → String} {w : SelectionInput}

theorem selection_spec {omitted : List String} {rs : List PlannedRequestRow} {start : String}
    {r : List EvidenceSelection × String} (h : selection digest w omitted rs start=.ok r) :
    r.1.map (·.request)=rs ∧ r.2=r.1.foldl (fold digest) start := by
  induction rs generalizing start r with
  | nil =>
    obtain rfl := Except.ok.inj h
    exact ⟨rfl,rfl⟩
  | cons q rs ih =>
    obtain ⟨row,_,h⟩ := bind_ok h
    obtain ⟨rest,hrest,h⟩ := bind_ok h
    obtain rfl := Except.ok.inj h
    obtain ⟨hrequests,hdigest⟩ := ih hrest
    exact ⟨by rw [List.map_cons,hrequests],hdigest⟩

theorem requestCoverage_nil {omitted snapshots : List String}
    (h : requestCoverage w omitted [] []=.ok snapshots) : snapshots=[] := (Except.ok.inj h).symm

theorem retained {s : SourceSelection} {rows : List EvidenceSelection}
    (h : prepareSourceSelection digest w=.ok (s,rows)) : Retained digest w.evidencePlanRow s rows := by
  obtain ⟨omitted,_,h⟩ := bind_ok h
  obtain ⟨_,_,h⟩ := bind_ok h
  obtain ⟨_,_,h⟩ := bind_ok h
  obtain ⟨snapshots,hsnapshots,h⟩ := bind_ok h
  split at h
  · cases h
  · rename_i hne
    obtain ⟨r,hr,h⟩ := bind_ok h
    obtain ⟨rfl,rfl⟩ := Prod.mk.inj (Except.ok.inj h)
    obtain ⟨hrequests,hdigest⟩ := selection_spec hr
    have hkeys : r.1.map (fun e => e.request.key)=w.requests.map PlannedRequestRow.key := by
      rw [←hrequests,List.map_map]
      rfl
    have hids : r.1.map (fun e => e.request.request_id)=w.requests.map (·.request_id) := by
      rw [←hrequests,List.map_map]
      rfl
    refine ⟨rfl,?_,?_,hdigest,hkeys ▸ w.ordered,hids ▸ w.distinct⟩
    · show w.requests.length=_
      rw [←hrequests,List.length_map]
    · intro hnil
      rw [hnil] at hrequests
      rw [←hrequests] at hsnapshots
      exact hne (requestCoverage_nil hsnapshots)

end

end CardKeepr.Reconciliation.Selection
