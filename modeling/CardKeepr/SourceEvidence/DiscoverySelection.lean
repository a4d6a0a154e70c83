import CardKeepr.Lib.InsertionMap
import CardKeepr.Shared.JsString

namespace CardKeepr.SourceEvidence.Discovery
open Lib Shared

inductive DiscoveredRole where
  | listing
  | detail
  | product_detail
  | image
  deriving DecidableEq

structure DiscoverySelection where
  role : DiscoveredRole
  groups : Option (List JsString)
  maximum_requests : Option Nat

/-- `lineage:role:digest`, with the discovery key in front of the digest where there is one. -/
structure RequestId where
  lineage : JsString
  role : DiscoveredRole
  digest : JsString
  deriving DecidableEq

structure SelectableRequest where
  id : RequestId
  selectionGroup : Option JsString
  deriving DecidableEq

/-- The requests a parent's capture discovered, one for each identity. -/
structure DiscoveryBatch where
  lineage : JsString
  parentRequestId : JsString
  requests : List SelectableRequest
  distinct : (requests.map SelectableRequest.id).Nodup
  own : ∀r∈requests,r.id.lineage=lineage

/-- A row of `source_discovery_deferrals`. -/
structure DiscoveryDeferral where
  parentRequestId : JsString
  deferralKey : JsString
  sourceLineage : JsString
  role : DiscoveredRole
  deferredCount : Nat
  groupCounts : List (JsString × Nat)
  recordedAt : JsString

/-- What a run holds: the identities of `source_discovery_request_plans` and the deferrals. -/
structure DiscoveryStore where
  admitted : List RequestId
  deferrals : List DiscoveryDeferral

/-- The group of the request is listed, or the selection has none. -/
def listed (selection : DiscoverySelection) (r : SelectableRequest) : Bool :=
  selection.groups.all fun groups => r.selectionGroup.any fun group => groups.contains group

/-- The loop of `partitionDiscoveredRequests` from a number of held requests. -/
def partitionFrom (selection : DiscoverySelection) (admitted : List RequestId) :
    Nat → List SelectableRequest → List SelectableRequest × List SelectableRequest
  | _,[] => ([],[])
  | held,r::rs =>
    if r.id.role≠selection.role ∨ r.id∈admitted then
      let rest := partitionFrom selection admitted held rs
      (r::rest.1,rest.2)
    else if listed selection r=false ∨ selection.maximum_requests.any (fun m => decide (m ≤ held)) then
      let rest := partitionFrom selection admitted held rs
      (rest.1,r::rest.2)
    else
      let rest := partitionFrom selection admitted (held+1) rs
      (r::rest.1,rest.2)

def partitionDiscoveredRequests (selection : Option DiscoverySelection)
    (requests : List SelectableRequest) (admitted : List RequestId) (admittedRoleCount : Nat) :
    List SelectableRequest × List SelectableRequest :=
  match selection with
  | none => (requests,[])
  | some selection => partitionFrom selection admitted admittedRoleCount requests

/-- `admittedDiscoveryRoleCountStatement`. -/
def admittedRoleCount (lineage : JsString) (role : DiscoveredRole) (s : DiscoveryStore) : Nat :=
  (s.admitted.filter fun id => decide (id.lineage=lineage ∧ id.role=role)).length

/-- `admittedDiscoveryRequestsStatement`. -/
def admittedDiscoveryRequests (ids : List RequestId) (s : DiscoveryStore) : List RequestId :=
  s.admitted.filter fun id => decide (id∈ids)

def ungroupedSelectionKey : JsString := [45]

/-- How many deferred requests each group has. -/
def groupCounts (deferred : List SelectableRequest) : List (JsString × Nat) :=
  deferred.foldl (fun counts r =>
    let group := r.selectionGroup.getD ungroupedSelectionKey
    mapSet counts group ((counts.lookup group).getD 0+1)) []

/-- What `selectedDiscoveryRequests` returns; `guarded` says that a guard is in the batch. -/
structure SelectedRequests where
  selected : List SelectableRequest
  deferred : List SelectableRequest
  deferral : Option DiscoveryDeferral
  guarded : Option Nat

section
/- The digest of the canonical JSON of the sorted identities. -/
variable (key : List RequestId → JsString)

/-- `selectedDiscoveryRequests`: the admitted identities are read in one state of the store and the
count in another, whichever way the two reads fall. -/
def selectedDiscoveryRequests (selection : Option DiscoverySelection) (batch : DiscoveryBatch)
    (readAdmitted readCount : DiscoveryStore) (recordedAt : JsString) : SelectedRequests :=
  match selection with
  | none => ⟨batch.requests,[],none,none⟩
  | some selection =>
    let candidates := batch.requests.filter fun r => decide (r.id.role=selection.role)
    if candidates=[] then ⟨batch.requests,[],none,none⟩
    else
      let admitted := if selection.maximum_requests=none then []
        else admittedDiscoveryRequests (candidates.map SelectableRequest.id) readAdmitted
      let count := if selection.maximum_requests=none then 0
        else admittedRoleCount batch.lineage selection.role readCount
      let parts := partitionDiscoveredRequests (some selection) batch.requests admitted count
      let newlySelected := (parts.1.filter fun r =>
        decide (r.id.role=selection.role ∧ r.id∉admitted)).length
      { selected := parts.1
        deferred := parts.2
        deferral := if parts.2=[] then none else some {
          parentRequestId := batch.parentRequestId
          deferralKey := key (parts.2.map SelectableRequest.id)
          sourceLineage := batch.lineage
          role := selection.role
          deferredCount := parts.2.length
          groupCounts := groupCounts parts.2
          recordedAt }
        guarded := if newlySelected=0 then none else selection.maximum_requests }

/-- `INSERT OR IGNORE` of identities. -/
def insertAdmitted (admitted : List RequestId) (ids : List RequestId) : List RequestId :=
  ids.foldl (fun admitted id => if id∈admitted then admitted else admitted++[id]) admitted

def insertDeferral (deferrals : List DiscoveryDeferral) (d : DiscoveryDeferral) :
    List DiscoveryDeferral :=
  if deferrals.any fun e => decide (e.parentRequestId=d.parentRequestId ∧ e.deferralKey=d.deferralKey)
  then deferrals else deferrals++[d]

/-- The statements of the batch; `none` when the guard aborts it. -/
def admitDiscovered (selection : Option DiscoverySelection) (batch : DiscoveryBatch) (result : SelectedRequests)
    (s : DiscoveryStore) : Option DiscoveryStore :=
  let after : DiscoveryStore := {
    admitted := insertAdmitted s.admitted (result.selected.map SelectableRequest.id)
    deferrals := result.deferral.elim s.deferrals (insertDeferral s.deferrals) }
  match selection,result.guarded with
  | some selection,some maximum =>
    if maximum < admittedRoleCount batch.lineage selection.role after then none else some after
  | _,_ => some after

/-- One execution of a discovery batch: when its two reads were made, counted from the first state
of the run, and whether something else refuses its statements. -/
structure Attempt where
  batch : DiscoveryBatch
  admittedAt : Nat
  countedAt : Nat
  refused : Bool
  recordedAt : JsString

/-- An attempt whose statements were committed. -/
structure Commit where
  batch : DiscoveryBatch
  readAdmitted : DiscoveryStore
  readCount : DiscoveryStore
  result : SelectedRequests
  before : DiscoveryStore
  after : DiscoveryStore

/-- The states of a run, the last one first, and its commits, the last one first. -/
structure Run where
  states : List DiscoveryStore
  commits : List Commit

def Run.start : Run := ⟨[⟨[],[]⟩],[]⟩

def Run.current (d : Run) : DiscoveryStore := d.states.headD ⟨[],[]⟩

def Run.at (d : Run) (time : Nat) : DiscoveryStore :=
  d.states.reverse.getD time d.current

variable (plan : JsString → Option DiscoverySelection)

/-- The next attempt to end. -/
def Run.next (d : Run) (a : Attempt) : Run :=
  let result := selectedDiscoveryRequests key (plan a.batch.lineage) a.batch (d.at a.admittedAt)
    (d.at a.countedAt) a.recordedAt
  match if a.refused then none else admitDiscovered (plan a.batch.lineage) a.batch result d.current with
  | none => ⟨d.current::d.states,d.commits⟩
  | some after => ⟨after::d.states,
      ⟨a.batch,d.at a.admittedAt,d.at a.countedAt,result,d.current,after⟩::d.commits⟩

/-- A run of attempts, in the order in which they end. -/
def Run.of (attempts : List Attempt) : Run :=
  attempts.foldl (Run.next key plan) .start

end

end CardKeepr.SourceEvidence.Discovery
