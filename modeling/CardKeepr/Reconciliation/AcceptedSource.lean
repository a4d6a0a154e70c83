import CardKeepr.Reconciliation.SourceSelection

namespace CardKeepr.Reconciliation.AcceptedSource

open Lib SourceEvidence.Plans Reconciliation.Selection

/-- A row of `sourceHistoryCandidateStatement`. -/
structure CandidateRow where
  id : String
  preparation_id : String
  supported_game : String
  pin_id : Option String
  predecessor_candidate_id : Option String
  catalogue_revision_id : Option String
  deriving DecidableEq

/-- A captured request of the current run with its snapshot. -/
structure Capture where
  request_id : String
  request_role : RequestRole
  source_lineage : String
  adapter_version : String
  content_digest : String

/-- A row of `reconciliation_evidence_partitions` with its request and snapshot. -/
structure Partition where
  request_id : String
  request_role : RequestRole
  source_lineage : String
  adapter_version : String
  content_digest : String

/-- A legacy run. Its requests are distinct, and it reads a lineage in one adapter version. -/
structure LegacyRun where
  id : String
  published : Bool
  terminal_at : String
  partitions : List Partition
  distinct : (partitions.map (·.request_id)).Nodup
  one_adapter : ∀p∈partitions,∀q∈partitions,p.source_lineage=q.source_lineage →
    p.adapter_version=q.adapter_version

/-- `run.terminal_at DESC, run.id DESC`. -/
def LegacyRun.key (r : LegacyRun) : String ×ₗ String := toLex (r.terminal_at,r.id)

/-- The tables the verification reads. -/
structure World where
  candidate : String → Option CandidateRow
  selection : String → Option SourceSelection
  evidencePlan : String → Option (List EvidencePlan)
  retained : String → List EvidenceSelection
  captured : List Capture
  captured_distinct : (captured.map (·.request_id)).Nodup
  runs : List LegacyRun
  runs_distinct : (runs.map (·.id)).Nodup

inductive AcceptedStage where
  | walk | requests | complete
  deriving DecidableEq

structure AcceptedSourceCursor where
  candidate : Option String
  next : Option String
  game : String
  stage : AcceptedStage
  after : Int × String
  selected : Nat
  expected : Nat
  scanned : Nat
  digest : String
  expectedDigest : String
  visited : Nat
  unchanged : Bool
  deriving DecidableEq

/-- The rows of the index of visited candidates, by ordinal. -/
abbrev Visited := List (Nat × String)

/-- `visited.resumeAt(position)` and `visited.has(candidate)`. -/
def hasVisited (v : Visited) (position : Nat) (candidate : String) : Bool :=
  v.any fun row => row.1 ≤ position && row.2=candidate

/-- `visited.seed(candidate, true)` at the position. -/
def seedVisited (v : Visited) (position : Nat) (candidate : String) : Visited :=
  if v.contains (position+1,candidate) then v else v++[(position+1,candidate)]

/-- The next retained request after a position. -/
def nextEvidenceSelection (rows : List EvidenceSelection) (after : Int × String) :
    Option EvidenceSelection :=
  (rows.insertionSort fun a b => a.request.key ≤ b.request.key).find? fun e =>
    decide (toLex after < e.request.key)

section
variable (digest : DigestValue → String) (w : World) (lineage adapter : String)

def currentSource : List Capture :=
  w.captured.filter fun c => c.source_lineage=lineage ∧ c.adapter_version=adapter ∧
    c.request_role≠.image

def currentSourceDigest (request : String) : Option String :=
  ((currentSource w lineage adapter).find? fun c => c.request_id=request).map (·.content_digest)

def currentSourceRequestCount : Nat := (currentSource w lineage adapter).length

def latestRun (p : LegacyRun → Bool) : Option LegacyRun :=
  ((w.runs.filter fun r => r.published && p r).insertionSort fun a b => b.key ≤ a.key).head?

/-- `prior_run`. -/
def priorRun : Option LegacyRun :=
  latestRun w fun r => r.partitions.any fun p => p.source_lineage=lineage ∧ p.adapter_version=adapter

/-- `previous`. -/
def previousSource (r : LegacyRun) : List Partition :=
  r.partitions.filter fun p => p.source_lineage=lineage ∧ p.adapter_version=adapter ∧
    p.request_role≠.image

def unchangedAcceptedSource : Bool :=
  match priorRun w lineage adapter with
  | none => false
  | some r =>
    let previous := previousSource lineage adapter r
    let current := currentSource w lineage adapter
    !current.isEmpty && current.length=previous.length &&
      current.all fun c => previous.any fun p =>
        p.request_id=c.request_id && p.content_digest=c.content_digest

def startCursor (candidate : Option String) (game : String) : AcceptedSourceCursor where
  candidate := candidate
  next := none
  game := game
  stage := .walk
  after := (-1,"")
  selected := 0
  expected := 0
  scanned := 0
  digest := ""
  expectedDigest := ""
  visited := 0
  unchanged := false

def openCursor (preparation : String) : Except String AcceptedSourceCursor :=
  match w.candidate preparation with
  | none => .ok (startCursor none "")
  | some current =>
    if current.pin_id≠some current.id then
      .error "Native source verification is missing its captured predecessor."
    else .ok (startCursor current.predecessor_candidate_id current.supported_game)

/-- The candidate row is the exact published predecessor. -/
def exactPredecessor (game : String) (c : CandidateRow) : Bool :=
  c.id=c.preparation_id && c.pin_id=some c.id && c.supported_game=game &&
    c.catalogue_revision_id.isSome

def walkCandidate (cursor : AcceptedSourceCursor) (id : String) (v : Visited) :
    Except String (AcceptedSourceCursor × Visited) := do
  if hasVisited v cursor.visited id then
    .error "Native source verification found a predecessor cycle."
  else match (w.candidate id).filter (exactPredecessor cursor.game) with
  | none => .error "Native source verification is missing its exact published predecessor."
  | some candidate =>
    match (w.selection candidate.id).filter fun s => s.stage=.complete && 0 < s.requestCount with
    | none => .error "Native source verification requires a complete retained evidence selection."
    | some selection =>
      match w.evidencePlan candidate.id with
      | none => .error "Native source verification is missing its immutable evidence plan."
      | some evidencePlanRow => .ok ({ cursor with
          digest := digest (.plan evidencePlanRow selection.omittedLineages)
          expectedDigest := selection.inputDigest
          expected := selection.requestCount
          scanned := 0
          next := candidate.predecessor_candidate_id
          after := (-1,"")
          selected := 0
          stage := .requests
          visited := cursor.visited+1 },seedVisited v cursor.visited candidate.id)

def scanRequest (cursor : AcceptedSourceCursor) (rows : List EvidenceSelection) :
    Except String AcceptedSourceCursor :=
  match nextEvidenceSelection rows cursor.after with
  | none =>
    if cursor.scanned≠cursor.expected then
      .error "Native source verification is missing retained evidence requests."
    else if cursor.digest≠cursor.expectedDigest then
      .error "Native source verification differs from its completed selection digest."
    else if cursor.selected > 0 then .ok { cursor with
      unchanged := currentSourceRequestCount w lineage adapter=cursor.selected
      stage := .complete }
    else .ok { cursor with
      candidate := cursor.next
      stage := .walk }
  | some e =>
    let next := { cursor with
      scanned := cursor.scanned+1
      digest := fold digest cursor.digest e
      after := ((e.request.sequence_number:Int),e.request.request_id) }
    match e.row.filter fun r => r.source_lineage=lineage && e.request.request_role≠.image with
    | none => .ok next
    | some row => .ok { next with
      selected := cursor.selected+1
      stage := if row.adapter_version≠adapter ∨
        currentSourceDigest w lineage adapter e.request.request_id≠some row.snapshot_content_digest
        then .complete else cursor.stage }

/-- `advanceAcceptedSource`: one resumable unit, from the given cursor or from the beginning. -/
def advanceAcceptedSource (preparation : String) (cursor : Option AcceptedSourceCursor)
    (v : Visited) : Except String (AcceptedSourceCursor × Visited) := do
  let cursor ← match cursor with
    | some cursor => pure cursor
    | none => openCursor w preparation
  match cursor.stage,cursor.candidate with
  | .walk,none => return ({ cursor with
      unchanged := unchangedAcceptedSource w lineage adapter
      stage := .complete },v)
  | .walk,some id => walkCandidate digest w cursor id v
  | _,id => do
    let cursor ← scanRequest digest w lineage adapter cursor (w.retained (id.getD ""))
    return (cursor,v)

-- The caller keeps the cursor in memory between units, saves it with its checkpoint, and begins
-- again from the saved one after an interruption.

structure Process where
  saved : Option AcceptedSourceCursor
  live : Option AcceptedSourceCursor
  visited : Visited

def Process.completed (s : Process) : Bool := s.live.any fun c => c.stage=.complete

inductive Process.Step (preparation : String) : Process → Process → Prop
  /-- A unit returns. -/
  | advance {s : Process} {r : AcceptedSourceCursor × Visited} (open_ : s.completed=false)
      (h : advanceAcceptedSource digest w lineage adapter preparation s.live s.visited=.ok r) :
      Step preparation s ⟨s.saved,some r.1,r.2⟩
  /-- A unit is interrupted after what it wrote. -/
  | interrupt {s : Process} {r : AcceptedSourceCursor × Visited} (open_ : s.completed=false)
      (h : advanceAcceptedSource digest w lineage adapter preparation s.live s.visited=.ok r) :
      Step preparation s ⟨s.saved,s.saved,r.2⟩
  | restart {s : Process} : Step preparation s ⟨s.saved,s.saved,s.visited⟩
  | save {s : Process} : Step preparation s ⟨s.live,s.live,s.visited⟩

inductive Process.Reached (preparation : String) : Process → Prop
  | start : Reached preparation ⟨none,none,[]⟩
  | step {s t : Process} (h : Reached preparation s)
      (k : Process.Step digest w lineage adapter preparation s t) : Reached preparation t

end

end CardKeepr.Reconciliation.AcceptedSource
