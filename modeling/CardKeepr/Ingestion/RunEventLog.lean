import CardKeepr.Ingestion.EventPayloads
import CardKeepr.Ingestion.RunCommands
import CardKeepr.Shared.WellFormed

namespace CardKeepr.Ingestion

open Lib Shared

/-- A row of `ingestion_run_event_payload_chunks`; `content` is the text as it is stored. -/
structure PayloadChunk where
  ingestion_run_id : JsString
  event_sequence : Nat
  payload_kind : JsString
  chunk_index : Nat
  content : List UInt8

/-- The tables of the event log. `games` are the rows of `ingestion_run_selected_games` of a run in
the order of their ordinals. -/
structure Database where
  runs : List JsString
  games : JsString → List JsString
  currents : List RunCurrent
  events : List RunEventRow
  chunks : List PayloadChunk

def Database.empty : Database := ⟨[],fun _ => [],[],[],[]⟩

def Database.eventsOf (db : Database) (run : JsString) : List RunEventRow :=
  db.events.filter fun e => e.ingestion_run_id=run

/-- A payload as `runEventStatement` prepares it. -/
structure EncodedPayload where
  kind : String
  chunks : List JsString
  bytes : Nat

def encodePayload (kind : String) : Option PayloadText → Except String (List EncodedPayload)
  | none => .ok []
  | some t => do
    demand (jsonSyntax t.text).isSome "SyntaxError"
    let chunks ← byteChunks t.text
    .ok [⟨kind,chunks,(utf8 t.text).length⟩]

def EncodedPayload.fact (p : EncodedPayload) : JsString × Json :=
  (key p.kind,.obj [(key "chunks",number p.chunks.length),(key "bytes",number p.bytes)])

/-- The event of a row that has just been written: `current` and the other facts of its payload. -/
def eventRow (kind : RunEventKind) (occurredAt : JsString) (facts : List (JsString × Json))
    (c : RunCurrent) : RunEventRow where
  ingestion_run_id := c.ingestion_run_id
  sequence_number := c.last_event_sequence
  event_id := c.last_event_id
  event_kind := key kind.text
  occurred_at := occurredAt
  from_state := c.previous_state.map fun s => key s.text
  to_state := key c.state.text
  payload := .obj ((key "current",c.json)::facts)

def eventFacts (selectedGames decision : Json) (payloads : List EncodedPayload)
    (approvalKey : Option JsString) : List (JsString × Json) :=
  [(key "selected_games",selectedGames),(key "decision",decision),
    (key "payloads",.obj (payloads.map EncodedPayload.fact)),
    (key "approval_idempotency_key",nullable .str approvalKey)]

def insertEvent (events : List RunEventRow) (e : RunEventRow) : Except String (List RunEventRow) := do
  demand (!(events.any fun f => f.event_id=e.event_id ||
    (f.ingestion_run_id=e.ingestion_run_id && f.sequence_number=e.sequence_number)))
    "UNIQUE constraint failed: ingestion_run_events"
  .ok (events++[e])

def insertEvents : List RunEventRow → List RunEventRow → Except String (List RunEventRow)
  | events,[] => .ok events
  | events,e::es => do
    let events ← insertEvent events e
    insertEvents events es

/-- `INSERT OR IGNORE`: a row that breaks a constraint is skipped. -/
def insertChunk (chunks : List PayloadChunk) (r : PayloadChunk) : List PayloadChunk :=
  if r.content.length ≤ maximumChunkBytes ∧ ¬(chunks.any fun q =>
      q.ingestion_run_id=r.ingestion_run_id && q.event_sequence=r.event_sequence &&
        q.payload_kind=r.payload_kind && q.chunk_index=r.chunk_index)=true then chunks++[r]
  else chunks

def chunkRows (run : JsString) (sequence : Nat) (p : EncodedPayload) : List PayloadChunk :=
  p.chunks.zipIdx.map fun c => ⟨run,sequence,key p.kind,c.2,utf8 c.1⟩

/-- The chunks are written for the event with this identity, if it was appended. -/
def insertChunks (db : Database) (run eventId : JsString) (payloads : List EncodedPayload) :
    List PayloadChunk :=
  ((db.events.filter fun e => e.event_id=eventId && e.ingestion_run_id=run).flatMap fun e =>
    payloads.flatMap (chunkRows run e.sequence_number)).foldl insertChunk db.chunks

/-- `verifiedRunCurrentSql`. -/
def verifiedRunCurrent (db : Database) (c : RunCurrent) : Bool :=
  (db.events.any fun e => e.ingestion_run_id=c.ingestion_run_id &&
    e.sequence_number=c.last_event_sequence && e.event_id=c.last_event_id &&
    e.payload.member (key "current")=some c.json &&
    (db.eventsOf c.ingestion_run_id).all fun f => decide (f.sequence_number ≤ e.sequence_number)) &&
  db.events.any fun e => e.ingestion_run_id=c.ingestion_run_id && e.sequence_number=1 &&
    e.payload.member (key "selected_games")=some (.arr ((db.games c.ingestion_run_id).map .str))

def runCurrentIntegrityGuard (db : Database) (run : JsString) (creating : Bool) :
    Except String Unit := do
  demand (creating || !(db.runs.contains run) || db.currents.any fun c => c.ingestion_run_id=run)
    "ingestion_run_projection_missing"
  demand (db.currents.all fun c => !(c.ingestion_run_id==run) || verifiedRunCurrent db c)
    "ingestion_run_projection_mismatch"

def assign (columns : List (Column × Option JsString)) (old : Column → Option JsString)
    (c : Column) : Option JsString := (columns.lookup c).getD (old c)

/-- `runEventIdentitySql` and the assignments of the command. -/
def RunUpdate.apply (u : RunUpdate) (eventId : JsString) (c : RunCurrent) : RunCurrent where
  ingestion_run_id := c.ingestion_run_id
  last_event_sequence := c.last_event_sequence+1
  last_event_id := eventId
  previous_state := some c.state
  state := u.target
  completed_stage_count := u.completed.getD c.completed_stage_count
  candidate_payload_event_sequence :=
    if u.candidate.isSome then some (c.last_event_sequence+1) else c.candidate_payload_event_sequence
  diagnostics_event_sequence :=
    if u.diagnostics.isSome then some (c.last_event_sequence+1) else c.diagnostics_event_sequence
  columns := assign u.columns c.columns

/-- What a write meets in the tables that are not modelled: whether the rest of its `WHERE` clause
holds, and whether the guards and effects of its batch pass. -/
structure Circumstances where
  alsoWhere : Bool
  guards : Bool

def RunUpdate.hits (u : RunUpdate) (run : JsString) (alsoWhere : Bool) (c : RunCurrent) : Bool :=
  c.ingestion_run_id=run && u.sources.contains c.state && alsoWhere

/-- `append` and the chunks after it, with the `changes()` of the primary statement. -/
def appendRunEvent (kind : RunEventKind) (occurredAt : JsString) (facts : List (JsString × Json))
    (payloads : List EncodedPayload) (run eventId : JsString) (changes : Nat) (db : Database) :
    Except String Database := do
  let events ← insertEvents db.events ((db.currents.filter fun c => c.ingestion_run_id=run &&
    c.last_event_id=eventId && decide (0 < changes)).map (eventRow kind occurredAt facts))
  .ok { db with
    events := events
    chunks := insertChunks { db with events := events } run eventId payloads }

def runEventStatement (u : RunUpdate) (run eventId : JsString) (given : Circumstances)
    (db : Database) : Except String Database := do
  let candidate ← encodePayload "candidate" u.candidate
  let diagnostics ← encodePayload "diagnostics" u.diagnostics
  runCurrentIntegrityGuard db run false
  demand given.guards "guard"
  appendRunEvent u.kind u.occurredAt.iso
    (eventFacts .null u.decision (candidate++diagnostics) u.approvalKey) (candidate++diagnostics)
    run eventId (db.currents.countP (u.hits run given.alsoWhere))
    { db with currents := db.currents.map fun c =>
        if u.hits run given.alsoWhere c then u.apply eventId c else c }

inductive StartState where
  | planning | collecting

def StartState.state : StartState → IngestionRunState
  | planning => .planning
  | collecting => .collecting

/-- The input of `createRunEventStatement`; its callers select at least one game. -/
structure CreateRun where
  runId : JsString
  games : List JsString
  selected : games≠[]
  startedAt : Instant
  state : StartState
  candidate : Option PayloadText
  diagnostics : Option PayloadText

def emptyRunCurrent (runId eventId : JsString) (state : StartState)
    (candidate diagnostics : Bool) : RunCurrent where
  ingestion_run_id := runId
  last_event_sequence := 1
  last_event_id := eventId
  previous_state := none
  state := state.state
  completed_stage_count := match state with
    | .planning => 0
    | .collecting => 1
  candidate_payload_event_sequence := if candidate then some 1 else none
  diagnostics_event_sequence := if diagnostics then some 1 else none
  columns := fun _ => none

/-- The anchor and the selected games of a new run, with the constraints of their tables. -/
def anchorRun (input : CreateRun) (db : Database) : Except String Database := do
  demand (!(db.runs.contains input.runId)) "UNIQUE constraint failed: ingestion_runs"
  demand (decide input.games.Nodup && input.games.all fun g => knownGames.contains g)
    "constraint failed: ingestion_run_selected_games"
  .ok { db with
    runs := db.runs++[input.runId]
    games := Function.update db.games input.runId input.games }

def insertCurrent (c : RunCurrent) (db : Database) : Except String Database := do
  demand (!(db.currents.any fun d => d.ingestion_run_id=c.ingestion_run_id))
    "UNIQUE constraint failed: ingestion_run_current"
  .ok { db with currents := db.currents++[c] }

def createRunEventStatement (input : CreateRun) (eventId : JsString) (given : Circumstances)
    (db : Database) : Except String Database := do
  let candidate ← encodePayload "candidate" input.candidate
  let diagnostics ← encodePayload "diagnostics" input.diagnostics
  let db ← anchorRun input db
  runCurrentIntegrityGuard db input.runId true
  let db ← insertCurrent (emptyRunCurrent input.runId eventId input.state input.candidate.isSome
    input.diagnostics.isSome) db
  demand given.guards "guard"
  appendRunEvent .created input.startedAt.iso
    (eventFacts (.arr (input.games.map .str)) .null (candidate++diagnostics) none)
    (candidate++diagnostics) input.runId eventId 1 db

/-- `state = 'awaiting_approval' AND approval_deadline <= observedAt`. -/
def overdue (observedAt : JsString) (c : RunCurrent) : Bool :=
  c.state==.awaiting_approval && match c.columns .approval_deadline with
    | none => false
    | some d => decide (compareBytes (utf8 d) (utf8 observedAt) ≤ 0)

def sweepEventId (sweepId run : JsString) : JsString := sweepId++key ":"++run

/-- The assignments of the sweep, which takes the deadline for the time of the event. -/
def expiry (observedAt : Instant) (c : RunCurrent) : RunUpdate :=
  plainUpdate .expired observedAt [.awaiting_approval] .expired
    [(.terminal_at,c.columns .approval_deadline)] none

def expireRun (sweepId : JsString) (observedAt : Instant) (c : RunCurrent) : RunCurrent :=
  if overdue observedAt.iso c then
    (expiry observedAt c).apply (sweepEventId sweepId c.ingestion_run_id) c
  else c

/-- `current.terminal_at` is not null here: the sweep has just set it to a deadline. -/
def expiredRow (c : RunCurrent) : RunEventRow :=
  eventRow .expired ((c.columns .terminal_at).getD []) [(key "payloads",.obj [])] c

def expireRunEventsStatement (sweepId : JsString) (observedAt : Instant) (given : Circumstances)
    (db : Database) : Except String Database := do
  demand (db.currents.all fun c => !(overdue observedAt.iso c) || verifiedRunCurrent db c)
    "ingestion_run_projection_mismatch"
  let events ← insertEvents db.events (((db.currents.map (expireRun sweepId observedAt)).filter
    fun c => c.last_event_id=sweepEventId sweepId c.ingestion_run_id &&
      decide (0 < db.currents.countP (overdue observedAt.iso))).map expiredRow)
  demand given.guards "guard"
  .ok { db with
    currents := db.currents.map (expireRun sweepId observedAt)
    events := events }

/-- One write of a batch. -/
inductive Write where
  | create (input : CreateRun) (eventId : JsString) (given : Circumstances)
  | update (u : RunUpdate) (issued : Command u) (run eventId : JsString) (given : Circumstances)
  | expire (sweepId : JsString) (observedAt : Instant) (given : Circumstances)

def Write.apply : Write → Database → Except String Database
  | .create input eventId given => createRunEventStatement input eventId given
  | .update u _ run eventId given => runEventStatement u run eventId given
  | .expire sweepId observedAt given => expireRunEventsStatement sweepId observedAt given

/-- `crypto.randomUUID()` gives no identity twice. -/
def Write.Fresh : Write → Database → Prop
  | .create _ eventId _,db => ∀e∈db.events,e.event_id≠eventId
  | .update _ _ _ eventId _,db => ∀e∈db.events,e.event_id≠eventId
  | .expire _ _ _,_ => True

/-- The writes of one batch happen in order, or none does. -/
inductive Batch : List Write → Database → Database → Prop
  | done {db : Database} : Batch [] db db
  | write {w : Write} {ws : List Write} {db next last : Database} (fresh : w.Fresh db)
    (applied : w.apply db=.ok next) (rest : Batch ws next last) : Batch (w::ws) db last

/-- The databases that committed batches lead to. -/
def Written : Database → Database → Prop := Relation.ReflTransGen fun a b => ∃ws,Batch ws a b

/-- `runEventsPageStatement`. -/
def runEventsPage (db : Database) (run : JsString) (afterSequence : Nat) : List RunEventRow :=
  (((db.eventsOf run).filter fun e => decide (afterSequence < e.sequence_number)).mergeSort
    fun a b => decide (a.sequence_number ≤ b.sequence_number)).take 100

variable (other : JsString → Bool)

def projectAll : Option RunCurrent → List RunEventRow → Except String (Option RunCurrent)
  | current,[] => .ok current
  | current,e::es => do
    let current ← projectIngestionRunEvent other current e
    projectAll (some current) es

/-- The pages that `foldRunEvents` reads; a page of 100 events is followed by another. -/
def foldPages (db : Database) (run : JsString) :
    Nat → Option RunCurrent → Except String (Option RunCurrent)
  | 0,current => .ok current
  | n+1,current => do
    let page := runEventsPage db run ((current.map RunCurrent.last_event_sequence).getD 0)
    let current ← projectAll other current page
    if page.length < 100 then .ok current else foldPages db run n current

def foldRunEvents (db : Database) (run : JsString) : Except String RunCurrent := do
  match ← foldPages other db run (db.events.length+1) none with
  | none => .error "Ingestion Run event history is missing."
  | some current => .ok current

/-- The rows of a payload are the chunks that its metadata counts. -/
def payloadComplete (db : Database) (e : RunEventRow) (m : JsString × Json) : Bool :=
  let rows := db.chunks.filter fun r => r.ingestion_run_id=e.ingestion_run_id &&
    r.event_sequence=e.sequence_number && r.payload_kind=m.1
  let chunks := (m.2.member (key "chunks")).bind natural
  decide (chunks=some rows.length) && decide ((rows.map PayloadChunk.chunk_index).min?=some 0) &&
    decide ((rows.map PayloadChunk.chunk_index).max?.map (fun n => n+1)=chunks) &&
    decide ((m.2.member (key "bytes")).bind natural=
      some (rows.map fun r => r.content.length).sum)

def payloadMembers (e : RunEventRow) : List (JsString × Json) :=
  match e.payload.member (key "payloads") with
  | some (.obj members) => members
  | _ => []

def selectedGamesOf (e : RunEventRow) : List JsString :=
  match e.payload.member (key "selected_games") with
  | some (.arr games) => games.filterMap textIn
  | _ => []

/-- `INSERT … ON CONFLICT (ingestion_run_id) DO UPDATE`. -/
def upsertCurrent (c : RunCurrent) (rows : List RunCurrent) : List RunCurrent :=
  if rows.any fun d => d.ingestion_run_id=c.ingestion_run_id then
    rows.map fun d => if d.ingestion_run_id=c.ingestion_run_id then c else d
  else rows++[c]

/-- `eventFence`: the folded history is still the whole one. -/
def historyCurrent (db : Database) (run : JsString) (c : RunCurrent) : Bool :=
  (db.eventsOf run).any fun e => e.sequence_number=c.last_event_sequence &&
    e.event_id=c.last_event_id &&
    (db.eventsOf run).all fun f => decide (f.sequence_number ≤ e.sequence_number)

/-- `rebuildRunProjection` with a fold over `reads`, what the database was when it was read. -/
def rebuildRunProjection (run : JsString) (maintenance : Bool) (reads db : Database) :
    Except String (RunCurrent × Database) := do
  demand maintenance "ingestion_run_rebuild_requires_maintenance"
  let current ← foldRunEvents other reads run
  demand (historyCurrent db run current) "ingestion_run_history_advanced"
  demand ((db.eventsOf run).all fun e => (payloadMembers e).all (payloadComplete db e))
    "ingestion_run_payload_incomplete"
  .ok (current,{ db with
    currents := upsertCurrent current db.currents
    games := Function.update db.games run
      (((db.eventsOf run).filter fun e => e.sequence_number=1).flatMap selectedGamesOf) })

end CardKeepr.Ingestion
