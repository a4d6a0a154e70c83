import CardKeepr.Lib.Fallible
import CardKeepr.Shared.CanonicalMembers
import CardKeepr.Shared.IsoTime

namespace CardKeepr.Ingestion

open Lib Shared List

def key (name : String) : JsString := js name.toList

inductive IngestionRunState where
  | planning | collecting | paused | parsing | reconciling | awaiting_approval | publishing
  | published | rejected | expired | failed
  deriving DecidableEq

namespace IngestionRunState

def text : IngestionRunState → String
  | planning => "planning"
  | collecting => "collecting"
  | paused => "paused"
  | parsing => "parsing"
  | reconciling => "reconciling"
  | awaiting_approval => "awaiting_approval"
  | publishing => "publishing"
  | published => "published"
  | rejected => "rejected"
  | expired => "expired"
  | failed => "failed"

end IngestionRunState

open IngestionRunState in
def ingestionRunStates : List IngestionRunState := [planning,collecting,paused,parsing,reconciling,
  awaiting_approval,publishing,published,rejected,expired,failed]

def ingestionRunTerminatedFailureCode : JsString := key "ingestion_run_terminated"

structure Transition where
  target : IngestionRunState
  /-- `requires: "termination"` -/
  termination : Bool := false

def ingestionRunTransitions : IngestionRunState → List Transition
  | .planning => [⟨.collecting,false⟩,⟨.failed,false⟩]
  | .collecting => [⟨.paused,false⟩,⟨.parsing,false⟩,⟨.failed,false⟩]
  | .paused => [⟨.collecting,false⟩,⟨.failed,true⟩]
  | .parsing => [⟨.reconciling,false⟩,⟨.failed,false⟩]
  | .reconciling => [⟨.awaiting_approval,false⟩,⟨.failed,false⟩]
  | .awaiting_approval =>
    [⟨.publishing,false⟩,⟨.rejected,false⟩,⟨.expired,false⟩,⟨.failed,false⟩]
  | .publishing => [⟨.published,false⟩,⟨.failed,false⟩]
  | .published | .rejected | .expired | .failed => []

def activeRunStages : List IngestionRunState :=
  [.planning,.collecting,.parsing,.reconciling,.awaiting_approval,.publishing]

def isTerminalIngestionRunState (s : IngestionRunState) : Bool := (ingestionRunTransitions s).isEmpty

structure IngestionRunTransitionFacts where
  failureCode : Option JsString := none
  terminationRecorded : Bool := false

def canTransitionIngestionRun (source target : IngestionRunState)
    (facts : IngestionRunTransitionFacts) : Bool :=
  match (ingestionRunTransitions source).find? fun t => t.target=target with
  | none => false
  | some t => !t.termination ||
    (facts.failureCode=some ingestionRunTerminatedFailureCode && facts.terminationRecorded)

def ingestionRunTransitionSources (target : IngestionRunState) : List IngestionRunState :=
  ingestionRunStates.filter fun source => canTransitionIngestionRun source target {}

inductive RunEventKind where
  | created | stage_changed | collection_paused | collection_resumed | collection_terminated
  | candidate_prepared | candidate_blocked | approval_reserved | rejected | expired | failed
  | published
  deriving DecidableEq

namespace RunEventKind

def text : RunEventKind → String
  | created => "created"
  | stage_changed => "stage_changed"
  | collection_paused => "collection_paused"
  | collection_resumed => "collection_resumed"
  | collection_terminated => "collection_terminated"
  | candidate_prepared => "candidate_prepared"
  | candidate_blocked => "candidate_blocked"
  | approval_reserved => "approval_reserved"
  | rejected => "rejected"
  | expired => "expired"
  | failed => "failed"
  | published => "published"

end RunEventKind

open RunEventKind in
def runEventKinds : List RunEventKind := [created,stage_changed,collection_paused,
  collection_resumed,collection_terminated,candidate_prepared,candidate_blocked,approval_reserved,
  rejected,expired,failed,published]

def kindStates : RunEventKind → Option (List IngestionRunState)
  | .created => none
  | .collection_paused => some [.paused]
  | .collection_resumed => some [.collecting]
  | .collection_terminated => some [.failed]
  | .candidate_prepared => some [.awaiting_approval]
  | .candidate_blocked => some [.failed]
  | .approval_reserved => some [.publishing]
  | .rejected => some [.rejected]
  | .expired => some [.expired]
  | .failed => some [.failed]
  | .published => some [.published]
  | .stage_changed => some [.collecting,.parsing,.reconciling]

/-- The nullable text columns of `ingestion_run_current`. -/
inductive Column where
  | candidate_digest | candidate_catalogue_digest | candidate_created_at | approval_deadline
  | approved_at | approved_candidate_digest | approved_expected_revision_id | failure_code
  | terminal_at | publication_revision_id | publication_started_at | publication_reconcile_after
  | publication_manifest_digest | publication_writer_token | published_revision_id
  | export_manifest_digest | publication_outcome | resulting_revision_id | freshness_checked_at
  deriving DecidableEq

namespace Column

def text : Column → String
  | candidate_digest => "candidate_digest"
  | candidate_catalogue_digest => "candidate_catalogue_digest"
  | candidate_created_at => "candidate_created_at"
  | approval_deadline => "approval_deadline"
  | approved_at => "approved_at"
  | approved_candidate_digest => "approved_candidate_digest"
  | approved_expected_revision_id => "approved_expected_revision_id"
  | failure_code => "failure_code"
  | terminal_at => "terminal_at"
  | publication_revision_id => "publication_revision_id"
  | publication_started_at => "publication_started_at"
  | publication_reconcile_after => "publication_reconcile_after"
  | publication_manifest_digest => "publication_manifest_digest"
  | publication_writer_token => "publication_writer_token"
  | published_revision_id => "published_revision_id"
  | export_manifest_digest => "export_manifest_digest"
  | publication_outcome => "publication_outcome"
  | resulting_revision_id => "resulting_revision_id"
  | freshness_checked_at => "freshness_checked_at"

end Column

open Column in
def runCurrentNullableColumns : List Column := [candidate_digest,candidate_catalogue_digest,
  candidate_created_at,approval_deadline,approved_at,approved_candidate_digest,
  approved_expected_revision_id,failure_code,terminal_at,publication_revision_id,
  publication_started_at,publication_reconcile_after,publication_manifest_digest,
  publication_writer_token,published_revision_id,export_manifest_digest,publication_outcome,
  resulting_revision_id,freshness_checked_at]

/-- The columns that no later event may change once they are set. -/
def setOnceColumns : List Column := [.candidate_digest,.candidate_catalogue_digest,
  .candidate_created_at,.approval_deadline,.approved_at,.approved_candidate_digest,
  .approved_expected_revision_id]

def runCurrentColumns : List JsString :=
  ["ingestion_run_id","last_event_sequence","last_event_id","previous_state","state",
    "completed_stage_count","candidate_payload_event_sequence",
    "diagnostics_event_sequence"].map key++runCurrentNullableColumns.map fun c => key c.text

structure RunCurrent where
  ingestion_run_id : JsString
  last_event_sequence : Nat
  last_event_id : JsString
  previous_state : Option IngestionRunState
  state : IngestionRunState
  completed_stage_count : Nat
  candidate_payload_event_sequence : Option Nat
  diagnostics_event_sequence : Option Nat
  columns : Column → Option JsString

/-- A row of `ingestion_run_events`; `payload` is what `JSON.parse(payload_json)` gives. -/
structure RunEventRow where
  ingestion_run_id : JsString
  sequence_number : Nat
  event_id : JsString
  event_kind : JsString
  occurred_at : JsString
  from_state : Option JsString
  to_state : JsString
  payload : Json

def nullable {α : Type} (value : α → Json) : Option α → Json
  | none => .null
  | some a => value a

def number (n : Nat) : Json := .num n

/-- The members of a snapshot. -/
def RunCurrent.members (c : RunCurrent) : List (JsString × Json) := [
  (key "ingestion_run_id",.str c.ingestion_run_id),
  (key "last_event_sequence",number c.last_event_sequence),
  (key "last_event_id",.str c.last_event_id),
  (key "previous_state",nullable (fun s : IngestionRunState => .str (key s.text)) c.previous_state),
  (key "state",.str (key c.state.text)),
  (key "completed_stage_count",number c.completed_stage_count),
  (key "candidate_payload_event_sequence",nullable number c.candidate_payload_event_sequence),
  (key "diagnostics_event_sequence",nullable number c.diagnostics_event_sequence)]++
  runCurrentNullableColumns.map fun k => (key k.text,nullable .str (c.columns k))

/-- `currentSnapshotSql`. -/
def RunCurrent.json (c : RunCurrent) : Json := .obj c.members

def stateOf (s : JsString) : Option IngestionRunState :=
  ingestionRunStates.find? fun t => key t.text=s

def kindOf (s : JsString) : Option RunEventKind := runEventKinds.find? fun t => key t.text=s

def textIn : Json → Option JsString
  | .str s => some s
  | _ => none

def nullableIn {α : Type} (value : Json → Option α) : Json → Option (Option α)
  | .null => some none
  | v => (value v).map some

def columnsIn (v : Json) (c : Column) : Option JsString := (v.member (key c.text)).bind textIn

/-- The value is an object with no key beside the columns. -/
def columnsOnly : Json → Bool
  | .obj members => members.all fun m => runCurrentColumns.contains m.1
  | _ => false

/-- The value has every column and no other key, with the types that the later checks leave. -/
def RunCurrent.read (v : Json) : Option RunCurrent := do
  guard (runCurrentColumns.all fun k => (v.member k).isSome)
  guard (columnsOnly v)
  let run ← (v.member (key "ingestion_run_id")).bind textIn
  let sequence ← (v.member (key "last_event_sequence")).bind natural
  let event ← (v.member (key "last_event_id")).bind textIn
  let previous ← (v.member (key "previous_state")).bind
    (nullableIn fun v => (textIn v).bind stateOf)
  let state ← (v.member (key "state")).bind fun v => (textIn v).bind stateOf
  let completed ← (v.member (key "completed_stage_count")).bind natural
  let candidate ← (v.member (key "candidate_payload_event_sequence")).bind (nullableIn natural)
  let diagnostics ← (v.member (key "diagnostics_event_sequence")).bind (nullableIn natural)
  guard (runCurrentNullableColumns.all fun c =>
    ((v.member (key c.text)).bind (nullableIn textIn)).isSome)
  some ⟨run,sequence,event,previous,state,completed,candidate,diagnostics,columnsIn v⟩

def invalidHistory : String := "Invalid Ingestion Run event history."

def required {α : Type} : Option α → Except String α
  | none => .error invalidHistory
  | some a => .ok a

def check (ok : Bool) : Except String Unit := demand ok invalidHistory

/-- `Number.isSafeInteger(value) && value >= 1`. -/
def safeCount (v : Option Json) : Bool :=
  match v.bind natural with
  | none => false
  | some n => decide (1 ≤ n ∧ n ≤ 9007199254740991)

def payloadFact (m : JsString × Json) : Bool :=
  ["candidate","diagnostics"].any (fun k => key k=m.1) && safeCount (m.2.member (key "chunks")) &&
    safeCount (m.2.member (key "bytes"))

/-- The metadata of the payloads that an event retains. -/
def retainedPayloads (payload : Json) : Except String (List (JsString × Json)) :=
  match payload.member (key "payloads") with
  | some (.obj members) => if members.all payloadFact then .ok members else .error invalidHistory
  | _ => .error invalidHistory

/-- A reference is to this event or an earlier one, and to this one only with its payload. -/
def goodReference (event : RunEventRow) (payloads : List (JsString × Json)) (kind : String) :
    Option Nat → Bool
  | none => true
  | some n => decide (1 ≤ n ∧ n ≤ event.sequence_number) &&
    (!(n==event.sequence_number) || (payloads.lookup (key kind)).isSome)

def knownGames : List JsString :=
  ["one-piece","fusion-world","digimon","gundam","riftbound","magic","pokemon"].map key

def goodGames : Option Json → Bool
  | some (.arr games) => !games.isEmpty && decide games.Nodup &&
    games.all fun g => knownGames.any fun k => decide (g=.str k)
  | _ => false

/-- The first event of a run. -/
def firstEvent (event : RunEventRow) (kind : RunEventKind) (current : RunCurrent) : Bool :=
  event.sequence_number==1 && kind==.created && event.from_state.isNone &&
    (current.state==.planning || current.state==.collecting) &&
    goodGames (event.payload.member (key "selected_games"))

/-- An event that follows `previous`. -/
def nextEvent (previous : RunCurrent) (event : RunEventRow) (kind : RunEventKind)
    (current : RunCurrent) : Bool :=
  !(kind==.created) && event.ingestion_run_id==previous.ingestion_run_id &&
    event.sequence_number==previous.last_event_sequence+1 &&
    event.from_state==some (key previous.state.text) &&
    canTransitionIngestionRun previous.state current.state
      ⟨current.columns .failure_code,kind==.collection_terminated⟩ &&
    decide (previous.completed_stage_count ≤ current.completed_stage_count) &&
    (setOnceColumns.all fun c =>
      (previous.columns c).isNone || previous.columns c==current.columns c) &&
    (current.candidate_payload_event_sequence==previous.candidate_payload_event_sequence ||
      current.candidate_payload_event_sequence==some event.sequence_number) &&
    (current.diagnostics_event_sequence==previous.diagnostics_event_sequence ||
      current.diagnostics_event_sequence==some event.sequence_number)

/-- The snapshot is of this event. -/
def ofEvent (event : RunEventRow) (current : RunCurrent) : Bool :=
  current.ingestion_run_id==event.ingestion_run_id && current.last_event_id==event.event_id &&
    current.last_event_sequence==event.sequence_number && key current.state.text==event.to_state &&
    current.previous_state.map (fun s => key s.text)==event.from_state &&
    decide (current.completed_stage_count ≤ activeRunStages.length)

def followsOn (previous : Option RunCurrent) (event : RunEventRow) (kind : RunEventKind)
    (current : RunCurrent) : Bool :=
  match previous with
  | none => firstEvent event kind current
  | some previous => nextEvent previous event kind current

def kindFits (kind : RunEventKind) (state : IngestionRunState) : Bool :=
  match kindStates kind with
  | none => true
  | some states => states.contains state

variable (other : JsString → Bool)

def projectIngestionRunEvent (previous : Option RunCurrent) (event : RunEventRow) :
    Except String RunCurrent := do
  let kind ← required (kindOf event.event_kind)
  check (stateOf event.to_state).isSome
  check (dateParses other event.occurred_at)
  let current ← required ((event.payload.member (key "current")).bind RunCurrent.read)
  check (ofEvent event current)
  let payloads ← retainedPayloads event.payload
  check (goodReference event payloads "candidate" current.candidate_payload_event_sequence)
  check (goodReference event payloads "diagnostics" current.diagnostics_event_sequence)
  check (followsOn previous event kind current)
  check (kindFits kind current.state)
  .ok current

theorem stateOf_text (s : IngestionRunState) : stateOf (key s.text)=some s := by
  cases s <;> decide

theorem kindOf_text (k : RunEventKind) : kindOf (key k.text)=some k := by
  cases k <;> decide

@[simp] theorem natural_number (n : Nat) : natural (number n)=some n := by
  simp [natural,number]

@[simp] theorem textIn_str (s : JsString) : textIn (.str s)=some s := rfl

@[simp] theorem nullableIn_number (n : Option Nat) :
    nullableIn natural (nullable number n)=some n := by
  cases n with
  | none => rfl
  | some n =>
    change (natural (number n)).map some=some (some n)
    rw [natural_number]
    rfl

@[simp] theorem nullableIn_state (s : Option IngestionRunState) :
    nullableIn (fun v => (textIn v).bind stateOf)
      (nullable (fun s : IngestionRunState => .str (key s.text)) s)=some s := by
  cases s with
  | none => rfl
  | some s =>
    change (stateOf (key s.text)).map some=some (some s)
    rw [stateOf_text]
    rfl

@[simp] theorem nullableIn_text (s : Option JsString) :
    nullableIn textIn (nullable .str s)=some s := by
  cases s <;> rfl

@[simp] theorem textIn_nullable (s : Option JsString) : textIn (nullable .str s)=s := by
  cases s <;> rfl

theorem members_keys (c : RunCurrent) : c.members.map Prod.fst=runCurrentColumns := rfl

theorem runCurrentColumns_nodup : runCurrentColumns.Nodup := by decide +kernel

theorem member_json {c : RunCurrent} {k : JsString} {v : Json} (h : (k,v)∈c.members) :
    c.json.member k=some v := by
  apply lookup_nodup
  · exact (members_keys c).symm ▸ runCurrentColumns_nodup
  · exact h

theorem mem_columns (k : Column) : k∈runCurrentNullableColumns := by
  cases k <;> decide

theorem member_column (c : RunCurrent) (k : Column) :
    c.json.member (key k.text)=some (nullable .str (c.columns k)) := by
  apply member_json
  apply mem_append_right
  exact mem_map_of_mem (mem_columns k)

theorem read_json (c : RunCurrent) : RunCurrent.read c.json=some c := by
  have hall : (runCurrentColumns.all fun k => (c.json.member k).isSome)=true := by
    apply all_eq_true.mpr
    intro k hk
    rw [←members_keys c] at hk
    obtain ⟨v,hv,-⟩ := lookup_of_mem hk
    exact Option.isSome_iff_exists.mpr ⟨v,hv⟩
  have hown : columnsOnly c.json=true := by
    apply all_eq_true.mpr
    intro m hm
    rw [contains_iff_mem,←members_keys c]
    exact mem_map_of_mem hm
  have htext : (runCurrentNullableColumns.all fun k =>
      ((c.json.member (key k.text)).bind (nullableIn textIn)).isSome)=true := by
    apply all_eq_true.mpr
    intro k _
    rw [member_column,Option.bind_some,nullableIn_text]
    rfl
  have hcolumns : columnsIn c.json=c.columns := by
    funext k
    rw [columnsIn,member_column,Option.bind_some,textIn_nullable]
  have h1 : c.json.member (key "ingestion_run_id")=some (.str c.ingestion_run_id) := rfl
  have h2 : c.json.member (key "last_event_sequence")=some (number c.last_event_sequence) :=
    member_json (by simp [RunCurrent.members])
  have h3 : c.json.member (key "last_event_id")=some (.str c.last_event_id) :=
    member_json (by simp [RunCurrent.members])
  have h4 : c.json.member (key "previous_state")=
      some (nullable (fun s : IngestionRunState => .str (key s.text)) c.previous_state) :=
    member_json (by simp [RunCurrent.members])
  have h5 : c.json.member (key "state")=some (.str (key c.state.text)) :=
    member_json (by simp [RunCurrent.members])
  have h6 : c.json.member (key "completed_stage_count")=some (number c.completed_stage_count) :=
    member_json (by simp [RunCurrent.members])
  have h7 : c.json.member (key "candidate_payload_event_sequence")=
      some (nullable number c.candidate_payload_event_sequence) :=
    member_json (by simp [RunCurrent.members])
  have h8 : c.json.member (key "diagnostics_event_sequence")=
      some (nullable number c.diagnostics_event_sequence) :=
    member_json (by simp [RunCurrent.members])
  simp only [RunCurrent.read,hall,hown,htext,h1,h2,h3,h4,h5,h6,h7,h8,hcolumns,Option.bind_some,textIn_str,
    natural_number,nullableIn_number,nullableIn_state,stateOf_text]
  rfl

variable {other}

theorem required_ok {α : Type} {x : Option α} {a : α} (h : required x=.ok a) : x=some a := by
  cases x with
  | none => cases h
  | some b =>
    injection h with h
    rw [h]

/-- What an accepted event has passed. -/
structure Accepted (previous : Option RunCurrent) (event : RunEventRow) (kind : RunEventKind)
    (current : RunCurrent) : Prop where
  known : kindOf event.event_kind=some kind
  snapshot : (event.payload.member (key "current")).bind RunCurrent.read=some current
  own : ofEvent event current=true
  follows : followsOn previous event kind current=true
  fits : kindFits kind current.state=true

variable {event : RunEventRow} {current previous : RunCurrent}

theorem project_ok {previous : Option RunCurrent}
    (h : projectIngestionRunEvent other previous event=.ok current) :
    ∃kind,Accepted previous event kind current := by
  obtain ⟨kind,hk,h⟩ := bind_ok h
  obtain ⟨_,-,h⟩ := bind_ok h
  obtain ⟨_,-,h⟩ := bind_ok h
  obtain ⟨c,hc,h⟩ := bind_ok h
  obtain ⟨_,ho,h⟩ := bind_ok h
  obtain ⟨_,-,h⟩ := bind_ok h
  obtain ⟨_,-,h⟩ := bind_ok h
  obtain ⟨_,-,h⟩ := bind_ok h
  obtain ⟨_,hf,h⟩ := bind_ok h
  obtain ⟨_,hs,h⟩ := bind_ok h
  injection h with h
  subst h
  exact ⟨kind,required_ok hk,required_ok hc,demand_ok ho,demand_ok hf,demand_ok hs⟩

theorem keys_inj {s t : IngestionRunState} (h : key s.text=key t.text) : s=t := by
  revert h
  cases s <;> cases t <;> decide

/-- A step of a run's history. -/
structure Succeeds (a b : RunCurrent) : Prop where
  transition : ∃t∈ingestionRunTransitions a.state,t.target=b.state
  previous : b.previous_state=some a.state
  run : b.ingestion_run_id=a.ingestion_run_id
  sequence : b.last_event_sequence=a.last_event_sequence+1

/-- What no later event takes back. -/
structure Retains (a b : RunCurrent) : Prop where
  stages : a.completed_stage_count ≤ b.completed_stage_count
  columns : ∀c∈setOnceColumns,∀v,a.columns c=some v → b.columns c=some v

instance : IsTrans RunCurrent Retains where
  trans a b c h k := by
    refine ⟨le_trans h.stages k.stages,?_⟩
    intro x hx v hv
    exact k.columns x hx v (h.columns x hx v hv)

theorem canTransition_edge {s t : IngestionRunState} {facts : IngestionRunTransitionFacts}
    (h : canTransitionIngestionRun s t facts=true) : ∃x∈ingestionRunTransitions s,x.target=t := by
  rw [canTransitionIngestionRun] at h
  cases hx : (ingestionRunTransitions s).find? fun x => x.target=t with
  | none =>
    rw [hx] at h
    cases h
  | some x =>
    have ht := List.find?_some hx
    exact ⟨x,List.mem_of_find?_eq_some hx,of_decide_eq_true ht⟩

theorem project_next (h : projectIngestionRunEvent other (some previous) event=.ok current) :
    Succeeds previous current ∧ Retains previous current := by
  obtain ⟨kind,ha⟩ := project_ok h
  have hn : nextEvent previous event kind current=true := ha.follows
  have ho := ha.own
  simp only [nextEvent,Bool.and_eq_true,Bool.or_eq_true,beq_iff_eq,all_eq_true,
    decide_eq_true_eq] at hn
  simp only [ofEvent,Bool.and_eq_true,beq_iff_eq,decide_eq_true_eq] at ho
  obtain ⟨⟨⟨⟨⟨⟨⟨⟨-,hrun⟩,hseq⟩,hfrom⟩,hedge⟩,hcount⟩,hset⟩,-⟩,-⟩ := hn
  obtain ⟨⟨⟨⟨⟨orun,-⟩,oseq⟩,-⟩,oprev⟩,-⟩ := ho
  have hprev : current.previous_state=some previous.state := by
    rw [hfrom] at oprev
    cases hp : current.previous_state with
    | none =>
      rw [hp] at oprev
      cases oprev
    | some s =>
      rw [hp] at oprev
      rw [keys_inj (Option.some.inj oprev)]
  refine ⟨⟨canTransition_edge hedge,hprev,orun.trans hrun,oseq.trans hseq⟩,hcount,?_⟩
  intro c hc v hv
  rcases hset c hc with hnone | heq
  · rw [hv] at hnone
    cases hnone
  · rw [←heq,hv]

theorem project_first (h : projectIngestionRunEvent other none event=.ok current) :
    current.previous_state=none ∧ (current.state=.planning ∨ current.state=.collecting) ∧
      current.last_event_sequence=1 := by
  obtain ⟨kind,ha⟩ := project_ok h
  have hf : firstEvent event kind current=true := ha.follows
  have ho := ha.own
  simp only [firstEvent,Bool.and_eq_true,Bool.or_eq_true,beq_iff_eq,Option.isNone_iff_eq_none] at hf
  simp only [ofEvent,Bool.and_eq_true,beq_iff_eq,decide_eq_true_eq] at ho
  obtain ⟨⟨⟨⟨hseq,-⟩,hfrom⟩,hstate⟩,-⟩ := hf
  obtain ⟨⟨⟨⟨⟨-,-⟩,oseq⟩,-⟩,oprev⟩,-⟩ := ho
  rw [hfrom] at oprev
  exact ⟨Option.map_eq_none_iff.mp oprev,hstate,oseq.trans hseq⟩

variable (other) in
/-- The rows that a history passes through when every event is accepted after those before it. -/
def projections : Option RunCurrent → List RunEventRow → Except String (List RunCurrent)
  | _,[] => .ok []
  | previous,event::events => do
    let current ← projectIngestionRunEvent other previous event
    let rest ← projections (some current) events
    .ok (current::rest)

/-- The rows of one run, from its creation on. -/
structure RunHistory (rows : List RunCurrent) : Prop where
  first : ∀c∈rows.head?,c.previous_state=none ∧ (c.state=.planning ∨ c.state=.collecting)
  path : rows.IsChain Succeeds
  terminal : rows.IsChain fun a _ => isTerminalIngestionRunState a.state=false
  retained : rows.Pairwise Retains

variable {events : List RunEventRow}

theorem projections_chain
    {rows : List RunCurrent} (h : projections other (some previous) events=.ok rows) :
    (previous::rows).IsChain (fun a b => Succeeds a b ∧ Retains a b) := by
  induction events generalizing previous rows with
  | nil =>
    injection h with h
    rw [←h]
    exact List.IsChain.singleton _
  | cons e es ih =>
    obtain ⟨c,hc,h⟩ := bind_ok h
    obtain ⟨cs,hcs,h⟩ := bind_ok h
    injection h with h
    rw [←h]
    exact List.IsChain.cons_cons (project_next hc) (ih hcs)

theorem edge_not_terminal {a b : RunCurrent} (h : Succeeds a b) :
    isTerminalIngestionRunState a.state=false := by
  obtain ⟨t,ht,-⟩ := h.transition
  rw [isTerminalIngestionRunState,isEmpty_eq_false_iff]
  exact ne_nil_of_mem ht

theorem projections_history {rows : List RunCurrent}
    (h : projections other none events=.ok rows) : RunHistory rows := by
  cases events with
  | nil =>
    injection h with h
    rw [←h]
    exact ⟨by simp,List.IsChain.nil,List.IsChain.nil,List.Pairwise.nil⟩
  | cons e es =>
    obtain ⟨c,hc,h⟩ := bind_ok h
    obtain ⟨cs,hcs,h⟩ := bind_ok h
    injection h with h
    rw [←h]
    have hchain := projections_chain hcs
    refine ⟨?_,?_,?_,?_⟩
    · intro d hd
      obtain rfl := Option.some.inj hd
      obtain ⟨h1,h2,-⟩ := project_first hc
      exact ⟨h1,h2⟩
    · exact hchain.imp fun a b hab => hab.1
    · exact hchain.imp fun a b hab => edge_not_terminal hab.1
    · apply isChain_iff_pairwise.mp
      exact hchain.imp fun a b hab => hab.2

end CardKeepr.Ingestion
