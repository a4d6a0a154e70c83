import CardKeepr.Ingestion.RunEventLog

namespace CardKeepr.Ingestion

open Lib Shared List

variable {other : JsString → Bool}
variable {kind : String} {u : RunUpdate} {c : RunCurrent} {l : List EncodedPayload}
  {a b t : Option PayloadText}

/-- What holds of every row that the commands write. -/
structure RowKept (c : RunCurrent) : Prop where
  stage : ∀n,stageCount c.state=some n → c.completed_stage_count=n
  atMost : c.completed_stage_count ≤ activeRunStages.length
  candidate : unprepared c.state=true → ∀k∈candidateIdentity,c.columns k=none
  approval : unapproved c.state=true → ∀k∈approvalIdentity,c.columns k=none
  deadline : ∀d,c.columns .approval_deadline=some d → isoInstant d=true
  candidatePayload : ∀n∈c.candidate_payload_event_sequence,1 ≤ n ∧ n ≤ c.last_event_sequence
  diagnosticsPayload : ∀n∈c.diagnostics_event_sequence,1 ≤ n ∧ n ≤ c.last_event_sequence

theorem leaves_lookup {cs : List Column} (h : u.leaves cs=true) {c : Column}
    (hc : c∈cs) : u.columns.lookup c=none :=
  Option.isNone_iff_eq_none.mp (all_eq_true.mp h c hc)

theorem assign_none {columns : List (Column × Option JsString)} {old : Column → Option JsString}
    {c : Column} (h : columns.lookup c=none) : assign columns old c=old c := by
  rw [assign,h]
  rfl

/-- What `stepSound` says, one clause each. -/
structure StepSound (u : RunUpdate) (s : IngestionRunState) : Prop where
  kept : u.completed=none → stageCount u.target=none
  counted : ∀n,u.completed=some n → n ≤ activeRunStages.length ∧
    (∀m,stageCount s=some m → m ≤ n) ∧ ∀m,stageCount u.target=some m → n=m
  candidate : unprepared s=true ∨ u.leaves candidateIdentity=true
  approval : unapproved s=true ∨ u.leaves approvalIdentity=true
  unprepared : unprepared u.target=true → unprepared s=true ∧ u.leaves candidateIdentity=true
  unapproved : unapproved u.target=true → unapproved s=true ∧ u.leaves approvalIdentity=true

theorem stepSound_clauses {s : IngestionRunState} (h : stepSound u s=true) : StepSound u s := by
  simp only [stepSound,Bool.and_eq_true,Bool.or_eq_true,Bool.not_eq_true'] at h
  obtain ⟨⟨⟨⟨h1,h2⟩,h3⟩,h4⟩,h5⟩ := h
  refine ⟨?_,?_,h2,h3,?_,?_⟩
  · intro hc
    rw [hc] at h1
    exact Option.isNone_iff_eq_none.mp h1
  · intro n hc
    rw [hc] at h1
    simp only [Bool.and_eq_true,decide_eq_true_eq] at h1
    obtain ⟨⟨hn,hs⟩,ht⟩ := h1
    refine ⟨hn,?_,?_⟩
    · intro m hm
      rw [hm] at hs
      exact of_decide_eq_true hs
    · intro m hm
      rw [hm] at ht
      exact (beq_iff_eq.mp ht).symm
  · intro hu
    rcases h4 with h4 | h4
    · rw [hu] at h4
      cases h4
    · exact h4
  · intro hu
    rcases h5 with h5 | h5
    · rw [hu] at h5
      cases h5
    · exact h5

theorem Fits.sound (h : u.Fits) {s : IngestionRunState} (hs : s∈u.sources) :
    StepSound u s := stepSound_clauses (all_eq_true.mp h.sound s hs)

theorem RowKept.apply (h : RowKept c) (hu : u.Fits)
    (hs : c.state∈u.sources) (id : JsString) : RowKept (u.apply id c) := by
  have hstep := Fits.sound hu hs
  refine ⟨?_,?_,?_,?_,?_,?_,?_⟩
  · intro n hn
    change u.completed.getD c.completed_stage_count=n
    cases hc : u.completed with
    | none =>
      rw [show (u.apply id c).state=u.target from rfl,hstep.kept hc] at hn
      cases hn
    | some m => exact (hstep.counted m hc).2.2 n hn
  · change u.completed.getD c.completed_stage_count ≤ _
    cases hc : u.completed with
    | none => exact h.atMost
    | some m => exact (hstep.counted m hc).1
  · intro ht k hk
    obtain ⟨h1,h2⟩ := hstep.unprepared ht
    change assign u.columns c.columns k=none
    rw [assign_none (leaves_lookup h2 hk),h.candidate h1 k hk]
  · intro ht k hk
    obtain ⟨h1,h2⟩ := hstep.unapproved ht
    change assign u.columns c.columns k=none
    rw [assign_none (leaves_lookup h2 hk),h.approval h1 k hk]
  · intro d hd
    change (u.columns.lookup .approval_deadline).getD (c.columns .approval_deadline)=some d at hd
    cases hl : u.columns.lookup .approval_deadline with
    | none =>
      rw [hl] at hd
      exact h.deadline d hd
    | some v =>
      rw [hl] at hd
      exact hu.deadline d (by rw [hl]; exact congrArg some hd)
  · intro n hn
    change n∈(if u.candidate.isSome then some (c.last_event_sequence+1)
      else c.candidate_payload_event_sequence) at hn
    change 1 ≤ n ∧ n ≤ c.last_event_sequence+1
    split at hn
    · have := Option.some.inj hn
      omega
    · have := h.candidatePayload n hn
      omega
  · intro n hn
    change n∈(if u.diagnostics.isSome then some (c.last_event_sequence+1)
      else c.diagnostics_event_sequence) at hn
    change 1 ≤ n ∧ n ≤ c.last_event_sequence+1
    split at hn
    · have := Option.some.inj hn
      omega
    · have := h.diagnosticsPayload n hn
      omega

theorem encodePayload_ok (h : encodePayload kind t=.ok l) : (t=none ∧ l=[]) ∨ ∃x chunks,t=some x ∧
    x.text≠[] ∧ byteChunks x.text=.ok chunks ∧ l=[⟨kind,chunks,(utf8 x.text).length⟩] := by
  cases t with
  | none =>
    injection h with h
    exact Or.inl ⟨rfl,h.symm⟩
  | some x =>
    obtain ⟨_,hp,h⟩ := bind_ok h
    obtain ⟨chunks,hc,h⟩ := bind_ok h
    injection h with h
    refine Or.inr ⟨x,chunks,rfl,?_,hc,h.symm⟩
    intro he
    have := demand_ok hp
    rw [he] at this
    cases this

/-- The payloads of one event: what a command retains, encoded. -/
structure Encoded (candidate diagnostics : Option PayloadText) (l : List EncodedPayload) :
    Prop where
  split : ∃a b,encodePayload "candidate" candidate=.ok a ∧
    encodePayload "diagnostics" diagnostics=.ok b ∧ l=a++b

theorem safeCount_number {n : Nat} (h : 1 ≤ n) (hn : n ≤ 9007199254740991) :
    safeCount (some (number n))=true := by
  rw [safeCount,Option.bind_some,natural_number]
  exact decide_eq_true ⟨h,hn⟩

theorem fact_good {x : PayloadText} {chunks : List JsString}
    (hk : kind="candidate" ∨ kind="diagnostics") (hx : x.text≠[])
    (hc : byteChunks x.text=.ok chunks) :
    payloadFact (EncodedPayload.fact ⟨kind,chunks,(utf8 x.text).length⟩)=true := by
  have hshort := x.short
  have hne := (byteChunks_spec hc).1
  have hlen := byteChunks_length hc
  have hpos : 1 ≤ chunks.length := length_pos_of_ne_nil hne
  have hbytes := utf8_pos hx
  have hmost := utf8_length_le x.text
  have h1 : safeCount (some (number chunks.length))=true := safeCount_number hpos (by omega)
  have h2 : safeCount (some (number (utf8 x.text).length))=true :=
    safeCount_number hbytes (by omega)
  have hkey : (["candidate","diagnostics"].any fun k => key k=key kind)=true := by
    rcases hk with rfl | rfl <;> decide
  rw [payloadFact,Bool.and_eq_true,Bool.and_eq_true]
  exact ⟨⟨hkey,h1⟩,h2⟩

theorem encodePayload_good
    (hk : kind="candidate" ∨ kind="diagnostics") (h : encodePayload kind t=.ok l) :
    ∀m∈l.map EncodedPayload.fact,payloadFact m=true := by
  intro m hm
  rcases encodePayload_ok h with ⟨-,rfl⟩ | ⟨x,chunks,-,hx,hc,rfl⟩
  · cases hm
  · rw [map_singleton,mem_singleton] at hm
    rw [hm]
    exact fact_good hk hx hc

theorem Encoded.good (h : Encoded a b l) : (l.map EncodedPayload.fact).all payloadFact=true := by
  obtain ⟨x,y,hx,hy,rfl⟩ := h.split
  apply all_eq_true.mpr
  intro m hm
  rw [map_append] at hm
  rcases mem_append.mp hm with hm | hm
  · exact encodePayload_good (Or.inl rfl) hx m hm
  · exact encodePayload_good (Or.inr rfl) hy m hm

theorem lookup_isSome {p : EncodedPayload} (h : p∈l) :
    ((l.map EncodedPayload.fact).lookup (key p.kind)).isSome=true := by
  have hm : key p.kind∈(l.map EncodedPayload.fact).map Prod.fst := by
    rw [map_map]
    exact mem_map_of_mem h
  obtain ⟨v,hv,-⟩ := lookup_of_mem hm
  rw [hv]
  rfl

theorem Encoded.candidate {a b : Option PayloadText} {l : List EncodedPayload} (h : Encoded a b l)
    (ha : a.isSome=true) : ((l.map EncodedPayload.fact).lookup (key "candidate")).isSome=true := by
  obtain ⟨x,y,hx,-,rfl⟩ := h.split
  rcases encodePayload_ok hx with ⟨rfl,-⟩ | ⟨t,chunks,-,-,-,rfl⟩
  · cases ha
  · exact lookup_isSome (p := ⟨"candidate",chunks,(utf8 t.text).length⟩) (by simp)

theorem Encoded.diagnostics (h : Encoded a b l) (hb : b.isSome=true) :
    ((l.map EncodedPayload.fact).lookup (key "diagnostics")).isSome=true := by
  obtain ⟨x,y,-,hy,rfl⟩ := h.split
  rcases encodePayload_ok hy with ⟨rfl,-⟩ | ⟨t,chunks,-,-,-,rfl⟩
  · cases hb
  · exact lookup_isSome (p := ⟨"diagnostics",chunks,(utf8 t.text).length⟩) (by simp)

theorem event_ofEvent (kind : RunEventKind) (occurredAt : JsString) (facts : List (JsString × Json))
    (h : c.completed_stage_count ≤ activeRunStages.length) :
    ofEvent (eventRow kind occurredAt facts c) c=true := by
  simp [ofEvent,eventRow,h]

theorem project_eventRow {previous : Option RunCurrent} {kind : RunEventKind}
    {occurredAt : JsString} {facts ps : List (JsString × Json)}
    (hdate : isoInstant occurredAt=true)
    (hcount : c.completed_stage_count ≤ activeRunStages.length)
    (hps : (Json.obj ((key "current",c.json)::facts)).member (key "payloads")=some (.obj ps))
    (hgood : ps.all payloadFact=true)
    (hc : goodReference (eventRow kind occurredAt facts c) ps "candidate"
      c.candidate_payload_event_sequence=true)
    (hd : goodReference (eventRow kind occurredAt facts c) ps "diagnostics"
      c.diagnostics_event_sequence=true)
    (hf : followsOn previous (eventRow kind occurredAt facts c) kind c=true)
    (hk : kindFits kind c.state=true) :
    projectIngestionRunEvent other previous (eventRow kind occurredAt facts c)=.ok c := by
  have h1 : kindOf (eventRow kind occurredAt facts c).event_kind=some kind := kindOf_text kind
  have h2 : stateOf (eventRow kind occurredAt facts c).to_state=some c.state := stateOf_text c.state
  have h3 : dateParses other (eventRow kind occurredAt facts c).occurred_at=true := by
    change dateParses other occurredAt=true
    rw [dateParses,hdate,Bool.true_or]
  have h4 : ((eventRow kind occurredAt facts c).payload.member (key "current")).bind
      RunCurrent.read=some c := by
    change (some c.json).bind RunCurrent.read=some c
    rw [Option.bind_some,read_json]
  have h5 := event_ofEvent kind occurredAt facts hcount
  have h6 : retainedPayloads (eventRow kind occurredAt facts c).payload=.ok ps := by
    change retainedPayloads (.obj ((key "current",c.json)::facts))=.ok ps
    rw [retainedPayloads,hps]
    exact if_pos hgood
  rw [projectIngestionRunEvent,h1,required,ok_bind,h2,Option.isSome_some,check,demand_true,ok_bind,
    h3,check,demand_true,ok_bind,h4,required,ok_bind,h5,check,demand_true,ok_bind,h6,ok_bind,hc,
    check,demand_true,ok_bind,hd,check,demand_true,ok_bind,hf,check,demand_true,ok_bind,hk,check,
    demand_true,ok_bind]

theorem source_counted {s t : IngestionRunState} {facts : IngestionRunTransitionFacts}
    (h : canTransitionIngestionRun s t facts=true) : ∃m,stageCount s=some m := by
  obtain ⟨x,hx,-⟩ := canTransition_edge h
  cases s with
  | published => cases hx
  | rejected => cases hx
  | expired => cases hx
  | failed => cases hx
  | planning => exact ⟨_,rfl⟩
  | collecting => exact ⟨_,rfl⟩
  | paused => exact ⟨_,rfl⟩
  | parsing => exact ⟨_,rfl⟩
  | reconciling => exact ⟨_,rfl⟩
  | awaiting_approval => exact ⟨_,rfl⟩
  | publishing => exact ⟨_,rfl⟩

theorem setOnce_split {c : Column} (h : c∈setOnceColumns) :
    c∈candidateIdentity ∨ c∈approvalIdentity :=
  mem_append.mp (show c∈candidateIdentity++approvalIdentity from h)

theorem RowKept.setOnce (h : RowKept c) (hu : u.Fits)
    (hs : c.state∈u.sources) (id : JsString) {k : Column} (hk : k∈setOnceColumns) :
    c.columns k=none ∨ c.columns k=(u.apply id c).columns k := by
  have hstep := Fits.sound hu hs
  rcases setOnce_split hk with hk | hk
  · rcases hstep.candidate with hb | hl
    · exact Or.inl (h.candidate hb k hk)
    · exact Or.inr (assign_none (leaves_lookup hl hk)).symm
  · rcases hstep.approval with hb | hl
    · exact Or.inl (h.approval hb k hk)
    · exact Or.inr (assign_none (leaves_lookup hl hk)).symm

theorem RowKept.edge (hu : u.Fits) (hs : c.state∈u.sources) : canTransitionIngestionRun c.state
    u.target ⟨assign u.columns c.columns .failure_code,u.kind==.collection_terminated⟩=true :=
  all_eq_true.mp (hu.edge (c.columns .failure_code)) c.state hs

theorem RowKept.counts (h : RowKept c) (hu : u.Fits) (hs : c.state∈u.sources) :
    c.completed_stage_count ≤ u.completed.getD c.completed_stage_count := by
  cases hc : u.completed with
  | none => exact le_refl _
  | some n =>
    obtain ⟨m,hm⟩ := source_counted (RowKept.edge hu hs)
    rw [h.stage m hm]
    exact ((Fits.sound hu hs).counted n hc).2.1 m hm

theorem nextEvent_apply (h : RowKept c) (hu : u.Fits)
    (hs : c.state∈u.sources) (id occurredAt : JsString) (facts : List (JsString × Json)) :
    nextEvent c (eventRow u.kind occurredAt facts (u.apply id c)) u.kind (u.apply id c)=true := by
  have hkind := hu.kind
  rw [Bool.and_eq_true] at hkind
  have hset : (setOnceColumns.all fun k => (c.columns k).isNone ||
      c.columns k==(u.apply id c).columns k)=true := by
    apply all_eq_true.mpr
    intro k hk
    rw [Bool.or_eq_true,beq_iff_eq,Option.isNone_iff_eq_none]
    exact h.setOnce hu hs id hk
  have either : ∀(retained : Bool) (new old : Option Nat),
      ((if retained then new else old)==old || (if retained then new else old)==new)=true := by
    intro retained new old
    cases retained with
    | false => exact Bool.or_eq_true_iff.mpr (Or.inl (beq_self_eq_true old))
    | true => exact Bool.or_eq_true_iff.mpr (Or.inr (beq_self_eq_true new))
  simp only [nextEvent,Bool.and_eq_true]
  refine ⟨⟨⟨⟨⟨⟨⟨⟨hkind.1,?_⟩,?_⟩,?_⟩,RowKept.edge hu hs⟩,?_⟩,hset⟩,either _ _ _⟩,either _ _ _⟩
  · exact beq_self_eq_true c.ingestion_run_id
  · exact beq_self_eq_true (c.last_event_sequence+1)
  · exact beq_self_eq_true (some (key c.state.text))
  · exact decide_eq_true (h.counts hu hs)

theorem goodReference_apply {e : RunEventRow} {n : Nat} {ps : List (JsString × Json)} {retained : Bool} {old : Option Nat} (he : e.sequence_number=n+1)
    (hold : ∀m∈old,1 ≤ m ∧ m ≤ n)
    (hps : retained=true → (ps.lookup (key kind)).isSome=true) :
    goodReference e ps kind (if retained then some (n+1) else old)=true := by
  split
  · rename_i hr
    rw [goodReference,he,hps hr,Bool.or_true,Bool.and_true]
    exact decide_eq_true ⟨by omega,le_refl _⟩
  · cases ho : old with
    | none => rfl
    | some m =>
      obtain ⟨h1,h2⟩ := hold m ho
      have hne : (m==n+1)=false := beq_eq_false_iff_ne.mpr (by omega)
      rw [goodReference,he,hne,Bool.not_false,Bool.true_or,Bool.and_true]
      exact decide_eq_true ⟨h1,by omega⟩

theorem RowKept.accepted (h : RowKept c) (hu : u.Fits)
    (hs : c.state∈u.sources) (id : JsString) {occurredAt : JsString}
    (hdate : isoInstant occurredAt=true) {facts : List (JsString × Json)} (hl : Encoded u.candidate u.diagnostics l)
    (hps : (Json.obj ((key "current",(u.apply id c).json)::facts)).member (key "payloads")=
      some (.obj (l.map EncodedPayload.fact))) :
    projectIngestionRunEvent other (some c) (eventRow u.kind occurredAt facts (u.apply id c))=
      .ok (u.apply id c) := by
  have hkind := hu.kind
  rw [Bool.and_eq_true] at hkind
  apply project_eventRow hdate (h.apply hu hs id).atMost hps hl.good
  · exact goodReference_apply rfl h.candidatePayload hl.candidate
  · exact goodReference_apply rfl h.diagnosticsPayload hl.diagnostics
  · exact nextEvent_apply h hu hs id occurredAt facts
  · exact hkind.2

theorem goodGames_of {games : List JsString} (hne : games≠[]) (hnd : games.Nodup)
    (hk : ∀g∈games,g∈knownGames) : goodGames (some (.arr (games.map .str)))=true := by
  have hinj : Function.Injective Json.str := fun a b h => by injection h
  have hall : ((games.map Json.str).all fun g => knownGames.any fun k => decide (g=.str k))=true := by
    apply all_eq_true.mpr
    intro g hg
    obtain ⟨k,hk2,rfl⟩ := mem_map.mp hg
    exact any_eq_true.mpr ⟨k,hk k hk2,decide_eq_true rfl⟩
  have hempty : (games.map Json.str).isEmpty=false := by
    rw [isEmpty_eq_false_iff]
    exact fun he => hne (map_eq_nil_iff.mp he)
  rw [goodGames,hempty,hall,decide_eq_true (hnd.map hinj)]
  rfl

theorem create_kept (run id : JsString) (state : StartState) (a b : Bool) :
    RowKept (emptyRunCurrent run id state a b) := by
  refine ⟨?_,?_,fun _ k _ => rfl,fun _ k _ => rfl,fun d hd => (by cases hd),?_,?_⟩
  · intro n hn
    cases state with
    | planning => exact Option.some.inj hn
    | collecting => exact Option.some.inj hn
  · cases state with
    | planning => exact (by decide : 0 ≤ 6)
    | collecting => exact (by decide : 1 ≤ 6)
  · intro n hn
    change n∈(if a then some 1 else none) at hn
    split at hn
    · obtain rfl := Option.some.inj hn
      exact ⟨le_refl _,le_refl _⟩
    · cases hn
  · intro n hn
    change n∈(if b then some 1 else none) at hn
    split at hn
    · obtain rfl := Option.some.inj hn
      exact ⟨le_refl _,le_refl _⟩
    · cases hn

theorem create_accepted {input : CreateRun} (hnd : input.games.Nodup)
    (hk : ∀g∈input.games,g∈knownGames) (id : JsString)
    (hl : Encoded input.candidate input.diagnostics l) :
    projectIngestionRunEvent other none (eventRow .created input.startedAt.iso
        (eventFacts (.arr (input.games.map .str)) .null l none)
        (emptyRunCurrent input.runId id input.state input.candidate.isSome
          input.diagnostics.isSome))=
      .ok (emptyRunCurrent input.runId id input.state input.candidate.isSome
        input.diagnostics.isSome) := by
  have hempty : ∀m∈(none : Option Nat),1 ≤ m ∧ m ≤ 0 := fun m hm => by cases hm
  have hps : (Json.obj ((key "current",RunCurrent.json (emptyRunCurrent input.runId id input.state
      input.candidate.isSome input.diagnostics.isSome))::eventFacts
      (.arr (input.games.map .str)) .null l none)).member (key "payloads")=
      some (.obj (l.map EncodedPayload.fact)) := rfl
  apply project_eventRow (isoInstant_iso _) (create_kept _ _ _ _ _).atMost hps
  · exact hl.good
  · exact goodReference_apply (n := 0) rfl hempty hl.candidate
  · exact goodReference_apply (n := 0) rfl hempty hl.diagnostics
  · have hg := goodGames_of input.selected hnd hk
    change firstEvent _ _ _=true
    cases hst : input.state with
    | planning => exact hg
    | collecting => exact hg
  · rfl

end CardKeepr.Ingestion
