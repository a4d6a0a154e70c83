import CardKeepr.Ingestion.RunProjection

namespace CardKeepr.Ingestion

open Lib Shared List

variable {other : JsString → Bool}
variable {c : RunCurrent} {r : Option RunCurrent} {db next reads : Database}
  {events : List RunEventRow}

theorem filter_after {s n : Nat} (h : events.map RunEventRow.sequence_number=List.range' s n)
    (k : Nat) : events.filter (fun e => decide (s+k ≤ e.sequence_number))=events.drop k := by
  induction events generalizing s n k with
  | nil => rw [drop_nil,filter_nil]
  | cons e es ih =>
    cases n with
    | zero => cases h
    | succ n =>
      rw [map_cons,range'_succ] at h
      injection h with he hes
      cases k with
      | zero =>
        have hall : es.filter (fun x => decide (s+0 ≤ x.sequence_number))=es := by
          apply filter_eq_self.mpr
          intro x hx
          have hm : x.sequence_number∈List.range' (s+1) n := by
            rw [←hes]
            exact mem_map_of_mem hx
          have := mem_range'_1.mp hm
          exact decide_eq_true (by omega)
        rw [filter_cons_of_pos (by simp [he]),hall,drop_zero]
      | succ j =>
        have hsum : s+(j+1)=s+1+j := by omega
        rw [filter_cons_of_neg (by simp; omega),drop_succ_cons,hsum]
        exact ih hes j

theorem page_drop (h : Logged other db c) (k : Nat) :
    runEventsPage db c.ingestion_run_id k=((db.eventsOf c.ingestion_run_id).drop k).take 100 := by
  have hfilter : (db.eventsOf c.ingestion_run_id).filter (fun e => decide (k < e.sequence_number))=
      (db.eventsOf c.ingestion_run_id).drop k := by
    rw [←filter_after h.numbered k]
    apply filter_congr
    intro e _
    exact decide_eq_decide.mpr (by omega)
  have hsorted : ((db.eventsOf c.ingestion_run_id).drop k).Pairwise
      (fun a b => decide (a.sequence_number ≤ b.sequence_number)=true) := by
    have hp : ((db.eventsOf c.ingestion_run_id).map RunEventRow.sequence_number).Pairwise (· < ·) := by
      rw [h.numbered]
      exact pairwise_lt_range'
    rw [pairwise_map] at hp
    apply List.Pairwise.sublist (drop_sublist k _)
    exact hp.imp fun {a b} hab => decide_eq_true (by omega)
  rw [runEventsPage,hfilter,mergeSort_of_pairwise hsorted]

theorem projectAll_some (h : projectAll other (some c) events=.ok r) :
    ∃d,r=some d ∧ d.last_event_sequence=c.last_event_sequence+events.length := by
  induction events generalizing c with
  | nil =>
    injection h with h
    exact ⟨c,h.symm,rfl⟩
  | cons e es ih =>
    obtain ⟨d,hd,h⟩ := bind_ok h
    obtain ⟨x,hx,hs⟩ := ih h
    have hseq := (project_next hd).1.sequence
    refine ⟨x,hx,?_⟩
    rw [hs,hseq,length_cons]
    omega

theorem projectAll_count (h : projectAll other none events=.ok r) :
    (r.map RunCurrent.last_event_sequence).getD 0=events.length := by
  cases events with
  | nil =>
    injection h with h
    rw [←h]
    rfl
  | cons e es =>
    obtain ⟨d,hd,h⟩ := bind_ok h
    obtain ⟨x,rfl,hs⟩ := projectAll_some h
    obtain ⟨-,-,hone⟩ := project_first hd
    change x.last_event_sequence=es.length+1
    rw [hs,hone]
    omega

theorem foldPages_ok (h : Logged other db c) {fuel k : Nat} {current : Option RunCurrent}
    (hk : projectAll other none ((db.eventsOf c.ingestion_run_id).take k)=.ok current)
    (hle : k ≤ (db.eventsOf c.ingestion_run_id).length)
    (hfuel : (db.eventsOf c.ingestion_run_id).length < k+fuel) :
    foldPages other db c.ingestion_run_id fuel current=.ok (some c) := by
  induction fuel generalizing k current with
  | zero => omega
  | succ fuel ih =>
    have hcount := projectAll_count hk
    rw [length_take,Nat.min_eq_left hle] at hcount
    have hpage := page_drop h k
    have hsplit : (db.eventsOf c.ingestion_run_id).take k++
        (((db.eventsOf c.ingestion_run_id).drop k).take 100++
          ((db.eventsOf c.ingestion_run_id).drop k).drop 100)=db.eventsOf c.ingestion_run_id := by
      rw [take_append_drop,take_append_drop]
    have hwhole := h.folds
    rw [←hsplit,projectAll_append,hk,ok_bind,projectAll_append] at hwhole
    obtain ⟨next,hnext,hrest⟩ := bind_ok hwhole
    rw [foldPages]
    simp only [hcount,hpage,hnext,ok_bind]
    split
    · rename_i hshort
      -- a short page is the last one
      have hnil : ((db.eventsOf c.ingestion_run_id).drop k).drop 100=[] := by
        apply drop_eq_nil_of_le
        rw [length_take] at hshort
        omega
      rw [hnil] at hrest
      exact hrest
    · rename_i hfull
      have hlong : k+100 ≤ (db.eventsOf c.ingestion_run_id).length := by
        rw [length_take,length_drop] at hfull
        omega
      have htake : projectAll other none ((db.eventsOf c.ingestion_run_id).take (k+100))=.ok next := by
        rw [take_add,projectAll_append,hk,ok_bind]
        exact hnext
      exact ih htake hlong (by omega)

theorem foldRunEvents_row (h : Logged other db c) :
    foldRunEvents other db c.ingestion_run_id=.ok c := by
  have hlen : (db.eventsOf c.ingestion_run_id).length ≤ db.events.length :=
    length_filter_le _ _
  have hpages : foldPages other db c.ingestion_run_id (db.events.length+1) none=.ok (some c) :=
    foldPages_ok (k := 0) h (by rw [take_zero]; rfl) (Nat.zero_le _) (by omega)
  rw [foldRunEvents,hpages]
  rfl

theorem min_range' (n : Nat) : (List.range' 0 (n+1)).min?=some 0 := by
  rw [List.min?_eq_some_iff]
  exact ⟨mem_range'_1.mpr (by omega),fun b _ => Nat.zero_le b⟩

theorem max_range' (n : Nat) : (List.range' 0 (n+1)).max?=some n := by
  rw [List.max?_eq_some_iff]
  refine ⟨mem_range'_1.mpr (by omega),?_⟩
  intro b hb
  have := mem_range'_1.mp hb
  omega

theorem PayloadsKept.complete {e : RunEventRow} (h : PayloadsKept db.chunks e) :
    (payloadMembers e).all (payloadComplete db e)=true := by
  apply all_eq_true.mpr
  intro m hm
  obtain ⟨kind,texts,bytes,hfact,hne,hsum,hrows⟩ := h m hm
  obtain ⟨n,hn⟩ : ∃n,texts.length=n+1 := by
    have := length_pos_of_ne_nil hne
    exact ⟨texts.length-1,by omega⟩
  have hlen : (chunkRows e.ingestion_run_id e.sequence_number ⟨kind,texts,bytes⟩).length=n+1 := by
    rw [chunkRows,length_map,length_zipIdx,hn]
  have hidx := chunkRows_index e.ingestion_run_id e.sequence_number ⟨kind,texts,bytes⟩
  rw [hn] at hidx
  have hbytes : ((chunkRows e.ingestion_run_id e.sequence_number ⟨kind,texts,bytes⟩).map
      fun r => r.content.length).sum=bytes := by
    rw [←hsum,chunkRows,map_map]
    have : (texts.zipIdx.map ((fun r : PayloadChunk => r.content.length) ∘ fun c =>
        (⟨e.ingestion_run_id,e.sequence_number,key kind,c.2,utf8 c.1⟩ : PayloadChunk)))=
        (texts.zipIdx.map Prod.fst).map fun c => (utf8 c).length := by
      rw [map_map]
      rfl
    rw [this,zipIdx_map_fst]
  have hchunks : (m.2.member (key "chunks")).bind natural=some (n+1) := by
    rw [hfact,←hn]
    exact natural_number texts.length
  have htotal : (m.2.member (key "bytes")).bind natural=some bytes := by
    rw [hfact]
    exact natural_number bytes
  simp only [payloadComplete,hrows,hlen,hidx,hbytes,hchunks,htotal,min_range',max_range',
    Option.map_some,decide_true,Bool.and_self]

theorem filter_first {n : Nat} (h : events.map RunEventRow.sequence_number=List.range' 1 (n+1)) :
    ∃e∈events,e.sequence_number=1 ∧ events.filter (fun x => x.sequence_number=1)=[e] := by
  cases events with
  | nil => cases h
  | cons e es =>
    rw [map_cons,range'_succ] at h
    injection h with he hes
    have hnone : es.filter (fun x => x.sequence_number=1)=[] := by
      apply filter_eq_nil_iff.mpr
      intro x hx hc
      have hm : x.sequence_number∈List.range' 2 n := by
        rw [←hes]
        exact mem_map_of_mem hx
      have h1 := mem_range'_1.mp hm
      have h2 : x.sequence_number=1 := of_decide_eq_true hc
      omega
    refine ⟨e,mem_cons_self,he,?_⟩
    rw [filter_cons_of_pos (by simp [he]),hnone]

theorem Logged.selected (h : Logged other db c) :
    ((db.eventsOf c.ingestion_run_id).filter fun e => e.sequence_number=1).flatMap selectedGamesOf=
      db.games c.ingestion_run_id := by
  obtain ⟨n,hn⟩ : ∃n,c.last_event_sequence=n+1 :=
    ⟨c.last_event_sequence-1,by have := h.sequence_pos; omega⟩
  have hnum := h.numbered
  rw [hn] at hnum
  obtain ⟨e,he,hone,hfilter⟩ := filter_first hnum
  rw [hfilter,List.flatMap_singleton,selectedGamesOf,h.games e he hone]
  change ((db.games c.ingestion_run_id).map Json.str).filterMap textIn=_
  rw [filterMap_map]
  exact filterMap_some

theorem Logged.current (h : Logged other db c) : historyCurrent db c.ingestion_run_id c=true := by
  obtain ⟨e,he,hid,hseq⟩ := projectAll_last h.folds h.ne_nil
  apply any_eq_true.mpr
  refine ⟨e,he,?_⟩
  have hmax : ((db.eventsOf c.ingestion_run_id).all fun f =>
      decide (f.sequence_number ≤ e.sequence_number))=true := by
    apply all_eq_true.mpr
    intro f hf
    rw [hseq]
    exact decide_eq_true (h.sequence_le hf).2
  rw [hmax,Bool.and_true,Bool.and_eq_true]
  exact ⟨decide_eq_true hseq,decide_eq_true hid⟩

theorem upsert_row (h : Kept other db) (hc : c∈db.currents) :
    upsertCurrent c db.currents=db.currents := by
  have hany : (db.currents.any fun d => d.ingestion_run_id=c.ingestion_run_id)=true :=
    any_eq_true.mpr ⟨c,hc,decide_eq_true rfl⟩
  rw [upsertCurrent,if_pos hany]
  conv_rhs => rw [←map_id db.currents]
  apply map_congr_left
  intro d hd
  split
  · rename_i he
    exact (eventsOf_row h hc hd he).symm
  · rfl

theorem Kept.rebuild (h : Kept other db) (hc : c∈db.currents) (hf : foldRunEvents other reads c.ingestion_run_id=.ok c) :
    rebuildRunProjection other c.ingestion_run_id true reads db=.ok (c,db) := by
  obtain ⟨-,hl⟩ := h.rows c hc
  have hpay : ((db.eventsOf c.ingestion_run_id).all fun e =>
      (payloadMembers e).all (payloadComplete db e))=true := by
    apply all_eq_true.mpr
    intro e he
    exact (hl.payloads e he).complete
  simp only [rebuildRunProjection,hf,hl.current,hpay,demand_true,ok_bind,upsert_row h hc,hl.selected,
    Function.update_eq_self]

theorem insertEvents_grow {news out : List RunEventRow}
    (h : insertEvents events news=.ok out) : ∃more,out=events++more := ⟨news,(insertEvents_ok h).1⟩

theorem Write.grow {w : Write} (hw : w.apply db=.ok next) : ∃more,next.events=db.events++more := by
  cases w with
  | create input id given =>
    obtain ⟨_,-,hw⟩ := bind_ok (show createRunEventStatement input id given db=_ from hw)
    obtain ⟨_,-,hw⟩ := bind_ok hw
    obtain ⟨db1,h1,hw⟩ := bind_ok hw
    obtain ⟨_,-,hw⟩ := bind_ok hw
    obtain ⟨db2,h2,hw⟩ := bind_ok hw
    obtain ⟨_,-,hw⟩ := bind_ok hw
    obtain ⟨-,-,-,rfl⟩ := anchorRun_ok h1
    obtain ⟨_,-,h2⟩ := bind_ok h2
    injection h2 with h2
    subst h2
    obtain ⟨events,he,rfl⟩ := appendRunEvent_ok hw
    exact insertEvents_grow he
  | update u issued run id given =>
    obtain ⟨_,-,hw⟩ := bind_ok (show runEventStatement u run id given db=_ from hw)
    obtain ⟨_,-,hw⟩ := bind_ok hw
    obtain ⟨_,-,hw⟩ := bind_ok hw
    obtain ⟨_,-,hw⟩ := bind_ok hw
    obtain ⟨events,he,rfl⟩ := appendRunEvent_ok hw
    exact insertEvents_grow he
  | expire sweepId observedAt given =>
    obtain ⟨_,-,hw⟩ := bind_ok (show expireRunEventsStatement sweepId observedAt given db=_ from hw)
    obtain ⟨events,he,hw⟩ := bind_ok hw
    obtain ⟨_,-,hw⟩ := bind_ok hw
    injection hw with hw
    subst hw
    exact insertEvents_grow he

theorem Batch.grow {ws : List Write} (hb : Batch ws db next) :
    ∃more,next.events=db.events++more := by
  induction hb with
  | done => exact ⟨[],(append_nil _).symm⟩
  | write fresh applied rest ih =>
    obtain ⟨a,ha⟩ := Write.grow applied
    obtain ⟨b,hb⟩ := ih
    exact ⟨a++b,by rw [hb,ha,append_assoc]⟩

theorem Written.grow (hw : Written db next) : ∃more,next.events=db.events++more := by
  induction hw with
  | refl => exact ⟨[],(append_nil _).symm⟩
  | tail _ hb ih =>
    obtain ⟨ws,hb⟩ := hb
    obtain ⟨a,ha⟩ := ih
    obtain ⟨b,hb⟩ := hb.grow
    exact ⟨a++b,by rw [hb,ha,append_assoc]⟩

theorem foldRunEvents_missing {db : Database} {run : JsString} (h : db.eventsOf run=[]) :
    ∃e,foldRunEvents other db run=.error e := by
  have hpage : runEventsPage db run 0=[] := by
    rw [runEventsPage,h,filter_nil,mergeSort_nil,take_nil]
  refine ⟨"Ingestion Run event history is missing.",?_⟩
  rw [foldRunEvents,foldPages]
  simp only [Option.map_none,Option.getD_none,hpage]
  rfl

theorem Kept.fold_row (h : Kept other db) {run : JsString}
    (hf : foldRunEvents other db run=.ok c) : c∈db.currents ∧ c.ingestion_run_id=run := by
  by_cases hnil : db.eventsOf run=[]
  · obtain ⟨e,he⟩ := @foldRunEvents_missing other db run hnil
    rw [he] at hf
    cases hf
  · obtain ⟨e,he⟩ := exists_mem_of_ne_nil _ hnil
    obtain ⟨hm,hr⟩ := mem_eventsOf.mp he
    obtain ⟨d,hd,hdr⟩ := h.owned e hm
    have hrow := foldRunEvents_row (h.rows d hd).2
    rw [hdr,hr,hf] at hrow
    injection hrow with hrow
    rw [hrow]
    exact ⟨hd,hdr.trans hr⟩

theorem Kept.fence (hr : Kept other reads) (h : Kept other db) (hw : Written reads db)
    {run : JsString} (hf : foldRunEvents other reads run=.ok c)
    (hfence : historyCurrent db run c=true) : c∈db.currents ∧ c.ingestion_run_id=run := by
  obtain ⟨hc,hrun⟩ := hr.fold_row hf
  subst hrun
  obtain ⟨-,hlc⟩ := hr.rows c hc
  obtain ⟨more,hmore⟩ := hw.grow
  have hall : db.eventsOf c.ingestion_run_id=reads.eventsOf c.ingestion_run_id++
      more.filter (fun e => e.ingestion_run_id=c.ingestion_run_id) := by
    rw [Database.eventsOf,hmore,filter_append]
    rfl
  obtain ⟨e,he,hx⟩ := any_eq_true.mp hfence
  simp only [Bool.and_eq_true,decide_eq_true_eq,all_eq_true] at hx
  obtain ⟨d,hd,hdr⟩ := h.owned e (mem_eventsOf.mp he).1
  have hdc : d.ingestion_run_id=c.ingestion_run_id := hdr.trans (mem_eventsOf.mp he).2
  obtain ⟨-,hld⟩ := h.rows d hd
  have hfolds := hld.folds
  have hnum := congrArg List.length hld.numbered
  have hnumc := congrArg List.length hlc.numbered
  obtain ⟨f,hfm,-,hfseq⟩ := projectAll_last hld.folds hld.ne_nil
  rw [hdc] at hfolds hfm hnum
  rw [length_map,length_range'] at hnum hnumc
  have hle := hx.2 f hfm
  rw [hfseq,hx.1.1] at hle
  rw [hall,length_append,hnumc] at hnum
  have hnil : more.filter (fun e => e.ingestion_run_id=c.ingestion_run_id)=[] :=
    length_eq_zero_iff.mp (by omega)
  rw [hall,hnil,append_nil,hlc.folds] at hfolds
  injection hfolds with hfolds
  rw [Option.some.inj hfolds]
  exact ⟨hd,rfl⟩

/-- What the log of a database says about its rows. -/
structure LogSound (other : JsString → Bool) (db : Database) : Prop where
  present : ∀run∈db.runs,∃c∈db.currents,c.ingestion_run_id=run
  single : (db.currents.map RunCurrent.ingestion_run_id).Nodup
  owned : ∀e∈db.events,∃c∈db.currents,c.ingestion_run_id=e.ingestion_run_id
  /-- every event is accepted after those before it, and the last one leaves the row -/
  folds : ∀c∈db.currents,∃rows,projections other none (db.eventsOf c.ingestion_run_id)=.ok rows ∧
    rows.getLast?=some c
  rebuilt : ∀c∈db.currents,rebuildRunProjection other c.ingestion_run_id true db db=.ok (c,db)
  /-- a rebuild that read the history earlier fails or changes nothing -/
  stale : ∀later,Written db later → ∀run maintenance c out,
    rebuildRunProjection other run maintenance db later=.ok (c,out) → out=later

theorem projections_last {previous : Option RunCurrent} (h : projectAll other previous events=.ok r) :
    ∃rows,projections other previous events=.ok rows ∧ (rows.getLast?).or previous=r := by
  induction events generalizing previous with
  | nil =>
    injection h with h
    exact ⟨[],rfl,h⟩
  | cons e es ih =>
    obtain ⟨c,hc,h⟩ := bind_ok h
    obtain ⟨rows,hrows,hlast⟩ := ih h
    refine ⟨c::rows,?_,?_⟩
    · rw [projections,hc,ok_bind,hrows]
      rfl
    · rw [←hlast,List.getLast?_cons]
      cases rows.getLast? with
      | none => rfl
      | some d => rfl

theorem Kept.sound (h : Kept other db) : LogSound other db := by
  refine ⟨fun run hr => (h.anchored run).mp hr,h.unique,h.owned,?_,?_,?_⟩
  · intro c hc
    obtain ⟨rows,hrows,hlast⟩ := projections_last (h.rows c hc).2.folds
    rw [Option.or_none] at hlast
    exact ⟨rows,hrows,hlast⟩
  · intro c hc
    exact h.rebuild hc (foldRunEvents_row (h.rows c hc).2)
  · intro later hw run maintenance c out hr
    obtain ⟨_,hm,hr⟩ := bind_ok hr
    obtain ⟨d,hd,hr⟩ := bind_ok hr
    obtain ⟨_,hfence,hr⟩ := bind_ok hr
    obtain ⟨_,hpay,hr⟩ := bind_ok hr
    have hlater := hw.kept h
    obtain ⟨hmem,hrun⟩ := h.fence hlater hw hd (demand_ok hfence)
    subst hrun
    have hsame := hlater.rebuild hmem hd
    simp only [rebuildRunProjection,hd,demand_ok hfence,demand_ok hpay,demand_true,ok_bind] at hsame
    rw [hsame] at hr
    injection hr with hr
    injection hr with _ hr
    exact hr.symm

/-- Every history that the projector accepts is a path of the transition table that keeps what it
set and never counts stages down; and after every sequence of writes through the event statements
each run's events are such a history with the current row at its end, so that rebuilding the row
changes nothing. -/
theorem run_event_log (other : JsString → Bool) {events : List RunEventRow}
    {rows : List RunCurrent} (hrows : projections other none events=.ok rows) {db : Database}
    (hdb : Written Database.empty db) : RunHistory rows ∧ LogSound other db :=
  ⟨projections_history hrows,(hdb.kept empty_kept).sound⟩

instance (w : Write) (db : Database) : Decidable (w.Fresh db) :=
  match w with
  | .create _ eventId _ => inferInstanceAs (Decidable (∀e∈db.events,e.event_id≠eventId))
  | .update _ _ _ eventId _ => inferInstanceAs (Decidable (∀e∈db.events,e.event_id≠eventId))
  | .expire _ _ _ => .isTrue trivial

/-- A batch, run with a check that its identities are new. -/
def attempt : List Write → Database → Except String Database
  | [],db => .ok db
  | w::ws,db => do
    demand (decide (w.Fresh db)) "repeated identity"
    let db ← w.apply db
    attempt ws db

theorem attempt_batch {ws : List Write} (h : attempt ws db=.ok next) : Batch ws db next := by
  induction ws generalizing db with
  | nil =>
    injection h with h
    rw [h]
    exact .done
  | cons w ws ih =>
    obtain ⟨_,hf,h⟩ := bind_ok h
    obtain ⟨mid,hw,h⟩ := bind_ok h
    exact .write (of_decide_eq_true (demand_ok hf)) hw (ih h)

/-- A day at midnight. -/
def midnight (year : Fin 10000) (month day : Fin 100)
    (hr : (⟨year,month,day,0,0,0,0,year.2,month.2,day.2,zero_lt_hundred,zero_lt_hundred,
      zero_lt_hundred,zero_lt_thousand⟩ : DateTime).Real) : Instant := ⟨_,hr⟩

def preparedAt : Instant := midnight 2026 9 4 (by decide)
def preparedUntil : Instant := midnight 2026 9 11 (by decide)
def sweptAt : Instant := midnight 2026 9 12 (by decide)

def granted : Circumstances := ⟨true,true⟩

/-- `startPreparedRun` of a run with a candidate, and the sweep a week later. -/
def preparedAndExpired : List Write := [
  .create ⟨key "run",[key "gundam"],by decide,preparedAt,.planning,some ⟨key "[]",by decide⟩,
    some ⟨key "[]",by decide⟩⟩ (key "1") granted,
  .update _ (.transition preparedAt .collecting) (key "run") (key "2") granted,
  .update _ (.transition preparedAt .parsing) (key "run") (key "3") granted,
  .update _ (.transition preparedAt .reconciling) (key "run") (key "4") granted,
  .update _ (.completePreparedRun (key "digest") preparedAt preparedUntil) (key "run") (key "5")
    granted,
  .expire (key "sweep") sweptAt granted]

/-- The run passes through six states and ends expired; its own events are the accepted history. -/
theorem run_event_log_expired : ∃db rows,Written Database.empty db ∧
    (rows.map RunCurrent.state=[.planning,.collecting,.parsing,.reconciling,.awaiting_approval,
      .expired]) ∧ RunHistory rows ∧ LogSound (fun _ => false) db := by
  have hsome : (match attempt preparedAndExpired Database.empty with
      | .error _ => false
      | .ok db => match projections (fun _ => false) none (db.eventsOf (key "run")) with
        | .error _ => false
        | .ok rows => decide (rows.map RunCurrent.state=[.planning,.collecting,.parsing,
          .reconciling,.awaiting_approval,.expired]))=true := by decide +kernel
  cases hd : attempt preparedAndExpired Database.empty with
  | error e =>
    rw [hd] at hsome
    cases hsome
  | ok db =>
    rw [hd] at hsome
    cases hr : projections (fun _ => false) none (db.eventsOf (key "run")) with
    | error e =>
      simp only [hr] at hsome
      cases hsome
    | ok rows =>
      simp only [hr] at hsome
      have hw : Written Database.empty db := .single ⟨preparedAndExpired,attempt_batch hd⟩
      obtain ⟨h1,h2⟩ := run_event_log (fun _ => false) hr hw
      exact ⟨db,rows,hw,of_decide_eq_true hsome,h1,h2⟩

end CardKeepr.Ingestion
