import CardKeepr.Ingestion.RunAcceptance

namespace CardKeepr.Ingestion

open Lib Shared List

variable (other : JsString → Bool)
variable {e : RunEventRow} {c d : RunCurrent} {db next : Database} {given : Circumstances}
  {l : List EncodedPayload} {run occurredAt : JsString} {current : Option RunCurrent}
  {f : RunCurrent → RunCurrent} {news events : List RunEventRow}

/-- The chunks of an event's payloads are all there. -/
def PayloadsKept (chunks : List PayloadChunk) (e : RunEventRow) : Prop :=
  ∀m∈payloadMembers e,∃(kind : String) (texts : List JsString) (bytes : Nat),
    m=EncodedPayload.fact ⟨kind,texts,bytes⟩ ∧ texts≠[] ∧
    (texts.map fun c => (utf8 c).length).sum=bytes ∧
    (chunks.filter fun r => r.ingestion_run_id=e.ingestion_run_id &&
      r.event_sequence=e.sequence_number && r.payload_kind=m.1)=
      chunkRows e.ingestion_run_id e.sequence_number ⟨kind,texts,bytes⟩

/-- The events of a row's run are numbered from one and lead to the row. -/
structure Logged (db : Database) (c : RunCurrent) : Prop where
  folds : projectAll other none (db.eventsOf c.ingestion_run_id)=.ok (some c)
  numbered : (db.eventsOf c.ingestion_run_id).map RunEventRow.sequence_number=
    List.range' 1 c.last_event_sequence
  games : ∀e∈db.eventsOf c.ingestion_run_id,e.sequence_number=1 →
    e.payload.member (key "selected_games")=some (.arr ((db.games c.ingestion_run_id).map .str))
  payloads : ∀e∈db.eventsOf c.ingestion_run_id,PayloadsKept db.chunks e

structure Kept (db : Database) : Prop where
  rows : ∀c∈db.currents,RowKept c ∧ Logged other db c
  unique : (db.currents.map RunCurrent.ingestion_run_id).Nodup
  anchored : ∀run,run∈db.runs ↔ ∃c∈db.currents,c.ingestion_run_id=run
  owned : ∀e∈db.events,∃c∈db.currents,c.ingestion_run_id=e.ingestion_run_id
  chunked : ∀r∈db.chunks,∃e∈db.events,e.ingestion_run_id=r.ingestion_run_id ∧
    e.sequence_number=r.event_sequence

variable {other}

theorem empty_kept : Kept other Database.empty :=
  ⟨fun c hc => (by cases hc),nodup_nil,fun run => by simp [Database.empty],
    fun e he => (by cases he),fun r hr => (by cases hr)⟩

theorem insertEvents_ok {out : List RunEventRow} (h : insertEvents events news=.ok out) :
    out=events++news ∧ (∀e∈news,∀f∈events,f.event_id≠e.event_id) := by
  induction news generalizing events with
  | nil =>
    injection h with h
    exact ⟨by rw [←h,append_nil],fun e he => (by cases he)⟩
  | cons e es ih =>
    obtain ⟨mid,hm,h⟩ := bind_ok h
    obtain ⟨_,hd,hm⟩ := bind_ok hm
    injection hm with hm
    obtain ⟨h1,h2⟩ := ih h
    have hfree : ∀f∈events,f.event_id≠e.event_id := by
      intro f hf heq
      have := demand_ok hd
      rw [Bool.not_eq_true',any_eq_false] at this
      exact this f hf (by simp [heq])
    refine ⟨by rw [h1,←hm,append_assoc]; rfl,?_⟩
    intro x hx f hf
    rcases mem_cons.mp hx with rfl | hx
    · exact hfree f hf
    · apply h2 x hx f
      rw [←hm]
      exact mem_append_left _ hf

theorem projectAll_append {a b : List RunEventRow} :
    projectAll other current (a++b)=(projectAll other current a >>= fun c => projectAll other c b) := by
  induction a generalizing current with
  | nil => rfl
  | cons e a ih =>
    rw [cons_append,projectAll,projectAll]
    cases projectIngestionRunEvent other current e with
    | error x => rfl
    | ok c => exact ih

theorem projectAll_last (h : projectAll other current events=.ok (some c)) (hne : events≠[]) :
    ∃e∈events,e.event_id=c.last_event_id ∧ e.sequence_number=c.last_event_sequence := by
  induction events generalizing current with
  | nil => exact (hne rfl).elim
  | cons e es ih =>
    obtain ⟨d,hd,h⟩ := bind_ok h
    cases es with
    | nil =>
      injection h with h
      obtain rfl := Option.some.inj h
      obtain ⟨kind,ha⟩ := project_ok hd
      have ho := ha.own
      simp only [ofEvent,Bool.and_eq_true,beq_iff_eq] at ho
      exact ⟨e,mem_cons_self,ho.1.1.1.1.2.symm,ho.1.1.1.2.symm⟩
    | cons f fs =>
      obtain ⟨x,hx,h1⟩ := ih h (by simp)
      exact ⟨x,mem_cons_of_mem _ hx,h1⟩

theorem filter_singleton {rows : List RunCurrent} {p : RunCurrent → Bool}
    (hnd : (rows.map RunCurrent.ingestion_run_id).Nodup) (hc : c∈rows) (hp : p c=true)
    (hrun : ∀d,p d=true → d.ingestion_run_id=c.ingestion_run_id) : rows.filter p=[c] := by
  induction rows with
  | nil => cases hc
  | cons d rows ih =>
    rw [map_cons,nodup_cons] at hnd
    rcases mem_cons.mp hc with rfl | hc
    · have hnone : rows.filter p=[] := by
        apply filter_eq_nil_iff.mpr
        intro x hx hpx
        exact hnd.1 (hrun x hpx ▸ mem_map_of_mem hx)
      rw [filter_cons_of_pos hp,hnone]
    · have hd : ¬p d=true := by
        intro hpd
        exact hnd.1 (hrun d hpd ▸ mem_map_of_mem hc)
      rw [filter_cons_of_neg hd]
      exact ih hnd.2 hc

theorem filter_unique {rows : List RunCurrent} {p : RunCurrent → Bool}
    {g : RunCurrent → RunEventRow} (hg : ∀d,(g d).ingestion_run_id=d.ingestion_run_id)
    (hnd : (rows.map RunCurrent.ingestion_run_id).Nodup) (hc : c∈rows) :
    ((rows.filter p).map g).filter (fun e => e.ingestion_run_id=c.ingestion_run_id)=
      if p c then [g c] else [] := by
  induction rows with
  | nil => cases hc
  | cons d rows ih =>
    rw [map_cons,nodup_cons] at hnd
    have other_run : ∀rs : List RunCurrent,(∀x∈rs,x.ingestion_run_id≠c.ingestion_run_id) →
        ((rs.filter p).map g).filter (fun e => e.ingestion_run_id=c.ingestion_run_id)=[] := by
      intro rs hrs
      apply filter_eq_nil_iff.mpr
      intro e he
      obtain ⟨x,hx,rfl⟩ := mem_map.mp he
      rw [hg]
      simpa using hrs x (mem_filter.mp hx).1
    rcases mem_cons.mp hc with rfl | hc
    · have hrest := other_run rows (fun x hx he => hnd.1 (he ▸ mem_map_of_mem hx))
      rw [filter_cons]
      split
      · rw [map_cons,filter_cons_of_pos (by rw [hg]; simp),hrest]
      · exact hrest
    · have hne : d.ingestion_run_id≠c.ingestion_run_id :=
        fun he => hnd.1 (he ▸ mem_map_of_mem hc)
      rw [filter_cons]
      split
      · rw [map_cons,filter_cons_of_neg (by rw [hg]; simpa using hne)]
        exact ih hnd.2 hc
      · exact ih hnd.2 hc

def PayloadChunk.id (r : PayloadChunk) : JsString × Nat × JsString × Nat :=
  (r.ingestion_run_id,r.event_sequence,r.payload_kind,r.chunk_index)

variable {chunks : List PayloadChunk}

theorem insertChunk_new {r : PayloadChunk} (hfit : r.content.length ≤ maximumChunkBytes)
    (hfree : ∀q∈chunks,q.id≠r.id) : insertChunk chunks r=chunks++[r] := by
  rw [insertChunk,if_pos]
  refine ⟨hfit,?_⟩
  intro hany
  obtain ⟨q,hq,he⟩ := any_eq_true.mp hany
  simp only [Bool.and_eq_true,decide_eq_true_eq] at he
  apply hfree q hq
  simp only [PayloadChunk.id,he.1.1.1,he.1.1.2,he.1.2,he.2]

theorem foldl_insertChunk {rows : List PayloadChunk}
    (hfit : ∀r∈rows,r.content.length ≤ maximumChunkBytes) (hfree : ∀q∈chunks,∀r∈rows,q.id≠r.id)
    (hnd : (rows.map PayloadChunk.id).Nodup) : rows.foldl insertChunk chunks=chunks++rows := by
  induction rows generalizing chunks with
  | nil => rw [foldl_nil,append_nil]
  | cons r rows ih =>
    rw [map_cons,nodup_cons] at hnd
    have hnew := insertChunk_new (hfit r mem_cons_self)
      (fun q hq => hfree q hq r mem_cons_self)
    rw [foldl_cons,hnew]
    have hfree2 : ∀q∈chunks++[r],∀x∈rows,q.id≠x.id := by
      intro q hq x hx
      rcases mem_append.mp hq with hq | hq
      · exact hfree q hq x (mem_cons_of_mem _ hx)
      · rw [mem_singleton.mp hq]
        intro he
        exact hnd.1 (he ▸ mem_map_of_mem hx)
    rw [ih (fun x hx => hfit x (mem_cons_of_mem _ hx)) hfree2 hnd.2,append_assoc]
    rfl

theorem mem_chunkRows {n : Nat} {p : EncodedPayload} {r : PayloadChunk}
    (h : r∈chunkRows run n p) : r.ingestion_run_id=run ∧ r.event_sequence=n ∧
      r.payload_kind=key p.kind ∧ ∃c∈p.chunks,r.content=utf8 c := by
  obtain ⟨x,hx,rfl⟩ := mem_map.mp h
  exact ⟨rfl,rfl,rfl,x.1,fst_mem_of_mem_zipIdx hx,rfl⟩

theorem chunkRows_index (run : JsString) (n : Nat) (p : EncodedPayload) :
    (chunkRows run n p).map PayloadChunk.chunk_index=List.range' 0 p.chunks.length := by
  rw [chunkRows,map_map]
  exact zipIdx_map_snd 0 p.chunks

theorem chunkRows_nodup (run : JsString) (n : Nat) (p : EncodedPayload) :
    ((chunkRows run n p).map PayloadChunk.id).Nodup := by
  apply List.Nodup.of_map (fun x : JsString × Nat × JsString × Nat => x.2.2.2)
  rw [map_map]
  change ((chunkRows run n p).map PayloadChunk.chunk_index).Nodup
  rw [chunkRows_index]
  exact nodup_range'

/-- The payloads of one event, by their kinds. -/
structure PayloadList (l : List EncodedPayload) : Prop where
  kinds : (l.map fun p => key p.kind).Nodup
  fits : ∀p∈l,∀c∈p.chunks,(utf8 c).length ≤ maximumChunkBytes
  some : ∀p∈l,p.chunks≠[]
  whole : ∀p∈l,(p.chunks.map fun c => (utf8 c).length).sum=p.bytes

theorem Encoded.list {a b : Option PayloadText} (h : Encoded a b l) : PayloadList l := by
  obtain ⟨x,y,hx,hy,rfl⟩ := h.split
  have hkeys : key "candidate"≠key "diagnostics" := by decide
  have hmem : ∀p∈x++y,∃t : PayloadText,byteChunks t.text=.ok p.chunks ∧
      p.bytes=(utf8 t.text).length := by
    intro p hp
    rcases mem_append.mp hp with hp | hp
    · rcases encodePayload_ok hx with ⟨-,rfl⟩ | ⟨t,chunks,-,-,hc,rfl⟩
      · cases hp
      · rw [mem_singleton.mp hp]
        exact ⟨t,hc,rfl⟩
    · rcases encodePayload_ok hy with ⟨-,rfl⟩ | ⟨t,chunks,-,-,hc,rfl⟩
      · cases hp
      · rw [mem_singleton.mp hp]
        exact ⟨t,hc,rfl⟩
  refine ⟨?_,?_,?_,?_⟩
  · rcases encodePayload_ok hx with ⟨-,rfl⟩ | ⟨t,chunks,-,-,-,rfl⟩ <;>
      rcases encodePayload_ok hy with ⟨-,rfl⟩ | ⟨t',chunks',-,-,-,rfl⟩ <;> simp [hkeys]
  · intro p hp
    obtain ⟨t,ht,-⟩ := hmem p hp
    exact (byteChunks_spec ht).2.2
  · intro p hp
    obtain ⟨t,ht,-⟩ := hmem p hp
    exact (byteChunks_spec ht).1
  · intro p hp
    obtain ⟨t,ht,hb⟩ := hmem p hp
    rw [hb]
    exact (byteChunks_spec ht).2.1

theorem payloadRows_nodup (h : (l.map fun p => key p.kind).Nodup)
    (run : JsString) (n : Nat) : ((l.flatMap (chunkRows run n)).map PayloadChunk.id).Nodup := by
  induction l with
  | nil => exact nodup_nil
  | cons p l ih =>
    rw [map_cons,nodup_cons] at h
    rw [flatMap_cons,map_append]
    apply List.Nodup.append (chunkRows_nodup run n p) (ih h.2)
    intro x hx hy
    obtain ⟨r,hr,rfl⟩ := mem_map.mp hx
    obtain ⟨q,hq,he⟩ := mem_map.mp hy
    obtain ⟨p',hp',hq⟩ := mem_flatMap.mp hq
    apply h.1
    have h1 := (mem_chunkRows hr).2.2.1
    have h2 := (mem_chunkRows hq).2.2.1
    have h3 : q.payload_kind=r.payload_kind := congrArg (fun x => x.2.2.1) he
    rw [←h1,←h3,h2]
    exact mem_map_of_mem hp'

theorem payloadRows_filter (h : (l.map fun p => key p.kind).Nodup) {n : Nat} {p : EncodedPayload} (hp : p∈l) :
    ((l.flatMap (chunkRows run n)).filter fun r => r.ingestion_run_id=run && r.event_sequence=n &&
      r.payload_kind=key p.kind)=chunkRows run n p := by
  induction l with
  | nil => cases hp
  | cons q l ih =>
    rw [map_cons,nodup_cons] at h
    rw [flatMap_cons,filter_append]
    rcases mem_cons.mp hp with rfl | hp
    · have hall : (chunkRows run n p).filter (fun r => r.ingestion_run_id=run &&
          r.event_sequence=n && r.payload_kind=key p.kind)=chunkRows run n p := by
        apply filter_eq_self.mpr
        intro r hr
        obtain ⟨h1,h2,h3,-⟩ := mem_chunkRows hr
        simp [h1,h2,h3]
      have hnone : (l.flatMap (chunkRows run n)).filter (fun r => r.ingestion_run_id=run &&
          r.event_sequence=n && r.payload_kind=key p.kind)=[] := by
        apply filter_eq_nil_iff.mpr
        intro r hr hc
        obtain ⟨q,hq,hr⟩ := mem_flatMap.mp hr
        simp only [Bool.and_eq_true,decide_eq_true_eq] at hc
        apply h.1
        rw [←hc.2,(mem_chunkRows hr).2.2.1]
        exact mem_map_of_mem hq
      rw [hall,hnone,append_nil]
    · have hnone : (chunkRows run n q).filter (fun r => r.ingestion_run_id=run &&
          r.event_sequence=n && r.payload_kind=key p.kind)=[] := by
        apply filter_eq_nil_iff.mpr
        intro r hr hc
        simp only [Bool.and_eq_true,decide_eq_true_eq] at hc
        apply h.1
        rw [←(mem_chunkRows hr).2.2.1,hc.2]
        exact mem_map_of_mem hp
      rw [hnone,nil_append]
      exact ih h.2 hp

theorem Logged.ne_nil (h : Logged other db c) : db.eventsOf c.ingestion_run_id≠[] := by
  intro he
  have := h.folds
  rw [he] at this
  cases this

theorem Logged.sequence_pos (h : Logged other db c) : 1 ≤ c.last_event_sequence := by
  have hl := congrArg List.length h.numbered
  rw [length_map,length_range'] at hl
  have := length_pos_of_ne_nil h.ne_nil
  omega

theorem Logged.sequence_le (h : Logged other db c) (he : e∈db.eventsOf c.ingestion_run_id) :
    1 ≤ e.sequence_number ∧ e.sequence_number ≤ c.last_event_sequence := by
  have hm : e.sequence_number∈List.range' 1 c.last_event_sequence := by
    rw [←h.numbered]
    exact mem_map_of_mem he
  have := mem_range'_1.mp hm
  omega

theorem mem_eventsOf : e∈db.eventsOf run ↔ e∈db.events ∧ e.ingestion_run_id=run := by
  rw [Database.eventsOf,mem_filter,decide_eq_true_iff]

/-- What a statement does to one row: nothing, or one accepted event leads to the new row. -/
def RowStep (other : JsString → Bool) (chunks : List PayloadChunk) (news : List RunEventRow)
    (c d : RunCurrent) : Prop :=
  (d=c ∧ news.filter (fun e => e.ingestion_run_id=c.ingestion_run_id)=[]) ∨
    ∃e,news.filter (fun e => e.ingestion_run_id=c.ingestion_run_id)=[e] ∧ RowKept d ∧
      projectIngestionRunEvent other (some c) e=.ok d ∧ PayloadsKept chunks e

theorem RowStep.logged
    (hc : RowKept c) (hl : Logged other db c) (hrun : d.ingestion_run_id=c.ingestion_run_id)
    (hevents : next.events=db.events++news) (hgames : next.games=db.games)
    (hold : ∀e∈db.events,PayloadsKept db.chunks e → PayloadsKept next.chunks e)
    (hs : RowStep other next.chunks news c d) : RowKept d ∧ Logged other next d := by
  have hall : next.eventsOf c.ingestion_run_id=db.eventsOf c.ingestion_run_id++
      news.filter (fun e => e.ingestion_run_id=c.ingestion_run_id) := by
    rw [Database.eventsOf,hevents,filter_append]
    rfl
  have hpay : ∀e∈db.eventsOf c.ingestion_run_id,PayloadsKept next.chunks e :=
    fun e he => hold e (mem_eventsOf.mp he).1 (hl.payloads e he)
  rcases hs with ⟨rfl,hnone⟩ | ⟨e,hone,hd,hp,hpe⟩
  · rw [hnone,append_nil] at hall
    refine ⟨hc,?_,?_,?_,?_⟩
    · rw [hall]
      exact hl.folds
    · rw [hall]
      exact hl.numbered
    · rw [hall,hgames]
      exact hl.games
    · rw [hall]
      exact hpay
  · rw [hone] at hall
    have hseq := (project_next hp).1.sequence
    obtain ⟨kind,ha⟩ := project_ok hp
    have ho := ha.own
    simp only [ofEvent,Bool.and_eq_true,beq_iff_eq] at ho
    have heq : e.sequence_number=c.last_event_sequence+1 := by
      rw [←ho.1.1.1.2,hseq]
    have hpos := hl.sequence_pos
    refine ⟨hd,?_,?_,?_,?_⟩
    · rw [hrun,hall,projectAll_append,hl.folds,ok_bind,projectAll,hp]
      rfl
    · rw [hrun,hall,map_append,hl.numbered,map_singleton,hseq,heq,range'_1_concat,
        Nat.add_comm 1]
    · intro x hx hone
      rw [hrun,hall] at hx
      rw [hgames,hrun]
      rcases mem_append.mp hx with hx | hx
      · exact hl.games x hx hone
      · rw [mem_singleton.mp hx] at hone
        omega
    · intro x hx
      rw [hrun,hall] at hx
      rcases mem_append.mp hx with hx | hx
      · exact hpay x hx
      · rw [mem_singleton.mp hx]
        exact hpe

theorem Kept.advance (h : Kept other db) (hruns : next.runs=db.runs) (hgames : next.games=db.games)
    (hrows : next.currents=db.currents.map f) (hevents : next.events=db.events++news)
    (hf : ∀c,(f c).ingestion_run_id=c.ingestion_run_id)
    (hnews : ∀e∈news,∃c∈db.currents,c.ingestion_run_id=e.ingestion_run_id)
    (hold : ∀e∈db.events,PayloadsKept db.chunks e → PayloadsKept next.chunks e)
    (hchunks : ∀r∈next.chunks,∃e∈next.events,e.ingestion_run_id=r.ingestion_run_id ∧
      e.sequence_number=r.event_sequence)
    (hstep : ∀c∈db.currents,RowStep other next.chunks news c (f c)) : Kept other next := by
  have hmap : next.currents.map RunCurrent.ingestion_run_id=
      db.currents.map RunCurrent.ingestion_run_id := by
    rw [hrows,map_map]
    exact map_congr_left fun c _ => hf c
  have hsame : ∀run,(∃c∈next.currents,c.ingestion_run_id=run) ↔
      ∃c∈db.currents,c.ingestion_run_id=run := by
    intro run
    rw [←mem_map,←mem_map,hmap]
  refine ⟨?_,?_,?_,?_,hchunks⟩
  · intro d hd
    rw [hrows] at hd
    obtain ⟨c,hc,rfl⟩ := mem_map.mp hd
    obtain ⟨hk,hl⟩ := h.rows c hc
    exact RowStep.logged hk hl (hf c) hevents hgames hold (hstep c hc)
  · rw [hmap]
    exact h.unique
  · intro run
    rw [hruns,hsame]
    exact h.anchored run
  · intro e he
    rw [hevents] at he
    rw [hsame]
    rcases mem_append.mp he with he | he
    · exact h.owned e he
    · exact hnews e he

theorem PayloadsKept.append {rows : List PayloadChunk} (h : PayloadsKept chunks e)
    (hrows : ∀r∈rows,¬(r.ingestion_run_id=e.ingestion_run_id ∧ r.event_sequence=e.sequence_number)) :
    PayloadsKept (chunks++rows) e := by
  intro m hm
  obtain ⟨kind,texts,bytes,h1,h2,h3,h4⟩ := h m hm
  refine ⟨kind,texts,bytes,h1,h2,h3,?_⟩
  have hnone : (rows.filter fun r => r.ingestion_run_id=e.ingestion_run_id &&
      r.event_sequence=e.sequence_number && r.payload_kind=m.1)=[] := by
    apply filter_eq_nil_iff.mpr
    intro r hr hc
    simp only [Bool.and_eq_true,decide_eq_true_eq] at hc
    exact hrows r hr hc.1
  rw [filter_append,h4,hnone,append_nil]

theorem PayloadsKept.new (hl : PayloadList l) (hm : payloadMembers e=l.map EncodedPayload.fact)
    (hfree : ∀r∈chunks,¬(r.ingestion_run_id=e.ingestion_run_id ∧
      r.event_sequence=e.sequence_number)) :
    PayloadsKept (chunks++l.flatMap (chunkRows e.ingestion_run_id e.sequence_number)) e := by
  intro m hmem
  rw [hm] at hmem
  obtain ⟨p,hp,rfl⟩ := mem_map.mp hmem
  refine ⟨p.kind,p.chunks,p.bytes,rfl,hl.some p hp,hl.whole p hp,?_⟩
  have hnone : (chunks.filter fun r => r.ingestion_run_id=e.ingestion_run_id &&
      r.event_sequence=e.sequence_number && r.payload_kind=p.fact.1)=[] := by
    apply filter_eq_nil_iff.mpr
    intro r hr hc
    simp only [Bool.and_eq_true,decide_eq_true_eq] at hc
    exact hfree r hr hc.1
  rw [filter_append,hnone,nil_append]
  exact payloadRows_filter hl.kinds hp

theorem insertChunks_event {id : JsString} (hl : PayloadList l) (hevents : db.events=events++[e])
    (hrun : e.ingestion_run_id=run) (hid : e.event_id=id) (hfresh : ∀f∈events,f.event_id≠id)
    (hfree : ∀r∈db.chunks,¬(r.ingestion_run_id=run ∧ r.event_sequence=e.sequence_number)) :
    insertChunks db run id l=db.chunks++l.flatMap (chunkRows run e.sequence_number) := by
  have hfilter : (db.events.filter fun f => f.event_id=id && f.ingestion_run_id=run)=[e] := by
    have hnone : (events.filter fun f => f.event_id=id && f.ingestion_run_id=run)=[] := by
      apply filter_eq_nil_iff.mpr
      intro f hf hc
      simp only [Bool.and_eq_true,decide_eq_true_eq] at hc
      exact hfresh f hf hc.1
    rw [hevents,filter_append,hnone,nil_append,filter_cons_of_pos]
    · rfl
    · simp [hid,hrun]
  rw [insertChunks,hfilter,List.flatMap_singleton]
  apply foldl_insertChunk
  · intro r hr
    obtain ⟨p,hp,hr⟩ := mem_flatMap.mp hr
    obtain ⟨-,-,-,c,hc,hcontent⟩ := mem_chunkRows hr
    rw [hcontent]
    exact hl.fits p hp c hc
  · intro q hq r hr he
    obtain ⟨p,hp,hr⟩ := mem_flatMap.mp hr
    obtain ⟨h1,h2,-,-⟩ := mem_chunkRows hr
    apply hfree q hq
    have hid := congrArg Prod.fst he
    have hseq := congrArg (fun x => x.2.1) he
    exact ⟨hid.trans h1,hseq.trans h2⟩
  · exact payloadRows_nodup hl.kinds run e.sequence_number

theorem eventsOf_row (h : Kept other db) (hc : c∈db.currents) (hd : d∈db.currents) (he : d.ingestion_run_id=c.ingestion_run_id) : d=c :=
  inj_on_of_nodup_map h.unique hd hc he

theorem chunks_free (h : Kept other db) (hc : c∈db.currents) :
    ∀r∈db.chunks,¬(r.ingestion_run_id=c.ingestion_run_id ∧
      r.event_sequence=c.last_event_sequence+1) := by
  intro r hr hx
  obtain ⟨e,he,h1,h2⟩ := h.chunked r hr
  have hm : e∈db.eventsOf c.ingestion_run_id := mem_eventsOf.mpr ⟨he,h1.trans hx.1⟩
  have := ((h.rows c hc).2.sequence_le hm).2
  omega

/-- One row steps, with one event and its payloads. -/
theorem Kept.stepRow (h : Kept other db) (hc : c∈db.currents)
    (hf : ∀x∈db.currents,x≠c → f x=x) (hfc : f c=d) (hrun : ∀x,(f x).ingestion_run_id=x.ingestion_run_id) (hl : PayloadList l)
    (hm : payloadMembers e=l.map EncodedPayload.fact) (hd : RowKept d)
    (hp : projectIngestionRunEvent other (some c) e=.ok d)
    (hfresh : ∀x∈db.events,x.event_id≠e.event_id)
    (hruns : next.runs=db.runs) (hgames : next.games=db.games)
    (hrows : next.currents=db.currents.map f) (hevents : next.events=db.events++[e])
    (hchunks : next.chunks=insertChunks
      ⟨db.runs,db.games,next.currents,next.events,db.chunks⟩ c.ingestion_run_id e.event_id l) :
    Kept other next := by
  have hs := (project_next hp).1
  obtain ⟨kind,ha⟩ := project_ok hp
  have ho := ha.own
  simp only [ofEvent,Bool.and_eq_true,beq_iff_eq] at ho
  have hrunE : e.ingestion_run_id=c.ingestion_run_id := by
    rw [←ho.1.1.1.1.1,hs.run]
  have hseq : e.sequence_number=c.last_event_sequence+1 := by
    rw [←ho.1.1.1.2,hs.sequence]
  have hfree := chunks_free h hc
  have hnew : next.chunks=db.chunks++l.flatMap (chunkRows c.ingestion_run_id e.sequence_number) := by
    rw [hchunks]
    exact insertChunks_event hl hevents hrunE rfl hfresh (by rw [hseq]; exact hfree)
  have hrowsNew : ∀r∈l.flatMap (chunkRows c.ingestion_run_id e.sequence_number),
      r.ingestion_run_id=c.ingestion_run_id ∧ r.event_sequence=c.last_event_sequence+1 := by
    intro r hr
    obtain ⟨p,-,hr⟩ := mem_flatMap.mp hr
    obtain ⟨h1,h2,-,-⟩ := mem_chunkRows hr
    exact ⟨h1,h2.trans hseq⟩
  apply h.advance hruns hgames hrows hevents hrun
  · intro x hx
    rw [mem_singleton.mp hx]
    exact ⟨c,hc,hrunE.symm⟩
  · intro x hx hold
    rw [hnew]
    apply hold.append
    intro r hr hc2
    obtain ⟨h1,h2⟩ := hrowsNew r hr
    have hmem : x∈db.eventsOf c.ingestion_run_id := mem_eventsOf.mpr ⟨hx,hc2.1.symm.trans h1⟩
    have := ((h.rows c hc).2.sequence_le hmem).2
    omega
  · intro r hr
    rw [hnew] at hr
    rw [hevents]
    rcases mem_append.mp hr with hr | hr
    · obtain ⟨x,hx,h1⟩ := h.chunked r hr
      exact ⟨x,mem_append_left _ hx,h1⟩
    · obtain ⟨h1,h2⟩ := hrowsNew r hr
      exact ⟨e,mem_append_right _ (mem_singleton.mpr rfl),by rw [hrunE,h1],by rw [hseq,h2]⟩
  · intro x hx
    by_cases hxc : x=c
    · subst hxc
      refine Or.inr ⟨e,?_,hfc ▸ hd,hfc ▸ hp,?_⟩
      · rw [filter_cons_of_pos (by simpa using hrunE)]
        rfl
      · rw [hnew,←hrunE]
        apply PayloadsKept.new hl hm
        rw [hrunE,hseq]
        exact hfree
    · refine Or.inl ⟨hf x hx hxc,?_⟩
      rw [filter_cons_of_neg]
      · rfl
      · intro he
        rw [decide_eq_true_iff,hrunE] at he
        exact hxc (eventsOf_row h hc hx he.symm)

theorem appendRunEvent_ok {kind : RunEventKind}
    {facts : List (JsString × Json)} {id : JsString} {changes : Nat} (h : appendRunEvent kind occurredAt facts l run id changes db=.ok next) :
    ∃events,insertEvents db.events ((db.currents.filter fun c => c.ingestion_run_id=run &&
        c.last_event_id=id && decide (0 < changes)).map (eventRow kind occurredAt facts))=.ok events ∧
      next=⟨db.runs,db.games,db.currents,events,
        insertChunks ⟨db.runs,db.games,db.currents,events,db.chunks⟩ run id l⟩ := by
  obtain ⟨events,he,h⟩ := bind_ok h
  injection h with h
  exact ⟨events,he,h.symm⟩

theorem appendRunEvent_missed {kind : RunEventKind}
    {facts : List (JsString × Json)} {id : JsString} (hfresh : ∀e∈db.events,e.event_id≠id)
    (h : appendRunEvent kind occurredAt facts l run id 0 db=.ok next) : next=db := by
  obtain ⟨events,he,rfl⟩ := appendRunEvent_ok h
  have hnone : (db.currents.filter fun c => c.ingestion_run_id=run &&
      c.last_event_id=id && decide (0 < 0))=[] := by
    apply filter_eq_nil_iff.mpr
    intro c _
    simp
  rw [hnone] at he
  injection he with he
  subst he
  have hchunks : (db.events.filter fun e => e.event_id=id && e.ingestion_run_id=run)=[] := by
    apply filter_eq_nil_iff.mpr
    intro e hm hc
    simp only [Bool.and_eq_true,decide_eq_true_eq] at hc
    exact hfresh e hm hc.1
  rw [insertChunks,hchunks]
  rfl

theorem runEventStatement_kept {u : RunUpdate} (hu : Command u) {id : JsString} (h : Kept other db)
    (hfresh : ∀e∈db.events,e.event_id≠id)
    (hr : runEventStatement u run id given db=.ok next) : Kept other next := by
  obtain ⟨a,ha,hr⟩ := bind_ok hr
  obtain ⟨b,hb,hr⟩ := bind_ok hr
  obtain ⟨_,-,hr⟩ := bind_ok hr
  obtain ⟨_,-,hr⟩ := bind_ok hr
  have hl : Encoded u.candidate u.diagnostics (a++b) := ⟨a,b,ha,hb,rfl⟩
  generalize hhits : u.hits run given.alsoWhere=hits at hr
  have hrun : ∀x,hits x=true → x.ingestion_run_id=run := by
    intro x hx
    rw [←hhits] at hx
    simp only [RunUpdate.hits,Bool.and_eq_true,decide_eq_true_eq] at hx
    exact hx.1.1
  by_cases hex : ∃c∈db.currents,hits c=true
  · obtain ⟨c,hc,hit⟩ := hex
    have hcrun := hrun c hit
    have hs : c.state∈u.sources := by
      rw [←hhits] at hit
      simp only [RunUpdate.hits,Bool.and_eq_true] at hit
      exact contains_iff_mem.mp hit.1.2
    have hkc := (h.rows c hc).1
    have hcount : 0 < db.currents.countP hits := countP_pos_iff.mpr ⟨c,hc,hit⟩
    have honly : ∀x∈db.currents,x≠c → hits x=false := by
      intro x hx hne
      by_contra hh
      rw [Bool.not_eq_false] at hh
      exact hne (eventsOf_row h hc hx ((hrun x hh).trans hcrun.symm))
    obtain ⟨events,he,rfl⟩ := appendRunEvent_ok hr
    -- the rows that carry the new identity are the one that was hit
    have hnews : ((db.currents.map fun c => if hits c then u.apply id c else c).filter
        fun c => c.ingestion_run_id=run && c.last_event_id=id &&
          decide (0 < db.currents.countP hits))=[u.apply id c] := by
      have hnd : ((db.currents.map fun c => if hits c then u.apply id c else c).map
          RunCurrent.ingestion_run_id).Nodup := by
        rw [map_map]
        have hsame : (db.currents.map (RunCurrent.ingestion_run_id ∘
            fun c => if hits c then u.apply id c else c))=
            db.currents.map RunCurrent.ingestion_run_id := by
          apply map_congr_left
          intro x _
          change (if hits x then u.apply id x else x).ingestion_run_id=x.ingestion_run_id
          split <;> rfl
        rw [hsame]
        exact h.unique
      apply filter_singleton hnd
      · exact mem_map.mpr ⟨c,hc,by rw [hit]; rfl⟩
      · rw [decide_eq_true hcount]
        simp [RunUpdate.apply,hcrun]
      · intro x hx
        simp only [Bool.and_eq_true,decide_eq_true_eq] at hx
        exact hx.1.1.trans hcrun.symm
    rw [hnews,map_singleton] at he
    obtain ⟨hev,hnot⟩ := insertEvents_ok he
    subst hev
    have hacc : projectIngestionRunEvent other (some c) (eventRow u.kind u.occurredAt.iso
        (eventFacts .null u.decision (a++b) u.approvalKey) (u.apply id c))=.ok (u.apply id c) :=
      hkc.accepted hu.fits hs id (isoInstant_iso u.occurredAt) hl rfl
    refine h.stepRow hc (f := fun c => if hits c then u.apply id c else c) ?_ ?_ ?_ hl.list ?_
      (hkc.apply hu.fits hs id) hacc hfresh ?_ ?_ ?_ ?_ ?_
    · intro x hx hne
      rw [honly x hx hne]
      rfl
    · rw [hit]
      rfl
    · intro x
      split <;> rfl
    · rfl
    · rfl
    · rfl
    · rfl
    · rfl
    · rw [hcrun]
      rfl
  · have hmiss : ∀x∈db.currents,hits x=false := by
      intro x hx
      by_contra hh
      rw [Bool.not_eq_false] at hh
      exact hex ⟨x,hx,hh⟩
    have hzero : db.currents.countP hits=0 := by
      apply countP_eq_zero.mpr
      intro x hx
      rw [hmiss x hx]
      exact Bool.false_ne_true
    have hsame : (db.currents.map fun c => if hits c then u.apply id c else c)=db.currents := by
      conv_rhs => rw [←map_id db.currents]
      apply map_congr_left
      intro x hx
      rw [hmiss x hx]
      rfl
    rw [hzero,hsame] at hr
    rw [appendRunEvent_missed hfresh hr]
    exact h

theorem expiry_fits (observedAt : Instant) (c : RunCurrent) : (expiry observedAt c).Fits :=
  ⟨fun _ => rfl,rfl,rfl,fun _ hd => by cases hd⟩

theorem overdue_facts {observedAt : JsString} (h : overdue observedAt c=true) :
    c.state=.awaiting_approval ∧ ∃d,c.columns .approval_deadline=some d := by
  rw [overdue,Bool.and_eq_true,beq_iff_eq] at h
  refine ⟨h.1,?_⟩
  cases hd : c.columns .approval_deadline with
  | none =>
    rw [hd] at h
    cases h.2
  | some d => exact ⟨d,rfl⟩

theorem expireRun_run (sweepId : JsString) (observedAt : Instant) (c : RunCurrent) :
    (expireRun sweepId observedAt c).ingestion_run_id=c.ingestion_run_id := by
  rw [expireRun]
  split <;> rfl

theorem RowKept.expires {c : RunCurrent} (h : RowKept c) {observedAt : Instant}
    (ho : overdue observedAt.iso c=true) (id : JsString) : RowKept
    ((expiry observedAt c).apply id c) ∧ projectIngestionRunEvent other (some c)
    (expiredRow ((expiry observedAt c).apply id c))= .ok ((expiry observedAt c).apply id c) := by
  obtain ⟨hs,d,hd⟩ := overdue_facts ho
  have hsrc : c.state∈(expiry observedAt c).sources := by
    rw [hs]
    exact mem_singleton.mpr rfl
  have hfits := expiry_fits observedAt c
  have hdate : isoInstant ((((expiry observedAt c).apply id c).columns .terminal_at).getD [])=true := by
    change isoInstant ((c.columns .approval_deadline).getD [])=true
    rw [hd]
    exact h.deadline d hd
  have hempty : Encoded (expiry observedAt c).candidate (expiry observedAt c).diagnostics [] :=
    ⟨[],[],rfl,rfl,rfl⟩
  exact ⟨h.apply hfits hsrc id,h.accepted hfits hsrc id hdate hempty rfl⟩

theorem expireRunEventsStatement_kept {sweepId : JsString} {observedAt : Instant} (h : Kept other db)
    (hr : expireRunEventsStatement sweepId observedAt given db=.ok next) : Kept other next := by
  obtain ⟨_,-,hr⟩ := bind_ok hr
  obtain ⟨events,he,hr⟩ := bind_ok hr
  obtain ⟨_,-,hr⟩ := bind_ok hr
  injection hr with hr
  subst hr
  obtain ⟨rfl,hnot⟩ := insertEvents_ok he
  have hnd : ((db.currents.map (expireRun sweepId observedAt)).map
      RunCurrent.ingestion_run_id).Nodup := by
    have hsame : (db.currents.map (RunCurrent.ingestion_run_id ∘ expireRun sweepId observedAt))=
        db.currents.map RunCurrent.ingestion_run_id :=
      map_congr_left fun c _ => expireRun_run sweepId observedAt c
    rw [map_map,hsame]
    exact h.unique
  refine h.advance ?_ ?_ ?_ rfl (expireRun_run sweepId observedAt) ?_ ?_ ?_ ?_
  · rfl
  · rfl
  · rfl
  · intro e hm
    obtain ⟨d,hd,rfl⟩ := mem_map.mp hm
    obtain ⟨c,hc,rfl⟩ := mem_map.mp (mem_filter.mp hd).1
    exact ⟨c,hc,(expireRun_run sweepId observedAt c).symm⟩
  · exact fun _ _ hold => hold
  · intro r hr
    obtain ⟨e,hm,h1⟩ := h.chunked r hr
    exact ⟨e,mem_append_left _ hm,h1⟩
  · intro c hc
    have hmem : expireRun sweepId observedAt c∈db.currents.map (expireRun sweepId observedAt) :=
      mem_map_of_mem hc
    have hone := filter_unique (p := fun c => c.last_event_id=sweepEventId sweepId c.ingestion_run_id &&
      decide (0 < db.currents.countP (overdue observedAt.iso))) (g := expiredRow) (fun _ => rfl)
      hnd hmem
    rw [expireRun_run] at hone
    obtain ⟨hk,hl⟩ := h.rows c hc
    by_cases hover : overdue observedAt.iso c=true
    · have hcount : 0 < db.currents.countP (overdue observedAt.iso) :=
        countP_pos_iff.mpr ⟨c,hc,hover⟩
      have hnew : expireRun sweepId observedAt c=
          (expiry observedAt c).apply (sweepEventId sweepId c.ingestion_run_id) c := if_pos hover
      have hexp := @RowKept.expires other c hk observedAt hover
        (sweepEventId sweepId c.ingestion_run_id)
      rw [if_pos (by rw [hnew,decide_eq_true hcount]; simp [RunUpdate.apply])] at hone
      refine Or.inr ⟨_,hone,by rw [hnew]; exact hexp.1,by rw [hnew]; exact hexp.2,?_⟩
      intro m hm
      cases hm
    · have hsame : expireRun sweepId observedAt c=c := if_neg hover
      refine Or.inl ⟨hsame,?_⟩
      rw [hone,hsame,if_neg]
      -- a row that kept the sweep's identity has its event in the table already
      intro hp
      rw [hsame,if_pos hp] at hone
      obtain ⟨f,hf,h1,-⟩ := projectAll_last hl.folds hl.ne_nil
      have hin : expiredRow c∈((db.currents.map (expireRun sweepId observedAt)).filter fun c =>
          c.last_event_id=sweepEventId sweepId c.ingestion_run_id &&
            decide (0 < db.currents.countP (overdue observedAt.iso))).map expiredRow := by
        apply mem_of_mem_filter (p := fun e => e.ingestion_run_id=c.ingestion_run_id)
        rw [hone]
        exact mem_singleton.mpr rfl
      exact hnot _ hin f (mem_eventsOf.mp hf).1 h1

theorem anchorRun_ok {input : CreateRun} (h : anchorRun input db=.ok next) :
    input.runId∉db.runs ∧ input.games.Nodup ∧ (∀g∈input.games,g∈knownGames) ∧
      next=⟨db.runs++[input.runId],Function.update db.games input.runId input.games,db.currents,
        db.events,db.chunks⟩ := by
  obtain ⟨_,h1,h⟩ := bind_ok h
  obtain ⟨_,h2,h⟩ := bind_ok h
  injection h with h
  have hrun : input.runId∉db.runs := by simpa using demand_ok h1
  have hgames := demand_ok h2
  rw [Bool.and_eq_true,decide_eq_true_iff,all_eq_true] at hgames
  exact ⟨hrun,hgames.1,fun g hg => contains_iff_mem.mp (hgames.2 g hg),h.symm⟩

theorem Kept.unknown (h : Kept other db) (hr : run∉db.runs) :
    (∀c∈db.currents,c.ingestion_run_id≠run) ∧ (∀e∈db.events,e.ingestion_run_id≠run) ∧
      ∀r∈db.chunks,r.ingestion_run_id≠run := by
  have hc : ∀c∈db.currents,c.ingestion_run_id≠run :=
    fun c hm he => hr ((h.anchored run).mpr ⟨c,hm,he⟩)
  have hev : ∀e∈db.events,e.ingestion_run_id≠run := by
    intro e hm he
    obtain ⟨c,hm2,he2⟩ := h.owned e hm
    exact hc c hm2 (he2.trans he)
  refine ⟨hc,hev,?_⟩
  intro r hm he
  obtain ⟨e,hm2,he2,-⟩ := h.chunked r hm
  exact hev e hm2 (he2.trans he)

/-- A new run with its first event. -/
theorem Kept.begin (h : Kept other db) {games : List JsString} (hnew : c.ingestion_run_id∉db.runs)
    (hl : PayloadList l) (hm : payloadMembers e=l.map EncodedPayload.fact) (hk : RowKept c)
    (hp : projectIngestionRunEvent other none e=.ok c)
    (hgames : e.payload.member (key "selected_games")=some (.arr (games.map .str)))
    (hfresh : ∀x∈db.events,x.event_id≠e.event_id)
    (hnext : next=⟨db.runs++[c.ingestion_run_id],Function.update db.games c.ingestion_run_id games,
      db.currents++[c],db.events++[e],insertChunks ⟨db.runs++[c.ingestion_run_id],
        Function.update db.games c.ingestion_run_id games,db.currents++[c],db.events++[e],db.chunks⟩
        c.ingestion_run_id e.event_id l⟩) : Kept other next := by
  obtain ⟨hcur,hev,hch⟩ := h.unknown hnew
  obtain ⟨-,-,hseqc⟩ := project_first hp
  obtain ⟨kind,ha⟩ := project_ok hp
  have ho := ha.own
  simp only [ofEvent,Bool.and_eq_true,beq_iff_eq] at ho
  have hrun : e.ingestion_run_id=c.ingestion_run_id := ho.1.1.1.1.1.symm
  have hseq : e.sequence_number=1 := by rw [←ho.1.1.1.2,hseqc]
  have hchunks : insertChunks ⟨db.runs++[c.ingestion_run_id],
      Function.update db.games c.ingestion_run_id games,db.currents++[c],db.events++[e],db.chunks⟩
      c.ingestion_run_id e.event_id l=
      db.chunks++l.flatMap (chunkRows c.ingestion_run_id e.sequence_number) :=
    insertChunks_event hl rfl hrun rfl hfresh (fun r hr hx => hch r hr hx.1)
  rw [hchunks] at hnext
  have hrows : ∀r∈l.flatMap (chunkRows c.ingestion_run_id e.sequence_number),
      r.ingestion_run_id=c.ingestion_run_id ∧ r.event_sequence=e.sequence_number := by
    intro r hr
    obtain ⟨p,-,hr⟩ := mem_flatMap.mp hr
    obtain ⟨h1,h2,-,-⟩ := mem_chunkRows hr
    exact ⟨h1,h2⟩
  subst hnext
  refine ⟨?_,?_,?_,?_,?_⟩
  · intro d hd
    rcases mem_append.mp hd with hd | hd
    · obtain ⟨hkd,hld⟩ := h.rows d hd
      have hne : e.ingestion_run_id≠d.ingestion_run_id := by
        rw [hrun]
        exact (hcur d hd).symm
      have hall : Database.eventsOf ⟨db.runs++[c.ingestion_run_id],
          Function.update db.games c.ingestion_run_id games,db.currents++[c],db.events++[e],
          db.chunks++l.flatMap (chunkRows c.ingestion_run_id e.sequence_number)⟩ d.ingestion_run_id=
          db.eventsOf d.ingestion_run_id := by
        rw [Database.eventsOf,filter_append,filter_cons_of_neg (by simpa using hne),
          filter_nil,append_nil]
        rfl
      refine ⟨hkd,?_,?_,?_,?_⟩
      · rw [hall]
        exact hld.folds
      · rw [hall]
        exact hld.numbered
      · rw [hall]
        change ∀x∈db.eventsOf d.ingestion_run_id,x.sequence_number=1 →
          x.payload.member (key "selected_games")=some (.arr
            ((Function.update db.games c.ingestion_run_id games d.ingestion_run_id).map .str))
        rw [Function.update_of_ne (hcur d hd)]
        exact hld.games
      · rw [hall]
        intro x hx
        apply (hld.payloads x hx).append
        intro r hr hc2
        apply hcur d hd
        rw [←(hrows r hr).1,hc2.1,(mem_eventsOf.mp hx).2]
    · rw [mem_singleton.mp hd]
      have hnone : db.events.filter (fun x => x.ingestion_run_id=c.ingestion_run_id)=[] := by
        apply filter_eq_nil_iff.mpr
        intro x hx
        simpa using hev x hx
      have hall : Database.eventsOf ⟨db.runs++[c.ingestion_run_id],
          Function.update db.games c.ingestion_run_id games,db.currents++[c],db.events++[e],
          db.chunks++l.flatMap (chunkRows c.ingestion_run_id e.sequence_number)⟩ c.ingestion_run_id=
          [e] := by
        rw [Database.eventsOf,filter_append,hnone,nil_append,
          filter_cons_of_pos (by simpa using hrun)]
        rfl
      refine ⟨hk,?_,?_,?_,?_⟩
      · rw [hall,projectAll,hp]
        rfl
      · rw [hall,hseqc,map_singleton,hseq]
        rfl
      · rw [hall]
        intro x hx _
        rw [mem_singleton.mp hx]
        change e.payload.member (key "selected_games")=some (.arr
          ((Function.update db.games c.ingestion_run_id games c.ingestion_run_id).map .str))
        rw [Function.update_self]
        exact hgames
      · rw [hall]
        intro x hx
        rw [mem_singleton.mp hx,←hrun]
        apply PayloadsKept.new hl hm
        intro r hr hc2
        exact hch r hr (hc2.1.trans hrun)
  · rw [map_append,map_singleton]
    apply List.Nodup.append h.unique (nodup_singleton _)
    intro x hx hy
    obtain ⟨d,hd,rfl⟩ := mem_map.mp hx
    exact hcur d hd (mem_singleton.mp hy)
  · intro run
    change run∈db.runs++[c.ingestion_run_id] ↔ ∃d∈db.currents++[c],d.ingestion_run_id=run
    rw [mem_append,h.anchored run,mem_singleton]
    constructor
    · rintro (⟨d,hd,he⟩ | rfl)
      · exact ⟨d,mem_append_left _ hd,he⟩
      · exact ⟨c,mem_append_right _ (mem_singleton.mpr rfl),rfl⟩
    · rintro ⟨d,hd,he⟩
      rcases mem_append.mp hd with hd | hd
      · exact Or.inl ⟨d,hd,he⟩
      · rw [mem_singleton.mp hd] at he
        exact Or.inr he.symm
  · intro x hx
    rcases mem_append.mp hx with hx | hx
    · obtain ⟨d,hd,he⟩ := h.owned x hx
      exact ⟨d,mem_append_left _ hd,he⟩
    · rw [mem_singleton.mp hx]
      exact ⟨c,mem_append_right _ (mem_singleton.mpr rfl),hrun.symm⟩
  · intro r hr
    rcases mem_append.mp hr with hr | hr
    · obtain ⟨x,hx,h1⟩ := h.chunked r hr
      exact ⟨x,mem_append_left _ hx,h1⟩
    · obtain ⟨h1,h2⟩ := hrows r hr
      exact ⟨e,mem_append_right _ (mem_singleton.mpr rfl),hrun.trans h1.symm,h2.symm⟩

theorem createRunEventStatement_kept {input : CreateRun} {id : JsString} (h : Kept other db) (hfresh : ∀e∈db.events,e.event_id≠id)
    (hr : createRunEventStatement input id given db=.ok next) : Kept other next := by
  obtain ⟨a,ha,hr⟩ := bind_ok hr
  obtain ⟨b,hb,hr⟩ := bind_ok hr
  obtain ⟨db1,h1,hr⟩ := bind_ok hr
  obtain ⟨_,-,hr⟩ := bind_ok hr
  obtain ⟨db2,h2,hr⟩ := bind_ok hr
  obtain ⟨_,-,hr⟩ := bind_ok hr
  obtain ⟨hnew,hnd,hknown,rfl⟩ := anchorRun_ok h1
  obtain ⟨_,-,h2⟩ := bind_ok h2
  injection h2 with h2
  subst h2
  have hl : Encoded input.candidate input.diagnostics (a++b) := ⟨a,b,ha,hb,rfl⟩
  obtain ⟨hcur,-,-⟩ := h.unknown hnew
  obtain ⟨events,he,rfl⟩ := appendRunEvent_ok hr
  have hnone : (db.currents.filter fun c => c.ingestion_run_id=input.runId && c.last_event_id=id &&
      decide (0 < 1))=[] := by
    apply filter_eq_nil_iff.mpr
    intro c hc hx
    simp only [Bool.and_eq_true,decide_eq_true_eq] at hx
    exact hcur c hc hx.1.1
  rw [filter_append,hnone,nil_append,filter_cons_of_pos (by simp [emptyRunCurrent]),
    filter_nil,map_singleton] at he
  obtain ⟨rfl,hnot⟩ := insertEvents_ok he
  refine h.begin hnew hl.list ?_ (create_kept input.runId id input.state input.candidate.isSome
    input.diagnostics.isSome) (create_accepted hnd hknown id hl) ?_ ?_ rfl
  · rfl
  · rfl
  · exact hfresh

theorem Write.apply_kept {w : Write} (h : Kept other db) (hf : w.Fresh db)
    (hw : w.apply db=.ok next) : Kept other next := by
  cases w with
  | create input id given => exact createRunEventStatement_kept h hf hw
  | update u issued run id given => exact runEventStatement_kept issued h hf hw
  | expire sweepId observedAt given => exact expireRunEventsStatement_kept h hw

theorem Batch.kept {ws : List Write} (hb : Batch ws db next)
    (h : Kept other db) : Kept other next := by
  induction hb with
  | done => exact h
  | write fresh applied rest ih => exact ih (Write.apply_kept h fresh applied)

theorem Written.kept (hw : Written db next) (h : Kept other db) : Kept other next := by
  induction hw with
  | refl => exact h
  | tail _ hb ih =>
    obtain ⟨ws,hb⟩ := hb
    exact hb.kept ih

end CardKeepr.Ingestion
