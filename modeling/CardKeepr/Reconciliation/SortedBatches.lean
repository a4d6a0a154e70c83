import CardKeepr.Reconciliation.PartitionManifest
import CardKeepr.Reconciliation.SortedRecords

namespace CardKeepr.Reconciliation

open Lib Shared List Steps Code

section
variable {nfc : Nfc}

theorem visit_all {num : ℚ → Prop} {keys : List JsString → Prop} (v : Json) {raw : List PathKey}
    (h : v.All num (fun _ => True) keys) : (visit nfc raw v).1.All num (fun _ => True) keys := by
  induction v using Json.induct generalizing raw with
  | null => trivial
  | bool b => trivial
  | num q => exact h
  | str s =>
    rw [visit]
    split
    · trivial
    · trivial
  | arr vs ih =>
    rw [all_arr] at h
    rw [visit,visitItems_map,all_arr]
    intro w hw
    obtain ⟨⟨x,i⟩,hx,rfl⟩ := mem_map.mp hw
    exact ih x (fst_mem_of_mem_zipIdx hx) (h x (fst_mem_of_mem_zipIdx hx))
  | obj ms ih =>
    rw [all_obj] at h
    rw [visit,visitMembers_map,all_obj]
    refine ⟨?_,fun w hw => ?_⟩
    · rw [map_map]
      exact h.1
    · obtain ⟨m,hm,rfl⟩ := mem_map.mp hw
      exact ih m hm (h.2 m hm)

theorem storedEnvelope_canonical {v : Json} (hs : v.Separated nfc) :
    (storedEnvelope nfc v).json.canonical nfc=(envelope nfc v).json.canonical nfc := by
  have hpart : ∀t : LongText,(t.placed nfc).json.canonical nfc=t.part.json.canonical nfc := by
    intro t
    refine canonical_obj_congr nfc (.cons ⟨rfl,?_⟩ (.cons ⟨rfl,rfl⟩ (.cons ⟨rfl,rfl⟩
      (.cons ⟨rfl,rfl⟩ .nil))))
    rw [canonical_arr,canonical_arr]
    refine congrArg Json.arr ?_
    rw [LongText.placed,map_map,map_map,map_map]
    refine map_congr_left fun k _ => ?_
    cases k with
    | name k => exact congrArg Json.str (nfc.idempotent k)
    | index n => rfl
  refine canonical_obj_congr nfc (.cons ⟨rfl,rfl⟩ (.cons ⟨rfl,?_⟩ (.cons ⟨rfl,?_⟩ .nil)))
  · exact canonical_own nfc (visit_all v hs)
  · rw [canonical_arr,canonical_arr]
    refine congrArg Json.arr ?_
    rw [storedEnvelope,envelope,map_map,map_map,map_map,map_map]
    exact map_congr_left fun t _ => hpart t

theorem envelope_integral {v : Json} (h : v.Integral) : (envelope nfc v).json.Integral :=
  RecordEnvelope.integral (visit_all v h)

theorem storedEnvelope_integral {v : Json} (h : v.Integral) :
    (storedEnvelope nfc v).json.Integral :=
  RecordEnvelope.integral (own_integral (canonical_integral nfc (visit_all v h)))

end

namespace Sorting

section
variable (nfc : Nfc)

def batchText (b : List Json) : JsString :=
  ((Json.arr (b.map fun v => (envelope nfc v).json)).canonical nfc).print

def rowOf (b : List Json) : SortBatch := ⟨batchText nfc b,sha256Text (batchText nfc b)⟩

/-- The key by which a record is sorted. -/
def sortKey (v : Json) : JsString := (canonicalJson nfc v).toOption.getD []

/-- The item of a record in the stage `runs`, and as `readHead` restores it. -/
def Item.fresh (v : Json) : Item := ⟨sortKey nfc v,Reconciliation.envelope nfc v,v⟩

def Item.restored (v : Json) : Item := ⟨sortKey nfc v,storedEnvelope nfc v,readBack nfc v⟩

def Item.StandsFor (item : Item) (v : Json) : Prop :=
  item=Item.fresh nfc v ∨ item=Item.restored nfc v

end

section
variable {nfc : Nfc} {v : Json} {b : List Json}

theorem sortKey_integral (h : v.Integral) : sortKey nfc v=(v.canonical nfc).print ∧
    canonicalJson nfc v=.ok (sortKey nfc v) := by
  have hc : canonicalJson nfc v=.ok (v.canonical nfc).print := canonicalJsonAt_eq nfc h _
  rw [sortKey,hc]
  exact ⟨rfl,rfl⟩

theorem sortKey_readBack (hs : v.Separated nfc) (h : v.Integral) :
    canonicalJson nfc (readBack nfc v)=.ok (sortKey nfc v) := by
  have hi : (readBack nfc v).Integral := own_integral (canonical_integral nfc h)
  rw [(sortKey_integral h).1,canonicalJson,canonicalJsonAt_eq nfc hi,readBack,canonical_own nfc hs]

theorem batchText_items {items : List Item}
    (h : List.Forall₂ (Item.StandsFor nfc) items b) (hb : ∀v∈b,v.Separated nfc ∧ v.Integral) :
    canonicalJson nfc (.arr (items.map fun i => i.envelope.json))=.ok (batchText nfc b) := by
  have hall : List.Forall₂ (fun (i : Item) v => i.envelope.json.Integral ∧
      i.envelope.json.canonical nfc=(envelope nfc v).json.canonical nfc) items b := by
    induction h with
    | nil => exact .nil
    | cons hi _ ih =>
      obtain ⟨hs,hint⟩ := hb _ mem_cons_self
      refine .cons ?_ (ih fun v hv => hb v (mem_cons_of_mem _ hv))
      rcases hi with rfl | rfl
      · exact ⟨envelope_integral hint,rfl⟩
      · exact ⟨storedEnvelope_integral hint,storedEnvelope_canonical hs⟩
  have hi : (Json.arr (items.map fun i => i.envelope.json)).Integral := by
    rw [Json.Integral,all_arr]
    intro w hw
    obtain ⟨i,hi,rfl⟩ := mem_map.mp hw
    obtain ⟨v,-,hv⟩ := forall₂_left hall hi
    exact hv.1
  rw [canonicalJson,canonicalJsonAt_eq nfc hi,batchText,canonical_arr,canonical_arr,map_map,map_map]
  have hmap : items.map (Json.canonical nfc ∘ fun i => i.envelope.json)=
      b.map (Json.canonical nfc ∘ fun v => (envelope nfc v).json) := by
    rw [←forall₂_eq_eq_eq,forall₂_map_left_iff,forall₂_map_right_iff]
    exact hall.imp fun _ _ h => h.2
  rw [hmap]

theorem envelopesOf_batchText (hb : ∀v∈b,v.Integral) :
    envelopesOf (batchText nfc b)=some (b.map (storedEnvelope nfc)) := by
  have hi : (Json.arr (b.map fun v => (envelope nfc v).json)).Integral := by
    rw [Json.Integral,all_arr]
    intro w hw
    obtain ⟨v,hv,rfl⟩ := mem_map.mp hw
    exact envelope_integral (hb v hv)
  have harr : ((Json.arr (b.map fun v => (envelope nfc v).json)).canonical nfc).own=
      .arr ((b.map fun v => (envelope nfc v).json).map fun w => (w.canonical nfc).own) :=
    readBack_arr _
  rw [envelopesOf,batchText,jsonParse_canonical nfc hi,Option.bind_some,harr,map_map]
  exact mapM_each (envelope_of nfc) b

end

section
variable (nfc : Nfc) (before : JsString → JsString → Bool) (src : Source) (kept : TextTable)

def recordSize (v : Json) : Nat := byteLength (sortKey nfc v)

/-- What the source must be for its records to be sorted: every record has a canonical text of at
most 2 MiB and keys that stay apart under NFC, the chunks of its long texts are what `kept` has at
their places, and every batch fits its row. -/
structure Sortable : Prop where
  record : ∀v∈src.values,v.Separated nfc ∧ v.Integral
  small : ∀v∈src.values,recordSize nfc v ≤ 2097152
  texts : ∀v∈src.values,∀h∈recordChunks nfc v,TextChunk.Settled kept h
  nonempty : ∀v∈src.values,∀t∈(visit nfc [] v).2,t.normalized≠[]
  fit : ∀b : List Json,(∀v∈b,v∈src.values) → Bounded (recordSize nfc) 8 512000 b →
    byteLength (batchText nfc b) ≤ 524288

/-- The records as they are cut into the first runs. -/
def inputs : List (List Json) :=
  if src.values=[] then [[]] else batches (recordSize nfc) 8 512000 src.values

def runs (p : Nat) : List (List Json) := runsOf before (sortKey nfc) (inputs nfc src) p

def pieces (p : Nat) (run : List Json) : List (List Json) :=
  if p=0 then if run=[] then [] else [run] else batches (recordSize nfc) 8 512000 run

def batchOf (p r b : Nat) : Option (List Json) :=
  (runs nfc before src p)[r]?.bind fun run => (pieces nfc p run++[[]])[b]?

def HasRun (p r : Nat) (d : Retained) : Prop :=
  ∀b l,batchOf nfc before src p r b=some l → d.batches p r b=some (rowOf nfc l)

def HasTexts (v : Json) (d : Retained) : Prop := ∀t∈(visit nfc [] v).2,t.Holds d.texts

/-- An input of a merge: its run, where it is read, and what is still to come. -/
structure Input where
  run : List Json
  position : Position
  rest : List Json

def Input.Stands (p : Nat) (i : Input) : Prop :=
  Behind (pieces nfc p i.run) i.position.batch i.position.offset i.rest

/-- The output of a group: `outs` are written, `left` is what the inputs still make of it. -/
structure Merging (p g : Nat) (is : List Input) (outs left : List (List Json)) (d : Retained) :
    Prop where
  grouped : is.map Input.run=group g (runs nfc before src p)
  stands : ∀i∈is,i.Stands nfc p
  output : batches (recordSize nfc) 8 512000
    (mergeLists before (sortKey nfc) (group g (runs nfc before src p)))=outs++left
  written : ∀b l,outs[b]?=some l → d.batches (p+1) g b=some (rowOf nfc l)

/-- The runs of a pass are there. -/
structure PassDone (p : Nat) (d : Retained) : Prop where
  present : ∀r,HasRun nfc before src p r d
  texts : ∀v∈src.values,HasTexts nfc v d

structure InRuns (c : Cursor) (d : Retained) : Prop where
  entries : ∃(done rest : List (Nat×Json)) (cut : List (List Json)),src.entries=done++rest ∧
    batches (recordSize nfc) 8 512000 src.values=
      cut++batches (recordSize nfc) 8 512000 (rest.map Prod.snd) ∧ c.count=cut.length ∧
    c.after=Lib.placeAfter Prod.fst 0 done ∧ ∀e∈done,HasTexts nfc e.2 d
  start : c.pass=0 ∧ c.first=0 ∧ c.outputBatch=0 ∧ c.positions=[]
  present : ∀r < c.count,HasRun nfc before src 0 r d

structure InMerge (c : Cursor) (d : Retained) : Prop where
  pass : PassDone nfc before src c.pass d
  many : 1 < c.count
  count : c.count=(runs nfc before src c.pass).length
  first : ∃g,c.first=4*g
  written : ∀r < c.first/4,HasRun nfc before src (c.pass+1) r d
  place : c.positions=[] ∧ c.outputBatch=0 ∨ c.first < c.count ∧ ∃is outs,
    Merging nfc before src c.pass (c.first/4) is outs (batches (recordSize nfc) 8 512000
      (mergeLists before (sortKey nfc) (is.map Input.rest))) d ∧
    c.positions=is.map Input.position ∧ c.outputBatch=outs.length

structure Sorted (c : Cursor) (d : Retained) : Prop where
  pass : PassDone nfc before src c.pass d
  count : (runs nfc before src c.pass).length=1
  one : c.count=1

/-- The points at which the cursor is retained. -/
def Place (c : Cursor) (d : Retained) : Prop :=
  match c.stage with
  | .runs => InRuns nfc before src c d
  | .merge => InMerge nfc before src c d
  | .complete => Sorted nfc before src c d

end

def Retained.Le (d d' : Retained) : Prop :=
  (∀p r b row,d.batches p r b=some row → d'.batches p r b=some row) ∧ d.texts.Le d'.texts

section
variable {nfc : Nfc} {before : JsString → JsString → Bool} {src : Source} {kept : TextTable}
  {d d' : Retained}

theorem Retained.Le.refl (d : Retained) : d.Le d := ⟨fun _ _ _ _ h => h,fun _ _ _ h => h⟩

theorem Retained.Le.trans {d'' : Retained} (h : d.Le d') (k : d'.Le d'') : d.Le d'' :=
  ⟨fun p r b row hr => k.1 p r b row (h.1 p r b row hr),h.2.trans k.2⟩

theorem HasRun.mono {p r : Nat} (h : HasRun nfc before src p r d) (hd : d.Le d') :
    HasRun nfc before src p r d' := fun b l hb => hd.1 _ _ _ _ (h b l hb)

theorem HasTexts.mono {v : Json} (h : HasTexts nfc v d) (hd : d.Le d') : HasTexts nfc v d' :=
  fun t ht => (h t ht).mono hd.2

theorem PassDone.mono {p : Nat} (h : PassDone nfc before src p d) (hd : d.Le d') :
    PassDone nfc before src p d' :=
  ⟨fun r => (h.present r).mono hd,fun v hv => (h.texts v hv).mono hd⟩

theorem Merging.mono {p g : Nat} {is : List Input} {outs left : List (List Json)}
    (h : Merging nfc before src p g is outs left d) (hd : d.Le d') :
    Merging nfc before src p g is outs left d' :=
  ⟨h.grouped,h.stands,h.output,fun b l hb => hd.1 _ _ _ _ (h.written b l hb)⟩

theorem Place.mono {c : Cursor} (h : Place nfc before src c d) (hd : d.Le d') :
    Place nfc before src c d' := by
  rw [Place] at h ⊢
  split at h
  · obtain ⟨done,rest,cut,h1,h2,h3,h4,h5⟩ := h.entries
    exact ⟨⟨done,rest,cut,h1,h2,h3,h4,fun e he => (h5 e he).mono hd⟩,h.start,
      fun r hr => (h.present r hr).mono hd⟩
  · refine ⟨h.pass.mono hd,h.many,h.count,h.first,fun r hr => (h.written r hr).mono hd,?_⟩
    rcases h.place with hp | ⟨hlt,is,outs,hm,hp,ho⟩
    · exact .inl hp
    · exact .inr ⟨hlt,is,outs,hm.mono hd,hp,ho⟩
  · exact ⟨h.pass.mono hd,h.count,h.one⟩

theorem inputs_flatten (nfc : Nfc) (src : Source) : (inputs nfc src).flatten=src.values := by
  rw [inputs]
  split
  · rename_i h
    rw [h]
    rfl
  · exact batches_flatten ..

theorem pieces_flatten (p : Nat) (run : List Json) : (pieces nfc p run).flatten=run := by
  rw [pieces]
  split_ifs with hp hr
  · rw [hr]
    rfl
  · rw [flatten_singleton]
  · exact batches_flatten ..

theorem pieces_ne_nil {p : Nat} {run b : List Json} (hb : b∈pieces nfc p run) : b≠[] := by
  rw [pieces] at hb
  split_ifs at hb with hp hr
  · cases hb
  · rwa [mem_singleton.mp hb]
  · exact batchesFrom_ne_nil _ _ _ b hb

theorem bounded_perm {b b' : List Json} (h : b.Perm b') (hb : Bounded (recordSize nfc) 8 512000 b) :
    Bounded (recordSize nfc) 8 512000 b' := by
  rw [Bounded,←h.length_eq,←(h.map (recordSize nfc)).sum_eq]
  exact hb

theorem inputs_bounded {b : List Json} (hb : b∈inputs nfc src) :
    Bounded (recordSize nfc) 8 512000 b := by
  rw [inputs] at hb
  split at hb
  · rw [mem_singleton.mp hb]
    exact ⟨Nat.zero_le _,.inl (Nat.zero_le _)⟩
  · exact batches_bounded (by omega) _ b hb

theorem runs_mem {p : Nat} {run : List Json} (hr : run∈runs nfc before src p) :
    ∀v∈run,v∈src.values := by
  obtain ⟨s,hs,rfl⟩ := mem_map.mp hr
  intro v hv
  rw [←inputs_flatten nfc src,←segments_flatten _ p]
  exact mem_flatten.mpr ⟨s,hs,(perm_insertionSort _ s).subset hv⟩

theorem batchOf_sound {p r b : Nat} {l : List Json} (h : batchOf nfc before src p r b=some l) :
    (∀v∈l,v∈src.values) ∧ Bounded (recordSize nfc) 8 512000 l := by
  rw [batchOf] at h
  obtain ⟨run,hrun,hl⟩ := Option.bind_eq_some_iff.mp h
  have hrun := List.mem_of_getElem? hrun
  rcases mem_append.mp (List.mem_of_getElem? hl) with hl | hl
  · refine ⟨fun v hv => runs_mem hrun v ?_,?_⟩
    · rw [←@pieces_flatten nfc p run]
      exact mem_flatten.mpr ⟨l,hl,hv⟩
    · rw [pieces] at hl
      split_ifs at hl with hp he
      · cases hl
      · obtain rfl := mem_singleton.mp hl
        subst hp
        obtain ⟨s,hs,rfl⟩ := mem_map.mp hrun
        exact bounded_perm (perm_insertionSort _ s).symm (inputs_bounded hs)
      · exact batches_bounded (by omega) _ l hl
  · rw [mem_singleton.mp hl]
    exact ⟨fun v hv => (not_mem_nil hv).elim,⟨Nat.zero_le _,.inl (Nat.zero_le _)⟩⟩

end

section
variable (nfc : Nfc) (before : JsString → JsString → Bool) (version : Nat) (src : Source)
  (kept : TextTable)

/-- What is retained between attempts. -/
structure Rests (d : Retained) : Prop where
  sound : ∀p r b row,d.batches p r b=some row →
    ∃l,batchOf nfc before src p r b=some l ∧ row=rowOf nfc l
  texts : d.texts.Le kept
  place : Place nfc before src (d.cursor version) d
  version : (d.cursor version).sourceVersion=version

/-- An attempt between two of its writes. -/
structure Running (uncut : Prop) (s : Attempt Retained Variables) : Prop where
  rests : Rests nfc before version src kept s.retained
  number : s.vars.ordinal=s.retained.checkpoints.length
  uncut : uncut → s.writes=none

def Halts (yieldAtCheckpoint : Bool) (uncut : Prop) (r : Stopped JsString)
    (s : Attempt Retained Variables) : Prop :=
  Rests nfc before version src kept s.retained ∧ match r with
    | .cutOff => ¬uncut
    | .continuation _ => yieldAtCheckpoint=true
    | .failed _ => False

end

section
variable {nfc : Nfc} {before : JsString → JsString → Bool} {version : Nat} {src : Source}
  {kept : TextTable} {yieldAtCheckpoint : Bool} {uncut : Prop} {s : Attempt Retained Variables}

theorem Running.cut (h : Running nfc before version src kept uncut s) (hw : s.writes=some 0) :
    Halts nfc before version src kept yieldAtCheckpoint uncut .cutOff s := by
  refine ⟨h.rests,fun hu => ?_⟩
  rw [h.uncut hu] at hw
  cases hw

theorem Running.lessened (h : Running nfc before version src kept uncut s) (hu : uncut) :
    s.writes.map (·-1)=none := by
  rw [h.uncut hu]
  rfl

theorem Running.assign (h : Running nfc before version src kept uncut s) {v : Variables}
    (hn : v.ordinal=s.vars.ordinal) :
    Running nfc before version src kept uncut { s with vars := v } :=
  ⟨h.rests,hn.trans h.number,h.uncut⟩

theorem save_ends (h : Running nfc before version src kept uncut s)
    (hp : Place nfc before src s.vars.cursor s.retained)
    (hv : s.vars.cursor.sourceVersion=version) {Q : Unit → Attempt Retained Variables → Prop}
    (hQ : ∀s',Running nfc before version src kept uncut s' → s.retained.Le s'.retained →
      s'.vars={ s.vars with ordinal := s.vars.ordinal+1 } → Q () s') :
    (save yieldAtCheckpoint).Ends s Q
      (Halts nfc before version src kept yieldAtCheckpoint uncut) := by
  have hwrite : s.retained.checkpoint s.vars.ordinal s.vars.cursor=
      .ok { s.retained with checkpoints := s.retained.checkpoints++[s.vars.cursor] } := by
    rw [Retained.checkpoint,retainCheckpoint_next h.number]
    rfl
  have hlast : ∀d : Retained,Retained.cursor version
      { d with checkpoints := d.checkpoints++[s.vars.cursor] }=s.vars.cursor := by
    intro d
    rw [Retained.cursor,List.getLast?_append]
    rfl
  have hle : s.retained.Le { s.retained with
      checkpoints := s.retained.checkpoints++[s.vars.cursor] } := Retained.Le.refl s.retained
  have hrests : Rests nfc before version src kept { s.retained with
      checkpoints := s.retained.checkpoints++[s.vars.cursor] } := by
    refine ⟨h.rests.sound,h.rests.texts,?_,?_⟩
    · rw [hlast]
      exact hp.mono hle
    · rw [hlast]
      exact hv
  refine Steps.Ends.bind (ends_vars ?_)
  refine Steps.Ends.bind (ends_write hwrite h.cut fun _ => ?_)
  refine Steps.Ends.bind (ends_when (fun hy => ends_stop ⟨hrests,hy⟩) fun _ => ?_)
  refine ends_assign (hQ _ ⟨hrests,?_,h.lessened⟩ hle rfl)
  show s.vars.ordinal+1=(s.retained.checkpoints++[s.vars.cursor]).length
  rw [length_append,h.number]
  rfl

theorem writeBatch_ends (hsort : Sortable nfc src kept)
    (h : Running nfc before version src kept uncut s) {p r b : Nat} {l : List Json}
    {items : List Item} (hl : batchOf nfc before src p r b=some l)
    (hitems : List.Forall₂ (Item.StandsFor nfc) items l)
    {Q : Unit → Attempt Retained Variables → Prop}
    (hQ : ∀s',Running nfc before version src kept uncut s' → s.retained.Le s'.retained →
      s'.vars=s.vars → s'.retained.batches p r b=some (rowOf nfc l) → Q () s') :
    (writeBatch nfc p r b items).Ends s Q
      (Halts nfc before version src kept yieldAtCheckpoint uncut) := by
  obtain ⟨hmem,hbound⟩ := batchOf_sound hl
  have htext := batchText_items hitems fun v hv => hsort.record v (hmem v hv)
  have hsize := hsort.fit l hmem hbound
  -- the row that is there is the row that comes
  have hrow : ∀row,s.retained.batches p r b=some row → row=rowOf nfc l := by
    intro row hrow
    obtain ⟨l',hl',rfl⟩ := h.rests.sound p r b row hrow
    rw [hl] at hl'
    rw [Option.some.inj hl']
  have hgot : (s.retained.batches p r b).getD (rowOf nfc l)=rowOf nfc l := by
    cases hr : s.retained.batches p r b with
    | none => rfl
    | some row => exact hrow row hr
  have hhas : (s.retained.insert p r b (rowOf nfc l)).batches p r b=some (rowOf nfc l) := by
    show (if p=p ∧ r=r ∧ b=b then some ((s.retained.batches p r b).getD (rowOf nfc l)) else _)=_
    rw [if_pos ⟨rfl,rfl,rfl⟩,hgot]
  have hother : ∀p' r' b',¬(p'=p ∧ r'=r ∧ b'=b) →
      (s.retained.insert p r b (rowOf nfc l)).batches p' r' b'=s.retained.batches p' r' b' :=
    fun p' r' b' hne => if_neg hne
  have hle : s.retained.Le (s.retained.insert p r b (rowOf nfc l)) := by
    refine ⟨fun p' r' b' row hr => ?_,fun _ _ _ h => h⟩
    by_cases he : p'=p ∧ r'=r ∧ b'=b
    · obtain ⟨rfl,rfl,rfl⟩ := he
      rw [hhas,hrow row hr]
    · rw [hother _ _ _ he,hr]
  have hrests : Rests nfc before version src kept (s.retained.insert p r b (rowOf nfc l)) := by
    refine ⟨fun p' r' b' row hr => ?_,h.rests.texts,h.rests.place.mono hle,h.rests.version⟩
    by_cases he : p'=p ∧ r'=r ∧ b'=b
    · obtain ⟨rfl,rfl,rfl⟩ := he
      rw [hhas] at hr
      exact ⟨l,hl,(Option.some.inj hr).symm⟩
    · rw [hother _ _ _ he] at hr
      exact h.rests.sound _ _ _ row hr
  have hcanonical : canonical nfc (.arr (items.map fun i => i.envelope.json))=
      ret (batchText nfc l) := by
    rw [canonical,htext]
    rfl
  rw [writeBatch,hcanonical]
  refine Steps.Ends.bind (ends_ret ?_)
  refine Steps.Ends.bind (ends_check (fun _ => ?_) fun hno => absurd hsize (of_decide_eq_false hno))
  refine Steps.Ends.bind (ends_write rfl h.cut fun _ => ?_)
  refine Steps.Ends.bind (ends_retained ?_)
  refine ends_check (fun _ => ?_) fun hno => absurd hhas (of_decide_eq_false hno)
  exact hQ _ ⟨hrests,h.number,h.lessened⟩ hle rfl hhas

theorem retainChunks_ends (h : Running nfc before version src kept uncut s)
    {batch : List TextChunk} (hb : ∀h∈batch,TextChunk.Settled kept h)
    {Q : Unit → Attempt Retained Variables → Prop}
    (hQ : ∀s',Running nfc before version src kept uncut s' → s.retained.Le s'.retained →
      s'.vars=s.vars → (∀c∈batch,s'.retained.texts c.sha256 c.ordinal=some c.content) → Q () s') :
    (retainChunks batch).Ends s Q
      (Halts nfc before version src kept yieldAtCheckpoint uncut) := by
  obtain ⟨hfound,hkept⟩ := retainTextBatch_settled h.rests.texts hb
  have hle : s.retained.Le { s.retained with
      texts := (retainTextBatch batch s.retained.texts).2 } :=
    ⟨fun _ _ _ _ h => h,retainTextBatch_grows batch s.retained.texts⟩
  have hrests : Rests nfc before version src kept { s.retained with
      texts := (retainTextBatch batch s.retained.texts).2 } :=
    ⟨h.rests.sound,hkept,h.rests.place.mono hle,h.rests.version⟩
  refine Steps.Ends.bind (ends_retained ?_)
  refine Steps.Ends.bind (ends_write rfl h.cut fun _ => ?_)
  refine ends_check (fun _ => ?_) fun hno => absurd hfound (of_decide_eq_false hno)
  exact hQ _ ⟨hrests,h.number,h.lessened⟩ hle rfl (retainTextBatch_kept hfound)

theorem retainRecord_ends (hsort : Sortable nfc src kept)
    (h : Running nfc before version src kept uncut s) {v : Json} (hv : v∈src.values)
    {Q : RecordEnvelope → Attempt Retained Variables → Prop}
    (hQ : ∀s',Running nfc before version src kept uncut s' → s.retained.Le s'.retained →
      s'.vars=s.vars → HasTexts nfc v s'.retained → Q (envelope nfc v) s') :
    (retainRecord nfc v).Ends s Q
      (Halts nfc before version src kept yieldAtCheckpoint uncut) := by
  -- what is not among the batches that are left is in the table
  refine Steps.Ends.bind ((ends_each (fun left s' =>
    (∀batch∈left,batch∈flushes [] 0 (recordChunks nfc v)) ∧
      Running nfc before version src kept uncut s' ∧ s.retained.Le s'.retained ∧ s'.vars=s.vars ∧
      ∀batch∈flushes [] 0 (recordChunks nfc v),batch∈left ∨
        ∀c∈batch,s'.retained.texts c.sha256 c.ordinal=some c.content) ?_
    ⟨fun _ hb => hb,h,Retained.Le.refl _,rfl,fun _ hb => .inl hb⟩).post ?_)
  · intro batch left s' ⟨hmem,hr,hle,hvars,hdone⟩
    refine retainChunks_ends hr (fun k hk => ?_) fun s'' hr' hle' hvars' hthere =>
      ⟨fun b hb => hmem b (mem_cons_of_mem _ hb),hr',hle.trans hle',hvars'.trans hvars,
        fun b hb => ?_⟩
    · exact hsort.texts v hv k (flushes_mem (hmem batch mem_cons_self) hk)
    · rcases hdone b hb with h1 | h1
      · rcases mem_cons.mp h1 with rfl | h1
        · exact .inr hthere
        · exact .inl h1
      · exact .inr fun c hc => hle'.2 _ _ _ (h1 c hc)
  · rintro - s' ⟨-,hr,hle,hvars,hdone⟩
    refine ends_pure (hQ s' hr hle hvars fun t ht => holds_of_chunks fun c hc => ?_)
    have hin : c∈(flushes [] 0 (recordChunks nfc v)).flatten := by
      rw [flushes_flatten,nil_append]
      exact mem_flatMap.mpr ⟨t,ht,hc⟩
    obtain ⟨batch,hb,hcb⟩ := mem_flatten.mp hin
    exact (hdone batch hb).resolve_left (not_mem_nil) c hcb

end

section
variable {nfc : Nfc} {before : JsString → JsString → Bool} {version : Nat} {src : Source}
  {kept : TextTable} {uncut : Prop} {s : Attempt Retained Variables}
  {E : Stopped JsString → Attempt Retained Variables → Prop}

theorem canonical_ends {v : Json} {t : JsString} (hv : canonicalJson nfc v=.ok t)
    {Q : JsString → Attempt Retained Variables → Prop} (hQ : Q t s) :
    (canonical nfc v).Ends s Q E := by
  rw [canonical,hv]
  exact ends_ret hQ

theorem sortableSize_ends {key : JsString} (hkey : byteLength key ≤ 2097152)
    {Q : Nat → Attempt Retained Variables → Prop} (hQ : Q (byteLength key) s) :
    (sortableSize key).Ends s Q E :=
  Steps.Ends.bind (ends_check (fun _ => ends_pure hQ) fun hno =>
    absurd hkey (of_decide_eq_false hno))

theorem restoreRecord_ends (hsort : Sortable nfc src kept) {v : Json} (hv : v∈src.values)
    (ht : HasTexts nfc v s.retained) {Q : Json → Attempt Retained Variables → Prop}
    (hQ : Q (readBack nfc v) s) : (restoreRecord (storedEnvelope nfc v)).Ends s Q E := by
  have hback := @restorePartitionedRecord_held nfc v
    { ReducerStore.empty with text := s.retained.texts } (hsort.record v hv).1 ht
    (hsort.nonempty v hv)
  refine Steps.Ends.bind (ends_retained ?_)
  rw [storedEnvelope,hback]
  exact ends_ret hQ

theorem rowOf_intact {l : List Json} (h : byteLength (batchText nfc l) ≤ 524288) :
    (rowOf nfc l).intact=true := decide_eq_true ⟨h,rfl⟩

/-- The head of an input: the record that comes next, and the position at which it was found. -/
theorem headAt_ends (hsort : Sortable nfc src kept) {p r : Nat} {run rest : List Json}
    {position : Position} (hrun : (runs nfc before src p)[r]?=some run)
    (hpass : PassDone nfc before src p s.retained)
    (h : Behind (pieces nfc p run) position.batch position.offset rest) :
    (headAt nfc p r position).Ends s (fun a s' => s'=s ∧ match a with
      | .inl position' => Behind (pieces nfc p run) position'.batch position'.offset rest ∧
          position'.offset=0 ∧ position.offset≠0
      | .inr (head,position') => head=rest.head?.map (Item.restored nfc) ∧
          Behind (pieces nfc p run) position'.batch position'.offset rest ∧
          ∀v vs,rest=v::vs →
            Behind (pieces nfc p run) position'.batch (position'.offset+1) vs) E := by
  have hbatch : ∀l,(pieces nfc p run++[[]])[position.batch]?=some l →
      s.retained.batches p r position.batch=some (rowOf nfc l) ∧
        batchOf nfc before src p r position.batch=some l := by
    intro l hl
    have hof : batchOf nfc before src p r position.batch=some l := by
      rw [batchOf,hrun,Option.bind_some,hl]
    exact ⟨hpass.present r _ l hof,hof⟩
  refine Steps.Ends.bind (ends_retained ?_)
  rcases Nat.lt_or_ge position.batch (pieces nfc p run).length with hlt | hge
  · have hl : (pieces nfc p run++[[]])[position.batch]?=some (pieces nfc p run)[position.batch] := by
      rw [List.getElem?_append_left hlt,List.getElem?_eq_getElem hlt]
    obtain ⟨hrow,hof⟩ := hbatch _ hl
    obtain ⟨hmem,hbound⟩ := batchOf_sound hof
    set l := (pieces nfc p run)[position.batch] with hdef
    have hne : l≠[] := pieces_ne_nil (getElem_mem hlt)
    have hread := @envelopesOf_batchText nfc l fun v hv => (hsort.record v (hmem v hv)).2
    rw [hrow]
    refine Steps.Ends.bind (ends_check (fun _ => ?_) fun hno => by
      rw [rowOf_intact (hsort.fit l hmem hbound)] at hno
      cases hno)
    have hcontent : (rowOf nfc l).content=batchText nfc l := rfl
    rw [hcontent,hread]
    dsimp only
    rw [if_neg fun he => hne (map_eq_nil_iff.mp he),List.getElem?_map]
    rcases Nat.lt_or_ge position.offset l.length with ho | ho
    · obtain ⟨vs,hrest,hnext⟩ := h.within hlt ho
      have hv : l[position.offset]∈src.values := hmem _ (getElem_mem ho)
      obtain ⟨hs,hi⟩ := hsort.record _ hv
      rw [List.getElem?_eq_getElem ho,Option.map_some]
      refine Steps.Ends.bind (restoreRecord_ends hsort hv (hpass.texts _ hv) ?_)
      refine Steps.Ends.bind (canonical_ends (sortKey_readBack hs hi) ?_)
      refine Steps.Ends.bind (sortableSize_ends (hsort.small _ hv) ?_)
      refine ends_pure ⟨rfl,?_,h,fun v vs' hvs => ?_⟩
      · rw [hrest]
        rfl
      · rw [hrest] at hvs
        obtain ⟨-,rfl⟩ := List.cons.inj hvs
        exact hnext
    · rw [List.getElem?_eq_none ho,Option.map_none]
      refine ends_pure ⟨rfl,h.next hlt ho,rfl,fun hz => ?_⟩
      have := length_pos_of_ne_nil hne
      omega
  · have he : position.batch=(pieces nfc p run).length := le_antisymm h.1 hge
    have hl : (pieces nfc p run++[[]])[position.batch]?=some [] := by
      rw [he]
      simp
    obtain ⟨hrow,hof⟩ := hbatch _ hl
    obtain ⟨hmem,hbound⟩ := batchOf_sound hof
    have hread := @envelopesOf_batchText nfc [] fun v hv => (not_mem_nil hv).elim
    rw [hrow]
    refine Steps.Ends.bind (ends_check (fun _ => ?_) fun hno => by
      rw [rowOf_intact (hsort.fit [] hmem hbound)] at hno
      cases hno)
    have hcontent : (rowOf nfc []).content=batchText nfc [] := rfl
    rw [hcontent,hread]
    dsimp only
    rw [map_nil,if_pos rfl]
    have hnil := h.ended he
    exact ends_pure ⟨rfl,by rw [hnil]; rfl,h,fun v vs hvs => by rw [hnil] at hvs; cases hvs⟩

theorem readHead_ends (hsort : Sortable nfc src kept) {fuel p r : Nat} {run rest : List Json}
    {position : Position} (hfuel : 1 < fuel) (hrun : (runs nfc before src p)[r]?=some run)
    (hpass : PassDone nfc before src p s.retained)
    (h : Behind (pieces nfc p run) position.batch position.offset rest)
    {Q : Option Item×Position → Attempt Retained Variables → Prop}
    (hQ : ∀position',Behind (pieces nfc p run) position'.batch position'.offset rest →
      (∀v vs,rest=v::vs → Behind (pieces nfc p run) position'.batch (position'.offset+1) vs) →
      Q (rest.head?.map (Item.restored nfc),position') s) :
    (readHead nfc fuel p r position).Ends s Q E := by
  refine ends_loop (fun position s' => s'=s ∧
      Behind (pieces nfc p run) position.batch position.offset rest)
    (fun position _ => if position.offset=0 then 0 else 1) (fun position s' hI => ?_) ⟨rfl,h⟩ ?_
  · obtain ⟨rfl,hb⟩ := hI
    refine (headAt_ends hsort hrun hpass hb).post fun a s'' ha => ?_
    obtain ⟨rfl,ha⟩ := ha
    cases a with
    | inl position' =>
      obtain ⟨hb',hzero,hpos⟩ := ha
      refine ⟨⟨rfl,hb'⟩,?_⟩
      rw [if_pos hzero,if_neg hpos]
      exact Nat.one_pos
    | inr a =>
      obtain ⟨head,position'⟩ := a
      obtain ⟨rfl,hb',hnext⟩ := ha
      exact hQ position' hb' hnext
  · show (if position.offset=0 then 0 else 1) < fuel
    split
    · omega
    · exact hfuel

end

end Sorting

end CardKeepr.Reconciliation
