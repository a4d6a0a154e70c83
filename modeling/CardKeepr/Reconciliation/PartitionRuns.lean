import CardKeepr.Lib.Paging
import CardKeepr.Reconciliation.Partitions
import CardKeepr.Shared.WellFormed

namespace CardKeepr.Reconciliation.Partitions

open Lib Shared List Steps Code

section
variable (nfc : Nfc)

def encoding (v : Json) : JsString := (canonicalJson nfc (envelope nfc v).json).toOption.getD []

def recordText (v : Json) : JsString := (canonicalJson nfc v).toOption.getD []

/-- A record that fits a partition of its own. -/
structure Fits (v : Json) : Prop where
  encoded : canonicalJson nfc (envelope nfc v).json=.ok (encoding nfc v)
  size : byteLength (encoding nfc v)+2 ≤ 524288
  plain : canonicalJson nfc v=.ok (recordText nfc v)

/-- The bounds of a partition. -/
def room : Room (JsString×Json) where
  size e := byteLength (encoding nfc e.2)
  work e := byteLength (recordText nfc e.2)
  rim := 2
  maxSize := 524288
  maxCount := 128
  maxWork := 512000

def collectionPieces (c : JsString×RecordSource) : List (JsString×List (JsString×Json)) :=
  ((Filling.empty (room nfc)).cut (room nfc) c.2.entries).map fun p => (c.1,p)

def pieces (cs : List (JsString×RecordSource)) : List (JsString×List (JsString×Json)) :=
  cs.flatMap (collectionPieces nfc)

/-- The row of a partition. -/
def partitionRow (ordinal : Nat) (p : JsString×List (JsString×Json)) : Partition :=
  let content := bracketed (p.2.map fun e => encoding nfc e.2)
  ⟨ordinal,p.1,content,sha256Text content,2+(p.2.map (room nfc).size).sum+(p.2.length-1),p.2.length⟩

def manifest (ps : List (JsString×List (JsString×Json))) : List Partition :=
  ps.mapIdx (partitionRow nfc)

/-- The digest over the rows of a manifest. -/
def manifestDigest (initial : JsString) (rows : List Partition) : JsString :=
  rows.foldl (fun d r =>
    linked nfc d r.ordinal r.kind r.sha256 r.byte_length r.record_count) initial

theorem manifest_append (ps : List (JsString×List (JsString×Json)))
    (p : JsString×List (JsString×Json)) :
    manifest nfc (ps++[p])=manifest nfc ps++[partitionRow nfc ps.length p] := by
  rw [manifest,mapIdx_append]
  simp [manifest]

@[simp] theorem manifest_length (ps : List (JsString×List (JsString×Json))) :
    (manifest nfc ps).length=ps.length := length_mapIdx

theorem partitionAt_take (ps : List (JsString×List (JsString×Json))) (n i : Nat)
    (hn : n ≤ ps.length) : partitionAt ((manifest nfc ps).take n) i=
      if i < n then (ps[i]?).map (partitionRow nfc i) else none := by
  induction n with
  | zero => simp [partitionAt]
  | succ n ih =>
    have hlt : n < (manifest nfc ps).length := by
      rw [manifest_length]
      omega
    have hrow : (manifest nfc ps)[n]=partitionRow nfc n (ps.get ⟨n,by omega⟩) := getElem_mapIdx ..
    rw [partitionAt] at ih ⊢
    rw [take_succ_eq_append_getElem hlt,List.find?_append,ih (by omega),hrow]
    by_cases hi : i < n
    · rw [if_pos hi,if_pos (by omega)]
      have hget : ps[i]?=some (ps.get ⟨i,by omega⟩) := List.getElem?_eq_getElem _
      rw [hget]
      rfl
    · rw [if_neg hi,Option.none_or]
      by_cases he : i=n
      · subst he
        have hget : ps[i]?=some (ps.get ⟨i,by omega⟩) := List.getElem?_eq_getElem _
        rw [if_pos (Nat.lt_succ_self i),hget]
        simp [partitionRow]
      · rw [if_neg (by omega)]
        have hne : n≠i := fun h => he h.symm
        simp [partitionRow,hne]

end

section
variable (nfc : Nfc) (cs : List (JsString×RecordSource)) (initial : JsString) (kept : TextTable)

/-- The checkpoint of this cursor has at most 64 KiB. -/
def Cursor.Roomy (nfc : Nfc) (c : Cursor) : Prop :=
  ∃t,canonicalJson nfc c.json=.ok t ∧ byteLength t ≤ 65536

def AllFit (es : List (JsString×Json)) : Prop := ∀e∈es,Fits nfc e.2

/-- Every cursor with this key, under whatever number of partitions, fits its checkpoint. -/
def Spacious (after : JsString) : Prop :=
  ∀k n complete,k ≤ cs.length → n ≤ (pieces nfc cs).length →
    (⟨k,after,n,manifestDigest nfc initial (manifest nfc ((pieces nfc cs).take n)),complete⟩ :
      Cursor).Roomy nfc

/-- Every collection is resumable, every record fits, the chunks of its long texts are what `kept`
has at their places, and the checkpoints have room for the keys. -/
structure Retainable : Prop where
  resumable : ∀c∈cs,c.2.canonicalEntries≠none
  records : ∀c∈cs,∀e∈c.2.entries,Fits nfc e.2 ∧ ∀h∈recordChunks nfc e.2,
    kept h.sha256 h.ordinal=some h.content ∧ storedText h.content=h.content
  start : Spacious nfc cs initial []
  keys : ∀c∈cs,∀e∈c.2.entries,Spacious nfc cs initial e.1

/-- With this key the collection goes on with `rest`, also when it is read back. -/
structure LeadsOn (c : JsString×RecordSource) (key : JsString) (rest : List (JsString×Json)) :
    Prop where
  reads : ∀read,c.2.canonicalEntries=some read → read key=rest ∧ read (nfc.normalize key)=rest
  roomy : Retainable nfc cs initial kept → Spacious nfc cs initial key

/-- The points at which the cursor is retained. -/
inductive Place : Cursor → Prop where
  | within (before : List (JsString×RecordSource)) (c : JsString×RecordSource)
    (after : List (JsString×RecordSource)) (flushed rest : List (JsString×Json))
    (done : List (JsString×List (JsString×Json))) (key : JsString) (hcs : cs=before++c::after)
    (hkey : LeadsOn nfc cs initial kept c key rest)
    (hentries : c.2.entries=flushed++rest)
    (hpieces : pieces nfc cs=done++(((Filling.empty (room nfc)).cut (room nfc) rest).map
      (fun p => (c.1,p))++pieces nfc after))
    (hbefore : ∀b∈before,AllFit nfc b.2.entries) (hfit : AllFit nfc flushed) :
    Place ⟨before.length,key,done.length,manifestDigest nfc initial (manifest nfc done),false⟩
  | ended (complete : Bool) (hfit : ∀c∈cs,AllFit nfc c.2.entries) :
    Place ⟨cs.length,[],(pieces nfc cs).length,
      manifestDigest nfc initial (manifest nfc (pieces nfc cs)),complete⟩

/-- What is retained between attempts: `n` of the partitions. -/
structure Kept (n : Nat) (d : Retained) : Prop where
  partitions : d.partitions=(manifest nfc (pieces nfc cs)).take n
  bound : n ≤ (pieces nfc cs).length
  texts : Retainable nfc cs initial kept → d.texts.Le kept
  place : Place nfc cs initial kept (d.cursor initial)
  ordinal : (d.cursor initial).ordinal ≤ n

def Rests (d : Retained) : Prop := ∃n,Kept nfc cs initial kept n d

def toGo (c : Cursor) : Nat :=
  cs.length-c.kind+((pieces nfc cs).length-c.ordinal)+if c.complete=true then 0 else 1

/-- An attempt between two of its writes; `limit` is what was to do at its start. -/
structure Running (limit : Nat) (uncut : Prop) (s : Attempt Retained Variables) : Prop where
  kept : ∃n,Kept nfc cs initial kept n s.retained ∧ s.vars.cursor.ordinal ≤ n
  number : s.vars.checkpointOrdinal=s.retained.checkpoints.length
  forward : toGo nfc cs s.vars.cursor ≤ limit
  uncut : uncut → s.writes=none

def Halts (yieldAtCheckpoint : Bool) (limit : Nat) (uncut : Prop) (r : Stopped JsString)
    (s : Attempt Retained Variables) : Prop :=
  Rests nfc cs initial kept s.retained ∧ match r with
    | .cutOff => ¬uncut
    | .continuation _ =>
      yieldAtCheckpoint=true ∧ toGo nfc cs (s.retained.cursor initial) < limit
    | .failed _ => ¬Retainable nfc cs initial kept

end

section
variable {nfc : Nfc} {cs : List (JsString×RecordSource)} {initial : JsString} {kept : TextTable}
  {limit : Nat} {uncut : Prop} {yieldAtCheckpoint : Bool} {s : Attempt Retained Variables}

theorem Running.rests (h : Running nfc cs initial kept limit uncut s) :
    Rests nfc cs initial kept s.retained := by
  obtain ⟨n,hn,-⟩ := h.kept
  exact ⟨n,hn⟩

theorem Running.cut (h : Running nfc cs initial kept limit uncut s) (hw : s.writes=some 0) :
    Halts nfc cs initial kept yieldAtCheckpoint limit uncut .cutOff s := by
  refine ⟨h.rests,fun hu => ?_⟩
  rw [h.uncut hu] at hw
  cases hw

theorem Running.lessened (h : Running nfc cs initial kept limit uncut s) (hu : uncut) :
    s.writes.map (·-1)=none := by
  rw [h.uncut hu]
  rfl

theorem Running.assign (h : Running nfc cs initial kept limit uncut s) {v : Variables}
    (hc : v.cursor.ordinal=s.vars.cursor.ordinal)
    (hn : v.checkpointOrdinal=s.vars.checkpointOrdinal)
    (hf : toGo nfc cs v.cursor ≤ toGo nfc cs s.vars.cursor) :
    Running nfc cs initial kept limit uncut { s with vars := v } := by
  obtain ⟨n,hk,hle⟩ := h.kept
  exact ⟨⟨n,hk,hc ▸ hle⟩,hn.trans h.number,hf.trans h.forward,h.uncut⟩

theorem canonicalJson_readBack (c : Cursor) :
    canonicalJson nfc (c.readBack nfc).json=canonicalJson nfc c.json := by
  have hafter : ∀path : JsString,canonicalJsonAt nfc path (.str (nfc.normalize c.after))=
      canonicalJsonAt nfc path (.str c.after) := by
    intro path
    rw [canonicalJsonAt,canonicalJsonAt,nfc.idempotent]
  have hmembers : ∀m : JsString×Json,∀ms,canonicalMembers nfc [36]
      (m::(js "after".toList,.str (nfc.normalize c.after))::ms)=
      canonicalMembers nfc [36] (m::(js "after".toList,.str c.after)::ms) := by
    intro m ms
    obtain ⟨k,v⟩ := m
    rw [canonicalMembers,canonicalMembers,hafter,canonicalMembers,canonicalMembers]
  rw [canonicalJson,canonicalJson,Cursor.json,Cursor.json,canonicalJsonAt,canonicalJsonAt]
  dsimp only [Cursor.readBack]
  rw [hmembers]

theorem roomy_readBack {c : Cursor} : (c.readBack nfc).Roomy nfc ↔ c.Roomy nfc := by
  rw [Cursor.Roomy,canonicalJson_readBack,Cursor.Roomy]

theorem checkpoint_roomy {d : Retained} {c : Cursor} {ordinal : Nat} (hc : c.Roomy nfc)
    (ho : ordinal=d.checkpoints.length) : d.checkpoint nfc ordinal c=
      .ok { d with checkpoints := d.checkpoints++[c.readBack nfc] } := by
  obtain ⟨t,ht,hlen⟩ := hc
  rw [Retained.checkpoint,ht,retainCheckpoint_next ho]
  exact if_neg (Nat.not_lt.mpr hlen)

theorem checkpoint_crowded {d : Retained} {c : Cursor} {ordinal : Nat} (hc : ¬c.Roomy nfc) :
    ∃e,d.checkpoint nfc ordinal c=.error e := by
  rw [Retained.checkpoint]
  cases ht : canonicalJson nfc c.json with
  | error e => exact ⟨e,rfl⟩
  | ok t => exact ⟨_,if_pos (Nat.lt_of_not_le fun hlen => hc ⟨t,ht,hlen⟩)⟩

theorem Spacious.readBack {key : JsString} (h : Spacious nfc cs initial key) :
    Spacious nfc cs initial (nfc.normalize key) := by
  intro k n complete hk hn
  have hroomy := roomy_readBack.mpr (h k n complete hk hn)
  rw [Cursor.readBack] at hroomy
  exact hroomy

theorem LeadsOn.readBack {c : JsString×RecordSource} {key : JsString} {rest : List (JsString×Json)}
    (h : LeadsOn nfc cs initial kept c key rest) :
    LeadsOn nfc cs initial kept c (nfc.normalize key) rest :=
  ⟨fun read hr => ⟨(h.reads read hr).2,by rw [nfc.idempotent]; exact (h.reads read hr).2⟩,
    fun hre => (h.roomy hre).readBack⟩

theorem Place.readBack {cursor : Cursor} (h : Place nfc cs initial kept cursor) :
    Place nfc cs initial kept (cursor.readBack nfc) := by
  cases h with
  | within before c after flushed rest done key hcs hkey hentries hpieces hbefore hfit =>
    exact .within before c after flushed rest done _ hcs hkey.readBack hentries hpieces hbefore
      hfit
  | ended complete hfit =>
    rw [Cursor.readBack,nfc.ascii [] rfl]
    exact .ended complete hfit

theorem Place.roomy {cursor : Cursor} (h : Place nfc cs initial kept cursor)
    (hre : Retainable nfc cs initial kept) : cursor.Roomy nfc := by
  cases h with
  | within before c after flushed rest done key hcs hkey hentries hpieces =>
    have hk : before.length ≤ cs.length := by
      rw [hcs,length_append]
      exact Nat.le_add_right _ _
    have hn : done.length ≤ (pieces nfc cs).length := by
      rw [hpieces,length_append]
      exact Nat.le_add_right _ _
    have hroomy := hkey.roomy hre before.length done.length false hk hn
    rw [hpieces,take_left] at hroomy
    exact hroomy
  | ended complete hfit =>
    have hroomy := hre.start cs.length (pieces nfc cs).length complete (Nat.le_refl _)
      (Nat.le_refl _)
    rw [take_length] at hroomy
    exact hroomy

theorem save_ends (h : Running nfc cs initial kept limit uncut s)
    (hp : Place nfc cs initial kept s.vars.cursor) (hlt : toGo nfc cs s.vars.cursor < limit)
    {Q : Unit → Attempt Retained Variables → Prop}
    (hQ : ∀s',Running nfc cs initial kept limit uncut s' → s'.vars.cursor=s.vars.cursor →
      s'.vars.parts=s.vars.parts → s'.vars.bytes=s.vars.bytes →
      s'.vars.workBytes=s.vars.workBytes →
      s'.retained.cursor initial=s.vars.cursor.readBack nfc → Q () s') :
    (save nfc yieldAtCheckpoint).Ends s Q
      (Halts nfc cs initial kept yieldAtCheckpoint limit uncut) := by
  refine Steps.Ends.bind (ends_vars ?_)
  by_cases hroomy : s.vars.cursor.Roomy nfc
  swap
  · obtain ⟨e,he⟩ := @checkpoint_crowded nfc s.retained s.vars.cursor s.vars.checkpointOrdinal
      hroomy
    exact Steps.Ends.bind (ends_write_failed he h.cut ⟨h.rests,fun hre => hroomy (hp.roomy hre)⟩)
  let saved := s.vars.cursor.readBack nfc
  have hlast : ∀d : Retained,Retained.cursor initial
      { d with checkpoints := d.checkpoints++[saved] }=saved := by
    intro d
    rw [Retained.cursor,List.getLast?_append]
    rfl
  have hnext : Running nfc cs initial kept limit uncut
      ⟨{ s.retained with checkpoints := s.retained.checkpoints++[saved] },
        { s.vars with checkpointOrdinal := s.vars.checkpointOrdinal+1 },s.writes.map (·-1)⟩ := by
    obtain ⟨n,hk,hle⟩ := h.kept
    refine ⟨⟨n,⟨hk.partitions,hk.bound,hk.texts,?_,?_⟩,hle⟩,?_,h.forward,h.lessened⟩
    · rw [hlast]
      exact hp.readBack
    · rw [hlast]
      exact hle
    · rw [length_append,h.number]
      rfl
  refine Steps.Ends.bind (ends_write (checkpoint_roomy hroomy h.number) h.cut fun _ => ?_)
  refine Steps.Ends.bind (ends_when (fun hy => ends_stop ⟨hnext.rests,hy,?_⟩) fun _ => ?_)
  · rw [hlast]
    exact hlt
  · exact ends_assign (hQ _ hnext rfl rfl rfl rfl (hlast _))

/-- A collection that is being walked: `flushed` stands in the partitions `done`, the filling `f`
is not yet one, and `left` are the partitions to come. -/
structure Walking (nfc : Nfc) (cs : List (JsString×RecordSource)) (initial : JsString)
    (kept : TextTable) (limit : Nat) (uncut : Prop) (before : List (JsString×RecordSource))
    (c : JsString×RecordSource) (after : List (JsString×RecordSource))
    (flushed : List (JsString×Json)) (f : Filling (JsString×Json)) (rest : List (JsString×Json))
    (left : List (List (JsString×Json))) (s : Attempt Retained Variables) : Prop where
  running : Running nfc cs initial kept limit uncut s
  collections : cs=before++c::after
  entries : c.2.entries=flushed++f.parts++rest
  before_fit : ∀b∈before,AllFit nfc b.2.entries
  fit : AllFit nfc (flushed++f.parts)
  counted : f.Counted (room nfc)
  parts : s.vars.parts=f.parts.map fun e => encoding nfc e.2
  bytes : s.vars.bytes=f.size
  workBytes : s.vars.workBytes=f.work
  place : ∃done key,pieces nfc cs=done++(left.map (fun p => (c.1,p))++pieces nfc after) ∧
    LeadsOn nfc cs initial kept c key rest ∧
    s.vars.cursor=⟨before.length,key,done.length,
      manifestDigest nfc initial (manifest nfc done),false⟩

variable {before after : List (JsString×RecordSource)} {c : JsString×RecordSource}
  {flushed rest : List (JsString×Json)} {f : Filling (JsString×Json)}
  {left : List (List (JsString×Json))}

theorem insert_next {d : Retained} {ps : List (JsString×List (JsString×Json))} {n i : Nat}
    {p : JsString×List (JsString×Json)} (hd : d.partitions=(manifest nfc ps).take n)
    (hn : n ≤ ps.length) (hp : ps[i]?=some p) (hi : i ≤ n) :
    ∃m,d.insert (partitionRow nfc i p)={ d with partitions := (manifest nfc ps).take m } ∧
      n ≤ m ∧ i < m ∧ m ≤ ps.length := by
  have hlt : i < ps.length := (List.getElem?_eq_some_iff.mp hp).1
  have hfind : partitionAt d.partitions i=if i < n then some (partitionRow nfc i p) else none := by
    rw [hd,partitionAt_take nfc ps n i hn,hp]
    rfl
  by_cases hin : i < n
  · rw [if_pos hin] at hfind
    have hsame : d.insert (partitionRow nfc i p)=d := by
      have hkept : partitionAt d.partitions (partitionRow nfc i p).ordinal=_ := hfind
      rw [Retained.insert,hkept]
    exact ⟨n,by rw [hsame,←hd],Nat.le_refl n,hin,hn⟩
  · rw [if_neg hin] at hfind
    obtain rfl : i=n := by omega
    have hnext : d.insert (partitionRow nfc i p)=
        { d with partitions := d.partitions++[partitionRow nfc i p] } := by
      have hfree : partitionAt d.partitions (partitionRow nfc i p).ordinal=_ := hfind
      rw [Retained.insert,hfree]
    have hlen : i < (manifest nfc ps).length := by
      rw [manifest_length]
      exact hlt
    have hrow : (manifest nfc ps)[i]=partitionRow nfc i (ps.get ⟨i,hlt⟩) := getElem_mapIdx ..
    have hpi : ps.get ⟨i,hlt⟩=p := (List.getElem?_eq_some_iff.mp hp).2
    refine ⟨i+1,?_,Nat.le_succ i,Nat.lt_succ_self i,hlt⟩
    rw [hnext,take_succ_eq_append_getElem hlen,hrow,hpi,←hd]

/-- The filling becomes the next partition, and the cursor behind it is retained. -/
theorem flushParts_ends (h : Walking nfc cs initial kept limit uncut before c after flushed f rest
      (f.parts::(Filling.empty (room nfc)).cut (room nfc) rest) s)
    {Q : Unit → Attempt Retained Variables → Prop}
    (hQ : ∀s',Walking nfc cs initial kept limit uncut before c after (flushed++f.parts)
      (.empty (room nfc)) rest ((Filling.empty (room nfc)).cut (room nfc) rest) s' → Q () s') :
    (flushParts nfc yieldAtCheckpoint c.1).Ends s Q
      (Halts nfc cs initial kept yieldAtCheckpoint limit uncut) := by
  obtain ⟨done,key,hpieces,hkey,hcursor⟩ := h.place
  rw [map_cons,cons_append] at hpieces
  have hordinal : s.vars.cursor.ordinal=done.length := by rw [hcursor]
  have hget : (pieces nfc cs)[done.length]?=some (c.1,f.parts) := by
    rw [hpieces]
    simp
  have hlt : done.length < (pieces nfc cs).length := (List.getElem?_eq_some_iff.mp hget).1
  let row := partitionRow nfc done.length (c.1,f.parts)
  have hrow : (⟨s.vars.cursor.ordinal,c.1,bracketed s.vars.parts,
      sha256Text (bracketed s.vars.parts),s.vars.bytes,s.vars.parts.length⟩ : Partition)=row := by
    rw [hordinal,h.parts,h.bytes,length_map,h.counted]
    rfl
  obtain ⟨n,hk,hle⟩ := h.running.kept
  rw [hordinal] at hle
  obtain ⟨m,hins,hnm,hm,hbound⟩ := insert_next hk.partitions hk.bound hget hle
  have hat : partitionAt ((manifest nfc (pieces nfc cs)).take m) done.length=some row := by
    rw [partitionAt_take nfc _ m _ hbound,if_pos hm,hget]
    rfl
  have hkept : Kept nfc cs initial kept m (s.retained.insert row) := by
    rw [hins]
    exact ⟨rfl,hbound,hk.texts,hk.place,hk.ordinal.trans hnm⟩
  have hnumber : s.vars.checkpointOrdinal=(s.retained.insert row).checkpoints.length := by
    rw [hins]
    exact h.running.number
  have hdone : pieces nfc cs=(done++[(c.1,f.parts)])++
      (((Filling.empty (room nfc)).cut (room nfc) rest).map (fun p => (c.1,p))++
        pieces nfc after) := by
    rw [hpieces,append_assoc]
    rfl
  have hdigest : linked nfc (manifestDigest nfc initial (manifest nfc done)) done.length c.1
      row.sha256 row.byte_length row.record_count=
      manifestDigest nfc initial (manifest nfc (done++[(c.1,f.parts)])) := by
    rw [manifest_append,manifestDigest,manifestDigest,foldl_append]
    rfl
  let row' : Partition := ⟨s.vars.cursor.ordinal,c.1,bracketed s.vars.parts,
    sha256Text (bracketed s.vars.parts),s.vars.bytes,s.vars.parts.length⟩
  -- the state in which the partition is there
  let s₁ : Attempt Retained Variables :=
    ⟨s.retained.insert row,s.vars,s.writes.map (·-1)⟩
  let s₂ : Attempt Retained Variables := { s₁ with vars := { s.vars with
    cursor := { s.vars.cursor with
      digest := linked nfc s.vars.cursor.digest s.vars.cursor.ordinal c.1
        (sha256Text (bracketed s.vars.parts)) s.vars.bytes s.vars.parts.length,
      ordinal := s.vars.cursor.ordinal+1 },
    parts := [], bytes := 2, workBytes := 0 } }
  have hfewer : toGo nfc cs s₂.vars.cursor < limit := by
    refine Nat.lt_of_lt_of_le ?_ h.running.forward
    let ended := if s.vars.cursor.complete=true then 0 else 1
    show cs.length-s.vars.cursor.kind+((pieces nfc cs).length-(s.vars.cursor.ordinal+1))+ended <
      cs.length-s.vars.cursor.kind+((pieces nfc cs).length-s.vars.cursor.ordinal)+ended
    omega
  have hs₂ : Running nfc cs initial kept limit uncut s₂ := by
    refine ⟨⟨m,hkept,?_⟩,hnumber,Nat.le_of_lt hfewer,fun hu => h.running.lessened hu⟩
    show s.vars.cursor.ordinal+1 ≤ m
    omega
  have hcursor₂ : s₂.vars.cursor=⟨before.length,key,
      (done++[(c.1,f.parts)]).length,
      manifestDigest nfc initial (manifest nfc (done++[(c.1,f.parts)])),false⟩ := by
    have hshort : linked nfc s.vars.cursor.digest s.vars.cursor.ordinal c.1
        (sha256Text (bracketed s.vars.parts)) s.vars.bytes s.vars.parts.length=
        linked nfc s.vars.cursor.digest row'.ordinal row'.kind row'.sha256 row'.byte_length
          row'.record_count := rfl
    show (⟨s.vars.cursor.kind,s.vars.cursor.after,s.vars.cursor.ordinal+1,_,
      s.vars.cursor.complete⟩ : Cursor)=_
    rw [hshort,show row'=row from hrow,hcursor,length_append]
    exact congrArg (Cursor.mk _ _ _ · _) hdigest
  have hplace : Place nfc cs initial kept s₂.vars.cursor := by
    rw [hcursor₂]
    exact .within before c after (flushed++f.parts) rest _ key h.collections hkey h.entries hdone
      h.before_fit h.fit
  refine Steps.Ends.bind (ends_vars ?_)
  refine Steps.Ends.bind (ends_write rfl h.running.cut fun _ => ?_)
  refine Steps.Ends.bind (ends_retained ?_)
  have hfound : ((partitionAt (s.retained.insert row').partitions s.vars.cursor.ordinal).any
      fun p => decide (p.kind=c.1 ∧ p.content=bracketed s.vars.parts))=true := by
    have hkind : row.kind=c.1 ∧ row.content=bracketed s.vars.parts := by
      rw [←hrow]
      exact ⟨rfl,rfl⟩
    rw [show row'=row from hrow,hordinal,hins,hat]
    exact decide_eq_true hkind
  refine Steps.Ends.bind (ends_check (fun _ => ?_) fun hno => ?_)
  · refine Steps.Ends.bind (ends_assign ?_)
    show (save nfc yieldAtCheckpoint).Ends { s₂ with retained := s.retained.insert row' } Q _
    rw [show row'=row from hrow]
    refine save_ends hs₂ hplace hfewer fun s' hr hc hp hb hw _ => hQ s' ?_
    have hsame : flushed++f.parts++(Filling.empty (room nfc)).parts=flushed++f.parts :=
      append_nil _
    exact ⟨hr,h.collections,by rw [hsame,h.entries],h.before_fit,by rw [hsame]; exact h.fit,
      Filling.empty_counted,hp,hb,hw,⟨done++[(c.1,f.parts)],key,hdone,hkey,hc.trans hcursor₂⟩⟩
  · exact absurd (hno.symm.trans hfound) (by simp)

end

end CardKeepr.Reconciliation.Partitions
