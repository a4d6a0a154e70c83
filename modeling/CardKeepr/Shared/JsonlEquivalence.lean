import CardKeepr.Shared.JsonlAssembler

namespace CardKeepr.Shared

open Lib OpenBlock List

variable {limits : SourceArchiveLimits} {blockBytes blockRecords : Nat}

structure RecordRep (limits : SourceArchiveLimits) (s : RecordCursor) (o : OpenBlock) : Prop where
  length : s.length=o.tail.length
  pending : s.pending.take o.tail.length=o.tail
  capacity : s.pending.length=limits.recordBytes
  ordinal : s.ordinal=o.firstRecord+o.count

structure GroupRep (blockBytes : Nat) (s : BlockCursor) (o : OpenBlock) : Prop where
  length : s.length=o.bytes.length
  count : s.count=o.count
  ordinal : s.ordinal=o.ordinal
  offset : s.offset=o.offset
  firstRecord : s.firstRecord=o.firstRecord
  pending : s.pending.take o.bytes.length=o.bytes
  capacity : s.pending.length=blockBytes

theorem GroupRep.block {s : BlockCursor} {o : OpenBlock} (r : GroupRep blockBytes s o) :
    s.block=o.block := by
  simp [BlockCursor.block,OpenBlock.block,r.ordinal,r.offset,r.firstRecord,r.count,r.length,
    r.pending]

theorem groupRecords_append (xs ys : List JsonlRecord) (s : BlockCursor) :
    groupRecords blockBytes blockRecords (xs++ys) s=
      ((groupRecords blockBytes blockRecords xs s).1++
        (groupRecords blockBytes blockRecords ys (groupRecords blockBytes blockRecords xs s).2).1,
        (groupRecords blockBytes blockRecords ys (groupRecords blockBytes blockRecords xs s).2).2) := by
  induction xs generalizing s with
  | nil => rfl
  | cons x xs ih =>
    simp only [cons_append,groupRecords]
    split <;> simp [ih]

theorem groupRecords_one {s : BlockCursor} {o o' : OpenBlock} {b : Option JsonlBlock}
    (record : JsonlRecord) (r : GroupRep blockBytes s o)
    (ho : Fits limits blockBytes blockRecords o) (hrb : limits.recordBytes ≤ blockBytes)
    (hr : record.bytes=o.tail) (h : complete limits blockBytes blockRecords o=.ok (b,o')) :
    (groupRecords blockBytes blockRecords [record] s).1=b.toList ∧
      GroupRep blockBytes (groupRecords blockBytes blockRecords [record] s).2 o' := by
  have hb := ho.bytes
  have ht := ho.tail
  simp only [groupRecords,hr,r.count,r.length]
  obtain ⟨-,⟨hc,rfl,rfl⟩|⟨hc,rfl,rfl⟩⟩ := complete_ok h
  · rw [if_pos (show o.count≠0 ∧ _ from hc)]
    refine ⟨by simp [r.block],?_⟩
    have h := setAt_take s.pending o.tail 0 (Nat.zero_le _)
    exact ⟨by simp [afterClose],rfl,by simp [afterClose,r.ordinal],by simp [afterClose,r.offset],
      by simp [afterClose,r.firstRecord],by simpa [afterClose] using h,
      by rw [setAt_length _ _ _ (by rw [r.capacity]; omega),r.capacity]⟩
  · rw [if_neg (show ¬(o.count≠0 ∧ _) from hc)]
    have hfit : o.bytes.length+o.tail.length ≤ blockBytes := by
      simp only [closes,not_and,not_or,Nat.not_lt] at hc
      by_cases h0 : o.count=0
      · rw [ho.empty.mp h0]
        simp only [length_nil]
        omega
      · exact (hc h0).1
    refine ⟨rfl,?_⟩
    have h := setAt_take s.pending o.tail o.bytes.length (by rw [r.capacity]; omega)
    rw [r.pending] at h
    exact ⟨by simp [extend],by simp [extend],r.ordinal,r.offset,r.firstRecord,
      by simpa [extend] using h,by rw [setAt_length _ _ _ (by rw [r.capacity]; omega),r.capacity]⟩

theorem RecordRep.part {s : RecordCursor} {o : OpenBlock} {p : List UInt8}
    (r : RecordRep limits s o) (hp : o.tail.length+p.length ≤ limits.recordBytes) :
    RecordRep limits {s with pending := setAt s.pending p s.length,length := s.length+p.length}
      {o with tail := o.tail++p} := by
  have hc : o.tail.length+p.length ≤ s.pending.length := by rw [r.capacity]; exact hp
  have h := setAt_take s.pending p o.tail.length (by omega)
  rw [r.pending] at h
  exact ⟨by simp [r.length],by simpa [r.length] using h,
    by simp only [r.length]; rw [setAt_length _ _ _ hc,r.capacity],r.ordinal⟩

theorem GroupRep.tail {s : BlockCursor} {o : OpenBlock} (r : GroupRep blockBytes s o)
    (t : List UInt8) : GroupRep blockBytes s {o with tail := t} :=
  ⟨r.length,r.count,r.ordinal,r.offset,r.firstRecord,r.pending,r.capacity⟩

/-- Records read from parts and grouped agree with the value-level run over the same parts. -/
theorem recordParts_rep (hrb : limits.recordBytes ≤ blockBytes) (hbr : 1 ≤ blockRecords)
    (ps : List (List UInt8)) (s : RecordCursor) (g : BlockCursor) (o : OpenBlock)
    (r : RecordRep limits s o) (q : GroupRep blockBytes g o)
    (ho : Fits limits blockBytes blockRecords o) :
    match run limits blockBytes blockRecords ps o with
    | .error f => (recordParts limits ps s).2=.error f
    | .ok (bs,o') => ∃s',(recordParts limits ps s).2=.ok s' ∧ s'.decoded=s.decoded ∧
        RecordRep limits s' o' ∧
        (groupRecords blockBytes blockRecords (recordParts limits ps s).1 g).1=bs ∧
        GroupRep blockBytes
          (groupRecords blockBytes blockRecords (recordParts limits ps s).1 g).2 o' := by
  induction ps generalizing s g o with
  | nil => exact ⟨s,rfl,rfl,r,rfl,q⟩
  | cons p ps ih =>
    rw [run,recordParts,r.capacity,r.length]
    cases hp : OpenBlock.part limits blockBytes blockRecords p o with
    | error f =>
      unfold OpenBlock.part at hp
      split at hp
      · cases hp; simp [‹limits.recordBytes<_›]
      · rename_i hlt
        rw [if_neg hlt]
        split at hp
        · rename_i hc
          unfold complete at hp
          split at hp
          · cases hp; simp [hc,r.ordinal,‹limits.records ≤ _›]
          · split at hp <;> cases hp
        · cases hp
    | ok x =>
      obtain ⟨b,o1⟩ := x
      obtain ⟨hlen,hcase⟩ := part_ok hp
      have f1 := (part_spec hrb hbr ho hp).1
      have rp := r.part hlen
      rw [if_neg (show ¬o.tail.length+p.length>limits.recordBytes by omega)]
      simp only [r.length] at rp
      rcases hcase with ⟨hc,hcomp⟩|⟨hc,rfl,rfl⟩
      · have hrec : ¬limits.records ≤ s.ordinal := by
          rw [r.ordinal]
          have := (complete_ok hcomp).1
          simp only at this
          omega
        simp only [hc,Bool.not_true,Bool.false_eq_true,if_false,hrec]
        have ht := fits_tail ho hlen
        -- the record handed out is the whole tail of the open block
        have hone := groupRecords_one
          ⟨s.ordinal,s.offset,(setAt s.pending p o.tail.length).take (o.tail.length+p.length)⟩
          (q.tail (o.tail++p)) ht hrb (by simpa using rp.pending) hcomp
        have r1 : RecordRep limits ⟨setAt s.pending p o.tail.length,0,s.decoded,s.ordinal+1,
            s.offset+(o.tail.length+p.length)⟩ o1 := by
          obtain ⟨-,⟨-,-,rfl⟩|⟨-,-,rfl⟩⟩ := complete_ok hcomp
          · exact ⟨rfl,rfl,rp.capacity,by simp [afterClose,r.ordinal]⟩
          · exact ⟨rfl,rfl,rp.capacity,by simp [extend,r.ordinal,Nat.add_assoc]⟩
        have h := ih _ _ o1 r1 hone.2 f1
        cases hrun : run limits blockBytes blockRecords ps o1 with
        | error f =>
          rw [hrun] at h
          simpa using h
        | ok y =>
          obtain ⟨bs,o2⟩ := y
          rw [hrun] at h
          obtain ⟨s',e,d,r2,e1,g2⟩ := h
          refine ⟨s',e,d,r2,?_,?_⟩
          · rw [←singleton_append,groupRecords_append,hone.1]
            exact congrArg (b.toList++·) e1
          · rw [←singleton_append,groupRecords_append]
            exact g2
      · have h := ih _ g _ rp (q.tail (o.tail++p)) (fits_tail ho hlen)
        simp only [hc,Bool.not_false,if_true]
        cases hrun : run limits blockBytes blockRecords ps {o with tail := o.tail++p} with
        | error f => rw [hrun] at h; exact h
        | ok y => rw [hrun] at h; simpa using h

theorem recordDeliveries_rep (hrb : limits.recordBytes ≤ blockBytes) (hbr : 1 ≤ blockRecords)
    (ds : List Delivery) (hgzip : .corrupt∉ds) (compressed : Nat)
    (hc : compressed+(ds.flatMap Delivery.compressed).length ≤ limits.compressedBytes)
    (s : RecordCursor) (g : BlockCursor) (o : OpenBlock)
    (r : RecordRep limits s o) (q : GroupRep blockBytes g o)
    (ho : Fits limits blockBytes blockRecords o)
    (hd : s.decoded+(ds.flatMap Delivery.bytes).length ≤ limits.decompressedBytes) :
    match feed limits blockBytes blockRecords (ds.flatMap Delivery.bytes) o with
    | .error f => (recordDeliveries limits ds compressed s).2=.error f
    | .ok (bs,o') => ∃s',(recordDeliveries limits ds compressed s).2=.ok s' ∧
        RecordRep limits s' o' ∧
        (groupRecords blockBytes blockRecords (recordDeliveries limits ds compressed s).1 g).1=bs ∧
        GroupRep blockBytes
          (groupRecords blockBytes blockRecords (recordDeliveries limits ds compressed s).1 g).2
          o' := by
  induction ds generalizing compressed s g o with
  | nil => exact ⟨s,rfl,r,rfl,q⟩
  | cons d ds ih =>
    have hrest := not_mem_of_not_mem_cons hgzip
    simp only [flatMap_cons,length_append] at hc hd
    rw [flatMap_cons]
    cases d with
    | corrupt => exact absurd mem_cons_self hgzip
    | pulled chunk =>
      simp only [Delivery.compressed,Delivery.bytes,length_nil,nil_append] at hc hd ⊢
      rw [recordDeliveries,if_neg (by omega)]
      exact ih hrest _ (by omega) s g o r q ho (by omega)
    | decoded chunk =>
      simp only [Delivery.compressed,Delivery.bytes,length_nil] at hc hd ⊢
      rw [feed_append,recordDeliveries,
        if_neg (show ¬limits.decompressedBytes < s.decoded+chunk.length by omega)]
      have r' : RecordRep limits {s with decoded := s.decoded+chunk.length} o :=
        ⟨r.length,r.pending,r.capacity,r.ordinal⟩
      have h := recordParts_rep hrb hbr (parts chunk) _ g o r' q ho
      rw [run_parts] at h
      cases hf : feed limits blockBytes blockRecords chunk o with
      | error f =>
        rw [hf] at h
        dsimp only at h
        generalize recordParts limits (parts chunk) _=rp at h
        obtain ⟨ys,res⟩ := rp
        cases h
        rfl
      | ok x =>
        obtain ⟨bs,o1⟩ := x
        rw [hf] at h
        dsimp only at h
        generalize recordParts limits (parts chunk) _=rp at h
        obtain ⟨ys,res⟩ := rp
        obtain ⟨s1,e,hdecoded,r1,e1,g1⟩ := h
        dsimp only at e e1 g1 hdecoded
        subst e
        have h := ih hrest compressed (by omega) s1 _ o1 r1 g1 (feed_spec hrb hbr ho hf).1
          (by rw [hdecoded]; omega)
        dsimp only
        cases hf2 : feed limits blockBytes blockRecords (ds.flatMap Delivery.bytes) o1 with
        | error f => rw [hf2] at h; exact h
        | ok y =>
          obtain ⟨cs,o2⟩ := y
          rw [hf2] at h
          obtain ⟨s2,e2,r2,e3,g2⟩ := h
          refine ⟨s2,e2,r2,?_,?_⟩
          · rw [groupRecords_append,e1,e3]
          · rw [groupRecords_append]
            exact g2

/-- The block grouping of a decoded byte string: its blocks, or its first failure. -/
def blocksOf (limits : SourceArchiveLimits) (blockBytes blockRecords : Nat) (bytes : List UInt8) :
    Except ArchiveFailure (List JsonlBlock) :=
  match feed limits blockBytes blockRecords bytes start with
  | .error f => .error f
  | .ok (bs,o) =>
    match OpenBlock.finish limits blockBytes blockRecords o with
    | .error f => .error f
    | .ok cs => .ok (bs++cs)

theorem gzipJsonlBlocks_eq (hl : blockLimits limits blockBytes blockRecords=true)
    (hp : limits.positive=true) (ds : List Delivery) (hgzip : .corrupt∉ds)
    (hc : (ds.flatMap Delivery.compressed).length ≤ limits.compressedBytes)
    (hd : (ds.flatMap Delivery.bytes).length ≤ limits.decompressedBytes) :
    (gzipJsonlBlocks limits blockBytes blockRecords ds).result=
      blocksOf limits blockBytes blockRecords (ds.flatMap Delivery.bytes) := by
  have hl' := hl
  simp only [blockLimits,decide_eq_true_eq] at hl'
  obtain ⟨-,hrb,-,hbr⟩ := hl'
  have r0 : RecordRep limits ⟨List.replicate limits.recordBytes 0,0,0,0,0⟩ start :=
    ⟨rfl,rfl,by simp,rfl⟩
  have g0 : GroupRep blockBytes ⟨List.replicate blockBytes 0,0,0,0,0,0⟩ start :=
    ⟨rfl,rfl,rfl,rfl,rfl,rfl,by simp⟩
  have h := recordDeliveries_rep hrb hbr ds hgzip 0 (by simpa using hc) _ _ start r0 g0
    (start_fits _ _ _) (by simpa using hd)
  unfold gzipJsonlBlocks gzipJsonlRecords blocksOf
  simp only [hl,hp,Bool.not_true,Bool.false_eq_true,if_false]
  generalize recordDeliveries limits ds 0 _=rc at h
  obtain ⟨ys,res⟩ := rc
  cases hf : feed limits blockBytes blockRecords (ds.flatMap Delivery.bytes) start with
  | error f =>
    rw [hf] at h
    cases h
    rfl
  | ok x =>
    obtain ⟨bs,o⟩ := x
    rw [hf] at h
    obtain ⟨s,e,r,e1,g⟩ := h
    dsimp only at e e1 g
    subst e
    have ho := (feed_spec hrb hbr (start_fits _ _ _) hf).1
    dsimp only
    unfold OpenBlock.finish
    by_cases ht : o.tail=[]
    · have hs : s.length=0 := by simp [r.length,ht]
      simp only [hs,ht,if_true,groupGenerated,Generated.result,e1,g.count,g.block]
      split <;> simp
    · have hs : s.length≠0 := by simp [r.length,ht]
      simp only [hs,ht,if_false]
      cases hc : complete limits blockBytes blockRecords o with
      | error f =>
        unfold complete at hc
        split at hc
        · cases hc
          rw [if_pos (by rw [r.ordinal]; assumption)]
          rfl
        · split at hc <;> cases hc
      | ok y =>
        obtain ⟨b,o1⟩ := y
        have := (complete_ok hc).1
        rw [if_neg (by rw [r.ordinal]; omega)]
        have hone := groupRecords_one ⟨s.ordinal,s.offset,s.pending.take s.length⟩ g ho hrb
          (by simpa [r.length] using r.pending) hc
        simp only [groupGenerated,Generated.result,groupRecords_append,e1,hone.1,hone.2.count,
          hone.2.block]
        split <;> simp

/-- How a caller hands over one decoded chunk: before each push of what is left of it the caller
may replace the assembler by one rebuilt from its cursor, and it picks that push's bound. -/
structure Feed where
  chunk : List UInt8
  rebuild : Nat → Bool
  maximumBlocks : Nat → Nat
  positive : ∀k,0 < maximumBlocks k

section Caller

variable (limits : SourceArchiveLimits) (blockBytes blockRecords : Nat)

def rebuilt (now : Bool) (s : JsonlBlockAssembler) : Except ArchiveFailure JsonlBlockAssembler :=
  if now then newAssembler limits blockBytes blockRecords (some s.cursor.1) (some s.cursor.2)
  else .ok s

/-- Push what is left of the chunk until nothing is left; `fuel` bounds the number of pushes. -/
def pushAll (f : Feed) : Nat → Nat → List UInt8 → JsonlBlockAssembler →
    Except ArchiveFailure (List JsonlBlock × JsonlBlockAssembler)
  | 0,_,_,s => .ok ([],s)
  | fuel+1,k,rest,s =>
    if rest=[] then .ok ([],s)
    else do
      let s ← rebuilt limits blockBytes blockRecords (f.rebuild k) s
      let (blocks,consumed,s) ← s.push limits blockBytes blockRecords rest (f.maximumBlocks k)
      let (more,s) ← pushAll f fuel (k+1) (rest.drop consumed) s
      .ok (blocks++more,s)

def feedAll : List Feed → JsonlBlockAssembler →
    Except ArchiveFailure (List JsonlBlock × JsonlBlockAssembler)
  | [],s => .ok ([],s)
  | f::fs,s => do
    let (blocks,s) ← pushAll limits blockBytes blockRecords f f.chunk.length 0 f.chunk s
    let (more,s) ← feedAll fs s
    .ok (blocks++more,s)

/-- Every block a caller receives from `push` and finally from `finish`. -/
def assemble (fs : List Feed) (rebuildLast : Bool) : Except ArchiveFailure (List JsonlBlock) := do
  let s ← newAssembler limits blockBytes blockRecords none none
  let (blocks,s) ← feedAll limits blockBytes blockRecords fs s
  let s ← rebuilt limits blockBytes blockRecords rebuildLast s
  let (last,_) ← s.finish limits blockBytes blockRecords
  .ok (blocks++last)

end Caller

section Schedules

variable (hl : blockLimits limits blockBytes blockRecords=true)
  (hd : limits.decompressedBytes ≤ maxSafeInteger) (hr : limits.records ≤ maxSafeInteger)

open JsonlBlockAssembler

include hl hd hr

theorem rebuilt_rep (now : Bool) {s : JsonlBlockAssembler} {o : OpenBlock}
    (r : Rep limits blockBytes s o) (ho : Fits limits blockBytes blockRecords o)
    (hpos : o.position ≤ limits.decompressedBytes) :
    ∃s',rebuilt limits blockBytes blockRecords now s=.ok s' ∧ Rep limits blockBytes s' o := by
  cases now
  · exact ⟨s,rfl,r⟩
  · exact rebuild_rep hl hd hr r ho hpos

theorem pushAll_rep (f : Feed) (fuel k : Nat) (rest : List UInt8) (s : JsonlBlockAssembler)
    (o : OpenBlock) (r : Rep limits blockBytes s o) (ho : Fits limits blockBytes blockRecords o)
    (hf : rest.length ≤ fuel) (hpos : o.position+rest.length ≤ limits.decompressedBytes) :
    Agree (fun s o => Rep limits blockBytes s o ∧ Fits limits blockBytes blockRecords o)
      (pushAll limits blockBytes blockRecords f fuel k rest s)
      (feed limits blockBytes blockRecords rest o) := by
  have hl' := hl
  simp only [blockLimits,decide_eq_true_eq] at hl'
  obtain ⟨-,hrb,-,hbr⟩ := hl'
  induction fuel generalizing k rest s o with
  | zero =>
    have : rest=[] := eq_nil_of_length_eq_zero (by omega)
    subst rest
    exact ⟨rfl,r,ho⟩
  | succ fuel ih =>
    rw [pushAll]
    split
    · subst rest
      exact ⟨rfl,r,ho⟩
    · rename_i hne
      obtain ⟨s1,e1,r1⟩ := rebuilt_rep hl hd hr (f.rebuild k) r ho (by omega)
      have hp := push_rep hrb hbr (f.maximumBlocks k) rest s1 o r1 ho
      simp only [e1,bind,Except.bind]
      cases hq : push limits blockBytes blockRecords s1 rest (f.maximumBlocks k) with
      | error g =>
        rw [hq] at hp
        dsimp only at hp ⊢
        rw [hp]
        rfl
      | ok z =>
        obtain ⟨bs,n,s2⟩ := z
        rw [hq] at hp
        obtain ⟨hn,o2,hfeed,r2,f2,-,-,hpos2⟩ := hp
        have hn0 := hpos2 (f.positive k) hne
        have hsp := (feed_spec hrb hbr ho hfeed).2.2.1
        have hlen : (rest.take n).length+(rest.drop n).length=rest.length := by
          rw [←length_append,take_append_drop]
        have h := ih (k+1) (rest.drop n) s2 o2 r2 f2 (by rw [length_drop]; omega)
          (by rw [hsp]; omega)
        have hsplit : feed limits blockBytes blockRecords rest o=
            match feed limits blockBytes blockRecords (rest.drop n) o2 with
            | .error f => .error f
            | .ok (cs,o) => .ok (bs++cs,o) := by
          have e := feed_append limits blockBytes blockRecords (rest.take n) (rest.drop n) o
          rw [take_append_drop,hfeed] at e
          exact e
        rw [hsplit]
        dsimp only
        generalize pushAll limits blockBytes blockRecords f fuel (k+1) (rest.drop n) s2=c at h
        cases hm : feed limits blockBytes blockRecords (rest.drop n) o2 with
        | error g =>
          rw [hm] at h
          cases c with
          | error g' => exact h
          | ok y => exact h.elim
        | ok y =>
          rw [hm] at h
          cases c with
          | error g' => exact h.elim
          | ok x => exact ⟨by rw [h.1],h.2⟩

theorem feedAll_rep (fs : List Feed) (s : JsonlBlockAssembler) (o : OpenBlock)
    (r : Rep limits blockBytes s o) (ho : Fits limits blockBytes blockRecords o)
    (hpos : o.position+(fs.map (·.chunk)).flatten.length ≤ limits.decompressedBytes) :
    Agree (fun s o => Rep limits blockBytes s o ∧ Fits limits blockBytes blockRecords o)
      (feedAll limits blockBytes blockRecords fs s)
      (feed limits blockBytes blockRecords (fs.map (·.chunk)).flatten o) := by
  have hl' := hl
  simp only [blockLimits,decide_eq_true_eq] at hl'
  obtain ⟨-,hrb,-,hbr⟩ := hl'
  induction fs generalizing s o with
  | nil => exact ⟨rfl,r,ho⟩
  | cons f fs ih =>
    simp only [map_cons,flatten_cons,length_append] at hpos
    have h := pushAll_rep hl hd hr f f.chunk.length 0 f.chunk s o r ho (Nat.le_refl _) (by omega)
    rw [feedAll,map_cons,flatten_cons,feed_append]
    generalize pushAll limits blockBytes blockRecords f f.chunk.length 0 f.chunk s=c at h
    cases hm : feed limits blockBytes blockRecords f.chunk o with
    | error g =>
      rw [hm] at h
      cases c with
      | error g' => exact h
      | ok y => exact h.elim
    | ok y =>
      obtain ⟨bs,o1⟩ := y
      rw [hm] at h
      cases c with
      | error g' => exact h.elim
      | ok x =>
        obtain ⟨bs',s1⟩ := x
        obtain ⟨rfl,r1,f1⟩ := h
        have hsp := (feed_spec hrb hbr ho hm).2.2.1
        have h := ih s1 o1 r1 f1 (by rw [hsp]; omega)
        simp only [bind,Except.bind]
        generalize feedAll limits blockBytes blockRecords fs s1=c at h
        cases hn : feed limits blockBytes blockRecords (fs.map (·.chunk)).flatten o1 with
        | error g =>
          rw [hn] at h
          cases c with
          | error g' => exact h
          | ok y => exact h.elim
        | ok y =>
          rw [hn] at h
          cases c with
          | error g' => exact h.elim
          | ok x => exact ⟨by rw [h.1],h.2⟩

theorem assemble_blocksOf (fs : List Feed) (rebuildLast : Bool)
    (hlen : (fs.map (·.chunk)).flatten.length ≤ limits.decompressedBytes) :
    assemble limits blockBytes blockRecords fs rebuildLast=
      blocksOf limits blockBytes blockRecords (fs.map (·.chunk)).flatten := by
  have hl' := hl
  simp only [blockLimits,decide_eq_true_eq] at hl'
  obtain ⟨-,hrb,-,hbr⟩ := hl'
  let s0 : JsonlBlockAssembler := ⟨List.replicate (blockBytes+limits.recordBytes) 0,0,0,0,0,0,0,0⟩
  have r0 : Rep limits blockBytes s0 start := ⟨rfl,rfl,rfl,rfl,rfl,rfl,rfl,rfl,by simp [s0]⟩
  have hnew : newAssembler limits blockBytes blockRecords none none=.ok s0 := by
    simp [newAssembler,hl,s0]
  have h := feedAll_rep hl hd hr fs s0 start r0 (start_fits _ _ _)
    (by simpa [position,start] using hlen)
  unfold assemble blocksOf
  rw [hnew]
  simp only [bind,Except.bind]
  generalize feedAll limits blockBytes blockRecords fs s0=c at h
  cases hm : feed limits blockBytes blockRecords (fs.map (·.chunk)).flatten start with
  | error g =>
    rw [hm] at h
    cases c with
    | error g' => cases h; rfl
    | ok y => exact h.elim
  | ok y =>
    obtain ⟨bs,o⟩ := y
    rw [hm] at h
    cases c with
    | error g' => exact h.elim
    | ok x =>
      obtain ⟨bs',s⟩ := x
      obtain ⟨rfl,r,ho⟩ := h
      have hpos := (feed_spec hrb hbr (start_fits _ _ _) hm).2.2.1
      obtain ⟨s',e,r'⟩ := rebuilt_rep hl hd hr rebuildLast r ho
        (by rw [hpos]; simpa [position,start] using hlen)
      have hfin := finish_rep r' ho
      simp only [e,←hfin]
      rcases JsonlBlockAssembler.finish limits blockBytes blockRecords s' with f|⟨cs,s''⟩ <;> rfl

end Schedules

theorem blocksOf_ok (hl : blockLimits limits blockBytes blockRecords=true) {bytes : List UInt8}
    {bs : List JsonlBlock} (h : blocksOf limits blockBytes blockRecords bytes=.ok bs) :
    (bs.map (·.bytes)).flatten=bytes ∧
      ∀b∈bs,b.bytes.length ≤ blockBytes ∧ b.recordCount ≤ blockRecords := by
  simp only [blockLimits,decide_eq_true_eq] at hl
  obtain ⟨-,hrb,-,hbr⟩ := hl
  unfold blocksOf at h
  cases hf : feed limits blockBytes blockRecords bytes start with
  | error f => rw [hf] at h; cases h
  | ok x =>
    obtain ⟨cs,o⟩ := x
    rw [hf] at h
    obtain ⟨ho,e,-,c⟩ := feed_spec hrb hbr (start_fits _ _ _) hf
    dsimp only at h
    cases hn : OpenBlock.finish limits blockBytes blockRecords o with
    | error f => rw [hn] at h; cases h
    | ok ds =>
      rw [hn] at h
      cases h
      obtain ⟨e1,c1⟩ := finish_spec hrb hbr ho hn
      refine ⟨by rw [map_append,flatten_append,e1,e]; simp [start],?_⟩
      intro b hb
      rcases mem_append.mp hb with hb|hb
      · exact ⟨(c b hb).bytes,(c b hb).records⟩
      · exact ⟨(c1 b hb).bytes,(c1 b hb).records⟩

/-- However the decoded bytes are cut, pushed again, bounded and resumed, the assembler returns
the blocks (or the failure) of `gzipJsonlBlocks` on the same bytes under the same limits, when the
archive itself is gzip within its byte limits. -/
theorem assemble_eq_gzipJsonlBlocks (limits : SourceArchiveLimits) (blockBytes blockRecords : Nat)
    (hp : limits.positive=true) (fs : List Feed) (rebuildLast : Bool) (ds : List Delivery)
    (hgzip : .corrupt∉ds)
    (hcompressed : (ds.flatMap Delivery.compressed).length ≤ limits.compressedBytes)
    (hsame : (fs.map (·.chunk)).flatten=ds.flatMap Delivery.bytes)
    (hlen : (ds.flatMap Delivery.bytes).length ≤ limits.decompressedBytes) : assemble limits
    blockBytes blockRecords fs rebuildLast=
    (gzipJsonlBlocks limits blockBytes blockRecords ds).result ∧ ∀blocks,assemble limits blockBytes
    blockRecords fs rebuildLast=.ok blocks → (blocks.map (·.bytes)).flatten=ds.flatMap
    Delivery.bytes ∧ ∀b∈blocks,b.bytes.length ≤ blockBytes ∧ b.recordCount ≤ blockRecords := by
  by_cases hl : blockLimits limits blockBytes blockRecords=true
  · have hp' := hp
    simp only [SourceArchiveLimits.positive,all_cons,all_nil,Bool.and_true,
      Bool.and_eq_true,decide_eq_true_eq] at hp'
    have h := assemble_blocksOf hl hp'.2.1.2 hp'.2.2.2.2 fs rebuildLast (by rw [hsame]; exact hlen)
    rw [hsame] at h
    rw [h,gzipJsonlBlocks_eq hl hp ds hgzip hcompressed hlen]
    exact ⟨rfl,fun blocks hb => blocksOf_ok hl hb⟩
  · -- both producers refuse block limits that are not safe integers
    have hl' : blockLimits limits blockBytes blockRecords=false := by simpa using hl
    have h : assemble limits blockBytes blockRecords fs rebuildLast=.error .blockLimits := by
      simp [assemble,newAssembler,hl',bind,Except.bind]
    rw [h]
    exact ⟨by simp [gzipJsonlBlocks,hl',Generated.result],by simp⟩

def jsonlFeed (chunk : List UInt8) (rebuild : Bool) : Feed :=
  ⟨chunk,fun _ => rebuild,fun _ => 1,fun _ => Nat.one_pos⟩

/-- The 25 bytes of the archive come in two chunks, its five decoded bytes in two others. -/
def cutArchive : List Delivery :=
  [.pulled [31,139,8,0,0,0,0,0,2,3,75,228],.decoded [97],
    .pulled [74,226,74,6,0,162,142,202,104,5,0,0,0],.decoded [10,98,10,99]]

theorem assemble_eq_gzipJsonlBlocks_cut :
    assemble ⟨25,9,4,4⟩ 4 2 [jsonlFeed [97,10,98] true,jsonlFeed [10,99] true] true=
      (gzipJsonlBlocks ⟨25,9,4,4⟩ 4 2 cutArchive).result :=
  (assemble_eq_gzipJsonlBlocks ⟨25,9,4,4⟩ 4 2 (by decide)
    [jsonlFeed [97,10,98] true,jsonlFeed [10,99] true] true cutArchive (by decide) (by decide) rfl
    (by decide)).1

/-- The decoded-length limit binds `gzipJsonlBlocks` alone. -/
theorem gzipJsonlBlocks_decompressed_limit :
    assemble ⟨24,3,2,9⟩ 2 1 [jsonlFeed [97,10,98,10] false] false=
        .ok [⟨0,0,0,1,[97,10]⟩,⟨1,2,1,1,[98,10]⟩] ∧
      (gzipJsonlBlocks ⟨24,3,2,9⟩ 2 1 [.pulled
        [31,139,8,0,0,0,0,0,2,3,75,228,74,226,2,0,151,42,87,24,4,0,0,0],
        .decoded [97,10,98,10]]).result=.error .decompressedBytes := by
  constructor <;> rfl

end CardKeepr.Shared
