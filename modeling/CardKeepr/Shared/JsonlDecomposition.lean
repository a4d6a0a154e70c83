import CardKeepr.Shared.JsonlBlocks

namespace CardKeepr.Shared

open Lib List

/-- The open block as a value: complete records, then one partial record. Both producers hide
this state behind a shared byte buffer. -/
@[ext] structure OpenBlock where
  ordinal : Nat
  offset : Nat
  firstRecord : Nat
  count : Nat
  bytes : List UInt8
  tail : List UInt8
  deriving DecidableEq, Repr

namespace OpenBlock

variable (limits : SourceArchiveLimits) (blockBytes blockRecords : Nat)
variable {p : List UInt8} {o o' : OpenBlock} {bs : List JsonlBlock} {b : Option JsonlBlock}

def start : OpenBlock := ⟨0,0,0,0,[],[]⟩

def block (o : OpenBlock) : JsonlBlock := ⟨o.ordinal,o.offset,o.firstRecord,o.count,o.bytes⟩

/-- Decoded bytes taken so far. -/
def position (o : OpenBlock) : Nat := o.offset+o.bytes.length+o.tail.length

def closes (o : OpenBlock) : Prop :=
  o.count≠0 ∧ (blockBytes < o.bytes.length+o.tail.length ∨ o.count=blockRecords)

instance (o : OpenBlock) : Decidable (o.closes blockBytes blockRecords) := by
  unfold closes; infer_instance

def afterClose (o : OpenBlock) : OpenBlock :=
  ⟨o.ordinal+1,o.offset+o.bytes.length,o.firstRecord+o.count,1,o.tail,[]⟩

def extend (o : OpenBlock) : OpenBlock :=
  {o with count := o.count+1,bytes := o.bytes++o.tail,tail := []}

def complete (o : OpenBlock) : Except ArchiveFailure (Option JsonlBlock × OpenBlock) :=
  if limits.records ≤ o.firstRecord+o.count then .error .records
  else if o.closes blockBytes blockRecords then .ok (some o.block,o.afterClose)
  else .ok (none,o.extend)

def part (p : List UInt8) (o : OpenBlock) :
    Except ArchiveFailure (Option JsonlBlock × OpenBlock) :=
  if limits.recordBytes < o.tail.length+p.length then .error .recordBytes
  else if closed newline p then complete limits blockBytes blockRecords {o with tail := o.tail++p}
  else .ok (none,{o with tail := o.tail++p})

def run : List (List UInt8) → OpenBlock → Except ArchiveFailure (List JsonlBlock × OpenBlock)
  | [],o => .ok ([],o)
  | p::ps,o =>
    match part limits blockBytes blockRecords p o with
    | .error f => .error f
    | .ok (b,o) =>
      match run ps o with
      | .error f => .error f
      | .ok (bs,o) => .ok (b.toList++bs,o)

/-- Byte-at-a-time run; cutting the bytes cannot matter here. -/
def feed (bytes : List UInt8) (o : OpenBlock) :
    Except ArchiveFailure (List JsonlBlock × OpenBlock) :=
  run limits blockBytes blockRecords (bytes.map ([·])) o

def finish (o : OpenBlock) : Except ArchiveFailure (List JsonlBlock) :=
  match (if o.tail=[] then .ok (none,o) else complete limits blockBytes blockRecords o) with
  | .error f => .error f
  | .ok (b,o) => .ok (b.toList++if o.count=0 then [] else [o.block])

theorem run_append (ps qs : List (List UInt8)) (o : OpenBlock) :
    run limits blockBytes blockRecords (ps++qs) o=
      match run limits blockBytes blockRecords ps o with
      | .error f => .error f
      | .ok (bs,o) =>
        match run limits blockBytes blockRecords qs o with
        | .error f => .error f
        | .ok (cs,o) => .ok (bs++cs,o) := by
  induction ps generalizing o with
  | nil =>
    simp only [nil_append,run]
    rcases run limits blockBytes blockRecords qs o with f|⟨cs,o'⟩ <;> rfl
  | cons p ps ih =>
    simp only [cons_append,run]
    rcases part limits blockBytes blockRecords p o with f|⟨b,o⟩
    · rfl
    · simp only [ih]
      rcases run limits blockBytes blockRecords ps o with f|⟨bs,o⟩
      · rfl
      · dsimp only
        rcases run limits blockBytes blockRecords qs o with f|⟨cs,o⟩
        · rfl
        · simp

theorem feed_append (xs ys : List UInt8) (o : OpenBlock) :
    feed limits blockBytes blockRecords (xs++ys) o=
      match feed limits blockBytes blockRecords xs o with
      | .error f => .error f
      | .ok (bs,o) =>
        match feed limits blockBytes blockRecords ys o with
        | .error f => .error f
        | .ok (cs,o) => .ok (bs++cs,o) := by
  unfold feed
  rw [map_append,run_append]

theorem part_cons (a : UInt8) (r : List UInt8) (o : OpenBlock) (ha : newline a=false) (hr : r≠[]) :
    part limits blockBytes blockRecords (a::r) o=
      match part limits blockBytes blockRecords [a] o with
      | .error f => .error f
      | .ok (_,o) => part limits blockBytes blockRecords r o := by
  have hc : closed newline (a::r)=closed newline r := by
    unfold closed
    rw [List.getLast?_cons_of_ne_nil hr]
  have h1 : closed newline [a]=false := by simp [closed,ha]
  unfold part
  rw [hc,h1]
  by_cases h : limits.recordBytes < o.tail.length+[a].length
  · rw [if_pos h,if_pos (by simp only [length_cons,length_nil] at h ⊢; omega)]
  · rw [if_neg h]
    simp only [Bool.false_eq_true,if_false,length_append,length_cons,length_nil,
      append_assoc,cons_append,nil_append]
    simp only [Nat.add_assoc,Nat.add_comm 1]

theorem part_open (a : UInt8) (o : OpenBlock) (ha : newline a=false) :
    part limits blockBytes blockRecords [a] o=
      if limits.recordBytes < o.tail.length+1 then .error .recordBytes
      else .ok (none,{o with tail := o.tail++[a]}) := by
  simp [part,closed,ha]

theorem feed_piece (p : List UInt8) (o : OpenBlock) (hp : Piece newline p) :
    feed limits blockBytes blockRecords p o=
      match part limits blockBytes blockRecords p o with
      | .error f => .error f
      | .ok (b,o) => .ok (b.toList,o) := by
  induction p generalizing o with
  | nil => exact absurd rfl hp.1
  | cons a r ih =>
    rcases eq_or_ne r [] with rfl|hr
    · simp only [feed,map_cons,map_nil,run,append_nil]
    · have hd := hp.2
      rw [dropLast_cons_of_ne_nil hr] at hd
      have ha : newline a=false := hd a (by simp)
      have ih' := fun o => ih o ⟨hr,fun b hb => hd b (by simp [hb])⟩
      rw [part_cons limits blockBytes blockRecords a r o ha hr]
      change run limits blockBytes blockRecords ([a]::r.map ([·])) o=_
      rw [run,part_open limits blockBytes blockRecords a o ha]
      by_cases hb : limits.recordBytes < o.tail.length+1
      · simp only [if_pos hb]
      · simp only [if_neg hb]
        have h := ih' {o with tail := o.tail++[a]}
        rw [feed] at h
        rw [h]
        rcases part limits blockBytes blockRecords r {o with tail := o.tail++[a]} with f|⟨b,o⟩ <;> rfl

theorem run_pieces (ps : List (List UInt8)) (h : ∀p∈ps,Piece newline p) (o : OpenBlock) :
    run limits blockBytes blockRecords ps o=feed limits blockBytes blockRecords ps.flatten o := by
  induction ps generalizing o with
  | nil => rfl
  | cons p ps ih =>
    rw [flatten_cons,feed_append,feed_piece _ _ _ p o (h p (by simp)),run]
    rcases part limits blockBytes blockRecords p o with f|⟨b,o⟩
    · rfl
    · simp only [ih (fun q hq => h q (by simp [hq]))]

theorem parts_piece (bytes : List UInt8) : ∀p∈parts bytes,Piece newline p :=
  fun p hp => splitAfter_piece newline bytes p hp

theorem run_parts (bytes : List UInt8) (o : OpenBlock) :
    run limits blockBytes blockRecords (parts bytes) o=feed limits blockBytes blockRecords bytes o := by
  rw [run_pieces _ _ _ _ (parts_piece bytes)]
  simp [parts]

/-- What every reachable open block keeps. -/
structure Fits (o : OpenBlock) : Prop where
  bytes : o.bytes.length ≤ blockBytes
  tail : o.tail.length ≤ limits.recordBytes
  count : o.count ≤ blockRecords
  empty : o.count=0 ↔ o.bytes=[]
  records : o.firstRecord+o.count ≤ limits.records
  ordinal : o.ordinal ≤ o.offset

theorem start_fits : Fits limits blockBytes blockRecords start := by
  constructor <;> simp [start]

/-- Bounds every emitted block obeys. -/
structure Bounded (b : JsonlBlock) : Prop where
  bytes : b.bytes.length ≤ blockBytes
  records : b.recordCount ≤ blockRecords
  some : b.bytes≠[]

variable {limits blockBytes blockRecords}

theorem complete_ok (h : complete limits blockBytes blockRecords o=.ok (b,o')) :
    o.firstRecord+o.count < limits.records ∧
      ((o.closes blockBytes blockRecords ∧ b=some o.block ∧ o'=o.afterClose) ∨
        (¬o.closes blockBytes blockRecords ∧ b=none ∧ o'=o.extend)) := by
  unfold complete at h
  split at h
  · cases h
  · split at h
    · cases h; exact ⟨by omega,.inl ⟨‹_›,rfl,rfl⟩⟩
    · cases h; exact ⟨by omega,.inr ⟨‹_›,rfl,rfl⟩⟩

theorem complete_fits (hrb : limits.recordBytes ≤ blockBytes)
    (hbr : 1 ≤ blockRecords) (ho : Fits limits blockBytes blockRecords o) (ht : o.tail≠[])
    (h : complete limits blockBytes blockRecords o=.ok (b,o')) :
    Fits limits blockBytes blockRecords o' := by
  have hl : 0 < o.tail.length := length_pos_iff.mpr ht
  obtain ⟨hr,⟨hc,-,rfl⟩|⟨hc,-,rfl⟩⟩ := complete_ok h
  · have hpos : 0 < o.bytes.length := by
      apply length_pos_iff.mpr
      intro hb
      exact hc.1 (ho.empty.mpr hb)
    have hord := ho.ordinal
    exact ⟨by simpa [afterClose] using Nat.le_trans ho.tail hrb,by simp [afterClose],hbr,
      by simp [afterClose,ht],by simp only [afterClose]; omega,by simp only [afterClose]; omega⟩
  · simp only [closes,not_and,not_or,Nat.not_lt] at hc
    refine ⟨?_,by simp [extend],?_,by simp [extend,ht],by simp only [extend]; omega,ho.ordinal⟩
    · simp only [extend,length_append]
      by_cases h0 : o.count=0
      · rw [ho.empty.mp h0]
        have := ho.tail
        simp only [length_nil]
        omega
      · exact (hc h0).1
    · simp only [extend]
      by_cases h0 : o.count=0
      · omega
      · have := ho.count
        have := (hc h0).2
        omega

theorem complete_block (ho : Fits limits blockBytes blockRecords o)
    (h : complete limits blockBytes blockRecords o=.ok (b,o')) :
    (b.toList.map (·.bytes)).flatten++(o'.bytes++o'.tail)=o.bytes++o.tail ∧
      o'.position=o.position ∧ ∀c∈b,Bounded blockBytes blockRecords c := by
  obtain ⟨-,⟨hc,rfl,rfl⟩|⟨-,rfl,rfl⟩⟩ := complete_ok h
  · refine ⟨by simp [block,afterClose],by simp [position,afterClose],?_⟩
    intro c hmem
    cases hmem
    exact ⟨ho.bytes,ho.count,fun hb => hc.1 (ho.empty.mpr hb)⟩
  · exact ⟨by simp [extend],by simp only [position,extend,length_append]; simp; omega,by simp⟩

theorem part_ok (h : part limits blockBytes blockRecords p o=.ok (b,o')) :
    o.tail.length+p.length ≤ limits.recordBytes ∧
      ((closed newline p=true ∧
          complete limits blockBytes blockRecords {o with tail := o.tail++p}=.ok (b,o')) ∨
        (closed newline p=false ∧ b=none ∧ o'={o with tail := o.tail++p})) := by
  unfold part at h
  split at h
  · cases h
  · split at h
    · exact ⟨by omega,.inl ⟨‹_›,h⟩⟩
    · cases h; exact ⟨by omega,.inr ⟨by simpa using ‹¬closed newline p=true›,rfl,rfl⟩⟩

theorem fits_tail (ho : Fits limits blockBytes blockRecords o)
    (hp : o.tail.length+p.length ≤ limits.recordBytes) :
    Fits limits blockBytes blockRecords {o with tail := o.tail++p} :=
  ⟨ho.bytes,by simpa using hp,ho.count,ho.empty,ho.records,ho.ordinal⟩

theorem closed_ne_nil (h : closed newline p=true) : p≠[] := by
  rintro rfl
  simp [closed] at h

theorem part_spec (hrb : limits.recordBytes ≤ blockBytes) (hbr : 1 ≤ blockRecords)
    (ho : Fits limits blockBytes blockRecords o)
    (h : part limits blockBytes blockRecords p o=.ok (b,o')) : Fits limits blockBytes blockRecords
    o' ∧ (b.toList.map (·.bytes)).flatten++(o'.bytes++o'.tail)=o.bytes++o.tail++p ∧
    o'.position=o.position+p.length ∧ ∀c∈b,Bounded blockBytes blockRecords c := by
  obtain ⟨hp,⟨hc,h⟩|⟨-,rfl,rfl⟩⟩ := part_ok h
  · have hf := fits_tail ho hp
    obtain ⟨h1,h2,h3⟩ := complete_block hf h
    refine ⟨complete_fits hrb hbr hf (by simp [closed_ne_nil hc]) h,by simpa using h1,?_,h3⟩
    rw [h2]
    simp [position,Nat.add_assoc]
  · exact ⟨fits_tail ho hp,by simp,by simp [position,Nat.add_assoc],by simp⟩

theorem run_spec {ps : List (List UInt8)} (hrb : limits.recordBytes ≤ blockBytes)
    (hbr : 1 ≤ blockRecords) (ho : Fits limits blockBytes blockRecords o)
    (h : run limits blockBytes blockRecords ps o=.ok (bs,o')) : Fits limits blockBytes blockRecords
    o' ∧ (bs.map (·.bytes)).flatten++(o'.bytes++o'.tail)=o.bytes++o.tail++ps.flatten ∧
    o'.position=o.position+ps.flatten.length ∧ ∀c∈bs,Bounded blockBytes blockRecords c := by
  induction ps generalizing o bs with
  | nil => cases h; exact ⟨ho,by simp,by simp,by simp⟩
  | cons p ps ih =>
    rw [run] at h
    cases hp : part limits blockBytes blockRecords p o with
    | error f => rw [hp] at h; cases h
    | ok res =>
      obtain ⟨b,o1⟩ := res
      simp only [hp] at h
      obtain ⟨f1,e1,p1,c1⟩ := part_spec hrb hbr ho hp
      cases hr : run limits blockBytes blockRecords ps o1 with
      | error f => rw [hr] at h; cases h
      | ok res =>
        obtain ⟨cs,o2⟩ := res
        simp only [hr] at h
        cases h
        obtain ⟨f2,e2,p2,c2⟩ := ih f1 hr
        refine ⟨f2,?_,?_,?_⟩
        · rw [map_append,flatten_append,append_assoc,e2,←append_assoc,e1]
          simp
        · rw [p2,p1]
          simp [Nat.add_assoc]
        · intro c hc
          rcases mem_append.mp hc with hc|hc
          · exact c1 c (by simpa using hc)
          · exact c2 c hc

theorem feed_spec {bytes : List UInt8} (hrb : limits.recordBytes ≤ blockBytes)
    (hbr : 1 ≤ blockRecords) (ho : Fits limits blockBytes blockRecords o)
    (h : feed limits blockBytes blockRecords bytes o=.ok (bs,o')) : Fits limits blockBytes
    blockRecords o' ∧ (bs.map (·.bytes)).flatten++(o'.bytes++o'.tail)=o.bytes++o.tail++bytes ∧
    o'.position=o.position+bytes.length ∧ ∀c∈bs,Bounded blockBytes blockRecords c := by
  have hs := run_spec hrb hbr ho h
  have hf (l : List UInt8) : (l.map ([·])).flatten=l := by
    induction l with
    | nil => rfl
    | cons a l ih => simp [ih]
  simpa only [hf] using hs

theorem finish_spec (hrb : limits.recordBytes ≤ blockBytes) (hbr : 1 ≤ blockRecords)
    (ho : Fits limits blockBytes blockRecords o)
    (h : finish limits blockBytes blockRecords o=.ok bs) :
    (bs.map (·.bytes)).flatten=o.bytes++o.tail ∧ ∀c∈bs,Bounded blockBytes blockRecords c := by
  unfold finish at h
  have last : ∀o : OpenBlock,Fits limits blockBytes blockRecords o → o.tail=[] →
      ((if o.count=0 then [] else [o.block]).map (·.bytes)).flatten=o.bytes++o.tail ∧
      ∀c∈(if o.count=0 then [] else [o.block]),Bounded blockBytes blockRecords c := by
    intro o ho ht
    split
    · simp [ht,ho.empty.mp ‹_›]
    · refine ⟨by simp [block,ht],?_⟩
      intro c hc
      cases mem_singleton.mp hc
      exact ⟨ho.bytes,ho.count,fun hb => ‹o.count≠0› (ho.empty.mpr hb)⟩
  split at h
  · cases h
  · rename_i b o1 heq
    cases h
    split at heq
    · cases heq
      simpa using last o ho ‹_›
    · have hf := complete_fits hrb hbr ho ‹_› heq
      obtain ⟨e,-,c⟩ := complete_block ho heq
      have ht : o1.tail=[] := by
        obtain ⟨-,⟨-,-,rfl⟩|⟨-,-,rfl⟩⟩ := complete_ok heq <;> rfl
      obtain ⟨e1,c1⟩ := last o1 hf ht
      refine ⟨by rw [map_append,flatten_append,e1,e],?_⟩
      intro d hd
      rcases mem_append.mp hd with hd|hd
      · exact c d (by simpa using hd)
      · exact c1 d hd

end OpenBlock

end CardKeepr.Shared
