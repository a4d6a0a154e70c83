import CardKeepr.Reconciliation.AcceptedSource
import CardKeepr.Lib.Keyed
import Mathlib

namespace CardKeepr.Reconciliation.AcceptedSource

open Lib SourceEvidence.Plans Reconciliation.Selection List

/-- A selected request of a lineage, with the content it was accepted with. -/
structure Accepted where
  request_id : String
  adapter_version : String
  content_digest : String
  deriving DecidableEq

def Accepted.fact (a : Accepted) : String × String := (a.request_id,a.content_digest)

def Capture.fact (c : Capture) : String × String := (c.request_id,c.content_digest)

section
variable (lineage : String)

def acceptedOf (e : EvidenceSelection) : Option Accepted :=
  (e.row.filter fun r => r.source_lineage=lineage && e.request.request_role≠.image).map fun r =>
    ⟨e.request.request_id,r.adapter_version,r.snapshot_content_digest⟩

def scope (rows : List EvidenceSelection) : List Accepted := rows.filterMap (acceptedOf lineage)

/-- The non-image requests of the lineage that a legacy run selected. -/
def legacyScope (r : LegacyRun) : List Accepted :=
  (r.partitions.filter fun p => p.source_lineage=lineage ∧ p.request_role≠.image).map fun p =>
    ⟨p.request_id,p.adapter_version,p.content_digest⟩

/-- Read in the adapter version, with the ids and the contents of the current run. -/
structure SameSource (adapter : String) (accepted : List Accepted) (current : List Capture) :
    Prop where
  adapter : ∀a∈accepted,a.adapter_version=adapter
  facts : ∀x,x∈accepted.map Accepted.fact ↔ x∈current.map Capture.fact

variable (w : World)

def latestSelecting : Option LegacyRun := latestRun w fun r => !(legacyScope lineage r).isEmpty

def selecting (id : String) : Bool := !(scope lineage (w.retained id)).isEmpty

/-- The legacy run was the last to select the lineage and was read as the current run is. -/
def RestatedBy (adapter : String) (run : Option LegacyRun) : Prop :=
  ∃r,run=some r ∧ legacyScope lineage r≠[] ∧
    SameSource adapter (legacyScope lineage r) (currentSource w lineage adapter)

/-- What the verification is to answer. -/
def Unchanged (adapter : String) (chain : List String) : Prop :=
  match chain.find? (selecting lineage w) with
  | some id => SameSource adapter (scope lineage (w.retained id)) (currentSource w lineage adapter)
  | none => RestatedBy lineage w adapter (latestSelecting lineage w)

/-- The run the boundary compares with is the last that selected the lineage, or neither of the two
was read as the current run is. -/
def BoundaryAgrees (adapter : String) : Prop :=
  priorRun w lineage adapter=latestSelecting lineage w ∨
    ¬RestatedBy lineage w adapter (priorRun w lineage adapter) ∧
    ¬RestatedBy lineage w adapter (latestSelecting lineage w)

/-- What the code answers. -/
def matchesCurrent (adapter : String) (accepted : List Accepted) : Bool :=
  (accepted.all fun a => a.adapter_version=adapter &&
    currentSourceDigest w lineage adapter a.request_id=some a.content_digest) &&
    currentSourceRequestCount w lineage adapter=accepted.length

def verdict (adapter : String) (chain : List String) : Bool :=
  match chain.find? (selecting lineage w) with
  | some id => matchesCurrent lineage w adapter (scope lineage (w.retained id))
  | none => unchangedAcceptedSource w lineage adapter

end

/-- The published native predecessors from a candidate on, each with the selection that was prepared
for it. -/
inductive Chain (digest : DigestValue → String) (w : World) (game : String) :
    Option String → List String → Prop
  | boundary : Chain digest w game none []
  | native {id : String} {c : CandidateRow} {s : SourceSelection} {input : SelectionInput}
      {rest : List String} (found : w.candidate id=some c) (own : c.id=id)
      (published : exactPredecessor game c=true)
      (prepared : prepareSourceSelection digest input=.ok (s,w.retained id))
      (kept : w.selection id=some s) (planned : w.evidencePlan id=some input.evidencePlanRow)
      (next : Chain digest w game c.predecessor_candidate_id rest) :
      Chain digest w game (some id) (id::rest)

/-- The preparation is of no native candidate, or of one that has captured its predecessor. -/
inductive Captured (digest : DigestValue → String) (w : World) (preparation : String) :
    String → List String → Prop
  | legacy (none : w.candidate preparation=none) : Captured digest w preparation "" []
  | native {c : CandidateRow} {chain : List String} (found : w.candidate preparation=some c)
      (pinned : c.pin_id=some c.id)
      (chained : Chain digest w c.supported_game c.predecessor_candidate_id chain) :
      Captured digest w preparation c.supported_game chain

theorem same_facts {P Q : List (String × String)} (hp : P.Nodup) (hq : Q.Nodup) :
    (∀x,x∈P ↔ x∈Q) ↔ P.length=Q.length ∧ ∀x∈P,x∈Q := by
  constructor
  · intro h
    have hperm : P.Perm Q := (perm_ext_iff_of_nodup hp hq).mpr h
    exact ⟨hperm.length_eq,fun x hx => (h x).mp hx⟩
  · rintro ⟨hl,hsub⟩
    have hperm : P.Perm Q := (subperm_of_subset hp hsub).perm_of_length_le (le_of_eq hl.symm)
    exact fun x => hperm.mem_iff

theorem facts_nodup {α : Type} {id digest : α → String} {l : List α} (h : (l.map id).Nodup) :
    (l.map fun a => (id a,digest a)).Nodup := by
  apply List.Nodup.of_map Prod.fst
  rwa [map_map]

section
variable {w : World} {lineage adapter : String}
variable {r : LegacyRun}

theorem current_nodup : ((currentSource w lineage adapter).map (·.request_id)).Nodup :=
  w.captured_distinct.sublist (filter_sublist.map _)

theorem scope_ids (rows : List EvidenceSelection) :
    ((scope lineage rows).map (·.request_id)).Sublist (rows.map fun e => e.request.request_id) := by
  induction rows with
  | nil => exact .refl _
  | cons e rows ih =>
    rw [scope,filterMap_cons,map_cons]
    cases h : acceptedOf lineage e with
    | none => exact ih.cons _
    | some a =>
      obtain ⟨r,-,rfl⟩ := Option.map_eq_some_iff.mp h
      exact ih.cons_cons _

theorem digest_iff {a : Accepted} : currentSourceDigest w lineage adapter a.request_id=some
    a.content_digest ↔ a.fact∈(currentSource w lineage adapter).map Capture.fact := by
  rw [currentSourceDigest]
  constructor
  · intro h
    obtain ⟨c,hc,hd⟩ := Option.map_eq_some_iff.mp h
    obtain ⟨hmem,hid⟩ := mem_of_keyed hc
    exact mem_map.mpr ⟨c,hmem,Prod.ext hid hd⟩
  · intro h
    obtain ⟨c,hc,hfact⟩ := mem_map.mp h
    have hid : c.request_id=a.request_id := congrArg Prod.fst hfact
    have hd : c.content_digest=a.content_digest := congrArg Prod.snd hfact
    rw [keyed_of_mem current_nodup hc hid,←hd]
    rfl

theorem current_facts_nodup : ((currentSource w lineage adapter).map Capture.fact).Nodup :=
  facts_nodup current_nodup

theorem matchesCurrent_iff {accepted : List Accepted} (h : (accepted.map (·.request_id)).Nodup) :
    matchesCurrent lineage w adapter accepted=true ↔
      SameSource adapter accepted (currentSource w lineage adapter) := by
  have hnodup : (accepted.map Accepted.fact).Nodup := facts_nodup h
  have hcurrent : ((currentSource w lineage adapter).map Capture.fact).Nodup := current_facts_nodup
  have hfacts := same_facts hnodup hcurrent
  rw [length_map,length_map] at hfacts
  rw [matchesCurrent,Bool.and_eq_true,all_eq_true,decide_eq_true_iff,currentSourceRequestCount]
  constructor
  · rintro ⟨hall,hcount⟩
    have hall : ∀a∈accepted,a.adapter_version=adapter ∧
        currentSourceDigest w lineage adapter a.request_id=some a.content_digest := by
      simpa using hall
    refine ⟨fun a ha => (hall a ha).1,hfacts.mpr ⟨hcount.symm,fun x hx => ?_⟩⟩
    obtain ⟨a,ha,rfl⟩ := mem_map.mp hx
    exact digest_iff.mp (hall a ha).2
  · rintro ⟨hadapter,hsame⟩
    obtain ⟨hlength,hsub⟩ := hfacts.mp hsame
    refine ⟨fun a ha => ?_,hlength.symm⟩
    have hdigest := digest_iff.mpr (hsub _ (mem_map.mpr ⟨a,ha,rfl⟩))
    simp [hadapter a ha,hdigest]

theorem latestRun_some {p : LegacyRun → Bool} (h : latestRun w p=some r) :
    r∈w.runs ∧ r.published=true ∧ p r=true := by
  have hmem := List.mem_of_head? h
  have hmem := (mem_insertionSort _).mp hmem
  obtain ⟨hr,hp⟩ := mem_filter.mp hmem
  exact ⟨hr,Bool.and_eq_true_iff.mp hp⟩

theorem prior_adapter (h : priorRun w lineage adapter=some r) :
    ∀p∈r.partitions,p.source_lineage=lineage → p.adapter_version=adapter := by
  obtain ⟨_,_,hany⟩ := latestRun_some h
  obtain ⟨q,hq,hcond⟩ := any_eq_true.mp hany
  obtain ⟨hl,ha⟩ := of_decide_eq_true hcond
  intro p hp hpl
  rw [r.one_adapter p hp q hq (hpl.trans hl.symm),ha]

theorem previous_scope (h : priorRun w lineage adapter=some r) :
    legacyScope lineage r=(previousSource lineage adapter r).map fun p =>
      ⟨p.request_id,p.adapter_version,p.content_digest⟩ := by
  rw [legacyScope,previousSource]
  congr 1
  apply filter_congr
  intro p hp
  have ha := prior_adapter h p hp
  by_cases hl : p.source_lineage=lineage
  · simp [hl,ha hl]
  · simp [hl]

theorem legacyScope_ids (r : LegacyRun) : ((legacyScope lineage r).map (·.request_id)).Nodup := by
  rw [legacyScope,map_map]
  exact r.distinct.sublist (filter_sublist.map _)

theorem boundary_iff : unchangedAcceptedSource w lineage adapter=true ↔
    RestatedBy lineage w adapter (priorRun w lineage adapter) := by
  rw [unchangedAcceptedSource,RestatedBy]
  cases hr : priorRun w lineage adapter with
  | none => simp
  | some r =>
    have hscope := previous_scope hr
    have hlegacy : ((legacyScope lineage r).map Accepted.fact).Nodup :=
      facts_nodup (legacyScope_ids r)
    have hcurrent : ((currentSource w lineage adapter).map Capture.fact).Nodup :=
      current_facts_nodup
    have hfacts := same_facts hcurrent hlegacy
    rw [length_map,length_map] at hfacts
    have hlength : (previousSource lineage adapter r).length=(legacyScope lineage r).length := by
      rw [hscope,length_map]
    have hmem : ∀c : Capture,((previousSource lineage adapter r).any fun p =>
        p.request_id=c.request_id && p.content_digest=c.content_digest)=true ↔
          c.fact∈(legacyScope lineage r).map Accepted.fact := by
      intro c
      rw [hscope,map_map,any_eq_true,mem_map]
      simp [Accepted.fact,Capture.fact]
    have hadapter : ∀a∈legacyScope lineage r,a.adapter_version=adapter := by
      intro a ha
      obtain ⟨p,hp,rfl⟩ := mem_map.mp ha
      obtain ⟨hp,hcond⟩ := mem_filter.mp hp
      exact prior_adapter hr p hp (of_decide_eq_true hcond).1
    simp only [Bool.and_eq_true,decide_eq_true_iff,all_eq_true,hmem,hlength]
    constructor
    · rintro ⟨⟨hne,hcount⟩,hall⟩
      have hne : currentSource w lineage adapter≠[] := by simpa using hne
      have hsame := hfacts.mpr ⟨hcount,fun x hx => by
        obtain ⟨c,hc,rfl⟩ := mem_map.mp hx
        exact hall c hc⟩
      refine ⟨r,rfl,fun hnil => hne ?_,hadapter,fun x => (hsame x).symm⟩
      rw [hnil] at hcount
      exact length_eq_zero_iff.mp hcount
    · rintro ⟨q,hq,hne,hsame⟩
      obtain rfl := Option.some.inj hq
      obtain ⟨hcount,hsub⟩ := hfacts.mp fun x => (hsame.facts x).symm
      refine ⟨⟨?_,hcount⟩,fun c hc => hsub _ (mem_map.mpr ⟨c,hc,rfl⟩)⟩
      cases hcur : currentSource w lineage adapter with
      | cons c cs => rfl
      | nil =>
        rw [hcur] at hcount
        exact absurd (length_eq_zero_iff.mp hcount.symm) hne

theorem latestRun_max {p : LegacyRun → Bool} {q : LegacyRun} (h : latestRun w p=some r)
    (hq : q∈w.runs) (hpublished : q.published=true) (hp : p q=true) : q.key ≤ r.key := by
  have hsorted := pairwise_insertionSort (fun a b : LegacyRun => b.key ≤ a.key)
    (w.runs.filter fun r => r.published && p r)
  have hfilter : q∈w.runs.filter fun r => r.published && p r :=
    mem_filter.mpr ⟨hq,by rw [hpublished,hp]; rfl⟩
  have hmem := (mem_insertionSort (fun a b : LegacyRun => b.key ≤ a.key)).mpr hfilter
  rw [latestRun] at h
  generalize (w.runs.filter fun r => r.published && p r).insertionSort
    (fun a b => b.key ≤ a.key)=sorted at h hsorted hmem
  cases sorted with
  | nil => cases h
  | cons a rest =>
    obtain rfl := Option.some.inj h
    rcases mem_cons.mp hmem with rfl | hmem
    · exact le_refl _
    · exact (pairwise_cons.mp hsorted).1 q hmem

theorem boundary_agrees_iff : (RestatedBy lineage w adapter (priorRun w lineage adapter) ↔
    RestatedBy lineage w adapter (latestSelecting lineage w)) ↔ BoundaryAgrees lineage w adapter := by
  constructor
  · intro h
    by_cases hprior : RestatedBy lineage w adapter (priorRun w lineage adapter)
    · left
      obtain ⟨r,hr,hrne,_⟩ := hprior
      obtain ⟨q,hq,hqne,hsame⟩ := h.mp ⟨r,hr,hrne,by assumption⟩
      obtain ⟨hrmem,hrpub,_⟩ := latestRun_some hr
      obtain ⟨hqmem,hqpub,_⟩ := latestRun_some hq
      have hle : r.key ≤ q.key := latestRun_max hq hrmem hrpub (by simpa using hrne)
      have hge : q.key ≤ r.key := by
        refine latestRun_max hr hqmem hqpub ?_
        obtain ⟨a,ha⟩ := exists_mem_of_ne_nil _ hqne
        have hadapter := hsame.adapter a ha
        obtain ⟨p,hp,rfl⟩ := mem_map.mp ha
        obtain ⟨hp,hcond⟩ := mem_filter.mp hp
        exact any_eq_true.mpr ⟨p,hp,decide_eq_true ⟨(of_decide_eq_true hcond).1,hadapter⟩⟩
      have hkey : r.key=q.key := le_antisymm hle hge
      have hid : r.id=q.id := congrArg (fun k => (ofLex k).2) hkey
      rw [hr,hq,inj_on_of_nodup_map w.runs_distinct hrmem hqmem hid]
    · exact .inr ⟨hprior,fun hlatest => hprior (h.mpr hlatest)⟩
  · rintro (h | ⟨h,k⟩)
    · rw [h]
    · exact iff_of_false h k

end

section
variable {digest : DigestValue → String} {w : World} {game : String}
variable {l m : List String} {start : Option String}

theorem Chain.unique (h : Chain digest w game start l) (k : Chain digest w game start m) : l=m := by
  induction h generalizing m with
  | boundary =>
    cases k
    rfl
  | native found _ _ _ _ _ _ ih =>
    cases k with
    | native found' _ _ _ _ _ next =>
      obtain rfl := Option.some.inj (found.symm.trans found')
      rw [ih next]

theorem Chain.suffix {id : String}
    (h : Chain digest w game start (l++id::m)) : Chain digest w game (some id) (id::m) := by
  induction l generalizing start with
  | nil =>
    cases h with
    | native found own published prepared kept planned next =>
      exact .native found own published prepared kept planned next
  | cons a l ih =>
    cases h with
    | native _ _ _ _ _ _ next => exact ih next

theorem Chain.head (h : Chain digest w game start l) : start=l.head? := by
  induction h with
  | boundary => rfl
  | native => rfl

theorem Chain.nodup (h : Chain digest w game start l) : l.Nodup := by
  induction h with
  | boundary => exact .nil
  | @native id c s input rest found own published prepared kept planned next ih =>
    refine nodup_cons.mpr ⟨fun hmem => ?_,ih⟩
    obtain ⟨l,m,rfl⟩ := append_of_mem hmem
    have hwhole : Chain digest w game (some id) (id::(l++id::m)) :=
      .native found own published prepared kept planned next
    have heq := (hwhole.unique next.suffix)
    have := congrArg List.length heq
    simp only [length_cons,length_append] at this
    omega

end

section
variable {digest : DigestValue → String} {w : World} {lineage adapter game : String}
  {chain : List String}
variable {id : String} {v : Visited} {done rest : List String} {cursor : AcceptedSourceCursor}

/-- An accepted request has the current content in the current adapter version. -/
def confirmed (w : World) (lineage adapter : String) (a : Accepted) : Prop :=
  a.adapter_version=adapter ∧
    currentSourceDigest w lineage adapter a.request_id=some a.content_digest

def cost (w : World) (ids : List String) : Nat :=
  (ids.map fun id => (w.retained id).length+2).sum

theorem cost_cons (id : String) (rest : List String) :
    cost w (id::rest)=(w.retained id).length+2+cost w rest := by
  rw [cost,map_cons,sum_cons,cost]

def keyOf (rows : List EvidenceSelection) : Int × String :=
  match rows.getLast? with
  | none => (-1,"")
  | some e => (e.request.sequence_number,e.request.request_id)

/-- The cursors that the verification goes through; the number bounds the units left. -/
inductive Valid (digest : DigestValue → String) (w : World) (lineage adapter game : String)
    (chain : List String) : Nat → AcceptedSourceCursor → Prop
  | walk {cursor : AcceptedSourceCursor} {done rest : List String} (split : chain=done++rest)
      (none : ∀id∈done,selecting lineage w id=false) (stage : cursor.stage=.walk)
      (candidate : cursor.candidate=rest.head?) (ofGame : cursor.game=game)
      (visited : cursor.visited=done.length) (unchanged : cursor.unchanged=false) :
      Valid digest w lineage adapter game chain (cost w rest+1) cursor
  | requests {cursor : AcceptedSourceCursor} {done rest : List String} {id : String}
      {before left : List EvidenceSelection} {s : SourceSelection} {plans : List EvidencePlan}
      (split : chain=done++id::rest) (none : ∀id∈done,selecting lineage w id=false)
      (retained : Retained digest plans s (w.retained id)) (rows : w.retained id=before++left)
      (confirmed : ∀a∈scope lineage before,confirmed w lineage adapter a)
      (stage : cursor.stage=.requests) (candidate : cursor.candidate=some id)
      (next : cursor.next=rest.head?) (ofGame : cursor.game=game)
      (after : cursor.after=keyOf before) (selected : cursor.selected=(scope lineage before).length)
      (expected : cursor.expected=s.requestCount) (scanned : cursor.scanned=before.length)
      (folded : cursor.digest=before.foldl (fold digest) (digest (.plan plans s.omittedLineages)))
      (expectedDigest : cursor.expectedDigest=s.inputDigest)
      (visited : cursor.visited=done.length+1) (unchanged : cursor.unchanged=false) :
      Valid digest w lineage adapter game chain (cost w rest+left.length+2) cursor
  | complete {cursor : AcceptedSourceCursor} (stage : cursor.stage=.complete)
      (unchanged : cursor.unchanged=verdict lineage w adapter chain) :
      Valid digest w lineage adapter game chain 0 cursor

def InPlace (chain : List String) (v : Visited) : Prop :=
  ∀row∈v,∃i,row.1=i+1 ∧ chain[i]?=some row.2

theorem keyOf_concat (rows : List EvidenceSelection) (e : EvidenceSelection) :
    toLex (keyOf (rows++[e]))=e.request.key := by
  rw [keyOf,List.getLast?_concat]
  rfl

theorem next_after {before left : List EvidenceSelection}
    (h : ((before++left).map fun e => e.request.key).Pairwise (· < ·)) :
    nextEvidenceSelection (before++left) (keyOf before)=left.head? := by
  have hpairs := pairwise_map.mp h
  have hsorted : (before++left).Pairwise fun a b => a.request.key ≤ b.request.key :=
    hpairs.imp le_of_lt
  obtain ⟨hb,_,hbl⟩ := pairwise_append.mp hpairs
  have hbefore : before.find? (fun e => decide (toLex (keyOf before) < e.request.key))=none := by
    rw [List.find?_eq_none]
    intro e he
    simp only [decide_eq_true_eq,not_lt]
    rcases eq_nil_or_concat before with rfl | ⟨l,last,rfl⟩
    · cases he
    · rw [concat_eq_append] at he hb ⊢
      rw [keyOf_concat]
      rcases mem_append.mp he with he | he
      · exact le_of_lt ((pairwise_append.mp hb).2.2 e he last (mem_singleton_self _))
      · rw [mem_singleton.mp he]
  rw [nextEvidenceSelection,hsorted.insertionSort_eq,List.find?_append,hbefore,Option.none_or]
  cases left with
  | nil => rfl
  | cons e left =>
    have hlt : toLex (keyOf before) < e.request.key := by
      rcases eq_nil_or_concat before with rfl | ⟨l,last,rfl⟩
      · apply Prod.Lex.toLex_lt_toLex.mpr
        left
        show (-1:Int) < (e.request.sequence_number:Int)
        omega
      · rw [concat_eq_append] at hbl ⊢
        rw [keyOf_concat]
        exact hbl last (by simp) e mem_cons_self
    rw [List.find?_cons,decide_eq_true hlt]
    rfl

variable (lineage) in
theorem scope_concat (rows : List EvidenceSelection) (e : EvidenceSelection) :
    scope lineage (rows++[e])=scope lineage rows++(acceptedOf lineage e).toList := by
  rw [scope,filterMap_append]
  cases h : acceptedOf lineage e with
  | none => simp [h,scope]
  | some a => simp [h,scope]

theorem selecting_iff (id : String) : selecting lineage w id=false ↔
    scope lineage (w.retained id)=[] := by
  rw [selecting,Bool.not_eq_false',List.isEmpty_iff]

theorem verdict_at (hsplit : chain=done++id::rest) (hnone : ∀id∈done,selecting lineage w id=false)
    (hid : selecting lineage w id=true) : verdict lineage w adapter chain= matchesCurrent lineage w
    adapter (scope lineage (w.retained id)) := by
  have hfind : chain.find? (selecting lineage w)=some id := by
    rw [hsplit,List.find?_append]
    have hdone : done.find? (selecting lineage w)=none :=
      List.find?_eq_none.mpr fun a ha => by rw [hnone a ha]; exact Bool.false_ne_true
    rw [hdone,Option.none_or,List.find?_cons_of_pos hid]
  rw [verdict,hfind]

theorem verdict_boundary (hnone : ∀id∈chain,selecting lineage w id=false) :
    verdict lineage w adapter chain=unchangedAcceptedSource w lineage adapter := by
  have hfind : chain.find? (selecting lineage w)=none :=
    List.find?_eq_none.mpr fun a ha => by rw [hnone a ha]; exact Bool.false_ne_true
  rw [verdict,hfind]

theorem notVisited (hv : InPlace chain v) (hnodup : chain.Nodup) (hsplit : chain=done++id::rest) :
    hasVisited v done.length id=false := by
  rw [hasVisited,any_eq_false]
  rintro ⟨o,c⟩ hrow
  obtain ⟨i,hi,hat⟩ := hv _ hrow
  simp only at hi hat
  simp only [Bool.and_eq_true,decide_eq_true_eq,not_and]
  rintro hle rfl
  have hlt : i < done.length := by omega
  rw [hsplit,List.getElem?_append_left hlt] at hat
  rw [hsplit] at hnodup
  exact (nodup_append.mp hnodup).2.2 _ (List.mem_of_getElem? hat) _ mem_cons_self rfl

theorem InPlace.seed (hv : InPlace chain v)
    (hsplit : chain=done++id::rest) : InPlace chain (seedVisited v done.length id) := by
  rw [seedVisited]
  split
  · exact hv
  · intro row hrow
    rcases mem_append.mp hrow with hrow | hrow
    · exact hv row hrow
    · rw [mem_singleton.mp hrow]
      refine ⟨done.length,rfl,?_⟩
      rw [hsplit,List.getElem?_append_right (le_refl _),Nat.sub_self]
      rfl

variable (lineage adapter) in
theorem walkCandidate_valid {start : Option String} (hchain : Chain digest w game start chain)
    (hsplit : chain=done++id::rest) (hnone : ∀id∈done,selecting lineage w id=false)
    (hgame : cursor.game=game) (hvisited : cursor.visited=done.length)
    (hcandidate : cursor.candidate=some id) (hunchanged : cursor.unchanged=false) (hv : InPlace chain v) :
    ∃r m,walkCandidate digest w cursor id v=.ok r ∧ m < cost w (id::rest)+1 ∧
      Valid digest w lineage adapter game chain m r.1 ∧ InPlace chain r.2 := by
  have hsuffix : Chain digest w game (some id) (id::rest) := by
    rw [hsplit] at hchain
    exact hchain.suffix
  have hhas := notVisited hv hchain.nodup hsplit
  cases hsuffix with
  | @native _ c s input _ found own published prepared kept planned next =>
    have hretained := retained prepared
    have hfilter : (w.candidate id).filter (exactPredecessor cursor.game)=some c := by
      rw [found,hgame,Option.filter,if_pos published]
    have hcount : 0 < s.requestCount := by
      rw [hretained.count]
      exact length_pos_iff.mpr hretained.some_request
    have hselection : (w.selection c.id).filter
        (fun s => s.stage=.complete && 0 < s.requestCount)=some s := by
      rw [own,kept,Option.filter,if_pos (by simp [hretained.complete,hcount])]
    have hplan : w.evidencePlan c.id=some input.evidencePlanRow := by rw [own,planned]
    have hrun : walkCandidate digest w cursor id v=.ok ({ cursor with
        digest := digest (.plan input.evidencePlanRow s.omittedLineages)
        expectedDigest := s.inputDigest
        expected := s.requestCount
        scanned := 0
        next := c.predecessor_candidate_id
        after := (-1,"")
        selected := 0
        stage := .requests
        visited := cursor.visited+1 },seedVisited v cursor.visited c.id) := by
      rw [walkCandidate,hvisited,hhas,if_neg Bool.false_ne_true,hfilter]
      simp only [hselection,hplan]
    refine ⟨_,cost w rest+(w.retained id).length+2,hrun,?_,?_,?_⟩
    · rw [cost_cons]
      omega
    · have hrows : w.retained id=[]++w.retained id := rfl
      refine .requests hsplit hnone hretained hrows (fun a ha => by cases ha) rfl
        hcandidate next.head hgame rfl rfl rfl rfl rfl rfl ?_ hunchanged
      rw [hvisited]
    · rw [own,hvisited]
      exact hv.seed hsplit

/-- A unit on a request leaves a mismatch, one request less to read, or an end of the candidate. -/
theorem scanRequest_valid {n : Nat}
    (h : Valid digest w lineage adapter game chain n cursor) (hstage : cursor.stage=.requests) :
    ∃r m,scanRequest digest w lineage adapter cursor (w.retained (cursor.candidate.getD ""))=.ok r ∧
      m < n ∧ Valid digest w lineage adapter game chain m r := by
  cases h with
  | walk _ _ stage => exact absurd (hstage.symm.trans stage) (by decide)
  | complete stage => exact absurd (hstage.symm.trans stage) (by decide)
  | @requests _ done rest id before left s plans split none retained rows hconfirmed stage candidate
      next ofGame after selected expected scanned folded expectedDigest visited unchanged =>
    have hnext : nextEvidenceSelection (before++left) cursor.after=left.head? := by
      rw [after]
      exact next_after (rows ▸ retained.ordered)
    rw [candidate,Option.getD_some,scanRequest,rows,hnext]
    cases left with
    | nil =>
      rw [append_nil] at rows
      have hscanned : ¬cursor.scanned≠cursor.expected := by
        rw [scanned,expected,retained.count,rows]
        exact not_not_intro rfl
      have hdigest : ¬cursor.digest≠cursor.expectedDigest := by
        rw [folded,expectedDigest,retained.folded,rows]
        exact not_not_intro rfl
      simp only [List.head?_nil,if_neg hscanned,if_neg hdigest]
      split
      · rename_i hselected
        refine ⟨_,0,rfl,by omega,.complete rfl ?_⟩
        have hselecting : selecting lineage w id=true := by
          rw [selecting,rows,Bool.not_eq_true',isEmpty_eq_false_iff]
          intro hnil
          rw [selected,hnil] at hselected
          exact absurd hselected (lt_irrefl 0)
        rw [verdict_at split none hselecting,matchesCurrent,rows,selected]
        have hall : (scope lineage before).all (fun a => a.adapter_version=adapter &&
            currentSourceDigest w lineage adapter a.request_id=some a.content_digest)=true := by
          rw [all_eq_true]
          intro a ha
          obtain ⟨ha1,ha2⟩ := hconfirmed a ha
          simp [ha1,ha2]
        rw [hall,Bool.true_and]
      · rename_i hselected
        refine ⟨_,cost w rest+1,rfl,by omega,?_⟩
        have hempty : selecting lineage w id=false := by
          rw [selecting_iff,rows]
          rw [selected] at hselected
          exact length_eq_zero_iff.mp (by omega)
        have hdone : chain=(done++[id])++rest := by simp [split]
        refine .walk hdone (fun a ha => ?_) rfl next ofGame ?_
          unchanged
        · rcases mem_append.mp ha with ha | ha
          · exact none a ha
          · rw [mem_singleton.mp ha]
            exact hempty
        · rw [visited,length_append,length_singleton]
    | cons e left =>
      have hrows : w.retained id=(before++[e])++left := by rw [rows,append_assoc]; rfl
      have hfolded : fold digest cursor.digest e=(before++[e]).foldl (fold digest)
          (digest (.plan plans s.omittedLineages)) := by
        rw [foldl_concat,folded]
      have hafter : ((e.request.sequence_number:Int),e.request.request_id)=keyOf (before++[e]) := by
        rw [keyOf,List.getLast?_concat]
      have hscanned : cursor.scanned+1=(before++[e]).length := by
        rw [scanned,length_append,length_singleton]
      have hscope := scope_concat lineage before e
      rw [acceptedOf] at hscope
      simp only [List.head?_cons]
      cases hrow : e.row.filter
          (fun r => r.source_lineage=lineage && e.request.request_role≠.image) with
      | none =>
        rw [hrow,Option.map_none,Option.toList_none,append_nil] at hscope
        refine ⟨_,cost w rest+left.length+2,rfl,by rw [length_cons]; omega,?_⟩
        refine .requests split none retained hrows ?_ stage candidate next ofGame hafter ?_ expected
          hscanned hfolded expectedDigest visited unchanged
        · rw [hscope]
          exact hconfirmed
        · rw [hscope]
          exact selected
      | some row =>
        rw [hrow,Option.map_some,Option.toList_some] at hscope
        generalize ha : (⟨e.request.request_id,row.adapter_version,row.snapshot_content_digest⟩ :
          Accepted)=a at hscope
        have hmem : a∈scope lineage (w.retained id) := by
          rw [hrows,scope,filterMap_append]
          exact mem_append_left _ (by rw [←scope,hscope]; simp)
        by_cases hok : confirmed w lineage adapter a
        · have hstays : ¬(row.adapter_version≠adapter ∨
              currentSourceDigest w lineage adapter e.request.request_id≠
                some row.snapshot_content_digest) := by
            rw [confirmed,←ha] at hok
            rintro (h | h)
            · exact h hok.1
            · exact h hok.2
          refine ⟨_,cost w rest+left.length+2,rfl,by rw [length_cons]; omega,?_⟩
          refine .requests split none retained hrows ?_ ?_ candidate next ofGame hafter ?_ expected
            hscanned hfolded expectedDigest visited unchanged
          · rw [hscope]
            intro b hb
            rcases mem_append.mp hb with hb | hb
            · exact hconfirmed b hb
            · rw [mem_singleton.mp hb]
              exact hok
          · exact (if_neg hstays).trans stage
          · rw [hscope,length_append,length_singleton,←selected]
        · -- the first mismatch decides the candidate
          have hstops : row.adapter_version≠adapter ∨
              currentSourceDigest w lineage adapter e.request.request_id≠
                some row.snapshot_content_digest := by
            rw [confirmed,←ha] at hok
            by_contra hboth
            obtain ⟨h1,h2⟩ := not_or.mp hboth
            exact hok ⟨not_not.mp h1,not_not.mp h2⟩
          refine ⟨_,0,rfl,by omega,.complete (if_pos hstops) ?_⟩
          have hselecting : selecting lineage w id=true := by
            rw [selecting,Bool.not_eq_true',isEmpty_eq_false_iff]
            exact ne_nil_of_mem hmem
          rw [verdict_at split none hselecting,matchesCurrent]
          show cursor.unchanged=_
          rw [unchanged]
          symm
          rw [Bool.and_eq_false_iff,all_eq_false]
          refine .inl ⟨a,hmem,fun h => hok ?_⟩
          simpa [confirmed] using h

theorem advance_valid {start : Option String} (hchain : Chain digest w game start chain)
    (preparation : String) {n : Nat} (h : Valid digest w lineage adapter game chain n cursor)
    (hv : InPlace chain v) (hopen : cursor.stage≠.complete) : ∃r m,advanceAcceptedSource digest w
    lineage adapter preparation (some cursor) v=.ok r ∧ m < n ∧ Valid digest w lineage adapter game
    chain m r.1 ∧ InPlace chain r.2 := by
  cases hstage : cursor.stage with
  | complete => exact absurd hstage hopen
  | requests =>
    obtain ⟨r,m,hr,hm,hvalid⟩ := scanRequest_valid h hstage
    refine ⟨(r,v),m,?_,hm,hvalid,hv⟩
    rw [advanceAcceptedSource]
    simp only [pure_bind,hstage,hr,ok_bind]
    rfl
  | walk =>
    cases h with
    | requests _ _ _ _ _ stage => exact absurd (hstage.symm.trans stage) (by decide)
    | complete stage => exact absurd hstage (by rw [stage]; decide)
    | @walk _ done rest split none stage candidate ofGame visited unchanged =>
      cases rest with
      | nil =>
        rw [append_nil] at split
        refine ⟨({ cursor with
          unchanged := unchangedAcceptedSource w lineage adapter
          stage := .complete },v),0,?_,by omega,.complete rfl ?_,hv⟩
        · rw [advanceAcceptedSource]
          simp only [pure_bind,stage,candidate,List.head?_nil]
          rfl
        · exact (verdict_boundary (split ▸ none)).symm
      | cons id rest =>
        obtain ⟨r,m,hr,hm,hvalid,hplace⟩ := walkCandidate_valid lineage adapter hchain
          split none ofGame visited candidate unchanged hv
        refine ⟨r,m,?_,hm,hvalid,hplace⟩
        rw [advanceAcceptedSource]
        simp only [pure_bind,stage,candidate,List.head?_cons]
        exact hr

end

section
variable {digest : DigestValue → String} {w : World} {lineage adapter preparation game : String}
  {chain : List String}
variable {start : Option String} {cursor : AcceptedSourceCursor}

theorem Captured.chained (h : Captured digest w preparation game chain) : ∃start,Chain digest w game
    start chain ∧ openCursor w preparation=.ok (startCursor start game) := by
  cases h with
  | legacy none => exact ⟨_,.boundary,by rw [openCursor,none]⟩
  | native found pinned chained =>
    refine ⟨_,chained,?_⟩
    rw [openCursor,found]
    simp only [if_neg (not_not_intro pinned)]

theorem startCursor_valid (h : Chain digest w game start chain) :
    Valid digest w lineage adapter game chain (cost w chain+1) (startCursor start game) :=
  .walk (nil_append chain).symm (fun id hid => by cases hid) rfl h.head rfl rfl rfl

theorem advance_open {start : AcceptedSourceCursor} (h : openCursor w preparation=.ok start)
    (v : Visited) : advanceAcceptedSource digest w lineage adapter preparation none v=
      advanceAcceptedSource digest w lineage adapter preparation (some start) v := by
  rw [advanceAcceptedSource,advanceAcceptedSource]
  simp only [h,ok_bind,pure_bind]

/-- What a cursor kept in memory or in the checkpoint may be. -/
def Kept (digest : DigestValue → String) (w : World) (lineage adapter game : String)
    (chain : List String) (c : Option AcceptedSourceCursor) : Prop :=
  ∀cursor,c=some cursor → ∃n,Valid digest w lineage adapter game chain n cursor

structure Process.Sound (digest : DigestValue → String) (w : World) (lineage adapter game : String)
    (chain : List String) (s : Process) : Prop where
  saved : Kept digest w lineage adapter game chain s.saved
  live : Kept digest w lineage adapter game chain s.live
  visited : InPlace chain s.visited

/-- Units run on without an interruption. -/
inductive Process.Continues (digest : DigestValue → String) (w : World)
    (lineage adapter preparation : String) : Process → Process → Prop
  | refl {s : Process} : Continues digest w lineage adapter preparation s s
  | advance {s t : Process} {r : AcceptedSourceCursor × Visited} (open_ : s.completed=false)
      (h : advanceAcceptedSource digest w lineage adapter preparation s.live s.visited=.ok r)
      (next : Continues digest w lineage adapter preparation ⟨s.saved,some r.1,r.2⟩ t) :
      Continues digest w lineage adapter preparation s t

variable {s t : Process}

theorem Process.open_stage (h : s.completed=false) {c : AcceptedSourceCursor}
    (hc : s.live=some c) : c.stage≠.complete := by
  rw [Process.completed,hc] at h
  simpa using h

theorem Process.Sound.advance (hcaptured : Captured digest w preparation game chain)
    (h : s.Sound digest w lineage adapter game chain) (hopen : s.completed=false) :
    ∃r m,advanceAcceptedSource digest w lineage adapter preparation s.live s.visited=.ok r ∧
      Valid digest w lineage adapter game chain m r.1 ∧ InPlace chain r.2 := by
  obtain ⟨start,hchain,hstart⟩ := hcaptured.chained
  cases hlive : s.live with
  | none =>
    obtain ⟨r,m,hr,_,hvalid,hplace⟩ := advance_valid hchain preparation
      (startCursor_valid hchain) h.visited (show AcceptedStage.walk≠.complete by decide)
    refine ⟨r,m,?_,hvalid,hplace⟩
    rw [advance_open hstart]
    exact hr
  | some cursor =>
    obtain ⟨n,hcursor⟩ := h.live cursor hlive
    obtain ⟨r,m,hr,_,hvalid,hplace⟩ := advance_valid hchain preparation hcursor
      h.visited (Process.open_stage hopen hlive)
    exact ⟨r,m,hr,hvalid,hplace⟩

theorem kept_some {n : Nat} (h : Valid digest w lineage adapter game chain n cursor) :
    Kept digest w lineage adapter game chain (some cursor) := fun _ he => Option.some.inj he ▸ ⟨n,h⟩

theorem Process.Sound.step (hcaptured : Captured digest w preparation game chain)
    (h : s.Sound digest w lineage adapter game chain)
    (k : Process.Step digest w lineage adapter preparation s t) :
    t.Sound digest w lineage adapter game chain := by
  cases k with
  | restart => exact ⟨h.saved,h.saved,h.visited⟩
  | save => exact ⟨h.live,h.live,h.visited⟩
  | advance hopen hr =>
    obtain ⟨r,m,hr',hvalid,hplace⟩ := h.advance hcaptured hopen
    obtain rfl := Except.ok.inj (hr.symm.trans hr')
    exact ⟨h.saved,kept_some hvalid,hplace⟩
  | interrupt hopen hr =>
    obtain ⟨r,m,hr',_,hplace⟩ := h.advance hcaptured hopen
    obtain rfl := Except.ok.inj (hr.symm.trans hr')
    exact ⟨h.saved,h.saved,hplace⟩

theorem reached_sound (hcaptured : Captured digest w preparation game chain)
    (h : Process.Reached digest w lineage adapter preparation s) :
    s.Sound digest w lineage adapter game chain := by
  induction h with
  | start => exact ⟨nofun,nofun,nofun⟩
  | step _ k ih => exact ih.step hcaptured k

variable (preparation) in
theorem continues_valid (hchain : Chain digest w game start chain)
    (saved : Option AcceptedSourceCursor) {n : Nat} {v : Visited}
    (h : Valid digest w lineage adapter game chain n cursor) (hv : InPlace chain v) :
    ∃t,Process.Continues digest w lineage adapter preparation ⟨saved,some cursor,v⟩ t ∧
      t.completed=true := by
  induction n using Nat.strong_induction_on generalizing cursor v with
  | _ n ih =>
    by_cases hstage : cursor.stage=.complete
    · exact ⟨_,.refl,by simp [Process.completed,hstage]⟩
    · obtain ⟨r,m,hr,hm,hvalid,hplace⟩ := advance_valid hchain preparation h hv hstage
      obtain ⟨t,ht,hcomplete⟩ := ih m hm hvalid hplace
      exact ⟨t,.advance (by simp [Process.completed,hstage]) hr ht,hcomplete⟩

theorem Process.Sound.completes (hcaptured : Captured digest w preparation game chain)
    (h : s.Sound digest w lineage adapter game chain) :
    ∃t,Process.Continues digest w lineage adapter preparation s t ∧ t.completed=true := by
  obtain ⟨start,hchain,_⟩ := hcaptured.chained
  by_cases hopen : s.completed=true
  · exact ⟨s,.refl,hopen⟩
  · have hopen : s.completed=false := by simpa using hopen
    obtain ⟨r,m,hr,hvalid,hplace⟩ := h.advance hcaptured hopen
    obtain ⟨t,ht,hcomplete⟩ := continues_valid preparation hchain s.saved hvalid
      hplace
    exact ⟨t,.advance hopen hr ht,hcomplete⟩

/-- In every schedule no unit fails, the units lead to an end, and at an end the answer is right. -/
structure Verifies (digest : DigestValue → String) (w : World)
    (lineage adapter preparation : String) (chain : List String) : Prop where
  succeeds : ∀s,Process.Reached digest w lineage adapter preparation s → s.completed=false →
    ∃r,advanceAcceptedSource digest w lineage adapter preparation s.live s.visited=.ok r
  completes : ∀s,Process.Reached digest w lineage adapter preparation s →
    ∃t,Process.Continues digest w lineage adapter preparation s t ∧ t.completed=true
  exact : ∀s c,Process.Reached digest w lineage adapter preparation s → s.live=some c →
    c.stage=.complete → (c.unchanged=true ↔ Unchanged lineage w adapter chain)

theorem Process.Continues.reached (h : Process.Continues digest w lineage adapter preparation s t)
    (k : Process.Reached digest w lineage adapter preparation s) :
    Process.Reached digest w lineage adapter preparation t := by
  induction h with
  | refl => exact k
  | advance hopen hr _ ih => exact ih (k.step (.advance hopen hr))

theorem complete_verdict {n : Nat} (h : Valid digest w lineage adapter game chain n cursor)
    (hstage : cursor.stage=.complete) : cursor.unchanged=verdict lineage w adapter chain := by
  cases h with
  | walk _ _ stage => exact absurd (hstage.symm.trans stage) (by decide)
  | requests _ _ _ _ _ stage => exact absurd (hstage.symm.trans stage) (by decide)
  | complete _ unchanged => exact unchanged

theorem chain_retained (h : Chain digest w game start chain) {id : String}
    (hid : id∈chain) : ∃plans s,Retained digest plans s (w.retained id) := by
  induction h with
  | boundary => cases hid
  | native _ _ _ prepared _ _ _ ih =>
    rcases mem_cons.mp hid with rfl | hid
    · exact ⟨_,_,retained prepared⟩
    · exact ih hid

theorem verdict_iff (h : Chain digest w game start chain) :
    ((verdict lineage w adapter chain=true) ↔ Unchanged lineage w adapter chain) ↔
      (∃id∈chain,selecting lineage w id=true) ∨ BoundaryAgrees lineage w adapter := by
  rw [verdict,Unchanged]
  cases hfind : chain.find? (selecting lineage w) with
  | some id =>
    have hmem := List.mem_of_find?_eq_some hfind
    obtain ⟨plans,s,hretained⟩ := chain_retained h hmem
    refine iff_of_true ?_ (.inl ⟨id,hmem,List.find?_some hfind⟩)
    exact matchesCurrent_iff (hretained.distinct.sublist (scope_ids _))
  | none =>
    have hnone := List.find?_eq_none.mp hfind
    simp only
    rw [boundary_iff,boundary_agrees_iff]
    constructor
    · exact .inr
    · rintro (⟨id,hid,hselecting⟩ | hagrees)
      · exact absurd hselecting (hnone id hid)
      · exact hagrees

theorem verifies_iff (h : Captured digest w preparation game chain) :
    Verifies digest w lineage adapter preparation chain ↔
      (∃id∈chain,selecting lineage w id=true) ∨ BoundaryAgrees lineage w adapter := by
  obtain ⟨start,hchain,_⟩ := h.chained
  rw [←verdict_iff hchain]
  constructor
  · intro hv
    obtain ⟨t,ht,hcomplete⟩ := hv.completes _ .start
    have hreached := ht.reached .start
    rw [Process.completed] at hcomplete
    cases hc : t.live with
    | none =>
      rw [hc] at hcomplete
      cases hcomplete
    | some c =>
      have hstage : c.stage=.complete := by simpa [hc] using hcomplete
      obtain ⟨n,hn⟩ := (reached_sound h hreached).live c hc
      rw [←complete_verdict hn hstage]
      exact hv.exact t c hreached hc hstage
  · intro hverdict
    refine ⟨fun s hs hopen => ?_,fun s hs => (reached_sound h hs).completes h,
      fun s c hs hc hstage => ?_⟩
    · obtain ⟨r,_,hr,_⟩ := (reached_sound h hs).advance h hopen
      exact ⟨r,hr⟩
    · obtain ⟨n,hn⟩ := (reached_sound h hs).live c hc
      rw [complete_verdict hn hstage]
      exact hverdict

end

def cards (adapter digest : String) : Partition where
  request_id := "one-piece-en:cards"
  request_role := .surface
  source_lineage := "one-piece-en"
  adapter_version := adapter
  content_digest := digest

def legacyRun (id terminalAt adapter digest : String) : LegacyRun where
  id := id
  published := true
  terminal_at := terminalAt
  partitions := [cards adapter digest]
  distinct := nodup_singleton _
  one_adapter p hp q hq _ := by rw [mem_singleton.mp hp,mem_singleton.mp hq]

/-- The cards were accepted twice; the current run restates the first run's, not the second's. -/
def switchedAdapter : World where
  candidate _ := none
  selection _ := none
  evidencePlan _ := none
  retained _ := []
  captured := [⟨"one-piece-en:cards",.surface,"one-piece-en","one-piece-en@6","first"⟩]
  captured_distinct := nodup_singleton _
  runs := [legacyRun "run-1" "2026-01-01T00:00:00.000Z" "one-piece-en@6" "first",
    legacyRun "run-2" "2026-02-01T00:00:00.000Z" "one-piece-official-errata-html@1" "second"]
  runs_distinct := by decide

theorem older_adapter_restated : ¬Verifies (fun _ => "") switchedAdapter "one-piece-en"
    "one-piece-en@6" "preparation" [] := by
  intro h
  have hunit : advanceAcceptedSource (fun _ => "") switchedAdapter "one-piece-en" "one-piece-en@6"
      "preparation" none []=.ok ({ startCursor none "" with
        unchanged := true
        stage := .complete },[]) := by decide +kernel
  have hreached := Process.Reached.start.step (Process.Step.advance rfl hunit)
  have hrestated := (h.exact _ _ hreached rfl rfl).mp rfl
  obtain ⟨r,hr,-,hsame⟩ : RestatedBy "one-piece-en" switchedAdapter "one-piece-en@6"
    (latestSelecting "one-piece-en" switchedAdapter) := hrestated
  have hlatest : (latestSelecting "one-piece-en" switchedAdapter).map (legacyScope "one-piece-en")=
      some [⟨"one-piece-en:cards","one-piece-official-errata-html@1","second"⟩] := by
    decide +kernel
  rw [hr] at hlatest
  have hscope := Option.some.inj hlatest
  have hadapter := hsame.adapter
  rw [hscope] at hadapter
  exact absurd (hadapter _ (mem_singleton_self _)) (by decide)

def cardsPlan (lineage : String) : EvidencePlan where
  participation := .required
  coverage := ⟨"official-card-database","complete"⟩
  supported_game := "one-piece"
  source_lineage := lineage
  game_profile_version := "one-piece@1"
  adapter_version := "one-piece-en@6"
  requests := [⟨lineage++":cards","https://example.test/cards",[],"fingerprint"⟩]
  discovery_selection := none

def cardsRequest (lineage : String) : PlannedRequestRow where
  request_id := lineage++":cards"
  sequence_number := 0
  method := "GET"
  url := "https://example.test/cards"
  request_headers_json := "{}"
  representation_fingerprint := "fingerprint"
  request_role := .surface
  discovered_from_request_id := none
  state := "observed"
  source_snapshot_id := some "snapshot"
  failure_code := none

def cardsRow (lineage : String) : EvidenceRow where
  request_id := lineage++":cards"
  observation_set_id := "observations"
  source_snapshot_id := "snapshot"
  retrieved_at := "2026-01-01T00:00:00.000Z"
  source_lineage := lineage
  supported_game := "one-piece"
  game_profile_version := "one-piece@1"
  adapter_version := "one-piece-en@6"
  content_digest := "observed"
  snapshot_content_digest := "first"
  content_byte_length := 1
  content_object_key := "evidence"
  observation_count := 1
  plan_origin := "operator"
  snapshot_request_method := "GET"
  snapshot_request_url := "https://example.test/cards"
  snapshot_request_headers_json := "{}"
  snapshot_representation_fingerprint := "fingerprint"

def cardsInput (lineage : String) : SelectionInput where
  evidencePlanRow := [cardsPlan lineage]
  requests := [cardsRequest lineage]
  ordered := pairwise_singleton _ _
  distinct := nodup_singleton _
  observationSets _ := [cardsRow lineage]
  maximumSnapshotBytes _ := 1
  plansAgree := .ok ()

def digestOf : DigestValue → String
  | .plan _ _ => "plan"
  | .evidence previous evidence => previous++evidence.request.request_id

def cardsSelection (lineage : String) : SourceSelection where
  stage := .complete
  requestCount := 1
  inputDigest := "plan"++(lineage++":cards")
  omittedLineages := []

def candidateRow (id : String) (predecessor revision : Option String) : CandidateRow where
  id := id
  preparation_id := id
  supported_game := "one-piece"
  pin_id := some id
  predecessor_candidate_id := predecessor
  catalogue_revision_id := revision

/-- The lineage whose cards a candidate selected. -/
def selectedLineage (id : String) : Option String :=
  if id="published" then some "one-piece-promos"
  else if id="first" then some "one-piece-en" else none

def restatedPredecessor : World where
  candidate id :=
    if id="current" then some (candidateRow id (some "published") none)
    else if id="published" then some (candidateRow id (some "first") (some "revision-2"))
    else if id="first" then some (candidateRow id none (some "revision-1")) else none
  selection id := (selectedLineage id).map cardsSelection
  evidencePlan id := (selectedLineage id).map fun lineage => [cardsPlan lineage]
  retained id := ((selectedLineage id).map fun lineage =>
    [⟨cardsRequest lineage,some (cardsRow lineage)⟩]).getD []
  captured := [⟨"one-piece-en:cards",.surface,"one-piece-en","one-piece-en@6","first"⟩,
    ⟨"one-piece-promos:cards",.surface,"one-piece-promos","one-piece-promos@1","first"⟩]
  captured_distinct := by decide
  runs := []
  runs_distinct := .nil

theorem restated_predecessor : Captured digestOf restatedPredecessor "current" "one-piece"
    ["published","first"] := by
  have hearlier : prepareSourceSelection digestOf (cardsInput "one-piece-en")=
      .ok (cardsSelection "one-piece-en",restatedPredecessor.retained "first") := by rfl
  have hlater : prepareSourceSelection digestOf (cardsInput "one-piece-promos")=
      .ok (cardsSelection "one-piece-promos",restatedPredecessor.retained "published") := by rfl
  have hfirst : Chain digestOf restatedPredecessor "one-piece" (some "first") ["first"] :=
    .native (c := candidateRow "first" none (some "revision-1")) rfl rfl (by decide) hearlier rfl
      rfl .boundary
  have hpublished : Chain digestOf restatedPredecessor "one-piece" (some "published")
      ["published","first"] :=
    .native (c := candidateRow "published" (some "first") (some "revision-2")) rfl rfl (by decide)
      hlater rfl rfl hfirst
  exact .native (c := candidateRow "current" (some "published") none) rfl rfl hpublished

/-- The later of two published candidates selected another lineage, the earlier one decides. -/
theorem restated_verifies : Captured digestOf restatedPredecessor "current" "one-piece"
    ["published","first"] ∧ Verifies digestOf restatedPredecessor "one-piece-en" "one-piece-en@6"
      "current" ["published","first"] :=
  ⟨restated_predecessor,(verifies_iff restated_predecessor).mpr
    (.inl ⟨"first",by simp,by decide⟩)⟩

end CardKeepr.Reconciliation.AcceptedSource
