import CardKeepr.Reconciliation.SortedBatches

namespace CardKeepr.Reconciliation.Sorting

open Lib Shared List Steps Code

section
variable {nfc : Nfc} {before : JsString → JsString → Bool} {version : Nat} {src : Source}
  {kept : TextTable} {yieldAtCheckpoint : Bool} {uncut : Prop} {s : Attempt Retained Variables}

theorem fresh_standsFor (l : List Json) :
    List.Forall₂ (Item.StandsFor nfc) (l.map (Item.fresh nfc)) l := by
  rw [forall₂_map_left_iff]
  exact forall₂_same.mpr fun v _ => .inl rfl

theorem sortBy_fresh (l : List Json) : sortBy before Item.key (l.map (Item.fresh nfc))=
    (sortBy before (sortKey nfc) l).map (Item.fresh nfc) := by
  rw [sortBy,sortBy]
  exact (map_insertionSort (fun v w : Json => NotAfter before (sortKey nfc v) (sortKey nfc w))
    (fun i j : Item => NotAfter before i.key j.key) (Item.fresh nfc) l fun _ _ _ _ => Iff.rfl).symm

theorem firstRun {cut more : List (List Json)} {b : List Json}
    (h : batches (recordSize nfc) 8 512000 src.values=cut++b::more) :
    (runs nfc before src 0)[cut.length]?=some (sortBy before (sortKey nfc) b) := by
  have hne : src.values≠[] := by
    intro he
    rw [(batches_eq_nil _ _ _).mpr he] at h
    simp at h
  rw [runs,runsOf,segments,inputs,if_neg hne,h,List.getElem?_map,List.getElem?_append_right
    (Nat.le_refl _),Nat.sub_self]
  rfl

theorem firstRun_batchOf {r : Nat} {run : List Json} (hr : (runs nfc before src 0)[r]?=some run)
    (hne : run≠[]) : batchOf nfc before src 0 r 0=some run ∧ batchOf nfc before src 0 r 1=some [] ∧
      ∀i l,batchOf nfc before src 0 r i=some l → i=0 ∨ i=1 := by
  have hp : pieces nfc 0 run++[[]]=[run,[]] := by
    rw [pieces,if_pos rfl,if_neg hne]
    rfl
  have hof : ∀i,batchOf nfc before src 0 r i=[run,[]][i]? := by
    intro i
    rw [batchOf,hr,Option.bind_some,hp]
  refine ⟨hof 0,hof 1,fun i l hl => ?_⟩
  rw [hof] at hl
  have := (List.getElem?_eq_some_iff.mp hl).1
  simp only [length_cons,length_nil] at this
  omega

/-- The stage `runs` between two entries: `flushed` stand in the runs, `pend` are not yet written,
`rest` are still to be read. -/
structure Taking (nfc : Nfc) (before : JsString → JsString → Bool) (version : Nat) (src : Source)
    (kept : TextTable) (uncut : Prop) (flushed pend rest : List (Nat×Json))
    (cut : List (List Json)) (left : List (List Json)) (s : Attempt Retained Variables) : Prop where
  running : Running nfc before version src kept uncut s
  entries : src.entries=flushed++pend++rest
  batches : batches (recordSize nfc) 8 512000 src.values=cut++left
  cursor : s.vars.cursor=⟨version,Lib.placeAfter Prod.fst 0 (flushed++pend),.runs,cut.length,0,0,
    0,[]⟩
  pending : s.vars.pending=pend.map fun e => Item.fresh nfc e.2
  bytes : s.vars.bytes=((pend.map Prod.snd).map (recordSize nfc)).sum
  present : ∀r < cut.length,HasRun nfc before src 0 r s.retained
  texts : ∀e∈flushed++pend,HasTexts nfc e.2 s.retained

variable {flushed pend rest : List (Nat×Json)} {cut left : List (List Json)}

theorem Taking.mem (h : Taking nfc before version src kept uncut flushed pend rest cut left s)
    {e : Nat×Json} (he : e∈rest) : e.2∈src.values := by
  rw [Source.values,h.entries]
  exact mem_map_of_mem (mem_append_right _ he)

/-- The pending entries become the next run. -/
theorem flushRun_ends (hsort : Sortable nfc src kept)
    (h : Taking nfc before version src kept uncut flushed pend rest cut
      (pend.map Prod.snd::Lib.batches (recordSize nfc) 8 512000 (rest.map Prod.snd)) s)
    (hpend : pend≠[]) {Q : Unit → Attempt Retained Variables → Prop}
    (hQ : ∀s',Taking nfc before version src kept uncut (flushed++pend) [] rest
      (cut++[pend.map Prod.snd]) (Lib.batches (recordSize nfc) 8 512000 (rest.map Prod.snd)) s' →
      Q () s') :
    (flushRun nfc before yieldAtCheckpoint).Ends s Q
      (Halts nfc before version src kept yieldAtCheckpoint uncut) := by
  have hrun := @firstRun nfc before src _ _ _ h.batches
  set l := sortBy before (sortKey nfc) (pend.map Prod.snd) with hl
  have hlne : l≠[] := by
    intro he
    have hlen := (perm_insertionSort (fun v w : Json =>
      NotAfter before (sortKey nfc v) (sortKey nfc w)) (pend.map Prod.snd)).length_eq
    rw [show (pend.map Prod.snd).insertionSort _=l from rfl,he,length_map] at hlen
    exact hpend (length_eq_zero_iff.mp hlen.symm)
  obtain ⟨h0,h1,honly⟩ := firstRun_batchOf hrun hlne
  have hsorted : sortBy before Item.key s.vars.pending=l.map (Item.fresh nfc) := by
    rw [h.pending,hl,←sortBy_fresh,map_map]
    rfl
  have hcount : s.vars.cursor.count=cut.length := by rw [h.cursor]
  refine Steps.Ends.bind (ends_vars ?_)
  rw [hcount,hsorted]
  refine Steps.Ends.bind (writeBatch_ends hsort h.running h0 (fresh_standsFor l)
    fun s₁ hr₁ hle₁ hv₁ hrow₁ => ?_)
  refine Steps.Ends.bind (writeBatch_ends hsort hr₁ h1 .nil fun s₂ hr₂ hle₂ hv₂ hrow₂ => ?_)
  have hle := hle₁.trans hle₂
  have hpresent : ∀r < cut.length+1,HasRun nfc before src 0 r s₂.retained := by
    intro r hr
    rcases Nat.lt_or_ge r cut.length with hlt | hge
    · exact (h.present r hlt).mono hle
    · obtain rfl : r=cut.length := by omega
      intro i l' hi
      rcases honly i l' hi with rfl | rfl
      · rw [h0] at hi
        obtain rfl := Option.some.inj hi
        exact hle₂.1 _ _ _ _ hrow₁
      · rw [h1] at hi
        obtain rfl := Option.some.inj hi
        exact hrow₂
  have hbatches : Lib.batches (recordSize nfc) 8 512000 src.values=
      (cut++[pend.map Prod.snd])++Lib.batches (recordSize nfc) 8 512000 (rest.map Prod.snd) := by
    rw [h.batches,append_assoc]
    rfl
  have hentries : src.entries=(flushed++pend)++rest := h.entries
  have htexts : ∀e∈flushed++pend,HasTexts nfc e.2 s₂.retained := fun e he =>
    (h.texts e he).mono hle
  have hvars : s₂.vars=s.vars := hv₂.trans hv₁
  let c : Cursor := ⟨version,Lib.placeAfter Prod.fst 0 (flushed++pend),.runs,cut.length+1,0,0,0,[]⟩
  refine Steps.Ends.bind (ends_assign ?_)
  have hcursor : ({ s₂.vars with
      cursor := { s₂.vars.cursor with count := s₂.vars.cursor.count+1 }, pending := [],
      bytes := 0 } : Variables)=⟨c,s.vars.ordinal,[],0,s.vars.heads⟩ := by
    rw [hvars,h.cursor]
  rw [hcursor]
  have hlen : (cut++[pend.map Prod.snd]).length=cut.length+1 := by simp
  have hplace : InRuns nfc before src c s₂.retained :=
    ⟨⟨flushed++pend,rest,_,hentries,hbatches,hlen.symm,rfl,htexts⟩,⟨rfl,rfl,rfl,rfl⟩,hpresent⟩
  have hr₂' := hr₂.assign (v := ⟨c,s.vars.ordinal,[],0,s.vars.heads⟩) (by rw [hvars])
  refine save_ends hr₂' hplace rfl fun s₃ hr₃ hle₃ hv₃ => hQ s₃ ?_
  refine ⟨hr₃,?_,hbatches,?_,?_,?_,fun r hr => ?_,?_⟩
  · rw [append_nil]
    exact hentries
  · rw [hv₃,hlen,append_nil]
  · rw [hv₃]
    rfl
  · rw [hv₃]
    rfl
  · rw [hlen] at hr
    exact (hpresent r hr).mono hle₃
  · rw [append_nil]
    exact fun e he => (htexts e he).mono hle₃

theorem Taking.pending_nil
    (h : Taking nfc before version src kept uncut flushed pend rest cut left s) :
    s.vars.pending=[] ↔ pend=[] := by
  rw [h.pending,map_eq_nil_iff]

theorem closeCrowded_ends (hsort : Sortable nfc src kept) {e : Nat×Json}
    (h : Taking nfc before version src kept uncut flushed pend (e::rest) cut
      (batchesFrom (recordSize nfc) 8 512000 (pend.map Prod.snd)
        ((pend.map Prod.snd).map (recordSize nfc)).sum ((e::rest).map Prod.snd)) s)
    {Q : Unit → Attempt Retained Variables → Prop}
    (hQ : ∀s' flushed' pend' cut',Taking nfc before version src kept uncut flushed' pend' (e::rest)
      cut' (batchesFrom (recordSize nfc) 8 512000 (pend'.map Prod.snd)
        ((pend'.map Prod.snd).map (recordSize nfc)).sum ((e::rest).map Prod.snd)) s' →
      ¬(pend'.map Prod.snd≠[] ∧ 512000 < ((pend'.map Prod.snd).map (recordSize nfc)).sum+
        recordSize nfc e.2) → Q () s') :
    (Steps.when (s.vars.pending≠[] ∧ 512000 < s.vars.bytes+byteLength (sortKey nfc e.2))
      (flushRun nfc before yieldAtCheckpoint)).Ends s Q
      (Halts nfc before version src kept yieldAtCheckpoint uncut) := by
  refine ends_when (fun hcr => ?_) fun hcr => ?_
  · have hne : pend≠[] := fun he => hcr.1 (h.pending_nil.mpr he)
    have hcr' : 512000 < ((pend.map Prod.snd).map (recordSize nfc)).sum+recordSize nfc e.2 := by
      rw [←h.bytes]
      exact hcr.2
    have hw := h
    rw [map_cons,batchesFrom_crowded (fun he => hne (map_eq_nil_iff.mp he)) hcr',←map_cons] at hw
    exact flushRun_ends hsort hw hne fun s' h' => hQ s' _ _ _ h' fun hc => hc.1 rfl
  · refine hQ s _ _ _ h fun hc => hcr ⟨fun he => hc.1 ?_,?_⟩
    · rw [h.pending_nil.mp he]
      rfl
    · rw [h.bytes]
      exact hc.2

theorem closeLast_ends (hsort : Sortable nfc src kept)
    (h : Taking nfc before version src kept uncut flushed pend [] cut
      (batchesFrom (recordSize nfc) 8 512000 (pend.map Prod.snd)
        ((pend.map Prod.snd).map (recordSize nfc)).sum []) s)
    {Q : Unit → Attempt Retained Variables → Prop}
    (hQ : ∀s' flushed' cut',Taking nfc before version src kept uncut flushed' [] [] cut' [] s' →
      Q () s') : (Steps.when (s.vars.pending≠[]) (flushRun nfc before yieldAtCheckpoint)).Ends s Q
        (Halts nfc before version src kept yieldAtCheckpoint uncut) := by
  refine ends_when (fun hne => ?_) fun he => ?_
  · have hne : pend≠[] := fun he => hne (h.pending_nil.mpr he)
    rw [batchesFrom_last fun he => hne (map_eq_nil_iff.mp he)] at h
    exact flushRun_ends hsort h hne fun s' h' => hQ s' _ _ h'
  · obtain rfl := h.pending_nil.mp (not_not.mp he)
    exact hQ s _ _ h

/-- One entry more: the runs to come are those of the rest. -/
theorem takeEntry_ends (hsort : Sortable nfc src kept) {e : Nat×Json}
    (h : ∃flushed pend cut,Taking nfc before version src kept uncut flushed pend (e::rest) cut
      (batchesFrom (recordSize nfc) 8 512000 (pend.map Prod.snd)
        ((pend.map Prod.snd).map (recordSize nfc)).sum ((e::rest).map Prod.snd)) s)
    {Q : Unit → Attempt Retained Variables → Prop}
    (hQ : ∀s',(∃flushed pend cut,Taking nfc before version src kept uncut flushed pend rest cut
      (batchesFrom (recordSize nfc) 8 512000 (pend.map Prod.snd)
        ((pend.map Prod.snd).map (recordSize nfc)).sum (rest.map Prod.snd)) s') → Q () s') :
    (takeEntry nfc before yieldAtCheckpoint e).Ends s Q
      (Halts nfc before version src kept yieldAtCheckpoint uncut) := by
  obtain ⟨flushed,pend,cut,h⟩ := h
  have hv : e.2∈src.values := h.mem mem_cons_self
  have hsmall := hsort.small _ hv
  refine Steps.Ends.bind (canonical_ends (sortKey_integral (hsort.record _ hv).2).2 ?_)
  refine Steps.Ends.bind (sortableSize_ends hsmall ?_)
  refine Steps.Ends.bind (ends_vars ?_)
  refine Steps.Ends.bind (closeCrowded_ends hsort h fun s₁ flushed' pend' cut' h₁ hroom => ?_)
  refine Steps.Ends.bind (retainRecord_ends hsort h₁.running hv fun s₂ hr₂ hle₂ hv₂ htext => ?_)
  have hsum : (((pend'++[e]).map Prod.snd).map (recordSize nfc)).sum=
      ((pend'.map Prod.snd).map (recordSize nfc)).sum+recordSize nfc e.2 := by
    rw [map_append,map_append,sum_append]
    simp
  have hleft := h₁.batches
  rw [map_cons,batchesFrom_push hroom,←hsum,show pend'.map Prod.snd++[e.2]=
    (pend'++[e]).map Prod.snd by simp] at hleft
  refine Steps.Ends.bind (ends_assign ?_)
  have hnext : Taking nfc before version src kept uncut flushed' (pend'++[e]) rest cut'
      (if ((pend'++[e]).map Prod.snd).length=8 ∨
          512000 ≤ (((pend'++[e]).map Prod.snd).map (recordSize nfc)).sum then
        (pend'++[e]).map Prod.snd::Lib.batches (recordSize nfc) 8 512000 (rest.map Prod.snd)
        else batchesFrom (recordSize nfc) 8 512000 ((pend'++[e]).map Prod.snd)
          (((pend'++[e]).map Prod.snd).map (recordSize nfc)).sum (rest.map Prod.snd))
      { s₂ with vars := { s₂.vars with
        pending := s₂.vars.pending++[⟨sortKey nfc e.2,envelope nfc e.2,e.2⟩],
        bytes := s₂.vars.bytes+byteLength (sortKey nfc e.2),
        cursor := { s₂.vars.cursor with after := e.1 } } } := by
    refine ⟨hr₂.assign rfl,?_,hleft,?_,?_,?_,fun r hr => (h₁.present r hr).mono hle₂,?_⟩
    · rw [h₁.entries]
      simp
    · show { s₂.vars.cursor with after := e.1 }=_
      rw [hv₂,h₁.cursor,←append_assoc,placeAfter_append]
    · show s₂.vars.pending++[⟨sortKey nfc e.2,envelope nfc e.2,e.2⟩]=_
      rw [hv₂,h₁.pending,map_append]
      rfl
    · show s₂.vars.bytes+byteLength (sortKey nfc e.2)=_
      rw [hv₂,h₁.bytes,hsum]
      rfl
    · intro x hx
      rw [←append_assoc] at hx
      rcases mem_append.mp hx with hx | hx
      · exact (h₁.texts x hx).mono hle₂
      · rw [mem_singleton.mp hx]
        exact htext
  refine Steps.Ends.bind (ends_vars ?_)
  have hfull : ((s₂.vars.pending++[Item.fresh nfc e.2]).length=8 ∨
      512000 ≤ s₂.vars.bytes+byteLength (sortKey nfc e.2)) ↔
      (((pend'++[e]).map Prod.snd).length=8 ∨
        512000 ≤ (((pend'++[e]).map Prod.snd).map (recordSize nfc)).sum) := by
    rw [hsum,hv₂,h₁.pending,h₁.bytes]
    simp only [length_append,length_map,length_singleton]
    rfl
  refine ends_when (fun hf => ?_) fun hf => ?_
  · rw [if_pos (hfull.mp hf)] at hnext
    exact flushRun_ends hsort hnext (by simp) fun s' h' => hQ s' ⟨_,_,_,h'⟩
  · rw [if_neg fun hc => hf (hfull.mpr hc)] at hnext
    exact hQ _ ⟨_,_,_,hnext⟩

end

section
variable {nfc : Nfc} {before : JsString → JsString → Bool} {version : Nat} {src : Source}
  {kept : TextTable} {yieldAtCheckpoint : Bool} {uncut : Prop} {s : Attempt Retained Variables}

theorem InRuns.taking (h : InRuns nfc before src s.vars.cursor s.retained)
    (hr : Running nfc before version src kept uncut s)
    (hstage : s.vars.cursor.stage=.runs) (hversion : s.vars.cursor.sourceVersion=version)
    (hpending : s.vars.pending=[]) (hbytes : s.vars.bytes=0) :
    ∃flushed pend cut,Taking nfc before version src kept uncut flushed pend
      (src.read s.vars.cursor.after) cut (batchesFrom (recordSize nfc) 8 512000
        (pend.map Prod.snd) ((pend.map Prod.snd).map (recordSize nfc)).sum
        ((src.read s.vars.cursor.after).map Prod.snd)) s := by
  obtain ⟨done,rest,cut,hentries,hbatches,hcount,hafter,htexts⟩ := h.entries
  obtain ⟨hpass,hfirst,houtput,hpositions⟩ := h.start
  have hread : src.read s.vars.cursor.after=rest := by
    rw [hafter]
    rcases eq_nil_or_concat done with rfl | ⟨init,e,rfl⟩
    · rw [placeAfter_nil,src.first,hentries,nil_append]
    · rw [concat_eq_append] at hentries ⊢
      rw [placeAfter_append]
      rw [append_assoc] at hentries
      exact src.behind init e rest hentries
  rw [hread]
  refine ⟨done,[],cut,hr,?_,hbatches,?_,hpending,hbytes,fun r hr => h.present r (hcount ▸ hr),?_⟩
  · rw [append_nil]
    exact hentries
  · rw [append_nil,←hafter,←hcount,←hversion,←hstage]
    generalize s.vars.cursor=c at *
    cases c
    simp only at hpass hfirst houtput hpositions
    rw [hpass,hfirst,houtput,hpositions]
  · rw [append_nil]
    exact htexts

theorem firstPass {d : Retained} (hcount : ∀r < (runs nfc before src 0).length,
    HasRun nfc before src 0 r d) (htexts : ∀v∈src.values,HasTexts nfc v d) :
    PassDone nfc before src 0 d := by
  refine ⟨fun r => ?_,htexts⟩
  rcases Nat.lt_or_ge r (runs nfc before src 0).length with hlt | hge
  · exact hcount r hlt
  · intro b l hl
    rw [batchOf,List.getElem?_eq_none hge] at hl
    cases hl

theorem runs_zero_length (nfc : Nfc) (before : JsString → JsString → Bool) (src : Source) :
    (runs nfc before src 0).length=(inputs nfc src).length := runsOf_length ..

/-- A source without entries has one run nevertheless. -/
theorem oneRun_ends (hsort : Sortable nfc src kept) {flushed : List (Nat×Json)}
    {cut : List (List Json)}
    (h : Taking nfc before version src kept uncut flushed [] [] cut [] s)
    {Q : Unit → Attempt Retained Variables → Prop}
    (hQ : ∀s' after,Running nfc before version src kept uncut s' → s'.vars.cursor=⟨version,after,
      .runs,(runs nfc before src 0).length,0,0,0,[]⟩ → 0 < (runs nfc before src 0).length →
      PassDone nfc before src 0 s'.retained → Q () s') :
    (Steps.when (s.vars.cursor.count=0) (writeEmptyRun nfc)).Ends s Q
      (Halts nfc before version src kept yieldAtCheckpoint uncut) := by
  have hcut : Lib.batches (recordSize nfc) 8 512000 src.values=cut := by
    rw [h.batches,append_nil]
  have hcount : s.vars.cursor.count=cut.length := by rw [h.cursor]
  have htexts : ∀v∈src.values,HasTexts nfc v s.retained := by
    intro v hv
    obtain ⟨e,he,rfl⟩ := mem_map.mp hv
    have hentries := h.entries
    rw [append_nil] at hentries
    rw [hentries] at he
    exact h.texts e he
  refine ends_when (fun hzero => ?_) fun hpos => ?_
  · rw [hcount] at hzero
    have hnil : src.values=[] := by
      rw [←batches_eq_nil (recordSize nfc) 8 512000,hcut]
      exact length_eq_zero_iff.mp hzero
    have hinputs : inputs nfc src=[[]] := by rw [inputs,if_pos hnil]
    have hrun : (runs nfc before src 0)=[[]] := by
      rw [runs,runsOf,segments,hinputs]
      rfl
    have h0 : ∀i,batchOf nfc before src 0 0 i=[[]][i]? := by
      intro i
      rw [batchOf,hrun]
      rfl
    refine Steps.Ends.bind (writeBatch_ends hsort h.running (h0 0) .nil
      fun s₁ hr₁ hle₁ hv₁ hrow₁ => ?_)
    refine ends_assign (hQ _ (Lib.placeAfter Prod.fst 0 (flushed++[])) (hr₁.assign rfl) ?_
      (by rw [hrun]; exact Nat.one_pos)
      (firstPass (fun r hr => ?_) fun v hv => (htexts v hv).mono hle₁))
    · show { s₁.vars.cursor with count := 1 }=_
      rw [hv₁,h.cursor,hrun]
      rfl
    · rw [hrun] at hr
      obtain rfl : r=0 := Nat.lt_one_iff.mp hr
      intro b l hl
      rw [h0] at hl
      obtain rfl : b=0 := by
        have := (List.getElem?_eq_some_iff.mp hl).1
        simp only [length_cons,length_nil] at this
        omega
      obtain rfl := Option.some.inj hl
      exact hrow₁
  · rw [hcount] at hpos
    have hne : src.values≠[] := by
      intro he
      rw [(batches_eq_nil _ _ _).mpr he] at hcut
      rw [←hcut] at hpos
      exact hpos rfl
    have hlen : (runs nfc before src 0).length=cut.length := by
      rw [runs_zero_length,inputs,if_neg hne,hcut]
    refine hQ s (Lib.placeAfter Prod.fst 0 (flushed++[])) h.running ?_ (by omega)
      (firstPass (fun r hr => ?_) htexts)
    · rw [h.cursor,hlen]
    · exact h.present r (hlen ▸ hr)

theorem afterRuns {d : Retained} {after : Nat} (hlen : 0 < (runs nfc before src 0).length)
    (hpass : PassDone nfc before src 0 d) : Place nfc before src ⟨version,after,
      if (runs nfc before src 0).length=1 then .complete else .merge,
      (runs nfc before src 0).length,0,0,0,[]⟩ d := by
  by_cases h1 : (runs nfc before src 0).length=1
  · rw [if_pos h1]
    have hsorted : Sorted nfc before src ⟨version,after,.complete,
        (runs nfc before src 0).length,0,0,0,[]⟩ d := ⟨hpass,h1,h1⟩
    exact hsorted
  · rw [if_neg h1]
    have hmerge : InMerge nfc before src ⟨version,after,.merge,
        (runs nfc before src 0).length,0,0,0,[]⟩ d :=
      ⟨hpass,by show 1 < (runs nfc before src 0).length; omega,rfl,⟨0,rfl⟩,
        fun r hr => absurd hr (by simp),.inl ⟨rfl,rfl⟩⟩
    exact hmerge

theorem runsStage_ends (hsort : Sortable nfc src kept)
    (hr : Running nfc before version src kept uncut s)
    (hp : InRuns nfc before src s.vars.cursor s.retained) (hstage : s.vars.cursor.stage=.runs)
    (hversion : s.vars.cursor.sourceVersion=version) (hpending : s.vars.pending=[])
    (hbytes : s.vars.bytes=0) {Q : Unit → Attempt Retained Variables → Prop}
    (hQ : ∀s',Running nfc before version src kept uncut s' →
      Place nfc before src s'.vars.cursor s'.retained → s'.vars.cursor.stage≠.runs →
      s'.vars.cursor.sourceVersion=version → Q () s') :
    (runsStage nfc before yieldAtCheckpoint src).Ends s Q
      (Halts nfc before version src kept yieldAtCheckpoint uncut) := by
  have hstart := hp.taking hr hstage hversion hpending hbytes
  refine Steps.Ends.bind (ends_vars ?_)
  refine Steps.Ends.bind ((ends_each (fun rest s' => ∃flushed pend cut,
    Taking nfc before version src kept uncut flushed pend rest cut
      (batchesFrom (recordSize nfc) 8 512000 (pend.map Prod.snd)
        ((pend.map Prod.snd).map (recordSize nfc)).sum (rest.map Prod.snd)) s')
    (fun e rest s' h => takeEntry_ends hsort h fun s'' h' => h') hstart).post ?_)
  rintro - s₁ ⟨flushed,pend,cut,h₁⟩
  refine Steps.Ends.bind (ends_vars ?_)
  refine Steps.Ends.bind (closeLast_ends hsort h₁ fun s₂ flushed₂ cut₂ h₂ => ?_)
  refine Steps.Ends.bind (ends_vars ?_)
  refine Steps.Ends.bind (oneRun_ends hsort h₂ fun s₃ after hr₃ hc₃ hlen₃ hpass₃ => ?_)
  refine Steps.Ends.bind (ends_assign ?_)
  have hplace : Place nfc before src { s₃.vars.cursor with
      stage := if s₃.vars.cursor.count=1 then .complete else .merge } s₃.retained := by
    rw [hc₃]
    exact afterRuns hlen₃ hpass₃
  have hr₃' := hr₃.assign (v := { s₃.vars with cursor := { s₃.vars.cursor with
    stage := if s₃.vars.cursor.count=1 then .complete else .merge } }) rfl
  refine save_ends hr₃' hplace (by rw [hc₃]) fun s₄ hr₄ hle₄ hv₄ => ?_
  refine hQ s₄ hr₄ ?_ ?_ ?_
  · rw [hv₄]
    exact hplace.mono hle₄
  · rw [hv₄]
    show (if s₃.vars.cursor.count=1 then Stage.complete else .merge)≠.runs
    split
    · exact fun h => by cases h
    · exact fun h => by cases h
  · rw [hv₄]
    show s₃.vars.cursor.sourceVersion=version
    rw [hc₃]

end

end CardKeepr.Reconciliation.Sorting
