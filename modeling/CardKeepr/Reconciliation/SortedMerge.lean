import CardKeepr.Reconciliation.SortedRuns

namespace CardKeepr.Reconciliation.Sorting

open Lib Shared List Steps Code

section
variable {nfc : Nfc} {before : JsString → JsString → Bool} {version : Nat} {src : Source}
  {kept : TextTable} {yieldAtCheckpoint : Bool} {uncut : Prop} {s : Attempt Retained Variables}
  {E : Stopped JsString → Attempt Retained Variables → Prop}

def Input.head (nfc : Nfc) (i : Input) : Option Item := i.rest.head?.map (Item.restored nfc)

/-- An input whose head has been read: behind it stands the rest. -/
def Input.Ready (nfc : Nfc) (p : Nat) (i : Input) : Prop :=
  i.Stands nfc p ∧ ∀v vs,i.rest=v::vs →
    Behind (pieces nfc p i.run) i.position.batch (i.position.offset+1) vs

/-- A group that is being merged: `outs` are written, `pend` are not yet, and the batches to come
are `left`. -/
structure Joining (nfc : Nfc) (before : JsString → JsString → Bool) (version : Nat) (src : Source)
    (kept : TextTable) (uncut : Prop) (after p g : Nat) (is : List Input)
    (outs left : List (List Json)) (pend : List Json) (s : Attempt Retained Variables) : Prop where
  running : Running nfc before version src kept uncut s
  pass : PassDone nfc before src p s.retained
  many : 1 < (runs nfc before src p).length
  within : 4*g < (runs nfc before src p).length
  written : ∀r < g,HasRun nfc before src (p+1) r s.retained
  merging : Merging nfc before src p g is outs left s.retained
  cursor : s.vars.cursor=⟨version,after,.merge,(runs nfc before src p).length,p,4*g,outs.length,
    is.map Input.position⟩
  pending : s.vars.pending=pend.map (Item.restored nfc)
  bytes : s.vars.bytes=(pend.map (recordSize nfc)).sum

variable {after p g : Nat} {is : List Input} {outs left : List (List Json)} {pend : List Json}

theorem restored_standsFor (l : List Json) :
    List.Forall₂ (Item.StandsFor nfc) (l.map (Item.restored nfc)) l := by
  rw [forall₂_map_left_iff]
  exact forall₂_same.mpr fun v _ => .inr rfl

theorem nextRun_batchOf (hw : StrictWeak before) (hg : 4*g < (runs nfc before src p).length)
    {all : List (List Json)} (hall : batches (recordSize nfc) 8 512000
      (mergeLists before (sortKey nfc) (group g (runs nfc before src p)))=all) (b : Nat) :
    batchOf nfc before src (p+1) g b=(all++[[]])[b]? := by
  have hrun := @runsOf_succ Json JsString before (sortKey nfc) hw (inputs nfc src) p g
    (by rw [←@runsOf_length _ _ before (sortKey nfc)]; exact hg)
  have hrun' : (runs nfc before src (p+1))[g]?=
      some (mergeLists before (sortKey nfc) (group g (runs nfc before src p))) := hrun
  rw [batchOf,hrun',Option.bind_some,pieces,if_neg (Nat.succ_ne_zero p),hall]

theorem flushMerge_ends (hsort : Sortable nfc src kept) (hw : StrictWeak before)
    (h : Joining nfc before version src kept uncut after p g is outs
      (pend::batches (recordSize nfc) 8 512000
        (mergeLists before (sortKey nfc) (is.map Input.rest))) pend s)
    {Q : Unit → Attempt Retained Variables → Prop}
    (hQ : ∀s',Joining nfc before version src kept uncut after p g is (outs++[pend])
      (batches (recordSize nfc) 8 512000 (mergeLists before (sortKey nfc) (is.map Input.rest)))
      [] s' → s'.vars.heads=s.vars.heads → Q () s') :
    (flushMerge nfc yieldAtCheckpoint).Ends s Q
      (Halts nfc before version src kept yieldAtCheckpoint uncut) := by
  have hof : batchOf nfc before src (p+1) g outs.length=some pend := by
    rw [nextRun_batchOf hw h.within h.merging.output]
    simp
  have hcursor := h.cursor
  refine Steps.Ends.bind (ends_vars ?_)
  rw [hcursor,h.pending]
  dsimp only
  rw [Nat.mul_div_cancel_left g (by omega)]
  refine Steps.Ends.bind (writeBatch_ends hsort h.running hof (restored_standsFor pend)
    fun s₁ hr₁ hle₁ hv₁ hrow₁ => ?_)
  refine Steps.Ends.bind (ends_assign ?_)
  have hmerging : Merging nfc before src p g is (outs++[pend]) (batches (recordSize nfc) 8 512000
      (mergeLists before (sortKey nfc) (is.map Input.rest))) s₁.retained := by
    refine ⟨h.merging.grouped,h.merging.stands,?_,fun b l hb => ?_⟩
    · rw [h.merging.output,append_assoc]
      rfl
    · rcases Nat.lt_or_ge b outs.length with hlt | hge
      · rw [List.getElem?_append_left hlt] at hb
        exact hle₁.1 _ _ _ _ (h.merging.written b l hb)
      · rw [List.getElem?_append_right hge] at hb
        obtain ⟨hlt,hl⟩ := List.getElem?_eq_some_iff.mp hb
        have hz : b=outs.length := by
          simp only [length_singleton] at hlt
          omega
        subst hz
        simp only [Nat.sub_self,getElem_cons_zero] at hl
        rw [←hl]
        exact hrow₁
  let c : Cursor := ⟨version,after,.merge,(runs nfc before src p).length,p,4*g,outs.length+1,
    is.map Input.position⟩
  have hvars : ({ s₁.vars with
      cursor := { s₁.vars.cursor with outputBatch := s₁.vars.cursor.outputBatch+1 },
      pending := [], bytes := 0 } : Variables)=⟨c,s.vars.ordinal,[],0,s.vars.heads⟩ := by
    rw [hv₁,hcursor]
  rw [hvars]
  have hlen : (outs++[pend]).length=outs.length+1 := by simp
  have hplace : InMerge nfc before src c s₁.retained := by
    refine ⟨h.pass.mono hle₁,h.many,rfl,⟨g,rfl⟩,fun r hr => ?_,.inr ⟨h.within,is,outs++[pend],
      ?_,rfl,hlen.symm⟩⟩
    · have hr : r < 4*g/4 := hr
      rw [Nat.mul_div_cancel_left g (by omega)] at hr
      exact (h.written r hr).mono hle₁
    · show Merging nfc before src p (4*g/4) is (outs++[pend]) _ s₁.retained
      rw [Nat.mul_div_cancel_left g (by omega)]
      exact hmerging
  have hr₁' := hr₁.assign (v := ⟨c,s.vars.ordinal,[],0,s.vars.heads⟩) (by rw [hv₁])
  refine save_ends hr₁' hplace rfl fun s₂ hr₂ hle₂ hv₂ => hQ s₂ ?_ (by rw [hv₂])
  have hle := hle₁.trans hle₂
  exact ⟨hr₂,h.pass.mono hle,h.many,h.within,fun r hr => (h.written r hr).mono hle,
    hmerging.mono hle₂,by rw [hv₂,hlen],by rw [hv₂]; rfl,by rw [hv₂]; rfl⟩

theorem refresh_ends (hsort : Sortable nfc src kept) {fuel : Nat} (hfuel : 1 < fuel)
    {l r : List Input} {i : Input} (hrun : (runs nfc before src s.vars.cursor.pass)[
      s.vars.cursor.first+l.length]?=some i.run)
    (hpass : PassDone nfc before src s.vars.cursor.pass s.retained)
    (hpositions : s.vars.cursor.positions=(l++i::r).map Input.position)
    (hstands : i.Stands nfc s.vars.cursor.pass) {Q : Unit → Attempt Retained Variables → Prop}
    (hQ : ∀position',({ i with position := position' } : Input).Ready nfc s.vars.cursor.pass →
      Q () { s with vars := { s.vars with
        heads := s.vars.heads.set l.length (i.head nfc), cursor := { s.vars.cursor with
          positions := (l++{ i with position := position' }::r).map Input.position } } }) :
    (refresh nfc fuel l.length).Ends s Q E := by
  have hget : s.vars.cursor.positions.getD l.length ⟨0,0⟩=i.position := by
    rw [hpositions,List.getD,List.getElem?_map,List.getElem?_append_right (Nat.le_refl _),
      Nat.sub_self]
    rfl
  refine Steps.Ends.bind (ends_vars ?_)
  rw [hget]
  refine Steps.Ends.bind (readHead_ends hsort hfuel hrun hpass hstands fun position' hb hnext => ?_)
  refine ends_assign ?_
  have hset : s.vars.cursor.positions.set l.length position'=
      (l++{ i with position := position' }::r).map Input.position := by
    rw [hpositions]
    simp
  have hq := hQ position' ⟨hb,hnext⟩
  rw [←hset] at hq
  exact hq

end

section
variable {nfc : Nfc} {before : JsString → JsString → Bool} {version : Nat} {src : Source}
  {kept : TextTable} {yieldAtCheckpoint : Bool} {uncut : Prop} {s : Attempt Retained Variables}
  {E : Stopped JsString → Attempt Retained Variables → Prop}
  {after p g : Nat} {is : List Input} {outs left : List (List Json)} {pend : List Json}

/-- The heads are those of the inputs. -/
structure Headed (nfc : Nfc) (p : Nat) (is : List Input) (s : Attempt Retained Variables) :
    Prop where
  heads : s.vars.heads=is.map (Input.head nfc)
  ready : ∀i∈is,i.Ready nfc p

theorem Joining.run (h : Joining nfc before version src kept uncut after p g is outs left pend s)
    {l r : List Input} {i : Input} (his : is=l++i::r) :
    (runs nfc before src p)[4*g+l.length]?=some i.run := by
  refine group_get ?_
  rw [←h.merging.grouped,his,map_append,map_cons,List.getElem?_append_right
    (by rw [length_map]),length_map,Nat.sub_self]
  rfl

theorem Input.Stands.sublist {i : Input} (h : i.Stands nfc p) : i.rest.Sublist i.run := by
  have hsplit : ((pieces nfc p i.run).take i.position.batch).flatten++
      ((pieces nfc p i.run).drop i.position.batch).flatten=i.run := by
    rw [←flatten_append,take_append_drop]
    exact pieces_flatten p i.run
  have hdrop := (drop_sublist i.position.offset
    ((pieces nfc p i.run).drop i.position.batch).flatten).trans (sublist_append_right
      ((pieces nfc p i.run).take i.position.batch).flatten _)
  rw [h.2.2]
  rwa [hsplit] at hdrop

theorem Merging.inOrder (hw : StrictWeak before) {d : Retained}
    (h : Merging nfc before src p g is outs left d) :
    InOrder before (sortKey nfc) (is.map Input.rest) := by
  intro l hl
  obtain ⟨i,hi,rfl⟩ := mem_map.mp hl
  refine List.Pairwise.sublist (h.stands i hi).sublist ?_
  have hin : i.run∈group g (runs nfc before src p) := by
    rw [←h.grouped]
    exact mem_map_of_mem hi
  exact runsOf_inOrder hw _ p _ (mem_of_mem_drop (mem_of_mem_take hin))

theorem Merging.mem {d : Retained} (h : Merging nfc before src p g is outs left d) {i : Input}
    (hi : i∈is) : ∀v∈i.rest,v∈src.values := by
  intro v hv
  have hin : i.run∈group g (runs nfc before src p) := by
    rw [←h.grouped]
    exact mem_map_of_mem hi
  exact runs_mem (mem_of_mem_drop (mem_of_mem_take hin)) v
    ((h.stands i hi).sublist.subset hv)

theorem Headed.keys (h : Headed nfc p is s) : (s.vars.heads.map fun h => h.map Item.key)=
    (is.map Input.rest).map fun l => l.head?.map (sortKey nfc) := by
  rw [h.heads,map_map,map_map]
  refine map_congr_left fun i _ => ?_
  show (i.rest.head?.map (Item.restored nfc)).map Item.key=_
  rw [Option.map_map]
  rfl

theorem Joining.pending_nil
    (h : Joining nfc before version src kept uncut after p g is outs left pend s) :
    s.vars.pending=[] ↔ pend=[] := by
  rw [h.pending,map_eq_nil_iff]

theorem writeCrowded_ends (hsort : Sortable nfc src kept) (hw : StrictWeak before)
    (h : Joining nfc before version src kept uncut after p g is outs
      (batchesFrom (recordSize nfc) 8 512000 pend (pend.map (recordSize nfc)).sum
        (mergeLists before (sortKey nfc) (is.map Input.rest))) pend s) {a : Json} {as : List Json}
    (hmerge : mergeLists before (sortKey nfc) (is.map Input.rest)=a::as)
    {Q : Unit → Attempt Retained Variables → Prop}
    (hQ : ∀s' outs' pend',Joining nfc before version src kept uncut after p g is outs'
      (batchesFrom (recordSize nfc) 8 512000 pend' (pend'.map (recordSize nfc)).sum
        (mergeLists before (sortKey nfc) (is.map Input.rest))) pend' s' →
      s'.vars.heads=s.vars.heads →
      ¬(pend'≠[] ∧ 512000 < (pend'.map (recordSize nfc)).sum+recordSize nfc a) → Q () s') :
    (Steps.when (s.vars.pending≠[] ∧ 512000 < s.vars.bytes+byteLength (sortKey nfc a))
      (flushMerge nfc yieldAtCheckpoint)).Ends s Q
      (Halts nfc before version src kept yieldAtCheckpoint uncut) := by
  refine ends_when (fun hcr => ?_) fun hcr => ?_
  · have hne : pend≠[] := fun he => hcr.1 (h.pending_nil.mpr he)
    have hcr' : 512000 < (pend.map (recordSize nfc)).sum+recordSize nfc a := by
      rw [←h.bytes]
      exact hcr.2
    have hj := h
    rw [hmerge,batchesFrom_crowded hne hcr',←hmerge] at hj
    exact flushMerge_ends hsort hw hj fun s' h' hh => hQ s' _ _ h' hh fun hc => hc.1 rfl
  · refine hQ s _ _ h rfl fun hc => hcr ⟨fun he => hc.1 (h.pending_nil.mp he),?_⟩
    rw [h.bytes]
    exact hc.2

theorem writeLast_ends (hsort : Sortable nfc src kept) (hw : StrictWeak before)
    (h : Joining nfc before version src kept uncut after p g is outs
      (if pend=[] then [] else [pend]) pend s) (hnil : (is.map Input.rest).flatten=[])
    {Q : Unit → Attempt Retained Variables → Prop}
    (hQ : ∀s' outs',Joining nfc before version src kept uncut after p g is outs' [] [] s' →
      Q () s') : (Steps.when (s.vars.pending≠[]) (flushMerge nfc yieldAtCheckpoint)).Ends s Q
        (Halts nfc before version src kept yieldAtCheckpoint uncut) := by
  refine ends_when (fun hne => ?_) fun he => ?_
  · have hne : pend≠[] := fun he => hne (h.pending_nil.mpr he)
    rw [if_neg hne] at h
    have hnone : batches (recordSize nfc) 8 512000
        (mergeLists before (sortKey nfc) (is.map Input.rest))=[] := by
      rw [mergeLists,mergeSteps_nil hnil]
      rfl
    rw [←hnone] at h
    refine flushMerge_ends hsort hw h fun s' h' _ => hQ s' (outs++[pend]) ?_
    rwa [hnone] at h'
  · obtain rfl := h.pending_nil.mp (not_not.mp he)
    rw [if_pos rfl] at h
    exact hQ s outs h

theorem Joining.push {is' : List Input} {a : Json} {as : List Json}
    {s' : Attempt Retained Variables} (h : Joining nfc before version src kept uncut after p g is
      outs (batchesFrom (recordSize nfc) 8 512000 pend (pend.map (recordSize nfc)).sum (a::as))
      pend s)
    (hroom : ¬(pend≠[] ∧ 512000 < (pend.map (recordSize nfc)).sum+recordSize nfc a))
    (hruns : is'.map Input.run=is.map Input.run) (hstands : ∀i∈is',i.Stands nfc p)
    (hr : Running nfc before version src kept uncut s') (hd : s'.retained=s.retained)
    (hc : s'.vars.cursor=⟨version,after,.merge,(runs nfc before src p).length,p,4*g,outs.length,
      is'.map Input.position⟩)
    (hp : s'.vars.pending=s.vars.pending++[Item.restored nfc a])
    (hb : s'.vars.bytes=s.vars.bytes+recordSize nfc a) :
    Joining nfc before version src kept uncut after p g is' outs
      (if (pend++[a]).length=8 ∨ 512000 ≤ ((pend++[a]).map (recordSize nfc)).sum then
        (pend++[a])::batches (recordSize nfc) 8 512000 as
        else batchesFrom (recordSize nfc) 8 512000 (pend++[a])
          ((pend++[a]).map (recordSize nfc)).sum as) (pend++[a]) s' := by
  have hsum : ((pend++[a]).map (recordSize nfc)).sum=
      (pend.map (recordSize nfc)).sum+recordSize nfc a := by
    rw [map_append,sum_append]
    simp
  have hleft := h.merging.output
  rw [batchesFrom_push hroom,←hsum] at hleft
  refine ⟨hr,hd ▸ h.pass,h.many,h.within,hd ▸ h.written,
    ⟨hruns.trans h.merging.grouped,hstands,hleft,hd ▸ h.merging.written⟩,hc,?_,?_⟩
  · rw [hp,h.pending,map_append]
    rfl
  · rw [hb,h.bytes,hsum]

/-- One turn: the least head goes to the output, and the head behind it takes its place. -/
theorem mergeTurn_ends (hsort : Sortable nfc src kept) (hw : StrictWeak before) {fuel : Nat}
    (hfuel : 1 < fuel) (h : Joining nfc before version src kept uncut after p g is outs
      (batchesFrom (recordSize nfc) 8 512000 pend (pend.map (recordSize nfc)).sum
        (mergeLists before (sortKey nfc) (is.map Input.rest))) pend s)
    (hheads : Headed nfc p is s) {Q : Unit ⊕ Unit → Attempt Retained Variables → Prop}
    (hdone : (is.map Input.rest).flatten=[] → Q (.inr ()) s)
    (hnext : ∀s' is' outs' pend',Joining nfc before version src kept uncut after p g is' outs'
      (batchesFrom (recordSize nfc) 8 512000 pend' (pend'.map (recordSize nfc)).sum
        (mergeLists before (sortKey nfc) (is'.map Input.rest))) pend' s' → Headed nfc p is' s' →
      (is'.map Input.rest).flatten.length < (is.map Input.rest).flatten.length → Q (.inl ()) s') :
    (mergeTurn nfc before yieldAtCheckpoint fuel ()).Ends s Q
      (Halts nfc before version src kept yieldAtCheckpoint uncut) := by
  refine Steps.Ends.bind (ends_vars ?_)
  rw [hheads.keys]
  rcases select_split hw (h.merging.inOrder hw) with ⟨hsel,hnil⟩ | ⟨l,a,as,r,hrests,hsel,-,-⟩
  · rw [hsel]
    exact ends_pure (hdone hnil)
  -- the inputs before the selected one, the selected one and those behind it
  obtain ⟨L,R',rfl,hL,hR'⟩ := map_eq_append_iff.mp hrests
  obtain ⟨i,R,rfl,hi,hR⟩ := map_eq_cons_iff.mp hR'
  have hlen : l.length=L.length := by rw [←hL,length_map]
  have hmem : i∈L++i::R := by simp
  have hready := hheads.ready i hmem
  have ha : a∈src.values := h.merging.mem hmem a (by rw [hi]; exact mem_cons_self)
  have hmerge : mergeLists before (sortKey nfc) ((L++i::R).map Input.rest)=
      a::mergeLists before (sortKey nfc) (l++as::r) := by
    rw [hrests,mergeLists,mergeSteps_cons (hrests ▸ hsel)]
    rfl
  have hhead : s.vars.heads[L.length]?.join=some (Item.restored nfc a) := by
    rw [hheads.heads,map_append,map_cons,List.getElem?_append_right
      (by rw [length_map]),length_map,Nat.sub_self]
    show i.rest.head?.map (Item.restored nfc)=_
    rw [hi]
    rfl
  rw [hsel,hlen]
  dsimp only
  rw [hhead]
  dsimp only
  have hkey : (Item.restored nfc a).key=sortKey nfc a := rfl
  rw [hkey]
  refine Steps.Ends.bind (sortableSize_ends (hsort.small a ha) ?_)
  refine Steps.Ends.bind (writeCrowded_ends hsort hw h hmerge fun s₁ outs₁ pend₁ h₁ hh₁ hroom => ?_)
  refine Steps.Ends.bind (ends_assign ?_)
  let i' : Input := ⟨i.run,⟨i.position.batch,i.position.offset+1⟩,as⟩
  have hstands' : i'.Stands nfc p := hready.2 a as hi
  have hmodify : (s₁.vars.cursor.positions.modify L.length fun q => { q with offset := q.offset+1 })=
      (L++i'::R).map Input.position := by
    rw [h₁.cursor,List.modify_eq_set_getElem?]
    simp [i']
  set s₂ : Attempt Retained Variables := { s₁ with vars := { s₁.vars with
    pending := s₁.vars.pending++[Item.restored nfc a],
    bytes := s₁.vars.bytes+byteLength (sortKey nfc a), cursor := { s₁.vars.cursor with
      positions := s₁.vars.cursor.positions.modify L.length fun q =>
        { q with offset := q.offset+1 } } } } with hs₂
  have hcursor₂ : s₂.vars.cursor=⟨version,after,.merge,(runs nfc before src p).length,p,4*g,
      outs₁.length,(L++i'::R).map Input.position⟩ := by
    have hc : ∀ps,({ s₁.vars.cursor with positions := ps } : Cursor)=⟨version,after,.merge,
        (runs nfc before src p).length,p,4*g,outs₁.length,ps⟩ := fun ps => by rw [h₁.cursor]
    exact (hc _).trans (by rw [hmodify])
  have hpass₂ : s₂.vars.cursor.pass=p := by rw [hcursor₂]
  have hfirst₂ : s₂.vars.cursor.first=4*g := by rw [hcursor₂]
  have hrun₂ : (runs nfc before src s₂.vars.cursor.pass)[s₂.vars.cursor.first+L.length]?=
      some i'.run := by
    rw [hpass₂,hfirst₂]
    exact h₁.run (l := L) (r := R) (i := i) rfl
  have hdone₂ : PassDone nfc before src s₂.vars.cursor.pass s₂.retained := by
    rw [hpass₂]
    exact h₁.pass
  have hplaces₂ : s₂.vars.cursor.positions=(L++i'::R).map Input.position := by rw [hcursor₂]
  have hready₂ : i'.Stands nfc s₂.vars.cursor.pass := by
    rw [hpass₂]
    exact hstands'
  refine Steps.Ends.bind (refresh_ends hsort hfuel hrun₂ hdone₂ hplaces₂ hready₂
    fun position' hready' => ?_)
  rw [hpass₂] at hready'
  let i'' : Input := { i' with position := position' }
  have hrests'' : (L++i''::R).map Input.rest=l++as::r := by
    rw [map_append,map_cons,hL,hR]
  refine Steps.Ends.bind (ends_vars ?_)
  set s₃ : Attempt Retained Variables := { s₂ with vars := { s₂.vars with
    heads := s₂.vars.heads.set L.length (i'.head nfc), cursor := { s₂.vars.cursor with
      positions := (L++i''::R).map Input.position } } } with hs₃
  have hheads₃ : Headed nfc p (L++i''::R) s₃ := by
    refine ⟨?_,fun x hx => ?_⟩
    · show s₁.vars.heads.set L.length (i'.head nfc)=_
      rw [hh₁,hheads.heads]
      simp [i'',Input.head]
    · rcases mem_append.mp hx with hx | hx
      · exact hheads.ready x (mem_append_left _ hx)
      · rcases mem_cons.mp hx with rfl | hx
        · exact hready'
        · exact hheads.ready x (mem_append_right _ (mem_cons_of_mem _ hx))
  have hjoin : Joining nfc before version src kept uncut after p g (L++i''::R) outs₁
      (if (pend₁++[a]).length=8 ∨ 512000 ≤ ((pend₁++[a]).map (recordSize nfc)).sum then
        (pend₁++[a])::batches (recordSize nfc) 8 512000
          (mergeLists before (sortKey nfc) ((L++i''::R).map Input.rest))
        else batchesFrom (recordSize nfc) 8 512000 (pend₁++[a])
          ((pend₁++[a]).map (recordSize nfc)).sum
          (mergeLists before (sortKey nfc) ((L++i''::R).map Input.rest))) (pend₁++[a]) s₃ := by
    rw [hmerge,←hrests''] at h₁
    refine h₁.push hroom (by simp [i'',i']) (fun x hx => (hheads₃.ready x hx).1)
      (h₁.running.assign (v := s₃.vars) rfl) rfl ?_ rfl rfl
    show ({ s₂.vars.cursor with positions := (L++i''::R).map Input.position } : Cursor)=_
    rw [hcursor₂]
  have hless : ((L++i''::R).map Input.rest).flatten.length <
      ((L++i::R).map Input.rest).flatten.length := by
    rw [hrests'',hrests]
    simp
  have hfull : (s₃.vars.pending.length=8 ∨ 512000 ≤ s₃.vars.bytes) ↔ ((pend₁++[a]).length=8 ∨
      512000 ≤ ((pend₁++[a]).map (recordSize nfc)).sum) := by
    rw [hjoin.pending,hjoin.bytes,length_map]
  refine Steps.Ends.bind (ends_when (fun hf => ?_) fun hf => ?_)
  · rw [if_pos (hfull.mp hf)] at hjoin
    refine flushMerge_ends hsort hw hjoin fun s₄ h₄ hh₄ => ends_pure ?_
    exact hnext s₄ _ _ [] h₄ ⟨hh₄.trans hheads₃.heads,hheads₃.ready⟩ hless
  · rw [if_neg fun hc => hf (hfull.mpr hc)] at hjoin
    exact ends_pure (hnext s₃ _ _ _ hjoin hheads₃ hless)

end

section
variable {nfc : Nfc} {before : JsString → JsString → Bool} {version : Nat} {src : Source}
  {kept : TextTable} {yieldAtCheckpoint : Bool} {uncut : Prop} {s : Attempt Retained Variables}
  {after p g : Nat} {is : List Input} {outs left : List (List Json)} {pend : List Json}

theorem values_length (src : Source) : src.values.length=src.entries.length := length_map ..

theorem runs_length_le (p : Nat) : (runs nfc before src p).length ≤ src.entries.length+1 := by
  rw [runs,runsOf_length]
  induction p with
  | zero =>
    rw [segments,inputs]
    split
    · exact Nat.succ_le_succ (Nat.zero_le _)
    · have hlen := length_le_flatten (@batchesFrom_ne_nil _ (recordSize nfc) 8 512000 [] 0 src.values)
      rw [batchesFrom_flatten,nil_append,values_length] at hlen
      exact Nat.le_succ_of_le hlen
  | succ p ih =>
    rw [segments_length]
    omega

theorem runs_flatten_length (p : Nat) :
    (runs nfc before src p).flatten.length=src.entries.length := by
  have hall : ∀ss : List (List Json),(ss.map (sortBy before (sortKey nfc))).flatten.length=
      ss.flatten.length := by
    intro ss
    induction ss with
    | nil => rfl
    | cons b ss ih =>
      have hb : (sortBy before (sortKey nfc) b).length=b.length :=
        (perm_insertionSort _ b).length_eq
      rw [map_cons,flatten_cons,flatten_cons,length_append,length_append,ih,hb]
  rw [runs,runsOf,hall,segments_flatten,inputs_flatten,values_length]

theorem Merging.rest_length {d : Retained} (h : Merging nfc before src p g is outs left d) :
    (is.map Input.rest).flatten.length ≤ src.entries.length := by
  have hrests : ∀is : List Input,(∀i∈is,i.Stands nfc p) →
      (is.map Input.rest).flatten.length ≤ (is.map Input.run).flatten.length := by
    intro is his
    induction is with
    | nil => exact Nat.le_refl _
    | cons i is ih =>
      have hi := (his i mem_cons_self).sublist.length_le
      have := ih fun x hx => his x (mem_cons_of_mem _ hx)
      simp only [map_cons,flatten_cons,length_append]
      omega
  have hsplit : (runs nfc before src p).flatten=((runs nfc before src p).take (4*g)).flatten++
      ((group g (runs nfc before src p)).flatten++
        (((runs nfc before src p).drop (4*g)).drop 4).flatten) := by
    rw [group,←flatten_append,take_append_drop,←flatten_append,take_append_drop]
  have hle := hrests is h.stands
  have hlen := congrArg List.length hsplit
  rw [h.grouped] at hle
  rw [runs_flatten_length,length_append,length_append] at hlen
  omega

/-- Between two groups of a pass. -/
structure Grouping (nfc : Nfc) (before : JsString → JsString → Bool) (version : Nat) (src : Source)
    (kept : TextTable) (uncut : Prop) (s : Attempt Retained Variables) : Prop where
  running : Running nfc before version src kept uncut s
  place : InMerge nfc before src s.vars.cursor s.retained
  stage : s.vars.cursor.stage=.merge
  version : s.vars.cursor.sourceVersion=version

/-- The inputs of a group as its cursor has them, or at the start of their runs. -/
theorem Grouping.inputs (h : Grouping nfc before version src kept uncut s)
    (hlt : s.vars.cursor.first < s.vars.cursor.count) {v : Variables}
    (hv : v={ s.vars with
      cursor := if s.vars.cursor.positions=[] then { s.vars.cursor with
        positions := List.replicate (min 4 (s.vars.cursor.count-s.vars.cursor.first)) ⟨0,0⟩ }
        else s.vars.cursor, pending := [], bytes := 0, heads := v.heads }) :
    ∃g is outs,s.vars.cursor.first=4*g ∧
      Joining nfc before version src kept uncut s.vars.cursor.after s.vars.cursor.pass g is outs
        (batches (recordSize nfc) 8 512000
          (mergeLists before (sortKey nfc) (is.map Input.rest))) [] { s with vars := v } := by
  obtain ⟨g,hfirst⟩ := h.place.first
  have hdiv : s.vars.cursor.first/4=g := by omega
  have hcount := h.place.count
  have hwithin : 4*g < (runs nfc before src s.vars.cursor.pass).length := by
    rw [←hcount,←hfirst]
    exact hlt
  have hmany : 1 < (runs nfc before src s.vars.cursor.pass).length := by
    rw [←hcount]
    exact h.place.many
  have hwritten := h.place.written
  rw [hdiv] at hwritten
  have hcursor : ∀ps o,s.vars.cursor.outputBatch=o → ({ s.vars.cursor with positions := ps } : Cursor)=
      ⟨version,s.vars.cursor.after,.merge,(runs nfc before src s.vars.cursor.pass).length,
        s.vars.cursor.pass,4*g,o,ps⟩ := by
    intro ps o ho
    rw [←hcount,←hfirst,←ho,←h.version,←h.stage]
  have hordinal : v.ordinal=s.vars.ordinal := by rw [hv]
  rcases h.place.place with ⟨hnil,hzero⟩ | ⟨-,is,outs,hmerging,hpositions,houts⟩
  · let is : List Input := (group g (runs nfc before src s.vars.cursor.pass)).map
      fun run => ⟨run,⟨0,0⟩,run⟩
    have hrun : is.map Input.run=group g (runs nfc before src s.vars.cursor.pass) := by
      rw [map_map]
      exact map_id _
    have hrest : is.map Input.rest=group g (runs nfc before src s.vars.cursor.pass) := by
      rw [map_map]
      exact map_id _
    have hposition : is.map Input.position=
        List.replicate (min 4 (s.vars.cursor.count-s.vars.cursor.first)) ⟨0,0⟩ := by
      rw [map_map,hcount,hfirst,←group_length,eq_replicate_iff]
      refine ⟨length_map ..,fun b hb => ?_⟩
      obtain ⟨run,-,rfl⟩ := mem_map.mp hb
      rfl
    refine ⟨g,is,[],hfirst,h.running.assign hordinal,h.place.pass,hmany,hwithin,hwritten,
      ⟨hrun,fun i hi => ?_,?_,fun b l hb => by cases hb⟩,?_,by rw [hv]; rfl,by rw [hv]; rfl⟩
    · obtain ⟨run,-,rfl⟩ := mem_map.mp hi
      have hstart := behind_start (pieces nfc s.vars.cursor.pass run)
      rw [pieces_flatten] at hstart
      exact hstart
    · rw [hrest,nil_append]
    · rw [hv]
      show (if s.vars.cursor.positions=[] then _ else _)=_
      rw [if_pos hnil,hposition]
      exact hcursor _ 0 hzero
  · rw [hdiv] at hmerging
    have hne : s.vars.cursor.positions≠[] := by
      rw [hpositions]
      intro he
      have hnone := map_eq_nil_iff.mp he
      have hlen := congrArg List.length hmerging.grouped
      rw [hnone,group_length] at hlen
      simp only [map_nil,length_nil] at hlen
      omega
    refine ⟨g,is,outs,hfirst,h.running.assign hordinal,h.place.pass,hmany,hwithin,hwritten,
      hmerging,?_,by rw [hv]; rfl,by rw [hv]; rfl⟩
    rw [hv]
    show (if s.vars.cursor.positions=[] then _ else _)=_
    rw [if_neg hne,←hpositions]
    exact hcursor _ _ houts

/-- The heads of the group have been read. -/
theorem openGroup_ends (hsort : Sortable nfc src kept) {fuel : Nat} (hfuel : 1 < fuel)
    (h : Grouping nfc before version src kept uncut s)
    (hlt : s.vars.cursor.first < s.vars.cursor.count)
    {Q : Unit → Attempt Retained Variables → Prop}
    (hQ : ∀s' g is outs,s.vars.cursor.first=4*g →
      Joining nfc before version src kept uncut s.vars.cursor.after s.vars.cursor.pass g is outs
        (batches (recordSize nfc) 8 512000
          (mergeLists before (sortKey nfc) (is.map Input.rest))) [] s' →
      Headed nfc s.vars.cursor.pass is s' → Q () s') :
    (openGroup nfc fuel).Ends s Q
      (Halts nfc before version src kept yieldAtCheckpoint uncut) := by
  set p := s.vars.cursor.pass with hp
  set after := s.vars.cursor.after with hafter
  -- whichever branch is taken, the variables are those of `Grouping.inputs`
  have hopened : ∀{F : Unit → Attempt Retained Variables → Prop},
      (∀s₁,s₁={ s with vars := { s.vars with
        cursor := if s.vars.cursor.positions=[] then { s.vars.cursor with
          positions := List.replicate (min 4 (s.vars.cursor.count-s.vars.cursor.first)) ⟨0,0⟩ }
          else s.vars.cursor } } → F () s₁) →
      (Steps.when (s.vars.cursor.positions=[]) (assign fun v => { v with
        cursor := { v.cursor with
          positions := List.replicate (min 4 (s.vars.cursor.count-s.vars.cursor.first)) ⟨0,0⟩ } }) :
            Work Unit).Ends s F (Halts nfc before version src kept yieldAtCheckpoint uncut) := by
    intro F hF
    refine ends_when (fun he => ends_assign (hF _ ?_)) fun he => hF _ ?_
    · rw [if_pos he]
    · rw [if_neg he]
  refine Steps.Ends.bind (ends_vars ?_)
  refine Steps.Ends.bind (hopened fun s₁ hs₁ => ?_)
  refine Steps.Ends.bind (ends_assign ?_)
  obtain ⟨g,is,outs,hfirst,hjoin⟩ := h.inputs hlt (v := { s₁.vars with
    heads := List.replicate s₁.vars.cursor.positions.length none, pending := [], bytes := 0 })
    (by rw [hs₁])
  refine Steps.Ends.bind (ends_vars ?_)
  set s₂ : Attempt Retained Variables := { s₁ with vars := { s₁.vars with
    heads := List.replicate s₁.vars.cursor.positions.length none, pending := [], bytes := 0 } }
    with hs₂
  have hjoin₂ : Joining nfc before version src kept uncut after p g is outs
      (batches (recordSize nfc) 8 512000
        (mergeLists before (sortKey nfc) (is.map Input.rest))) [] s₂ := by
    have hsame : s₂={ s with vars := s₂.vars } := by
      rw [hs₂,hs₁]
    rw [hsame]
    exact hjoin
  have hlen : s₂.vars.cursor.positions.length=is.length := by
    rw [hjoin₂.cursor]
    exact length_map ..
  have hnone : s₂.vars.heads=List.replicate is.length none := by
    rw [←hlen]
  rw [hlen,range_eq_range']
  refine (ends_each (fun left s' => ∃done todo,left=List.range' done.length todo.length ∧
    Joining nfc before version src kept uncut after p g (done++todo) outs
      (batches (recordSize nfc) 8 512000
        (mergeLists before (sortKey nfc) ((done++todo).map Input.rest))) [] s' ∧
    s'.vars.heads=done.map (Input.head nfc)++List.replicate todo.length none ∧
    ∀i∈done,i.Ready nfc p) ?_ ⟨[],is,rfl,hjoin₂,hnone,fun i hi => by cases hi⟩).post ?_
  · rintro a rest s' ⟨done,todo,hleft,hj,hheads,hready⟩
    cases todo with
    | nil => cases hleft
    | cons i todo =>
      rw [length_cons,range'_succ] at hleft
      obtain ⟨rfl,rfl⟩ := List.cons.inj hleft
      have hc := hj.cursor
      have hpass' : s'.vars.cursor.pass=p := by rw [hc]
      have hfirst' : s'.vars.cursor.first=4*g := by rw [hc]
      have hrun' : (runs nfc before src s'.vars.cursor.pass)[s'.vars.cursor.first+done.length]?=
          some i.run := by
        rw [hpass',hfirst']
        exact hj.run (l := done) (r := todo) (i := i) rfl
      have hdone' : PassDone nfc before src s'.vars.cursor.pass s'.retained := by
        rw [hpass']
        exact hj.pass
      have hstands' : i.Stands nfc s'.vars.cursor.pass := by
        rw [hpass']
        exact hj.merging.stands i (by simp)
      have hplaces' : s'.vars.cursor.positions=(done++i::todo).map Input.position := by rw [hc]
      refine refresh_ends hsort hfuel hrun' hdone' hplaces' hstands' fun position' hready' => ?_
      rw [hpass'] at hready'
      let i' : Input := { i with position := position' }
      refine ⟨done++[i'],todo,?_,?_,?_,?_⟩
      · rw [length_append,length_singleton]
      · have hall : done++[i']++todo=done++i'::todo := by simp
        have hrests : (done++i'::todo).map Input.rest=(done++i::todo).map Input.rest := by
          simp [i']
        rw [hall,hrests]
        refine ⟨hj.running.assign (by rfl),hj.pass,hj.many,hj.within,hj.written,
          ⟨?_,fun x hx => ?_,hj.merging.output,hj.merging.written⟩,?_,hj.pending,hj.bytes⟩
        · rw [←hj.merging.grouped]
          simp [i']
        · rcases mem_append.mp hx with hx | hx
          · exact hj.merging.stands x (mem_append_left _ hx)
          · rcases mem_cons.mp hx with rfl | hx
            · exact hready'.1
            · exact hj.merging.stands x (mem_append_right _ (mem_cons_of_mem _ hx))
        · show ({ s'.vars.cursor with positions := (done++i'::todo).map Input.position } : Cursor)=_
          rw [hc]
      · show s'.vars.heads.set done.length (i.head nfc)=_
        rw [hheads]
        simp [i',Input.head,replicate_succ]
      · intro x hx
        rcases mem_append.mp hx with hx | hx
        · exact hready x hx
        · rw [mem_singleton.mp hx]
          exact hready'
  · rintro - s' ⟨done,todo,hleft,hj,hheads,hready⟩
    have htodo : todo=[] := by
      cases todo with
      | nil => rfl
      | cons i todo => cases hleft
    subst htodo
    simp only [append_nil,length_nil,replicate_zero] at hj hheads
    exact hQ s' g done outs hfirst hj ⟨hheads,hready⟩

end

section
variable {nfc : Nfc} {before : JsString → JsString → Bool} {version : Nat} {src : Source}
  {kept : TextTable} {yieldAtCheckpoint : Bool} {uncut : Prop} {s : Attempt Retained Variables}
  {p g : Nat}

theorem nextPass {d : Retained} (hpass : PassDone nfc before src p d)
    (hwritten : ∀r < g,HasRun nfc before src (p+1) r d)
    (hall : (runs nfc before src p).length ≤ 4*g) : PassDone nfc before src (p+1) d := by
  refine ⟨fun r => ?_,hpass.texts⟩
  rcases Nat.lt_or_ge r g with hlt | hge
  · exact hwritten r hlt
  · intro b l hl
    have hlen : (runs nfc before src (p+1)).length ≤ r := by
      rw [runs,runsOf_length] at hall ⊢
      rw [segments_length]
      omega
    rw [batchOf,List.getElem?_eq_none hlen] at hl
    cases hl

theorem Joining.hasRun {after : Nat} {is : List Input} {outs : List (List Json)}
    (h : Joining nfc before version src kept uncut after p g is outs [] [] s)
    (hw : StrictWeak before) {d : Retained} (hle : s.retained.Le d)
    (hend : d.batches (p+1) g outs.length=some (rowOf nfc [])) :
    HasRun nfc before src (p+1) g d := by
  have houtput := h.merging.output
  rw [append_nil] at houtput
  intro b l hl
  rw [nextRun_batchOf hw h.within houtput] at hl
  rcases Nat.lt_or_ge b outs.length with hlt | hge
  · rw [List.getElem?_append_left hlt] at hl
    exact hle.1 _ _ _ _ (h.merging.written b l hl)
  · obtain rfl : b=outs.length := by
      have hlt := (List.getElem?_eq_some_iff.mp hl).1
      rw [length_append,length_singleton] at hlt
      omega
    rw [List.getElem?_append_right (Nat.le_refl _),Nat.sub_self] at hl
    obtain rfl := Option.some.inj hl
    exact hend

/-- One turn of the loop over the groups: a run of the next pass is made. -/
theorem mergeGroup_ends (hsort : Sortable nfc src kept) (hw : StrictWeak before) {fuel : Nat}
    (hfuel : src.entries.length+1 < fuel) (h : Grouping nfc before version src kept uncut s)
    {Q : Unit ⊕ Unit → Attempt Retained Variables → Prop}
    (hdone : s.vars.cursor.count ≤ s.vars.cursor.first → Q (.inr ()) s)
    (hnext : ∀s',Grouping nfc before version src kept uncut s' →
      s'.vars.cursor.pass=s.vars.cursor.pass → s'.vars.cursor.count=s.vars.cursor.count →
      s.vars.cursor.first < s.vars.cursor.count →
      s'.vars.cursor.first=s.vars.cursor.first+4 → Q (.inl ()) s') :
    (mergeGroup nfc before yieldAtCheckpoint fuel ()).Ends s Q
      (Halts nfc before version src kept yieldAtCheckpoint uncut) := by
  refine Steps.Ends.bind (ends_vars ?_)
  refine ends_ite (fun hlt => ?_) fun hge => ends_pure (hdone (Nat.le_of_not_lt hge))
  have hfuel' : 1 < fuel := by omega
  refine Steps.Ends.bind (openGroup_ends hsort hfuel' h hlt fun s₁ g is outs hfirst h₁ hh₁ => ?_)
  have hcount : s.vars.cursor.count=(runs nfc before src s.vars.cursor.pass).length :=
    h.place.count
  set p := s.vars.cursor.pass with hp
  set after := s.vars.cursor.after with hafter
  -- the loop ends when nothing is left of the inputs
  refine Steps.Ends.bind ((ends_loop_witness (fun (w : List Input×List (List Json)×List Json)
      (_ : Unit) s' => Joining nfc before version src kept uncut after p g w.1 w.2.1
        (batchesFrom (recordSize nfc) 8 512000 w.2.2 (w.2.2.map (recordSize nfc)).sum
          (mergeLists before (sortKey nfc) (w.1.map Input.rest))) w.2.2 s' ∧ Headed nfc p w.1 s')
    (fun w => (w.1.map Input.rest).flatten.length) (R := fun _ s' => ∃is outs pend,
      Joining nfc before version src kept uncut after p g is outs
        (if pend=[] then [] else [pend]) pend s' ∧ (is.map Input.rest).flatten=[])
    (fun w a s' hI => ?_) (c := (is,outs,[])) ⟨h₁,hh₁⟩ ?_).post ?_)
  · obtain ⟨is,outs,pend⟩ := w
    refine mergeTurn_ends hsort hw hfuel' hI.1 hI.2 (fun hnil => ⟨is,outs,pend,?_,hnil⟩)
      fun s'' is' outs' pend' hj hh hlen => ⟨(is',outs',pend'),⟨hj,hh⟩,hlen⟩
    have hj := hI.1
    have hmerged : mergeLists before (sortKey nfc) (is.map Input.rest)=[] := by
      rw [mergeLists,mergeSteps_nil hnil]
      rfl
    dsimp only at hj
    rw [hmerged] at hj
    by_cases hpend : pend=[]
    · rw [if_pos hpend]
      subst hpend
      exact hj
    · rw [if_neg hpend]
      rwa [batchesFrom_last hpend] at hj
  · have hlen := h₁.merging.rest_length
    show (is.map Input.rest).flatten.length < fuel
    omega
  rintro - s₂ ⟨is₂,outs₂,pend₂,h₂,hnil₂⟩
  refine Steps.Ends.bind (ends_vars ?_)
  refine Steps.Ends.bind (writeLast_ends hsort hw h₂ hnil₂ fun s₃ outs₃ h₃ => ?_)
  have houtput := h₃.merging.output
  rw [append_nil] at houtput
  have hof := nextRun_batchOf hw h₃.within houtput
  have hend : batchOf nfc before src (p+1) g outs₃.length=some [] := by
    rw [hof]
    simp
  have hc := h₃.cursor
  refine Steps.Ends.bind (ends_vars ?_)
  rw [hc]
  dsimp only
  rw [Nat.mul_div_cancel_left g (by omega)]
  refine Steps.Ends.bind (writeBatch_ends hsort h₃.running hend .nil
    fun s₄ hr₄ hle₄ hv₄ hrow₄ => ?_)
  have hrun : HasRun nfc before src (p+1) g s₄.retained := h₃.hasRun hw hle₄ hrow₄
  let c : Cursor := ⟨version,after,.merge,(runs nfc before src p).length,p,4*g+4,0,[]⟩
  have hcursor : ({ s₄.vars with cursor := { s₄.vars.cursor with
      first := s₄.vars.cursor.first+4, outputBatch := 0, positions := [] } } : Variables)=
      { s₃.vars with cursor := c } := by
    rw [hv₄,hc]
  refine Steps.Ends.bind (ends_assign ?_)
  rw [hcursor]
  have hplace : InMerge nfc before src c s₄.retained := by
    refine ⟨h₃.pass.mono hle₄,h₃.many,rfl,⟨g+1,by show 4*g+4=_; omega⟩,fun r hr => ?_,
      .inl ⟨rfl,rfl⟩⟩
    have hr : r < (4*g+4)/4 := hr
    rcases Nat.lt_or_ge r g with hlt | hge
    · exact (h₃.written r hlt).mono hle₄
    · obtain rfl : r=g := by omega
      exact hrun
  have hr₄' := hr₄.assign (v := { s₃.vars with cursor := c }) (by rw [hv₄])
  refine Steps.Ends.bind (save_ends hr₄' hplace rfl fun s₅ hr₅ hle₅ hv₅ => ?_)
  have hplace₅ : Place nfc before src c s₅.retained :=
    Place.mono (d := s₄.retained) (show Place nfc before src c s₄.retained from hplace) hle₅
  have hc₅ : s₅.vars.cursor=c := by rw [hv₅]
  refine ends_pure (hnext s₅ ⟨hr₅,?_,?_,?_⟩ ?_ ?_ hlt ?_)
  · rw [hc₅]
    exact hplace₅
  · rw [hc₅]
  · rw [hc₅]
  · rw [hc₅]
  · rw [hc₅,hcount]
  · rw [hc₅,hfirst]

/-- Between two passes. -/
structure Passing (nfc : Nfc) (before : JsString → JsString → Bool) (version : Nat) (src : Source)
    (kept : TextTable) (uncut : Prop) (s : Attempt Retained Variables) : Prop where
  running : Running nfc before version src kept uncut s
  place : Place nfc before src s.vars.cursor s.retained
  stage : s.vars.cursor.stage≠.runs
  version : s.vars.cursor.sourceVersion=version

theorem Passing.cases (h : Passing nfc before version src kept uncut s) :
    s.vars.cursor.stage=.merge ∧ InMerge nfc before src s.vars.cursor s.retained ∨
      s.vars.cursor.stage=.complete ∧ Sorted nfc before src s.vars.cursor s.retained := by
  have hp := h.place
  rw [Place] at hp
  cases hs : s.vars.cursor.stage with
  | runs => exact absurd hs h.stage
  | merge =>
    rw [hs] at hp
    exact .inl ⟨rfl,hp⟩
  | complete =>
    rw [hs] at hp
    exact .inr ⟨rfl,hp⟩

/-- One turn of the loop over the passes: there are fewer runs behind it. -/
theorem mergePass_ends (hsort : Sortable nfc src kept) (hw : StrictWeak before)
    (h : Passing nfc before version src kept uncut s)
    {Q : Unit ⊕ Unit → Attempt Retained Variables → Prop}
    (hdone : s.vars.cursor.stage=.complete → Q (.inr ()) s)
    (hnext : ∀s',Passing nfc before version src kept uncut s' →
      s'.vars.cursor.count < s.vars.cursor.count → Q (.inl ()) s') :
    (mergePass nfc before yieldAtCheckpoint src.turns ()).Ends s Q
      (Halts nfc before version src kept yieldAtCheckpoint uncut) := by
  have hturns : src.entries.length+1 < src.turns := Nat.add_lt_add_left (by omega) _
  refine Steps.Ends.bind (ends_vars ?_)
  rcases h.cases with ⟨hstage,hmerge⟩ | ⟨hstage,hsorted⟩
  · refine ends_ite (fun _ => ?_) fun hno => absurd hmerge.many hno
    have hgrouping : Grouping nfc before version src kept uncut s :=
      ⟨h.running,hmerge,hstage,h.version⟩
    have hcount : s.vars.cursor.count ≤ src.entries.length+1 := by
      rw [hmerge.count]
      exact runs_length_le _
    refine Steps.Ends.bind ((ends_loop (fun _ s' => Grouping nfc before version src kept uncut s' ∧
        s'.vars.cursor.count=s.vars.cursor.count)
      (fun _ s' => s'.vars.cursor.count-s'.vars.cursor.first)
      (R := fun _ s' => Grouping nfc before version src kept uncut s' ∧
        s'.vars.cursor.count=s.vars.cursor.count ∧ s'.vars.cursor.count ≤ s'.vars.cursor.first)
      (fun a s' hI => ?_) ⟨hgrouping,rfl⟩ ?_).post ?_)
    · refine mergeGroup_ends hsort hw hturns hI.1 (fun hge => ⟨hI.1,hI.2,hge⟩)
        fun s'' hg _ hc hlt hf => ⟨⟨hg,hc.trans hI.2⟩,?_⟩
      rw [hc,hf]
      omega
    · show s.vars.cursor.count-s.vars.cursor.first < src.turns
      omega
    rintro - s₁ ⟨hg,hc,hge⟩
    obtain ⟨g,hfirst⟩ := hg.place.first
    have hdiv : s₁.vars.cursor.first/4=g := by omega
    have hwritten := hg.place.written
    rw [hdiv] at hwritten
    have hrunsOf := hg.place.count
    have hnextPass := nextPass hg.place.pass hwritten (by rw [←hrunsOf,←hfirst]; exact hge)
    have hnothing : s₁.vars.cursor.positions=[] ∧ s₁.vars.cursor.outputBatch=0 :=
      hg.place.place.resolve_right fun hx => absurd hx.1 (by omega)
    have hlen : (runs nfc before src (s₁.vars.cursor.pass+1)).length=
        (s₁.vars.cursor.count+3)/4 := by
      rw [hrunsOf,runs,runs,runsOf_length,runsOf_length,segments_length]
    have hmany := hg.place.many
    set c : Cursor := { s₁.vars.cursor with
      count := (s₁.vars.cursor.count+3)/4, pass := s₁.vars.cursor.pass+1, first := 0,
      stage := if (s₁.vars.cursor.count+3)/4=1 then .complete else s₁.vars.cursor.stage } with hcdef
    have hplace : Place nfc before src c s₁.retained := by
      rw [Place]
      by_cases hone : (s₁.vars.cursor.count+3)/4=1
      · have hstage₁ : c.stage=.complete := if_pos hone
        rw [hstage₁]
        exact ⟨hnextPass,hlen.trans hone,hone⟩
      · have hstage₁ : c.stage=.merge := (if_neg hone).trans hg.stage
        rw [hstage₁]
        exact ⟨hnextPass,by show 1 < (s₁.vars.cursor.count+3)/4; omega,hlen.symm,⟨0,rfl⟩,
          fun r hr => absurd hr (by simp [hcdef]),.inl hnothing⟩
    refine Steps.Ends.bind (ends_assign ?_)
    have hr₁ := hg.running.assign (v := { s₁.vars with cursor := c }) rfl
    refine Steps.Ends.bind (save_ends hr₁ hplace hg.version fun s₂ hr₂ hle₂ hv₂ => ?_)
    have hc₂ : s₂.vars.cursor=c := by rw [hv₂]
    refine ends_pure (hnext s₂ ⟨hr₂,?_,?_,?_⟩ ?_)
    · rw [hc₂]
      exact hplace.mono hle₂
    · rw [hc₂]
      show (if (s₁.vars.cursor.count+3)/4=1 then Stage.complete else s₁.vars.cursor.stage)≠.runs
      rw [hg.stage]
      split
      · exact fun h => by cases h
      · exact fun h => by cases h
    · rw [hc₂]
      exact hg.version
    · rw [hc₂,←hc]
      show (s₁.vars.cursor.count+3)/4 < s₁.vars.cursor.count
      omega
  · refine ends_ite (fun hmany => ?_) fun _ => ends_pure (hdone hstage)
    rw [hsorted.one] at hmany
    omega

theorem prepareRuns_ends (hsort : Sortable nfc src kept) (hw : StrictWeak before)
    (h : Running nfc before version src kept uncut s)
    (hcursor : s.vars.cursor=s.retained.cursor version) (hpending : s.vars.pending=[])
    (hbytes : s.vars.bytes=0) :
    (prepareRuns nfc before yieldAtCheckpoint src.turns version src).Ends s (fun pass s' =>
      Rests nfc before version src kept s'.retained ∧ PassDone nfc before src pass s'.retained ∧
        (runs nfc before src pass).length=1)
      (Halts nfc before version src kept yieldAtCheckpoint uncut) := by
  have hversion : s.vars.cursor.sourceVersion=version := by
    rw [hcursor]
    exact h.rests.version
  have hplace : Place nfc before src s.vars.cursor s.retained := by
    rw [hcursor]
    exact h.rests.place
  refine Steps.Ends.bind (ends_vars ?_)
  refine Steps.Ends.bind (ends_check (fun _ => ?_) fun hno =>
    absurd hversion (of_decide_eq_false hno))
  have hstaged : ∀{F : Unit → Attempt Retained Variables → Prop},
      (∀s',Passing nfc before version src kept uncut s' → F () s') →
      (Steps.when (s.vars.cursor.stage=.runs) (runsStage nfc before yieldAtCheckpoint src)).Ends s F
        (Halts nfc before version src kept yieldAtCheckpoint uncut) := by
    intro F hF
    refine ends_when (fun hs => ?_) fun hs => hF s ⟨h,hplace,hs,hversion⟩
    have hin : InRuns nfc before src s.vars.cursor s.retained := by
      rw [Place,hs] at hplace
      exact hplace
    exact runsStage_ends hsort h hin hs hversion hpending hbytes fun s' hr hp hne hv =>
      hF s' ⟨hr,hp,hne,hv⟩
  refine Steps.Ends.bind (hstaged fun s₁ h₁ => ?_)
  refine Steps.Ends.bind (ends_vars ?_)
  have hmerged : ∀{F : Unit → Attempt Retained Variables → Prop},
      (∀s',Passing nfc before version src kept uncut s' → s'.vars.cursor.stage=.complete →
        F () s') → (Steps.when (s₁.vars.cursor.stage=.merge)
          (loop src.turns (mergePass nfc before yieldAtCheckpoint src.turns) ())).Ends s₁ F
        (Halts nfc before version src kept yieldAtCheckpoint uncut) := by
    intro F hF
    refine ends_when (fun hs => ?_) fun hs => ?_
    · refine (ends_loop (fun _ s' => Passing nfc before version src kept uncut s')
        (fun _ s' => s'.vars.cursor.count) (R := fun _ s' =>
          Passing nfc before version src kept uncut s' ∧ s'.vars.cursor.stage=.complete)
        (fun a s' hI => ?_) h₁ ?_).post fun _ s' hs' => hF s' hs'.1 hs'.2
      · exact mergePass_ends hsort hw hI (fun hc => ⟨hI,hc⟩) fun s'' h'' hlt => ⟨h'',hlt⟩
      · rcases h₁.cases with ⟨-,hmerge⟩ | ⟨hc,-⟩
        · have hle := @runs_length_le nfc before src s₁.vars.cursor.pass
          rw [←hmerge.count] at hle
          show s₁.vars.cursor.count < src.entries.length+8
          omega
        · rw [hs] at hc
          cases hc
    · rcases h₁.cases with ⟨hm,-⟩ | ⟨hc,-⟩
      · exact absurd hm hs
      · exact hF s₁ h₁ hc
  refine Steps.Ends.bind (hmerged fun s₂ h₂ hcomplete => ?_)
  refine Steps.Ends.bind (ends_vars (ends_pure ?_))
  rcases h₂.cases with ⟨hm,-⟩ | ⟨-,hsorted⟩
  · rw [hcomplete] at hm
    cases hm
  · exact ⟨h₂.running.rests,hsorted.pass,hsorted.count⟩

end

end CardKeepr.Reconciliation.Sorting
