import CardKeepr.Reconciliation.IdentityCorrections

namespace CardKeepr.Reconciliation.Identity

open Lib Shared List

variable {nfc : Nfc} (category : Json → Except JsString Json)
variable {game : JsString} {review : Review} {fuel after : Nat} {ids : List JsString}
  {p input : IdentityCorrectionProposal}

/-- Decision lists in which every decision was accepted against its predecessors and one of the
`catalogues` published over time. -/
inductive Accepted (catalogues : Set (Published nfc)) : List CorrectionRow → Prop
  | nil : Accepted catalogues []
  | decide {rows : List CorrectionRow} {published : Published nfc} {id : JsString}
      {input : IdentityCorrectionProposal} {review : Review} {sequence : Nat} :
      Accepted catalogues rows → published∈catalogues →
      validateIdentityCorrection published category rows input=.ok review →
      0 < sequence → (∀r∈rows,r.sequence < sequence) →
      Accepted catalogues (rows++[⟨sequence,id,input.game,retained nfc input⟩])

/-- The decision takes `id` out of the catalogue; an assignment only adds to an earlier split. -/
def CorrectionRow.Retires (r : CorrectionRow) (id : JsString) : Prop :=
  r.request.action≠.assign ∧ id∈r.request.source_ids

/-- An identity belongs to one game in all catalogues. -/
def KeepGames (catalogues : Set (Published nfc)) : Prop :=
  ∃owner : JsString → JsString,∀P∈catalogues,∀kind id d game,P.entity kind id=some d →
    entityGame P kind (unwrap d.value)=.ok (some game) → game=owner id

theorem proposal_ok {u : Unit} (h : proposal nfc p=.ok u) :
    goodIds p.source_ids=true ∧ goodIds p.replacement_ids=true ∧ goodSides p=true ∧
      ∀e∈p.printing_assignments,e.2∈p.replacement_ids := by
  rw [proposal] at h
  obtain ⟨_,-,h⟩ := bind_ok h
  obtain ⟨_,h1,h⟩ := bind_ok h
  obtain ⟨_,h2,h⟩ := bind_ok h
  obtain ⟨_,h3,-⟩ := bind_ok h
  obtain ⟨hs,hr⟩ := Bool.and_eq_true_iff.mp (demand_ok h1)
  refine ⟨hs,hr,demand_ok h2,fun e he => ?_⟩
  simpa using all_eq_true.mp (demand_ok h3) e he

theorem goodSides_disjoint (h : goodSides p=true) : ∀id∈p.source_ids,id∉p.replacement_ids := by
  intro id hs hr
  rw [goodSides,Bool.and_eq_true_iff] at h
  have h := h.1
  simp only [Bool.not_eq_true',any_eq_false,contains_eq_mem,decide_eq_true_eq] at h
  exact h id hs hr

theorem goodSides_one (h : goodSides p=true)
    (ha : p.action≠.split) : ∃target,p.replacement_ids=[target] := by
  rw [goodSides,if_neg ha,Bool.and_eq_true_iff] at h
  exact length_eq_one_iff.mp (beq_iff_eq.mp h.2)

theorem goodIds_nonempty (h : goodIds ids=true) : []∉ids := by
  simp only [goodIds,Bool.and_eq_true_iff] at h
  intro hn
  simpa using all_eq_true.mp h.1.2 [] hn

theorem reviewEntities_ok {P : Published nfc} {bytes : Nat} {entities : List (JsString × Json)}
    (h : reviewEntities P input bytes ids=.ok entities) : ∀id∈ids,∃d,P.entity input.entity_kind
    id=some d ∧ entityGame P input.entity_kind (unwrap d.value)=.ok (some input.game) := by
  induction ids generalizing bytes entities with
  | nil => simp
  | cons id ids ih =>
    rw [reviewEntities] at h
    split at h
    · cases h
    · rename_i row hrow
      obtain ⟨_,-,h⟩ := bind_ok h
      obtain ⟨game,hg,h⟩ := bind_ok h
      obtain ⟨_,hd,h⟩ := bind_ok h
      obtain ⟨rest,hr,-⟩ := bind_ok h
      have hgame := beq_iff_eq.mp (demand_ok hd)
      intro x hx
      rcases mem_cons.mp hx with hx' | hx'
      · exact ⟨row,hx' ▸ hrow,by rw [hg,hgame]⟩
      · exact ih hr x hx'

variable {rows : List CorrectionRow}

theorem mem_correctionHistory
    {r : CorrectionRow} (h : r∈correctionHistory rows game after) : r∈rows ∧ r.game=game := by
  have h := mem_filter.mp (mem_of_mem_take h)
  simp only [Bool.and_eq_true_iff,beq_iff_eq] at h
  exact ⟨h.1,h.2.1⟩

theorem mem_historyPages {page : List CorrectionRow} (h : page∈historyPages rows game fuel after) :
    ∀r∈page,r∈rows ∧ r.game=game := by
  induction fuel generalizing after with
  | zero => simp [historyPages] at h
  | succ fuel ih =>
    simp only [historyPages] at h
    split at h
    · rw [mem_singleton.mp h]
      exact fun r hr => mem_correctionHistory hr
    · split at h
      · rw [mem_singleton.mp h]
        exact fun r hr => mem_correctionHistory hr
      · rcases mem_cons.mp h with h | h
        · rw [h]
          exact fun r hr => mem_correctionHistory hr
        · exact ih h

theorem historyPages_complete (hs : rows.Pairwise fun a b => a.sequence < b.sequence)
    (hf : (rows.filter fun r => r.game==game && decide (after < r.sequence)).length < fuel) :
    ∀r∈rows,r.game=game → after < r.sequence → ∃page∈historyPages rows game fuel after,r∈page := by
  induction fuel generalizing after with
  | zero => omega
  | succ fuel ih =>
    intro r hr hg ha
    have hmem : r∈rows.filter fun r => r.game==game && decide (after < r.sequence) :=
      mem_filter.mpr ⟨hr,by simp [hg,ha]⟩
    simp only [historyPages]
    split
    · rename_i hn
      have hp := List.getLast?_eq_none_iff.mp hn
      rw [correctionHistory,take_eq_nil_iff] at hp
      rw [hp.resolve_left (by omega)] at hmem
      cases hmem
    · rename_i last hlast
      split
      · rename_i hl
        refine ⟨_,mem_singleton_self _,?_⟩
        rw [correctionHistory,length_take] at hl
        rw [correctionHistory,take_of_length_le (by omega)]
        exact hmem
      · have hlm := mem_of_mem_take (List.mem_of_getLast? hlast)
        have hla : after < last.sequence := by
          have := (mem_filter.mp hlm).2
          simp only [Bool.and_eq_true_iff,decide_eq_true_eq] at this
          exact this.2
        by_cases hp : r∈correctionHistory rows game after
        · exact ⟨_,mem_cons_self,hp⟩
        · have hlt : last.sequence < r.sequence := by
            -- what is not in the page stands behind all of it
            have hsub := hs.sublist (filter_sublist (p := fun r =>
              r.game==game && decide (after < r.sequence)))
            rw [←take_append_drop 100 (rows.filter _),pairwise_append] at hsub
            refine hsub.2.2 last (List.mem_of_getLast? hlast) r ?_
            rw [←take_append_drop 100 (rows.filter _),mem_append] at hmem
            exact hmem.resolve_left hp
          have heq : (rows.filter fun r => r.game==game && decide (last.sequence < r.sequence))=
              (rows.filter fun r => r.game==game && decide (after < r.sequence)).filter
                fun r => decide (last.sequence < r.sequence) := by
            rw [filter_filter]
            refine filter_congr fun x _ => ?_
            by_cases hx : last.sequence < x.sequence
            · simp [hx,hla.trans hx]
            · simp [hx]
          have hless : (rows.filter fun r => r.game==game &&
              decide (last.sequence < r.sequence)).length < fuel := by
            rw [heq]
            have := length_filter_lt_length_iff_exists (p := fun r : CorrectionRow =>
              decide (last.sequence < r.sequence)) |>.mpr ⟨last,hlm,by simp⟩
            omega
          obtain ⟨page,hpage,hrp⟩ := ih hless r hr hg hlt
          exact ⟨page,mem_cons_of_mem _ hpage,hrp⟩

theorem pagesOf_complete (hs : rows.Pairwise fun a b => a.sequence < b.sequence) {r : CorrectionRow}
    (hr : r∈rows) (hg : r.game=game) (hp : 0 < r.sequence) : ∃page∈pagesOf rows game,r∈page :=
  historyPages_complete hs (Nat.lt_succ_of_le (length_filter_le _ _)) r hr hg hp

/-- What an accepted decision keeps to, seen from the rows before it. -/
structure Admitted (catalogues : Set (Published nfc)) (rows : List CorrectionRow)
    (r : CorrectionRow) : Prop where
  normal : ∀id,id∈r.request.source_ids ∨ id∈r.request.replacement_ids → nfc.normalize id=id
  disjoint : ∀id∈r.request.source_ids,id∉r.request.replacement_ids
  targets : ∀e∈r.request.printing_assignments,e.2∈r.request.replacement_ids
  named : []∉r.request.replacement_ids
  merged : r.request.action=.merge → r.request.printing_assignments=[] ∧
    ∃target,r.request.replacement_ids=[target]
  fresh : r.request.action≠.assign → ∀q∈rows,q.sequence < r.sequence → q.game=r.game →
    ∀id,id∈r.request.source_ids ∨ id∈r.request.replacement_ids → id∉q.request.source_ids
  published : r.request.action≠.assign →
    ∀id,id∈r.request.source_ids ∨ id∈r.request.replacement_ids → ∃P∈catalogues,∃d,
      P.entity r.request.entity_kind id=some d ∧
      entityGame P r.request.entity_kind (unwrap d.value)=.ok (some r.game)
  assigned : r.request.action=.assign → ∃q∈rows,q.sequence < r.sequence ∧ q.game=r.game ∧
    q.request.action=.split ∧
    (∀id∈r.request.source_ids,id∈q.request.source_ids) ∧
    ∀id∈r.request.replacement_ids,id∈q.request.replacement_ids

theorem Admitted.append {catalogues : Set (Published nfc)}
    {r s : CorrectionRow} (h : Admitted catalogues rows r) (hs : r.sequence < s.sequence) :
    Admitted catalogues (rows++[s]) r where
  normal := h.normal
  disjoint := h.disjoint
  targets := h.targets
  named := h.named
  merged := h.merged
  fresh := by
    intro ha q hq hlt
    rcases mem_append.mp hq with hq | hq
    · exact h.fresh ha q hq hlt
    · rw [mem_singleton.mp hq] at hlt
      omega
  published := h.published
  assigned := by
    intro ha
    obtain ⟨q,hq,h⟩ := h.assigned ha
    exact ⟨q,mem_append_left _ hq,h⟩

theorem retained_assignment {e : JsString × JsString}
    (h : e∈(retained nfc p).printing_assignments) :
    ∃f∈p.printing_assignments,e=(nfc.normalize f.1,nfc.normalize f.2) := by
  obtain ⟨m,hm,he⟩ := mem_filterMap.mp h
  have hm := assignAll_mem ((perm_insertionSort _ _).mem_iff.mp hm)
  obtain ⟨n,hn,rfl⟩ := mem_map.mp ((sortedMembers_perm nfc _).mem_iff.mp hm)
  obtain ⟨f,hf,rfl⟩ := mem_map.mp hn
  exact ⟨f,hf,(Option.some.inj he).symm⟩

theorem map_normal (h : ∀id∈ids,nfc.normalize id=id) : ids.map nfc.normalize=ids := by
  conv_rhs => rw [←map_id ids]
  exact map_congr_left h

theorem namedSplit_mem {pages : List (List CorrectionRow)}
    {q : CorrectionRow} (h : namedSplit pages input=some q) : (∃page∈pages,q∈page) ∧
      q.request.action=.split ∧ q.request.source_ids.head?=input.source_ids.head? ∧
      ∃id,input.replacement_ids.head?=some id ∧ id∈q.request.replacement_ids := by
  rw [namedSplit] at h
  induction pages using List.reverseRecOn with
  | nil => cases h
  | append_singleton pages page ih =>
    rw [foldl_append,foldl_cons,foldl_nil] at h
    rcases Option.or_eq_some_iff.mp h with hf | ⟨-,hf⟩
    · have hq := List.find?_some hf
      simp only [Bool.and_eq_true_iff,decide_eq_true_eq,beq_iff_eq,Option.any_eq_true,
        contains_eq_mem] at hq
      exact ⟨⟨page,by simp,List.mem_of_find?_eq_some hf⟩,hq.1.1.1,hq.1.2,hq.2⟩
    · obtain ⟨⟨p,hp,hqp⟩,h⟩ := ih hf
      exact ⟨⟨p,mem_append_left _ hp,hqp⟩,h⟩

theorem validateIdentityChange_ok {P : Published nfc}
    (h : validateIdentityChange P category rows input=.ok review) :
    (∀id,id∈input.source_ids ∨ id∈input.replacement_ids → ∃d,P.entity input.entity_kind id=some d ∧
      entityGame P input.entity_kind (unwrap d.value)=.ok (some input.game)) ∧
    (∀page∈pagesOf rows input.game,∀q∈page,∀id,id∈input.source_ids ∨ id∈input.replacement_ids →
      id∉q.request.source_ids) ∧
    (input.action=.merge → input.printing_assignments=[]) := by
  rw [validateIdentityChange] at h
  obtain ⟨entities,h1,h⟩ := bind_ok h
  obtain ⟨_,h2,h⟩ := bind_ok h
  obtain ⟨_,-,h⟩ := bind_ok h
  obtain ⟨_,-,h⟩ := bind_ok h
  obtain ⟨_,-,h⟩ := bind_ok h
  obtain ⟨_,h3,-⟩ := bind_ok h
  refine ⟨fun id hid => reviewEntities_ok h1 id (mem_append.mpr hid),?_,?_⟩
  · intro page hp q hq id hid hs
    have h2 := demand_ok h2
    simp only [Bool.not_eq_true',any_eq_false,contains_eq_mem] at h2
    refine h2 page hp (any_eq_true.mpr ⟨q,hq,any_eq_true.mpr ⟨id,mem_append.mpr hid,?_⟩⟩)
    simpa using hs
  · intro ha
    simpa [ha] using demand_ok h3

theorem validateIdentityAssignment_ok {P : Published nfc}
    (h : validateIdentityAssignment P rows input=.ok review) : (∃source,input.source_ids=[source]) ∧
    (∃id d,input.replacement_ids.head?=some id ∧ P.entity .card id=some d) ∧ ∃q,namedSplit
    (pagesOf rows input.game) input=some q := by
  rw [validateIdentityAssignment] at h
  obtain ⟨_,h1,h⟩ := bind_ok h
  have h1 := demand_ok h1
  simp only [Bool.and_eq_true_iff,beq_iff_eq] at h1
  rw [validateAssignmentOf] at h
  split at h
  · cases h
  · rename_i q hq
    split at h
    · cases h
    · rename_i d hd
      obtain ⟨id,hid,hd⟩ := Option.bind_eq_some_iff.mp hd
      exact ⟨length_eq_one_iff.mp h1.1.1.2,⟨id,d,hid,hd⟩,q,hq⟩

/-- The rows are in the order of their sequence numbers, and each keeps to what it was admitted with. -/
structure History (catalogues : Set (Published nfc)) (rows : List CorrectionRow) : Prop where
  sorted : rows.Pairwise fun a b => a.sequence < b.sequence
  positive : ∀r∈rows,0 < r.sequence
  admitted : ∀r∈rows,Admitted catalogues rows r

theorem retained_normal (p : IdentityCorrectionProposal) : ∀id,id∈(retained nfc p).source_ids ∨
    id∈(retained nfc p).replacement_ids → nfc.normalize id=id := by
  rintro id (h | h)
  all_goals
    obtain ⟨raw,-,rfl⟩ := mem_map.mp h
    exact nfc.idempotent raw

theorem retained_sides (hp : proposal nfc input=.ok ())
    (hn : ∀id,id∈input.source_ids ∨ id∈input.replacement_ids → nfc.normalize id=id) :
    (retained nfc input).source_ids=input.source_ids ∧
    (retained nfc input).replacement_ids=input.replacement_ids ∧
    (∀id∈input.source_ids,id∉input.replacement_ids) ∧
    (∀e∈(retained nfc input).printing_assignments,e.2∈input.replacement_ids) ∧
    []∉input.replacement_ids := by
  obtain ⟨-,hr,hs,ht⟩ := proposal_ok hp
  refine ⟨map_normal fun id h => hn id (.inl h),map_normal fun id h => hn id (.inr h),
    goodSides_disjoint hs,?_,goodIds_nonempty hr⟩
  intro e he
  obtain ⟨f,hf,rfl⟩ := retained_assignment he
  have hf := ht f hf
  simpa only [hn f.2 (.inr hf)] using hf

theorem change_admitted {catalogues : Set (Published nfc)} {P : Published nfc}
    (hh : History catalogues rows) (hP : P∈catalogues) (hp : proposal nfc input=.ok ())
    (ha : input.action≠.assign) (h : validateIdentityChange P category rows input=.ok review)
    (sequence : Nat) (id : JsString) :
    Admitted catalogues (rows++[⟨sequence,id,input.game,retained nfc input⟩])
      ⟨sequence,id,input.game,retained nfc input⟩ := by
  obtain ⟨he,hf,hm⟩ := validateIdentityChange_ok category h
  have hn : ∀id,id∈input.source_ids ∨ id∈input.replacement_ids → nfc.normalize id=id := by
    intro id hid
    obtain ⟨d,hd,-⟩ := he id hid
    exact P.normal hd
  obtain ⟨h1,h2,h3,h4,h5⟩ := retained_sides hp hn
  constructor
  · exact retained_normal input
  · simpa only [h1,h2] using h3
  · simpa only [h2] using h4
  · simpa only [h2] using h5
  · intro hma
    refine ⟨eq_nil_iff_forall_not_mem.mpr fun e hme => ?_,?_⟩
    · obtain ⟨f,hf,-⟩ := retained_assignment hme
      rw [hm hma] at hf
      cases hf
    · obtain ⟨target,ht⟩ := goodSides_one (proposal_ok hp).2.2.1
        (by rw [show input.action=.merge from hma]; decide)
      exact ⟨target,by rw [h2,ht]⟩
  · intro _ q hq hlt hg id hid
    rcases mem_append.mp hq with hq | hq
    · obtain ⟨page,hpage,hqp⟩ := pagesOf_complete hh.sorted hq hg (hh.positive q hq)
      simp only [h1,h2] at hid
      exact hf page hpage q hqp id hid
    · rw [mem_singleton.mp hq] at hlt
      exact absurd hlt (lt_irrefl _)
  · intro _ id hid
    simp only [h1,h2] at hid
    exact ⟨P,hP,he id hid⟩
  · intro hc
    exact absurd hc ha

theorem assignment_admitted {catalogues : Set (Published nfc)} {P : Published nfc}
    (hh : History catalogues rows) (hp : proposal nfc input=.ok ())
    (ha : input.action=.assign) (h : validateIdentityAssignment P rows input=.ok review)
    (sequence : Nat) (id : JsString) (hseq : ∀r∈rows,r.sequence < sequence) :
    Admitted catalogues (rows++[⟨sequence,id,input.game,retained nfc input⟩])
      ⟨sequence,id,input.game,retained nfc input⟩ := by
  obtain ⟨⟨source,hs⟩,⟨target,d,ht,hd⟩,q,hq⟩ := validateIdentityAssignment_ok h
  obtain ⟨⟨page,hpage,hqp⟩,hqa,hqs,target',ht',hqr⟩ := namedSplit_mem hq
  obtain rfl : target=target' := Option.some.inj (ht.symm.trans ht')
  obtain ⟨hqm,hqg⟩ := mem_historyPages hpage q hqp
  have hr : input.replacement_ids=[target] := by
    obtain ⟨t,h⟩ := goodSides_one (proposal_ok hp).2.2.1 (by rw [ha]; decide)
    rw [h] at ht ⊢
    rw [Option.some.inj ht]
  have hsq : source∈q.request.source_ids := by
    rw [hs] at hqs
    exact List.mem_of_mem_head? hqs
  -- the split was retained in normal form, and the target is published
  have hn : ∀id,id∈input.source_ids ∨ id∈input.replacement_ids → nfc.normalize id=id := by
    rw [hs,hr]
    rintro id (hid | hid)
    · rw [mem_singleton.mp hid]
      exact (hh.admitted q hqm).normal source (.inl hsq)
    · rw [mem_singleton.mp hid]
      exact P.normal hd
  obtain ⟨h1,h2,h3,h4,h5⟩ := retained_sides hp hn
  constructor
  · exact retained_normal input
  · simpa only [h1,h2] using h3
  · simpa only [h2] using h4
  · simpa only [h2] using h5
  · intro hc
    exact absurd (hc.symm.trans ha) (by decide)
  · intro hc
    exact absurd ha hc
  · intro hc
    exact absurd ha hc
  · intro _
    refine ⟨q,mem_append_left _ hqm,hseq q hqm,hqg,hqa,?_,?_⟩
    · simpa only [h1,hs,mem_singleton,forall_eq] using hsq
    · simpa only [h2,hr,mem_singleton,forall_eq] using hqr

theorem Accepted.history {catalogues : Set (Published nfc)}
    (h : Accepted category catalogues rows) : History catalogues rows := by
  induction h with
  | nil => exact ⟨.nil,by simp,by simp⟩
  | @decide rows P id input review sequence _ hP hv hpos hseq ih =>
    refine ⟨?_,?_,?_⟩
    · refine pairwise_append.mpr ⟨ih.sorted,pairwise_singleton _ _,fun a ha b hb => ?_⟩
      rw [mem_singleton.mp hb]
      exact hseq a ha
    · intro r hr
      rcases mem_append.mp hr with hr | hr
      · exact ih.positive r hr
      · rw [mem_singleton.mp hr]
        exact hpos
    · intro r hr
      rcases mem_append.mp hr with hr | hr
      · exact (ih.admitted r hr).append (hseq r hr)
      · rw [mem_singleton.mp hr]
        rw [validateIdentityCorrection] at hv
        obtain ⟨_,hp,hv⟩ := bind_ok hv
        obtain ⟨_,-,hv⟩ := bind_ok hv
        split at hv
        · rename_i ha
          exact assignment_admitted ih hp ha hv sequence id hseq
        · rename_i ha
          exact change_admitted category ih hP hp ha hv sequence id

end CardKeepr.Reconciliation.Identity
