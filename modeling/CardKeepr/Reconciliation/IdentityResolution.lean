import CardKeepr.Reconciliation.IdentityHistory

namespace CardKeepr.Reconciliation.Identity

open Lib Shared List

variable (nfc : Nfc)
variable {d : IdentityCorrectionProposal} {k id card target printing : JsString}

structure CorrectionPin where
  games : List JsString
  decision_cutoff : Nat

/-- `pinnedCorrectionRows` -/
def pinnedCorrectionRows (pin : CorrectionPin) (rows : List CorrectionRow) : List CorrectionRow :=
  rows.filter fun r => decide (r.sequence ≤ pin.decision_cutoff) && pin.games.contains r.game

/-- The two reducer indexes; the last value set for a key is the one read. -/
structure Associations where
  merges : List (JsString × JsString)
  assignments : List (JsString × JsString)

inductive ResolverError where
  | decisionBytes | decisionAssociations | chainLinks | cycle
  deriving DecidableEq

def ResolverError.text : ResolverError → String
  | .decisionBytes => "reconciliation_capacity_exceeded: one correction decision exceeds 512000 metadata bytes."
  | .decisionAssociations => "reconciliation_capacity_exceeded: one correction decision has too many identity associations."
  | .chainLinks => "reconciliation_capacity_exceeded: one identity correction chain exceeds 32 links."
  | .cycle => "Retained identity correction cycle."

/-- `canonicalJson([card, printing])` -/
def associationKey (card printing : JsString) : JsString :=
  ((Json.arr [.str card,.str printing]).canonical nfc).print

/-- What a decision sets in `merges`. -/
def mergeAssociations (d : IdentityCorrectionProposal) : List (JsString × JsString) :=
  if d.entity_kind=.card ∧ d.action=.merge then
    d.source_ids.flatMap fun id => d.replacement_ids.head?.toList.map fun target => (id,target)
  else []

/-- What a decision sets in `assignments`. -/
def printingAssociations (d : IdentityCorrectionProposal) : List (JsString × JsString) :=
  if d.entity_kind=.card then d.source_ids.flatMap fun source =>
    d.printing_assignments.map fun e => (associationKey nfc source e.1,e.2)
  else []

def Associations.read (m : Associations) (d : IdentityCorrectionProposal) : Associations where
  merges := (mergeAssociations d).reverse++m.merges
  assignments := (printingAssociations nfc d).reverse++m.assignments

/-- The associations of a list of decisions. -/
def associationsOf (rows : List CorrectionRow) : Associations :=
  rows.foldl (fun m r => m.read nfc r.request) ⟨[],[]⟩

/-- The bounds that one decision is held to before its associations are read. -/
def decisionBound (d : IdentityCorrectionProposal) : Except ResolverError Unit := do
  demand (decide ((utf8 (d.json.canonical nfc).print).length ≤ 512000)) .decisionBytes
  demand (decide (d.entity_kind≠.card) ||
    decide (d.source_ids.length+d.source_ids.length*d.printing_assignments.length ≤ 500))
    .decisionAssociations

/-- The loop over the pinned rows. -/
def readAssociations : List CorrectionRow → Associations → Except ResolverError Associations
  | [],m => .ok m
  | r::rows,m => do
    decisionBound nfc r.request
    readAssociations rows (m.read nfc r.request)

def Associations.nextIdentity (m : Associations) (printing card : JsString) : Option JsString :=
  (m.assignments.lookup (associationKey nfc card printing)).or (m.merges.lookup card)

/-- The loop of `resolve`; `left` is what 32 leaves beside `visited.length`. -/
def resolveFrom (next : JsString → Option JsString) :
    Nat → List JsString → JsString → Except ResolverError JsString
  | left,visited,resolved =>
    match next resolved with
    | none => .ok resolved
    | some n =>
      if n=[] ∨ n=resolved then .ok resolved
      else match left with
        | 0 => .error .chainLinks
        | left+1 =>
          if n∈visited then .error .cycle
          else resolveFrom next left (visited++[resolved]) n

def Associations.resolve (m : Associations) (card printing : JsString) :
    Except ResolverError JsString :=
  resolveFrom (m.nextIdentity nfc printing) 32 [] card

def pinnedCardIdentityResolver (pin : CorrectionPin) (rows : List CorrectionRow)
    (card printing : JsString) : Except ResolverError JsString :=
  if pin.decision_cutoff=0 then .ok card
  else do
    let m ← readAssociations nfc (pinnedCorrectionRows pin rows) ⟨[],[]⟩
    m.resolve nfc card printing

variable {nfc} {category : Json → Except JsString Json} {catalogues : Set (Published nfc)}
  {rows : List CorrectionRow} {pin : CorrectionPin}

/-- The decision adds a resolution edge from `id` to `target`. -/
def CorrectionRow.Leads (r : CorrectionRow) (id target : JsString) : Prop :=
  r.request.entity_kind=.card ∧ id∈r.request.source_ids ∧
    (r.request.action=.merge ∧ target∈r.request.replacement_ids ∨
      ∃printing,(printing,target)∈r.request.printing_assignments)

variable {q r : CorrectionRow}

theorem mem_pinned : r∈pinnedCorrectionRows pin rows ↔
    r∈rows ∧ r.sequence ≤ pin.decision_cutoff ∧ r.game∈pin.games := by
  simp [pinnedCorrectionRows]

theorem pinned_game (hh : History catalogues rows)
    (hg : pin.games.length ≤ 1 ∨ KeepGames catalogues) (hq : q∈pinnedCorrectionRows pin rows)
    (hr : r∈pinnedCorrectionRows pin rows) (hqa : q.request.action≠.assign)
    (hra : r.request.action≠.assign) (hqi : id∈q.request.source_ids ∨ id∈q.request.replacement_ids)
    (hri : id∈r.request.source_ids ∨ id∈r.request.replacement_ids) : q.game=r.game := by
  obtain ⟨hqm,-,hqg⟩ := mem_pinned.mp hq
  obtain ⟨hrm,-,hrg⟩ := mem_pinned.mp hr
  rcases hg with hg | ⟨owner,howner⟩
  · match hp : pin.games,hg with
    | [],_ => rw [hp] at hqg; cases hqg
    | [g],_ =>
      rw [hp] at hqg hrg
      rw [mem_singleton.mp hqg,mem_singleton.mp hrg]
  · obtain ⟨P,hP,d,hd,he⟩ := (hh.admitted q hqm).published hqa id hqi
    obtain ⟨Q,hQ,e,he',hf⟩ := (hh.admitted r hrm).published hra id hri
    rw [howner P hP _ id d _ hd he,howner Q hQ _ id e _ he' hf]

theorem retired_before (hh : History catalogues rows)
    (hg : pin.games.length ≤ 1 ∨ KeepGames catalogues) (hq : q∈pinnedCorrectionRows pin rows)
    (hr : r∈pinnedCorrectionRows pin rows) (hqr : q.Retires id) (hra : r.request.action≠.assign)
    (hri : id∈r.request.source_ids ∨ id∈r.request.replacement_ids) : r.sequence ≤ q.sequence := by
  by_contra hlt
  have hgame := pinned_game hh hg hq hr hqr.1 hra (.inl hqr.2) hri
  exact (hh.admitted r (mem_pinned.mp hr).1).fresh hra q (mem_pinned.mp hq).1 (by omega) hgame
    id hri hqr.2

theorem sequence_inj (hh : History catalogues rows) (hq : q∈rows)
    (hr : r∈rows) (h : q.sequence=r.sequence) : q=r := by
  have hn : (rows.map (·.sequence)).Nodup :=
    pairwise_map.mpr (hh.sorted.imp fun hlt => Nat.ne_of_lt hlt)
  exact inj_on_of_nodup_map hn hq hr h

theorem retired_once (hh : History catalogues rows)
    (hg : pin.games.length ≤ 1 ∨ KeepGames catalogues)
    (hq : q∈pinnedCorrectionRows pin rows) (hr : r∈pinnedCorrectionRows pin rows) (hqr : q.Retires id) (hrr : r.Retires id) : q=r := by
  have h1 := retired_before hh hg hq hr hqr hrr.1 (.inl hrr.2)
  have h2 := retired_before hh hg hr hq hrr hqr.1 (.inl hqr.2)
  exact sequence_inj hh (mem_pinned.mp hq).1 (mem_pinned.mp hr).1 (le_antisymm h2 h1)

theorem leads_later (hh : History catalogues rows)
    (hg : pin.games.length ≤ 1 ∨ KeepGames catalogues) (hr : r∈pinnedCorrectionRows pin rows)
    (h : r.Leads id target) : ∃q∈pinnedCorrectionRows pin rows,q.sequence ≤ r.sequence ∧ q.Retires
    id ∧ ∀p∈pinnedCorrectionRows pin rows,p.Retires target → q.sequence < p.sequence := by
  obtain ⟨-,hs,ht⟩ := h
  obtain ⟨hrm,hrc,hrg⟩ := mem_pinned.mp hr
  have ha := hh.admitted r hrm
  have ht : target∈r.request.replacement_ids := by
    rcases ht with ht | ⟨printing,ht⟩
    · exact ht.2
    · exact ha.targets _ ht
  -- the decision that took `id` out with `target` among its replacements
  have hq : ∃q∈pinnedCorrectionRows pin rows,q.sequence ≤ r.sequence ∧ q.Retires id ∧
      target∈q.request.replacement_ids := by
    by_cases hra : r.request.action=.assign
    · obtain ⟨q,hqm,hlt,hqg,hqa,hqs,hqr⟩ := ha.assigned hra
      refine ⟨q,mem_pinned.mpr ⟨hqm,by omega,hqg ▸ hrg⟩,hlt.le,⟨?_,hqs id hs⟩,hqr target ht⟩
      rw [hqa]
      decide
    · exact ⟨r,hr,le_rfl,⟨hra,hs⟩,ht⟩
  obtain ⟨q,hqp,hle,hqr,hqt⟩ := hq
  refine ⟨q,hqp,hle,hqr,fun p hp hpr => ?_⟩
  have h1 := retired_before hh hg hp hqp hpr hqr.1 (.inr hqt)
  refine lt_of_le_of_ne h1 fun heq => ?_
  obtain rfl := sequence_inj hh (mem_pinned.mp hqp).1 (mem_pinned.mp hp).1 heq
  exact (hh.admitted q (mem_pinned.mp hqp).1).disjoint target hpr.2 hqt

instance (r : CorrectionRow) (id : JsString) : Decidable (r.Retires id) :=
  inferInstanceAs (Decidable (_ ∧ _))

/-- When the identity is retired; past all decisions when it is not. -/
def retiredAt (decisions : List CorrectionRow) (id : JsString) : Nat :=
  ((decisions.find? fun r => decide (r.Retires id)).map (·.sequence)).getD
    (decisionCutoff decisions+1)

variable {decisions : List CorrectionRow}

theorem sequence_le_cutoff (h : r∈decisions) : r.sequence ≤ decisionCutoff decisions := by
  induction decisions with
  | nil => cases h
  | cons q qs ih =>
    change _ ≤ max q.sequence (decisionCutoff qs)
    rcases mem_cons.mp h with h | h
    · rw [h]
      exact le_max_left _ _
    · exact (ih h).trans (le_max_right _ _)

theorem retiredAt_cases (decisions : List CorrectionRow) (id : JsString) :
    (∃r∈decisions,r.Retires id ∧ retiredAt decisions id=r.sequence) ∨
      (∀r∈decisions,¬r.Retires id) ∧ retiredAt decisions id=decisionCutoff decisions+1 := by
  rw [retiredAt]
  cases h : decisions.find? fun r => decide (r.Retires id) with
  | none =>
    refine .inr ⟨fun r hr => ?_,rfl⟩
    simpa using List.find?_eq_none.mp h r hr
  | some r =>
    exact .inl ⟨r,List.mem_of_find?_eq_some h,by simpa using List.find?_some h,rfl⟩

theorem retiredAt_le (decisions : List CorrectionRow) (id : JsString) :
    retiredAt decisions id ≤ decisionCutoff decisions+1 := by
  rcases retiredAt_cases decisions id with ⟨r,hr,-,he⟩ | ⟨-,he⟩
  · have := sequence_le_cutoff hr
    omega
  · exact he.le

theorem retiredAt_leads (hh : History catalogues rows)
    (hg : pin.games.length ≤ 1 ∨ KeepGames catalogues) (hr : r∈pinnedCorrectionRows pin rows)
    (h : r.Leads id target) : retiredAt (pinnedCorrectionRows pin rows) id < retiredAt
    (pinnedCorrectionRows pin rows) target := by
  obtain ⟨q,hq,-,hqr,hlater⟩ := leads_later hh hg hr h
  have hid : retiredAt (pinnedCorrectionRows pin rows) id=q.sequence := by
    rcases retiredAt_cases (pinnedCorrectionRows pin rows) id with ⟨p,hp,hpr,he⟩ | ⟨hn,-⟩
    · rw [he,retired_once hh hg hp hq hpr hqr]
    · exact absurd hqr (hn q hq)
  rw [hid]
  rcases retiredAt_cases (pinnedCorrectionRows pin rows) target with ⟨p,hp,hpr,he⟩ | ⟨-,he⟩
  · rw [he]
    exact hlater p hp hpr
  · rw [he]
    have := sequence_le_cutoff hq
    omega

theorem associationKey_inj {card' printing' : JsString}
    (h : associationKey nfc card printing=associationKey nfc card' printing') :
    nfc.normalize card=nfc.normalize card' ∧ nfc.normalize printing=nfc.normalize printing' := by
  have hi : ∀a b : JsString,(Json.arr [.str a,.str b]).Integral := by
    intro a b
    refine (all_arr _).mpr fun v hv => ?_
    rcases mem_cons.mp hv with rfl | hv
    · trivial
    · rw [mem_singleton.mp hv]
      trivial
  have h := print_inj (canonical_integral nfc (hi _ _)) (canonical_integral nfc (hi _ _)) h
  rw [canonical_arr,canonical_arr] at h
  simp only [map_cons,map_nil,Json.arr.injEq,List.cons.injEq,and_true] at h
  exact ⟨Json.str.inj h.1,Json.str.inj h.2⟩

theorem mem_associationsOf (decisions : List CorrectionRow) :
    (∀e,e∈(associationsOf nfc decisions).merges ↔ ∃r∈decisions,e∈mergeAssociations r.request) ∧
    ∀e,e∈(associationsOf nfc decisions).assignments ↔
      ∃r∈decisions,e∈printingAssociations nfc r.request := by
  induction decisions using List.reverseRecOn with
  | nil => exact ⟨by simp [associationsOf],by simp [associationsOf]⟩
  | append_singleton rs r ih =>
    have h : associationsOf nfc (rs++[r])=(associationsOf nfc rs).read nfc r.request := by
      simp [associationsOf]
    rw [h]
    refine ⟨fun e => ?_,fun e => ?_⟩
    · simp only [Associations.read,mem_append,mem_reverse,ih.1,mem_singleton]
      grind
    · simp only [Associations.read,mem_append,mem_reverse,ih.2,mem_singleton]
      grind

theorem readAssociations_ok {m m' : Associations} (h : readAssociations nfc decisions m=.ok m') :
    m'=decisions.foldl (fun m r => m.read nfc r.request) m := by
  induction decisions generalizing m with
  | nil => exact (Except.ok.inj h).symm
  | cons r rs ih =>
    rw [readAssociations] at h
    obtain ⟨_,-,h⟩ := bind_ok h
    exact ih h

theorem readAssociations_error {m : Associations}
    {e : ResolverError} (h : readAssociations nfc decisions m=.error e) : e≠.cycle := by
  induction decisions generalizing m with
  | nil => cases h
  | cons r rs ih =>
    rw [readAssociations] at h
    cases hb : decisionBound nfc r.request with
    | ok _ =>
      rw [hb] at h
      exact ih h
    | error f =>
      rw [hb] at h
      rw [decisionBound,demand,demand] at hb
      obtain rfl : f=e := Except.error.inj h
      split at hb
      · change (if _ then _ else _)=_ at hb
        split at hb
        · cases hb
        · rw [←Except.error.inj hb]
          decide
      · rw [←Except.error.inj hb]
        decide

theorem mem_mergeAssociations : (id,target)∈mergeAssociations d ↔ d.entity_kind=.card ∧
    d.action=.merge ∧ id∈d.source_ids ∧ d.replacement_ids.head?=some target := by
  rw [mergeAssociations]
  split
  · rename_i h
    simp [h]
  · rename_i h
    grind

theorem mem_printingAssociations :
    (k,target)∈printingAssociations nfc d ↔ d.entity_kind=.card ∧ ∃source∈d.source_ids,
      ∃printing,(printing,target)∈d.printing_assignments ∧ k=associationKey nfc source printing := by
  rw [printingAssociations]
  split
  · rename_i h
    simp only [mem_flatMap,mem_map,Prod.mk.injEq,h,true_and]
    grind
  · rename_i h
    simp [h]

theorem lookup_mem {l : List (JsString × JsString)} {v : JsString}
    (h : l.lookup k=some v) : (k,v)∈l := by
  obtain ⟨l1,l2,rfl,-⟩ := lookup_eq_some_iff.mp h
  simp

theorem nextIdentity_leads (hh : History catalogues rows)
    (h : (associationsOf nfc (pinnedCorrectionRows pin rows)).nextIdentity nfc printing card=
      some target) :
    ∃r∈pinnedCorrectionRows pin rows,r.Leads (nfc.normalize card) target ∧
      target∈r.request.replacement_ids := by
  rw [Associations.nextIdentity] at h
  rcases Option.or_eq_some_iff.mp h with h | ⟨-,h⟩
  · obtain ⟨r,hr,hm⟩ := ((mem_associationsOf _).2 _).mp (lookup_mem h)
    obtain ⟨hk,source,hs,p,hp,he⟩ := mem_printingAssociations.mp hm
    have ha := hh.admitted r (mem_pinned.mp hr).1
    have hn := (associationKey_inj he).1
    rw [ha.normal source (.inl hs)] at hn
    exact ⟨r,hr,⟨hk,hn ▸ hs,.inr ⟨p,hp⟩⟩,ha.targets _ hp⟩
  · obtain ⟨r,hr,hm⟩ := ((mem_associationsOf _).1 _).mp (lookup_mem h)
    obtain ⟨hk,hact,hs,ht⟩ := mem_mergeAssociations.mp hm
    have ha := hh.admitted r (mem_pinned.mp hr).1
    have ht := List.mem_of_mem_head? ht
    rw [←ha.normal card (.inl hs)] at hs
    exact ⟨r,hr,⟨hk,hs,.inl ⟨hact,ht⟩⟩,ht⟩

theorem nextIdentity_ascends (hh : History catalogues rows)
    (hg : pin.games.length ≤ 1 ∨ KeepGames catalogues) (printing : JsString) :
    Ascends ((associationsOf nfc (pinnedCorrectionRows pin rows)).nextIdentity nfc printing)
      (fun card => retiredAt (pinnedCorrectionRows pin rows) (nfc.normalize card))
      (decisionCutoff (pinnedCorrectionRows pin rows)+1) where
  step := by
    intro card target h
    obtain ⟨r,hr,hl,ht⟩ := nextIdentity_leads hh h
    have hn := (hh.admitted r (mem_pinned.mp hr).1).normal target (.inr ht)
    rw [hn]
    exact retiredAt_leads hh hg hr hl
  bounded := fun card => retiredAt_le _ _

theorem nextIdentity_none (hh : History catalogues rows)
    (h : (associationsOf nfc (pinnedCorrectionRows pin rows)).nextIdentity nfc printing card=none) (hq : q∈pinnedCorrectionRows pin rows) (hk : q.request.entity_kind=.card)
    (hr : q.Retires card) : q.request.action=.split ∧
      ∀r∈pinnedCorrectionRows pin rows,r.request.entity_kind=.card → card∈r.request.source_ids →
        ∀e∈r.request.printing_assignments,nfc.normalize e.1≠nfc.normalize printing := by
  rw [Associations.nextIdentity] at h
  obtain ⟨h1,h2⟩ := Option.or_eq_none_iff.mp h
  constructor
  · cases hact : q.request.action with
    | split => rfl
    | assign => exact absurd hact hr.1
    | merge =>
      obtain ⟨-,target,ht⟩ := (hh.admitted q (mem_pinned.mp hq).1).merged hact
      have hm : (card,target)∈(associationsOf nfc (pinnedCorrectionRows pin rows)).merges :=
        ((mem_associationsOf _).1 _).mpr ⟨q,hq,mem_mergeAssociations.mpr
          ⟨hk,hact,hr.2,by rw [ht]; rfl⟩⟩
      have := lookup_eq_none_iff.mp h2 _ hm
      simp at this
  · intro r hrp hrk hrs e he hn
    have hkey : associationKey nfc card printing=associationKey nfc card e.1 := by
      simp only [associationKey,canonical_arr,map_cons,map_nil]
      change Json.print (.arr [.str _,.str (nfc.normalize printing)])=
        Json.print (.arr [.str _,.str (nfc.normalize e.1)])
      rw [hn]
    have hm : (associationKey nfc card printing,e.2)∈
        (associationsOf nfc (pinnedCorrectionRows pin rows)).assignments :=
      ((mem_associationsOf _).2 _).mpr ⟨r,hrp,mem_printingAssociations.mpr
        ⟨hrk,card,hrs,e.1,he,hkey⟩⟩
    have := lookup_eq_none_iff.mp h1 _ hm
    simp at this

theorem resolveFrom_follows {next : JsString → Option JsString} {rank : JsString → Nat} {top : Nat}
    (ha : Ascends next rank top) (hn : ∀a,next a≠some []) {n left : Nat} {a c : JsString}
    {visited : List JsString} (hf : Follows next n a c) (hc : next c=none)
    (hv : ∀v∈visited,rank v ≤ rank a) :
    resolveFrom next left visited a=if n ≤ left then .ok c else .error .chainLinks := by
  induction hf generalizing left visited with
  | here a =>
    rw [resolveFrom.eq_def]
    simp [hc]
  | @there n a b c hab _ ih =>
    have hlt := ha.step hab
    have hne : ¬(b=[] ∨ b=a) := by
      rintro (rfl | rfl)
      · exact hn a hab
      · exact lt_irrefl _ hlt
    rw [resolveFrom.eq_def]
    simp only [hab,if_neg hne]
    cases left with
    | zero => simp
    | succ left =>
      have hb : b∉visited := fun hm => absurd (hv b hm) (by omega)
      have hv' : ∀v∈visited++[a],rank v ≤ rank b := by
        intro v hm
        rcases mem_append.mp hm with hm | hm
        · exact (hv v hm).trans hlt.le
        · rw [mem_singleton.mp hm]
          exact hlt.le
      simp only [if_neg hb]
      rw [ih hc hv']
      simp

/-- Accepted corrections are acyclic: an identity is retired once, an edge leads to an identity
retired later or not at all, and every Card is resolved at the end of a finite chain. -/
theorem identity_corrections_acyclic (h : Accepted category catalogues rows) (pin : CorrectionPin)
    (hg : pin.games.length ≤ 1 ∨ KeepGames catalogues) :
    (∀q∈pinnedCorrectionRows pin rows,∀r∈pinnedCorrectionRows pin rows,∀id,
      q.Retires id → r.Retires id → q=r) ∧
    (∀r∈pinnedCorrectionRows pin rows,∀id target,r.Leads id target →
      ∃q∈pinnedCorrectionRows pin rows,q.sequence ≤ r.sequence ∧ q.Retires id ∧
        ∀p∈pinnedCorrectionRows pin rows,p.Retires target → q.sequence < p.sequence) ∧
    ∀card printing,pinnedCardIdentityResolver nfc pin rows card printing≠.error .cycle ∧
      ∃n reached,Follows ((associationsOf nfc (pinnedCorrectionRows pin rows)).nextIdentity nfc
          printing) n card reached ∧
        (associationsOf nfc (pinnedCorrectionRows pin rows)).nextIdentity nfc printing reached=none ∧
        (associationsOf nfc (pinnedCorrectionRows pin rows)).resolve nfc card printing=
          (if n ≤ 32 then .ok reached else .error .chainLinks) ∧
        ∀q∈pinnedCorrectionRows pin rows,q.request.entity_kind=.card → q.Retires reached →
          q.request.action=.split ∧
          ∀r∈pinnedCorrectionRows pin rows,r.request.entity_kind=.card →
            reached∈r.request.source_ids → ∀e∈r.request.printing_assignments,
              nfc.normalize e.1≠nfc.normalize printing := by
  have hh := h.history
  refine ⟨fun q hq r hr id => retired_once hh hg hq hr,fun r hr id target => leads_later hh hg hr,?_⟩
  intro card printing
  have ha := nextIdentity_ascends hh hg printing
  have hn : ∀a,(associationsOf nfc (pinnedCorrectionRows pin rows)).nextIdentity nfc printing a≠
      some [] := by
    intro a hs
    obtain ⟨r,hr,-,ht⟩ := nextIdentity_leads hh hs
    exact (hh.admitted r (mem_pinned.mp hr).1).named ht
  obtain ⟨n,reached,hf,hend,-⟩ := ha.reaches_end card
  have hres : (associationsOf nfc (pinnedCorrectionRows pin rows)).resolve nfc card printing=
      (if n ≤ 32 then .ok reached else .error .chainLinks) :=
    resolveFrom_follows ha hn hf hend (by simp)
  refine ⟨?_,n,reached,hf,hend,hres,fun q hq hk hr => nextIdentity_none hh hend hq hk hr⟩
  rw [pinnedCardIdentityResolver]
  split
  · exact fun hc => by cases hc
  · cases hread : readAssociations nfc (pinnedCorrectionRows pin rows) ⟨[],[]⟩ with
    | error e => exact fun hc => readAssociations_error hread (Except.error.inj hc)
    | ok m =>
      rw [readAssociations_ok hread]
      change Associations.resolve nfc (associationsOf nfc _) card printing≠_
      rw [hres]
      split
      · exact fun hc => by cases hc
      · exact fun hc => by cases hc

/-- ASCII texts are their own normal form. -/
def asciiNfc : Nfc := .asWritten

def sampleCatalogue : Published asciiNfc where
  current_revision_id := key "revision_1"
  entity := fun kind id => if kind=.card ∧ id∈[key "card_a",key "card_b",key "card_c"] then
    some ⟨80,.obj [(key "game",.str (key "magic")),
      (key "game_data",.obj [(key "profile",.str (key "magic@1"))])]⟩ else none
  printings := [(key "printing_p",key "card_a")]
  mapping := fun _ _ => none
  normal := fun _ => rfl

def sampleSplit : IdentityCorrectionProposal where
  game := key "magic"
  entity_kind := .card
  action := .split
  source_ids := [key "card_a"]
  replacement_ids := [key "card_b",key "card_c"]
  printing_assignments := [(key "printing_p",key "card_b")]
  expected_current_revision_id := key "revision_1"
  rationale := key "conflated"
  attestation := key "seen"

def sampleMerge : IdentityCorrectionProposal where
  game := key "magic"
  entity_kind := .card
  action := .merge
  source_ids := [key "card_b"]
  replacement_ids := [key "card_c"]
  printing_assignments := []
  expected_current_revision_id := key "revision_1"
  rationale := key "same design"
  attestation := key "seen"

def sampleRows : List CorrectionRow := [⟨1,key "correction_1",key "magic",retained asciiNfc sampleSplit⟩,
  ⟨2,key "correction_2",key "magic",retained asciiNfc sampleMerge⟩]

theorem sampleRows_accepted : Accepted (fun _ => .ok .null) {sampleCatalogue} sampleRows := by
  obtain ⟨r1,h1⟩ := ok_of_isOk (x := validateIdentityCorrection sampleCatalogue
    (fun _ => .ok .null) [] sampleSplit) (by decide +kernel)
  obtain ⟨r2,h2⟩ := ok_of_isOk (x := validateIdentityCorrection sampleCatalogue
    (fun _ => .ok .null) (sampleRows.take 1) sampleMerge) (by decide +kernel)
  have hs : Accepted (fun _ => .ok .null) {sampleCatalogue} (sampleRows.take 1) :=
    .decide .nil (Set.mem_singleton _) h1 Nat.one_pos (by simp)
  exact .decide hs (Set.mem_singleton _) h2 Nat.two_pos (by simp [sampleRows])

/-- The chain from the split Card through its merged replacement. -/
theorem identity_corrections_acyclic_split_merge :
    Accepted (fun _ => .ok .null) {sampleCatalogue} sampleRows ∧
    pinnedCardIdentityResolver asciiNfc ⟨[key "magic"],2⟩ sampleRows (key "card_a")
      (key "printing_p")≠.error .cycle :=
  ⟨sampleRows_accepted,
    ((identity_corrections_acyclic sampleRows_accepted ⟨[key "magic"],2⟩ (.inl (by decide))).2.2
      _ _).1⟩

end CardKeepr.Reconciliation.Identity
