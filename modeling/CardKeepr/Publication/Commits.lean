import CardKeepr.Publication.Switch

namespace CardKeepr.Publication

open Lib Shared List

variable {s t : Store} {c : Candidate} {p : Operation} {at' now generation : Nat}
  {id revision composition predecessor : JsString}

/-- What a switch guard has read when it lets its batch pass. -/
structure Guarded (s : Store) (id : JsString) (generation : Nat) (predecessor : JsString)
    (p : Operation) (c : Candidate) : Prop where
  operation : s.operation id=some p
  generation : p.generation=generation
  active : p.state.isActive=true
  candidate : s.candidates p.candidate_id=some c
  head : s.heads c.supported_game=some p.expected_game_revision_id
  current : s.current=predecessor
  checkpoint : s.checkpoint predecessor=true

/-- Of a switch: its export is verified, its composition is the expected one. -/
structure Prepared (s : Store) (id predecessor composition : JsString) (p : Operation) : Prop where
  preparation : ∃a,s.preparations p.candidate_id=some a ∧ a.verified=true
  export' : ∃e,s.exports p.candidate_id=some e ∧ e.state=.verified
  rows : Store.sameRows (s.expectedRows id predecessor)
    (((s.compositions composition).getD []).map Store.gameRow)=true

theorem writable_true (h : s.writable id generation=true) :
    ∃p,s.operation id=some p ∧ p.generation=generation ∧ p.state.isActive=true := by
  obtain ⟨p,hp,hc⟩ := (Option.any_eq_true _ _).mp h
  rw [Bool.and_eq_true] at hc
  exact ⟨p,hp,of_decide_eq_true hc.1,hc.2⟩

theorem candidateReady_true {unchanged : Bool} (hp : s.operation id=some p)
    (h : s.candidateReady id unchanged=true) : ∃c,s.candidates p.candidate_id=some c ∧ s.heads
    c.supported_game=some p.expected_game_revision_id ∧
    (∃a,s.preparations p.candidate_id=some a ∧ a.verified=true) ∧
    (unchanged=false → ∃e,s.exports p.candidate_id=some e ∧ e.state=.verified) := by
  rw [Store.candidateReady,hp,Option.any_some] at h
  obtain ⟨c,hc,h⟩ := (Option.any_eq_true _ _).mp h
  simp only [Bool.and_eq_true] at h
  have hprep := h.1.1.1.1.1.1.1.1.2
  have hexp := h.1.1.1.1.1.1.1.2
  have hhead := h.1.1.1.1.1.1.1.1.1.1.2
  obtain ⟨a,ha,hv⟩ := (Option.any_eq_true _ _).mp hprep
  simp only [Bool.and_eq_true] at hv
  refine ⟨c,hc,of_decide_eq_true hhead,⟨a,ha,hv.2⟩,fun hu => ?_⟩
  rw [hu,if_neg Bool.false_ne_true] at hexp
  obtain ⟨e,he,hv⟩ := (Option.any_eq_true _ _).mp hexp
  simp only [Bool.and_eq_true] at hv
  exact ⟨e,he,of_decide_eq_true hv.1.1.2⟩

theorem switchGuard_ok {unchanged : Bool} {x : Unit}
    (h : s.switchGuard id generation predecessor composition now unchanged=.ok x) :
    ∃p c,Guarded s id generation predecessor p c ∧
      (unchanged=false → Prepared s id predecessor composition p) := by
  rw [Store.switchGuard] at h
  obtain ⟨_,hw,h⟩ := bind_ok h
  obtain ⟨_,-,h⟩ := bind_ok h
  obtain ⟨_,hc,h⟩ := bind_ok h
  obtain ⟨_,-,h⟩ := bind_ok h
  obtain ⟨_,hcur,h⟩ := bind_ok h
  obtain ⟨_,-,h⟩ := bind_ok h
  obtain ⟨_,hk,h⟩ := bind_ok h
  obtain ⟨_,-,h⟩ := bind_ok h
  obtain ⟨p,hp,hg,ha⟩ := writable_true (demand_ok hw)
  obtain ⟨c,hcand,hhead,hprep,hexp⟩ := candidateReady_true hp (demand_ok hc)
  refine ⟨p,c,⟨hp,hg,ha,hcand,hhead,of_decide_eq_true (demand_ok hcur),demand_ok hk⟩,fun hu => ?_⟩
  rw [hu,if_neg Bool.false_ne_true] at h
  obtain ⟨_,-,h⟩ := bind_ok h
  exact ⟨hprep,hexp hu,demand_ok h⟩

theorem sameRows_true {a b : List Store.CompositionRow} (h : Store.sameRows a b=true)
    (x : Store.CompositionRow) : x∈a ↔ x∈b := by
  rw [Store.sameRows,Bool.and_eq_true,all_eq_true,all_eq_true] at h
  exact ⟨fun hx => of_decide_eq_true (h.1 x hx),fun hx => of_decide_eq_true (h.2 x hx)⟩

/-- The revision under which a game of the composition is a member. -/
def memberRevision (s : Store) (p : Operation) (revision predecessor : JsString)
    (g : CompositionGame) : Option JsString :=
  if g.candidate_id=p.candidate_id then some revision
  else s.predecessorRevision predecessor g.supported_game

theorem newMembers_ok {games : List CompositionGame} {ms : List Member}
    (h : s.newMembers p revision predecessor games=.ok ms) (x : Member) :
    x∈ms ↔ ∃g∈games,∃v,memberRevision s p revision predecessor g=some v ∧
      x=⟨revision,g.supported_game,g.candidate_id,v,g.root_digest⟩ := by
  induction games generalizing ms with
  | nil =>
    rw [Store.newMembers,mapM_nil] at h
    obtain rfl := Except.ok.inj h
    constructor
    · intro hx
      cases hx
    · rintro ⟨g,hg,_⟩
      cases hg
  | cons g games ih =>
    rw [Store.newMembers,mapM_cons] at h
    obtain ⟨m,hm,h⟩ := bind_ok h
    obtain ⟨ns,hns,h⟩ := bind_ok h
    obtain rfl := Except.ok.inj h
    rw [←memberRevision] at hm
    cases hv : memberRevision s p revision predecessor g with
    | none =>
      rw [hv] at hm
      cases hm
    | some v =>
      rw [hv] at hm
      obtain rfl := Except.ok.inj hm
      rw [mem_cons,ih hns]
      constructor
      · intro hx
        rcases hx with rfl | ⟨g',hg',hx⟩
        · exact ⟨g,mem_cons_self,v,hv,rfl⟩
        · exact ⟨g',mem_cons_of_mem _ hg',hx⟩
      · rintro ⟨g',hg',v',hv',hx⟩
        rcases mem_cons.mp hg' with rfl | hg'
        · rw [hv] at hv'
          exact .inl (Option.some.inj hv' ▸ hx)
        · exact .inr ⟨g',hg',v',hv',hx⟩

theorem expectedRows_mem {s : Store} {id predecessor : JsString} {p : Operation} {c : Candidate}
    {a : Preparation} {e : ExportPreparation} (hp : s.operation id=some p)
    (hc : s.candidates p.candidate_id=some c) (ha : s.preparations p.candidate_id=some a)
    (he : s.exports p.candidate_id=some e) (hv : e.state=.verified) (x : Store.CompositionRow) :
    x∈s.expectedRows id predecessor ↔
      x=(c.supported_game,p.candidate_id,a.root_digest,e.root_digest) ∨
      ∃m∈s.members,m.catalogue_revision_id=predecessor ∧ m.supported_game≠c.supported_game ∧
        ∃f,s.exports m.candidate_id=some f ∧ f.state=.verified ∧
          x=(m.supported_game,m.candidate_id,some m.root_digest,f.root_digest) := by
  rw [Store.expectedRows,hp]
  simp only [hc,ha,he,hv,if_true,mem_append,mem_filterMap,mem_filter,
    Bool.and_eq_true,decide_eq_true_eq,mem_singleton]
  rw [or_comm]
  refine or_congr_right ?_
  constructor
  · rintro ⟨m,⟨hm,hr,hg⟩,hx⟩
    obtain ⟨f,hf,hx⟩ := Option.bind_eq_some_iff.mp hx
    split at hx
    · rename_i hfv
      exact ⟨m,hm,hr,hg,f,hf,hfv,(Option.some.inj hx).symm⟩
    · cases hx
  · rintro ⟨m,hm,hr,hg,f,hf,hfv,hx⟩
    refine ⟨m,⟨hm,hr,hg⟩,?_⟩
    rw [hf,hx]
    exact if_pos hfv

theorem predecessorRevision_of_mem (h : Consistent s) {m : Member} (hm : m∈s.members) :
    s.predecessorRevision m.catalogue_revision_id m.supported_game=some m.game_revision_id := by
  rw [Store.predecessorRevision]
  cases hf : s.members.find? fun n => decide (n.catalogue_revision_id=m.catalogue_revision_id ∧
      n.supported_game=m.supported_game) with
  | none =>
    have hno := List.find?_eq_none.mp hf m hm
    exact absurd (decide_eq_true ⟨rfl,rfl⟩) hno
  | some n =>
    have hn := List.find?_some hf
    have hk := of_decide_eq_true hn
    rw [h.keys n (List.mem_of_find?_eq_some hf) m hm hk.1 hk.2]
    rfl

/-- The new members are the candidate and, for the other games, the predecessor's. -/
theorem newMembers_taken {ms : List Member} (h : Consistent s)
    (hg : Guarded s id generation predecessor p c) (hp : Prepared s id predecessor composition p)
    (hm : s.newMembers p revision predecessor ((s.compositions composition).getD [])=.ok ms)
    (hun : ∀b∈s.publications,b.1≠p.candidate_id) :
    ∃a root,s.preparations p.candidate_id=some a ∧ a.verified=true ∧ a.root_digest=some root ∧
      (∃g∈(s.compositions composition).getD [],g.supported_game=c.supported_game ∧
        g.candidate_id=p.candidate_id ∧ g.root_digest=root) ∧
      ∀x,x∈ms ↔ x=⟨revision,c.supported_game,p.candidate_id,revision,root⟩ ∨
        (x.catalogue_revision_id=revision ∧ x.supported_game≠c.supported_game ∧
          { x with catalogue_revision_id := s.current }∈s.members) := by
  obtain ⟨a,ha,hverified⟩ := hp.preparation
  obtain ⟨e,he,hv⟩ := hp.export'
  have hexp := @expectedRows_mem s id predecessor p c _ _ hg.operation hg.candidate ha he hv
  have hrows := sameRows_true hp.rows
  -- a member of the predecessor is of another candidate and keeps its revision
  have hold : ∀g : CompositionGame,∀m∈s.members,m.catalogue_revision_id=predecessor →
      g.candidate_id=m.candidate_id → g.supported_game=m.supported_game →
      memberRevision s p revision predecessor g=some m.game_revision_id := by
    intro g m hmm hr hgc hgg
    obtain ⟨b,hb,hbc⟩ := h.bound m hmm
    have hne : g.candidate_id≠p.candidate_id := by
      rw [hgc,← hbc]
      exact hun b hb
    rw [memberRevision,if_neg hne,hgg,← hr]
    exact predecessorRevision_of_mem h hmm
  have hown : ∀g : CompositionGame,g.candidate_id=p.candidate_id →
      memberRevision s p revision predecessor g=some revision := fun g hgc => if_pos hgc
  have hrow := (hrows _).mp ((hexp _).mpr (.inl rfl))
  obtain ⟨g₀,hg₀,hrow⟩ := mem_map.mp hrow
  injection hrow with hgame hrow
  injection hrow with hcand hrow
  injection hrow with hroot hrow
  refine ⟨a,g₀.root_digest,ha,hverified,hroot.symm,⟨g₀,hg₀,hgame,hcand,rfl⟩,fun x => ?_⟩
  rw [newMembers_ok hm]
  constructor
  · rintro ⟨g,hgm,v,hvr,hx⟩
    have hin := (hexp _).mp ((hrows _).mpr (mem_map_of_mem hgm))
    rcases hin with hin | ⟨m,hmm,hr,hmg,f,-,-,hin⟩
    · injection hin with h1 hin
      injection hin with h2 hin
      injection hin with h3 hin
      rw [hown g h2] at hvr
      have h4 := Option.some.inj (h3.trans hroot.symm)
      obtain rfl := Option.some.inj hvr
      rw [hx,h1,h2,h4]
      exact .inl rfl
    · injection hin with h1 hin
      injection hin with h2 hin
      injection hin with h3 hin
      rw [hold g m hmm hr h2 h1] at hvr
      obtain rfl := Option.some.inj hvr
      have h4 := Option.some.inj h3
      refine .inr ⟨by rw [hx],by rw [hx,h1]; exact hmg,?_⟩
      rw [hx,h1,h2,h4,hg.current,← hr]
      exact hmm
  · intro hx
    rcases hx with rfl | ⟨hid,hxg,hxm⟩
    · exact ⟨g₀,hg₀,revision,hown g₀ hcand,by rw [hgame,hcand]⟩
    · rw [hg.current] at hxm
      obtain ⟨f,hf,hfv⟩ := h.exported _ hxm
      have hin := (hrows _).mp ((hexp _).mpr (.inr ⟨_,hxm,rfl,hxg,f,hf,hfv,rfl⟩))
      obtain ⟨g,hgm,hrow⟩ := mem_map.mp hin
      injection hrow with h1 hrow
      injection hrow with h2 hrow
      injection hrow with h3 hrow
      have h4 := Option.some.inj h3
      refine ⟨g,hgm,x.game_revision_id,hold g { x with catalogue_revision_id := predecessor } hxm rfl h2 h1,?_⟩
      rw [h1,h2,h4,← hid]

theorem revisionOf_ne_spine (h : id.length=48) : revisionOf id≠spine := by
  intro he
  have hl := congrArg List.length he
  rw [revisionOf,length_append,length_drop,h] at hl
  cases hl

theorem completePublication_kept (hok : s.completePublication id generation p c revision at'=.ok t)
    (hp : s.operation id=some p) (ha : p.state.isActive=true)
    (hc : s.candidates p.candidate_id=some c)
    (hnew : (∀b∈s.publications,b.1≠p.candidate_id) →
      Consistent { s with publications := s.publications++[(p.candidate_id,revision)] }) :
    Kept s t := by
  rw [Store.completePublication] at hok
  obtain ⟨_,hd,hok⟩ := bind_ok hok
  obtain ⟨_,-,hok⟩ := bind_ok hok
  have hun := demand_ok hd
  rw [Bool.not_eq_true',any_eq_false] at hun
  have hcons := hnew fun b hb hbc => hun b hb (decide_eq_true hbc)
  obtain rfl := Except.ok.inj hok
  refine Kept.of_operations (u := { s with
    publications := s.publications++[(p.candidate_id,revision)] }) ?_ rfl
  refine hcons.update rfl rfl rfl rfl rfl rfl ⟨fun {d x} hx => ?_,fun h => h⟩ rfl (fun q => ?_)
    fun q hq hid ht => ?_
  · change ∃c',(if d=p.candidate_id then some { c with state := .published } else s.candidates d)=
      some c' ∧ _
    by_cases hd : d=p.candidate_id
    · rw [hd,hc] at hx
      obtain rfl := Option.some.inj hx
      exact ⟨_,if_pos hd,rfl⟩
    · exact ⟨x,by rw [if_neg hd]; exact hx,rfl⟩
  · split <;> exact ⟨rfl,rfl⟩
  · have he := operation_unique hcons hp hq hid
    rw [he,active_not_terminal ha] at ht
    cases ht

theorem acceptUnchanged_kept (h : Consistent s)
    (hok : s.acceptUnchanged id generation predecessor composition now=.ok t) : Kept s t := by
  rw [Store.acceptUnchanged] at hok
  obtain ⟨_,hg,hok⟩ := bind_ok hok
  obtain ⟨p,c,hg,-⟩ := switchGuard_ok hg
  rw [hg.operation] at hok
  dsimp only at hok
  rw [hg.candidate] at hok
  refine completePublication_kept hok hg.operation hg.active hg.candidate fun hun => ?_
  refine ⟨h.linked,h.ids,h.composed,h.heads,?_,h.operations,h.lengths,h.spineless,h.rooted,h.keys,
    h.exported,fun m hm => ?_⟩
  · change (List.map Prod.fst (s.publications++[(p.candidate_id,predecessor)])).Nodup
    rw [map_append,nodup_append]
    refine ⟨h.publications,nodup_singleton _,fun a ha b hb => ?_⟩
    obtain ⟨q,hq,rfl⟩ := mem_map.mp ha
    rw [map_singleton,mem_singleton] at hb
    rw [hb]
    exact hun q hq
  · obtain ⟨b,hb,hbc⟩ := h.bound m hm
    exact ⟨b,mem_append_left _ hb,hbc⟩

theorem switch_kept (h : Consistent s)
    (hok : s.switch id generation predecessor composition now=.ok t) : Kept s t := by
  rw [Store.switch] at hok
  obtain ⟨_,hg,hok⟩ := bind_ok hok
  obtain ⟨p,c,hg,hprep⟩ := switchGuard_ok hg
  have hprep := hprep rfl
  rw [hg.operation] at hok
  dsimp only at hok
  rw [hg.candidate] at hok
  dsimp only at hok
  obtain ⟨_,hfresh,hok⟩ := bind_ok hok
  obtain ⟨_,-,hok⟩ := bind_ok hok
  obtain ⟨ms,hms,hok⟩ := bind_ok hok
  obtain ⟨_,-,hok⟩ := bind_ok hok
  have hfresh := demand_ok hfresh
  rw [Bool.not_eq_true',any_eq_false] at hfresh
  obtain ⟨hpm,hpid⟩ := operation_some hg.operation
  refine Kept.of_operations (completePublication_kept hok hg.operation hg.active hg.candidate fun hun => ?_) rfl
  obtain ⟨a,root,-,-,-,⟨g,hgm,hgame,hgc,hroot⟩,htaken⟩ := newMembers_taken h hg hprep hms hun
  refine (?_ : Switched s _ ⟨revisionOf id,c.ingestion_run_id,now,composition,predecessor,
    p.manifest_digest,some id⟩ c.supported_game p.candidate_id root ms).consistent h
  refine {
    revisions := rfl
    previous := hg.current.symm
    current := rfl
    members := rfl
    taken := htaken
    heads := ?_
    publications := rfl
    exports := rfl
    operations := rfl
    fresh := fun q hq hid => hfresh q hq (decide_eq_true (.inl hid))
    spineless := revisionOf_ne_spine (hpid ▸ h.lengths p hpm)
    unpublished := hun
    exported := hprep.export'
    operation := ⟨p,hpm,congrArg some hpid.symm,rfl⟩
    row := ⟨c,hg.candidate,rfl⟩
    composition := ?_
    candidates := rfl
    compositions := rfl }
  swap
  · cases hgs : s.compositions composition with
    | none =>
      rw [hgs] at hgm
      cases hgm
    | some gs =>
      rw [hgs] at hgm
      exact ⟨gs,rfl,g,hgm,hgame,hgc,hroot⟩
  funext g
  change (if g=c.supported_game then (s.heads g).map (fun _ => revisionOf id) else s.heads g)=
    if g=c.supported_game then some (revisionOf id) else s.heads g
  by_cases hgg : g=c.supported_game
  · rw [if_pos hgg,if_pos hgg,hgg,hg.head]
    rfl
  · rw [if_neg hgg,if_neg hgg]

/-- The candidate of the operation becomes a member of the new revision, with its own game and the
root digest of its verified preparation. -/
def Enters (s t : Store) (id : JsString) : Prop :=
  ∃p c a root,s.operation id=some p ∧ s.candidates p.candidate_id=some c ∧
    s.preparations p.candidate_id=some a ∧ a.verified=true ∧ a.root_digest=some root ∧
    ⟨revisionOf id,c.supported_game,p.candidate_id,revisionOf id,root⟩∈t.members

theorem completePublication_ok (hok : s.completePublication id generation p c revision at'=.ok t) :
    (∀b∈s.publications,b.1≠p.candidate_id) ∧ t.members=s.members := by
  rw [Store.completePublication] at hok
  obtain ⟨_,hd,hok⟩ := bind_ok hok
  obtain ⟨_,-,hok⟩ := bind_ok hok
  have hun := demand_ok hd
  rw [Bool.not_eq_true',any_eq_false] at hun
  obtain rfl := Except.ok.inj hok
  exact ⟨fun b hb hbc => hun b hb (decide_eq_true hbc),rfl⟩

theorem switch_enters (h : Consistent s)
    (hok : s.switch id generation predecessor composition now=.ok t) : Enters s t id := by
  rw [Store.switch] at hok
  obtain ⟨_,hg,hok⟩ := bind_ok hok
  obtain ⟨p,c,hg,hprep⟩ := switchGuard_ok hg
  rw [hg.operation] at hok
  dsimp only at hok
  rw [hg.candidate] at hok
  dsimp only at hok
  obtain ⟨_,-,hok⟩ := bind_ok hok
  obtain ⟨_,-,hok⟩ := bind_ok hok
  obtain ⟨ms,hms,hok⟩ := bind_ok hok
  obtain ⟨_,-,hok⟩ := bind_ok hok
  obtain ⟨hun,hmembers⟩ := completePublication_ok hok
  obtain ⟨a,root,ha,hverified,hroot,-,htaken⟩ := newMembers_taken h hg (hprep rfl) hms hun
  refine ⟨p,c,a,root,hg.operation,hg.candidate,ha,hverified,hroot,?_⟩
  rw [hmembers]
  exact mem_append_right _ ((htaken _).mpr (.inl rfl))

end CardKeepr.Publication
