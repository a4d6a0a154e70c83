import CardKeepr.Publication.Programs
import Mathlib.Data.List.Nodup

namespace CardKeepr.Publication

open Lib Shared List

variable {id : JsString} {f : Operation → Operation}

/-- Revisions, newest first, each naming the one before it, down to the empty catalogue. -/
def Linked : List Revision → JsString → Prop
  | [],current => current=spine
  | r::rs,current => r.id=current ∧ Linked rs r.expected_previous_revision_id

/-- The composition of a revision: the predecessor's members for every game other than that of its
operation's candidate, unchanged, and the candidate under the new revision, with the root digest of
the verified composition. -/
def Composed (s : Store) (r : Revision) : Prop :=
  ∃p∈s.operations,r.publication_operation_id=some p.id ∧ ∃c,s.candidates p.candidate_id=some c ∧
    ∃games,s.compositions r.content_digest=some games ∧ ∃g∈games,
      g.supported_game=c.supported_game ∧ g.candidate_id=p.candidate_id ∧ ∀x : Member,
      x.catalogue_revision_id=r.id → (x∈s.members ↔
        x=⟨r.id,c.supported_game,p.candidate_id,r.id,g.root_digest⟩ ∨
          (x.supported_game≠c.supported_game ∧
            { x with catalogue_revision_id := r.expected_previous_revision_id }∈s.members))

/-- Candidates keep their games, and compositions what they hold. -/
structure Held (s t : Store) : Prop where
  games : ∀{d : JsString} {c : Candidate},s.candidates d=some c →
    ∃c',t.candidates d=some c' ∧ c'.supported_game=c.supported_game
  compositions : ∀{d : JsString} {gs : List CompositionGame},s.compositions d=some gs →
    t.compositions d=some gs

theorem Held.same {s t : Store} (hc : t.candidates=s.candidates)
    (hg : t.compositions=s.compositions) : Held s t := by
  refine ⟨fun {d c} h => ⟨c,?_,rfl⟩,fun h => ?_⟩
  · rw [hc]
    exact h
  · rw [hg]
    exact h

theorem writtenCandidate_game {old new : Option Candidate} {c : Candidate} (h : old=some c) :
    ∃c',writtenCandidate old new=some c' ∧ c'.supported_game=c.supported_game := by
  rw [h]
  cases new with
  | none => exact ⟨c,rfl,rfl⟩
  | some n =>
    rw [writtenCandidate]
    split
    · rename_i hs
      exact ⟨n,rfl,(of_decide_eq_true hs).2.1⟩
    · exact ⟨c,rfl,rfl⟩

theorem surround_held (s : Store) (e : Surroundings) : Held s (s.surround e) :=
  ⟨fun h => writtenCandidate_game h,fun h => h⟩

theorem retainComposition_held (s : Store) (digest : JsString) (games : List CompositionGame) :
    Held s (s.retainComposition digest games) := by
  refine ⟨fun {d c} h => ⟨c,h,rfl⟩,fun {d gs} h => ?_⟩
  change (if d=digest then some ((s.compositions d).getD games) else s.compositions d)=some gs
  split
  · rw [h]
    rfl
  · exact h

structure Consistent (s : Store) : Prop where
  linked : Linked s.revisions s.current
  ids : (s.revisions.map Revision.id).Nodup
  composed : ∀r∈s.revisions,Composed s r
  heads : ∀m∈s.members,m.catalogue_revision_id=s.current →
    s.heads m.supported_game=some m.game_revision_id
  publications : (s.publications.map Prod.fst).Nodup
  operations : (s.operations.map Operation.id).Nodup
  lengths : ∀p∈s.operations,p.id.length=48
  spineless : ∀r∈s.revisions,r.id≠spine
  rooted : ∀m∈s.members,∃r∈s.revisions,r.id=m.catalogue_revision_id
  keys : ∀m∈s.members,∀n∈s.members,m.catalogue_revision_id=n.catalogue_revision_id →
    m.supported_game=n.supported_game → m=n
  exported : ∀m∈s.members,∃e,s.exports m.candidate_id=some e ∧ e.state=.verified
  bound : ∀m∈s.members,∃b∈s.publications,b.1=m.candidate_id

/-- Operations in a terminal state are as they were. -/
def Settled (s t : Store) : Prop :=
  ∀p∈s.operations,p.state.isTerminal=true → p∈t.operations

/-- What one step keeps. -/
structure Kept (s t : Store) : Prop where
  consistent : Consistent t
  settled : Settled s t

theorem Kept.refl {s : Store} (h : Consistent s) : Kept s s := ⟨h,fun _ hp _ => hp⟩

theorem Kept.of_operations {s t u : Store} (h : Kept u t) (ho : u.operations=s.operations) :
    Kept s t := ⟨h.consistent,fun p hp ht => h.settled p (ho ▸ hp) ht⟩

theorem Consistent.frame {s t : Store} (h : Consistent s) (hr : t.revisions=s.revisions)
    (hm : t.members=s.members) (hp : t.publications=s.publications) (hh : t.heads=s.heads)
    (hc : t.current=s.current) (he : t.exports=s.exports) (hk : Held s t) (ho : t.operations=s.operations.map f)
    (hf : ∀p,(f p).id=p.id ∧ (f p).candidate_id=p.candidate_id)
    (hterm : ∀p∈s.operations,p.state.isTerminal=true → f p=p) : Kept s t := by
  refine ⟨⟨?_,?_,?_,?_,?_,?_,?_,?_,?_,?_,?_,?_⟩,?_⟩
  · rw [hr,hc]
    exact h.linked
  · rw [hr]
    exact h.ids
  · rw [hr]
    intro r hrm
    obtain ⟨p,hpm,hid,c,hcand,games,hgs,g,hg,hgame,hgc,hx⟩ := h.composed r hrm
    obtain ⟨c',hc',hsame⟩ := hk.games hcand
    refine ⟨f p,?_,by rw [(hf p).1]; exact hid,c',by rw [(hf p).2]; exact hc',games,
      hk.compositions hgs,g,hg,hgame.trans hsame.symm,by rw [(hf p).2]; exact hgc,?_⟩
    · rw [ho]
      exact mem_map_of_mem hpm
    · rw [(hf p).2,hm,hsame]
      exact hx
  · rw [hm,hc,hh]
    exact h.heads
  · rw [hp]
    exact h.publications
  · rw [ho,map_map]
    have hid : Operation.id ∘ f=Operation.id := funext fun p => (hf p).1
    rw [hid]
    exact h.operations
  · rw [ho]
    intro p hpm
    obtain ⟨q,hq,rfl⟩ := mem_map.mp hpm
    rw [(hf q).1]
    exact h.lengths q hq
  · rw [hr]
    exact h.spineless
  · rw [hm,hr]
    exact h.rooted
  · rw [hm]
    exact h.keys
  · rw [hm,he]
    exact h.exported
  · rw [hm,hp]
    exact h.bound
  · intro p hpm ht
    rw [ho]
    exact mem_map.mpr ⟨p,hpm,hterm p hpm ht⟩

theorem frame_same {s t : Store} (h : Consistent s) (hr : t.revisions=s.revisions)
    (hm : t.members=s.members) (hp : t.publications=s.publications) (hh : t.heads=s.heads)
    (hc : t.current=s.current) (he : t.exports=s.exports) (hk : Held s t)
    (ho : t.operations=s.operations) : Kept s t :=
  h.frame hr hm hp hh hc he hk (f := fun p => p) (by rw [ho,map_id']) (fun _ => ⟨rfl,rfl⟩)
    fun _ _ _ => rfl

theorem active_not_terminal {x : OperationState} (h : x.isActive=true) : x.isTerminal=false := by
  cases x with
  | published => cases h
  | failed => cases h
  | _ => rfl

theorem operation_some {s : Store} {p : Operation} (h : s.operation id=some p) :
    p∈s.operations ∧ p.id=id := by
  rw [Store.operation] at h
  have hid := List.find?_some h
  exact ⟨List.mem_of_find?_eq_some h,of_decide_eq_true hid⟩

theorem operation_unique {s : Store} (h : Consistent s) {p q : Operation}
    (hp : s.operation id=some p) (hq : q∈s.operations) (hid : q.id=id) : q=p := by
  obtain ⟨hm,hpid⟩ := operation_some hp
  exact inj_on_of_nodup_map h.operations hq hm (hid.trans hpid.symm)

theorem Consistent.update {s t : Store} (h : Consistent s) (hr : t.revisions=s.revisions) (hm : t.members=s.members)
    (hp : t.publications=s.publications) (hh : t.heads=s.heads) (hc : t.current=s.current)
    (he : t.exports=s.exports) (hk : Held s t)
    (ho : t.operations=(s.updateOperation id f).operations)
    (hf : ∀p,(f p).id=p.id ∧ (f p).candidate_id=p.candidate_id)
    (hterm : ∀p∈s.operations,p.id=id → p.state.isTerminal=true → f p=p) : Kept s t := by
  refine h.frame hr hm hp hh hc he hk ho (fun p => ?_) fun p hpm ht => ?_
  · split
    · exact hf p
    · exact ⟨rfl,rfl⟩
  · split
    · rename_i hid
      exact hterm p hpm hid ht
    · rfl

theorem updateState_kept {s : Store} (h : Consistent s) (id : JsString) (generation : Nat)
    (state : OperationState) (code : Option JsString) :
    Kept s (s.updatePublicationState id generation state code) := by
  refine h.update rfl rfl rfl rfl rfl rfl (.same rfl rfl) rfl (fun p => ?_) fun p _ _ ht => ?_
  · split <;> exact ⟨rfl,rfl⟩
  · rw [if_neg]
    intro hc
    rw [active_not_terminal hc.2] at ht
    cases ht

theorem pauseSuccessor_kept {s : Store} (h : Consistent s) (id : JsString) (generation n : Nat)
    (next : JsString) : Kept s (s.pausePublicationSuccessor id generation n next) := by
  rw [Store.pausePublicationSuccessor]
  split
  · exact updateState_kept h id generation _ _
  · exact .refl h

theorem resume_kept {s t : Store} {generation at' : Nat} {a : Action}
    (h : Consistent s) (hok : s.resume id generation a at'=.ok t) : Kept s t := by
  rw [Store.resume] at hok
  obtain ⟨_,hd,hok⟩ := bind_ok hok
  obtain ⟨_,-,hok⟩ := bind_ok hok
  have hg := demand_ok hd
  obtain rfl := Except.ok.inj hok
  rw [Bool.and_eq_true,Bool.and_eq_true,Bool.and_eq_true] at hg
  obtain ⟨p,hp,hc⟩ := (Option.any_eq_true _ _).mp hg.1.1.1
  rw [Bool.and_eq_true,Bool.and_eq_true,Bool.not_eq_true'] at hc
  refine h.update rfl rfl rfl rfl rfl rfl (.same rfl rfl) rfl (fun q => ⟨rfl,rfl⟩) fun q hq hid ht => ?_
  rw [operation_unique h hp hq hid,hc.1.2] at ht
  cases ht

theorem approve_kept {s t : Store} {p : Operation} (h : Consistent s) (hlen : p.id.length=48)
    (hok : s.approve p=.ok t) : Kept s t := by
  rw [Store.approve] at hok
  obtain ⟨_,-,hok⟩ := bind_ok hok
  obtain ⟨_,hd,hok⟩ := bind_ok hok
  have hfresh := demand_ok hd
  rw [Bool.not_eq_true',any_eq_false] at hfresh
  obtain rfl := Except.ok.inj hok
  refine ⟨⟨h.linked,h.ids,?_,h.heads,h.publications,?_,?_,h.spineless,h.rooted,h.keys,h.exported,
    h.bound⟩,fun q hq _ => mem_append_left _ hq⟩
  · intro r hr
    obtain ⟨q,hq,hrest⟩ := h.composed r hr
    exact ⟨q,mem_append_left _ hq,hrest⟩
  · change (List.map Operation.id (s.operations++[p])).Nodup
    rw [map_append,nodup_append]
    refine ⟨h.operations,nodup_singleton _,fun a ha b hb => ?_⟩
    obtain ⟨q,hq,rfl⟩ := mem_map.mp ha
    rw [map_singleton,mem_singleton] at hb
    intro he
    exact hfresh q hq (decide_eq_true (.inl (he.trans hb)))
  · intro q hq
    rcases mem_append.mp hq with hq | hq
    · exact h.lengths q hq
    · exact mem_singleton.mp hq ▸ hlen

theorem exportUnit_kept {s : Store} (h : Consistent s) (c : JsString) (e : ExportPreparation) :
    Kept s (s.exportUnit c e) := by
  rw [Store.exportUnit]
  split
  · rename_i hprep
    refine ⟨⟨h.linked,h.ids,h.composed,h.heads,h.publications,h.operations,h.lengths,h.spineless,
      h.rooted,h.keys,?_,h.bound⟩,fun p hp _ => hp⟩
    intro m hm
    obtain ⟨old,hold,hver⟩ := h.exported m hm
    refine ⟨old,?_,hver⟩
    change (if m.candidate_id=c then some e else s.exports m.candidate_id)=some old
    rw [if_neg,hold]
    intro hc
    rw [← hc,hold] at hprep
    have hstate : old.state=.preparing := of_decide_eq_true hprep
    rw [hver] at hstate
    cases hstate
  · exact .refl h

/-- What a switch to revision `r` does to the catalogue. -/
structure Switched (s u : Store) (r : Revision) (game candidate root : JsString)
    (ms : List Member) : Prop where
  revisions : u.revisions=r::s.revisions
  previous : r.expected_previous_revision_id=s.current
  current : u.current=r.id
  members : u.members=s.members++ms
  taken : ∀x,x∈ms ↔ x=⟨r.id,game,candidate,r.id,root⟩ ∨ (x.catalogue_revision_id=r.id ∧
    x.supported_game≠game ∧ { x with catalogue_revision_id := s.current }∈s.members)
  heads : u.heads=fun g => if g=game then some r.id else s.heads g
  publications : u.publications=s.publications++[(candidate,r.id)]
  exports : u.exports=s.exports
  operations : u.operations=s.operations
  fresh : ∀q∈s.revisions,q.id≠r.id
  spineless : r.id≠spine
  unpublished : ∀b∈s.publications,b.1≠candidate
  exported : ∃e,s.exports candidate=some e ∧ e.state=.verified
  operation : ∃p∈s.operations,r.publication_operation_id=some p.id ∧ p.candidate_id=candidate
  row : ∃c,s.candidates candidate=some c ∧ c.supported_game=game
  composition : ∃games,s.compositions r.content_digest=some games ∧ ∃g∈games,
    g.supported_game=game ∧ g.candidate_id=candidate ∧ g.root_digest=root
  candidates : u.candidates=s.candidates
  compositions : u.compositions=s.compositions

theorem Linked.previous {rs : List Revision} {current : JsString} (h : Linked rs current) :
    ∀r∈rs,r.expected_previous_revision_id=spine ∨ ∃q∈rs,q.id=r.expected_previous_revision_id := by
  induction rs generalizing current with
  | nil =>
    intro r hr
    cases hr
  | cons a rs ih =>
    intro r hr
    rcases mem_cons.mp hr with rfl | hr
    · have htail := h.2
      cases rs with
      | nil => exact .inl htail
      | cons b rs => exact .inr ⟨b,mem_cons_of_mem _ mem_cons_self,htail.1⟩
    · rcases ih h.2 r hr with hp | ⟨q,hq,he⟩
      · exact .inl hp
      · exact .inr ⟨q,mem_cons_of_mem _ hq,he⟩

theorem Linked.current {rs : List Revision} {current : JsString} (h : Linked rs current) :
    current=spine ∨ ∃q∈rs,q.id=current := by
  cases rs with
  | nil => exact .inl h
  | cons a rs => exact .inr ⟨a,mem_cons_self,h.1⟩

namespace Switched

variable {s u : Store} {r : Revision} {game candidate root : JsString} {ms : List Member}
variable {m : Member}

theorem ne_id (h : Switched s u r game candidate root ms) {id : JsString}
    (hid : id=spine ∨ ∃q∈s.revisions,q.id=id) : id≠r.id := by
  rcases hid with rfl | ⟨q,hq,rfl⟩
  · exact Ne.symm h.spineless
  · exact h.fresh q hq

theorem old_ne (h : Switched s u r game candidate root ms) (hs : Consistent s)
    (hm : m∈s.members) : m.catalogue_revision_id≠r.id := h.ne_id (.inr (hs.rooted m hm))

theorem new_id (h : Switched s u r game candidate root ms) (hm : m∈ms) :
    m.catalogue_revision_id=r.id := by
  rcases (h.taken m).mp hm with rfl | ⟨hid,-⟩
  · rfl
  · exact hid

theorem mem_old (h : Switched s u r game candidate root ms)
    (hid : m.catalogue_revision_id≠r.id) : m∈u.members ↔ m∈s.members := by
  rw [h.members,mem_append]
  constructor
  · intro hm
    rcases hm with hm | hm
    · exact hm
    · exact absurd (h.new_id hm) hid
  · exact .inl

theorem mem_new (h : Switched s u r game candidate root ms) (hs : Consistent s)
    (hid : m.catalogue_revision_id=r.id) : m∈u.members ↔ m∈ms := by
  rw [h.members,mem_append]
  constructor
  · intro hm
    rcases hm with hm | hm
    · exact absurd hid (h.old_ne hs hm)
    · exact hm
  · exact .inr

theorem current_ne (h : Switched s u r game candidate root ms) (hs : Consistent s) :
    s.current≠r.id := h.ne_id hs.linked.current

theorem composed_new (h : Switched s u r game candidate root ms) (hs : Consistent s) :
    Composed u r := by
  obtain ⟨p,hp,hid,hc⟩ := h.operation
  obtain ⟨c,hrow,hgame⟩ := h.row
  obtain ⟨games,hgs,g,hg,hgg,hgc,hroot⟩ := h.composition
  refine ⟨p,by rw [h.operations]; exact hp,hid,c,by rw [h.candidates,hc]; exact hrow,games,
    by rw [h.compositions]; exact hgs,g,hg,hgg.trans hgame.symm,hgc.trans hc.symm,fun x hx => ?_⟩
  have hold : ({ x with catalogue_revision_id := s.current } : Member)∈u.members ↔
    { x with catalogue_revision_id := s.current }∈s.members := h.mem_old (h.current_ne hs)
  rw [h.mem_new hs hx,h.taken x,hc,h.previous,hold,hgame,hroot]
  constructor
  · intro hm
    rcases hm with hm | hm
    · exact .inl hm
    · exact .inr hm.2
  · intro hm
    rcases hm with hm | hm
    · exact .inl hm
    · exact .inr ⟨hx,hm⟩

theorem composed_old (h : Switched s u r game candidate root ms) (hs : Consistent s)
    {q : Revision} (hq : q∈s.revisions) : Composed u q := by
  obtain ⟨p,hp,hid,c,hcand,games,hgs,g,hg,hgame,hgc,hx⟩ := hs.composed q hq
  refine ⟨p,by rw [h.operations]; exact hp,hid,c,by rw [h.candidates]; exact hcand,games,
    by rw [h.compositions]; exact hgs,g,hg,hgame,hgc,fun x hxq => ?_⟩
  have hne : x.catalogue_revision_id≠r.id := by
    rw [hxq]
    exact h.fresh q hq
  have hprev : ({ x with catalogue_revision_id := q.expected_previous_revision_id } : Member)
    ∈u.members ↔ { x with catalogue_revision_id := q.expected_previous_revision_id }∈s.members :=
    h.mem_old (h.ne_id (hs.linked.previous q hq))
  rw [h.mem_old hne,hprev]
  exact hx x hxq

theorem new_cases (h : Switched s u r game candidate root ms) (hm : m∈ms) :
    m=⟨r.id,game,candidate,r.id,root⟩ ∨ (m.supported_game≠game ∧ ∃n∈s.members,
      n.catalogue_revision_id=s.current ∧ n.supported_game=m.supported_game ∧
      n.candidate_id=m.candidate_id ∧ n.game_revision_id=m.game_revision_id ∧
      n.root_digest=m.root_digest) := by
  rcases (h.taken m).mp hm with hc | ⟨-,hg,hn⟩
  · exact .inl hc
  · exact .inr ⟨hg,_,hn,rfl,rfl,rfl,rfl,rfl⟩

theorem keys_new (h : Switched s u r game candidate root ms) (hs : Consistent s) {n : Member}
    (hm : m∈ms) (hn : n∈ms) (hg : m.supported_game=n.supported_game) : m=n := by
  rcases (h.taken m).mp hm with hm | ⟨hmi,hmg,hmo⟩
  · rcases (h.taken n).mp hn with hn | ⟨-,hng,-⟩
    · exact hm.trans hn.symm
    · rw [hm] at hg
      exact absurd hg.symm hng
  · rcases (h.taken n).mp hn with hn | ⟨hni,-,hno⟩
    · rw [hn] at hg
      exact absurd hg hmg
    · have he := hs.keys _ hmo _ hno rfl hg
      cases m
      cases n
      injection he
      subst_vars
      rfl

theorem consistent (h : Switched s u r game candidate root ms) (hs : Consistent s) :
    Consistent u where
  linked := by
    rw [h.revisions,h.current]
    refine ⟨rfl,?_⟩
    rw [h.previous]
    exact hs.linked
  ids := by
    rw [h.revisions,map_cons,nodup_cons]
    refine ⟨fun hm => ?_,hs.ids⟩
    obtain ⟨q,hq,he⟩ := mem_map.mp hm
    exact h.fresh q hq he
  composed := by
    intro q hq
    rw [h.revisions] at hq
    rcases mem_cons.mp hq with rfl | hq
    · exact h.composed_new hs
    · exact h.composed_old hs hq
  heads := by
    intro m hm hc
    rw [h.current] at hc
    rw [h.heads]
    rcases h.new_cases ((h.mem_new hs hc).mp hm) with rfl | ⟨hg,n,hn,hnc,hng,-,hnr,-⟩
    · exact if_pos rfl
    · have hold := hs.heads n hn hnc
      rw [hng,hnr] at hold
      exact (if_neg hg).trans hold
  publications := by
    rw [h.publications,map_append,nodup_append]
    refine ⟨hs.publications,nodup_singleton _,fun a ha b hb => ?_⟩
    obtain ⟨q,hq,rfl⟩ := mem_map.mp ha
    rw [map_singleton,mem_singleton] at hb
    rw [hb]
    exact h.unpublished q hq
  operations := by
    rw [h.operations]
    exact hs.operations
  lengths := by
    rw [h.operations]
    exact hs.lengths
  spineless := by
    rw [h.revisions]
    intro q hq
    rcases mem_cons.mp hq with rfl | hq
    · exact h.spineless
    · exact hs.spineless q hq
  rooted := by
    rw [h.members,h.revisions]
    intro m hm
    rcases mem_append.mp hm with hm | hm
    · obtain ⟨q,hq,he⟩ := hs.rooted m hm
      exact ⟨q,mem_cons_of_mem _ hq,he⟩
    · exact ⟨r,mem_cons_self,(h.new_id hm).symm⟩
  keys := by
    intro m hm n hn hid hg
    by_cases hmi : m.catalogue_revision_id=r.id
    · exact h.keys_new hs ((h.mem_new hs hmi).mp hm) ((h.mem_new hs (hid ▸ hmi)).mp hn) hg
    · exact hs.keys m ((h.mem_old hmi).mp hm) n ((h.mem_old (hid ▸ hmi)).mp hn) hid hg
  exported := by
    rw [h.members,h.exports]
    intro m hm
    rcases mem_append.mp hm with hm | hm
    · exact hs.exported m hm
    · rcases h.new_cases hm with rfl | ⟨-,n,hn,-,-,hnc,-⟩
      · exact h.exported
      · rw [← hnc]
        exact hs.exported n hn
  bound := by
    rw [h.members,h.publications]
    intro m hm
    have hold : ∀n∈s.members,∃b∈s.publications++[(candidate,r.id)],b.1=n.candidate_id := by
      intro n hn
      obtain ⟨b,hb,he⟩ := hs.bound n hn
      exact ⟨b,mem_append_left _ hb,he⟩
    rcases mem_append.mp hm with hm | hm
    · exact hold m hm
    · rcases h.new_cases hm with rfl | ⟨-,n,hn,-,-,hnc,-⟩
      · exact ⟨_,mem_append_right _ (mem_singleton_self _),rfl⟩
      · rw [← hnc]
        exact hold n hn

end Switched

end CardKeepr.Publication
