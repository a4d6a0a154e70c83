import CardKeepr.Curated.Events

namespace CardKeepr.Curated

open Shared List

open Store

-- What the availability guard keeps: the applicable revisions of one target key have intervals
-- apart from one another.

/-- The interval of a revision is closed-open. -/
def Revision.effective (r : Revision) (on : Nat) : Bool :=
  (match r.effective_from with
    | some first => first≤on
    | none => true) &&
  match r.effective_to with
  | some last => on<last
  | none => true

def Revision.interval (r : Revision) : Option Nat × Option Nat := (r.effective_from,r.effective_to)

/-- A revision apart from its status. -/
def Revision.text (r : Revision) : Revision := { r with status := .active, event_version := 0 }

theorem text_fields {r r' : Revision} (h : r'.text=r.text) : r'.id=r.id ∧ r'.game=r.game ∧
    r'.proposal=r.proposal ∧ r'.content_digest=r.content_digest ∧
    r'.reviewed_source_digest=r.reviewed_source_digest :=
  ⟨(congrArg Revision.id h :),(congrArg Revision.game h :),(congrArg Revision.proposal h :),
    (congrArg Revision.content_digest h :),(congrArg Revision.reviewed_source_digest h :)⟩

/-- The columns of a revision are those of an admissible proposal. -/
structure Revision.Authored (r : Revision) : Prop where
  game : r.game=r.proposal.game
  target_key : r.target_key=targetKey r.proposal
  admissible : r.proposal.admissible=true

theorem Revision.Authored.text {r r' : Revision} (h : r.Authored) (ht : r'.text=r.text) :
    r'.Authored := by
  have hgame : r'.game=r.game := (congrArg Revision.game ht :)
  have hkey : r'.target_key=r.target_key := (congrArg Revision.target_key ht :)
  have hproposal : r'.proposal=r.proposal := (congrArg Revision.proposal ht :)
  constructor
  · rw [hgame,hproposal,h.game]
  · rw [hkey,hproposal,h.target_key]
  · rw [hproposal,h.admissible]

/-- Two revisions cannot both be in force on one target at one date. -/
def Revision.clear (a b : Revision) : Prop :=
  a.status.applicable=true → b.status.applicable=true → a.target_key=b.target_key →
    overlapping a.interval b.interval=false

namespace Store

structure Apart (s : Store) : Prop where
  ids : (s.revisions.map (·.id)).Nodup
  authored : ∀r∈s.revisions,r.Authored
  clear : s.revisions.Pairwise Revision.clear

theorem Apart.new : Apart .new := 
  ⟨nodup_nil,fun _ hr => absurd hr not_mem_nil,List.Pairwise.nil⟩

end Store

section

variable {s t : Store}

theorem overlapping_of_effective {a b : Revision} {on : Nat} (ha : a.effective on=true)
    (hb : b.effective on=true) : overlapping a.interval b.interval=true := by
  simp only [Revision.effective,Bool.and_eq_true] at ha hb
  simp only [overlapping,Revision.interval,Bool.and_eq_true]
  constructor
  · cases hlast : a.effective_to with
    | none => rfl
    | some last =>
      cases hfirst : b.effective_from with
      | none => rfl
      | some first =>
        have hon : on<last := by simpa [hlast] using ha.2
        have hfirst' : first≤on := by simpa [hfirst] using hb.1
        exact decide_eq_true (Nat.lt_of_le_of_lt hfirst' hon)
  · cases hlast : b.effective_to with
    | none => rfl
    | some last =>
      cases hfirst : a.effective_from with
      | none => rfl
      | some first =>
        have hon : on<last := by simpa [hlast] using hb.2
        have hfirst' : first≤on := by simpa [hfirst] using ha.1
        exact decide_eq_true (Nat.lt_of_le_of_lt hfirst' hon)

theorem Store.Apart.same (h : Apart s) {a b : Revision} (ha : a∈s.revisions) (hb : b∈s.revisions)
    (hact : a.status=.active) (hact' : b.status=.active) (hkey : a.target_key=b.target_key)
    {on : Nat} (hon : a.effective on=true) (hon' : b.effective on=true) : a=b := by
  have happ : a.status.applicable=true := by rw [hact]; rfl
  have happ' : b.status.applicable=true := by rw [hact']; rfl
  obtain ⟨i,hi,hai⟩ := getElem_of_mem ha
  obtain ⟨j,hj,hbj⟩ := getElem_of_mem hb
  rcases Nat.lt_trichotomy i j with hlt | heq | hlt
  · have hclear := pairwise_iff_getElem.mp h.clear i j hi hj hlt
    rw [hai,hbj] at hclear
    have hno := hclear happ happ' hkey
    rw [overlapping_of_effective hon hon'] at hno
    cases hno
  · subst heq
    rw [← hai,← hbj]
  · have hclear := pairwise_iff_getElem.mp h.clear j i hj hi hlt
    rw [hai,hbj] at hclear
    have hno := hclear happ' happ hkey.symm
    rw [overlapping_of_effective hon' hon] at hno
    cases hno

theorem Store.Apart.of_revisions (h : Apart s) (ht : t.revisions=s.revisions) : Apart t :=
  ⟨by rw [ht]; exact h.ids,by rw [ht]; exact h.authored,by rw [ht]; exact h.clear⟩

theorem Store.Apart.map (h : Apart s) {g : Revision → Revision} (hg : ∀r,(g r).text=r.text)
    (happ : ∀r∈s.revisions,(g r).status.applicable=true → r.status.applicable=true) :
    Apart { s with revisions := s.revisions.map g } := by
  constructor
  · have hids : (s.revisions.map g).map (·.id)=s.revisions.map (·.id) := by
      rw [map_map]
      apply map_congr_left
      intro r _
      exact (congrArg Revision.id (hg r) :)
    rw [hids]
    exact h.ids
  · intro r' hr'
    obtain ⟨r,hr,rfl⟩ := mem_map.mp hr'
    exact (h.authored r hr).text (hg r)
  · refine pairwise_map.mpr (h.clear.imp_of_mem ?_)
    intro a b hma hmb hab ha hb hkey
    have hkey' : a.target_key=b.target_key := by
      have ha' : (g a).target_key=a.target_key := (congrArg Revision.target_key (hg a) :)
      have hb' : (g b).target_key=b.target_key := (congrArg Revision.target_key (hg b) :)
      rw [← ha',← hb',hkey]
    have hia : (g a).interval=a.interval := (congrArg Revision.interval (hg a) :)
    have hib : (g b).interval=b.interval := (congrArg Revision.interval (hg b) :)
    rw [hia,hib]
    exact hab (happ a hma ha) (happ b hmb hb) hkey'

theorem readRevision_applicable {r : Revision} (hr : r.status.applicable=true) : ∃x∈s.readRevision
    r,x.status.applicable=true ∧ x.target_key=r.target_key ∧ x.interval=r.interval := by
  rw [readRevision]
  split
  · exact ⟨r,mem_singleton_self r,hr,rfl,rfl⟩
  · rename_i hne
    cases hshown : s.conflicts.filter fun conflict => s.shows conflict r with
    | nil => exact absurd hshown hne
    | cons c cs => exact ⟨_,mem_cons_self,rfl,rfl,rfl⟩

theorem insertAuthored_apart (h : Apart s) {id : JsString} {proposal : Proposal}
    {digest : JsString} {at' : Nat} (hp : proposal.admissible=true)
    (ht : insertAuthored id proposal digest at' s=some t) : Apart t := by
  obtain ⟨hfree,hnew,rfl⟩ := insertAuthored_some ht
  constructor
  · rw [map_append,nodup_append]
    refine ⟨h.ids,nodup_singleton _,?_⟩
    rintro x hx y hy rfl
    obtain ⟨r,hr,rfl⟩ := mem_map.mp hx
    have hne := any_eq_false.mp hnew r hr
    cases mem_singleton.mp hy
    simp at hne
  · intro r hr
    rcases mem_append.mp hr with hr | hr
    · exact h.authored r hr
    · cases mem_singleton.mp hr
      exact ⟨rfl,rfl,hp⟩
  · refine pairwise_append.mpr ⟨h.clear,pairwise_singleton _ _,?_⟩
    intro a ha b hb happ _ hkey
    cases mem_singleton.mp hb
    -- the guard met the row of `a` in the view
    obtain ⟨x,hx,hxapp,hxkey,hxint⟩ := readRevision_applicable (s := s) happ
    have hrow : x∈s.curatedRevisionRead := mem_flatMap.mpr ⟨a,ha,hx⟩
    have hno := any_eq_false.mp hfree x hrow
    rw [hxapp,hxkey,hkey] at hno
    have hxint' : (x.effective_from,x.effective_to)=a.interval := hxint
    rw [hxint'] at hno
    simpa [Revision.interval] using hno

end

end CardKeepr.Curated
