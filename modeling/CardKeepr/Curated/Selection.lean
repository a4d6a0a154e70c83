import CardKeepr.Curated.Overlaps
import CardKeepr.Curated.Views

namespace CardKeepr.Curated

open Shared List

open Store

variable {p run game : JsString}

-- The two selections of curated revisions: by status and interval at the start of a run, and by
-- the events below the cutoffs that the preparation of one game pins.

/-- A selected revision with the digest its source is compared against. -/
structure Selected where
  id : JsString
  proposal : Proposal
  content_digest : JsString
  reviewed_source_digest : JsString
  deriving DecidableEq

def reviewedDigest (r : Revision) (reaffirmed : Option Event) : JsString :=
  (reaffirmed.bind fun event => event.details.reviewed_source_digest).getD r.reviewed_source_digest

/-- `activeCuratedRevisionsStatement`, its order aside. -/
def activeCuratedRevisions (s : Store) (games : List JsString) (on : Nat) : List Selected :=
  (s.curatedRevisionRead.filter fun r =>
    r.status=.active && games.contains r.game && r.effective on).map fun r =>
      ⟨r.id,r.proposal,r.content_digest,
        reviewedDigest r (lastByVersion (s.eventsOfKind r.id .reaffirmed))⟩

structure PinnedDraftRevision where
  ordinal : Nat
  selected : Selected
  active : Bool

def pinnedHistory (s : Store) (pin : Pin) (id : JsString) : List Event :=
  (s.events.take pin.event_cutoff).filter (·.revision_id=id)

def pinnedRow (s : Store) (pin : Pin) (ordinal : Nat) (r : Revision) : PinnedDraftRevision :=
  ⟨ordinal,⟨r.id,r.proposal,r.content_digest,reviewedDigest r
      ((pinnedHistory s pin r.id).filter fun event => event.details.kind=.reaffirmed).getLast?⟩,
    match (pinnedHistory s pin r.id).getLast? with
    | some event => event.details.kind=.authored || event.details.kind=.reaffirmed
    | none => false⟩

/-- The rows the second branch of `nextPinnedCuratedRevisionStatement` can give. -/
def pinnedRows (s : Store) (preparation : JsString) : List PinnedDraftRevision :=
  match s.pins.find? (·.preparation_id=preparation),s.operation? preparation with
  | some pin,some operation =>
    ((s.revisions.take pin.revision_cutoff).zipIdx 1).filterMap fun (r,ordinal) =>
      if operation.supported_game=some r.game then some (pinnedRow s pin ordinal r) else none
  | _,_ => []

/-- `nextPinnedCuratedRevisionStatement` for the preparation of one game. -/
def nextPinnedCuratedRevision (s : Store) (preparation : JsString) (after : Nat) :
    Option PinnedDraftRevision :=
  (pinnedRows s preparation).find? fun row => decide (after<row.ordinal)

/-- `pinnedDraftRevisions`, each row read when the store has come to another state. -/
def pinnedDraftRevisions (stores : Nat → Store) (preparation : JsString) :
    Nat → Nat → List PinnedDraftRevision
  | 0,_ => []
  | n+1,after => match nextPinnedCuratedRevision (stores n) preparation after with
    | none => []
    | some row => row::pinnedDraftRevisions stores preparation n row.ordinal

/-- The revisions `applyPinnedCuratedRevisionsToDraft` compares and applies. -/
def appliedRevisions (stores : Nat → Store) (preparation : JsString) (n : Nat) : List Selected :=
  ((pinnedDraftRevisions stores preparation n 0).filter (·.active)).map (·.selected)

structure Later (s t : Store) : Prop where
  revisions : ∃g rs,t.revisions=s.revisions.map g++rs ∧ ∀r,(g r).text=r.text
  events : ∃es,t.events=s.events++es
  pins : ∃ps,t.pins=s.pins++ps
  operations : ∃f ops,t.operations=s.operations.map f++ops ∧
    ∀o,(f o).id=o.id ∧ (f o).supported_game=o.supported_game
  apart : Apart s → Apart t

theorem Later.refl (s : Store) : Later s s := by
  refine ⟨⟨id,[],by simp,fun _ => rfl⟩,⟨[],by simp⟩,⟨[],by simp⟩,⟨id,[],by simp,?_⟩,id⟩
  exact fun _ => ⟨rfl,rfl⟩

theorem Later.of_operations {s t : Store} (hr : t.revisions=s.revisions) (he : t.events=s.events)
    (hp : t.pins=s.pins) (f : Operation → Operation) (ops : List Operation)
    (hf : ∀o,(f o).id=o.id ∧ (f o).supported_game=o.supported_game)
    (ho : t.operations=s.operations.map f++ops) : Later s t :=
  ⟨⟨fun r => r,[],by simpa using hr,fun _ => rfl⟩,⟨[],by simpa using he⟩,⟨[],by simpa using hp⟩,
    ⟨f,ops,ho,hf⟩,fun h => h.of_revisions hr⟩

theorem Later.trans {s t u : Store} (h : Later s t) (h' : Later t u) : Later s u := by
  obtain ⟨⟨g,rs,hr,hg⟩,⟨es,he⟩,⟨ps,hp⟩,⟨f,ops,ho,hf⟩,ha⟩ := h
  obtain ⟨⟨g',rs',hr',hg'⟩,⟨es',he'⟩,⟨ps',hp'⟩,⟨f',ops',ho',hf'⟩,ha'⟩ := h'
  refine ⟨⟨g'∘g,rs.map g'++rs',?_,?_⟩,⟨es++es',?_⟩,⟨ps++ps',?_⟩,⟨f'∘f,ops.map f'++ops',?_,?_⟩,
    fun h => ha' (ha h)⟩
  · rw [hr',hr]
    simp
  · intro r
    exact (hg' (g r)).trans (hg r)
  · rw [he',he,append_assoc]
  · rw [hp',hp,append_assoc]
  · rw [ho',ho]
    simp
  · intro o
    exact ⟨(hf' (f o)).1.trans (hf o).1,(hf' (f o)).2.trans (hf o).2⟩

section

variable {s t : Store}
variable {id digest : JsString} {f : Operation → Operation}

theorem Later.operations_map {runs : List Run} {slots : List Slot}
    (hf : ∀o,(f o).id=o.id ∧ (f o).supported_game=o.supported_game) :
    Later s { s with operations := s.operations.map f, runs := runs, slots := slots } :=
  Later.of_operations rfl rfl rfl f [] hf (by simp)

theorem Store.Update.later (hf : Update f) (p : JsString) : Later s (s.setOperation p f) :=
  Later.operations_map fun o => ⟨(hf.at p).id o,(hf.at p).game o⟩

theorem endRun_later (run : JsString) (outcome : RunOutcome) : Later s (s.endRun run outcome) := by
  rcases endRun_eq run outcome s with heq | ⟨heq,_⟩
  · rw [heq]
    exact .refl s
  · rw [heq]
    exact Later.operations_map fun o =>
      ⟨(afterRun_same run outcome o).1,(afterRun_same run outcome o).2.2⟩

theorem Later.slots (h : Later s t) (slots : List Slot) : Later s { t with slots := slots } :=
  ⟨h.revisions,h.events,h.pins,h.operations,fun ha => (h.apart ha).of_revisions rfl⟩

theorem Later.acknowledge (h : Later s t) (rows : List Acknowledged) :
    Later s { t with acknowledged := rows } :=
  ⟨h.revisions,h.events,h.pins,h.operations,fun ha => (h.apart ha).of_revisions rfl⟩

theorem insertEvent_later {e : Event} (ht : insertEvent e s=some t) : Later s t := by
  obtain ⟨_,_,rfl⟩ := insertEvent_some ht
  exact ⟨(Later.refl s).revisions,⟨[e],rfl⟩,(Later.refl s).pins,(Later.refl s).operations,
    fun h => h.of_revisions rfl⟩

theorem acknowledge_later {row : Acknowledged} (ht : acknowledge row s=some t) : Later s t := by
  obtain ⟨_,rfl⟩ := acknowledge_some ht
  exact (Later.refl s).acknowledge _

theorem insertAuthored_later {proposal : Proposal} {at' : Nat} (hp : proposal.admissible=true)
    (ht : insertAuthored id proposal digest at' s=some t) : Later s t := by
  have hapart : Apart s → Apart t := fun h => insertAuthored_apart h hp ht
  obtain ⟨_,_,rfl⟩ := insertAuthored_some ht
  exact ⟨⟨fun r => r,_,by rw [map_id'],fun _ => rfl⟩,(Later.refl s).events,(Later.refl s).pins,
    (Later.refl s).operations,hapart⟩

theorem Later.revisions_map {g : Revision → Revision} (hg : ∀r,(g r).text=r.text)
    (happ : Apart s → ∀r∈s.revisions,(g r).status.applicable=true → r.status.applicable=true) :
    Later s { s with revisions := s.revisions.map g } :=
  ⟨⟨g,[],by simp,hg⟩,(Later.refl s).events,(Later.refl s).pins,(Later.refl s).operations,
    fun h => h.map hg (happ h)⟩

theorem updateRevision_later (id : JsString) (expected : Nat) (status : RevisionStatus)
    (version : Nat) : Later s (updateRevision id expected status version s) := by
  apply Later.revisions_map
  · intro r
    split <;> rfl
  · intro _ r _ happ
    split at happ
    · rename_i hc
      simp only [Bool.and_eq_true] at hc
      exact hc.2
    · exact happ

theorem appendLifecycleMutation_later {read : OwnerRead} {status : RevisionStatus}
    {details : EventDetails} {code : String}
    (ht : s.appendLifecycleMutation read status details code=some t) : Later s t := by
  rw [appendLifecycleMutation] at ht
  simp only [Option.bind_eq_bind,Option.bind_eq_some_iff] at ht
  obtain ⟨u,hu,ht⟩ := ht
  exact (updateRevision_later _ _ _ _).trans ((insertEvent_later hu).trans (acknowledge_later ht))

theorem create_later {input : Creation} (ht : s.createCuratedRevision input=some t) :
    Later s t := by
  rw [createCuratedRevision] at ht
  split at ht
  · cases ht
  · rename_i hguard
    simp only [Bool.or_eq_true,not_or,Bool.not_eq_true,Bool.not_eq_false'] at hguard
    have hp : input.proposal.admissible=true := hguard.1.2
    simp only [Option.bind_eq_bind,Option.bind_eq_some_iff] at ht
    obtain ⟨u,hu,v,hv,ht⟩ := ht
    exact (insertAuthored_later hp hu).trans ((insertEvent_later hv).trans (acknowledge_later ht))

theorem supersede_later {read : OwnerRead} {proposal : Proposal} (ht : s.supersedeCuratedRevision read id proposal digest=some t) :
    Later s t := by
  rw [supersedeCuratedRevision] at ht
  split at ht
  · cases ht
  · rename_i hguard
    simp only [Bool.or_eq_true,not_or,Bool.not_eq_true,Bool.not_eq_false'] at hguard
    have hp : proposal.admissible=true := hguard.1.2
    simp only [Option.bind_eq_bind,Option.bind_eq_some_iff] at ht
    obtain ⟨u,hu,v,hv,w,hw,ht⟩ := ht
    exact (updateRevision_later _ _ _ _).trans ((insertEvent_later hu).trans
      ((insertAuthored_later hp hv).trans ((insertEvent_later hw).trans (acknowledge_later ht))))

theorem insertEvents_later {cs : List Conflict}
    (ht : cs.foldlM (fun s c => insertEvent (Conflict.event c) s) s=some t) : Later s t := by
  induction cs generalizing s with
  | nil =>
    cases ht
    exact .refl _
  | cons c cs ih =>
    simp only [foldlM_cons,Option.bind_eq_bind,Option.bind_eq_some_iff] at ht
    obtain ⟨u,hu,ht⟩ := ht
    exact (insertEvent_later hu).trans (ih ht)

theorem materialize_later (ht : s.materialize id=some t) : Later s t := by
  rw [materialize] at ht
  simp only [Option.bind_eq_bind,Option.bind_eq_some_iff] at ht
  obtain ⟨u,hu,ht⟩ := ht
  cases ht
  refine (insertEvents_later hu).trans (Later.revisions_map ?_ ?_)
  · intro r
    split <;> rfl
  · intro ha r hr happ
    split at happ
    · rename_i hc
      -- a conflict is visible only beside an active row
      simp only [Bool.and_eq_true,any_eq_true,decide_eq_true_eq] at hc
      obtain ⟨_,c,hc,hid⟩ := hc
      obtain ⟨_,r',hr',hshows⟩ := mem_visible.mp hc
      have hs := shows_iff.mp hshows
      have heq : r'=r := inj_on_of_nodup_map ha.ids hr' hr (hs.1.symm.trans hid)
      rw [← heq,hs.2.2.1]
      rfl
    · exact happ

theorem opened_later (op : Operation) (pins : List Pin) (slots : List Slot) : Later s { s with
    operations := s.operations++[op], slots := slots, pins := s.pins++pins } :=
  ⟨(Later.refl s).revisions,(Later.refl s).events,⟨pins,rfl⟩,⟨fun o => o,[op],by simp,
    fun _ => ⟨rfl,rfl⟩⟩,fun h => h.of_revisions rfl⟩

end

theorem batch_later {σ : State} {statements : Store → Option Store}
    (h : ∀t,statements σ.store=some t → Later σ.store t) :
    Later σ.store (σ.batch statements).store := by
  rw [State.batch]
  cases ht : statements σ.store with
  | none => exact .refl _
  | some t => exact h t ht

theorem mutate_later {σ : State} {i : Nat} {statements : OwnerRead → Store → Option Store}
    (h : ∀read t,statements read σ.store=some t → Later σ.store t) :
    Later σ.store (σ.mutate i statements).store := by
  rw [State.mutate]
  cases σ.reads[i]? with
  | none => exact .refl _
  | some read => exact batch_later (h read)

/-- Whatever a step does, sound or not, the pinned rows of the past stay. -/
theorem step_later (σ : State) (m : Move) : Later σ.store (σ.step m).store := by
  cases m with
  | startRun id games =>
    refine batch_later fun t ht => ?_
    rw [startRun] at ht
    split at ht
    · cases ht
    · cases ht
      exact Later.of_operations rfl rfl rfl (fun o => o) [] (fun _ => ⟨rfl,rfl⟩) (by simp)
  | startPreparation id run game =>
    refine batch_later fun t ht => ?_
    rw [startPreparation] at ht
    split at ht
    · cases ht
    · split at ht
      · cases ht
      · cases ht
        exact opened_later _ _ _
  | startReconciliation run =>
    refine batch_later fun t ht => ?_
    rw [startReconciliation] at ht
    split at ht
    · cases ht
    · split at ht
      · cases ht
        exact .refl _
      · split at ht
        · cases ht
        · cases ht
          exact Later.of_operations rfl rfl rfl id [_] (fun _ => ⟨rfl,rfl⟩) (by rw [map_id])
  | pause id generation detail => exact (pause_update generation detail).later id
  | resume id generation => exact (resume_update generation).later id
  | abandon id generation =>
    refine batch_later fun t ht => ?_
    rw [abandon] at ht
    split at ht
    · cases ht
    · split at ht
      · dsimp only at ht
        split at ht
        · cases ht
          exact ((abandon_update generation).later id).slots _
        · cases ht
          exact ((abandon_update generation).later id).trans (endRun_later _ _)
      · cases ht
  | sealOperation id => exact sealOperation_update.later id
  | publish id =>
    have : Later σ.store (σ.store.publish id) := by
      rw [publish]
      split
      · exact (Later.refl _).slots _
      · exact .refl _
    exact this
  | failPreparation id generation code =>
    refine batch_later fun t ht => ?_
    rw [failPreparation] at ht
    split at ht
    · cases ht
    · split at ht
      · cases ht
        exact ((fail_update code).later id).slots _
      · cases ht
        exact .refl _
  | failRun run generation code =>
    refine batch_later fun t ht => ?_
    rw [failRun] at ht
    split at ht
    · cases ht
    · cases ht
      exact endRun_later _ _
  | endRun run outcome =>
    rw [State.step]
    refine batch_later ?_
    intro t ht
    split at ht
    · cases ht
    · cases ht
      exact endRun_later _ _
  | readConflict preparation generation revision details observedAt =>
    rw [State.step]
    split <;> exact .refl _
  | retainConflict staging =>
    rw [State.step]
    split
    · exact .refl _
    · refine batch_later fun t ht => ?_
      rw [retainConflict] at ht
      split at ht
      · cases ht
      · split at ht
        · cases ht
          exact .refl _
        · split at ht
          · cases ht
          · cases ht
            exact Later.of_operations rfl rfl rfl id [] (fun _ => ⟨rfl,rfl⟩) (by simp)
  | materialize revision => exact batch_later fun t ht => materialize_later ht
  | create input => exact batch_later fun t ht => create_later ht
  | look request =>
    rw [State.step]
    split <;> exact .refl _
  | pendingConflict read =>
    rw [State.step]
    split <;> exact .refl _
  | reaffirm read =>
    refine mutate_later fun r t ht => ?_
    rw [reaffirmCuratedRevision] at ht
    split at ht
    · cases ht
    · split at ht
      · exact appendLifecycleMutation_later ht
      · cases ht
  | retire read =>
    refine mutate_later fun r t ht => ?_
    rw [retireCuratedRevision] at ht
    split at ht
    · exact appendLifecycleMutation_later ht
    · cases ht
  | supersede read id proposal digest => exact mutate_later fun r t ht => supersede_later ht

theorem run_later (σ : State) (moves : List Move) : Later σ.store (σ.run moves).store := by
  induction moves generalizing σ with
  | nil => exact .refl _
  | cons m moves ih =>
    rw [State.run_cons]
    exact (step_later σ m).trans (ih (σ.step m))

section

variable {s t : Store}

theorem pinnedRows_later (h : Later s t) {p : JsString} {pin : Pin} {op : Operation}
    (hpin : s.pins.find? (·.preparation_id=p)=some pin) (hop : s.operation? p=some op)
    (hr : pin.revision_cutoff≤ s.revisions.length) (he : pin.event_cutoff≤ s.events.length) :
    pinnedRows t p=pinnedRows s p := by
  obtain ⟨⟨g,rs,hrs,hg⟩,⟨es,hes⟩,⟨ps,hps⟩,⟨f,ops,hops,hf⟩,_⟩ := h
  have hpin' : t.pins.find? (·.preparation_id=p)=some pin := by
    rw [hps,List.find?_append,hpin]
    rfl
  have hop' : t.operation? p=some (f op) := by
    rw [operation?,hops,List.find?_append,find?_map_key Operation.id fun o => (hf o).1]
    change ((s.operation? p).map f).or _=_
    rw [hop]
    rfl
  have hevents : t.events.take pin.event_cutoff=s.events.take pin.event_cutoff := by
    rw [hes,take_append_of_le_length he]
  have hrevs : t.revisions.take pin.revision_cutoff=
      (s.revisions.take pin.revision_cutoff).map g := by
    rw [hrs,take_append_of_le_length (by rw [length_map]; exact hr),map_take]
  rw [pinnedRows,pinnedRows,hpin',hop',hpin,hop]
  dsimp only
  rw [hrevs,zipIdx_map,filterMap_map,(hf op).2]
  apply filterMap_congr
  rintro ⟨r,i⟩ _
  obtain ⟨hid,hgame,hprop,hcontent,hrev⟩ := text_fields (hg r)
  have hrow : pinnedRow t pin i (g r)=pinnedRow s pin i r := by
    simp only [pinnedRow,pinnedHistory,hevents,reviewedDigest,hid,hprop,hcontent,hrev]
  simp only [Function.comp,Prod.map_fst,Prod.map_snd,hgame,hrow,id_eq]

theorem zipIdx_pairwise {α : Type} (l : List α) (n : Nat) :
    (l.zipIdx n).Pairwise fun a b => a.2<b.2 := by
  have : ((l.zipIdx n).map Prod.snd).Pairwise (·<·) := by
    rw [zipIdx_map_snd]
    exact pairwise_lt_range'
  exact pairwise_map.mp this

theorem pinnedRows_sorted (s : Store) (p : JsString) :
    (pinnedRows s p).Pairwise fun a b => a.ordinal<b.ordinal := by
  rw [pinnedRows]
  split
  · rename_i pin op _ _
    rw [pairwise_filterMap]
    refine (zipIdx_pairwise (s.revisions.take pin.revision_cutoff) 1).imp ?_
    rintro ⟨r,i⟩ ⟨r',j⟩ hlt a ha b hb
    dsimp only at ha hb hlt
    split at ha
    · split at hb
      · cases ha
        cases hb
        exact hlt
      · cases hb
    · cases ha
  · exact List.Pairwise.nil

theorem pinnedDraftRevisions_eq {stores : Nat → Store} {p : JsString}
    {rows : List PinnedDraftRevision} (hrows : ∀i,pinnedRows (stores i) p=rows)
    (hsorted : rows.Pairwise fun a b => a.ordinal<b.ordinal) (n after : Nat) : pinnedDraftRevisions
    stores p n after= (rows.filter fun row => decide (after<row.ordinal)).take n := by
  induction n generalizing after with
  | zero => rfl
  | succ n ih =>
    rw [pinnedDraftRevisions,nextPinnedCuratedRevision,hrows,← List.head?_filter]
    cases hf : rows.filter fun row => decide (after<row.ordinal) with
    | nil => rfl
    | cons x xs =>
      have hx : after<x.ordinal := by
        have : x∈rows.filter fun row => decide (after<row.ordinal) := by
          rw [hf]
          exact mem_cons_self
        simpa using (mem_filter.mp this).2
      have hrest : (rows.filter fun row => decide (x.ordinal<row.ordinal))=xs := by
        have hsub : (rows.filter fun row => decide (x.ordinal<row.ordinal))=
            (rows.filter fun row => decide (after<row.ordinal)).filter fun row =>
              decide (x.ordinal<row.ordinal) := by
          rw [filter_filter]
          apply filter_congr
          intro row _
          rw [Bool.eq_iff_iff,Bool.and_eq_true,decide_eq_true_eq,decide_eq_true_eq]
          exact ⟨fun h => ⟨h,by omega⟩,fun h => h.1⟩
        have hpair := hsorted.filter fun row => decide (after<row.ordinal)
        rw [hf,pairwise_cons] at hpair
        rw [hsub,hf,filter_cons,if_neg (by simp),filter_eq_self]
        intro y hy
        simpa using hpair.1 y hy
      dsimp only [List.head?_cons]
      rw [ih,hrest,take_succ_cons]

theorem lastByVersion_eq {l : List Event} (h : l.Pairwise fun a b => a.event_version<b.event_version) :
    lastByVersion l=l.getLast? := by
  induction l with
  | nil => rfl
  | cons e l ih =>
    obtain ⟨hhead,htail⟩ := pairwise_cons.mp h
    rw [lastByVersion,ih htail]
    cases l with
    | nil => rfl
    | cons e' l =>
      rw [List.getLast?_cons_cons]
      cases hlast : (e'::l).getLast? with
      | none => simp at hlast
      | some z =>
        have hz : z∈e'::l := List.mem_of_getLast? hlast
        simp [hhead z hz]

theorem history_sorted (hrec : Recorded s) {r : Revision} (hr : r∈s.revisions) :
    (s.history r.id).Pairwise fun a b => a.event_version<b.event_version := by
  have : ((s.history r.id).map (·.event_version)).Pairwise (·<·) := by
    rw [hrec.versions r hr]
    exact pairwise_lt_range'
  exact pairwise_map.mp this

theorem history_last (hrec : Recorded s) {r : Revision} (hr : r∈s.revisions) :
    ∃e,(s.history r.id).getLast?=some e ∧ e.details.kind.leaves=r.status := by
  have hst := hrec.status r hr
  rcases eq_nil_or_concat (s.history r.id) with hnil | ⟨l,e,heq⟩
  · rw [hnil] at hst
    cases hst
  · rw [heq,concat_eq_append,folded_append] at hst
    rw [heq,concat_eq_append,List.getLast?_append]
    exact ⟨e,rfl,(Prod.mk.inj (Option.some.inj hst)).1⟩

theorem eventsOfKind_reaffirmed (s : Store) (id : JsString) : s.eventsOfKind id .reaffirmed=
    (s.history id).filter fun e => e.details.kind=.reaffirmed := by
  rw [eventsOfKind,curatedRevisionEventRead,filter_append,history,filter_filter]
  have hnone : (((s.visiblePreparedCuratedConflicts.filter fun c =>
      !s.recorded c.revision_id c.eventVersion).map Conflict.event).filter fun e =>
        e.revision_id=id && e.details.kind=.reaffirmed)=[] := by
    apply filter_eq_nil_iff.mpr
    intro e he
    obtain ⟨c,_,rfl⟩ := mem_map.mp he
    simp [Conflict.event,EventDetails.kind]
  rw [hnone,append_nil]
  apply filter_congr
  intro e _
  rw [Bool.and_comm]

end

/-- A revision with the digest of its last reaffirmation. -/
def selectedOf (s : Store) (r : Revision) : Selected :=
  ⟨r.id,r.proposal,r.content_digest,reviewedDigest r
    ((s.history r.id).filter fun e => e.details.kind=.reaffirmed).getLast?⟩

theorem startPreparation_some {s s₁ : Store} (h : s.startPreparation p run game=some s₁) :
    s.unblocked [game]=true ∧ s₁.revisions=s.revisions ∧ s₁.events=s.events ∧ s₁.pins.find?
    (·.preparation_id=p)=some ⟨p,s.revisions.length,s.events.length⟩ ∧ s₁.operation? p=some
    ⟨p,run,some game,.preparing,0,none⟩ := by
  rw [startPreparation] at h
  split at h
  · cases h
  · split at h
    · cases h
    · rename_i hguard
      cases h
      simp only [Bool.or_eq_true,not_or,Bool.not_eq_true,Bool.not_eq_false'] at hguard
      refine ⟨hguard.1.1.2,rfl,rfl,?_,?_⟩
      · have hnone : s.pins.find? (·.preparation_id=p)=none := by
          rw [List.find?_eq_none]
          intro pin hmem
          exact any_eq_false.mp hguard.2 pin hmem
        rw [List.find?_append,hnone]
        simp
      · rw [operation?,List.find?_append]
        change (s.operation? p).or _=_
        rw [operation?_none hguard.1.2]
        simp

theorem pinnedRow_eq {s t : Store} (hrec : Recorded s) (he : t.events=s.events) (p : JsString)
    (n i : Nat) {r : Revision} (hr : r∈s.revisions) :
    pinnedRow t ⟨p,n,s.events.length⟩ i r=⟨i,selectedOf s r,r.status=.active⟩ := by
  have hhist : pinnedHistory t ⟨p,n,s.events.length⟩ r.id=s.history r.id := by
    rw [pinnedHistory,he,take_length,history]
  obtain ⟨e,hlast,hleaves⟩ := history_last hrec hr
  simp only [pinnedRow,hhist,hlast,selectedOf]
  congr 1
  rw [← hleaves]
  cases e.details.kind <;> rfl

theorem pinnedRows_eq {s s₁ : Store} (hrec : Recorded s)
    (hpin : s.startPreparation p run game=some s₁) : pinnedRows s₁ p=
      (s.revisions.zipIdx 1).filterMap fun (r,ordinal) =>
        if r.game=game then some ⟨ordinal,selectedOf s r,r.status=.active⟩ else none := by
  obtain ⟨_,hrevs,hevents,hfind,hop⟩ := startPreparation_some hpin
  rw [pinnedRows,hfind,hop]
  dsimp only
  rw [hrevs,take_length]
  apply filterMap_congr
  rintro ⟨r,i⟩ hmem
  have hr : r∈s.revisions := fst_mem_of_mem_zipIdx hmem
  dsimp only
  by_cases hg : r.game=game
  · rw [if_pos (by rw [hg]),if_pos hg,pinnedRow_eq hrec hevents p _ i hr]
  · rw [if_neg (by simpa using Ne.symm hg),if_neg hg]

theorem mem_appliedRevisions {s s₁ : Store} (hrec : Recorded s)
    (hpin : s.startPreparation p run game=some s₁) {stores : Nat → Store}
    (hstores : ∀i,Later s₁ (stores i)) {n : Nat} (hn : s.revisions.length≤n) (x : Selected) :
    x∈appliedRevisions stores p n ↔
      ∃r∈s.revisions,r.game=game ∧ r.status=.active ∧ x=selectedOf s r := by
  obtain ⟨_,hrevs,hevents,hfind,hop⟩ := startPreparation_some hpin
  have hrows : ∀i,pinnedRows (stores i) p=pinnedRows s₁ p := fun i =>
    pinnedRows_later (hstores i) hfind hop (by rw [hrevs]) (by rw [hevents])
  have hpositive : ∀row∈pinnedRows s₁ p,decide (0<row.ordinal)=true := by
    rw [pinnedRows_eq hrec hpin]
    intro row hrow
    obtain ⟨⟨r,i⟩,hmem,heq⟩ := mem_filterMap.mp hrow
    have hi := le_snd_of_mem_zipIdx hmem
    dsimp only at heq hi
    split at heq
    · cases heq
      exact decide_eq_true hi
    · cases heq
  have hlength : (pinnedRows s₁ p).length≤n := by
    rw [pinnedRows_eq hrec hpin]
    refine (length_filterMap_le _ _).trans ?_
    rw [length_zipIdx]
    exact hn
  rw [appliedRevisions,pinnedDraftRevisions_eq hrows (pinnedRows_sorted s₁ p),
    filter_eq_self.mpr hpositive,take_of_length_le hlength,pinnedRows_eq hrec hpin]
  simp only [mem_map,mem_filter,mem_filterMap]
  constructor
  · rintro ⟨row,⟨⟨⟨r,i⟩,hmem,heq⟩,hact⟩,rfl⟩
    dsimp only at heq
    split at heq
    · rename_i hg
      cases heq
      exact ⟨r,fst_mem_of_mem_zipIdx hmem,hg,by simpa using hact,rfl⟩
    · cases heq
  · rintro ⟨r,hr,hg,hact,rfl⟩
    obtain ⟨j,hj⟩ := List.getElem?_of_mem hr
    have hi : (r,j+1)∈s.revisions.zipIdx 1 :=
      List.mk_mem_zipIdx_iff_le_and_getElem?_sub.mpr ⟨by omega,by rw [Nat.add_sub_cancel,hj]⟩
    refine ⟨⟨j+1,selectedOf s r,r.status=.active⟩,⟨⟨(r,j+1),hi,?_⟩,by simpa using hact⟩,rfl⟩
    simp [hg]

theorem mem_activeCuratedRevisions {σ : State} (h : Kept σ) (on : Nat)
    (hfree : σ.store.unblocked [game]=true) (x : Selected) :
    x∈activeCuratedRevisions σ.store [game] on ↔ ∃r∈σ.store.revisions,
      r.game=game ∧ r.status=.active ∧ r.effective on=true ∧ x=selectedOf σ.store r := by
  have hdigest : ∀r∈σ.store.revisions,
      lastByVersion (σ.store.eventsOfKind r.id .reaffirmed)=
        ((σ.store.history r.id).filter fun e => e.details.kind=.reaffirmed).getLast? := by
    intro r hr
    rw [eventsOfKind_reaffirmed,lastByVersion_eq ((history_sorted h.recorded hr).filter _)]
  -- no conflict of the game is visible, or the start would have been refused
  have hrow : ∀r∈σ.store.revisions,r.game=game → rowOf σ.store r=r := by
    intro r hr hg
    rw [rowOf]
    split
    · rename_i hany
      have hmem : rowOf σ.store r∈σ.store.curatedRevisionRead := by
        rw [h.staged.rows]
        exact mem_map_of_mem hr
      have := all_eq_true.mp hfree _ hmem
      rw [rowOf,if_pos hany] at this
      simp [hg] at this
    · rfl
  have hgame : ∀r,(rowOf σ.store r).game=r.game := by
    intro r
    rw [rowOf]
    split <;> rfl
  rw [activeCuratedRevisions,h.staged.rows]
  simp only [mem_map,mem_filter,Bool.and_eq_true,decide_eq_true_eq,contains_iff_mem,mem_singleton]
  constructor
  · rintro ⟨row,⟨⟨r,hr,rfl⟩,⟨hact,hg⟩,heff⟩,rfl⟩
    rw [hgame] at hg
    rw [hrow r hr hg] at hact heff ⊢
    exact ⟨r,hr,hg,hact,heff,by rw [hdigest r hr]; rfl⟩
  · rintro ⟨r,hr,hg,hact,heff,rfl⟩
    refine ⟨r,⟨⟨r,hr,hrow r hr hg⟩,⟨hact,hg⟩,heff⟩,?_⟩
    rw [hdigest r hr]
    rfl

/-- At a pin reached by sound steps the preparation of one game applies, whatever follows, the
selection of a run started there on that date if and only if the interval of every active revision
of the game contains the date. -/
theorem native_selection_agrees_iff (moves : List Move) (hs : State.new.Sound moves)
    (p run game : JsString) (s₁ : Store)
    (hpin : (State.new.run moves).store.startPreparation p run game=some s₁)
    (later : Nat → List Move) (n : Nat) (hn : (State.new.run moves).store.revisions.length≤n)
    (on : Nat) :
    (∀x,x∈appliedRevisions (fun i =>
        (({ State.new.run moves with store := s₁ } : State).run (later i)).store) p n ↔
      x∈activeCuratedRevisions (State.new.run moves).store [game] on) ↔
    ∀r∈(State.new.run moves).store.revisions,r.game=game → r.status=.active →
      r.effective on=true := by
  have hkept := Kept.new.run hs
  have hnative := mem_appliedRevisions hkept.recorded hpin (fun i =>
    run_later ({ State.new.run moves with store := s₁ } : State) (later i)) hn
  have hrun := mem_activeCuratedRevisions hkept on (startPreparation_some hpin).1
  constructor
  · intro h r hr hg hact
    have hx := (h (selectedOf (State.new.run moves).store r)).mp
      ((hnative _).mpr ⟨r,hr,hg,hact,rfl⟩)
    obtain ⟨r',hr',_,_,heff,heq⟩ := (hrun _).mp hx
    have : r=r' := hkept.recorded.unique hr hr' (congrArg Selected.id heq)
    rw [this]
    exact heff
  · intro h x
    rw [hnative,hrun]
    constructor
    · rintro ⟨r,hr,hg,hact,heq⟩
      exact ⟨r,hr,hg,hact,h r hr hg hact,heq⟩
    · rintro ⟨r,hr,hg,hact,_,heq⟩
      exact ⟨r,hr,hg,hact,heq⟩

/-- A run, and a revision of a card's name with an effective interval. -/
def boundedName (first last : Option Nat) : List Move :=
  let text (s : String) : JsString := js s.toList
  [.startRun (text "run_1") [text "digimon"],
    .create ⟨text "key_1",text "request_1",text "currev_1",⟨text "digimon",
      .field ⟨.card,text "card_1",text "/name"⟩ (.str (text "Agumon")),text "rationale",
      [.source_observation (text "obs_1")],first,last,text "reviewed",none⟩,text "proposal",0⟩]

/-- The state in which the preparation of the game has been pinned. -/
def pinnedName (first last : Option Nat) : State :=
  (State.new.run (boundedName first last)).step
    (.startPreparation (js "prep_1".toList) (js "run_1".toList) (js "digimon".toList))

/-- A revision that ended on day 10 is applied by a preparation pinned on day 20. -/
theorem native_selection_expired : ¬∀x,
    x∈appliedRevisions (fun _ => (pinnedName none (some 10)).store) (js "prep_1".toList) 1 ↔
    x∈activeCuratedRevisions (State.new.run (boundedName none (some 10))).store
      [js "digimon".toList] 20 := by
  intro h
  have hone : ∃x∈appliedRevisions (fun _ => (pinnedName none (some 10)).store)
      (js "prep_1".toList) 1,x∉activeCuratedRevisions
        (State.new.run (boundedName none (some 10))).store [js "digimon".toList] 20 := by
    decide +kernel
  obtain ⟨x,hx,hnot⟩ := hone
  exact hnot ((h x).mp hx)

theorem native_selection_agrees_current :
    (∀x,x∈appliedRevisions (fun i => ((pinnedName none (some 30)).run
        (if i=0 then [] else [.materialize (js "currev_1".toList)])).store) (js "prep_1".toList) 1 ↔
      x∈activeCuratedRevisions (State.new.run (boundedName none (some 30))).store
        [js "digimon".toList] 20) ∧
    (activeCuratedRevisions (State.new.run (boundedName none (some 30))).store
      [js "digimon".toList] 20).length=1 := by
  have hpin : (State.new.run (boundedName none (some 30))).store.startPreparation
      (js "prep_1".toList) (js "run_1".toList) (js "digimon".toList)=
      some (pinnedName none (some 30)).store := by decide +kernel
  have hstate : ({ State.new.run (boundedName none (some 30)) with
      store := (pinnedName none (some 30)).store } : State)=pinnedName none (some 30) := by
    decide +kernel
  have hsound : State.new.Sound (boundedName none (some 30)) := by
    simp only [boundedName,State.Sound]
    decide +kernel
  have hall : ∀r∈(State.new.run (boundedName none (some 30))).store.revisions,
      r.game=js "digimon".toList → r.status=.active → r.effective 20=true := by decide +kernel
  have h := (native_selection_agrees_iff (boundedName none (some 30)) hsound (js "prep_1".toList)
    (js "run_1".toList) (js "digimon".toList) _ hpin
    (fun i => if i=0 then [] else [.materialize (js "currev_1".toList)]) 1 (by decide +kernel)
    20).mpr hall
  rw [hstate] at h
  exact ⟨h,by decide +kernel⟩

end CardKeepr.Curated
