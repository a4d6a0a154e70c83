import CardKeepr.Curated.Events

namespace CardKeepr.Curated

open Shared List

namespace Store

def live (s : Store) (p : JsString) : Prop := s.underWay p ∨ s.changed p

/-- A conflict belongs to an operation that reconciles the game of its revision. -/
def Owned (s : Store) (c : Conflict) : Prop :=
  ∃op,s.operation? c.preparation_id=some op ∧
    ∃r∈s.revisions,r.id=c.revision_id ∧ r.game∈s.games op

end Store

/-- The staged conflicts of a revision that is not ended carry different versions as long as their
preparations are live, and what `record` is about to write differs from what is visible. -/
structure Staged (σ : State) : Prop where
  keys : (σ.store.conflicts.map fun c => (c.preparation_id,c.revision_id)).Nodup
  owned : ∀c∈σ.store.conflicts,σ.store.Owned c
  apart : ∀c∈σ.store.conflicts,∀c'∈σ.store.conflicts,∀r∈σ.store.revisions,c.revision_id=r.id →
    c'.revision_id=r.id → r.status.applicable=true → σ.store.live c.preparation_id →
    σ.store.live c'.preparation_id → c.eventVersion=c'.eventVersion → c=c'
  reads : ∀t∈σ.stagings,σ.store.Owned t.conflict
  fresh : ∀t∈σ.stagings,∀c∈σ.store.conflicts,∀r∈σ.store.revisions,t.conflict.revision_id=r.id →
    c.revision_id=r.id → r.status.applicable=true → σ.store.underWay t.conflict.preparation_id →
    σ.store.changed c.preparation_id → c.eventVersion≠t.conflict.eventVersion

theorem Staged.new : Staged .new :=
  ⟨nodup_nil,fun _ h => (not_mem_nil h).elim,fun _ h => (not_mem_nil h).elim,
    fun _ h => (not_mem_nil h).elim,fun _ h => (not_mem_nil h).elim⟩

section

open Store

variable {σ : State} {t : Store}
variable {c : Conflict} {r : Revision}

theorem Owned.turned {s : Store} (h : s.Owned c) (ht : Turned s t) : t.Owned c := by
  obtain ⟨op,hop,r,hr,hid,hg⟩ := h
  obtain ⟨op',hop',hgames⟩ := ht.games c.preparation_id op hop
  refine ⟨op',hop',r,?_,hid,?_⟩
  · rw [ht.revisions]
    exact hr
  · rw [hgames]
    exact hg

theorem Owned.underWay {s : Store} (h : s.Owned c) (ht : Turned s t)
    (hu : t.underWay c.preparation_id) : s.underWay c.preparation_id := by
  obtain ⟨op,hop,_⟩ := h
  rcases ht.under _ hu with hu | hn
  · exact hu
  · rw [hop] at hn
    cases hn

theorem Owned.live {s : Store} (h : s.Owned c) (ht : Turned s t)
    (hl : t.live c.preparation_id) : s.live c.preparation_id := by
  rcases hl with hu | hc
  · exact Or.inl (Owned.underWay h ht hu)
  · rcases ht.changed _ hc with hc | hu
    · exact Or.inr hc
    · exact Or.inl hu

theorem Owned.shared {s : Store} (hrec : Recorded s) {c' : Conflict} (h : s.Owned c)
    (h' : s.Owned c') (hid : c.revision_id=c'.revision_id) : ∃op op' g,
      s.operation? c.preparation_id=some op ∧ s.operation? c'.preparation_id=some op' ∧
      g∈s.games op ∧ g∈s.games op' := by
  obtain ⟨op,hop,r,hr,hrid,hg⟩ := h
  obtain ⟨op',hop',r',hr',hrid',hg'⟩ := h'
  have : r=r' := hrec.unique hr hr' (by rw [hrid,hrid',hid])
  subst this
  exact ⟨op,op',r.game,hop,hop',hg,hg'⟩

theorem Staged.turn (h : Staged σ) (hrec : Recorded σ.store) (hres : Reserved σ.store)
    (ht : Turned σ.store t) : Staged { σ with store := t } := by
  constructor
  · change (t.conflicts.map _).Nodup
    rw [ht.conflicts]
    exact h.keys
  · change ∀c∈t.conflicts,t.Owned c
    rw [ht.conflicts]
    exact fun c hc => Owned.turned (h.owned c hc) ht
  · change ∀c∈t.conflicts,∀c'∈t.conflicts,∀r∈t.revisions,_
    rw [ht.conflicts,ht.revisions]
    intro c hc c' hc' r hr hid hid' hs hl hl' hv
    exact h.apart c hc c' hc' r hr hid hid' hs (Owned.live (h.owned c hc) ht hl)
      (Owned.live (h.owned c' hc') ht hl') hv
  · exact fun x hx => Owned.turned (h.reads x hx) ht
  · change ∀x∈σ.stagings,∀c∈t.conflicts,∀r∈t.revisions,_
    rw [ht.conflicts,ht.revisions]
    intro x hx c hc r hr hid hid' hs hu hch
    have hus := Owned.underWay (h.reads x hx) ht hu
    rcases ht.changed _ hch with hcs | hcu
    · exact h.fresh x hx c hc r hr hid hid' hs hus hcs
    · -- two preparations of one game under way would be one
      obtain ⟨op,op',g,hop,hop',hg,hg'⟩ := Owned.shared hrec (h.reads x hx) (h.owned c hc)
        (by rw [hid,hid'])
      have heq := hres.exclusive hop hop' hus hcu hg hg'
      rw [heq] at hu
      exact absurd hch (not_changed_of_underWay hu)

/-- What the revisions and events become while the preparations stay as they are. -/
structure Revised (s t : Store) : Prop where
  operations : t.operations=s.operations
  runs : t.runs=s.runs
  slots : t.slots=s.slots
  conflicts : t.conflicts=s.conflicts
  kept : ∀r∈s.revisions,∃r'∈t.revisions,r'.id=r.id ∧ r'.game=r.game
  origin : ∀r'∈t.revisions,(∀r∈s.revisions,r.id≠r'.id) ∨
    ∃r∈s.revisions,r.id=r'.id ∧ (r'.status.applicable=true → r.status.applicable=true)

theorem Revised.trans {s u : Store} (h : Revised s t) (h' : Revised t u) : Revised s u := by
  refine ⟨h'.operations.trans h.operations,h'.runs.trans h.runs,h'.slots.trans h.slots,
    h'.conflicts.trans h.conflicts,?_,?_⟩
  · intro r hr
    obtain ⟨r',hr',hid,hg⟩ := h.kept r hr
    obtain ⟨r'',hr'',hid',hg'⟩ := h'.kept r' hr'
    exact ⟨r'',hr'',hid'.trans hid,hg'.trans hg⟩
  · intro r'' hr''
    rcases h'.origin r'' hr'' with hnew | ⟨r',hr',hid',hs'⟩
    · refine Or.inl fun r hr heq => ?_
      obtain ⟨r',hr',hid,_⟩ := h.kept r hr
      exact hnew r' hr' (hid.trans heq)
    · rcases h.origin r' hr' with hnew | ⟨r,hr,hid,hs⟩
      · exact Or.inl fun r hr heq => hnew r hr (heq.trans hid'.symm)
      · exact Or.inr ⟨r,hr,hid.trans hid',fun h => hs (hs' h)⟩

section

variable {s : Store}

theorem Revised.operation? (h : Revised s t) (p : JsString) : t.operation? p=s.operation? p := by
  rw [Store.operation?,Store.operation?,h.operations]

theorem Revised.run? (h : Revised s t) (r : JsString) : t.run? r=s.run? r := by
  rw [Store.run?,Store.run?,h.runs]

theorem Revised.games (h : Revised s t) (op : Operation) : t.games op=s.games op := by
  rw [Store.games,Store.games]
  cases op.supported_game with
  | some g => rfl
  | none => dsimp only; rw [h.run?]

theorem Revised.changed (h : Revised s t) (p : JsString) : t.changed p ↔ s.changed p := by
  have hsc : ∀op,t.sourceChanged op=s.sourceChanged op := by
    intro op
    rw [sourceChanged,sourceChanged,h.run?]
  simp only [Store.changed,h.operation?,hsc]

theorem Revised.underWay (h : Revised s t) (p : JsString) : t.underWay p ↔ s.underWay p := by
  simp only [Store.underWay,h.operation?,h.run?]

theorem Revised.owned (h : Revised s t) {c : Conflict} (hc : s.Owned c) : t.Owned c := by
  obtain ⟨op,hop,r,hr,hid,hg⟩ := hc
  obtain ⟨r',hr',hid',hg'⟩ := h.kept r hr
  refine ⟨op,by rw [h.operation?,hop],r',hr',hid'.trans hid,?_⟩
  rw [h.games,hg']
  exact hg

theorem Revised.reserved (h : Revised s t) (hr : Reserved s) : Reserved t := by
  constructor
  · rw [h.operations]; exact hr.ids
  · rw [h.runs]; exact hr.distinct
  · rw [h.operations]
    intro op hop
    rw [h.run?]
    exact hr.runs op hop
  · rw [h.operations]; exact hr.whole
  · rw [h.slots]; exact hr.slots
  · intro p op hop hu g hg
    rw [h.slots]
    rw [h.operation?] at hop
    rw [h.games] at hg
    exact hr.held p op hop ((h.underWay p).mp hu) g hg
  · intro p op hop hg hc
    rw [h.operation?] at hop
    exact hr.ended p op hop hg ((h.changed p).mp hc)
  · intro r row hrow hout
    rw [h.run?] at hrow
    rw [h.operation?]
    exact hr.verdict r row hrow hout

end

theorem Staged.revised (h : Staged σ) (ht : Revised σ.store t) : Staged { σ with store := t } := by
  -- a conflict or a read on a revision finds that revision before the step
  have hback : ∀{c : Conflict},σ.store.Owned c → ∀r'∈t.revisions,c.revision_id=r'.id →
      r'.status.applicable=true → ∃r∈σ.store.revisions,r.id=r'.id ∧ r.status.applicable=true := by
    rintro c ⟨op,_,r₀,hr₀,hid₀,_⟩ r' hr' hid hs
    rcases ht.origin r' hr' with hnew | ⟨r,hr,hrid,hrs⟩
    · exact absurd (hid₀.trans hid) (hnew r₀ hr₀)
    · exact ⟨r,hr,hrid,hrs hs⟩
  have hlive : ∀p,t.live p → σ.store.live p := by
    rintro p (hu | hc)
    · exact Or.inl ((ht.underWay p).mp hu)
    · exact Or.inr ((ht.changed p).mp hc)
  constructor
  · change (t.conflicts.map _).Nodup
    rw [ht.conflicts]
    exact h.keys
  · change ∀c∈t.conflicts,t.Owned c
    rw [ht.conflicts]
    exact fun c hc => ht.owned (h.owned c hc)
  · change ∀c∈t.conflicts,∀c'∈t.conflicts,∀r∈t.revisions,_
    rw [ht.conflicts]
    intro c hc c' hc' r' hr' hid hid' hs hl hl' hv
    obtain ⟨r,hr,hrid,hrs⟩ := hback (h.owned c hc) r' hr' hid hs
    exact h.apart c hc c' hc' r hr (hid.trans hrid.symm) (hid'.trans hrid.symm) hrs (hlive _ hl)
      (hlive _ hl') hv
  · exact fun x hx => ht.owned (h.reads x hx)
  · change ∀x∈σ.stagings,∀c∈t.conflicts,∀r∈t.revisions,_
    rw [ht.conflicts]
    intro x hx c hc r' hr' hid hid' hs hu hch
    obtain ⟨r,hr,hrid,hrs⟩ := hback (h.owned c hc) r' hr' hid' hs
    exact h.fresh x hx c hc r hr (hid.trans hrid.symm) (hid'.trans hrid.symm) hrs
      ((ht.underWay _).mp hu) ((ht.changed _).mp hch)

theorem shows_iff {s : Store} : s.shows c r=true ↔ c.revision_id=r.id ∧ s.changed c.preparation_id ∧
    r.status=.active ∧ c.eventVersion=r.event_version+1 := by
  simp only [shows,Bool.and_eq_true,decide_eq_true_eq,Store.changed]
  cases ho : s.operation? c.preparation_id with
  | none => simp
  | some op =>
    simp only [Option.some.injEq,exists_eq_left']
    constructor
    · rintro ⟨⟨⟨h1,h2⟩,h3⟩,h4⟩
      exact ⟨h1,h2,h3,h4⟩
    · rintro ⟨h1,h2,h3,h4⟩
      exact ⟨⟨⟨h1,h2⟩,h3⟩,h4⟩

theorem Staged.shown (h : Staged σ) (hr : r∈σ.store.revisions) : σ.store.conflicts.filter
    (fun c => σ.store.shows c r)=[] ∨ ∃c∈σ.store.conflicts,σ.store.shows c r=true ∧
    σ.store.conflicts.filter (fun c => σ.store.shows c r)=[c] := by
  have heq : ∀c∈σ.store.conflicts,∀c'∈σ.store.conflicts,σ.store.shows c r=true →
      σ.store.shows c' r=true → c=c' := by
    intro c hc c' hc' hs hs'
    obtain ⟨hid,hch,hact,hv⟩ := shows_iff.mp hs
    obtain ⟨hid',hch',_,hv'⟩ := shows_iff.mp hs'
    exact h.apart c hc c' hc' r hr hid hid' (by rw [hact]; rfl) (Or.inr hch) (Or.inr hch')
      (hv.trans hv'.symm)
  have hnodup : (σ.store.conflicts.filter fun c => σ.store.shows c r).Nodup :=
    (List.Nodup.of_map _ h.keys).filter _
  cases hf : σ.store.conflicts.filter fun c => σ.store.shows c r with
  | nil => exact Or.inl rfl
  | cons c cs =>
    have hmem : ∀x∈c::cs,x∈σ.store.conflicts ∧ σ.store.shows x r=true := by
      intro x hx
      rw [← hf] at hx
      exact mem_filter.mp hx
    obtain ⟨hc,hs⟩ := hmem c mem_cons_self
    refine Or.inr ⟨c,hc,hs,?_⟩
    cases cs with
    | nil => rfl
    | cons d ds =>
      obtain ⟨hd,hs'⟩ := hmem d (by simp)
      rw [hf,nodup_cons] at hnodup
      exact absurd (heq c hc d hd hs hs') (fun h => hnodup.1 (by rw [h]; exact mem_cons_self))

theorem Staged.read (h : Staged σ) (hr : r∈σ.store.revisions) :
    σ.store.readRevision r=[r] ∧ (∀c∈σ.store.conflicts,σ.store.shows c r=false) ∨
      ∃c∈σ.store.conflicts,σ.store.shows c r=true ∧ σ.store.readRevision r=
        [{ r with status := .reconfirmation_required, event_version := r.event_version+1 }] := by
  rw [readRevision]
  rcases h.shown hr with hf | ⟨c,hc,hs,hf⟩
  · refine Or.inl ⟨by rw [hf],?_⟩
    intro c hc
    have := filter_eq_nil_iff.mp hf c hc
    simpa using this
  · refine Or.inr ⟨c,hc,hs,?_⟩
    rw [hf]
    simp [(shows_iff.mp hs).2.2.2]

theorem Staged.row (h : Staged σ) {row : Revision} (hrow : row∈σ.store.curatedRevisionRead) :
    ∃r∈σ.store.revisions,row.id=r.id ∧ row.game=r.game ∧
      (row=r ∧ (∀c∈σ.store.conflicts,σ.store.shows c r=false) ∨
        ∃c∈σ.store.conflicts,σ.store.shows c r=true ∧
          row={ r with status := .reconfirmation_required, event_version := r.event_version+1 }) := by
  rw [curatedRevisionRead,mem_flatMap] at hrow
  obtain ⟨r,hr,hrow⟩ := hrow
  rcases h.read hr with ⟨heq,hnone⟩ | ⟨c,hc,hs,heq⟩
  · rw [heq,mem_singleton] at hrow
    subst hrow
    exact ⟨row,hr,rfl,rfl,Or.inl ⟨rfl,hnone⟩⟩
  · rw [heq,mem_singleton] at hrow
    subst hrow
    exact ⟨r,hr,rfl,rfl,Or.inr ⟨c,hc,hs,rfl⟩⟩

theorem Staged.readConflict (h : Staged σ) (hrec : Recorded σ.store) {p : JsString} {generation : Nat} {revision : JsString}
    {details : PendingConflict} {at' : Nat} {x : ConflictRead}
    (hx : σ.store.readConflict p generation revision details at'=some x) :
    Staged { σ with stagings := σ.stagings++[x] } := by
  rw [Store.readConflict] at hx
  cases hop : σ.store.operation? p with
  | none => rw [hop] at hx; cases hx
  | some op =>
    cases hrow : σ.store.curatedRevision? revision with
    | none => rw [hop,hrow] at hx; cases hx
    | some row =>
      rw [hop,hrow] at hx
      dsimp only at hx
      split at hx
      · rename_i hcond
        cases hx
        simp only [Bool.and_eq_true,decide_eq_true_eq,contains_iff_mem] at hcond
        have hid : row.id=revision := by simpa using List.find?_some hrow
        obtain ⟨r,hr,hrid,hrg,hcase⟩ := h.row (List.mem_of_find?_eq_some hrow)
        have htable : row=r ∧ ∀c∈σ.store.conflicts,σ.store.shows c r=false := by
          rcases hcase with hcase | ⟨c,_,_,heq⟩
          · exact hcase
          · rw [heq] at hcond
            exact absurd rfl hcond.2
        have howned : σ.store.Owned ⟨p,revision,row.event_version+1,details,at'⟩ :=
          ⟨op,hop,r,hr,hrid.symm.trans hid,by rw [← hrg]; exact hcond.1⟩
        refine ⟨h.keys,h.owned,h.apart,?_,?_⟩
        · intro y hy
          rcases mem_append.mp hy with hy | hy
          · exact h.reads y hy
          · rw [mem_singleton.mp hy]
            exact howned
        · intro y hy c hc r' hr' hyid hcid hs hu hch
          rcases mem_append.mp hy with hy | hy
          · exact h.fresh y hy c hc r' hr' hyid hcid hs hu hch
          · rw [mem_singleton.mp hy] at hyid ⊢
            intro hv
            dsimp only at hyid hv
            have heq : r'=r := hrec.unique hr' hr (by rw [← hyid,← hid,hrid])
            subst heq
            rw [htable.1] at hcond hv
            have hact : r'.status=.active := by
              cases hst : r'.status with
              | active => rfl
              | reconfirmation_required => exact absurd hst hcond.2
              | superseded => rw [hst] at hs; cases hs
              | retired => rw [hst] at hs; cases hs
            have := htable.2 c hc
            rw [shows_iff.mpr ⟨hcid,hch,hact,hv⟩] at this
            cases this
      · cases hx

theorem writerGuard_underWay {s : Store} (h : Reserved s) {p : JsString} {generation : Nat}
    (hg : s.writerGuard p generation=true) : s.underWay p ∨ ¬s.live p := by
  obtain ⟨op,hop,hs⟩ := writerGuard_preparing hg
  by_cases hu : s.underWay p
  · exact Or.inl hu
  · refine Or.inr ?_
    rintro (hu' | hc)
    · exact hu hu'
    · -- only a whole run can have ended behind a preparation at work
      cases hgame : op.supported_game with
      | none =>
        have := h.ended p op hop hgame hc
        rw [hs] at this
        cases this
      | some g =>
        apply hu
        refine ⟨op,hop,Or.inl hs,?_⟩
        intro hn
        rw [hgame] at hn
        cases hn

theorem Staged.retain (h : Staged σ) (hrec : Recorded σ.store) (hres : Reserved σ.store)
    {x : ConflictRead} (hx : x∈σ.stagings)
    (ht : σ.store.retainConflict x.conflict x.generation=some t) : Staged { σ with store := t } := by
  rw [retainConflict] at ht
  split at ht
  · cases ht
  · rename_i hguard
    simp only [Bool.not_eq_true',Bool.not_eq_false] at hguard
    split at ht
    · cases ht
      exact h
    · rename_i hkey
      split at ht
      · cases ht
      · cases ht
        have hne : ∀c∈σ.store.conflicts,¬(c.preparation_id=x.conflict.preparation_id ∧
            c.revision_id=x.conflict.revision_id) := by
          intro c hc heq
          apply hkey
          rw [any_eq_true]
          exact ⟨c,hc,by simp [heq]⟩
        have hown := h.reads x hx
        -- a live conflict on the revision is visible already, so it carries another version
        have hnew : ∀c∈σ.store.conflicts,∀r∈σ.store.revisions,x.conflict.revision_id=r.id →
            c.revision_id=r.id → r.status.applicable=true →
            σ.store.live x.conflict.preparation_id → σ.store.live c.preparation_id →
            c.eventVersion≠x.conflict.eventVersion := by
          intro c hc r hr hid hid' hs hl hl'
          have hu : σ.store.underWay x.conflict.preparation_id := by
            rcases writerGuard_underWay hres hguard with hu | hn
            · exact hu
            · exact absurd hl hn
          rcases hl' with hcu | hch
          · obtain ⟨op,op',g,hop,hop',hg,hg'⟩ := Owned.shared hrec hown (h.owned c hc)
              (by rw [hid,hid'])
            have heq := hres.exclusive hop hop' hu hcu hg hg'
            exact absurd ⟨heq.symm,by rw [hid,hid']⟩ (hne c hc)
          · exact h.fresh x hx c hc r hr hid hid' hs hu hch
        constructor
        · change ((σ.store.conflicts++[x.conflict]).map _).Nodup
          rw [map_append,nodup_append']
          refine ⟨h.keys,nodup_singleton _,?_⟩
          intro k hk hk'
          obtain ⟨c,hc,rfl⟩ := mem_map.mp hk
          simp only [map_cons,map_nil,mem_singleton,Prod.mk.injEq] at hk'
          exact hne c hc hk'
        · intro c hc
          rcases mem_append.mp hc with hc | hc
          · exact h.owned c hc
          · rw [mem_singleton.mp hc]
            exact hown
        · intro c hc c' hc' r hr hid hid' hs hl hl' hv
          rcases mem_append.mp hc with hc | hc
          · rcases mem_append.mp hc' with hc' | hc'
            · exact h.apart c hc c' hc' r hr hid hid' hs hl hl' hv
            · rw [mem_singleton.mp hc'] at hid' hl' hv
              exact absurd hv (hnew c hc r hr hid' hid hs hl' hl)
          · rw [mem_singleton.mp hc] at hid hl hv ⊢
            rcases mem_append.mp hc' with hc' | hc'
            · exact absurd hv.symm (hnew c' hc' r hr hid hid' hs hl hl')
            · exact (mem_singleton.mp hc').symm
        · exact h.reads
        · intro y hy c hc r hr hid hid' hs hu hch
          rcases mem_append.mp hc with hc | hc
          · exact h.fresh y hy c hc r hr hid hid' hs hu hch
          · rw [mem_singleton.mp hc] at hch
            rcases writerGuard_underWay hres hguard with hux | hn
            · exact absurd hch (not_changed_of_underWay hux)
            · exact absurd (Or.inr hch) hn

end

end CardKeepr.Curated
