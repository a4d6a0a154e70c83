import CardKeepr.Curated.Candidate

namespace CardKeepr.Curated

open Shared Shared.JsonPointer Lib List

-- What stands in a candidate after the pinned revisions of a run, one after another, have been
-- applied to it.

abbrev Frame := EntityType × JsString × JsString

def Entity.frame (e : Entity) : Frame := (e.type,e.id,e.owner)

def Candidate.frames (c : Candidate) : List Frame := c.entities.map Entity.frame

def frameTarget (frames : List Frame) (game : JsString) (type : EntityType) (id : JsString)
    (f : Frame) : Bool :=
  f.1=type && f.2.1=id && match f.1 with
  | .printing => frames.any fun card => card.1=.card && card.2.1=f.2.2 && card.2.2=game
  | _ => f.2.2=game

section

variable {c c' : Candidate} {game : JsString}

theorem isTarget_eq (type : EntityType) (id : JsString) (e : Entity) :
    c.isTarget game type id e=frameTarget c.frames game type id e.frame := by
  rw [Candidate.isTarget,Candidate.belongs,frameTarget,Candidate.frames]
  cases htype : e.type <;> simp [Entity.frame,htype,any_map,Function.comp_def]
  rfl

theorem candidateTarget_eq (target : FieldTarget) : candidateTarget c game target=
    c.frames.findIdx? (frameTarget c.frames game target.entity_type target.entity_id) := by
  have hpred : c.isTarget game target.entity_type target.entity_id=
      frameTarget c.frames game target.entity_type target.entity_id∘Entity.frame := by
    funext e
    exact isTarget_eq _ _ e
  have hmap := List.findIdx?_map (p := frameTarget c.frames game target.entity_type
    target.entity_id) (f := Entity.frame) (l := c.entities)
  rw [candidateTarget,hpred,← hmap]
  rfl

theorem candidateTarget_congr (h : c'.frames=c.frames) (target : FieldTarget) :
    candidateTarget c' game target=candidateTarget c game target := by
  rw [candidateTarget_eq,candidateTarget_eq,h]

theorem candidateTarget_some {target : FieldTarget} {i : Nat}
    (h : candidateTarget c game target=some i) : ∃e,c.entities[i]?=some e := by
  obtain ⟨hi,_⟩ := List.findIdx?_eq_some_iff_getElem.mp h
  exact ⟨_,List.getElem?_eq_getElem hi⟩

theorem frames_modify (i : Nat) (body : Value) (item : CuratedProvenance) :
    (c.entities.modify i fun e => e.curate body item).map Entity.frame=c.frames := by
  rw [Candidate.frames]
  apply List.ext_getElem?
  intro j
  rw [List.getElem?_map,List.getElem?_map,List.getElem?_modify]
  cases c.entities[j]? with
  | none => rfl
  | some e =>
    change some (Entity.frame (if i=j then e.curate body item else e))=some e.frame
    split <;> rfl

theorem restoreEntity_frame {games : Option (List JsString)} {e e' : Entity}
    (h : restoreEntity c games e=some e') : e'.frame=e.frame := by
  rw [restoreEntity] at h
  split at h
  · obtain ⟨body,_,rfl⟩ := Option.map_eq_some_iff.mp h
    rfl
  · obtain rfl := Option.some.inj h
    rfl

theorem strip_frames {games : Option (List JsString)}
    (h : stripCuratedRevisionEffects c games=some c') : c'.frames=c.frames := by
  obtain ⟨entities,hmap,rfl⟩ := Option.map_eq_some_iff.mp h
  have hforall := mapM_some.mp hmap
  change entities.map Entity.frame=c.entities.map Entity.frame
  clear hmap h
  generalize c.entities=l at hforall
  induction hforall with
  | nil => rfl
  | cons he _ ih => rw [map_cons,map_cons,restoreEntity_frame he,ih]

end

theorem applyRevision_cases {c c' : Candidate} {x : Comparison} (h : applyRevision c x=.ok c') :
    (∃target value i e body,x.row.proposal.assertion=.field target value ∧
      candidateTarget c x.row.proposal.game target=some i ∧ c.entities[i]?=some e ∧
      setAt (pointerParts target.path) (.of value) e.body=some body ∧
      c'=⟨c.entities.modify i fun e => e.curate body (provenanceFor x.row x.reviewedSourceValue),
        c.product_relationships⟩) ∨
    ∃target present,x.row.proposal.assertion=.relationship target present ∧
      relationshipRepresentable c x.row.proposal.game target=true ∧
      c'=⟨c.entities,(c.product_relationships.map fun r => if r.matching target then
          r.curate present (provenanceFor x.row x.reviewedSourceValue) else r)++
        if c.product_relationships.any (·.matching target) then [] else
          [curatedRelationship x.row target present
            (provenanceFor x.row x.reviewedSourceValue)]⟩ := by
  rw [applyRevision] at h
  cases ha : x.row.proposal.assertion with
  | field target value =>
    simp only [ha] at h
    cases ht : candidateTarget c x.row.proposal.game target with
    | none =>
      rw [ht] at h
      cases h
    | some i =>
      rw [ht] at h
      obtain ⟨body,hbody,h⟩ := bind_ok h
      obtain ⟨e,he⟩ := candidateTarget_some ht
      have hset : setAt (pointerParts target.path) (.of value) e.body=some body := by
        rw [he,Option.bind_some] at hbody
        cases hs : setAt (pointerParts target.path) (.of value) e.body with
        | none =>
          rw [hs] at hbody
          cases hbody
        | some b =>
          rw [hs] at hbody
          exact congrArg some (Except.ok.inj hbody)
      obtain rfl := Except.ok.inj h
      exact .inl ⟨target,value,i,e,body,rfl,ht,he,hset,rfl⟩
  | relationship target present =>
    simp only [ha,applyRelationship] at h
    obtain ⟨u,hu,h⟩ := bind_ok h
    refine .inr ⟨target,present,rfl,demand_ok hu,?_⟩
    obtain rfl := Except.ok.inj h
    by_cases hany : c.product_relationships.any (·.matching target)=true
    · rw [if_pos hany,if_pos hany,append_nil]
    · rw [if_neg hany,if_neg hany]

theorem applyRevision_frames {c c' : Candidate} {x : Comparison}
    (h : applyRevision c x=.ok c') : c'.frames=c.frames := by
  obtain ⟨target,value,i,e,body,_,_,_,_,rfl⟩ | ⟨target,present,_,_,rfl⟩ := applyRevision_cases h
  · exact frames_modify i body _
  · rfl

/-- The value a candidate has under a field target. -/
def fieldValue (c : Candidate) (game : JsString) (target : FieldTarget) : Option Value :=
  ((candidateTarget c game target).bind fun i => c.entities[i]?).bind fun e =>
    valueAt (pointerParts target.path) e.body

/-- A revision has taken effect: its value stands at its target, its relationship is there or is
not there. -/
def TakesEffect (c : Candidate) (row : Selected) : Prop :=
  match row.proposal.assertion with
  | .field target value => fieldValue c row.proposal.game target=some (.of value)
  | .relationship target present => relationshipPresent c target=present

/-- Two assertions that can stand together: on one entity the value at the outer pointer has the
inner value at the rest of the inner pointer, and one relationship has one presence. -/
def Agree (c : Candidate) (a b : Selected) : Prop :=
  match a.proposal.assertion,b.proposal.assertion with
  | .field target value,.field target' value' =>
    ∀i,candidateTarget c a.proposal.game target=some i →
      candidateTarget c b.proposal.game target'=some i →
      ∀rest,pointerParts target'.path=pointerParts target.path++rest →
        valueAt rest (.of value)=some (.of value')
  | .relationship target present,.relationship target' present' =>
    target=target' → present=present'
  | _,_ => True

theorem agree_congr {c c' : Candidate} (h : c'.frames=c.frames) (a b : Selected) :
    Agree c' a b ↔ Agree c a b := by
  unfold Agree
  split
  · rw [candidateTarget_congr h,candidateTarget_congr h]
  · exact Iff.rfl
  · exact Iff.rfl

theorem agree_self (c : Candidate) (a : Selected) : Agree c a a := by
  unfold Agree
  split
  · rename_i hb ha
    intro i _ _ rest hrest
    rw [ha] at hb
    cases hb
    have hnil : rest=[] := by simpa using hrest
    rw [hnil]
    rfl
  · rename_i hb ha
    intro _
    rw [ha] at hb
    cases hb
    rfl
  · trivial

theorem agree_of_takesEffect {c : Candidate} {a b : Selected} (ha : TakesEffect c a)
    (hb : TakesEffect c b) : Agree c a b := by
  unfold Agree
  split
  · rename_i hka hkb
    intro i hi hj rest hrest
    simp only [TakesEffect,hka,hkb,fieldValue,hi,hj,Option.bind_some] at ha hb
    cases he : c.entities[i]? with
    | none =>
      rw [he] at ha
      cases ha
    | some e =>
      rw [he,Option.bind_some] at ha hb
      rw [hrest,valueAt_append,ha] at hb
      exact hb
  · rename_i hka hkb
    rintro rfl
    simp only [TakesEffect,hka,hkb] at ha hb
    exact ha.symm.trans hb
  · trivial

/-- Effect in the form that later revisions keep: every matching relationship has the presence. -/
def Stands (c : Candidate) (row : Selected) : Prop :=
  match row.proposal.assertion with
  | .field target value => fieldValue c row.proposal.game target=some (.of value)
  | .relationship target present => (∃r∈c.product_relationships,r.matching target=true) ∧
      ∀r∈c.product_relationships,r.matching target=true → r.observed=present

theorem Stands.takesEffect {c : Candidate} {row : Selected} (h : Stands c row) :
    TakesEffect c row := by
  unfold Stands at h
  unfold TakesEffect
  cases ha : row.proposal.assertion with
  | field target value =>
    rw [ha] at h
    exact h
  | relationship target present =>
    rw [ha] at h
    obtain ⟨⟨r,hr,hm⟩,hall⟩ := h
    have hobserved := hall r hr hm
    cases present with
    | true =>
      apply any_eq_true.mpr
      exact ⟨r,hr,by rw [hobserved,hm]; rfl⟩
    | false =>
      apply any_eq_false.mpr
      intro x hx
      by_cases hmx : x.matching target=true
      · rw [hall x hx hmx]
        simp
      · rw [Bool.not_eq_true] at hmx
        rw [hmx]
        simp

theorem fieldValue_modify {c : Candidate} {i : Nat} {e : Entity} (he : c.entities[i]?=some e)
    (body : Value) (item : CuratedProvenance) (game : JsString) (target : FieldTarget) :
    fieldValue ⟨c.entities.modify i fun e => e.curate body item,c.product_relationships⟩ game
      target=if candidateTarget c game target=some i then valueAt (pointerParts target.path) body
        else fieldValue c game target := by
  have hframes : (⟨c.entities.modify i fun e => e.curate body item,c.product_relationships⟩ :
      Candidate).frames=c.frames := frames_modify i body item
  rw [fieldValue,fieldValue,candidateTarget_congr hframes]
  cases ht : candidateTarget c game target with
  | none => rfl
  | some j =>
    dsimp only [Option.bind_some]
    rw [List.getElem?_modify]
    by_cases hij : j=i
    · rw [hij,he,if_pos rfl]
      simp [Entity.curate]
    · rw [if_neg (by simpa using hij)]
      have hij' : ¬i=j := fun h => hij h.symm
      simp [hij']

def ProductRelationship.triple (r : ProductRelationship) : RelationshipTarget :=
  ⟨r.kind,r.fromEnd,r.toEnd⟩

theorem matching_iff {r : ProductRelationship} {target : RelationshipTarget} :
    r.matching target=true ↔ r.triple=target := by
  obtain ⟨kind,fromEnd,toEnd⟩ := target
  simp only [ProductRelationship.matching,ProductRelationship.triple,Bool.and_eq_true,
    decide_eq_true_eq,RelationshipTarget.mk.injEq]
  tauto

@[simp] theorem curate_triple (r : ProductRelationship) (present : Bool)
    (item : CuratedProvenance) : (r.curate present item).triple=r.triple := rfl

@[simp] theorem curate_observed (r : ProductRelationship) (present : Bool)
    (item : CuratedProvenance) : (r.curate present item).observed=present := rfl

@[simp] theorem curatedRelationship_triple (row : Selected) (target : RelationshipTarget)
    (present : Bool) (item : CuratedProvenance) :
    (curatedRelationship row target present item).triple=target := rfl

section

variable {c c' : Candidate} {x : Comparison}

theorem applyRevision_relationships {target : RelationshipTarget} {present : Bool}
    {item : CuratedProvenance} {row : Selected} {rs : List ProductRelationship} :
    (∃r∈(rs.map fun r => if r.matching target then r.curate present item else r)++
      (if rs.any (·.matching target) then [] else [curatedRelationship row target present item]),
      r.triple=target) ∧
    ∀r∈(rs.map fun r => if r.matching target then r.curate present item else r)++
      (if rs.any (·.matching target) then [] else [curatedRelationship row target present item]),
      r.triple=target ∧ r.observed=present ∨ r.triple≠target ∧ r∈rs := by
  constructor
  · by_cases hany : rs.any (·.matching target)=true
    · obtain ⟨r,hr,hm⟩ := any_eq_true.mp hany
      refine ⟨r.curate present item,mem_append_left _ ?_,matching_iff.mp hm⟩
      exact mem_map.mpr ⟨r,hr,by rw [if_pos hm]⟩
    · rw [if_neg hany]
      exact ⟨_,mem_append_right _ (mem_singleton_self _),rfl⟩
  · intro r hr
    rcases mem_append.mp hr with hr | hr
    · obtain ⟨r₀,hr₀,rfl⟩ := mem_map.mp hr
      by_cases hm : r₀.matching target=true
      · rw [if_pos hm]
        exact .inl ⟨matching_iff.mp hm,rfl⟩
      · rw [if_neg hm]
        exact .inr ⟨fun heq => hm (matching_iff.mpr heq),hr₀⟩
    · split at hr
      · cases hr
      · obtain rfl := mem_singleton.mp hr
        exact .inl ⟨rfl,rfl⟩

theorem applyRevision_stands (h : applyRevision c x=.ok c') : Stands c' x.row := by
  unfold Stands
  obtain ⟨target,value,i,e,body,ha,ht,he,hset,rfl⟩ | ⟨target,present,ha,_,rfl⟩ :=
    applyRevision_cases h
  · rw [ha]
    dsimp only
    rw [fieldValue_modify he,if_pos ht]
    exact valueAt_setAt_self hset
  · rw [ha]
    obtain ⟨⟨r,hr,hm⟩,hall⟩ := @applyRevision_relationships target present
      (provenanceFor x.row x.reviewedSourceValue) x.row c.product_relationships
    refine ⟨⟨r,hr,matching_iff.mpr hm⟩,?_⟩
    intro r' hr' hm'
    rcases hall r' hr' with ⟨_,hp⟩ | ⟨hne,_⟩
    · exact hp
    · exact absurd (matching_iff.mp hm') hne

theorem valueAt_write {p q : Path} {v w t t' : Value} (hset : setAt p v t=some t')
    (hq : valueAt q t=some w) (hdown : ∀rest,q=p++rest → valueAt rest v=some w)
    (hup : ∀rest,p=q++rest → valueAt rest w=some v) : valueAt q t'=some w := by
  have hp : p≠[] := by
    rintro rfl
    simp [JsonPointer.setAt] at hset
  by_cases hpq : p<+:q
  · obtain ⟨rest,rfl⟩ := hpq
    rw [valueAt_append,valueAt_setAt_self hset]
    exact hdown rest rfl
  · by_cases hqp : q<+:p
    · obtain ⟨rest,rfl⟩ := hqp
      have hv : valueAt (q++rest) t=some v := by
        rw [valueAt_append,hq]
        exact hup rest rfl
      rw [setAt_of_valueAt hv hp] at hset
      obtain rfl := Option.some.inj hset
      exact hq
    · rw [valueAt_setAt_other hset hpq hqp,hq]

theorem Stands.applyRevision {a : Selected} (hs : Stands c a) (h : applyRevision c x=.ok c')
    (hab : Agree c a x.row) (hba : Agree c x.row a) : Stands c' a := by
  unfold Stands at hs ⊢
  unfold Agree at hab hba
  obtain ⟨target,value,i,e,body,ha,ht,he,hset,rfl⟩ | ⟨target,present,ha,_,rfl⟩ :=
    applyRevision_cases h
  · cases hk : a.proposal.assertion with
    | field target' value' =>
      simp only [hk,ha] at hs hab hba ⊢
      rw [fieldValue_modify he]
      split
      · rename_i hi
        rw [fieldValue,hi,Option.bind_some,he,Option.bind_some] at hs
        exact valueAt_write hset hs (hba i ht hi) (hab i hi ht)
      · exact hs
    | relationship target' present' =>
      rw [hk] at hs
      exact hs
  · cases hk : a.proposal.assertion with
    | field target' value' =>
      rw [hk] at hs
      exact hs
    | relationship target' present' =>
      simp only [hk,ha] at hs hab ⊢
      obtain ⟨⟨r₀,hr₀,hm₀⟩,hold⟩ := hs
      obtain ⟨_,hall⟩ := @applyRevision_relationships target present
        (provenanceFor x.row x.reviewedSourceValue) x.row c.product_relationships
      constructor
      · by_cases hm : r₀.matching target=true
        · refine ⟨r₀.curate present (provenanceFor x.row x.reviewedSourceValue),
            mem_append_left _ (mem_map.mpr ⟨r₀,hr₀,by rw [if_pos hm]⟩),?_⟩
          exact matching_iff.mpr (matching_iff.mp hm₀)
        · exact ⟨r₀,mem_append_left _ (mem_map.mpr ⟨r₀,hr₀,by rw [if_neg hm]⟩),hm₀⟩
      · intro r hr hm
        rcases hall r hr with ⟨htriple,hp⟩ | ⟨_,hmem⟩
        · rw [hp]
          exact (hab ((matching_iff.mp hm).symm.trans htriple)).symm
        · exact hold r hmem hm

end

section

variable {nfc : Nfc} {valid : Candidate → Bool} {games : List JsString} {rows : List Selected}
  {c result : Candidate}
variable {comparisons : List Comparison}

theorem applyPinned_ok (h : applyPinnedCuratedRevisions nfc valid games rows c=.ok result) :
    ∃official comparisons,stripCuratedRevisionEffects c (some games)=some official ∧
      List.Forall₂ (fun row x => compareSource nfc official row=.ok x) rows comparisons ∧
      comparisons.foldlM applyRevision official=.ok result := by
  rw [applyPinnedCuratedRevisions] at h
  obtain ⟨official,hstrip,h⟩ := bind_ok h
  obtain ⟨comparisons,hcomp,h⟩ := bind_ok h
  obtain ⟨_,_,h⟩ := bind_ok h
  obtain ⟨t,hfold,h⟩ := bind_ok h
  obtain ⟨_,_,h⟩ := bind_ok h
  obtain rfl := Except.ok.inj h
  refine ⟨official,comparisons,?_,mapM_ok.mp hcomp,hfold⟩
  cases hs : stripCuratedRevisionEffects c (some games) with
  | none =>
    rw [hs] at hstrip
    cases hstrip
  | some o =>
    rw [hs] at hstrip
    exact congrArg some (Except.ok.inj hstrip)

variable {official : Candidate}

theorem compareSource_row {row : Selected} {x : Comparison}
    (h : compareSource nfc official row=.ok x) :
    x.row=row ∧ reviewedSource official row.proposal=.ok x.reviewedSourceValue := by
  rw [compareSource] at h
  obtain ⟨value,hvalue,h⟩ := bind_ok h
  obtain ⟨digest,_,h⟩ := bind_ok h
  obtain rfl := Except.ok.inj h
  exact ⟨rfl,hvalue⟩

theorem comparisons_rows
    (h : List.Forall₂ (fun row x => compareSource nfc official row=.ok x) rows comparisons) :
    comparisons.map (·.row)=rows := by
  induction h with
  | nil => rfl
  | cons hx _ ih => rw [map_cons,ih,(compareSource_row hx).1]

theorem comparisons_reviewed
    (h : List.Forall₂ (fun row x => compareSource nfc official row=.ok x) rows comparisons) :
    ∀x∈comparisons,reviewedSource official x.row.proposal=.ok x.reviewedSourceValue := by
  induction h with
  | nil => simp
  | cons hx _ ih =>
    obtain ⟨hrow,hvalue⟩ := compareSource_row hx
    intro y hy
    rcases mem_cons.mp hy with rfl | hy
    · rw [hrow]
      exact hvalue
    · exact ih y hy

theorem takesEffect_iff_agree (h : applyPinnedCuratedRevisions nfc valid games rows c=.ok result) :
    (∀row∈rows,TakesEffect result row) ↔ ∀a∈rows,∀b∈rows,Agree c a b := by
  obtain ⟨official,comparisons,hstrip,hcomp,hfold⟩ := applyPinned_ok h
  have hofficial : official.frames=c.frames := strip_frames hstrip
  have hrows := comparisons_rows hcomp
  have hframes : result.frames=official.frames :=
    @foldlM_ok _ _ _ _ (fun _ t => t.frames=official.frames) _ _ _ hfold rfl
      fun _ _ _ _ _ _ ht hs => (applyRevision_frames hs).trans ht
  constructor
  · intro hall a ha b hb
    rw [← agree_congr (hframes.trans hofficial)]
    exact agree_of_takesEffect (hall a ha) (hall b hb)
  · intro hagree
    -- after every prefix the rows applied so far stand
    have hstands : ∀x∈comparisons,Stands result x.row := by
      have hboth := @foldlM_ok _ _ _ _ (fun done t => t.frames=c.frames ∧
        ∀x∈done,Stands t x.row) _ _ _ hfold ⟨hofficial,by simp⟩ ?_
      · exact hboth.2
      · intro done x rest s s' heq hP hs
        refine ⟨(applyRevision_frames hs).trans hP.1,?_⟩
        intro y hy
        have hmem : ∀z∈done++x::rest,z.row∈rows := by
          intro z hz
          rw [← hrows,heq]
          exact mem_map_of_mem hz
        have hx : x.row∈rows := hmem x (by simp)
        rcases mem_append.mp hy with hy | hy
        · have hyrow : y.row∈rows := hmem y (by simp [hy])
          apply (hP.2 y hy).applyRevision hs
          · rw [agree_congr hP.1]
            exact hagree _ hyrow _ hx
          · rw [agree_congr hP.1]
            exact hagree _ hx _ hyrow
        · obtain rfl := mem_singleton.mp hy
          exact applyRevision_stands hs
    intro row hrow
    rw [← hrows] at hrow
    obtain ⟨x,hx,rfl⟩ := mem_map.mp hrow
    exact (hstands x hx).takesEffect

end

theorem run_apart (moves : List Move) : (State.new.run moves).store.Apart :=
  (run_later State.new moves).apart .new

theorem mem_active {s : Store} {games : List JsString} {on : Nat} {x : Selected}
    (h : x∈activeCuratedRevisions s games on) : ∃r∈s.revisions,r.status=.active ∧
      r.effective on=true ∧ x=⟨r.id,r.proposal,r.content_digest,
        reviewedDigest r (Store.lastByVersion (s.eventsOfKind r.id .reaffirmed))⟩ := by
  obtain ⟨row,hrow,rfl⟩ := mem_map.mp h
  obtain ⟨hread,hcond⟩ := mem_filter.mp hrow
  simp only [Bool.and_eq_true,decide_eq_true_eq] at hcond
  obtain ⟨⟨hactive,_⟩,heff⟩ := hcond
  obtain ⟨r,hr,hmem⟩ := mem_flatMap.mp hread
  rw [Store.readRevision] at hmem
  split at hmem
  · obtain rfl := mem_singleton.mp hmem
    exact ⟨row,hr,hactive,heff,rfl⟩
  · obtain ⟨conflict,_,rfl⟩ := mem_map.mp hmem
    cases hactive

theorem active_of_targetKey {s : Store} (hs : s.Apart) {games : List JsString} {on : Nat}
    {a b : Selected} (ha : a∈activeCuratedRevisions s games on)
    (hb : b∈activeCuratedRevisions s games on)
    (hkey : targetKey a.proposal=targetKey b.proposal) : a=b := by
  obtain ⟨r,hr,hact,heff,rfl⟩ := mem_active ha
  obtain ⟨r',hr',hact',heff',rfl⟩ := mem_active hb
  have hkey' : r.target_key=r'.target_key := by
    rw [(hs.authored r hr).target_key,(hs.authored r' hr').target_key]
    exact hkey
  rw [hs.same hr hr' hact hact' hkey' heff heff']

/-- After any history the revisions in force on a date, applied in any order without a failure, all
take effect if and only if those of different target keys agree. -/
theorem curated_effects_iff (nfc : Nfc) (valid : Candidate → Bool) (moves : List Move)
    (games : List JsString) (on : Nat) (rows : List Selected)
    (hrows : rows.Perm (activeCuratedRevisions (State.new.run moves).store games on))
    (c result : Candidate) (h : applyPinnedCuratedRevisions nfc valid games rows c=.ok result) :
    (∀row∈rows,TakesEffect result row) ↔ ∀a∈rows,∀b∈rows,targetKey a.proposal≠targetKey b.proposal →
    Agree c a b := by
  rw [takesEffect_iff_agree h]
  constructor
  · intro hall a ha b hb _
    exact hall a ha b hb
  · intro hall a ha b hb
    by_cases hkey : targetKey a.proposal=targetKey b.proposal
    · have heq : a=b := active_of_targetKey (run_apart moves) (hrows.mem_iff.mp ha)
        (hrows.mem_iff.mp hb) hkey
      rw [heq]
      exact agree_self c b
    · exact hall a ha b hb hkey

/-- A proposal of the release of one product, reviewed against the text of its source. -/
def releaseProposal (path : String) (value : Json) (source : String) : Proposal :=
  ⟨js "digimon".toList,.field ⟨.release,js "release_1".toList,js path.toList⟩ value,
    js "rationale".toList,[.source_observation (js "obs_1".toList)],none,none,
    sha256Text (js source.toList),none⟩

def createRelease (n : String) (proposal : Proposal) : Move :=
  .create ⟨js ("key_"++n).toList,js ("request_"++n).toList,js ("currev_"++n).toList,proposal,
    js ("digest_"++n).toList,0⟩

def dateOf (day : String) : Json :=
  .obj [(js "precision".toList,.str (js "day".toList)),(js "value".toList,.str (js day.toList))]

def releaseCandidate : Candidate :=
  ⟨[⟨.product,js "product_1".toList,js "digimon".toList,
      .of (.obj [(js "reference".toList,.obj [(js "kind".toList,.str (js "name".toList)),
          (js "value".toList,.str (js "Starter".toList))]),
        (js "official_code".toList,.null),(js "name".toList,.str (js "Starter".toList))]),none⟩,
    ⟨.release,js "release_1".toList,js "digimon".toList,
      .of (.obj [(js "date".toList,dateOf "2024-01-01"),(js "status".toList,.null)]),none⟩],[]⟩

def plainNfc : Nfc := .asWritten

/-- Two revisions of the release: the day of its date, and another field. -/
def releaseMoves (path : String) (value : Json) (source : String) : List Move :=
  [createRelease "1" (releaseProposal "/date/value" (.str (js "2024-01-03".toList))
      "\"2024-01-01\""),
    createRelease "2" (releaseProposal path value source)]

def dateSource : String := "\x7b\"precision\":\"day\",\"value\":\"2024-01-01\"\x7d"

/-- The revisions of those moves in force on the first day. -/
def releaseRows (path : String) (value : Json) (source : String) : List Selected :=
  activeCuratedRevisions (State.new.run (releaseMoves path value source)).store
    [js "digimon".toList] 0

def releaseResult (path : String) (value : Json) (source : String) : Except Failure Candidate :=
  applyPinnedCuratedRevisions plainNfc (fun _ => true) [js "digimon".toList]
    (releaseRows path value source) releaseCandidate

/-- The whole date of a release, curated beside its day, overwrites the day. -/
theorem curated_effects_overwritten : ∃result,
    releaseResult "/date" (dateOf "2024-01-02") dateSource=.ok result ∧
    ¬∀row∈releaseRows "/date" (dateOf "2024-01-02") dateSource,TakesEffect result row := by
  have hvalue : (releaseResult "/date" (dateOf "2024-01-02") dateSource).toOption.bind (fun r =>
      fieldValue r (js "digimon".toList) ⟨.release,js "release_1".toList,js "/date/value".toList⟩)=
      some (.of (.str (js "2024-01-02".toList))) := by decide +kernel
  obtain ⟨result,hresult⟩ : ∃r,releaseResult "/date" (dateOf "2024-01-02") dateSource=.ok r := by
    cases h : releaseResult "/date" (dateOf "2024-01-02") dateSource with
    | error e => rw [h] at hvalue; cases hvalue
    | ok r => exact ⟨r,rfl⟩
  refine ⟨result,hresult,fun hall => ?_⟩
  have hrow : ∃row∈releaseRows "/date" (dateOf "2024-01-02") dateSource,row.proposal=
      releaseProposal "/date/value" (.str (js "2024-01-03".toList)) "\"2024-01-01\"" := by
    decide +kernel
  obtain ⟨row,hmem,hproposal⟩ := hrow
  have hread := hall row hmem
  simp only [TakesEffect,hproposal,releaseProposal] at hread
  rw [hresult] at hvalue
  have hboth : some (Value.of (.str (js "2024-01-03".toList)))=
      some (.of (.str (js "2024-01-02".toList))) :=
    hread.symm.trans hvalue
  exact absurd hboth (by decide +kernel)

/-- The day and the status of a release are curated side by side. -/
theorem curated_effects_side_by_side : ∃result,
    releaseResult "/status" (.str (js "released".toList)) "null"=.ok result ∧
    (releaseRows "/status" (.str (js "released".toList)) "null").length=2 ∧
    ∀row∈releaseRows "/status" (.str (js "released".toList)) "null",TakesEffect result row := by
  have hok : (releaseResult "/status" (.str (js "released".toList)) "null").isOk=true := by
    decide +kernel
  obtain ⟨result,hresult⟩ := ok_of_isOk hok
  refine ⟨result,hresult,by decide +kernel,?_⟩
  refine (curated_effects_iff plainNfc (fun _ => true) (releaseMoves "/status"
    (.str (js "released".toList)) "null") [js "digimon".toList] 0 _ (List.Perm.refl _)
    releaseCandidate result hresult).mpr ?_
  intro a ha b hb hne
  have hproposals : ∀row∈releaseRows "/status" (.str (js "released".toList)) "null",
      row.proposal=releaseProposal "/date/value" (.str (js "2024-01-03".toList)) "\"2024-01-01\"" ∨
      row.proposal=releaseProposal "/status" (.str (js "released".toList)) "null" := by
    decide +kernel
  have happart : ∀p∈[pointerParts (js "/date/value".toList),pointerParts (js "/status".toList)],
      ∀q∈[pointerParts (js "/date/value".toList),pointerParts (js "/status".toList)],
      p≠q → ¬p<+:q := by decide +kernel
  rcases hproposals a ha with ha | ha <;> rcases hproposals b hb with hb | hb
  · rw [ha,hb] at hne
    exact absurd rfl hne
  · simp only [Agree,ha,hb,releaseProposal]
    intro i _ _ rest hrest
    exact absurd ⟨rest,hrest.symm⟩ (happart _ (by simp) _ (by simp) (by decide +kernel))
  · simp only [Agree,ha,hb,releaseProposal]
    intro i _ _ rest hrest
    exact absurd ⟨rest,hrest.symm⟩ (happart _ (by simp) _ (by simp) (by decide +kernel))
  · rw [ha,hb] at hne
    exact absurd rfl hne

end CardKeepr.Curated
