import CardKeepr.Curated.Effects
import CardKeepr.Shared.JsonRestore

namespace CardKeepr.Curated

open Shared Shared.JsonPointer Lib List

-- Taking the effects of applied revisions back from a candidate: when the official candidate they
-- were applied to comes back.

/-- Nothing curated in the selected games. -/
structure Official (games : List JsString) (c : Candidate) : Prop where
  entities : ∀e∈c.entities,c.selects (some games) e=true → e.curated_provenance=none
  relationships : ∀r∈c.product_relationships,games.contains r.game=true →
    r.curated_provenance=none ∧ r.evidence_category≠curatedCategory

section

variable {c c' : Candidate} {games : List JsString}

theorem selects_congr (h : c'.frames=c.frames) {e e' : Entity} (he : e'.frame=e.frame)
    (games : Option (List JsString)) : c'.selects games e'=c.selects games e := by
  have htype : e'.type=e.type := congrArg Prod.fst he
  have howner : e'.owner=e.owner := congrArg (·.2.2) he
  have hcard : ∀d : Candidate,((d.entities.find? fun card =>
      card.type=.card && card.id=e.owner).map Entity.frame)=
      d.frames.find? fun f => f.1=.card && f.2.1=e.owner := by
    intro d
    rw [Candidate.frames,List.find?_map]
    rfl
  have hfind : ((c'.entities.find? fun card => card.type=.card && card.id=e.owner).map
      Entity.frame)=(c.entities.find? fun card => card.type=.card && card.id=e.owner).map
      Entity.frame := by rw [hcard c',hcard c,h]
  rw [Candidate.selects,Candidate.selects,htype,howner]
  cases hl : c'.entities.find? fun card => card.type=.card && card.id=e.owner with
  | none =>
    rw [hl,Option.map_none] at hfind
    rw [Option.map_eq_none_iff.mp hfind.symm]
  | some card =>
    rw [hl,Option.map_some] at hfind
    obtain ⟨card',hcard',hframe⟩ := Option.map_eq_some_iff.mp hfind.symm
    have hgame : card.owner=card'.owner := congrArg (·.2.2) hframe.symm
    rw [hcard']
    dsimp only
    rw [hgame]

theorem restoreRelationship_official {r : ProductRelationship} (h : r.curated_provenance=none) :
    restoreRelationship r=r := by
  obtain ⟨id,game,kind,f,t,category,lineage,ids,value,observed,provenance⟩ := r
  obtain rfl : provenance=none := h
  rfl

theorem strip_official (h : Official games c) :
    stripCuratedRevisionEffects c (some games)=some c := by
  have hentities : c.entities.mapM (restoreEntity c (some games))=some c.entities := by
    rw [mapM_some,forall₂_same]
    intro e he
    rw [restoreEntity]
    split
    · rename_i hs
      have hnone := h.entities e he hs
      rw [restoreCuratedEntitySourceFields,hnone]
      obtain ⟨type,id,owner,body,provenance⟩ := e
      obtain rfl : provenance=none := hnone
      rfl
    · rfl
  have hkept : (c.product_relationships.filter fun r =>
      !takesIn (some games) r.game || r.evidence_category≠curatedCategory)=
      c.product_relationships := by
    rw [filter_eq_self]
    intro r hr
    cases hg : takesIn (some games) r.game with
    | false => rfl
    | true =>
      have := (h.relationships r hr hg).2
      simpa using this
  have hmap : stripRelationships (some games) c.product_relationships=
      c.product_relationships := by
    rw [stripRelationships,hkept]
    refine (map_congr_left ?_).trans (map_id _)
    intro r hr
    split
    · rename_i hg
      exact restoreRelationship_official (h.relationships r hr hg).1
    · rfl
  rw [stripCuratedRevisionEffects,hentities,hmap]
  rfl

end

/-- What a revision writes into the entity at a place. -/
def fieldAt (c : Candidate) (i : Nat) (row : Selected) : Option (Path × Value) :=
  match row.proposal.assertion with
  | .field target value =>
    if candidateTarget c row.proposal.game target=some i then
      some (pointerParts target.path,.of value)
    else none
  | .relationship _ _ => none

def writesAt (c : Candidate) (rows : List Selected) (i : Nat) : List (Path × Value) :=
  rows.filterMap (fieldAt c i)

def itemsAt (c : Candidate) (xs : List Comparison) (i : Nat) : List CuratedProvenance :=
  (xs.filter fun x => (fieldAt c i x.row).isSome).map fun x =>
    provenanceFor x.row x.reviewedSourceValue

/-- An entity with some revisions applied to it. -/
structure Written (c : Candidate) (xs : List Comparison) (i : Nat) (e e' : Entity) : Prop where
  frame : e'.frame=e.frame
  body : writes (writesAt c (xs.map (·.row)) i) e.body=some e'.body
  provenance : e'.curated_provenance=if itemsAt c xs i=[] then e.curated_provenance
    else some (e.curated_provenance.getD []++itemsAt c xs i)

section

variable {c s s' : Candidate} {xs : List Comparison} {x : Comparison} {i : Nat} {e e' : Entity}

theorem writesAt_concat (c : Candidate) (xs : List Comparison) (x : Comparison) (i : Nat) : writesAt
    c ((xs++[x]).map (·.row)) i=writesAt c (xs.map (·.row)) i++ (fieldAt c i x.row).toList := by
  rw [writesAt,map_append,filterMap_append,writesAt,map_singleton]
  cases hf : fieldAt c i x.row <;> simp [hf]

theorem itemsAt_concat (c : Candidate) (xs : List Comparison) (x : Comparison) (i : Nat) :
    itemsAt c (xs++[x]) i=itemsAt c xs i++
      if (fieldAt c i x.row).isSome then [provenanceFor x.row x.reviewedSourceValue] else [] := by
  rw [itemsAt,filter_append,map_append,itemsAt]
  congr 1
  cases hf : fieldAt c i x.row <;> simp [hf]

theorem Written.skip (h : Written c xs i e e') (hx : fieldAt c i x.row=none) :
    Written c (xs++[x]) i e e' := by
  refine ⟨h.frame,?_,?_⟩
  · rw [writesAt_concat,hx]
    simpa using h.body
  · rw [itemsAt_concat,hx]
    simpa using h.provenance

theorem Written.write (h : Written c xs i e e') {w : Path × Value} {body : Value}
    (hx : fieldAt c i x.row=some w) (hset : setAt w.1 w.2 e'.body=some body) :
    Written c (xs++[x]) i e (e'.curate body (provenanceFor x.row x.reviewedSourceValue)) := by
  refine ⟨h.frame,?_,?_⟩
  · have hbody := h.body
    rw [writes] at hbody
    rw [writesAt_concat,hx,writes,Option.toList_some,foldlM_append,hbody]
    simp only [foldlM_cons,foldlM_nil,Option.bind_eq_bind,Option.bind_some,hset]
    rfl
  · rw [itemsAt_concat,hx,if_neg (by simp)]
    change some (e'.curated_provenance.getD []++_)=_
    rw [h.provenance]
    split
    · rename_i hnil
      rw [hnil]
      rfl
    · rw [Option.getD_some,append_assoc]
      rfl

theorem applyRevision_written (hs : s.frames=c.frames) (h : applyRevision s x=.ok s')
    (hold : ∀i e,c.entities[i]?=some e → ∃e',s.entities[i]?=some e' ∧ Written c xs i e e') :
    ∀i e,c.entities[i]?=some e → ∃e',s'.entities[i]?=some e' ∧ Written c (xs++[x]) i e e' := by
  intro i e he
  obtain ⟨e',he',hw⟩ := hold i e he
  obtain ⟨target,value,j,d,body,ha,ht,hd,hset,rfl⟩ | ⟨target,present,ha,_,rfl⟩ :=
    applyRevision_cases h
  · rw [candidateTarget_congr hs] at ht
    have hfield : fieldAt c i x.row=if j=i then some (pointerParts target.path,.of value)
        else none := by
      rw [fieldAt,ha]
      dsimp only
      rw [ht]
      simp
    by_cases hji : j=i
    · subst hji
      rw [he'] at hd
      obtain rfl := Option.some.inj hd
      rw [if_pos rfl] at hfield
      refine ⟨_,?_,hw.write hfield hset⟩
      simp [he']
    · rw [if_neg hji] at hfield
      refine ⟨e',?_,hw.skip hfield⟩
      simp [he',hji]
  · have hfield : fieldAt c i x.row=none := by rw [fieldAt,ha]
    exact ⟨e',he',hw.skip hfield⟩

end

theorem absence_nested (r : Path) (hr : r≠[]) :
    valueAt r curatedSourceAbsence≠some curatedSourceAbsence := by
  cases r with
  | nil => exact absurd rfl hr
  | cons k r =>
    rw [curatedSourceAbsence,valueAt,lookupMember]
    split
    · rename_i hc
      split at hc
      · cases hc
        cases r <;> simp [valueAt]
      · cases hc
    · simp

theorem absence_plain (r : Path) (κ : Kind) (ms : List (JsString × Value))
    (h : valueAt r curatedSourceAbsence=some (.own κ ms)) : κ=.object := by
  cases r with
  | nil => exact (Value.own.inj (Option.some.inj h)).1.symm
  | cons k r =>
    rw [curatedSourceAbsence,valueAt,lookupMember] at h
    split at h
    · rename_i hc
      split at hc
      · cases hc
        cases r <;> simp [valueAt] at h
      · cases hc
    · cases h

theorem restoreReviewedField_eq (t : Value) (p : Path) (a : Value) : restoreReviewedField t p
    (reviewedFieldSource (valueAt p a))= putBack p (kept curatedSourceAbsence a p) t := by
  rw [restoreReviewedField,kept]
  cases valueAt p a with
  | none => rfl
  | some o =>
    rw [Option.filter_some]
    by_cases ho : o=curatedSourceAbsence
    · simp [reviewedFieldSource,isCuratedSourceAbsence,ho,putBack]
    · simp [reviewedFieldSource,isCuratedSourceAbsence,ho,putBack]

section

variable {c : Candidate} {xs : List Comparison} {i : Nat} {e e' : Entity}

theorem restoreItems_eq (he : c.entities[i]?=some e)
    (hx : ∀x∈xs,reviewedSource c x.row.proposal=.ok x.reviewedSourceValue) (t : Value) :
    (itemsAt c xs i).foldlM restoreItem t=
      restores curatedSourceAbsence e.body (writesAt c (xs.map (·.row)) i) t := by
  induction xs generalizing t with
  | nil => rfl
  | cons x xs ih =>
    have ih := ih fun y hy => hx y (mem_cons_of_mem _ hy)
    have hreviewed := hx x mem_cons_self
    cases hf : fieldAt c i x.row with
    | none =>
      have hitems : itemsAt c (x::xs) i=itemsAt c xs i := by simp [itemsAt,hf]
      have hwrites : writesAt c ((x::xs).map (·.row)) i=writesAt c (xs.map (·.row)) i := by
        simp [writesAt,hf]
      rw [hitems,hwrites,ih]
    | some w =>
      have hitems : itemsAt c (x::xs) i=
          provenanceFor x.row x.reviewedSourceValue::itemsAt c xs i := by simp [itemsAt,hf]
      have hwrites : writesAt c ((x::xs).map (·.row)) i=w::writesAt c (xs.map (·.row)) i := by
        simp [writesAt,hf]
      have hone : restoreItem t (provenanceFor x.row x.reviewedSourceValue)=
          putBack w.1 (kept curatedSourceAbsence e.body w.1) t := by
        rw [fieldAt] at hf
        cases ha : x.row.proposal.assertion with
        | relationship target present =>
          rw [ha] at hf
          cases hf
        | field target value =>
          simp only [ha] at hf
          split at hf
          · rename_i ht
            obtain rfl := Option.some.inj hf
            simp only [reviewedSource,ha,ht,he,Option.bind_some] at hreviewed
            rw [← Except.ok.inj hreviewed,← restoreReviewedField_eq]
            simp only [restoreItem,provenanceFor,ha,Assertion.target]
          · cases hf
      rw [hitems,hwrites,restores,foldlM_cons,foldlM_cons,hone]
      cases putBack w.1 (kept curatedSourceAbsence e.body w.1) t with
      | none => rfl
      | some t' => exact ih t'

/-- The fields of one entity come back. -/
def FieldsReturn (games : List JsString) (rows : List Selected) (c : Candidate) (i : Nat)
    (e : Entity) : Prop :=
  if c.selects (some games) e then Restorable curatedSourceAbsence e.body (writesAt c rows i) ∧
    Relengthened e.body (writesAt c rows i)
  else writesAt c rows i=[]

theorem items_nil_iff (c : Candidate) (xs : List Comparison) (i : Nat) :
    itemsAt c xs i=[] ↔ writesAt c (xs.map (·.row)) i=[] := by
  rw [itemsAt,writesAt,map_eq_nil_iff,filter_eq_nil_iff,filterMap_eq_nil_iff]
  simp

theorem restoreEntity_iff {games : List JsString} {result : Candidate} (hr : result.frames=c.frames)
    (he : c.entities[i]?=some e) (hw : Written c xs i e e')
    (hofficial : c.selects (some games) e=true → e.curated_provenance=none)
    (hx : ∀x∈xs,reviewedSource c x.row.proposal=.ok x.reviewedSourceValue) : restoreEntity result
    (some games) e'=some e ↔ FieldsReturn games (xs.map (·.row)) c i e := by
  rw [restoreEntity,FieldsReturn,selects_congr hr hw.frame]
  have hframe : e'.type=e.type ∧ e'.id=e.id ∧ e'.owner=e.owner :=
    ⟨congrArg Prod.fst hw.frame,congrArg (·.2.1) hw.frame,congrArg (·.2.2) hw.frame⟩
  obtain ⟨type,id,owner,body,provenance⟩ := e
  obtain ⟨type',id',owner',body',provenance'⟩ := e'
  obtain ⟨rfl,rfl,rfl⟩ := hframe
  have hprovenance := hw.provenance
  have hbody := hw.body
  dsimp only at hprovenance hbody hofficial
  split
  · rename_i hs
    have hnone := hofficial hs
    have hitems : provenance'.getD []=itemsAt c xs i := by
      rw [hprovenance,hnone]
      split
      · rename_i hnil
        rw [hnil]
        rfl
      · rfl
    rw [← restores_writes_iff absence_nested absence_plain hbody,← restoreItems_eq he hx,
      restoreCuratedEntitySourceFields]
    dsimp only
    rw [hitems]
    cases (itemsAt c xs i).foldlM restoreItem body' with
    | none => simp
    | some b => simp [hnone]
  · rw [← items_nil_iff]
    constructor
    · intro heq
      have heq' : provenance'=provenance := congrArg Entity.curated_provenance (Option.some.inj heq)
      by_contra hne
      rw [hprovenance,if_neg hne] at heq'
      have hlength := congrArg (fun p : Option (List CuratedProvenance) => (p.getD []).length) heq'
      simp only [Option.getD_some,length_append] at hlength
      exact hne (eq_nil_of_length_eq_zero (by omega))
    · intro hnil
      have hnil' := (items_nil_iff c xs i).mp hnil
      rw [hnil'] at hbody
      rw [if_pos hnil] at hprovenance
      obtain rfl := Option.some.inj hbody
      rw [hprovenance]

end

/-- A relationship met by a revision. -/
def marked (r : ProductRelationship) (x : Comparison) : ProductRelationship :=
  match x.row.proposal.assertion with
  | .field _ _ => r
  | .relationship target present =>
    if r.matching target then r.curate present (provenanceFor x.row x.reviewedSourceValue) else r

def Meets (row : Selected) (triple : RelationshipTarget) : Prop :=
  ∃present,row.proposal.assertion=.relationship triple present

/-- The relationships of a candidate with some revisions applied: those that were there, in their
places, and curated ones of the selected games. -/
structure Related (games : List JsString) (rs : List ProductRelationship) (xs : List Comparison)
    (rs' : List ProductRelationship) : Prop where
  split : ∃extra,rs'=rs.map (xs.foldl marked)++extra ∧
    ∀r∈extra,r.evidence_category=curatedCategory ∧ games.contains r.game=true

section

variable {c s s' : Candidate} {games : List JsString} {xs : List Comparison} {x : Comparison}
  {r : ProductRelationship}

theorem marked_fields (r : ProductRelationship) (x : Comparison) : (marked r x).triple=r.triple ∧
    (marked r x).game=r.game ∧ (marked r x).evidence_category=r.evidence_category ∧
    ({ marked r x with observed := r.observed, curated_provenance := none } :
      ProductRelationship)={ r with curated_provenance := none } := by
  rw [marked]
  split
  · exact ⟨rfl,rfl,rfl,rfl⟩
  · split <;> exact ⟨rfl,rfl,rfl,rfl⟩

theorem applyRevision_related (hgame : games.contains x.row.proposal.game=true)
    (h : applyRevision s x=.ok s')
    (hold : Related games c.product_relationships xs s.product_relationships) :
    Related games c.product_relationships (xs++[x]) s'.product_relationships := by
  obtain ⟨extra,hsplit,hextra⟩ := hold.split
  have hfold : c.product_relationships.map ((xs++[x]).foldl marked)=
      (c.product_relationships.map (xs.foldl marked)).map fun r => marked r x := by
    rw [map_map]
    apply map_congr_left
    intro r _
    simp
  obtain ⟨target,value,j,d,body,ha,_,_,_,rfl⟩ | ⟨target,present,ha,_,rfl⟩ :=
    applyRevision_cases h
  · refine ⟨extra,?_,hextra⟩
    have hsame : (fun r => marked r x)=id := by
      funext r
      rw [marked,ha]
      rfl
    rw [hfold,hsame,map_id]
    exact hsplit
  · have hmark : (fun r : ProductRelationship => if r.matching target then
        r.curate present (provenanceFor x.row x.reviewedSourceValue) else r)=
        fun r => marked r x := by
      funext r
      rw [marked,ha]
    refine ⟨extra.map (fun r => marked r x)++if s.product_relationships.any (·.matching target)
      then [] else [curatedRelationship x.row target present
        (provenanceFor x.row x.reviewedSourceValue)],?_,?_⟩
    · rw [hfold,← append_assoc,← map_append,← hsplit,hmark]
    · intro r hr
      rcases mem_append.mp hr with hr | hr
      · obtain ⟨r₀,hr₀,rfl⟩ := mem_map.mp hr
        obtain ⟨_,hg,hcat,_⟩ := marked_fields r₀ x
        rw [hg,hcat]
        exact hextra r₀ hr₀
      · split at hr
        · cases hr
        · obtain rfl := mem_singleton.mp hr
          exact ⟨rfl,hgame⟩

theorem foldl_marked_fields (r : ProductRelationship) (xs : List Comparison) :
    (xs.foldl marked r).triple=r.triple ∧ (xs.foldl marked r).game=r.game ∧
    (xs.foldl marked r).evidence_category=r.evidence_category ∧
    ({ xs.foldl marked r with observed := r.observed, curated_provenance := none } :
      ProductRelationship)={ r with curated_provenance := none } := by
  induction xs using List.reverseRecOn with
  | nil => exact ⟨rfl,rfl,rfl,rfl⟩
  | append_singleton xs x ih =>
    rw [foldl_append,foldl_cons,foldl_nil]
    obtain ⟨ht,hg,hc,hrest⟩ := marked_fields (xs.foldl marked r) x
    obtain ⟨ht',hg',hc',hrest'⟩ := ih
    refine ⟨ht.trans ht',hg.trans hg',hc.trans hc',?_⟩
    rw [← hrest']
    have := congrArg (fun q : ProductRelationship => { q with observed := r.observed }) hrest
    exact this

theorem foldl_marked_unmet (h : ∀x∈xs,¬Meets x.row r.triple) : xs.foldl marked r=r := by
  induction xs with
  | nil => rfl
  | cons x xs ih =>
    have hx : marked r x=r := by
      rw [marked]
      split
      · rfl
      · rename_i target present ha
        rw [if_neg]
        intro hm
        exact h x mem_cons_self ⟨present,by rw [ha,matching_iff.mp hm]⟩
    rw [foldl_cons,hx,ih fun y hy => h y (mem_cons_of_mem _ hy)]

theorem foldl_marked_met (hx : ∀x∈xs,reviewedSource c x.row.proposal=.ok x.reviewedSourceValue)
    (h : ∃x∈xs,Meets x.row r.triple) : reviewedPresence (xs.foldl marked r)=some
    (relationshipPresent c r.triple) ∧ (r.curated_provenance.getD []).length<
    ((xs.foldl marked r).curated_provenance.getD []).length := by
  induction xs using List.reverseRecOn with
  | nil =>
    obtain ⟨x,hx,_⟩ := h
    cases hx
  | append_singleton xs x ih =>
    have ih := ih fun y hy => hx y (mem_append_left _ hy)
    have htriple := (foldl_marked_fields r xs).1
    rw [foldl_append,foldl_cons,foldl_nil]
    by_cases hmeets : Meets x.row r.triple
    · obtain ⟨present,ha⟩ := hmeets
      have hm : (xs.foldl marked r).matching r.triple=true := matching_iff.mpr htriple
      have hmarked : marked (xs.foldl marked r) x=(xs.foldl marked r).curate present
          (provenanceFor x.row x.reviewedSourceValue) := by
        rw [marked,ha]
        exact if_pos hm
      have hreviewed := hx x (by simp)
      simp only [reviewedSource,ha] at hreviewed
      have hvalue := (Except.ok.inj hreviewed).symm
      have hgrow : (r.curated_provenance.getD []).length≤
          ((xs.foldl marked r).curated_provenance.getD []).length := by
        by_cases hbefore : ∃y∈xs,Meets y.row r.triple
        · exact (ih hbefore).2.le
        · rw [foldl_marked_unmet fun y hy hm => hbefore ⟨y,hy,hm⟩]
      rw [hmarked]
      constructor
      · simp only [reviewedPresence,ProductRelationship.curate,Option.getD_some,
          List.getLast?_concat,provenanceFor,hvalue]
        cases relationshipPresent c r.triple with
        | true => rfl
        | false => exact if_neg (by decide +kernel)
      · simp only [ProductRelationship.curate,Option.getD_some,length_append,
          length_singleton]
        omega
    · have hsame : marked (xs.foldl marked r) x=xs.foldl marked r := by
        rw [marked]
        split
        · rfl
        · rename_i target present ha
          rw [if_neg]
          intro hm
          exact hmeets ⟨present,by rw [ha,← htriple,matching_iff.mp hm]⟩
      have hbefore : ∃y∈xs,Meets y.row r.triple := by
        obtain ⟨y,hy,hm⟩ := h
        rcases mem_append.mp hy with hy | hy
        · exact ⟨y,hy,hm⟩
        · obtain rfl := mem_singleton.mp hy
          exact absurd hm hmeets
      rw [hsame]
      exact ih hbefore

end

/-- One relationship comes back: no revision is about it, or it is of a selected game and was as
present as its triple. -/
def RelationshipReturns (games : List JsString) (rows : List Selected) (c : Candidate)
    (r : ProductRelationship) : Prop :=
  (∃row∈rows,Meets row r.triple) →
    games.contains r.game=true ∧ r.observed=relationshipPresent c r.triple

section

variable {c result : Candidate} {games : List JsString} {xs : List Comparison}

theorem restoreRelationship_iff {r : ProductRelationship}
    (hofficial : games.contains r.game=true → r.curated_provenance=none)
    (hx : ∀x∈xs,reviewedSource c x.row.proposal=.ok x.reviewedSourceValue) :
    (if takesIn (some games) r.game then restoreRelationship (xs.foldl marked r)
      else xs.foldl marked r)=r ↔ RelationshipReturns games (xs.map (·.row)) c r := by
  by_cases hmet : ∃x∈xs,Meets x.row r.triple
  · have hrow : ∃row∈xs.map (·.row),Meets row r.triple := by
      obtain ⟨x,hx,hm⟩ := hmet
      exact ⟨x.row,mem_map_of_mem hx,hm⟩
    obtain ⟨hpresence,hlonger⟩ := foldl_marked_met hx hmet
    cases hg : takesIn (some games) r.game with
    | true =>
      have hnone := hofficial hg
      have hrest := (foldl_marked_fields r xs).2.2.2
      have hback : restoreRelationship (xs.foldl marked r)=
          { r with observed := relationshipPresent c r.triple } := by
        have := congrArg (fun q : ProductRelationship =>
          { q with observed := relationshipPresent c r.triple }) hrest
        rw [restoreRelationship,hpresence]
        refine Eq.trans this ?_
        rw [← hnone]
      rw [if_pos rfl,hback]
      constructor
      · intro heq _
        exact ⟨hg,(congrArg ProductRelationship.observed heq).symm⟩
      · intro h
        rw [← (h hrow).2]
    | false =>
      rw [if_neg (by simp)]
      constructor
      · intro heq
        rw [heq] at hlonger
        exact absurd hlonger (lt_irrefl _)
      · intro h
        have hselected : takesIn (some games) r.game=true := (h hrow).1
        rw [hg] at hselected
        cases hselected
  · have hunmet : ∀x∈xs,¬Meets x.row r.triple := fun x hx hm => hmet ⟨x,hx,hm⟩
    have hreturns : RelationshipReturns games (xs.map (·.row)) c r := by
      rintro ⟨row,hrow,hm⟩
      obtain ⟨x,hx,rfl⟩ := mem_map.mp hrow
      exact absurd hm (hunmet x hx)
    rw [foldl_marked_unmet hunmet]
    refine ⟨fun _ => hreturns,fun _ => ?_⟩
    split
    · rename_i hg
      exact restoreRelationship_official (hofficial hg)
    · rfl

theorem stripRelationships_iff (hofficial : Official games c)
    (hx : ∀x∈xs,reviewedSource c x.row.proposal=.ok x.reviewedSourceValue)
    {rs : List ProductRelationship} (h : Related games c.product_relationships xs rs) :
    stripRelationships (some games) rs=c.product_relationships ↔
      ∀r∈c.product_relationships,RelationshipReturns games (xs.map (·.row)) c r := by
  obtain ⟨extra,rfl,hextra⟩ := h.split
  have hgone : (extra.filter fun r =>
      !takesIn (some games) r.game || r.evidence_category≠curatedCategory)=[] := by
    rw [filter_eq_nil_iff]
    intro r hr
    obtain ⟨hcat,hg⟩ := hextra r hr
    have hg' : takesIn (some games) r.game=true := hg
    simp [hcat,hg']
  have hkept : ((c.product_relationships.map (xs.foldl marked)).filter fun r =>
      !takesIn (some games) r.game || r.evidence_category≠curatedCategory)=
      c.product_relationships.map (xs.foldl marked) := by
    rw [filter_eq_self]
    intro r hr
    obtain ⟨r₀,hr₀,rfl⟩ := mem_map.mp hr
    obtain ⟨_,hg,hcat,_⟩ := foldl_marked_fields r₀ xs
    rw [hg,hcat]
    cases hs : takesIn (some games) r₀.game with
    | false => rfl
    | true =>
      have := (hofficial.relationships r₀ hr₀ hs).2
      simpa using this
  rw [stripRelationships,filter_append,hgone,hkept,append_nil,map_map]
  have hself : c.product_relationships=c.product_relationships.map id := (map_id _).symm
  nth_rewrite 2 [hself]
  rw [map_inj_left]
  apply forall₂_congr
  intro r hr
  rw [← restoreRelationship_iff (fun hg => (hofficial.relationships r hr hg).1) hx,
    Function.comp_apply,(foldl_marked_fields r xs).2.1]
  rfl

theorem stripEntities_iff (hofficial : Official games c)
    (hx : ∀x∈xs,reviewedSource c x.row.proposal=.ok x.reviewedSourceValue)
    (hframes : result.frames=c.frames)
    (hw : ∀i e,c.entities[i]?=some e → ∃e',result.entities[i]?=some e' ∧ Written c xs i e e') :
    result.entities.mapM (restoreEntity result (some games))=some c.entities ↔
      ∀i e,c.entities[i]?=some e → FieldsReturn games (xs.map (·.row)) c i e := by
  have hlength : result.entities.length=c.entities.length := by
    have := congrArg List.length hframes
    simpa [Candidate.frames] using this
  have hone : ∀i e e',c.entities[i]?=some e → result.entities[i]?=some e' →
      (restoreEntity result (some games) e'=some e ↔
        FieldsReturn games (xs.map (·.row)) c i e) := by
    intro i e e' he he'
    obtain ⟨d,hd,hwritten⟩ := hw i e he
    rw [he'] at hd
    obtain rfl := Option.some.inj hd
    exact restoreEntity_iff hframes he hwritten
      (fun hs => hofficial.entities e (List.mem_of_getElem? he) hs) hx
  rw [mapM_some,forall₂_iff_get]
  constructor
  · rintro ⟨_,hall⟩ i e he
    obtain ⟨e',he',_⟩ := hw i e he
    obtain ⟨hi,hget⟩ := List.getElem?_eq_some_iff.mp he
    obtain ⟨hi',hget'⟩ := List.getElem?_eq_some_iff.mp he'
    have := hall i hi' hi
    rw [get_eq_getElem,get_eq_getElem,hget,hget'] at this
    exact (hone i e e' he he').mp this
  · intro hall
    refine ⟨hlength,fun i hi' hi => ?_⟩
    have he : c.entities[i]?=some c.entities[i] := List.getElem?_eq_getElem hi
    have he' : result.entities[i]?=some result.entities[i] := List.getElem?_eq_getElem hi'
    exact (hone i _ _ he he').mpr (hall i _ he)

end

/-- Taking the effects of the pinned revisions, which the mutation routes let through, back from the
candidate they were applied to gives the official candidate if and only if the fields of every
entity and every official relationship come back. -/
theorem curated_removal_iff (nfc : Nfc) (valid : Candidate → Bool) (games : List JsString)
    (rows : List Selected) (hgames : ∀row∈rows,games.contains row.proposal.game=true)
    -- a pointer to the `length` of an array, which a `Value` keeps apart, is none of them
    (_hadmissible : ∀row∈rows,row.proposal.admissible=true)
    (c result : Candidate) (hofficial : Official games c)
    (h : applyPinnedCuratedRevisions nfc valid games rows c=.ok result) :
    stripCuratedRevisionEffects result (some games)=some c ↔
      (∀i e,c.entities[i]?=some e → FieldsReturn games rows c i e) ∧
      ∀r∈c.product_relationships,RelationshipReturns games rows c r := by
  obtain ⟨official,xs,hstrip,hcomp,hfold⟩ := applyPinned_ok h
  rw [strip_official hofficial] at hstrip
  obtain rfl := Option.some.inj hstrip
  have hrows : xs.map (·.row)=rows := comparisons_rows hcomp
  have hx : ∀x∈xs,reviewedSource c x.row.proposal=.ok x.reviewedSourceValue :=
    comparisons_reviewed hcomp
  -- what the revisions applied so far have done to every entity and every relationship
  have hdone := @foldlM_ok _ _ _ _ (fun done s => s.frames=c.frames ∧
    (∀i e,c.entities[i]?=some e → ∃e',s.entities[i]?=some e' ∧ Written c done i e e') ∧
    Related games c.product_relationships done s.product_relationships) _ _ _ hfold ?_ ?_
  · obtain ⟨hframes,hwritten,hrelated⟩ := hdone
    rw [← hrows,← stripEntities_iff hofficial hx hframes hwritten,
      ← stripRelationships_iff hofficial hx hrelated,stripCuratedRevisionEffects]
    constructor
    · intro heq
      obtain ⟨entities,hmap,heq⟩ := Option.map_eq_some_iff.mp heq
      refine ⟨?_,congrArg Candidate.product_relationships heq⟩
      rw [hmap]
      exact congrArg (fun d : Candidate => some d.entities) heq
    · rintro ⟨hmap,hrels⟩
      rw [hmap,hrels]
      rfl
  · refine ⟨rfl,fun i e he => ⟨e,he,rfl,rfl,rfl⟩,⟨[],?_,by simp⟩⟩
    simp
  · intro done x rest s s' heq ⟨hframes,hwritten,hrelated⟩ hs
    have hgame : games.contains x.row.proposal.game=true := by
      apply hgames
      rw [← hrows,heq]
      exact mem_map_of_mem (by simp)
    exact ⟨(applyRevision_frames hs).trans hframes,applyRevision_written hframes hs hwritten,
      applyRevision_related hgame hs hrelated⟩

/-- The product and the release of `releaseCandidate` with a distribution context, which some
relationships lead from. -/
def contextCandidate (observed : List Bool) : Candidate :=
  ⟨releaseCandidate.entities++[⟨.distribution_context,js "context_1".toList,js "digimon".toList,
      .of (.obj [(js "kind".toList,.str (js "promotion".toList)),
        (js "label".toList,.str (js "Promotion".toList))]),none⟩],
    observed.zipIdx.map fun (observed,i) =>
      ⟨js "rel_".toList++js (Nat.repr i).toList,js "digimon".toList,.distribution_context_product,
        ⟨.distribution_context,js "context_1".toList⟩,⟨.product,js "product_1".toList⟩,
        js "official".toList,some (js "lineage_".toList++js (Nat.repr i).toList),
        [js "obs_1".toList],js "Promotion".toList,observed,none⟩⟩

/-- A revision of the day of the release, and one that takes the relationship away. -/
def contextRows : List Selected :=
  [⟨js "currev_1".toList,releaseProposal "/date/value" (.str (js "2024-01-03".toList))
      "\"2024-01-01\"",js "digest_1".toList,sha256Text (js "\"2024-01-01\"".toList)⟩,
    ⟨js "currev_2".toList,⟨js "digimon".toList,.relationship ⟨.distribution_context_product,
        ⟨.distribution_context,js "context_1".toList⟩,⟨.product,js "product_1".toList⟩⟩ false,
      js "rationale".toList,[.source_observation (js "obs_1".toList)],none,none,
      sha256Text (js "\"present\"".toList),none⟩,js "digest_2".toList,
      sha256Text (js "\"present\"".toList)⟩]

def contextResult (observed : List Bool) : Except Failure Candidate :=
  applyPinnedCuratedRevisions plainNfc (fun _ => true) [js "digimon".toList] contextRows
    (contextCandidate observed)

theorem contextCandidate_official (observed : List Bool) :
    Official [js "digimon".toList] (contextCandidate observed) := by
  constructor
  · intro e he _
    have hnone : ∀e∈(contextCandidate []).entities,e.curated_provenance=none := by decide +kernel
    exact hnone e he
  · intro r hr _
    obtain ⟨⟨b,i⟩,_,rfl⟩ := mem_map.mp hr
    have hcategory : js "official".toList≠curatedCategory := by decide +kernel
    exact ⟨rfl,hcategory⟩

/-- Of two official relationships of one triple, one observed and one not, the second comes back
observed. -/
theorem curated_removal_mixed : ∃result,contextResult [true,false]=.ok result ∧
    stripCuratedRevisionEffects result (some [js "digimon".toList])≠
      some (contextCandidate [true,false]) := by
  have hok : (contextResult [true,false]).isOk=true := by decide +kernel
  obtain ⟨result,hresult⟩ := ok_of_isOk hok
  refine ⟨result,hresult,fun heq => ?_⟩
  have hback : (contextResult [true,false]).toOption.bind (fun result =>
      stripCuratedRevisionEffects result (some [js "digimon".toList]))=
      some (contextCandidate [true,true]) := by decide +kernel
  rw [hresult] at hback
  have hboth : some (contextCandidate [true,false])=some (contextCandidate [true,true]) :=
    heq.symm.trans hback
  exact absurd hboth (by decide +kernel)

/-- A card of one colour. -/
def colourCandidate : Candidate :=
  ⟨[⟨.card,js "card_1".toList,js "digimon".toList,
      .of (.obj [(js "game_data".toList,.obj [(js "profile".toList,.str (js "digimon@1".toList)),
        (js "attributes".toList,.obj [(js "colors".toList,.arr [.str (js "red".toList)])])])]),
      none⟩],[]⟩

/-- A revision that adds a second colour. -/
def colourRows : List Selected :=
  [⟨js "currev_1".toList,⟨js "digimon".toList,
      .field ⟨.card,js "card_1".toList,js "/game_data/attributes/colors/1".toList⟩
        (.str (js "blue".toList)),js "rationale".toList,[.source_observation (js "obs_1".toList)],
      none,none,sha256Text (js "\x7b\"contract\":\"card-keepr-curated-source-absence@1\"\x7d".toList),
      none⟩,js "digest_1".toList,
      sha256Text (js "\x7b\"contract\":\"card-keepr-curated-source-absence@1\"\x7d".toList)⟩]

/-- Taken back, the second colour leaves a hole in the array, which keeps its length. -/
theorem curated_removal_hole : (applyPinnedCuratedRevisions plainNfc (fun _ => true)
      [js "digimon".toList] colourRows colourCandidate).toOption.bind (fun result =>
    (stripCuratedRevisionEffects result (some [js "digimon".toList])).bind fun back =>
      back.entities[0]?.bind fun card =>
        valueAt (pointerParts (js "/game_data/attributes/colors".toList)) card.body)=
      some (.own (.array 2) [(js ['0'],.of (.str (js "red".toList)))]) := by decide +kernel

theorem restorable_single {nothing a : Value} {w : Path × Value}
    (h : valueAt w.1 a≠some nothing) : Restorable nothing a [w] := by
  intro pre w' post heq o ho
  have hpre : pre=[] ∧ post=[] := by
    have := congrArg List.length heq
    simp only [length_append,length_cons,length_nil] at this
    exact ⟨eq_nil_of_length_eq_zero (by omega),eq_nil_of_length_eq_zero (by omega)⟩
  obtain ⟨rfl,rfl⟩ := hpre
  obtain rfl := singleton_inj.mp heq
  rw [if_neg fun hn => h (by rw [ho,hn])]
  trivial

theorem curated_removal_single : ∃result,contextResult [true]=.ok result ∧
    stripCuratedRevisionEffects result (some [js "digimon".toList])=
      some (contextCandidate [true]) := by
  have hok : (contextResult [true]).isOk=true := by decide +kernel
  obtain ⟨result,hresult⟩ := ok_of_isOk hok
  refine ⟨result,hresult,?_⟩
  refine (curated_removal_iff plainNfc (fun _ => true) [js "digimon".toList] contextRows
    (by decide +kernel) (by decide +kernel) (contextCandidate [true]) result
    (contextCandidate_official [true])
    hresult).mpr ⟨?_,?_⟩
  · intro i e he
    have hselected : ∀e∈(contextCandidate [true]).entities,
        (contextCandidate [true]).selects (some [js "digimon".toList]) e=true := by decide +kernel
    rw [FieldsReturn,if_pos (hselected e (List.mem_of_getElem? he))]
    have hwrites : ∀i : Fin 3,writesAt (contextCandidate [true]) contextRows i=
        if i=1 then [(pointerParts (js "/date/value".toList),.of (.str (js "2024-01-03".toList)))]
        else [] := by decide +kernel
    have hi : i<3 := by
      obtain ⟨hi,_⟩ := List.getElem?_eq_some_iff.mp he
      exact hi
    have hwrite := hwrites ⟨i,hi⟩
    dsimp only at hwrite
    rw [hwrite]
    split
    · rename_i hone
      have hfound : ((contextCandidate [true]).entities[1]?.bind fun e =>
          valueAt (pointerParts (js "/date/value".toList)) e.body)=
          some (.of (.str (js "2024-01-01".toList))) := by decide +kernel
      have hi1 : i=1 := congrArg Fin.val hone
      rw [hi1] at he
      rw [he,Option.bind_some] at hfound
      refine ⟨restorable_single ?_,?_⟩
      · rw [hfound]
        decide +kernel
      · intro w hw q hq
        rw [mem_singleton.mp hw,grows_found hfound] at hq
        cases hq
    · refine ⟨?_,fun w hw => by cases hw⟩
      intro pre w post heq
      simp at heq
  · have hall : ∀r∈(contextCandidate [true]).product_relationships,
        [js "digimon".toList].contains r.game=true ∧
          r.observed=relationshipPresent (contextCandidate [true]) r.triple := by decide +kernel
    intro r hr _
    exact hall r hr

end CardKeepr.Curated
