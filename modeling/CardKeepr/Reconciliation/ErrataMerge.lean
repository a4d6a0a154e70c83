import CardKeepr.Reconciliation.ErrataOrder

namespace CardKeepr.Reconciliation.Errata
open Lib Shared Reconciliation.Product List

section
variable {nfc : Nfc} {locale : CodePointLocale}

theorem provenanceKey_ascii (p : ErratumProvenance) : isAscii (provenanceKey nfc p)=true := by
  refine textsKey_ascii nfc fun s hs => ?_
  rcases mem_pair.mp hs with rfl | rfl
  · exact p.source_lineage.2
  · exact p.source_observation_id.2

theorem provenanceKey_inj {p q : ErratumProvenance}
    (h : provenanceKey nfc p=provenanceKey nfc q) : p=q := by
  have hascii : ∀p : ErratumProvenance,
      ∀s∈[p.source_lineage.1,p.source_observation_id.1],isAscii s=true := by
    intro p s hs
    rcases mem_pair.mp hs with rfl | rfl
    · exact p.source_lineage.2
    · exact p.source_observation_id.2
  have he := textsKey_inj nfc (hascii p) (hascii q) h
  obtain ⟨hl,he⟩ := List.cons.inj he
  obtain ⟨p1,p2⟩ := p
  obtain ⟨q1,q2⟩ := q
  obtain rfl : p1=q1 := AsciiText.ext hl
  obtain rfl : p2=q2 := AsciiText.ext (List.cons.inj he).1
  rfl

theorem uniqueProvenance_units (ps : List ErratumProvenance) : uniqueProvenance nfc locale ps=
    ((mapOf (ps.map fun p => (provenanceKey nfc p,p))).map Prod.snd).insertionSort
      (KeyLe (provenanceKey nfc)) :=
  sort_units fun p _ => provenanceKey_ascii p

theorem mem_uniqueProvenance {ps : List ErratumProvenance} {p : ErratumProvenance} :
    p∈uniqueProvenance nfc locale ps ↔ p∈ps := by
  rw [uniqueProvenance_units,mem_insertionSort]
  constructor
  · intro h
    obtain ⟨e,he,rfl⟩ := mem_map.mp h
    obtain ⟨q,hq,rfl⟩ := mem_map.mp (mem_of_mapOf he)
    exact hq
  · intro h
    have hk : provenanceKey nfc p∈(mapOf (ps.map fun p => (provenanceKey nfc p,p))).map Prod.fst := by
      rw [mem_mapOf_keys,map_map]
      exact mem_map_of_mem h
    obtain ⟨e,he,hek⟩ := mem_map.mp hk
    obtain ⟨q,-,rfl⟩ := mem_map.mp (mem_of_mapOf he)
    obtain rfl : q=p := provenanceKey_inj hek
    exact mem_map.mpr ⟨_,he,rfl⟩

theorem uniqueProvenance_congr {ps qs : List ErratumProvenance} (h : ∀p,p∈ps ↔ p∈qs) :
    uniqueProvenance nfc locale ps=uniqueProvenance nfc locale qs := by
  have hsorted : ∀ps,(uniqueProvenance nfc locale ps).Pairwise fun a b =>
      compareUnits (provenanceKey nfc a) (provenanceKey nfc b) < 0 := by
    intro ps
    rw [uniqueProvenance_units]
    apply sorted_strict
    have hkeys : ((mapOf (ps.map fun p => (provenanceKey nfc p,p))).map Prod.snd).map
        (provenanceKey nfc)=(mapOf (ps.map fun p => (provenanceKey nfc p,p))).map Prod.fst := by
      rw [map_map]
      refine map_congr_left fun e he => ?_
      obtain ⟨q,-,rfl⟩ := mem_map.mp (mem_of_mapOf he)
      rfl
    rw [hkeys]
    exact mapOf_nodup _
  refine sorted_eq _ (hsorted ps) (hsorted qs) fun p => ?_
  rw [mem_uniqueProvenance,mem_uniqueProvenance,h]

end

variable {C : Type} {nfc : Nfc} {locale : CodePointLocale}

@[simp] theorem withProvenance_provenance (e : CatalogueErratum C) (ps : List ErratumProvenance) :
    (e.withProvenance ps).provenance=ps := rfl

@[simp] theorem withProvenance_twice (e : CatalogueErratum C) (ps qs : List ErratumProvenance) :
    (e.withProvenance ps).withProvenance qs=e.withProvenance qs := rfl

/-- The last erratum of a list, with the provenance of all of them. -/
def lastOf (nfc : Nfc) (locale : CodePointLocale) (es : List (CatalogueErratum C)) :
    Option (CatalogueErratum C) :=
  es.getLast?.map fun e => e.withProvenance
    (uniqueProvenance nfc locale (es.flatMap CatalogueErratum.provenance))

def withId (es : List (CatalogueErratum C)) (id : AsciiText) : List (CatalogueErratum C) :=
  es.filter fun e => decide (e.id=id)

def mergedErratum (nfc : Nfc) (locale : CodePointLocale) (es : List (CatalogueErratum C))
    (id : AsciiText) : Option (CatalogueErratum C) :=
  lastOf nfc locale (withId es id)

def Conflict (nfc : Nfc) (es : List (CatalogueErratum C)) : Prop :=
  ∃a∈es,∃b∈es,a.id=b.id ∧ canonicalErratum nfc a≠canonicalErratum nfc b

theorem withId_append (xs ys : List (CatalogueErratum C)) (id : AsciiText) :
    withId (xs++ys) id=withId xs id++withId ys id := filter_append xs ys

theorem mem_withId {es : List (CatalogueErratum C)} {id : AsciiText} {e : CatalogueErratum C} :
    e∈withId es id ↔ e∈es ∧ e.id=id := by
  rw [withId,mem_filter,decide_eq_true_iff]

theorem lastOf_snoc (es : List (CatalogueErratum C)) (e : CatalogueErratum C) :
    lastOf nfc locale (es++[e])=some (e.withProvenance
      (uniqueProvenance nfc locale (es.flatMap CatalogueErratum.provenance++e.provenance))) := by
  rw [lastOf,List.getLast?_append]
  simp

theorem lastOf_mem {es : List (CatalogueErratum C)} {x : CatalogueErratum C}
    (h : lastOf nfc locale es=some x) : ∃e∈es,e.id=x.id ∧
      canonicalErratum nfc e=canonicalErratum nfc x ∧ x.withProvenance e.provenance=e := by
  obtain ⟨e,he,rfl⟩ := Option.map_eq_some_iff.mp h
  exact ⟨e,List.mem_of_getLast? he,rfl,rfl,rfl⟩

theorem lastOf_provenance {es : List (CatalogueErratum C)} {x : CatalogueErratum C}
    (h : lastOf nfc locale es=some x) :
    x.provenance=uniqueProvenance nfc locale (es.flatMap CatalogueErratum.provenance) := by
  obtain ⟨e,he,rfl⟩ := Option.map_eq_some_iff.mp h
  rfl

theorem lastOf_left (fs gs : List (CatalogueErratum C)) :
    lastOf nfc locale ((lastOf nfc locale fs).toList++gs)=lastOf nfc locale (fs++gs) := by
  rcases eq_nil_or_concat fs with rfl | ⟨fs,f,rfl⟩
  · rfl
  · rw [concat_eq_append,lastOf_snoc]
    rcases eq_nil_or_concat gs with rfl | ⟨gs,g,rfl⟩
    · rw [append_nil,append_nil,lastOf_snoc]
      have hu : uniqueProvenance nfc locale (uniqueProvenance nfc locale
          (fs.flatMap CatalogueErratum.provenance++f.provenance))=
          uniqueProvenance nfc locale (fs.flatMap CatalogueErratum.provenance++f.provenance) :=
        uniqueProvenance_congr fun p => mem_uniqueProvenance
      simp [lastOf,hu]
    · rw [concat_eq_append,←append_assoc,←append_assoc,lastOf_snoc,lastOf_snoc]
      congr 2
      apply uniqueProvenance_congr
      intro p
      simp [mem_uniqueProvenance,or_assoc]

theorem lastOf_right (fs gs : List (CatalogueErratum C)) :
    lastOf nfc locale (gs++(lastOf nfc locale fs).toList)=lastOf nfc locale (gs++fs) := by
  rcases eq_nil_or_concat fs with rfl | ⟨fs,f,rfl⟩
  · rfl
  · rw [concat_eq_append,lastOf_snoc,Option.toList_some,lastOf_snoc,←append_assoc,
      lastOf_snoc,withProvenance_twice]
    congr 2
    apply uniqueProvenance_congr
    intro p
    simp [mem_uniqueProvenance]

theorem lastOf_twice (fs : List (CatalogueErratum C)) :
    lastOf nfc locale (fs++fs)=lastOf nfc locale fs := by
  rcases eq_nil_or_concat fs with rfl | ⟨fs,f,rfl⟩
  · rfl
  · rw [concat_eq_append,←append_assoc,lastOf_snoc,lastOf_snoc]
    congr 2
    apply uniqueProvenance_congr
    intro p
    simp only [flatMap_append,mem_append,flatMap_cons,flatMap_nil,append_nil]
    tauto

/-- The map after the errata of a list. -/
structure Merging (nfc : Nfc) (locale : CodePointLocale) (es : List (CatalogueErratum C))
    (m : List (AsciiText × CatalogueErratum C)) : Prop where
  agree : ¬Conflict nfc es
  nodup : (m.map Prod.fst).Nodup
  entry : ∀id,m.lookup id=mergedErratum nfc locale es id

theorem mergedErratum_snoc (es : List (CatalogueErratum C)) (e : CatalogueErratum C)
    (id : AsciiText) : mergedErratum nfc locale (es++[e]) id=
      if id=e.id then lastOf nfc locale (withId es e.id++[e])
      else mergedErratum nfc locale es id := by
  rw [mergedErratum,withId_append]
  split
  · rename_i h
    subst h
    rw [withId,withId,filter_cons,decide_eq_true rfl]
    rfl
  · rename_i h
    have hne : decide (e.id=id)=false := decide_eq_false fun he => h he.symm
    have hw : withId [e] id=[] := by rw [withId,filter_cons,hne]; rfl
    rw [hw,append_nil,mergedErratum]

theorem provenance_before {es : List (CatalogueErratum C)} {x e : CatalogueErratum C}
    (h : lastOf nfc locale es=some x) :
    some (e.withProvenance (uniqueProvenance nfc locale (x.provenance++e.provenance)))=
      lastOf nfc locale (es++[e]) := by
  rw [lastOf_snoc,lastOf_provenance h]
  congr 2
  apply uniqueProvenance_congr
  intro p
  rw [mem_append,mem_append,mem_uniqueProvenance]

/-- One more erratum is merged, or shows a conflict. -/
theorem mergeErratum_step {es : List (CatalogueErratum C)}
    {m : List (AsciiText × CatalogueErratum C)} (h : Merging nfc locale es m)
    (e : CatalogueErratum C) :
    (∃n,mergeErratum nfc locale m e=some n ∧ Merging nfc locale (es++[e]) n) ∨
      mergeErratum nfc locale m e=none ∧ Conflict nfc (es++[e]) := by
  have hentry := h.entry e.id
  rw [mergeErratum,hentry]
  cases hx : mergedErratum nfc locale es e.id with
  | none =>
    have hnil : withId es e.id=[] := by
      rw [mergedErratum,lastOf,Option.map_eq_none_iff,List.getLast?_eq_none_iff] at hx
      exact hx
    refine .inl ⟨_,rfl,⟨?_,mapSet_nodup h.nodup _ _,fun id => ?_⟩⟩
    · rintro ⟨a,ha,b,hb,hid,hne⟩
      have hfresh : ∀x∈es,x.id≠e.id := by
        intro x hx hc
        have := mem_withId.mpr ⟨hx,hc⟩
        rw [hnil] at this
        cases this
      rcases mem_append.mp ha with ha | ha
      · rcases mem_append.mp hb with hb | hb
        · exact h.agree ⟨a,ha,b,hb,hid,hne⟩
        · rw [mem_singleton.mp hb] at hid
          exact hfresh a ha hid
      · rcases mem_append.mp hb with hb | hb
        · rw [mem_singleton.mp ha] at hid
          exact hfresh b hb hid.symm
        · rw [mem_singleton.mp ha,mem_singleton.mp hb] at hne
          exact hne rfl
    · rw [lookup_mapSet,mergedErratum_snoc,h.entry]
      refine if_congr Iff.rfl ?_ rfl
      rw [hnil,lastOf_snoc]
      rfl
  | some x =>
    obtain ⟨y,hy,hyid,hyc,-⟩ := lastOf_mem hx
    have hymem := mem_withId.mp hy
    by_cases hc : canonicalErratum nfc x=canonicalErratum nfc e
    · have hany : (some x).any (fun x => decide (canonicalErratum nfc x≠canonicalErratum nfc e))=
          false := by simp [hc]
      refine .inl ⟨_,by rw [hany]; rfl,⟨?_,mapSet_nodup h.nodup _ _,fun id => ?_⟩⟩
      · have hself : ∀a∈es,a.id=e.id → canonicalErratum nfc a=canonicalErratum nfc e := by
          intro a ha hid
          by_contra hne
          refine h.agree ⟨a,ha,y,hymem.1,hid.trans hymem.2.symm,?_⟩
          rw [hyc,hc]
          exact hne
        rintro ⟨a,ha,b,hb,hid,hne⟩
        rcases mem_append.mp ha with ha | ha
        · rcases mem_append.mp hb with hb | hb
          · exact h.agree ⟨a,ha,b,hb,hid,hne⟩
          · rw [mem_singleton.mp hb] at hid hne
            exact hne (hself a ha hid)
        · rcases mem_append.mp hb with hb | hb
          · rw [mem_singleton.mp ha] at hid hne
            exact hne (hself b hb hid.symm).symm
          · rw [mem_singleton.mp ha,mem_singleton.mp hb] at hne
            exact hne rfl
      · rw [lookup_mapSet,mergedErratum_snoc,h.entry]
        exact if_congr Iff.rfl (provenance_before hx) rfl
    · have hany : (some x).any (fun x => decide (canonicalErratum nfc x≠canonicalErratum nfc e))=
          true := by simp [hc]
      refine .inr ⟨by rw [hany]; rfl,y,mem_append_left _ hymem.1,e,by simp,hymem.2,?_⟩
      rwa [hyc]

theorem merging_run (nfc : Nfc) (locale : CodePointLocale) (es : List (CatalogueErratum C)) :
    (∃m,es.foldlM (mergeErratum nfc locale) []=some m ∧ Merging nfc locale es m) ∨
      es.foldlM (mergeErratum nfc locale) []=none ∧ Conflict nfc es := by
  induction es using List.reverseRecOn with
  | nil => exact .inl ⟨[],rfl,⟨fun ⟨a,ha,_⟩ => (not_mem_nil ha).elim,.nil,fun _ => rfl⟩⟩
  | append_singleton es e ih =>
    rw [foldlM_append]
    rcases ih with ⟨m,hm,hinv⟩ | ⟨hn,a,ha,b,hb,hc⟩
    · rw [hm]
      have hone : [e].foldlM (mergeErratum nfc locale) m=mergeErratum nfc locale m e := by
        rw [foldlM_cons]
        cases mergeErratum nfc locale m e <;> rfl
      rcases mergeErratum_step hinv e with ⟨n,hn,hinv⟩ | ⟨hn,hc⟩
      · exact .inl ⟨n,hone.trans hn,hinv⟩
      · exact .inr ⟨hone.trans hn,hc⟩
    · rw [hn]
      exact .inr ⟨rfl,a,mem_append_left _ ha,b,mem_append_left _ hb,hc⟩

theorem mergedKey_ascii (e : CatalogueErratum C) : ∀s∈[dateText e.effective_from,e.target_type.text,
    e.target_id.1,e.id.1],isAscii s=true := by
  intro s hs
  simp only [mem_cons,not_mem_nil,or_false] at hs
  rcases hs with rfl | rfl | rfl | rfl
  · exact dateText_ascii _
  · exact ErratumTarget.text_ascii _
  · exact e.target_id.2
  · exact e.id.2

theorem mergedKey_id {a b : CatalogueErratum C} (h : mergedKey nfc a=mergedKey nfc b) :
    a.id=b.id := by
  have he := textsKey_inj nfc (mergedKey_ascii a) (mergedKey_ascii b) h
  simp only [List.cons.injEq] at he
  exact AsciiText.ext he.2.2.2.1

/-- The list that merging some errata gives. -/
structure Merged (nfc : Nfc) (locale : CodePointLocale) (es l : List (CatalogueErratum C)) : Prop where
  agree : ¬Conflict nfc es
  sorted : l.Pairwise fun a b => compareUnits (mergedKey nfc a) (mergedKey nfc b) < 0
  mem : ∀e,e∈l ↔ mergedErratum nfc locale es e.id=some e

theorem Merged.unique {es l l' : List (CatalogueErratum C)} (h : Merged nfc locale es l)
    (h' : Merged nfc locale es l') : l=l' :=
  sorted_eq _ h.sorted h'.sorted fun e => (h.mem e).trans (h'.mem e).symm

theorem mergedErratum_id {es : List (CatalogueErratum C)} {id : AsciiText} {x : CatalogueErratum C}
    (h : mergedErratum nfc locale es id=some x) : x.id=id := by
  obtain ⟨e,he,hid,-⟩ := lastOf_mem h
  exact hid.symm.trans (mem_withId.mp he).2

theorem Merging.merged {es : List (CatalogueErratum C)} {m : List (AsciiText × CatalogueErratum C)}
    (h : Merging nfc locale es m) :
    Merged nfc locale es (locale.sort (mergedKey nfc) (m.map Prod.snd)) := by
  have hids : ∀e∈m,e.2.id=e.1 := by
    intro e he
    have hl : m.lookup e.1=some e.2 := lookup_of_nodup h.nodup he
    exact mergedErratum_id ((h.entry e.1).symm.trans hl)
  have hkeys : ((m.map Prod.snd).map (mergedKey nfc)).Nodup := by
    have hid : (m.map Prod.snd).map CatalogueErratum.id=m.map Prod.fst := by
      rw [map_map]
      exact map_congr_left hids
    have hnodup := h.nodup
    rw [←hid] at hnodup
    exact (pairwise_map.mp hnodup).imp (fun hne hk => hne (mergedKey_id hk)) |> pairwise_map.mpr
  have hascii : ∀e∈m.map Prod.snd,isAscii (mergedKey nfc e)=true :=
    fun e _ => textsKey_ascii nfc (mergedKey_ascii e)
  rw [sort_units hascii]
  refine ⟨h.agree,sorted_strict hkeys,fun e => ?_⟩
  rw [mem_insertionSort,←h.entry]
  constructor
  · intro he
    obtain ⟨⟨id,x⟩,hm,rfl⟩ := mem_map.mp he
    obtain rfl : x.id=id := hids _ hm
    exact lookup_of_nodup h.nodup hm
  · intro he
    exact mem_map.mpr ⟨_,mem_of_lookup he,rfl⟩

theorem merge_spec (nfc : Nfc) (locale : CodePointLocale) (as bs : List (CatalogueErratum C)) :
    (∃l,mergeCatalogueErrata nfc locale as bs=some l ∧ Merged nfc locale (as++bs) l) ∨
      mergeCatalogueErrata nfc locale as bs=none ∧ Conflict nfc (as++bs) := by
  rcases merging_run nfc locale (as++bs) with ⟨m,hm,hinv⟩ | ⟨hn,hc⟩
  · exact .inl ⟨_,by rw [mergeCatalogueErrata,hm]; rfl,hinv.merged⟩
  · exact .inr ⟨by rw [mergeCatalogueErrata,hn]; rfl,hc⟩

theorem merge_some {as bs l : List (CatalogueErratum C)} :
    mergeCatalogueErrata nfc locale as bs=some l ↔ Merged nfc locale (as++bs) l := by
  rcases merge_spec nfc locale as bs with ⟨k,hk,hm⟩ | ⟨hn,hc⟩
  · rw [hk,Option.some.injEq]
    constructor
    · rintro rfl
      exact hm
    · exact hm.unique
  · rw [hn]
    constructor
    · intro h
      cases h
    · exact fun h => absurd hc h.agree

theorem merge_none {as bs : List (CatalogueErratum C)} :
    mergeCatalogueErrata nfc locale as bs=none ↔ Conflict nfc (as++bs) := by
  rcases merge_spec nfc locale as bs with ⟨k,hk,hm⟩ | ⟨hn,hc⟩
  · rw [hk]
    constructor
    · intro h
      cases h
    · exact fun h => absurd h hm.agree
  · exact ⟨fun _ => hc,fun _ => hn⟩

end CardKeepr.Reconciliation.Errata
