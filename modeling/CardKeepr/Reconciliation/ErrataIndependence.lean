import CardKeepr.Reconciliation.ErrataMerge

namespace CardKeepr.Reconciliation.Errata
open Lib Shared Reconciliation.Product List

variable {C : Type} {nfc : Nfc} {locale : CodePointLocale}

theorem Merged.withId {es l : List (CatalogueErratum C)} (h : Merged nfc locale es l)
    (id : AsciiText) : withId l id=(mergedErratum nfc locale es id).toList := by
  refine sorted_eq (mergedKey nfc) (h.sorted.filter _) ?_ fun e => ?_
  · cases mergedErratum nfc locale es id with
    | none => exact .nil
    | some x => exact pairwise_singleton _ x
  · show e∈Errata.withId l id ↔ _
    rw [mem_withId,h.mem,Option.mem_toList]
    constructor
    · rintro ⟨he,rfl⟩
      exact he
    · intro he
      have hid := mergedErratum_id he
      exact ⟨hid.symm ▸ he,hid⟩

/-- Every erratum has one of the other list that is the same erratum. -/
def Covered (nfc : Nfc) (xs ys : List (CatalogueErratum C)) : Prop :=
  ∀x∈xs,∃y∈ys,y.id=x.id ∧ canonicalErratum nfc y=canonicalErratum nfc x

theorem Conflict.covered {xs ys : List (CatalogueErratum C)} (hc : Conflict nfc xs)
    (h : Covered nfc xs ys) : Conflict nfc ys := by
  obtain ⟨a,ha,b,hb,hid,hne⟩ := hc
  obtain ⟨x,hx,hxid,hxc⟩ := h a ha
  obtain ⟨y,hy,hyid,hyc⟩ := h b hb
  refine ⟨x,hx,y,hy,(hxid.trans hid).trans hyid.symm,?_⟩
  rw [hxc,hyc]
  exact hne

theorem Covered.append {xs ys us vs : List (CatalogueErratum C)} (h : Covered nfc xs ys)
    (k : Covered nfc us vs) : Covered nfc (xs++us) (ys++vs) := by
  intro x hx
  rcases mem_append.mp hx with hx | hx
  · obtain ⟨y,hy,he⟩ := h x hx
    exact ⟨y,mem_append_left vs hy,he⟩
  · obtain ⟨y,hy,he⟩ := k x hx
    exact ⟨y,mem_append_right ys hy,he⟩

theorem Covered.of_subset {xs ys : List (CatalogueErratum C)} (h : ∀x∈xs,x∈ys) :
    Covered nfc xs ys := fun x hx => ⟨x,h x hx,rfl,rfl⟩

theorem mergedErratum_isSome (nfc : Nfc) (locale : CodePointLocale) {es : List (CatalogueErratum C)} {y : CatalogueErratum C}
    (hy : y∈es) : ∃x,mergedErratum nfc locale es y.id=some x := by
  cases hx : mergedErratum nfc locale es y.id with
  | some x => exact ⟨x,rfl⟩
  | none =>
    rw [mergedErratum,lastOf,Option.map_eq_none_iff,List.getLast?_eq_none_iff] at hx
    have := mem_withId.mpr ⟨hy,rfl⟩
    rw [hx] at this
    cases this

theorem merged_canonical {es : List (CatalogueErratum C)} (ha : ¬Conflict nfc es)
    {x y : CatalogueErratum C} (hy : y∈es) (hx : mergedErratum nfc locale es y.id=some x) :
    canonicalErratum nfc x=canonicalErratum nfc y := by
  obtain ⟨z,hz,hzid,hzc,-⟩ := lastOf_mem hx
  have hzm := mem_withId.mp hz
  by_contra hne
  exact ha ⟨z,hzm.1,y,hy,hzm.2,fun h => hne (hzc.symm.trans h)⟩

theorem Merged.covers {es l : List (CatalogueErratum C)} (h : Merged nfc locale es l) :
    Covered nfc l es ∧ Covered nfc es l := by
  constructor
  · intro x hx
    obtain ⟨y,hy,hid,hc,-⟩ := lastOf_mem ((h.mem x).mp hx)
    exact ⟨y,(mem_withId.mp hy).1,hid,hc⟩
  · intro y hy
    obtain ⟨x,hx⟩ := mergedErratum_isSome nfc locale hy
    have hid := mergedErratum_id hx
    exact ⟨x,(h.mem x).mpr (hid.symm ▸ hx),hid,merged_canonical h.agree hy hx⟩

theorem Merged.congr {es fs r : List (CatalogueErratum C)} (hc : Conflict nfc es ↔ Conflict nfc fs)
    (he : ∀id,mergedErratum nfc locale es id=mergedErratum nfc locale fs id) :
    Merged nfc locale es r ↔ Merged nfc locale fs r := by
  constructor
  · exact fun h => ⟨fun k => h.agree (hc.mpr k),h.sorted,fun e => by rw [h.mem,he]⟩
  · exact fun h => ⟨fun k => h.agree (hc.mp k),h.sorted,fun e => by rw [h.mem,he]⟩

theorem Merged.left {es l : List (CatalogueErratum C)} (h : Merged nfc locale es l)
    (cs r : List (CatalogueErratum C)) :
    Merged nfc locale (l++cs) r ↔ Merged nfc locale (es++cs) r := by
  have hself : Covered nfc cs cs := Covered.of_subset fun _ => id
  refine Merged.congr ?_ fun id => ?_
  · exact ⟨fun k => k.covered (h.covers.1.append hself),fun k => k.covered (h.covers.2.append hself)⟩
  · rw [mergedErratum,mergedErratum,withId_append,withId_append,h.withId,mergedErratum,lastOf_left]

theorem Merged.right {es l : List (CatalogueErratum C)} (h : Merged nfc locale es l)
    (cs r : List (CatalogueErratum C)) :
    Merged nfc locale (cs++l) r ↔ Merged nfc locale (cs++es) r := by
  have hself : Covered nfc cs cs := Covered.of_subset fun _ => id
  refine Merged.congr ?_ fun id => ?_
  · exact ⟨fun k => k.covered (hself.append h.covers.1),fun k => k.covered (hself.append h.covers.2)⟩
  · rw [mergedErratum,mergedErratum,withId_append,withId_append,h.withId,mergedErratum,lastOf_right]

theorem exists_merged (locale : CodePointLocale) {es : List (CatalogueErratum C)} (h : ¬Conflict nfc es) :
    ∃l,Merged nfc locale es l := by
  rcases merging_run nfc locale es with ⟨m,-,hm⟩ | ⟨-,hc⟩
  · exact ⟨_,hm.merged⟩
  · exact absurd hc h

theorem merge_assoc (as bs cs : List (CatalogueErratum C)) :
    (mergeCatalogueErrata nfc locale as bs).bind (fun l => mergeCatalogueErrata nfc locale l cs)=
      (mergeCatalogueErrata nfc locale bs cs).bind
        (fun l => mergeCatalogueErrata nfc locale as l) := by
  ext r
  rw [Option.bind_eq_some_iff,Option.bind_eq_some_iff]
  constructor
  · rintro ⟨l,hl,hr⟩
    have hl := merge_some.mp hl
    have hr := (hl.left cs r).mp (merge_some.mp hr)
    have hbc : ¬Conflict nfc (bs++cs) := fun hc => hr.agree <| hc.covered <|
      Covered.of_subset fun x hx => by
        rw [append_assoc]
        exact mem_append_right as hx
    obtain ⟨k,hk⟩ := exists_merged locale hbc
    refine ⟨k,merge_some.mpr hk,merge_some.mpr ((hk.right as r).mpr ?_)⟩
    rwa [←append_assoc]
  · rintro ⟨l,hl,hr⟩
    have hl := merge_some.mp hl
    have hr := (hl.right as r).mp (merge_some.mp hr)
    have hab : ¬Conflict nfc (as++bs) := fun hc => hr.agree <| hc.covered <|
      Covered.of_subset fun x hx => by
        rw [←append_assoc]
        exact mem_append_left cs hx
    obtain ⟨k,hk⟩ := exists_merged locale hab
    refine ⟨k,merge_some.mpr hk,merge_some.mpr ((hk.left cs r).mpr ?_)⟩
    rwa [append_assoc]

theorem merge_self (as : List (CatalogueErratum C)) :
    mergeCatalogueErrata nfc locale as as=mergeCatalogueErrata nfc locale as [] := by
  ext r
  rw [merge_some,merge_some,append_nil]
  refine Merged.congr ?_ fun id => ?_
  · exact ⟨fun k => k.covered (Covered.of_subset fun x hx => (mem_append.mp hx).elim (·) (·)),
      fun k => k.covered (Covered.of_subset fun x hx => mem_append_left as hx)⟩
  · rw [mergedErratum,mergedErratum,withId_append,lastOf_twice]

theorem merge_merged {as bs l : List (CatalogueErratum C)}
    (h : mergeCatalogueErrata nfc locale as bs=some l) :
    mergeCatalogueErrata nfc locale l l=some l := by
  have hl := merge_some.mp h
  rw [merge_self]
  have hl2 : as++bs=as++bs++[] := (append_nil _).symm
  exact merge_some.mpr ((hl.left [] l).mpr (hl2 ▸ hl))

/-- What merging keeps whatever the order: the erratum and where it was observed. -/
def summary (nfc : Nfc) (e : CatalogueErratum C) :
    AsciiText × JsString × List ErratumProvenance :=
  (e.id,canonicalErratum nfc e,e.provenance)

def erratumKeys : List JsString := ["type","id","game","target_type","target_id","effective_from",
  "official_wording","corrected_value"].map fun k => js k.toList

theorem exportErratum_integral (e : CatalogueErratum C) : (exportErratum e).Integral := by
  rw [exportErratum,Json.Integral,all_obj]
  refine ⟨trivial,fun m hm => ?_⟩
  have hopt : ∀o : Option JsString,(optional Json.str o).All (fun q => q.den=1) (fun _ => True)
      fun _ => True := by
    intro o
    cases o <;> trivial
  simp only [mem_cons,not_mem_nil,or_false] at hm
  rcases hm with rfl | rfl | rfl | rfl | rfl | rfl | rfl | rfl
  all_goals first | exact trivial | exact hopt _

theorem ascii_str {s t : AsciiText}
    (h : (Json.str s.text).canonical nfc=(Json.str t.text).canonical nfc) : s=t := by
  have hn : nfc.normalize s.text=nfc.normalize t.text := by
    injection h
  rw [nfc.ascii _ s.ascii,nfc.ascii _ t.ascii] at hn
  exact AsciiText.ext hn

theorem same_member {a b : CatalogueErratum C}
    (h : canonicalErratum nfc a=canonicalErratum nfc b) {k : JsString} {v w : Json}
    (hv : (k,v)∈(match exportErratum a with | .obj ms => ms | _ => []))
    (hw : (k,w)∈(match exportErratum b with | .obj ms => ms | _ => [])) :
    v.canonical nfc=w.canonical nfc := by
  have hc := (canonicalText_eq_iff nfc (exportErratum_integral a) (exportErratum_integral b)).mp h
  have hascii : erratumKeys.all isAscii=true := by decide
  have hnodup : erratumKeys.Nodup := by decide
  exact canonical_member nfc hc hv hw hascii hnodup

theorem mergedKey_of_canonical {a b : CatalogueErratum C}
    (h : canonicalErratum nfc a=canonicalErratum nfc b) : mergedKey nfc a=mergedKey nfc b := by
  have hm := @same_member C nfc a b h
  have hid : a.id=b.id := ascii_str (hm (k := js "id".toList) (by simp [exportErratum])
    (by simp [exportErratum]))
  have htarget : a.target_id=b.target_id := ascii_str (hm (k := js "target_id".toList)
    (by simp [exportErratum]) (by simp [exportErratum]))
  have htype : a.target_type.text=b.target_type.text := by
    have := ascii_str (s := ⟨_,a.target_type.text_ascii⟩) (t := ⟨_,b.target_type.text_ascii⟩)
      (hm (k := js "target_type".toList) (by simp [exportErratum]) (by simp [exportErratum]))
    exact congrArg AsciiText.text this
  have hdate : a.effective_from=b.effective_from := by
    have hd := hm (k := js "effective_from".toList)
      (v := optional .str (a.effective_from.map CalendarDate.text))
      (w := optional .str (b.effective_from.map CalendarDate.text))
      (by simp [exportErratum]) (by simp [exportErratum])
    cases ha : a.effective_from with
    | none =>
      cases hb : b.effective_from with
      | none => rfl
      | some d =>
        rw [ha,hb] at hd
        cases hd
    | some d =>
      cases hb : b.effective_from with
      | none =>
        rw [ha,hb] at hd
        cases hd
      | some e =>
        rw [ha,hb] at hd
        have := ascii_str (s := ⟨_,plainText_ascii d.plain⟩) (t := ⟨_,plainText_ascii e.plain⟩) hd
        rw [CalendarDate.text_inj (congrArg AsciiText.text this)]
  rw [mergedKey,mergedKey,hid,htarget,htype,hdate]

theorem Conflict.perm {es fs : List (CatalogueErratum C)} (h : es.Perm fs) :
    Conflict nfc es ↔ Conflict nfc fs :=
  ⟨fun k => k.covered (Covered.of_subset fun _ hx => h.mem_iff.mp hx),
    fun k => k.covered (Covered.of_subset fun _ hx => h.mem_iff.mpr hx)⟩

theorem provenance_perm {es fs : List (CatalogueErratum C)} (h : es.Perm fs) {id : AsciiText}
    {x y : CatalogueErratum C} (hx : mergedErratum nfc locale es id=some x)
    (hy : mergedErratum nfc locale fs id=some y) : x.provenance=y.provenance := by
  rw [lastOf_provenance hx,lastOf_provenance hy]
  apply uniqueProvenance_congr
  intro p
  rw [mem_flatMap,mem_flatMap]
  have hmem : ∀e,e∈withId es id ↔ e∈withId fs id := fun e => (h.filter _).mem_iff
  simp only [hmem]

theorem Merged.summary_subset {es fs l k : List (CatalogueErratum C)} (h : es.Perm fs)
    (hl : Merged nfc locale es l) (hk : Merged nfc locale fs k) {e : CatalogueErratum C}
    (he : e∈l) : ∃f∈k,mergedKey nfc f=mergedKey nfc e ∧ summary nfc f=summary nfc e := by
  have hx := (hl.mem e).mp he
  obtain ⟨y,hy,hid,hc,-⟩ := lastOf_mem hx
  have hyes := (mem_withId.mp hy).1
  obtain ⟨f,hf⟩ := mergedErratum_isSome nfc locale (h.mem_iff.mp hyes)
  have hfid := mergedErratum_id hf
  have hfc := (merged_canonical hk.agree (h.mem_iff.mp hyes) hf).trans hc
  have hp := provenance_perm h (hid ▸ hx) hf
  refine ⟨f,(hk.mem f).mpr (hfid.symm ▸ hf),mergedKey_of_canonical hfc,?_⟩
  rw [summary,summary,hfid,hid,hfc,hp]

theorem Merged.summary_perm {es fs l k : List (CatalogueErratum C)} (h : es.Perm fs)
    (hl : Merged nfc locale es l) (hk : Merged nfc locale fs k) :
    l.map (summary nfc)=k.map (summary nfc) := by
  have hmap : ∀{es m : List (CatalogueErratum C)},Merged nfc locale es m →
      (m.map fun e => (mergedKey nfc e,summary nfc e)).Pairwise
        fun a b => compareUnits a.1 b.1 < 0 := fun hm => pairwise_map.mpr hm.sorted
  have heq : (l.map fun e => (mergedKey nfc e,summary nfc e))=
      k.map fun e => (mergedKey nfc e,summary nfc e) := by
    refine sorted_eq Prod.fst (hmap hl) (hmap hk) fun s => ?_
    rw [mem_map,mem_map]
    constructor
    · rintro ⟨e,he,rfl⟩
      obtain ⟨f,hf,h1,h2⟩ := Merged.summary_subset h hl hk he
      exact ⟨f,hf,Prod.ext h1 h2⟩
    · rintro ⟨e,he,rfl⟩
      obtain ⟨f,hf,h1,h2⟩ := Merged.summary_subset h.symm hk hl he
      exact ⟨f,hf,Prod.ext h1 h2⟩
  have hsnd := congrArg (List.map Prod.snd) heq
  rwa [map_map,map_map] at hsnd

theorem Merged.perm_exact {es fs l k : List (CatalogueErratum C)} (h : es.Perm fs)
    (hl : Merged nfc locale es l) (hk : Merged nfc locale fs k)
    (hsame : ∀x∈es,∀y∈es,x.id=y.id → x.withProvenance []=y.withProvenance []) : l=k := by
  refine sorted_eq _ hl.sorted hk.sorted fun e => ?_
  have hentry : ∀{x y : CatalogueErratum C} {id : AsciiText},
      mergedErratum nfc locale es id=some x → mergedErratum nfc locale fs id=some y → x=y := by
    intro x y id hx hy
    obtain ⟨u,hu,huid,-,hux⟩ := lastOf_mem hx
    obtain ⟨v,hv,hvid,-,hvy⟩ := lastOf_mem hy
    have hum := mem_withId.mp hu
    have hvm := mem_withId.mp hv
    have huv := hsame u hum.1 v (h.mem_iff.mpr hvm.1) (hum.2.trans hvm.2.symm)
    have hp := provenance_perm h hx hy
    rw [←hux,←hvy,withProvenance_twice,withProvenance_twice] at huv
    have hall := congrArg (fun e : CatalogueErratum C => e.withProvenance x.provenance) huv
    simp only [withProvenance_twice] at hall
    have hxx : x.withProvenance x.provenance=x := rfl
    have hyy : y.withProvenance x.provenance=y := by rw [hp]; rfl
    rw [hxx,hyy] at hall
    exact hall
  rw [hl.mem,hk.mem]
  constructor
  · intro hx
    obtain ⟨u,hu,-,-,-⟩ := lastOf_mem hx
    have hum := mem_withId.mp hu
    obtain ⟨y,hy⟩ := mergedErratum_isSome nfc locale (h.mem_iff.mp hum.1)
    rw [hum.2] at hy
    rw [hy,hentry hx hy]
  · intro hy
    obtain ⟨u,hu,-,-,-⟩ := lastOf_mem hy
    have hum := mem_withId.mp hu
    obtain ⟨x,hx⟩ := mergedErratum_isSome nfc locale (h.mem_iff.mpr hum.1)
    rw [hum.2] at hx
    rw [hx,hentry hx hy]

theorem merge_comm (as bs : List (CatalogueErratum C)) :
    (mergeCatalogueErrata nfc locale as bs).map (List.map (summary nfc))=
      (mergeCatalogueErrata nfc locale bs as).map (List.map (summary nfc)) ∧
    ((∀x∈as++bs,∀y∈as++bs,x.id=y.id → x.withProvenance []=y.withProvenance []) →
      mergeCatalogueErrata nfc locale as bs=mergeCatalogueErrata nfc locale bs as) := by
  have hp : (as++bs).Perm (bs++as) := perm_append_comm
  rcases merge_spec nfc locale as bs with ⟨l,hl,hlm⟩ | ⟨hn,hc⟩
  · rcases merge_spec nfc locale bs as with ⟨k,hk,hkm⟩ | ⟨hn,hc⟩
    · rw [hl,hk]
      exact ⟨congrArg some (hlm.summary_perm hp hkm),
        fun hsame => congrArg some (hlm.perm_exact hp hkm hsame)⟩
    · exact absurd ((Conflict.perm hp).mpr hc) hlm.agree
  · rw [hn,merge_none.mpr ((Conflict.perm hp).mp hc)]
    exact ⟨rfl,fun _ => rfl⟩

section
variable {card : RulesTextCard} {observedAt : JsString} {errata : List (CatalogueErratum C)}

theorem derive_none : deriveEffectiveRulesText nfc locale card errata observedAt=none ↔
    Disagree nfc card observedAt errata := by
  rw [deriveEffectiveRulesText,Option.map_eq_none_iff,applicable_none]

theorem derive_some {v : Option JsString}
    (h : deriveEffectiveRulesText nfc locale card errata observedAt=some v) :
    (∃e,Latest card observedAt errata e ∧ v=e.corrected_value) ∨
      (∀e∈errata,applies card observedAt e=false) ∧ v=card.effective_rules_text := by
  obtain ⟨l,hl,hv⟩ := Option.map_eq_some_iff.mp h
  obtain ⟨-,rfl⟩ := applicable_some.mp hl
  cases hlast : (applicableInOrder nfc card errata observedAt).getLast? with
  | none =>
    rw [hlast] at hv
    refine .inr ⟨fun e he => ?_,hv.symm⟩
    by_contra ha
    have hmem := (mem_applicable nfc).mpr ⟨he,Bool.eq_true_of_not_eq_false ha⟩
    rw [List.getLast?_eq_none_iff.mp hlast] at hmem
    cases hmem
  | some e =>
    rw [hlast] at hv
    exact .inl ⟨e,latest_last hlast,hv.symm⟩

theorem derive_perm {errata' : List (CatalogueErratum C)} (h : errata.Perm errata') :
    (deriveEffectiveRulesText nfc locale card errata observedAt).map
        (fun v => canonicalText nfc (optional .str v))=
      (deriveEffectiveRulesText nfc locale card errata' observedAt).map
        fun v => canonicalText nfc (optional .str v) := by
  cases hx : deriveEffectiveRulesText nfc locale card errata observedAt with
  | none => rw [derive_none.mpr ((Disagree.perm h).mp (derive_none.mp hx))]
  | some v =>
    cases hy : deriveEffectiveRulesText nfc locale card errata' observedAt with
    | none =>
      rw [derive_none.mpr ((Disagree.perm h).mpr (derive_none.mp hy))] at hx
      cases hx
    | some w =>
      have hagree : ¬Disagree nfc card observedAt errata := fun hc => by
        rw [derive_none.mpr hc] at hx
        cases hx
      rcases derive_some hx with ⟨e,he,rfl⟩ | ⟨hnone,rfl⟩
      · rcases derive_some hy with ⟨f,hf,rfl⟩ | ⟨hnone,rfl⟩
        · by_contra hne
          exact hagree ⟨e,f,he,hf.perm h.symm,fun hc => hne (congrArg some hc)⟩
        · have := hnone e (h.mem_iff.mp he.mem)
          rw [he.applies] at this
          cases this
      · rcases derive_some hy with ⟨f,hf,rfl⟩ | ⟨hnone',rfl⟩
        · have := hnone f (h.mem_iff.mpr hf.mem)
          rw [hf.applies] at this
          cases this
        · rfl

theorem applicable_perm {errata' : List (CatalogueErratum C)} (h : errata.Perm errata') :
    (applicableRulesTextErrata nfc locale card errata observedAt).map
        (List.map CatalogueErratum.place)=
      (applicableRulesTextErrata nfc locale card errata' observedAt).map
        (List.map CatalogueErratum.place) := by
  classical
  rw [applicable_eq,applicable_eq,if_congr (Disagree.perm h) rfl rfl]
  split
  · rfl
  · exact congrArg some (applicable_places nfc card observedAt h)

theorem applicable_exact (nfc : Nfc) (locale : CodePointLocale) (card : RulesTextCard)
    (observedAt : JsString) {errata' : List (CatalogueErratum C)} (h : errata.Perm errata')
    (hsame : ∀x∈errata,∀y∈errata,x.place=y.place → x=y) : applicableRulesTextErrata nfc locale card
    errata observedAt= applicableRulesTextErrata nfc locale card errata' observedAt := by
  classical
  have hplaces := applicable_places nfc card observedAt h
  have hinj : ∀x∈applicableInOrder nfc card errata observedAt,
      ∀y∈applicableInOrder nfc card errata' observedAt,x.place=y.place → x=y := by
    intro x hx y hy hxy
    exact hsame x ((mem_applicable nfc).mp hx).1 y (h.mem_iff.mpr ((mem_applicable nfc).mp hy).1) hxy
  rw [applicable_eq,applicable_eq,if_congr (Disagree.perm h) rfl rfl,map_inj_mem hinj hplaces]

end

/-- How errata depend on the order they are met in: not at all where errata of one date and id, or
of one id, are equal; otherwise in the spelling of their texts and what else the last one says. -/
theorem errata_order_independent (nfc : Nfc) (locale : CodePointLocale) (C : Type) :
    (∀(card : RulesTextCard) (observedAt : JsString) (errata : List (CatalogueErratum C)),
      (applicableRulesTextErrata nfc locale card errata observedAt=none ↔
        Disagree nfc card observedAt errata) ∧
      (∀l,applicableRulesTextErrata nfc locale card errata observedAt=some l →
        l.Perm (errata.filter (applies card observedAt)) ∧ l.Pairwise fun a b =>
          datePoint a.effective_from < datePoint b.effective_from ∨
            a.effective_from=b.effective_from ∧
              compareUnits (textsKey nfc [a.id.1]) (textsKey nfc [b.id.1]) ≤ 0) ∧
      (deriveEffectiveRulesText nfc locale card errata observedAt=none ↔
        Disagree nfc card observedAt errata) ∧
      (∀v,deriveEffectiveRulesText nfc locale card errata observedAt=some v →
        (∃e,Latest card observedAt errata e ∧ v=e.corrected_value) ∨
          (∀e∈errata,applies card observedAt e=false) ∧ v=card.effective_rules_text) ∧
      ∀errata',errata.Perm errata' →
        (applicableRulesTextErrata nfc locale card errata observedAt).map
            (List.map CatalogueErratum.place)=
          (applicableRulesTextErrata nfc locale card errata' observedAt).map
            (List.map CatalogueErratum.place) ∧
        (deriveEffectiveRulesText nfc locale card errata observedAt).map
            (fun v => canonicalText nfc (optional .str v))=
          (deriveEffectiveRulesText nfc locale card errata' observedAt).map
            (fun v => canonicalText nfc (optional .str v)) ∧
        ((∀x∈errata,∀y∈errata,x.place=y.place → x=y) →
          applicableRulesTextErrata nfc locale card errata observedAt=
            applicableRulesTextErrata nfc locale card errata' observedAt ∧
          deriveEffectiveRulesText nfc locale card errata observedAt=
            deriveEffectiveRulesText nfc locale card errata' observedAt)) ∧
    ∀as bs cs : List (CatalogueErratum C),
      mergeCatalogueErrata nfc locale as as=mergeCatalogueErrata nfc locale as [] ∧
      (∀l,mergeCatalogueErrata nfc locale as bs=some l →
        mergeCatalogueErrata nfc locale l l=some l) ∧
      (mergeCatalogueErrata nfc locale as bs).bind
          (fun l => mergeCatalogueErrata nfc locale l cs)=
        (mergeCatalogueErrata nfc locale bs cs).bind
          (fun l => mergeCatalogueErrata nfc locale as l) ∧
      (mergeCatalogueErrata nfc locale as bs).map (List.map (summary nfc))=
        (mergeCatalogueErrata nfc locale bs as).map (List.map (summary nfc)) ∧
      ((∀x∈as++bs,∀y∈as++bs,x.id=y.id → x.withProvenance []=y.withProvenance []) →
        mergeCatalogueErrata nfc locale as bs=mergeCatalogueErrata nfc locale bs as) := by
  refine ⟨fun card observedAt errata => ⟨applicable_none,fun l hl => ?_,derive_none,
    fun v => derive_some,fun errata' h => ⟨applicable_perm h,derive_perm h,fun hsame => ?_⟩⟩,
    fun as bs cs => ⟨merge_self as,fun l => merge_merged,merge_assoc as bs cs,
      (merge_comm as bs).1,(merge_comm as bs).2⟩⟩
  · obtain ⟨-,rfl⟩ := applicable_some.mp hl
    refine ⟨perm_insertionSort _ _,?_⟩
    exact (pairwise_insertionSort (KeyLe (placeKey nfc)) _).imp fun {a b} hab => place_le hab
  · have hexact := applicable_exact nfc locale card observedAt h hsame
    refine ⟨hexact,?_⟩
    rw [deriveEffectiveRulesText,deriveEffectiveRulesText,hexact]

def asIs : Nfc := .asWritten
def byUnits : CodePointLocale := ⟨compareUnits,fun _ _ _ _ => Iff.rfl⟩

def worded (wording : List Char) (layer : Option JsString) : CatalogueErratum (Option JsString) where
  id := ⟨js ['e'],by decide⟩
  game := js ['m']
  target_type := .card
  target_id := ⟨js ['c'],by decide⟩
  effective_from := none
  official_wording := js wording
  corrected_value := some (js ['t'])
  provenance := []
  curated_provenance := layer

/-- Two errata of one id are listed in the order they came in, and the curated provenance of the
last one stays in a merge. -/
theorem errata_order_seen : (applicableRulesTextErrata asIs byUnits ⟨js ['c'],js ['m'],none⟩
        [worded ['a'] none,worded ['b'] none] (js "2026-01-01".toList)).map
        (List.map CatalogueErratum.official_wording)≠
      (applicableRulesTextErrata asIs byUnits ⟨js ['c'],js ['m'],none⟩
        [worded ['b'] none,worded ['a'] none] (js "2026-01-01".toList)).map
        (List.map CatalogueErratum.official_wording) ∧
    (mergeCatalogueErrata asIs byUnits [worded ['a'] none] [worded ['a'] (some (js ['x']))]).map
        (List.map CatalogueErratum.curated_provenance)≠
      (mergeCatalogueErrata asIs byUnits [worded ['a'] (some (js ['x']))] [worded ['a'] none]).map
        (List.map CatalogueErratum.curated_provenance) := by
  constructor
  · decide +kernel
  · decide +kernel

end CardKeepr.Reconciliation.Errata
