import CardKeepr.Reconciliation.ProductReobservation
import CardKeepr.Lib.Fallible
import CardKeepr.Shared.CanonicalTies
import Mathlib.Logic.Equiv.Basic

namespace CardKeepr.Reconciliation.Product

open Lib Shared List

variable {nfc : Nfc} {c : Collation} {n : Renaming}
variable {e f : ProductEvidenceResource}

theorem Renaming.Evidence.source (h : n.Evidence e f) : f.source=e.source := by
  have h : ({ f with captured_at := e.captured_at } : ProductEvidenceResource)=_ := h
  have h := congrArg ProductEvidenceResource.source h
  exact h

theorem Renaming.Evidence.authority (h : n.Evidence e f) : f.authority=e.authority := by
  have h : ({ f with captured_at := e.captured_at } : ProductEvidenceResource)=_ := h
  have h := congrArg ProductEvidenceResource.authority_class h
  exact congrArg (fun a => productAuthorityRank (Option.getD a .unknown)) h

theorem officialCode_same {x y : ProductSourceObservation} (h : n.Reobserves x y) :
    List.Forall₂ SameFact (officialCodeFacts [x]) (officialCodeFacts [y]) := by
  have hown : SameFact (x.officialCode,x.evidence) (y.officialCode,y.evidence) :=
    ⟨h.officialCode,h.evidence.authority⟩
  have hcarried := h.carried
  simp only [officialCodeFacts,List.flatMap_singleton]
  rw [h.officialCode] at hown ⊢
  cases hx : x.officialCode with
  | some code =>
    rw [hx] at hown
    exact .cons hown .nil
  | none =>
    rw [hx] at hown
    cases hc : x.carriedOfficialCode with
    | none =>
      rw [hc] at hcarried
      cases hd : y.carriedOfficialCode with
      | none => exact .cons hown .nil
      | some b =>
        rw [hd] at hcarried
        cases hcarried
    | some a =>
      rw [hc] at hcarried
      cases hd : y.carriedOfficialCode with
      | none =>
        rw [hd] at hcarried
        cases hcarried
      | some b =>
        rw [hd] at hcarried
        cases hcarried with
        | some hab =>
          show List.Forall₂ SameFact (a.evidence.map _) (b.evidence.map _)
          rw [forall₂_map_left_iff,forall₂_map_right_iff,hab.1]
          exact hab.2.imp fun e f hef => ⟨rfl,hef.authority⟩

theorem officialCodes_same {xs ys : List ProductSourceObservation}
    (h : List.Forall₂ n.Reobserves xs ys) :
    List.Forall₂ SameFact (officialCodeFacts xs) (officialCodeFacts ys) := by
  induction h with
  | nil => exact .nil
  | @cons x y xs ys hxy _ ih =>
    have hhead := officialCode_same hxy
    simp only [officialCodeFacts,List.flatMap_singleton] at hhead
    exact rel_append hhead ih

theorem names_same {xs ys : List ProductSourceObservation} (h : List.Forall₂ n.Reobserves xs ys) :
    List.Forall₂ SameFact (xs.map fun o => (o.name,o.evidence))
      (ys.map fun o => (o.name,o.evidence)) := by
  rw [forall₂_map_left_iff,forall₂_map_right_iff]
  exact h.imp fun x y hxy => ⟨hxy.name,hxy.evidence.authority⟩

/-- The same release, stated by evidence of the same source and authority. -/
structure SameRelease (a b : ObservedRelease × ProductEvidenceResource) : Prop where
  release : b.1=a.1
  source : b.2.source=a.2.source
  authority : b.2.authority=a.2.authority

theorem observedReleases_same {xs ys : List ProductSourceObservation}
    (h : List.Forall₂ n.Reobserves xs ys) :
    List.Forall₂ SameRelease (xs.flatMap fun o => o.releases.map fun r => (r,o.evidence))
      (ys.flatMap fun o => o.releases.map fun r => (r,o.evidence)) := by
  refine rel_flatMap h fun x y hxy => ?_
  rw [hxy.releases,forall₂_map_left_iff,forall₂_map_right_iff,forall₂_same]
  exact fun r _ => ⟨rfl,hxy.evidence.source,hxy.evidence.authority⟩

/-- The groups have the same keys, and correspond release by release. -/
structure SameGroup
    (g h : JsString × List (ObservedRelease × ProductEvidenceResource)) : Prop where
  key : h.1=g.1
  releases : List.Forall₂ SameRelease g.2 h.2

theorem releaseGroups_same {xs ys : List ProductSourceObservation}
    (h : List.Forall₂ n.Reobserves xs ys) :
    List.Forall₂ SameGroup (releaseGroups nfc c xs) (releaseGroups nfc c ys) := by
  obtain ⟨zs,hx,hy,hz⟩ := exists_pairs (observedReleases_same h)
  have hkeys : ∀z∈zs,groupIdentity nfc z.2=groupIdentity nfc z.1 := by
    intro z hm
    rw [groupIdentity,groupIdentity,(hz z hm).source,(hz z hm).release]
  rw [releaseGroups,releaseGroups,hx,hy,groupBy_map,groupBy_map,groupBy_congr hkeys,sort_map,
    sort_map,forall₂_map_left_iff,forall₂_map_right_iff]
  refine forall₂_same.mpr fun g hg => ⟨rfl,?_⟩
  have hg := (mem_insertionSort _).mp hg
  show List.Forall₂ SameRelease (g.2.map Prod.fst) (g.2.map Prod.snd)
  rw [forall₂_map_left_iff,forall₂_map_right_iff,forall₂_same]
  exact fun z hm => hz z (mem_of_groupBy hg hm)

section
variable {xs ys : List (ObservedRelease × ProductEvidenceResource)}

theorem field_same {V : Type} (h : List.Forall₂ SameRelease xs ys) (field : ObservedRelease → V) :
    List.Forall₂ SameFact (xs.map fun v => (field v.1,v.2)) (ys.map fun v => (field v.1,v.2)) := by
  rw [forall₂_map_left_iff,forall₂_map_right_iff]
  exact h.imp fun a b hab => ⟨congrArg field hab.release,hab.authority⟩

theorem resolveReleaseFact_same {V : Type} [FactValue V] (h : List.Forall₂ SameRelease xs ys)
    {field : ObservedRelease → V} {path : JsString} {r : V × Recorded}
    (hr : resolveReleaseFact nfc c xs field path=.ok r) :
    ∃s,resolveReleaseFact nfc c ys field path=.ok s ∧ s.1=r.1 ∧
      Alike nfc r.2.disagreements s.2.disagreements (FieldKeepsOrder nfc c field xs ys) := by
  obtain ⟨v,hv,hr⟩ := bind_ok hr
  obtain rfl := Except.ok.inj hr
  obtain ⟨w,hw,hvalue,halike⟩ := resolveFact_same (field_same h field) hv
  refine ⟨(w.value,w.recorded path),?_,hvalue,halike⟩
  rw [resolveReleaseFact,hw,ok_bind]
  rfl

theorem tentative_same (h : List.Forall₂ SameRelease xs ys) :
    ys.any (·.1.tentative)=xs.any (·.1.tentative) := by
  induction h with
  | nil => rfl
  | cons hab _ ih => rw [any_cons,any_cons,ih,hab.release]

theorem resolveTentative_same (h : List.Forall₂ SameRelease xs ys) {path : JsString}
    {r : Bool × Recorded} (hr : resolveTentative nfc c xs path=.ok r) :
    ∃s,resolveTentative nfc c ys path=.ok s ∧ s.1=r.1 ∧
      Alike nfc r.2.disagreements s.2.disagreements (FieldKeepsOrder nfc c (·.tentative) xs ys) := by
  rw [resolveTentative] at hr ⊢
  rw [tentative_same h]
  split at hr
  · rename_i hany
    rw [if_pos hany]
    exact resolveReleaseFact_same h hr
  · rename_i hany
    rw [if_neg hany]
    obtain rfl := Except.ok.inj hr
    refine ⟨_,rfl,rfl,.nil,iff_of_true .nil ?_⟩
    -- no release is tentative, so all say the same
    apply keepsOrder_constant (field_same h _) (v := false)
    intro v hv
    obtain ⟨w,hw,rfl⟩ := mem_map.mp hv
    simp only [any_eq_true,not_exists,not_and,Bool.not_eq_true] at hany
    exact hany w hw

theorem resolveRelease_same (h : List.Forall₂ SameRelease xs ys) {id key : JsString} {index : Nat}
    {r : CatalogueRelease × Recorded} (hr : resolveRelease nfc c id ((key,xs),index)=.ok r) :
    ∃s,resolveRelease nfc c id ((key,ys),index)=.ok s ∧ s.1=r.1 ∧
      Alike nfc r.2.disagreements s.2.disagreements (GroupKeepsOrder nfc c xs ys) := by
  cases h with
  | nil => cases hr
  | @cons x y xs ys hxy htail =>
    have h : List.Forall₂ SameRelease (x::xs) (y::ys) := .cons hxy htail
    obtain ⟨region,hregion,hr⟩ := bind_ok hr
    obtain ⟨precision,hprecision,hr⟩ := bind_ok hr
    obtain ⟨value,hvalue,hr⟩ := bind_ok hr
    obtain ⟨status,hstatus,hr⟩ := bind_ok hr
    obtain ⟨tentative,htentative,hr⟩ := bind_ok hr
    obtain rfl := Except.ok.inj hr
    obtain ⟨region',hregion',region_eq,region_alike⟩ := resolveReleaseFact_same h hregion
    obtain ⟨precision',hprecision',precision_eq,precision_alike⟩ :=
      resolveReleaseFact_same h hprecision
    obtain ⟨value',hvalue',value_eq,value_alike⟩ := resolveReleaseFact_same h hvalue
    obtain ⟨status',hstatus',status_eq,status_alike⟩ := resolveReleaseFact_same h hstatus
    obtain ⟨tentative',htentative',tentative_eq,tentative_alike⟩ :=
      resolveTentative_same h htentative
    refine ⟨(⟨releaseIdFor nfc id key,y.1.eventKey,id,region'.1,precision'.1,value'.1,tentative'.1,
      status'.1⟩,region'.2++precision'.2++value'.2++status'.2++tentative'.2),?_,?_,?_⟩
    · rw [resolveRelease]
      dsimp only
      rw [hregion',ok_bind,hprecision',ok_bind,hvalue',ok_bind,hstatus',ok_bind,htentative',ok_bind]
      rfl
    · rw [region_eq,precision_eq,value_eq,status_eq,tentative_eq,hxy.release]
    · have hall := (((region_alike.append precision_alike).append value_alike).append
        status_alike).append tentative_alike
      refine ⟨hall.paths,hall.unchanged.trans ⟨fun k => ?_,fun k => ?_⟩⟩
      · exact ⟨k.1.1.1.1,k.1.1.1.2,k.1.1.2,k.1.2,k.2⟩
      · exact ⟨⟨⟨⟨k.region,k.precision⟩,k.value⟩,k.status⟩,k.tentative⟩

end

def recordedReleases (rs : List (CatalogueRelease × Recorded)) : Recorded :=
  rs.foldr (fun r rest => r.2++rest) ⟨[],[]⟩

theorem resolveReleases_same {gs hs : List (JsString × List (ObservedRelease × ProductEvidenceResource))}
    (h : List.Forall₂ SameGroup gs hs) {id : JsString} (i : Nat)
    {rs : List (CatalogueRelease × Recorded)}
    (hr : (gs.zipIdx i).mapM (resolveRelease nfc c id)=.ok rs) :
    ∃ss,(hs.zipIdx i).mapM (resolveRelease nfc c id)=.ok ss ∧ ss.map Prod.fst=rs.map Prod.fst ∧
      Alike nfc (recordedReleases rs).disagreements (recordedReleases ss).disagreements
        (∀p∈gs.zip hs,GroupKeepsOrder nfc c p.1.2 p.2.2) := by
  induction h generalizing i rs with
  | nil =>
    obtain rfl := Except.ok.inj hr
    refine ⟨[],rfl,rfl,.nil,iff_of_true .nil fun p hp => by cases hp⟩
  | @cons g g' gs hs hg _ ih =>
    rw [zipIdx_cons,mapM_cons] at hr
    obtain ⟨r,hfirst,hr⟩ := bind_ok hr
    obtain ⟨rest,hrest,hr⟩ := bind_ok hr
    obtain rfl := Except.ok.inj hr
    obtain ⟨key,xs⟩ := g
    obtain ⟨key',ys⟩ := g'
    obtain rfl : key'=key := hg.key
    obtain ⟨s,hs,hrelease,halike⟩ := resolveRelease_same hg.releases hfirst
    obtain ⟨ss,hss,hreleases,halikes⟩ := ih (i+1) hrest
    refine ⟨s::ss,?_,?_,?_⟩
    · rw [zipIdx_cons,mapM_cons,hs,ok_bind,hss]
      rfl
    · rw [map_cons,map_cons,hrelease,hreleases]
    · have hall := halike.append halikes
      refine ⟨hall.paths,hall.unchanged.trans ?_⟩
      rw [zip_cons_cons,forall_mem_cons]

theorem plainText_append (x y : JsString) : plainText (x++y)=(plainText x && plainText y) :=
  all_append

theorem plainText_padded {w k : Nat} (h : k < 10^w) : plainText (padded w k)=true := by
  induction w generalizing k with
  | zero => rfl
  | succ w ih =>
    have hp : 0 < 10^w := Nat.pos_of_ne_zero (by positivity)
    have hd : k/10^w < 10 := Nat.div_lt_of_lt_mul (by rwa [pow_succ] at h)
    rw [padded,plainText,all_cons]
    refine Bool.and_eq_true_iff.mpr ⟨decide_eq_true ?_,ih (Nat.mod_lt k hp)⟩
    generalize k/10^w=digit at hd
    rw [UInt16.toNat_ofNat',Nat.mod_eq_of_lt (by omega)]
    omega

theorem plainText_iso (t : DateTime) : plainText t.iso=true := by
  have hcons : ∀(u : UInt16) (x : JsString),35 ≤ u.toNat ∧ u.toNat < 92 → plainText x=true →
      plainText (u::x)=true := by
    intro u x hu hx
    rw [plainText,all_cons]
    exact Bool.and_eq_true_iff.mpr ⟨decide_eq_true hu,hx⟩
  have happ : ∀{w k : Nat} {x : JsString},k < 10^w → plainText x=true →
      plainText (padded w k++x)=true := by
    intro w k x hk hx
    rw [plainText_append,plainText_padded hk,hx]
    rfl
  rw [DateTime.iso]
  refine happ t.year_lt (hcons _ _ (by decide) ?_)
  refine happ t.month_lt (hcons _ _ (by decide) ?_)
  refine happ t.day_lt (hcons _ _ (by decide) ?_)
  refine happ t.hour_lt (hcons _ _ (by decide) ?_)
  refine happ t.minute_lt (hcons _ _ (by decide) ?_)
  refine happ t.second_lt (hcons _ _ (by decide) ?_)
  exact happ t.millisecond_lt (by decide)

variable (nfc) in
theorem captureText_eq (e : ProductEvidenceResource) : ∃x,
    captureText nfc e=91::34::(e.captured_at.iso++34::x) := by
  have hi : (Json.arr [.str e.captured_at.iso,.str e.id]).Integral :=
    (all_arr _).mpr fun v hv => by
      rcases mem_cons.mp hv with rfl | hv
      · trivial
      · rw [mem_singleton.mp hv]
        trivial
  refine ⟨44::(quote (nfc.normalize e.id)++[93]),?_⟩
  rw [captureText,canonicalText,canonicalJson,canonicalJsonAt_eq nfc hi,canonical_arr]
  show 91::(quote (nfc.normalize e.captured_at.iso)++44::quote (nfc.normalize e.id)++[93])=_
  rw [nfc.ascii _ (plainText_ascii (plainText_iso _)),quote_plain (plainText_iso _)]
  simp

variable (nfc c) in
theorem later_text (h : e.captured_at.rank < f.captured_at.rank) :
    c.compare (captureText nfc e) (captureText nfc f) < 0 := by
  obtain ⟨x,hx⟩ := captureText_eq nfc e
  obtain ⟨y,hy⟩ := captureText_eq nfc f
  rw [hx,hy]
  exact c.times _ _ x y h

theorem getLast?_filter {α : Type} {p : α → Bool} {l : List α} {z : α} (hz : l.getLast?=some z)
    (hp : p z=true) : (l.filter p).getLast?=some z := by
  obtain ⟨m,rfl⟩ := List.getLast?_eq_some_iff.mp hz
  rw [filter_append,filter_cons,if_pos hp]
  exact List.getLast?_concat

theorem sortedWithdrawals_last (observations : List ProductSourceObservation) :
    (sortedWithdrawals nfc c observations).getLast?.bind (·.withdrawal)=
      greatestWithdrawal nfc c observations := by
  rw [greatestWithdrawal,latestWithdrawals,Collation.sort,insertionSort_filter,sortedWithdrawals,
    Collation.sort]
  generalize hws : observations.filter (·.withdrawal.isSome)=ws
  congr 1
  cases hl : (ws.insertionSort fun a b => c.compare (captureText nfc a.evidence)
      (captureText nfc b.evidence) ≤ 0).getLast? with
  | none =>
    rw [List.getLast?_eq_none_iff.mp hl]
    rfl
  | some z =>
    refine (getLast?_filter hl (all_eq_true.mpr fun p hp => decide_eq_true ?_)).symm
    by_contra hlt
    have hsorted := pairwise_insertionSort (fun a b : ProductSourceObservation =>
      c.compare (captureText nfc a.evidence) (captureText nfc b.evidence) ≤ 0) ws
    have hmem := (mem_insertionSort (fun a b : ProductSourceObservation =>
      c.compare (captureText nfc a.evidence) (captureText nfc b.evidence) ≤ 0)).mpr hp
    obtain ⟨m,hm⟩ := List.getLast?_eq_some_iff.mp hl
    rw [hm] at hsorted hmem
    have hlater := later_text nfc c (Nat.lt_of_not_le hlt)
    rcases mem_append.mp hmem with hmem | hmem
    · have hle := (pairwise_append.mp hsorted).2.2 p hmem z (mem_singleton_self z)
      have := (c.swap _ _).mp hle
      omega
    · rw [mem_singleton.mp hmem] at hlt
      exact hlt (le_refl _)

theorem integral_obj {ms : List (JsString × Json)} (h : ∀m∈ms,m.2.Integral) :
    (Json.obj ms).Integral := (all_obj ms).mpr ⟨trivial,h⟩

theorem withdrawal_integral (w : Option ProductWithdrawal) :
    (optional ProductWithdrawal.semantic w).Integral := by
  cases w with
  | none => trivial
  | some w =>
    apply integral_obj
    simp only [forall_mem_cons]
    exact ⟨trivial,trivial,trivial,nofun⟩

theorem release_integral (r : CatalogueRelease) : r.json.Integral := by
  apply integral_obj
  simp only [forall_mem_cons]
  refine ⟨trivial,trivial,trivial,FactValue.integral r.region,integral_obj ?_,
    FactValue.integral r.status,nofun⟩
  rw [forall_mem_append]
  refine ⟨?_,?_⟩
  · simp only [forall_mem_cons]
    exact ⟨FactValue.integral r.precision,FactValue.integral r.value,nofun⟩
  · split
    · simp only [forall_mem_cons]
      exact ⟨trivial,nofun⟩
    · exact nofun

theorem disagreement_integral (d : ProductDisagreement) : d.semantic.Integral := by
  apply integral_obj
  simp only [forall_mem_cons]
  refine ⟨trivial,?_,(all_arr _).mpr fun v hv => ?_,nofun⟩
  · cases d.status
    · trivial
    · trivial
  · obtain ⟨candidate,_,rfl⟩ := mem_map.mp hv
    apply integral_obj
    simp only [forall_mem_cons]
    exact ⟨candidate.integral,nofun⟩

theorem semantic_integral (p : CatalogueProduct) : p.semantic.Integral := by
  apply integral_obj
  simp only [forall_mem_cons]
  refine ⟨integral_obj ?_,trivial,trivial,FactValue.integral p.official_code,trivial,
    (all_arr _).mpr fun v hv => ?_,withdrawal_integral p.withdrawal,(all_arr _).mpr fun v hv => ?_,
    nofun⟩
  · simp only [forall_mem_cons]
    refine ⟨?_,trivial,nofun⟩
    cases p.reference.kind
    · trivial
    · trivial
  · obtain ⟨r,_,rfl⟩ := mem_map.mp hv
    exact release_integral r
  · obtain ⟨d,_,rfl⟩ := mem_map.mp hv
    exact disagreement_integral d

/-- The two products agree on everything that no id can reach. -/
structure SameProduct (p q : CatalogueProduct) : Prop where
  reference : q.reference=p.reference
  id : q.id=p.id
  game : q.game=p.game
  official_code : q.official_code=p.official_code
  name : q.name=p.name
  releases : q.releases=p.releases

theorem semantic_iff {p q : CatalogueProduct} (h : SameProduct p q) : canonicalJson nfc
    p.semantic=canonicalJson nfc q.semantic ↔ List.Forall₂ (Unchanged nfc) p.disagreements
    q.disagreements ∧ canonicalJson nfc (optional ProductWithdrawal.semantic p.withdrawal)=
    canonicalJson nfc (optional ProductWithdrawal.semantic q.withdrawal) := by
  rw [canonicalJson_eq_iff nfc (semantic_integral p) (semantic_integral q),
    canonicalJson_eq_iff nfc (withdrawal_integral _) (withdrawal_integral _)]
  have hdisagreements : (Json.arr (p.disagreements.map ProductDisagreement.semantic)).canonical nfc=
      (Json.arr (q.disagreements.map ProductDisagreement.semantic)).canonical nfc ↔
        List.Forall₂ (Unchanged nfc) p.disagreements q.disagreements := by
    rw [canonical_arr,canonical_arr,Json.arr.injEq,map_map,map_map,
      ←forall₂_eq_eq_eq,forall₂_map_left_iff,forall₂_map_right_iff]
    rfl
  rw [←hdisagreements]
  have hkeys : [js "reference".toList,js "id".toList,js "game".toList,js "official_code".toList,
      js "name".toList,js "releases".toList,js "withdrawal".toList,
      js "disagreements".toList].Nodup := by decide
  constructor
  · intro he
    constructor
    · exact canonical_member nfc he
        (.tail _ (.tail _ (.tail _ (.tail _ (.tail _ (.tail _ (.tail _ (.head _))))))))
        (.tail _ (.tail _ (.tail _ (.tail _ (.tail _ (.tail _ (.tail _ (.head _)))))))) rfl hkeys
    · exact canonical_member nfc he
        (.tail _ (.tail _ (.tail _ (.tail _ (.tail _ (.tail _ (.head _)))))))
        (.tail _ (.tail _ (.tail _ (.tail _ (.tail _ (.tail _ (.head _))))))) rfl hkeys
  · rintro ⟨hd,hw⟩
    apply canonical_obj_congr
    refine .cons ⟨rfl,by rw [h.reference]⟩ (.cons ⟨rfl,by rw [h.id]⟩ (.cons ⟨rfl,by rw [h.game]⟩
      (.cons ⟨rfl,by rw [h.official_code]⟩ (.cons ⟨rfl,by rw [h.name]⟩
      (.cons ⟨rfl,by rw [h.releases]⟩ (.cons ⟨rfl,hw⟩ (.cons ⟨rfl,hd⟩ .nil)))))))

theorem factsKeepOrder_iff {xs ys : List ProductSourceObservation} : FactsKeepOrder nfc c xs ys ↔
    (KeepsOrder nfc c (officialCodeFacts xs) (officialCodeFacts ys) ∧
      KeepsOrder nfc c (xs.map fun o => (o.name,o.evidence)) (ys.map fun o => (o.name,o.evidence))) ∧
      ∀p∈(releaseGroups nfc c xs).zip (releaseGroups nfc c ys),GroupKeepsOrder nfc c p.1.2 p.2.2 :=
  ⟨fun h => ⟨⟨h.official_code,h.name⟩,h.releases⟩,fun h => ⟨h.1.1,h.1.2,h.2⟩⟩

/-- Observing the same facts again leaves the projection of the product as it was exactly when the
new ids sort the stated values, and the last withdrawals, as the old ones did. -/
theorem reobserved_unchanged {xs ys : List ProductSourceObservation} (h : Reobserved xs ys)
    {game : JsString} {p : CatalogueProduct} (hp : resolveProduct nfc c xs game=.ok p) :
    ∃q,resolveProduct nfc c ys game=.ok q ∧
      (canonicalJson nfc p.semantic=canonicalJson nfc q.semantic ↔
        FactsKeepOrder nfc c xs ys ∧ WithdrawalKept nfc c xs ys) := by
  obtain ⟨⟨n,h⟩,_⟩ := h
  cases h with
  | nil => cases hp
  | @cons x y xs ys hxy htail =>
    have h : List.Forall₂ n.Reobserves (x::xs) (y::ys) := .cons hxy htail
    obtain ⟨code,hcode,hp⟩ := bind_ok hp
    obtain ⟨name,hname,hp⟩ := bind_ok hp
    obtain ⟨releases,hreleases,hp⟩ := bind_ok hp
    obtain rfl := Except.ok.inj hp
    obtain ⟨code',hcode',code_eq,code_alike⟩ := resolveFact_same (officialCodes_same h) hcode
    obtain ⟨name',hname',name_eq,name_alike⟩ := resolveFact_same (names_same h) hname
    obtain ⟨releases',hreleases',releases_eq,releases_alike⟩ :=
      resolveReleases_same (releaseGroups_same h) 0 hreleases
    have hall := ((code_alike.append name_alike).append releases_alike).sort (c := c)
    refine ⟨?q,?run,?same⟩
    case run =>
      rw [resolveProduct,hcode',ok_bind,hname',ok_bind,hxy.id,hreleases',ok_bind]
      rfl
    case same =>
      rw [semantic_iff,factsKeepOrder_iff,WithdrawalKept,←sortedWithdrawals_last,
        ←sortedWithdrawals_last]
      · exact and_congr hall.unchanged Iff.rfl
      · exact ⟨by simp only [code_eq,hxy.reference],rfl,rfl,code_eq,name_eq,releases_eq⟩

theorem compareUnits_times {s t : DateTime} (x y : JsString) (h : s.rank < t.rank) :
    compareUnits (91::34::(s.iso++34::x)) (91::34::(t.iso++34::y)) < 0 := by
  obtain ⟨y1,m,d,h1,i,s,n,hy,hm,hd,hh,hi,hs,hn⟩ := s
  obtain ⟨y',m',d',h',i',s',n',hy',hm',hd',hh',hi',hs',hn'⟩ := t
  simp only [DateTime.rank] at h
  rw [compareUnits_cons,compareUnits_cons,DateTime.iso,DateTime.iso]
  simp only [append_assoc,cons_append,nil_append]
  rw [padded_before (w := 4) hy hy',compareUnits_cons,padded_before (w := 2) hm hm',
    compareUnits_cons,padded_before (w := 2) hd hd',compareUnits_cons,
    padded_before (w := 2) hh hh',compareUnits_cons,padded_before (w := 2) hi hi',
    compareUnits_cons,padded_before (w := 2) hs hs',compareUnits_cons,
    padded_before (w := 3) hn hn']
  omega

def codeUnits : Collation where
  compare := compareUnits
  swap a b := by
    rw [compareUnits_swap a b]
    omega
  trans _ _ _ := compareUnits_trans
  times _ _ := compareUnits_times

def noon : DateTime := ⟨2026,3,1,12,0,0,0,by decide,by decide,by decide,by decide,by decide,
  by decide,by decide⟩

def stated (name id : List Char) (authority : ProductAuthorityClass) : ProductSourceObservation where
  reference := ⟨.official_code,js ['O','P','1']⟩
  id := js ['p']
  officialCode := some (js ['O','P','1'])
  name := js name
  releases := []
  withdrawal := none
  evidence := ⟨js id,noon,js ['s'],none,none,some authority⟩
  carriedOfficialCode := none

/-- The detail page and the listing name a product differently. -/
def firstRun : List ProductSourceObservation :=
  [stated ['R','o','m','a','n','c','e'] ['a'] .product_detail,stated ['R','D'] ['b'] .product_listing]

def secondRun : List ProductSourceObservation :=
  [stated ['R','o','m','a','n','c','e'] ['b'] .product_detail,stated ['R','D'] ['a'] .product_listing]

/-- The ids of the two observations exchanged. -/
def exchange : Renaming where
  observation := Equiv.swap (js ['a']) (js ['b'])
  snapshot := id
  set := id
  observation_inj := Equiv.injective _
  snapshot_inj := Function.injective_id
  set_inj := Function.injective_id

theorem runs_reobserved : Reobserved firstRun secondRun where
  renamed := by
    refine ⟨exchange,.cons ⟨rfl,rfl,rfl,rfl,rfl,rfl,?_,.none⟩
      (.cons ⟨rfl,rfl,rfl,rfl,rfl,rfl,?_,.none⟩ .nil)⟩
    · rw [Renaming.Evidence]
      decide +kernel
    · rw [Renaming.Evidence]
      decide +kernel
  ordered := by decide

/-- What is published of a run. -/
def published (run : List ProductSourceObservation) : Except JsString (Except JsString JsString) :=
  (resolveProduct acute codeUnits run (js "one-piece".toList)).map fun p =>
    canonicalJson acute p.semantic

/-- Only the ids are new, and the two names change places. -/
theorem fresh_ids_reorder : ¬∀xs ys,Reobserved xs ys → ∀game p, resolveProduct acute codeUnits xs
    game=.ok p → ∃q,resolveProduct acute codeUnits ys game=.ok q ∧ canonicalJson acute
    p.semantic=canonicalJson acute q.semantic := by
  intro h
  have hok : (published firstRun).isOk=true := by decide +kernel
  have hne : published firstRun≠published secondRun := by decide +kernel
  apply hne
  rw [published] at hok ⊢
  rw [published]
  cases hp : resolveProduct acute codeUnits firstRun (js "one-piece".toList) with
  | error e =>
    rw [hp] at hok
    cases hok
  | ok p =>
    obtain ⟨q,hq,he⟩ := h _ _ runs_reobserved _ p hp
    rw [hq]
    exact congrArg Except.ok he

/-- The rule applied to the two runs: what they publish differs, as the ids do not keep order. -/
theorem fresh_ids_case : ∃p q,
    resolveProduct acute codeUnits firstRun (js "one-piece".toList)=.ok p ∧
    resolveProduct acute codeUnits secondRun (js "one-piece".toList)=.ok q ∧
    (canonicalJson acute p.semantic=canonicalJson acute q.semantic ↔
      FactsKeepOrder acute codeUnits firstRun secondRun ∧
        WithdrawalKept acute codeUnits firstRun secondRun) := by
  have hok : (published firstRun).isOk=true := by decide +kernel
  rw [published] at hok
  cases hp : resolveProduct acute codeUnits firstRun (js "one-piece".toList) with
  | error e =>
    rw [hp] at hok
    cases hok
  | ok p =>
    obtain ⟨q,hq,hiff⟩ := reobserved_unchanged runs_reobserved hp
    exact ⟨p,q,rfl,hq,hiff⟩

end CardKeepr.Reconciliation.Product
