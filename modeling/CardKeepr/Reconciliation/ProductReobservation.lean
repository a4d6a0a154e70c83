import CardKeepr.Reconciliation.ProductResolution

namespace CardKeepr.Reconciliation.Product

open Lib Shared List

/-- New ids for the source observations, their sets and their snapshots. -/
structure Renaming where
  observation : JsString → JsString
  snapshot : JsString → JsString
  set : JsString → JsString
  observation_inj : Function.Injective observation
  snapshot_inj : Function.Injective snapshot
  set_inj : Function.Injective set

def Renaming.withdrawal (n : Renaming) (w : ProductWithdrawal) : ProductWithdrawal :=
  { w with
    source_snapshot_id := n.snapshot w.source_snapshot_id
    source_observation_set_id := n.set w.source_observation_set_id
    source_observation_id := n.observation w.source_observation_id }

def Renaming.Evidence (n : Renaming) (e f : ProductEvidenceResource) : Prop :=
  { f with captured_at := e.captured_at }={ e with id := n.observation e.id }

/-- The second observation states what the first does. -/
structure Renaming.Reobserves (n : Renaming) (x y : ProductSourceObservation) : Prop where
  reference : y.reference=x.reference
  id : y.id=x.id
  officialCode : y.officialCode=x.officialCode
  name : y.name=x.name
  releases : y.releases=x.releases
  withdrawal : y.withdrawal=x.withdrawal.map n.withdrawal
  evidence : n.Evidence x.evidence y.evidence
  carried : Option.Rel (fun a b => b.value=a.value ∧ List.Forall₂ n.Evidence a.evidence b.evidence)
    x.carriedOfficialCode y.carriedOfficialCode

def captures (observations : List ProductSourceObservation) : List ProductEvidenceResource :=
  observations.flatMap fun o => o.evidence::(o.carriedOfficialCode.map (·.evidence)).getD []

/-- The same facts under new ids, captured in the same order. -/
structure Reobserved (xs ys : List ProductSourceObservation) : Prop where
  renamed : ∃n : Renaming,List.Forall₂ n.Reobserves xs ys
  ordered : ∀p∈(captures xs).zip (captures ys),∀q∈(captures xs).zip (captures ys),
    (p.1.captured_at.rank < q.1.captured_at.rank ↔ p.2.captured_at.rank < q.2.captured_at.rank)

section
variable (nfc : Nfc) (c : Collation)

/-- Of any two values stated for a fact, the one whose last observation has the lower id is the
same in both lists. -/
def KeepsOrder {V : Type} [FactValue V] (xs ys : List (V × ProductEvidenceResource)) : Prop :=
  ((distinctValues nfc xs).zip (distinctValues nfc ys)).Pairwise fun p q =>
    (c.compare p.1.2.observation_id q.1.2.observation_id ≤ 0 ↔
      c.compare p.2.2.observation_id q.2.2.observation_id ≤ 0)

def FieldKeepsOrder {V : Type} [FactValue V] (field : ObservedRelease → V)
    (xs ys : List (ObservedRelease × ProductEvidenceResource)) : Prop :=
  KeepsOrder nfc c (xs.map fun v => (field v.1,v.2)) (ys.map fun v => (field v.1,v.2))

structure GroupKeepsOrder (xs ys : List (ObservedRelease × ProductEvidenceResource)) : Prop where
  region : FieldKeepsOrder nfc c (·.region) xs ys
  precision : FieldKeepsOrder nfc c (·.precision) xs ys
  value : FieldKeepsOrder nfc c (·.value) xs ys
  status : FieldKeepsOrder nfc c (·.status) xs ys
  tentative : FieldKeepsOrder nfc c (·.tentative) xs ys

structure FactsKeepOrder (xs ys : List ProductSourceObservation) : Prop where
  official_code : KeepsOrder nfc c (officialCodeFacts xs) (officialCodeFacts ys)
  name : KeepsOrder nfc c (xs.map fun o => (o.name,o.evidence)) (ys.map fun o => (o.name,o.evidence))
  releases : ∀p∈(releaseGroups nfc c xs).zip (releaseGroups nfc c ys),
    GroupKeepsOrder nfc c p.1.2 p.2.2

/-- The withdrawals that were captured last. -/
def latestWithdrawals (observations : List ProductSourceObservation) :
    List ProductSourceObservation :=
  (observations.filter (·.withdrawal.isSome)).filter fun o =>
    (observations.filter (·.withdrawal.isSome)).all fun p =>
      decide (p.evidence.captured_at.rank ≤ o.evidence.captured_at.rank)

/-- Of the withdrawals captured last, the one with the greatest id. -/
def greatestWithdrawal (observations : List ProductSourceObservation) :
    Option ProductWithdrawal :=
  (c.sort (fun o => captureText nfc o.evidence) (latestWithdrawals observations)).getLast?.bind
    (·.withdrawal)

/-- The withdrawal of the greatest id states the same facts in both lists. -/
def WithdrawalKept (xs ys : List ProductSourceObservation) : Prop :=
  canonicalJson nfc (optional ProductWithdrawal.semantic (greatestWithdrawal nfc c xs))=
    canonicalJson nfc (optional ProductWithdrawal.semantic (greatestWithdrawal nfc c ys))

end

instance (c : Collation) {α : Type} (key : α → JsString) :
    Std.Total fun a b : α => c.compare (key a) (key b) ≤ 0 where
  total a b := by
    rcases le_or_gt (c.compare (key a) (key b)) 0 with h | h
    · exact .inl h
    · exact .inr ((c.swap _ _).mpr (le_of_lt h))

instance (c : Collation) {α : Type} (key : α → JsString) :
    IsTrans α fun a b : α => c.compare (key a) (key b) ≤ 0 where
  trans _ _ _ := c.trans _ _ _

section
variable {nfc : Nfc} {c : Collation}

theorem sort_map {α β : Type} (key : β → JsString) (f : α → β) (as : List α) :
    c.sort key (as.map f)=(c.sort (fun a => key (f a)) as).map f := by
  rw [Collation.sort,Collation.sort]
  exact (map_insertionSort _ _ f as fun _ _ _ _ => Iff.rfl).symm

theorem exists_pairs {α β : Type} {R : α → β → Prop} {xs : List α} {ys : List β}
    (h : List.Forall₂ R xs ys) :
    ∃zs : List (α × β),xs=zs.map Prod.fst ∧ ys=zs.map Prod.snd ∧ ∀z∈zs,R z.1 z.2 := by
  refine ⟨xs.zip ys,?_,?_,fun z hz => forall₂_zip h hz⟩
  · exact (map_fst_zip (le_of_eq h.length_eq)).symm
  · exact (map_snd_zip (le_of_eq h.length_eq.symm)).symm

def Unchanged (nfc : Nfc) (d e : ProductDisagreement) : Prop :=
  d.semantic.canonical nfc=e.semantic.canonical nfc

/-- Disagreements at the same paths; `K` says when their projections are the same. -/
structure Alike (nfc : Nfc) (ds es : List ProductDisagreement) (K : Prop) : Prop where
  paths : List.Forall₂ (fun d e => e.path=d.path) ds es
  unchanged : List.Forall₂ (Unchanged nfc) ds es ↔ K

theorem Alike.nil : Alike nfc [] [] True := ⟨.nil,iff_of_true .nil trivial⟩

theorem Alike.append {ds es ds' es' : List ProductDisagreement} {K L : Prop} (h : Alike nfc ds es K)
    (k : Alike nfc ds' es' L) : Alike nfc (ds++ds') (es++es') (K ∧ L) := by
  obtain ⟨hp,hu⟩ := h
  refine ⟨rel_append hp k.paths,?_⟩
  rw [←hu,←k.unchanged]
  clear hu
  induction hp with
  | nil => simp
  | cons _ _ ih => simp [ih,and_assoc]

theorem Alike.sort {ds es : List ProductDisagreement} {K : Prop} (h : Alike nfc ds es K) :
    Alike nfc (c.sort (·.path) ds) (c.sort (·.path) es) K := by
  obtain ⟨hp,hu⟩ := h
  obtain ⟨zs,rfl,rfl,hz⟩ := exists_pairs hp
  have hkey : c.sort (fun z : ProductDisagreement × ProductDisagreement => z.2.path) zs=
      c.sort (fun z => z.1.path) zs := by
    apply insertionSort_congr
    apply pairwise_iff_forall_sublist.mpr
    intro a b hab
    have ha := hz a (hab.subset (by simp))
    have hb := hz b (hab.subset (by simp))
    simp only [ha,hb]
  have hmem : ∀z,z∈c.sort (fun z => z.1.path) zs ↔ z∈zs := fun z => mem_insertionSort _
  rw [sort_map,sort_map,hkey]
  constructor
  · rw [forall₂_map_left_iff,forall₂_map_right_iff,forall₂_same]
    exact fun z h => hz z ((hmem z).mp h)
  · rw [←hu]
    simp only [forall₂_map_left_iff,forall₂_map_right_iff,forall₂_same,hmem]

theorem single_canonical (k : JsString) (v : Json) :
    (Json.obj [(k,v)]).canonical nfc=.obj [(nfc.normalize k,v.canonical nfc)] := by
  rw [canonical_obj]
  rfl

theorem unchanged_iff {d e : ProductDisagreement} (hp : e.path=d.path) (hs : e.status=d.status) :
    Unchanged nfc d e ↔ d.candidates.map (fun v => v.value.canonical nfc)=
      e.candidates.map fun v => v.value.canonical nfc := by
  have hvalues : ∀l : List FactCandidate,
      (Json.arr (l.map fun v => .obj [(js "value".toList,v.value)])).canonical nfc=
        .arr ((l.map fun v => v.value.canonical nfc).map fun v =>
          .obj [(nfc.normalize (js "value".toList),v)]) := by
    intro l
    rw [canonical_arr,map_map,map_map]
    exact congrArg Json.arr (map_congr_left fun v _ => single_canonical _ v.value)
  constructor
  · intro h
    have hkeys : [js "path".toList,js "status".toList,js "candidates".toList].Nodup := by decide
    have h := canonical_member nfc h (.tail _ (.tail _ (.head _))) (.tail _ (.tail _ (.head _))) rfl
      hkeys
    rw [hvalues,hvalues] at h
    injection h with h
    exact map_inj_mem (fun a _ b _ hab => by simpa using hab) h
  · intro h
    apply canonical_obj_congr
    refine .cons ⟨rfl,by rw [hp]⟩ (.cons ⟨rfl,by rw [hs]⟩ (.cons ⟨rfl,?_⟩ .nil))
    rw [hvalues,hvalues,h]

/-- Two observations of one fact by evidence of one authority. -/
structure Restated {V : Type} (z : (V × ProductEvidenceResource) × V × ProductEvidenceResource) :
    Prop where
  value : z.2.1=z.1.1
  authority : z.2.2.authority=z.1.2.authority

section
variable {V : Type} {zs : List ((V × ProductEvidenceResource) × V × ProductEvidenceResource)}

theorem authoritative_before : authoritative (zs.map Prod.fst)=
    (zs.filter fun z => some z.1.2.authority=(zs.map (·.1.2.authority)).min?).map Prod.fst := by
  rw [authoritative,filter_map,map_map]
  rfl

theorem authoritative_after (h : ∀z∈zs,Restated z) : authoritative (zs.map Prod.snd)=
    (zs.filter fun z => some z.1.2.authority=(zs.map (·.1.2.authority)).min?).map Prod.snd := by
  have hmin : zs.map ((fun o : V × ProductEvidenceResource => o.2.authority) ∘ Prod.snd)=
      zs.map (·.1.2.authority) := map_congr_left fun z hz => (h z hz).authority
  rw [authoritative,filter_map,map_map,hmin]
  congr 1
  apply filter_congr
  intro z hz
  simp only [Function.comp_apply,(h z hz).authority]

end

/-- The statement of the first, and of the second list. -/
def before {V : Type} [FactValue V]
    (z : (V × ProductEvidenceResource) × V × ProductEvidenceResource) : FactCandidate :=
  ⟨FactValue.json z.1.1,FactValue.integral z.1.1,z.1.2.id⟩

def after {V : Type} [FactValue V]
    (z : (V × ProductEvidenceResource) × V × ProductEvidenceResource) : FactCandidate :=
  ⟨FactValue.json z.1.1,FactValue.integral z.1.1,z.2.2.id⟩

section
variable {V : Type} [FactValue V]
  {zs : List ((V × ProductEvidenceResource) × V × ProductEvidenceResource)}

/-- The distinct values, with the last statement of each in both lists. -/
def distinctPairs (nfc : Nfc)
    (zs : List ((V × ProductEvidenceResource) × V × ProductEvidenceResource)) :
    List (JsString × (V × ProductEvidenceResource) × V × ProductEvidenceResource) :=
  mapOf (zs.map fun z => (factKey nfc z.1.1,z))

theorem distinct_before : distinctValues nfc (zs.map Prod.fst)=
    (distinctPairs nfc zs).map (Prod.map id before) := by
  rw [distinctValues,distinctPairs,←mapOf_map,map_map,map_map]
  rfl

theorem distinct_after (h : ∀z∈zs,Restated z) : distinctValues nfc (zs.map Prod.snd)=
    (distinctPairs nfc zs).map (Prod.map id after) := by
  rw [distinctValues,distinctPairs,←mapOf_map,map_map,map_map]
  congr 1
  apply map_congr_left
  intro z hz
  simp only [Function.comp_apply,Prod.map_apply,id_eq,after,(h z hz).value]

theorem distinctPairs_inj {p q : JsString × (V × ProductEvidenceResource) × V × ProductEvidenceResource}
    (hp : p∈distinctPairs nfc zs) (hq : q∈distinctPairs nfc zs)
    (h : (FactValue.json p.2.1.1).canonical nfc=(FactValue.json q.2.1.1).canonical nfc) : p=q := by
  have hkey : ∀r∈distinctPairs nfc zs,r.1=factKey nfc r.2.1.1 := by
    intro r hr
    obtain ⟨z,_,rfl⟩ := mem_map.mp (mem_of_mapOf hr)
    rfl
  have htext : factKey nfc p.2.1.1=factKey nfc q.2.1.1 := by
    rw [factKey,factKey,canonicalText,canonicalText,(canonicalJson_eq_iff nfc
      (FactValue.integral p.2.1.1) (FactValue.integral q.2.1.1)).mpr h]
  apply inj_on_of_nodup_map (mapOf_nodup _) hp hq
  rw [hkey p hp,hkey q hq,htext]

theorem keepsOrder_iff (h : ∀z∈zs,Restated z) : KeepsOrder nfc c (zs.map Prod.fst)
    (zs.map Prod.snd) ↔ (distinctPairs nfc zs).Pairwise fun p q =>
    (c.compare p.2.1.2.id q.2.1.2.id ≤ 0 ↔ c.compare p.2.2.2.id q.2.2.2.id ≤ 0) := by
  rw [KeepsOrder,distinct_before,distinct_after h,zip_map',pairwise_map]
  rfl

variable (nfc c) in
theorem candidates_iff (h : ∀z∈zs,Restated z) :
    (c.sort (·.observation_id) ((distinctValues nfc (zs.map Prod.fst)).map Prod.snd)).map
    (fun v => v.value.canonical nfc)=
    (c.sort (·.observation_id) ((distinctValues nfc (zs.map Prod.snd)).map Prod.snd)).map
    (fun v => v.value.canonical nfc) ↔ KeepsOrder nfc c (zs.map Prod.fst) (zs.map Prod.snd) := by
  rw [keepsOrder_iff h,distinct_before,distinct_after h,map_map,map_map,sort_map,sort_map,
    map_map,map_map]
  show (List.insertionSort (fun p q => c.compare p.2.1.2.id q.2.1.2.id ≤ 0) (distinctPairs nfc zs)).map
      (fun p => (FactValue.json p.2.1.1).canonical nfc)=
    (List.insertionSort (fun p q => c.compare p.2.2.2.id q.2.2.2.id ≤ 0) (distinctPairs nfc zs)).map
      (fun p => (FactValue.json p.2.1.1).canonical nfc) ↔ _
  rw [←insertionSort_eq_iff]
  constructor
  · exact map_inj_mem fun p hp q hq => distinctPairs_inj ((mem_insertionSort _).mp hp)
      ((mem_insertionSort _).mp hq)
  · intro he
    rw [he]

/-- A fact is resolved alike from both lists, up to the order of its candidates. -/
theorem resolveFact_restated (h : ∀z∈zs,Restated z) {path : JsString} {r : Resolved V}
    (hr : resolveFact nfc c (zs.map Prod.fst) path=.ok r) : ∃s,resolveFact nfc c (zs.map Prod.snd)
    path=.ok s ∧ s.value=r.value ∧ Alike nfc r.disagreement.toList s.disagreement.toList
    (KeepsOrder nfc c (zs.map Prod.fst) (zs.map Prod.snd)) := by
  have hcandidates := candidates_iff nfc c h
  have hlength : (distinctValues nfc (zs.map Prod.snd)).length=
      (distinctValues nfc (zs.map Prod.fst)).length := by
    rw [distinct_before,distinct_after h,length_map,length_map]
  simp only [resolveFact] at hr ⊢
  rw [hlength]
  split at hr
  · rename_i hone
    rw [if_pos hone]
    cases zs with
    | nil => cases hr
    | cons z zs =>
      obtain rfl := Except.ok.inj hr
      refine ⟨_,rfl,(h z mem_cons_self).value,.nil,iff_of_true .nil ?_⟩
      rw [keepsOrder_iff h]
      rw [distinct_before,length_map] at hone
      obtain ⟨p,hp⟩ := length_eq_one_iff.mp hone
      rw [hp]
      exact pairwise_singleton _ _
  · rename_i hmany
    rw [if_neg hmany]
    rw [authoritative_before] at hr
    rw [authoritative_after h]
    generalize hbest : zs.filter (fun z => some z.1.2.authority=(zs.map (·.1.2.authority)).min?)=best
      at hr ⊢
    have hb : ∀z∈best,Restated z := fun z hz => h z (mem_of_mem_filter (hbest ▸ hz))
    have hkeys : (mapOf ((best.map Prod.snd).map fun o => (factKey nfc o.1,o))).length=
        (mapOf ((best.map Prod.fst).map fun o => (factKey nfc o.1,o))).length := by
      have hfst : mapOf ((best.map Prod.fst).map fun o => (factKey nfc o.1,o))=
          (mapOf (best.map fun z => (factKey nfc z.1.1,z))).map (Prod.map id Prod.fst) := by
        rw [←mapOf_map,map_map,map_map]
        rfl
      have hsnd : mapOf ((best.map Prod.snd).map fun o => (factKey nfc o.1,o))=
          (mapOf (best.map fun z => (factKey nfc z.1.1,z))).map (Prod.map id Prod.snd) := by
        rw [←mapOf_map,map_map,map_map]
        congr 1
        apply map_congr_left
        intro z hz
        simp only [Function.comp_apply,Prod.map_apply,id_eq,(hb z hz).value]
      rw [hfst,hsnd,length_map,length_map]
    rw [hkeys]
    split at hr
    · cases hr
    · rename_i hone
      rw [if_neg hone]
      cases best with
      | nil => cases hr
      | cons z best =>
        obtain rfl := Except.ok.inj hr
        refine ⟨_,rfl,(hb z mem_cons_self).value,.cons rfl .nil,?_⟩
        rw [←hcandidates]
        constructor
        · rintro (_ | ⟨hu,_⟩)
          refine (unchanged_iff ?_ ?_).mp hu
          · rfl
          · rfl
        · intro hu
          refine .cons ((unchanged_iff ?_ ?_).mpr hu) .nil
          · rfl
          · rfl

theorem keepsOrder_of_one (h : ∀z∈zs,Restated z) {v : V} (hv : ∀z∈zs,z.1.1=v) :
    KeepsOrder nfc c (zs.map Prod.fst) (zs.map Prod.snd) := by
  have hkey : ∀r∈distinctPairs nfc zs,r.1=factKey nfc v := by
    intro r hr
    obtain ⟨z,hz,rfl⟩ := mem_map.mp (mem_of_mapOf hr)
    rw [hv z hz]
  rw [keepsOrder_iff h]
  have hnodup : ((distinctPairs nfc zs).map Prod.fst).Nodup := mapOf_nodup _
  refine (pairwise_map.mp hnodup).imp_of_mem fun {p q} hp hq hne => ?_
  rw [hkey p hp,hkey q hq] at hne
  exact (hne rfl).elim

end

/-- The same fact, stated by evidence of the same authority. -/
structure SameFact {V : Type} (a b : V × ProductEvidenceResource) : Prop where
  value : b.1=a.1
  authority : b.2.authority=a.2.authority

section
variable {V : Type} [FactValue V] {xs ys : List (V × ProductEvidenceResource)}

theorem resolveFact_same (h : List.Forall₂ SameFact xs ys) {path : JsString} {r : Resolved V}
    (hr : resolveFact nfc c xs path=.ok r) : ∃s,resolveFact nfc c ys path=.ok s ∧ s.value=r.value ∧
    Alike nfc (r.recorded path).disagreements (s.recorded path).disagreements
    (KeepsOrder nfc c xs ys) := by
  obtain ⟨zs,rfl,rfl,hz⟩ := exists_pairs h
  exact resolveFact_restated (fun z hm => ⟨(hz z hm).value,(hz z hm).authority⟩) hr

theorem keepsOrder_constant (h : List.Forall₂ SameFact xs ys) {v : V} (hv : ∀x∈xs,x.1=v) :
    KeepsOrder nfc c xs ys := by
  obtain ⟨zs,rfl,rfl,hz⟩ := exists_pairs h
  exact keepsOrder_of_one (fun z hm => ⟨(hz z hm).value,(hz z hm).authority⟩)
    fun z hm => hv z.1 (mem_map.mpr ⟨z,hm,rfl⟩)

end

end

end CardKeepr.Reconciliation.Product
