import CardKeepr.Lib.StableSort
import CardKeepr.Shared.CanonicalText

namespace CardKeepr.Shared

open List

mutual

/-- Equality that ignores the order of an object's members. -/
def Json.Same : Json → Json → Prop
  | .null,.null => True
  | .bool a,.bool b => a=b
  | .num p,.num q => p=q
  | .str s,.str t => s=t
  | .arr vs,.arr ws => SameItems vs ws
  | .obj ms,.obj ns => ∃p : List (JsString × Json),p.Perm ns ∧ SameMembers ms p
  | _,_ => False

def SameItems : List Json → List Json → Prop
  | [],[] => True
  | v::vs,w::ws => v.Same w ∧ SameItems vs ws
  | _,_ => False

def SameMembers : List (JsString × Json) → List (JsString × Json) → Prop
  | [],[] => True
  | (k,v)::ms,(l,w)::ns => (k=l ∧ v.Same w) ∧ SameMembers ms ns
  | _,_ => False

end

attribute [local simp] Json.Same SameItems SameMembers Json.sortKeys Json.normalized Json.own

theorem sameItems_iff (vs ws : List Json) : SameItems vs ws ↔ List.Forall₂ Json.Same vs ws := by
  induction vs generalizing ws with
  | nil => cases ws <;> simp [SameItems]
  | cons v vs ih => cases ws <;> simp [SameItems,ih]

theorem sameMembers_iff (ms ns : List (JsString × Json)) : SameMembers ms ns ↔
    List.Forall₂ (fun m n => m.1=n.1 ∧ m.2.Same n.2) ms ns := by
  induction ms generalizing ns with
  | nil => cases ns <;> simp [SameMembers]
  | cons m ms ih => cases ns <;> simp [SameMembers,ih]

theorem Json.Same.refl (v : Json) : v.Same v := by
  induction v using Json.induct with
  | null => trivial
  | bool b => rfl
  | num q => rfl
  | str s => rfl
  | arr vs ih => exact (sameItems_iff vs vs).mpr (forall₂_same.mpr ih)
  | obj ms ih =>
    exact ⟨ms,.refl ms,(sameMembers_iff ms ms).mpr (forall₂_same.mpr fun m hm => ⟨rfl,ih m hm⟩)⟩

variable (nfc : Nfc)

/-- No object has two keys of one rank. -/
def Json.Separated (v : Json) : Prop :=
  v.All (fun _ => True) (fun _ => True) fun ks => (ks.map nfc.rank).Nodup

/-- The order of members; ties are keys of one rank. -/
abbrev Nfc.before (a b : JsString × Json) : Prop := compareBytes (nfc.rank a.1) (nfc.rank b.1) ≤ 0

instance : Std.Total nfc.before where
  total a b := by
    have := compareBytes_swap (nfc.rank a.1) (nfc.rank b.1)
    simp only [Nfc.before]
    omega

instance : IsTrans (JsString × Json) nfc.before where
  trans _ _ _ := compareBytes_trans

theorem before_antisymm {a b : JsString × Json} (h : nfc.before a b) (k : nfc.before b a) :
    nfc.rank a.1=nfc.rank b.1 := by
  have := compareBytes_swap (nfc.rank a.1) (nfc.rank b.1)
  simp only [Nfc.before] at h k
  exact compareBytes_eq_zero (by omega)

theorem sortKeys_obj (ms : List (JsString × Json)) : (Json.obj ms).sortKeys nfc=
    .obj ((ms.map fun m => (m.1,m.2.sortKeys nfc)).insertionSort nfc.before) := by
  rw [Json.sortKeys,sortMembers_map]

theorem sortKeys_arr (vs : List Json) :
    (Json.arr vs).sortKeys nfc=.arr (vs.map (Json.sortKeys nfc)) := by
  rw [Json.sortKeys,sortItems_map]

variable {a b v : Json}

theorem same_of_sortKeys (h : a.sortKeys nfc=b.sortKeys nfc) : a.Same b := by
  induction a using Json.induct generalizing b with
  | null => cases b <;> simp_all [Json.sortKeys,Json.Same]
  | bool x => cases b <;> simp_all [Json.sortKeys,Json.Same]
  | num q => cases b <;> simp_all [Json.sortKeys,Json.Same]
  | str s => cases b <;> simp_all [Json.sortKeys,Json.Same]
  | arr vs ih =>
    cases b with
    | arr ws =>
      rw [sortKeys_arr,sortKeys_arr] at h
      have h := Json.arr.inj h
      rw [←forall₂_eq_eq_eq,forall₂_map_left_iff,forall₂_map_right_iff] at h
      exact (sameItems_iff vs ws).mpr (Lib.forall₂_imp_mem (fun v hv w e => ih v hv e) h)
    | _ => simp [Json.sortKeys] at h
  | obj ms ih =>
    cases b with
    | obj ns =>
      rw [sortKeys_obj,sortKeys_obj] at h
      have h := Json.obj.inj h
      -- both sides are permutations of the mapped members
      have hp := ((perm_insertionSort nfc.before _).symm.trans (.of_eq h)).trans
        (perm_insertionSort nfc.before _)
      obtain ⟨p,hp,e⟩ := Lib.perm_map_exists hp
      rw [←forall₂_eq_eq_eq,forall₂_map_left_iff,forall₂_map_right_iff] at e
      refine ⟨p,hp,(sameMembers_iff ms p).mpr (Lib.forall₂_imp_mem (fun m hm n e => ?_) e)⟩
      exact ⟨(Prod.mk.inj e).1,ih m hm (Prod.mk.inj e).2⟩
    | _ => simp [Json.sortKeys] at h

theorem sortKeys_of_same (hs : a.Separated nfc) (h : a.Same b) : a.sortKeys nfc=b.sortKeys nfc := by
  induction a using Json.induct generalizing b with
  | null => cases b <;> simp_all [Json.Same]
  | bool x => cases b <;> simp_all [Json.Same]
  | num q => cases b <;> simp_all [Json.Same]
  | str s => cases b <;> simp_all [Json.Same]
  | arr vs ih =>
    cases b with
    | arr ws =>
      have hs := (all_arr vs).mp hs
      rw [sortKeys_arr,sortKeys_arr]
      congr 1
      rw [←forall₂_eq_eq_eq,forall₂_map_left_iff,forall₂_map_right_iff]
      exact Lib.forall₂_imp_mem (fun v hv w e => ih v hv (hs v hv) e) ((sameItems_iff vs ws).mp h)
    | _ => simp [Json.Same] at h
  | obj ms ih =>
    cases b with
    | obj ns =>
      obtain ⟨hk,hs⟩ := (all_obj ms).mp hs
      obtain ⟨p,hp,h⟩ := h
      have e : (ms.map fun m => (m.1,m.2.sortKeys nfc))=p.map fun m => (m.1,m.2.sortKeys nfc) := by
        rw [←forall₂_eq_eq_eq,forall₂_map_left_iff,forall₂_map_right_iff]
        refine Lib.forall₂_imp_mem (fun m hm n e => ?_) ((sameMembers_iff ms p).mp h)
        rw [e.1,ih m hm (hs m hm) e.2]
      rw [sortKeys_obj,sortKeys_obj,e]
      congr 1
      have hperm := (perm_insertionSort nfc.before
        (p.map fun m => (m.1,m.2.sortKeys nfc))).trans ((hp.map _).trans
        (perm_insertionSort nfc.before _).symm)
      refine hperm.eq_of_pairwise ?_ (pairwise_insertionSort _ _)
        (pairwise_insertionSort _ _)
      -- members of one rank are one member
      intro x y hx hy hxy hyx
      have hr := before_antisymm nfc hxy hyx
      rw [mem_insertionSort,←e] at hx
      have hy := (hperm.mem_iff.mpr hy)
      rw [mem_insertionSort,←e] at hy
      have hnd : ((ms.map fun m => (m.1,m.2.sortKeys nfc)).map fun m => nfc.rank m.1).Nodup := by
        simpa [map_map,Function.comp_def] using hk
      exact inj_on_of_nodup_map hnd hx hy hr
    | _ => simp [Json.Same] at h

def Json.Normal (v : Json) : Prop :=
  v.All (fun _ => True) (fun s => nfc.normalize s=s) fun ks => ∀k ∈ ks,nfc.normalize k=k

theorem normalized_normal (v : Json) : (v.normalized nfc).Normal nfc := by
  induction v using Json.induct with
  | null => trivial
  | bool b => trivial
  | num q => trivial
  | str s => exact nfc.idempotent s
  | arr vs ih =>
    rw [Json.normalized,normalizedItems_map]
    refine (all_arr _).mpr fun w hw => ?_
    obtain ⟨v,hv,rfl⟩ := mem_map.mp hw
    exact ih v hv
  | obj ms ih =>
    rw [Json.normalized,normalizedMembers_map]
    refine (all_obj _).mpr ⟨fun k hk => ?_,fun n hn => ?_⟩
    · rw [map_map] at hk
      obtain ⟨m,hm,rfl⟩ := mem_map.mp hk
      exact nfc.idempotent m.1
    · obtain ⟨m,hm,rfl⟩ := mem_map.mp hn
      exact ih m hm

theorem Json.Normal.normalized_eq (h : v.Normal nfc) : v.normalized nfc=v := by
  induction v using Json.induct with
  | null => rfl
  | bool b => rfl
  | num q => rfl
  | str s => exact congrArg Json.str h
  | arr vs ih =>
    have h := (all_arr _).mp h
    rw [Json.normalized,normalizedItems_map,map_congr_left fun v hv => ih v hv (h v hv),map_id']
  | obj ms ih =>
    obtain ⟨hk,hm⟩ := (all_obj _).mp h
    rw [Json.normalized,normalizedMembers_map,map_congr_left fun m h => by
      rw [ih m h (hm m h),hk m.1 (mem_map_of_mem h)],map_id']

theorem sortKeys_normal (h : v.Normal nfc) : (v.sortKeys nfc).Normal nfc := by
  induction v using Json.induct with
  | null => trivial
  | bool b => trivial
  | num q => trivial
  | str s => exact h
  | arr vs ih =>
    have h := (all_arr _).mp h
    rw [sortKeys_arr]
    refine (all_arr _).mpr fun w hw => ?_
    obtain ⟨v,hv,rfl⟩ := mem_map.mp hw
    exact ih v hv (h v hv)
  | obj ms ih =>
    obtain ⟨hk,hm⟩ := (all_obj _).mp h
    have hmem : ∀n ∈ (ms.map fun m => (m.1,m.2.sortKeys nfc)).insertionSort nfc.before,
        ∃m ∈ ms,n=(m.1,m.2.sortKeys nfc) := by
      intro n hn
      obtain ⟨m,hm,rfl⟩ := mem_map.mp ((mem_insertionSort _).mp hn)
      exact ⟨m,hm,rfl⟩
    rw [sortKeys_obj]
    refine (all_obj _).mpr ⟨fun k hk' => ?_,fun n hn => ?_⟩
    · obtain ⟨n,hn,rfl⟩ := mem_map.mp hk'
      obtain ⟨m,hm,rfl⟩ := hmem n hn
      exact hk m.1 (mem_map_of_mem hm)
    · obtain ⟨m,hm',rfl⟩ := hmem n hn
      exact ih m hm' (hm m hm')

theorem own_normal (h : v.Normal nfc) : v.own.Normal nfc := by
  induction v using Json.induct with
  | null => trivial
  | bool b => trivial
  | num q => trivial
  | str s => exact h
  | arr vs ih =>
    have h := (all_arr _).mp h
    rw [Json.own,ownItems_map]
    refine (all_arr _).mpr fun w hw => ?_
    obtain ⟨v,hv,rfl⟩ := mem_map.mp hw
    exact ih v hv (h v hv)
  | obj ms ih =>
    obtain ⟨hk,hm⟩ := (all_obj _).mp h
    have hmem : ∀n ∈ ownMembers (ms.map fun m => (m.1,m.2.own)),∃m ∈ ms,n=(m.1,m.2.own) := by
      intro n hn
      obtain ⟨m,hm,rfl⟩ := mem_map.mp (assignAll_mem ((mem_insertionSort _).mp hn))
      exact ⟨m,hm,rfl⟩
    rw [Json.own,ownValues_map]
    refine (all_obj _).mpr ⟨fun k hk' => ?_,fun n hn => ?_⟩
    · obtain ⟨n,hn,rfl⟩ := mem_map.mp hk'
      obtain ⟨m,hm,rfl⟩ := hmem n hn
      exact hk m.1 (mem_map_of_mem hm)
    · obtain ⟨m,hm',rfl⟩ := hmem n hn
      exact ih m hm' (hm m hm')

theorem normalized_separated (v : Json) : (v.normalized nfc).Separated nfc ↔ v.Separated nfc := by
  induction v using Json.induct with
  | null => rfl
  | bool b => rfl
  | num q => rfl
  | str s => rfl
  | arr vs ih =>
    simp only [Json.Separated] at ih ⊢
    rw [Json.normalized,normalizedItems_map,all_arr,all_arr]
    simp only [mem_map,forall_exists_index,and_imp,forall_apply_eq_imp_iff₂]
    exact forall₂_congr ih
  | obj ms ih =>
    simp only [Json.Separated] at ih ⊢
    rw [Json.normalized,normalizedMembers_map,all_obj,all_obj]
    simp only [map_map,Function.comp_def,rank_normalize,mem_map,forall_exists_index,
      and_imp,forall_apply_eq_imp_iff₂]
    exact and_congr_right fun _ => forall₂_congr ih

theorem rank_nodup_keys {ms : List (JsString × Json)} (h : ((ms.map Prod.fst).map nfc.rank).Nodup) :
    (ms.map Prod.fst).Nodup := h.of_map _

theorem same_own_sortKeys (h : v.Separated nfc) : v.Same (v.sortKeys nfc).own := by
  induction v using Json.induct with
  | null => trivial
  | bool b => rfl
  | num q => rfl
  | str s => rfl
  | arr vs ih =>
    have h := (all_arr _).mp h
    rw [sortKeys_arr,Json.own,ownItems_map]
    refine (sameItems_iff _ _).mpr ?_
    rw [map_map,forall₂_map_right_iff]
    exact forall₂_same.mpr fun v hv => ih v hv (h v hv)
  | obj ms ih =>
    obtain ⟨hk,hm⟩ := (all_obj _).mp h
    rw [sortKeys_obj,Json.own,ownValues_map]
    have hs := perm_insertionSort nfc.before (ms.map fun m => (m.1,m.2.sortKeys nfc))
    have hp := hs.map fun m => (m.1,m.2.own)
    rw [map_map] at hp
    have hn : ((((ms.map fun m => (m.1,m.2.sortKeys nfc)).insertionSort nfc.before).map
        fun m => (m.1,m.2.own)).map Prod.fst).Nodup := by
      rw [(hp.map Prod.fst).nodup_iff,map_map]
      exact rank_nodup_keys nfc hk
    refine ⟨_,((ownMembers_perm hn).trans hp).symm,(sameMembers_iff _ _).mpr ?_⟩
    rw [forall₂_map_right_iff]
    exact forall₂_same.mpr fun m hm' => ⟨rfl,ih m hm' (hm m hm')⟩

theorem canonical_own (h : v.Separated nfc) :
    (v.canonical nfc).own.canonical nfc=v.canonical nfc := by
  have hs := (normalized_separated nfc v).mpr h
  have hn : (v.canonical nfc).own.Normal nfc :=
    own_normal nfc (sortKeys_normal nfc (normalized_normal nfc v))
  have hc : ((v.canonical nfc).own.canonical nfc)=((v.canonical nfc).own.sortKeys nfc) := by
    rw [Json.canonical,Json.Normal.normalized_eq nfc hn]
  rw [hc]
  exact (sortKeys_of_same nfc hs (same_own_sortKeys nfc hs)).symm

end CardKeepr.Shared
