import CardKeepr.Shared.CanonicalMembers
import CardKeepr.Shared.CanonicalTies

namespace CardKeepr.Shared

open List

def Json.Regular (v : Json) : Prop :=
  v.All (fun q => q.den=1) (fun _ => True) fun ks => ks.all isAscii=true ∧ ks.Nodup

theorem all_mono {num num' : ℚ → Prop} {str str' : JsString → Prop}
    {keys keys' : List JsString → Prop} (hn : ∀q,num q → num' q) (hs : ∀s,str s → str' s)
    (hk : ∀ks,keys ks → keys' ks) {v : Json} (h : v.All num str keys) : v.All num' str' keys' := by
  induction v using Json.induct with
  | null => trivial
  | bool b => trivial
  | num q => exact hn q h
  | str s => exact hs s h
  | arr vs ih => exact (all_arr vs).mpr fun v hv => ih v hv ((all_arr vs).mp h v hv)
  | obj ms ih =>
    obtain ⟨hkeys,hm⟩ := (all_obj ms).mp h
    exact (all_obj ms).mpr ⟨hk _ hkeys,fun m hm' => ih m hm' (hm m hm')⟩

theorem Json.Regular.integral {v : Json} (h : v.Regular) : v.Integral :=
  all_mono (fun _ h => h) (fun _ h => h) (fun _ _ => trivial) h

variable (nfc : Nfc)

theorem lookup_mem {α : Type} {k : JsString} {v : α} {ms : List (JsString×α)}
    (h : ms.lookup k=some v) : (k,v)∈ms := by
  obtain ⟨l,r,rfl,-⟩ := lookup_eq_some_iff.mp h
  simp

theorem lookup_iff_mem {α : Type} {k : JsString} {v : α} {ms : List (JsString×α)}
    (hk : (ms.map Prod.fst).Nodup) : ms.lookup k=some v ↔ (k,v)∈ms :=
  ⟨lookup_mem,lookup_nodup hk⟩

theorem lookup_map_values {α β : Type} (f : α → β) (k : JsString) (ms : List (JsString×α)) :
    (ms.map fun m => (m.1,f m.2)).lookup k=(ms.lookup k).map f := by
  induction ms with
  | nil => rfl
  | cons m ms ih =>
    obtain ⟨l,v⟩ := m
    rw [map_cons,lookup_cons,lookup_cons,ih]
    cases h : k==l <;> rfl

theorem canonical_obj_sorted (ms : List (JsString×Json)) : (Json.obj ms).canonical nfc=
    .obj ((ms.map fun m => (nfc.normalize m.1,m.2.canonical nfc)).insertionSort nfc.before) := by
  rw [Json.canonical,Json.normalized,sortKeys_obj,normalizedMembers_map,map_map]
  rfl

theorem Json.Regular.keys {ms : List (JsString×Json)} (h : (Json.obj ms).Regular) :
    (ms.map Prod.fst).all isAscii=true ∧ (ms.map Prod.fst).Nodup := ((all_obj _).mp h).1

theorem Json.Regular.member {ms : List (JsString×Json)} {k : JsString} {v : Json}
    (h : (Json.obj ms).Regular) (hv : ms.lookup k=some v) : v.Regular :=
  ((all_obj _).mp h).2 (k,v) ((lookup_iff_mem h.keys.2).mp hv)

theorem canonical_obj_iff {ms ns : List (JsString×Json)}
    (hms : (ms.map Prod.fst).all isAscii=true ∧ (ms.map Prod.fst).Nodup)
    (hns : (ns.map Prod.fst).all isAscii=true ∧ (ns.map Prod.fst).Nodup) :
    (Json.obj ms).canonical nfc=(Json.obj ns).canonical nfc ↔
      ∀k,(ms.lookup k).map (Json.canonical nfc)=(ns.lookup k).map (Json.canonical nfc) := by
  have hnormal {l : List (JsString×Json)} (h : (l.map Prod.fst).all isAscii=true) :
      (l.map fun m => (nfc.normalize m.1,m.2.canonical nfc))=
        l.map fun m => (m.1,m.2.canonical nfc) :=
    map_congr_left fun m hm => by
      rw [nfc.ascii m.1 (all_eq_true.mp h _ (mem_map_of_mem hm))]
  have hkeys {l : List (JsString×Json)} (h : (l.map Prod.fst).Nodup) :
      ((l.map fun m => (m.1,m.2.canonical nfc)).map Prod.fst).Nodup := by
    rwa [map_map]
  rw [canonical_obj_sorted,canonical_obj_sorted,hnormal hms.1,hnormal hns.1,Json.obj.injEq]
  simp only [←lookup_map_values]
  constructor
  · intro h k
    have hp := ((perm_insertionSort nfc.before _).symm.trans (.of_eq h)).trans
      (perm_insertionSort nfc.before _)
    apply Option.ext
    intro v
    rw [lookup_iff_mem (hkeys hms.2),lookup_iff_mem (hkeys hns.2)]
    exact hp.mem_iff
  · intro h
    have hp : (ms.map fun m => (m.1,m.2.canonical nfc)).Perm
        (ns.map fun m => (m.1,m.2.canonical nfc)) := by
      rw [perm_ext_iff_of_nodup (hkeys hms.2).of_map (hkeys hns.2).of_map]
      rintro ⟨k,v⟩
      rw [←lookup_iff_mem (hkeys hms.2),←lookup_iff_mem (hkeys hns.2),h k]
    refine ((perm_insertionSort nfc.before _).trans (hp.trans
      (perm_insertionSort nfc.before _).symm)).eq_of_pairwise ?_
      (pairwise_insertionSort _ _) (pairwise_insertionSort _ _)
    -- members of one rank are one member
    intro x y hx hy hxy hyx
    rw [mem_insertionSort] at hx
    rw [mem_insertionSort,←hp.mem_iff] at hy
    obtain ⟨m,hm,rfl⟩ := mem_map.mp hx
    obtain ⟨n,hn,rfl⟩ := mem_map.mp hy
    have hr := before_antisymm nfc hxy hyx
    have ha : isAscii m.1=true := all_eq_true.mp hms.1 _ (mem_map_of_mem hm)
    have hb : isAscii n.1=true := all_eq_true.mp hms.1 _ (mem_map_of_mem hn)
    have hk : m.1=n.1 := by
      rw [←nfc.ascii _ ha,←nfc.ascii _ hb]
      exact rank_ascii nfc hb hr
    rw [inj_on_of_nodup_map hms.2 hm hn hk]

end CardKeepr.Shared
