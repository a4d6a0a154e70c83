import CardKeepr.Reconciliation.PrintingNodes

namespace CardKeepr.Reconciliation.Printings
open Shared Lib List

section
variable {ms ns filled : List (JsString×Json)}

def others (ms ns : List (JsString×Json)) : List (JsString×Json) :=
  ns.filter fun n => !(ms.map Prod.fst).contains n.1

attribute [local simp] fillAuthorityGaps filledMembers node

theorem filledMembers_iff : filledMembers ns ms=some filled ↔ List.Forall₂
    (fun m f => m.1=f.1 ∧ fillAuthorityGaps m.2 (ns.lookup m.1)=.value f.2) ms filled := by
  induction ms generalizing filled with
  | nil =>
    rw [filledMembers,forall₂_nil_left_iff]
    exact ⟨fun h => (Option.some.inj h).symm,fun h => by rw [h]⟩
  | cons m ms ih =>
    obtain ⟨k,v⟩ := m
    rw [filledMembers]
    constructor
    · intro h
      split at h
      · rename_i w rest hw hrest
        obtain rfl := Option.some.inj h
        exact .cons ⟨rfl,hw⟩ (ih.mp hrest)
      · cases h
    · intro h
      cases h with
      | cons hm hrest =>
        obtain ⟨rfl,hw⟩ := hm
        rw [hw,ih.mpr hrest]

theorem filledMembers_some : (∃filled,filledMembers ns ms=some filled) ↔
    ∀m∈ms,∃w,fillAuthorityGaps m.2 (ns.lookup m.1)=.value w := by
  induction ms with
  | nil =>
    constructor
    · intro _ m hm
      cases hm
    · exact fun _ => ⟨[],rfl⟩
  | cons m ms ih =>
    obtain ⟨k,v⟩ := m
    rw [forall_mem_cons,←ih]
    constructor
    · rintro ⟨filled,h⟩
      cases filledMembers_iff.mp h with
      | cons hm hrest => exact ⟨⟨_,hm.2⟩,_,filledMembers_iff.mpr hrest⟩
    · rintro ⟨⟨w,hw⟩,filled,hf⟩
      exact ⟨(k,w)::filled,filledMembers_iff.mpr (.cons ⟨rfl,hw⟩ (filledMembers_iff.mp hf))⟩

theorem filledMembers_lookup (h : filledMembers ns ms=some filled) (k : JsString) :
    (ms.lookup k=none ∧ filled.lookup k=none) ∨ ∃v w,ms.lookup k=some v ∧ filled.lookup k=some w ∧
    fillAuthorityGaps v (ns.lookup k)=.value w := by
  induction filledMembers_iff.mp h with
  | nil => exact .inl ⟨rfl,rfl⟩
  | @cons m f ms filled hm hrest ih =>
    obtain ⟨l,v⟩ := m
    obtain ⟨l',w⟩ := f
    obtain ⟨rfl,hw⟩ := hm
    rw [lookup_cons,lookup_cons]
    cases hk : k==l with
    | true =>
      obtain rfl := beq_iff_eq.mp hk
      exact .inr ⟨v,w,rfl,rfl,hw⟩
    | false => exact ih (filledMembers_iff.mpr hrest)

theorem lookup_append_values {α : Type} (as bs : List (JsString×α)) (k : JsString) :
    (as++bs).lookup k=(as.lookup k).or (bs.lookup k) := by
  induction as with
  | nil => rfl
  | cons a as ih =>
    rw [cons_append,lookup_cons,lookup_cons,ih]
    cases k==a.1 <;> rfl

theorem others_lookup (ms ns : List (JsString×Json)) (k : JsString) :
    (others ms ns).lookup k=if k∈ms.map Prod.fst then none else ns.lookup k := by
  induction ns with
  | nil => simp [others]
  | cons n ns ih =>
    rw [others,filter_cons]
    split_ifs with h hk hk
    · rw [lookup_cons]
      have hne : k≠n.1 := by
        rintro rfl
        rw [contains_iff_mem.mpr hk] at h
        cases h
      rw [beq_eq_false_iff_ne.mpr hne]
      exact ih.trans (if_pos hk)
    · rw [lookup_cons,lookup_cons]
      cases k==n.1
      · exact ih.trans (if_neg hk)
      · rfl
    · exact ih.trans (if_pos hk)
    · rw [lookup_cons]
      have hne : k≠n.1 := by
        rintro rfl
        rw [contains_eq_mem,decide_eq_false hk] at h
        exact h rfl
      rw [beq_eq_false_iff_ne.mpr hne]
      exact ih.trans (if_neg hk)

theorem mem_keys_iff {k : JsString} : k∈ms.map Prod.fst ↔ ms.lookup k≠none := by
  constructor
  · intro h hn
    obtain ⟨v,hv,-⟩ := lookup_of_mem h
    rw [hn] at hv
    cases hv
  · intro h
    by_contra hk
    refine h (lookup_eq_none_iff.mpr fun p hp => ?_)
    rw [bne_iff_ne]
    rintro rfl
    exact hk (mem_map_of_mem hp)

theorem filled_lookup (h : filledMembers ns ms=some filled) (k : JsString) :
    match ms.lookup k with
    | some v => ∃w,(filled++others ms ns).lookup k=some w ∧
        fillAuthorityGaps v (ns.lookup k)=.value w
    | none => (filled++others ms ns).lookup k=ns.lookup k := by
  rw [lookup_append_values]
  rcases filledMembers_lookup h k with ⟨hm,hf⟩ | ⟨v,w,hm,hf,hw⟩
  · rw [hm,hf,others_lookup,if_neg fun hk => mem_keys_iff.mp hk hm]
    rfl
  · rw [hm,hf]
    exact ⟨w,rfl,hw⟩
end

theorem fill_some (v w : Json) :
    (∃u,fillAuthorityGaps v (some w)=.value u) ∨ fillAuthorityGaps v (some w)=.holed := by
  cases v with
  | obj ms =>
    cases w with
    | obj ns =>
      rw [fillAuthorityGaps]
      cases filledMembers ns ms with
      | some filled => exact .inl ⟨_,rfl⟩
      | none => exact .inr rfl
    | _ => exact .inl ⟨_,rfl⟩
  | _ => exact .inl ⟨_,rfl⟩

theorem fill_objects {ms ns : List (JsString×Json)} {c : Json}
    (h : fillAuthorityGaps (.obj ms) (some (.obj ns))=.value c) :
    ∃filled,filledMembers ns ms=some filled ∧ c=.obj (filled++others ms ns) := by
  rw [fillAuthorityGaps] at h
  cases hf : filledMembers ns ms with
  | none =>
    rw [hf] at h
    cases h
  | some filled =>
    rw [hf] at h
    exact ⟨filled,rfl,(Filled.value.inj h).symm⟩

theorem fill_undefined {v c : Json} (h : fillAuthorityGaps v none=.value c) : v=c := by
  cases v <;> first
    | exact Filled.value.inj h
    | cases h

theorem fill_undefined_iff {v : Json} : (∃c,fillAuthorityGaps v none=.value c) ↔ v≠.null := by
  constructor
  · rintro ⟨c,h⟩ rfl
    cases h
  · intro h
    refine ⟨v,?_⟩
    cases v <;> first
      | exact absurd rfl h
      | rfl

theorem filled_keys {ms ns filled : List (JsString×Json)} (h : filledMembers ns ms=some filled) :
    filled.map Prod.fst=ms.map Prod.fst := by
  induction filledMembers_iff.mp h with
  | nil => rfl
  | cons hm _ ih => rw [map_cons,map_cons,ih (filledMembers_iff.mpr ‹_›),hm.1]

theorem fill_regular {v w c : Json} (hv : v.Regular) (hw : w.Regular)
    (h : fillAuthorityGaps v (some w)=.value c) : c.Regular := by
  induction v using Json.induct generalizing w c with
  | null =>
    obtain rfl := Filled.value.inj h
    exact hw
  | obj ms ih =>
    by_cases ho : ∃ns,w=.obj ns
    · obtain ⟨ns,rfl⟩ := ho
      obtain ⟨filled,hf,rfl⟩ := fill_objects h
      obtain ⟨hma,hmd⟩ := hv.keys
      obtain ⟨hna,hnd⟩ := hw.keys
      have hsub : (others ms ns).Sublist ns := filter_sublist
      refine (all_obj _).mpr ⟨⟨?_,?_⟩,fun m hm => ?_⟩
      · rw [map_append,filled_keys hf,all_append,hma,Bool.true_and,all_eq_true]
        intro k hk
        exact all_eq_true.mp hna k ((hsub.map _).subset hk)
      · rw [map_append,filled_keys hf,nodup_append]
        refine ⟨hmd,hnd.sublist (hsub.map _),?_⟩
        rintro k hk l hl rfl
        obtain ⟨n,hn,rfl⟩ := mem_map.mp hl
        have hn := (mem_filter.mp hn).2
        rw [contains_iff_mem.mpr hk] at hn
        cases hn
      · rcases mem_append.mp hm with hm | hm
        · have hd : (filled.map Prod.fst).Nodup := filled_keys hf ▸ hmd
          have hl : filled.lookup m.1=some m.2 := lookup_nodup hd hm
          rcases filledMembers_lookup hf m.1 with ⟨-,hn⟩ | ⟨v,u,hv',hu,hfill⟩
          · rw [hl] at hn
            cases hn
          · obtain rfl := Option.some.inj (hl.symm.trans hu)
            cases hn : ns.lookup m.1 with
            | none =>
              rw [hn] at hfill
              exact fill_undefined hfill ▸ hv.member hv'
            | some w =>
              rw [hn] at hfill
              exact ih (m.1,v) ((lookup_iff_mem hmd).mp hv') (hv.member hv') (hw.member hn) hfill
        · exact ((all_obj _).mp hw).2 m (hsub.subset hm)
    · have hc : fillAuthorityGaps (.obj ms) (some w)=.value (.obj ms) := by
        cases w with
        | obj ns => exact absurd ⟨ns,rfl⟩ ho
        | _ => rfl
      obtain rfl := Filled.value.inj (hc.symm.trans h)
      exact hv
  | _ =>
    obtain rfl := Filled.value.inj h
    exact hv

section
variable {nfc : Nfc}
variable {c v w : Json} {k : JsString}

theorem node_lookup {ms : List (JsString×Json)}
    (h : ms.lookup k=some v) (p : List JsString) : node nfc (k::p) (.obj ms)=node nfc p v := by
  rw [node_field,h]

theorem node_missing {ms : List (JsString×Json)}
    (h : ms.lookup k=none) (p : List JsString) : node nfc (k::p) (.obj ms)=.absent := by
  rw [node_field,h]

theorem node_cons {p : List JsString} (h : node nfc (k::p) v≠.absent) :
    ∃ms u,v=.obj ms ∧ ms.lookup k=some u ∧ node nfc p u=node nfc (k::p) v := by
  cases v with
  | obj ms =>
    cases hm : ms.lookup k with
    | none => exact absurd (node_missing hm p) h
    | some u => exact ⟨ms,u,rfl,hm,(node_lookup hm p).symm⟩
  | _ => exact absurd rfl h

/-- A hole is left exactly where a field is `null` here and missing there. -/
theorem fill_holed_iff (hv : v.Regular) (hw : w.Regular) :
    fillAuthorityGaps v (some w)=.holed ↔ Uneven nfc v w := by
  constructor
  · intro h
    induction v using Json.induct generalizing w with
    | obj ms ih =>
      cases w with
      | obj ns =>
        have hnone : ¬∃filled,filledMembers ns ms=some filled := by
          rintro ⟨filled,hf⟩
          rw [fillAuthorityGaps,hf] at h
          cases h
        rw [filledMembers_some] at hnone
        obtain ⟨⟨k,u⟩,hm,hu⟩ : ∃m∈ms,¬∃w,fillAuthorityGaps m.2 (ns.lookup m.1)=.value w := by
          by_contra hc
          exact hnone fun m hm => by_contra fun hm' => hc ⟨m,hm,hm'⟩
        have hlookup : ms.lookup k=some u := (lookup_iff_mem hv.keys.2).mpr hm
        dsimp only at hu
        cases hn : ns.lookup k with
        | none =>
          rw [hn,fill_undefined_iff,not_not] at hu
          exact ⟨[],k,rfl,rfl,by rw [nil_append,node_lookup hlookup,hu]; rfl,
            node_missing hn []⟩
        | some w =>
          rw [hn] at hu
          have hholed := (fill_some u w).resolve_left hu
          obtain ⟨p,l,h1,h2,h3,h4⟩ := ih (k,u) hm (hv.member hlookup) (hw.member hn) hholed
          exact ⟨k::p,l,(node_lookup hlookup p).trans h1,(node_lookup hn p).trans h2,
            (node_lookup hlookup _).trans h3,(node_lookup hn _).trans h4⟩
      | _ => cases h
    | _ => cases h
  · rintro ⟨p,k,h1,h2,h3,h4⟩
    have hstuck {ms ns : List (JsString×Json)} {k : JsString} {u : Json}
        (hm : ms.lookup k=some u) (hu : ¬∃c,fillAuthorityGaps u (ns.lookup k)=.value c)
        (hd : (ms.map Prod.fst).Nodup) :
        fillAuthorityGaps (.obj ms) (some (.obj ns))=.holed := by
      have hnone : filledMembers ns ms=none := by
        rw [Option.eq_none_iff_forall_ne_some]
        intro filled hf
        exact hu ((filledMembers_some.mp ⟨filled,hf⟩) (k,u) ((lookup_iff_mem hd).mp hm))
      rw [fillAuthorityGaps,hnone]
    induction p generalizing v w with
    | nil =>
      obtain ⟨ms,rfl⟩ := root_object h1
      obtain ⟨ns,rfl⟩ := root_object h2
      rw [nil_append] at h3 h4
      obtain ⟨ms',u,he,hm,hu⟩ := node_cons (by rw [h3]; simp)
      obtain rfl := Json.obj.inj he
      have hnull := root_unknown (hu.trans h3)
      have hmissing : ns.lookup k=none := by
        cases hn : ns.lookup k with
        | none => rfl
        | some w =>
          rw [node_lookup hn] at h4
          exact absurd h4 (node_root_ne w)
      refine hstuck hm ?_ hv.keys.2
      rw [hmissing,fill_undefined_iff,not_not]
      exact hnull
    | cons l p ih =>
      obtain ⟨ms,u,rfl,hm,hu⟩ := node_cons (by rw [h1]; simp)
      obtain ⟨ns,w,rfl,hn,hw'⟩ := node_cons (by rw [h2]; simp)
      rw [cons_append,node_lookup hm] at h3
      rw [cons_append,node_lookup hn] at h4
      refine hstuck hm ?_ hv.keys.2
      rw [hn,ih (hv.member hm) (hw.member hn) (hu.trans h1) (hw'.trans h2) h3 h4]
      rintro ⟨c,hc⟩
      cases hc
/-- The first node, unless only the second says something. -/
def Node.join : Node → Node → Node
  | .absent,n => n
  | .unknown,.absent => .unknown
  | .unknown,n => n
  | n,_ => n

theorem join_absent (n : Node) : n.join .absent=n := by
  cases n <;> rfl

def DifferAt (nfc : Nfc) (p : List JsString) (v w : Json) : Prop :=
  (node nfc p v).known ∧ (node nfc p w).known ∧ node nfc p v≠node nfc p w

theorem root_known (h : v≠.null) : (node nfc [] v).known := by
  cases v <;> first
    | exact absurd rfl h
    | trivial

theorem fill_known (hv : v≠.null) (ho : ¬(node nfc [] v=.object ∧ node nfc [] w=.object)) :
    fillAuthorityGaps v (some w)=.value v := by
  cases v with
  | null => exact absurd rfl hv
  | obj ms =>
    cases w with
    | obj ns => exact absurd ⟨rfl,rfl⟩ ho
    | _ => rfl
  | _ => rfl

theorem node_fill (h : fillAuthorityGaps v (some w)=.value c) (hd : ∀p,¬DifferAt nfc p v w)
    (p : List JsString) : node nfc p c=(node nfc p v).join (node nfc p w) := by
  induction p generalizing v w c with
  | nil =>
    by_cases hnull : v=.null
    · subst hnull
      obtain rfl := Filled.value.inj h
      cases w <;> rfl
    · by_cases ho : node nfc [] v=.object ∧ node nfc [] w=.object
      · obtain ⟨ms,rfl⟩ := root_object ho.1
        obtain ⟨ns,rfl⟩ := root_object ho.2
        obtain ⟨filled,-,rfl⟩ := fill_objects h
        rfl
      · obtain rfl := Filled.value.inj ((fill_known hnull ho).symm.trans h)
        cases v <;> first
          | exact absurd rfl hnull
          | rfl
  | cons k p ih =>
    by_cases hnull : v=.null
    · subst hnull
      obtain rfl := Filled.value.inj h
      rfl
    by_cases ho : node nfc [] v=.object ∧ node nfc [] w=.object
    · obtain ⟨ms,rfl⟩ := root_object ho.1
      obtain ⟨ns,rfl⟩ := root_object ho.2
      obtain ⟨filled,hf,rfl⟩ := fill_objects h
      have hl := filled_lookup hf k
      cases hm : ms.lookup k with
      | none =>
        rw [hm] at hl
        rw [node_missing hm,node_field,hl,←node_field]
        rfl
      | some u =>
        rw [hm] at hl
        obtain ⟨x,hx,hfill⟩ := hl
        rw [node_lookup hx,node_lookup hm]
        cases hn : ns.lookup k with
        | none =>
          rw [hn] at hfill
          rw [node_missing hn,join_absent,fill_undefined hfill]
        | some y =>
          rw [hn] at hfill
          rw [node_lookup hn]
          refine ih hfill fun q hq => hd (k::q) ?_
          rwa [DifferAt,node_lookup hm,node_lookup hn]
    · obtain rfl := Filled.value.inj ((fill_known hnull ho).symm.trans h)
      have hw : node nfc (k::p) w=.absent := by
        by_contra hne
        obtain ⟨ns,y,rfl,-,-⟩ := node_cons hne
        exact hd [] ⟨root_known hnull,trivial,fun he => ho ⟨he,rfl⟩⟩
      rw [hw,join_absent]

theorem node_fill_differ {p : List JsString} (h : fillAuthorityGaps v (some w)=.value c)
    (hd : DifferAt nfc p v w) : node nfc p c=node nfc p v := by
  induction p generalizing v w c with
  | nil =>
    have hnull : v≠.null := by
      rintro rfl
      exact hd.1
    have ho : ¬(node nfc [] v=.object ∧ node nfc [] w=.object) := fun ho =>
      hd.2.2 (ho.1.trans ho.2.symm)
    rw [Filled.value.inj ((fill_known hnull ho).symm.trans h)]
  | cons k p ih =>
    obtain ⟨hkv,hkw,hne⟩ := hd
    obtain ⟨ms,u,rfl,hm,hu⟩ := node_cons (p := p) (k := k) (v := v) fun h => by
      rw [h] at hkv
      exact hkv
    obtain ⟨ns,y,rfl,hn,hy⟩ := node_cons (p := p) (k := k) (v := w) fun h => by
      rw [h] at hkw
      exact hkw
    obtain ⟨filled,hf,rfl⟩ := fill_objects h
    have hl := filled_lookup hf k
    rw [hm,hn] at hl
    obtain ⟨x,hx,hfill⟩ := hl
    rw [node_lookup hx,node_lookup hm]
    refine ih hfill ⟨?_,?_,?_⟩
    · rwa [hu]
    · rwa [hy]
    · rwa [hu,hy]
end

end CardKeepr.Reconciliation.Printings
