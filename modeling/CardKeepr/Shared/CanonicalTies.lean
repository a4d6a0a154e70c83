import CardKeepr.Shared.CanonicalForm
import Mathlib.Data.List.Duplicate

namespace CardKeepr.Shared

open List

variable {v : Json} {k l s : JsString}

theorem utf8Point_high {c : Nat} (h : 0x80 ≤ c) : ∃b ∈ utf8Point c,0x80 ≤ b.toNat := by
  have hb : 0x80 ≤ (UInt8.ofNat (0x80+c%0x40)).toNat := by
    rw [UInt8.toNat_ofNat']
    omega
  refine ⟨UInt8.ofNat (0x80+c%0x40),?_,hb⟩
  unfold utf8Point
  split_ifs with h1 h2 h3
  · omega
  all_goals simp

theorem unit_point {u : UInt16} (h : 0x80 ≤ u.toNat) :
    0x80 ≤ (if isSurrogate u then 0xfffd else u.toNat) := by
  split <;> omega

theorem ascii_of_utf8 (h : ∀b ∈ utf8 s,b.toNat < 0x80) : isAscii s=true := by
  have hc : ∀c ∈ codePoints s,c < 0x80 := by
    intro c hc
    by_contra hn
    obtain ⟨b,hb,hl⟩ := utf8Point_high (show 0x80 ≤ c by omega)
    have := h b (mem_flatMap.mpr ⟨c,hc,hb⟩)
    omega
  clear h
  induction s using codePoints.induct with
  | case1 => rfl
  | case2 u =>
    have := hc _ mem_cons_self
    refine (isAscii_cons u []).mpr ⟨?_,rfl⟩
    by_contra hn
    have := unit_point (u := u) (by omega)
    omega
  | case3 u v us hp ih =>
    have := hc _ (by rw [codePoints,if_pos hp]; exact mem_cons_self)
    omega
  | case4 u v us hp ih =>
    rw [codePoints,if_neg hp] at hc
    have hu := hc _ mem_cons_self
    refine (isAscii_cons u _).mpr ⟨?_,ih fun c h => hc c (mem_cons_of_mem _ h)⟩
    by_contra hn
    have := unit_point (u := u) (by omega)
    omega

theorem ascii_bytes (hs : isAscii s=true) : (utf8 s).map (fun b => UInt16.ofNat b.toNat)=s := by
  rw [utf8_ascii s hs,map_map]
  refine (map_congr_left fun u hu => ?_).trans (map_id' s)
  have hu : u.toNat < 0x80 := by
    simpa using all_eq_true.mp hs u hu
  apply UInt16.toNat_inj.mp
  simp only [Function.comp_apply,UInt16.toNat_ofNat',UInt8.toNat_ofNat']
  omega

variable (nfc : Nfc)

theorem rank_ascii (hk : isAscii k=true) (h : nfc.rank l=nfc.rank k) :
    nfc.normalize l=nfc.normalize k := by
  rw [Nfc.rank,Nfc.rank,nfc.ascii k hk] at h
  have hl : isAscii (nfc.normalize l)=true := by
    apply ascii_of_utf8
    intro b hb
    rw [h,utf8_ascii k hk] at hb
    obtain ⟨u,hu,rfl⟩ := mem_map.mp hb
    have hu : u.toNat < 0x80 := by
      simpa using all_eq_true.mp hk u hu
    rw [UInt8.toNat_ofNat']
    omega
  rw [nfc.ascii k hk,←ascii_bytes hl,h,ascii_bytes hk]

theorem decimal_ascii (n : Nat) : isAscii (decimal n)=true := by
  refine all_eq_true.mpr fun u hu => ?_
  have := decimal_digits n u hu
  simp only [isDigit,decide_eq_true_eq] at this ⊢
  omega

theorem keyOrder_tie (h : nfc.rank l=nfc.rank k)
    (hne : nfc.normalize l≠nfc.normalize k) : keyOrder k=2^32 := by
  unfold keyOrder
  split_ifs with hk
  · exfalso
    apply hne
    apply rank_ascii nfc _ h
    rw [hk.1]
    exact decimal_ascii _
  · rfl

theorem tie_split {ms : List (JsString × Json)} (h : ¬((ms.map Prod.fst).map nfc.rank).Nodup) :
    ∃l a m b r,ms=l++a::(m++b::r) ∧ nfc.rank a.1=nfc.rank b.1 := by
  rw [map_map,←exists_duplicate_iff_not_nodup] at h
  obtain ⟨x,hx⟩ := h
  obtain ⟨s,hs,e⟩ := sublist_map_iff.mp (duplicate_iff_sublist.mp hx)
  obtain ⟨a,b,rfl⟩ : ∃a b,s=[a,b] := by
    have := congrArg List.length e
    match s with
    | [a,b] => exact ⟨a,b,rfl⟩
    | [] => simp at this
    | [a] => simp at this
    | a::b::c::s => simp at this
  simp only [map_cons,map_nil,List.cons.injEq,and_true,Function.comp_apply] at e
  obtain ⟨r1,r2,rfl,ha,hb⟩ := cons_sublist_iff.mp hs
  obtain ⟨l,m,rfl⟩ := append_of_mem ha
  obtain ⟨n,r,rfl⟩ := append_of_mem (singleton_sublist.mp hb)
  exact ⟨l,a,m++n,b,r,by simp,e.1.symm.trans e.2⟩

theorem canonical_swap {l m r : List (JsString × Json)} {a b : JsString × Json}
    (h : nfc.rank a.1=nfc.rank b.1) (hne : nfc.normalize a.1≠nfc.normalize b.1) :
    (Json.obj (l++a::(m++b::r))).canonical nfc≠(Json.obj (l++b::(m++a::r))).canonical nfc := by
  intro e
  rw [canonical_obj,canonical_obj] at e
  have e := Json.obj.inj e
  -- the members of this rank keep their order in both
  let p : JsString × Json → Bool := fun x => decide (nfc.rank x.1=nfc.rank a.1)
  have hp : ∀x y : JsString × Json,p x=true → p y=true → compareUtf8 nfc x.1 y.1 ≤ 0 := by
    intro x y hx hy
    rw [compareUtf8_le,of_decide_eq_true hx,of_decide_eq_true hy,compareBytes_self]
  have hf : ∀ms : List (JsString × Json),(sortedMembers nfc ms).filter p=
      (ms.filter p).map fun m => (nfc.normalize m.1,m.2.canonical nfc) := by
    intro ms
    have hc : (p ∘ fun m : JsString × Json => (nfc.normalize m.1,m.2.canonical nfc))=p := by
      funext x
      simp [p,rank_normalize]
    rw [sortedMembers,filter_map,hc,Lib.filter_insertionSort hp]
  have e := congrArg (List.filter p) e
  rw [hf,hf] at e
  have ha : p a=true := by simp [p]
  have hb : p b=true := by simp [p,h]
  simp only [filter_append,filter_cons,ha,hb,if_true,map_append,map_cons] at e
  have e := append_cancel_left e
  exact hne (congrArg Prod.fst (List.cons.inj e).1)

def RoundTrip (v : Json) : Prop := (v.canonical nfc).own.canonical nfc=v.canonical nfc

/-- Some value that differs from `v` only in member order or normalisation has another text. -/
def Confused (v : Json) : Prop :=
  ∃w : Json,w.Own ∧ w.Integral ∧ (v.normalized nfc).Same (w.normalized nfc) ∧
    v.canonical nfc≠w.canonical nfc

theorem roundTrip_twin {l m r : List (JsString × Json)} {a b : JsString × Json}
    (h : nfc.normalize a.1=nfc.normalize b.1) : ¬RoundTrip nfc (.obj (l++a::(m++b::r))) := by
  intro e
  simp only [RoundTrip,canonical_obj,Json.own,ownValues_map] at e
  have hl := congrArg List.length (Json.obj.inj e)
  have hp := sortedMembers_keys nfc (l++a::(m++b::r))
  generalize sortedMembers nfc (l++a::(m++b::r))=cs at hl hp
  have hd : ¬(cs.map Prod.fst).Nodup := by
    rw [hp.nodup_iff]
    simp [nodup_append,nodup_cons,h]
  rw [(sortedMembers_perm nfc _).length_eq,length_map,ownMembers,length_insertionSort] at hl
  have hlt : (assignAll (cs.map fun m => (m.1,m.2.own))).length <
      (cs.map fun m => (m.1,m.2.own)).length := assignAll_length (by rwa [map_map])
  rw [length_map] at hlt
  omega

theorem roundTrip_item {vs : List Json} (h : RoundTrip nfc (.arr vs)) :
    ∀v ∈ vs,RoundTrip nfc v := by
  simp only [RoundTrip,canonical_arr,Json.own,ownItems_map,map_map] at h
  exact map_inj_left.mp (Json.arr.inj h)

theorem roundTrip_member {ms : List (JsString × Json)} (hk : ((ms.map Prod.fst).map nfc.rank).Nodup)
    (h : RoundTrip nfc (.obj ms)) : ∀m ∈ ms,RoundTrip nfc m.2 := by
  have hn : (ms.map fun m => nfc.normalize m.1).Nodup := by
    rw [map_map] at hk
    refine List.Nodup.of_map utf8 ?_
    rwa [map_map]
  simp only [RoundTrip,canonical_obj,Json.own,ownValues_map] at h
  have h := Json.obj.inj h
  have hp := sortedMembers_perm nfc ms
  have hcs : ((sortedMembers nfc ms).map Prod.fst).Nodup :=
    (sortedMembers_keys nfc ms).nodup_iff.mpr hn
  generalize sortedMembers nfc ms=cs at h hp hcs
  have hown : (ownMembers (cs.map fun m => (m.1,m.2.own))).Perm (cs.map fun m => (m.1,m.2.own)) :=
    ownMembers_perm (by rwa [map_map])
  -- the members of both sides, up to order
  have hl := (hown.trans (hp.map _)).map fun m => (nfc.normalize m.1,m.2.canonical nfc)
  have hr := (sortedMembers_perm nfc _).symm.trans ((List.Perm.of_eq h).trans hp)
  have hperm := hl.symm.trans hr
  simp only [map_map,Function.comp_def,nfc.idempotent] at hperm
  intro m hm
  have hmem := hperm.mem_iff.mp (mem_map_of_mem hm)
  obtain ⟨n,hn',e⟩ := mem_map.mp hmem
  have hmn := inj_on_of_nodup_map hn hn' hm (Prod.mk.inj e).1
  rw [hmn] at e
  exact (Prod.mk.inj e).2.symm

theorem confused_item {l r : List Json} (ho : (Json.arr (l++v::r)).Own)
    (hi : (Json.arr (l++v::r)).Integral) (h : Confused nfc v) : Confused nfc (.arr (l++v::r)) := by
  obtain ⟨w,hwo,hwi,hs,hne⟩ := h
  have ho := (all_arr _).mp ho
  have hi := (all_arr _).mp hi
  have hmem : ∀x ∈ l++w::r,x=w ∨ x ∈ l++v::r := by
    intro x hx
    simp only [mem_append,mem_cons] at hx ⊢
    tauto
  refine ⟨.arr (l++w::r),(all_arr _).mpr fun x hx => ?_,(all_arr _).mpr fun x hx => ?_,?_,?_⟩
  · obtain rfl|hx := hmem x hx
    · exact hwo
    · exact ho x hx
  · obtain rfl|hx := hmem x hx
    · exact hwi
    · exact hi x hx
  · rw [Json.normalized,Json.normalized,normalizedItems_map,normalizedItems_map]
    refine (sameItems_iff _ _).mpr ?_
    simp only [map_append,map_cons]
    exact rel_append (forall₂_same.mpr fun x _ => .refl x)
      (.cons hs (forall₂_same.mpr fun x _ => .refl x))
  · intro e
    rw [canonical_arr,canonical_arr] at e
    have e := Json.arr.inj e
    simp only [map_append,map_cons] at e
    exact hne (List.cons.inj (append_cancel_left e)).1

theorem confused_member {l r : List (JsString × Json)}
    (ho : (Json.obj (l++(k,v)::r)).Own) (hi : (Json.obj (l++(k,v)::r)).Integral)
    (h : Confused nfc v) : Confused nfc (.obj (l++(k,v)::r)) := by
  obtain ⟨w,hwo,hwi,hs,hne⟩ := h
  obtain ⟨hk,ho⟩ := (all_obj _).mp ho
  have hi := ((all_obj _).mp hi).2
  have hmem : ∀x ∈ l++(k,w)::r,x=(k,w) ∨ x ∈ l++(k,v)::r := by
    intro x hx
    simp only [mem_append,mem_cons] at hx ⊢
    tauto
  refine ⟨.obj (l++(k,w)::r),(all_obj _).mpr ⟨by simpa using hk,fun x hx => ?_⟩,
    (all_obj _).mpr ⟨trivial,fun x hx => ?_⟩,?_,?_⟩
  · obtain rfl|hx := hmem x hx
    · exact hwo
    · exact ho x hx
  · obtain rfl|hx := hmem x hx
    · exact hwi
    · exact hi x hx
  · rw [Json.normalized,Json.normalized,normalizedMembers_map,normalizedMembers_map]
    refine ⟨_,.refl _,(sameMembers_iff _ _).mpr ?_⟩
    simp only [map_append,map_cons]
    exact rel_append (forall₂_same.mpr fun x _ => ⟨rfl,.refl _⟩)
      (.cons ⟨rfl,hs⟩ (forall₂_same.mpr fun x _ => ⟨rfl,.refl _⟩))
  · intro e
    rw [canonical_obj,canonical_obj] at e
    have hp := ((sortedMembers_perm nfc _).symm.trans (.of_eq (Json.obj.inj e))).trans
      (sortedMembers_perm nfc _)
    simp only [map_append,map_cons] at hp
    have hp := (perm_append_left_iff _).mp hp
    have hp : ([(nfc.normalize k,v.canonical nfc)]++_).Perm
      ([(nfc.normalize k,w.canonical nfc)]++_) := hp
    have hp := (perm_append_right_iff _).mp hp
    exact hne (Prod.mk.inj (singleton_perm_singleton.mp hp)).2

theorem confused_tie {l m r : List (JsString × Json)} {a b : JsString × Json}
    (ho : (Json.obj (l++a::(m++b::r))).Own) (hi : (Json.obj (l++a::(m++b::r))).Integral)
    (h : nfc.rank a.1=nfc.rank b.1) (hne : nfc.normalize a.1≠nfc.normalize b.1) :
    Confused nfc (.obj (l++a::(m++b::r))) := by
  obtain ⟨⟨hd,hk⟩,ho⟩ := (all_obj _).mp ho
  have hi := ((all_obj _).mp hi).2
  have hp : (l++b::(m++a::r)).Perm (l++a::(m++b::r)) := by
    refine List.Perm.append_left l ?_
    have hb : (b::(m++a::r)).Perm (b::a::(m++r)) := perm_middle.cons b
    have ha : (a::(m++b::r)).Perm (a::b::(m++r)) := perm_middle.cons a
    exact hb.trans ((List.Perm.swap ..).trans ha.symm)
  have ha := keyOrder_tie nfc h hne
  have hb := keyOrder_tie nfc h.symm hne.symm
  refine ⟨.obj (l++b::(m++a::r)),(all_obj _).mpr ⟨⟨?_,?_⟩,fun x hx => ho x (hp.mem_iff.mp hx)⟩,
    (all_obj _).mpr ⟨trivial,fun x hx => hi x (hp.mem_iff.mp hx)⟩,?_,canonical_swap nfc h hne⟩
  · exact (hp.map Prod.fst).nodup_iff.mpr hd
  · -- neither key is an index, so the enumeration order allows both sequences
    have hmap : ∀ks : List JsString,(ks.Pairwise fun a b => keyOrder a ≤ keyOrder b) ↔
      (ks.map keyOrder).Pairwise fun a b => a ≤ b := fun ks => pairwise_map.symm
    rw [hmap] at hk ⊢
    have e : ((l++b::(m++a::r)).map Prod.fst).map keyOrder=
        ((l++a::(m++b::r)).map Prod.fst).map keyOrder := by simp [ha,hb]
    rwa [e]
  · rw [Json.normalized,Json.normalized,normalizedMembers_map,normalizedMembers_map]
    exact ⟨_,(hp.map _).symm,(sameMembers_iff _ _).mpr (forall₂_same.mpr fun x _ => ⟨rfl,.refl _⟩)⟩

theorem confused_or_lost (ho : v.Own) (hi : v.Integral) (h : ¬v.Separated nfc) :
    Confused nfc v ∨ ¬RoundTrip nfc v := by
  induction v using Json.induct with
  | null => exact absurd trivial h
  | bool b => exact absurd trivial h
  | num q => exact absurd trivial h
  | str s => exact absurd trivial h
  | arr vs ih =>
    obtain ⟨v,hv,hs⟩ : ∃v ∈ vs,¬v.Separated nfc := by
      by_contra hn
      push Not at hn
      exact h ((all_arr vs).mpr hn)
    have hvo := (all_arr vs).mp ho v hv
    have hvi := (all_arr vs).mp hi v hv
    rcases ih v hv hvo hvi hs with hc|hr
    · obtain ⟨l,r,rfl⟩ := append_of_mem hv
      exact .inl (confused_item nfc ho hi hc)
    · exact .inr fun hn => hr (roundTrip_item nfc hn v hv)
  | obj ms ih =>
    by_cases hk : ((ms.map Prod.fst).map nfc.rank).Nodup
    · obtain ⟨n,hn,hs⟩ : ∃n ∈ ms,¬n.2.Separated nfc := by
        by_contra hn
        push Not at hn
        exact h ((all_obj ms).mpr ⟨hk,hn⟩)
      have hno := ((all_obj ms).mp ho).2 n hn
      have hni := ((all_obj ms).mp hi).2 n hn
      rcases ih n hn hno hni hs with hc|hr
      · obtain ⟨l,r,rfl⟩ := append_of_mem hn
        exact .inl (confused_member nfc ho hi hc)
      · exact .inr fun ht => hr (roundTrip_member nfc hk ht n hn)
    · obtain ⟨l,a,m,b,r,rfl,hab⟩ := tie_split nfc hk
      by_cases hne : nfc.normalize a.1=nfc.normalize b.1
      · exact .inr (roundTrip_twin nfc hne)
      · exact .inl (confused_tie nfc ho hi hab hne)

/-- `canonicalJson` is a canonical form at `v`: it identifies `v` with exactly the values that
agree up to normalisation and member order, and survives `JSON.parse`. -/
def CanonicalAt (v : Json) : Prop :=
  (∀w : Json,w.Own → w.Integral → (canonicalJson nfc v=canonicalJson nfc w ↔
    (v.normalized nfc).Same (w.normalized nfc))) ∧
  ∃text u,canonicalJson nfc v=.ok text ∧ jsonParse text=some u ∧ canonicalJson nfc u=.ok text

theorem own_integral (h : v.Integral) : v.own.Integral := by
  induction v using Json.induct with
  | null => trivial
  | bool b => trivial
  | num q => exact h
  | str s => trivial
  | arr vs ih =>
    have h := (all_arr _).mp h
    rw [Json.own,ownItems_map]
    refine (all_arr _).mpr fun w hw => ?_
    obtain ⟨v,hv,rfl⟩ := mem_map.mp hw
    exact ih v hv (h v hv)
  | obj ms ih =>
    obtain ⟨hk,hm⟩ := (all_obj _).mp h
    rw [Json.own,ownValues_map]
    refine (all_obj _).mpr ⟨trivial,fun n hn => ?_⟩
    obtain ⟨m,hm',rfl⟩ := mem_map.mp (assignAll_mem ((mem_insertionSort _).mp hn))
    exact ih m hm' (hm m hm')

theorem roundTrip_iff (h : v.Integral) : RoundTrip nfc v ↔ ∃text u,canonicalJson nfc v=.ok text ∧
    jsonParse text=some u ∧ canonicalJson nfc u=.ok text := by
  have hc := canonical_integral nfc h
  have hu := own_integral hc
  have hv : canonicalJson nfc v=.ok (v.canonical nfc).print := canonicalJsonAt_eq nfc h _
  have hw : canonicalJson nfc (v.canonical nfc).own=
      .ok ((v.canonical nfc).own.canonical nfc).print := canonicalJsonAt_eq nfc hu _
  constructor
  · intro hr
    rw [RoundTrip] at hr
    rw [hr] at hw
    exact ⟨_,_,hv,jsonParse_canonical nfc h,hw⟩
  · rintro ⟨text,u,ht,hp,hs⟩
    rw [hv] at ht
    cases ht
    rw [jsonParse_canonical nfc h] at hp
    cases hp
    rw [hw] at hs
    exact print_inj (canonical_integral nfc hu) hc (Except.ok.inj hs)

/-- `canonicalJson` is canonical exactly where no object has two keys of one rank. -/
theorem canonicalJson_canonical_iff {v : Json} (ho : v.Own) (hi : v.Integral) :
    CanonicalAt nfc v ↔ v.Separated nfc := by
  constructor
  · intro ⟨hc,hr⟩
    by_contra hs
    rcases confused_or_lost nfc ho hi hs with ⟨w,hwo,hwi,hsame,hne⟩|hl
    · exact hne ((canonicalJson_eq_iff nfc hi hwi).mp ((hc w hwo hwi).mpr hsame))
    · exact hl ((roundTrip_iff nfc hi).mpr hr)
  · intro hs
    refine ⟨fun w hwo hwi => ?_,(roundTrip_iff nfc hi).mp (canonical_own nfc hs)⟩
    rw [canonicalJson_eq_iff nfc hi hwi]
    exact ⟨same_of_sortKeys nfc,sortKeys_of_same nfc ((normalized_separated nfc v).mpr hs)⟩

/-- The composition of `e` with a combining acute accent, the one the examples below need. -/
def composeAcute : JsString → JsString
  | 101::769::us => 233::composeAcute us
  | u::us => u::composeAcute us
  | [] => []

theorem composeAcute_head {us vs : JsString} (h : composeAcute us=769::vs) : ∃ws,us=769::ws := by
  unfold composeAcute at h
  split at h
  · simp at h
  · exact ⟨_,by rw [(List.cons.inj h).1]⟩
  · cases h

theorem composeAcute_idempotent (s : JsString) : composeAcute (composeAcute s)=composeAcute s := by
  induction s using composeAcute.induct with
  | case1 us ih => simp [composeAcute,ih]
  | case2 u us hn ih =>
    rw [composeAcute]
    · rw [composeAcute,ih]
      intro vs hu hvs
      obtain ⟨ws,rfl⟩ := composeAcute_head hvs
      exact hn ws hu rfl
    · exact hn
  | case3 => rfl

theorem composeAcute_ascii (h : isAscii s=true) : composeAcute s=s := by
  induction s using composeAcute.induct with
  | case1 us ih => simp [isAscii] at h
  | case2 u us hn ih => rw [composeAcute,ih ((isAscii_cons u us).mp h).2]; exact hn
  | case3 => rfl

def acute : Nfc := ⟨composeAcute,composeAcute_idempotent,fun _ => composeAcute_ascii⟩

theorem canonicalJson_canonical_separated : CanonicalAt acute
    (.obj [([97],.num 1),([233],.arr [.str [101,769],.null])]) := by
  refine (canonicalJson_canonical_iff acute ?_ ?_).mpr ?_
  · exact ⟨⟨by decide,by decide⟩,trivial,⟨trivial,trivial,trivial⟩,trivial⟩
  · exact ⟨trivial,rfl,⟨trivial,trivial,trivial⟩,trivial⟩
  · exact ⟨by decide,trivial,⟨trivial,trivial,trivial⟩,trivial⟩

/-- Two spellings of one key: the text follows the insertion order and repeats the member. -/
theorem canonicalJson_insertion_order :
    canonicalJson acute (.obj [([233],.num 1),([101,769],.num 2)])=
      .ok (js ['{','"','é','"',':','1',',','"','é','"',':','2','}']) ∧
    canonicalJson acute (.obj [([101,769],.num 2),([233],.num 1)])=
      .ok (js ['{','"','é','"',':','2',',','"','é','"',':','1','}']) ∧
    ¬CanonicalAt acute (.obj [([233],.num 1),([101,769],.num 2)]) := by
  have h1 : canonicalJson acute (.obj [([233],.num 1),([101,769],.num 2)])=
      .ok (js ['{','"','é','"',':','1',',','"','é','"',':','2','}']) := by decide
  have h2 : canonicalJson acute (.obj [([101,769],.num 2),([233],.num 1)])=
      .ok (js ['{','"','é','"',':','2',',','"','é','"',':','1','}']) := by decide
  refine ⟨h1,h2,fun hc => ?_⟩
  have hs : ((Json.obj [([233],.num 1),([101,769],.num 2)]).normalized acute).Same
      ((Json.obj [([101,769],.num 2),([233],.num 1)]).normalized acute) :=
    ⟨_,List.Perm.swap ..,by simp [SameMembers,Json.Same,Json.normalized,normalizedMembers]⟩
  have ho : (Json.obj [([101,769],.num 2),([233],.num 1)]).Own :=
    ⟨⟨by decide,by decide⟩,trivial,trivial,trivial⟩
  have hi : (Json.obj [([101,769],.num 2),([233],.num 1)]).Integral := ⟨trivial,rfl,rfl,trivial⟩
  have e := (hc.1 _ ho hi).mpr hs
  rw [h1,h2] at e
  revert e
  decide

end CardKeepr.Shared
