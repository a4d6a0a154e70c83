import CardKeepr.Reconciliation.Text
import CardKeepr.Shared.CanonicalForm

namespace CardKeepr.Reconciliation

open Lib Shared List

section
variable (nfc : Nfc)
variable {k text : JsString}

/-- The value that the canonical text of a record reads back as. -/
def readBack (v : Json) : Json := (v.canonical nfc).own

def PathKey.normalized : PathKey → PathKey
  | .name k => .name (nfc.normalize k)
  | .index n => .index n

mutual

/-- The record with the long strings outside `kept` left out, by their normalised paths. -/
def blank (kept : List PathKey → Bool) (path : List PathKey) : Json → Json
  | .str s => if s.length > 32768 ∧ kept path=false then .null else .str s
  | .arr vs => .arr (blankItems kept path 0 vs)
  | .obj ms => .obj (blankMembers kept path ms)
  | .null => .null
  | .bool b => .bool b
  | .num q => .num q

def blankItems (kept : List PathKey → Bool) (path : List PathKey) (index : Nat) :
    List Json → List Json
  | [] => []
  | v::vs => blank kept (path++[.index index]) v::blankItems kept path (index+1) vs

def blankMembers (kept : List PathKey → Bool) (path : List PathKey) :
    List (JsString × Json) → List (JsString × Json)
  | [] => []
  | (k,v)::ms => (k,blank kept (path++[.name (nfc.normalize k)]) v)::blankMembers kept path ms

end

variable {nfc}

attribute [local simp] blank blankItems blankMembers visit visitItems visitMembers setPath

theorem blankMembers_map (kept : List PathKey → Bool) (path : List PathKey)
    (ms : List (JsString × Json)) : blankMembers nfc kept path ms=
      ms.map fun m => (m.1,blank nfc kept (path++[.name (nfc.normalize m.1)]) m.2) := by
  induction ms with
  | nil => rfl
  | cons m ms ih => rw [blankMembers,ih,map_cons]

theorem blankItems_map (kept : List PathKey → Bool) (path : List PathKey) (index : Nat)
    (vs : List Json) : blankItems nfc kept path index vs=
      (vs.zipIdx index).map fun v => blank nfc kept (path++[.index v.2]) v.1 := by
  induction vs generalizing index with
  | nil => rfl
  | cons v vs ih => rw [blankItems,ih,zipIdx_cons,map_cons]

theorem visitMembers_map (path : List PathKey) (ms : List (JsString × Json)) :
    visitMembers nfc path ms=
      (ms.map fun m => (m.1,(visit nfc (path++[.name m.1]) m.2).1),
        ms.flatMap fun m => (visit nfc (path++[.name m.1]) m.2).2) := by
  induction ms with
  | nil => rfl
  | cons m ms ih => rw [visitMembers,ih]; rfl

theorem visitItems_map (path : List PathKey) (index : Nat) (vs : List Json) :
    visitItems nfc path index vs=
      ((vs.zipIdx index).map fun v => (visit nfc (path++[.index v.2]) v.1).1,
        (vs.zipIdx index).flatMap fun v => (visit nfc (path++[.index v.2]) v.1).2) := by
  induction vs generalizing index with
  | nil => rfl
  | cons v vs ih => rw [visitItems,ih,zipIdx_cons]; rfl

variable {path : List PathKey}

theorem blank_congr {kept kept' : List PathKey → Bool} (v : Json)
    (h : ∀r,kept (path++r)=kept' (path++r)) : blank nfc kept path v=blank nfc kept' path v := by
  induction v using Json.induct generalizing path with
  | null => rfl
  | bool b => rfl
  | num q => rfl
  | str s =>
    have := h []
    rw [append_nil] at this
    rw [blank,blank,this]
  | arr vs ih =>
    rw [blank,blank,blankItems_map,blankItems_map]
    refine congrArg _ (map_congr_left fun v hv => ?_)
    exact ih v.1 (fst_mem_of_mem_zipIdx hv) fun r => by
      rw [append_assoc]
      exact h _
  | obj ms ih =>
    rw [blank,blank,blankMembers_map,blankMembers_map]
    refine congrArg _ (map_congr_left fun m hm => ?_)
    rw [ih m hm fun r => by rw [append_assoc]; exact h _]

theorem blank_whole {kept : List PathKey → Bool} (v : Json) {path raw : List PathKey}
    (hraw : raw.map (PathKey.normalized nfc)=path)
    (h : ∀t∈(visit nfc raw v).2,kept (t.path.map (PathKey.normalized nfc))=true) :
    blank nfc kept path v=v := by
  induction v using Json.induct generalizing path raw with
  | null => rfl
  | bool b => rfl
  | num q => rfl
  | str s =>
    rw [blank]
    split
    · rename_i hs
      rw [visit,if_pos hs.1] at h
      have := h _ (mem_singleton.mpr rfl)
      rw [hraw,hs.2] at this
      cases this
    · rfl
  | arr vs ih =>
    rw [visit,visitItems_map] at h
    rw [blank,blankItems_map]
    refine congrArg _ ?_
    conv_rhs => rw [←zipIdx_map_fst 0 vs]
    refine map_congr_left fun v hv => ?_
    have hv1 := fst_mem_of_mem_zipIdx hv
    refine @ih v.1 hv1 _ (raw++[.index v.2]) ?_ fun t ht => ?_
    · rw [map_append,hraw]; rfl
    · exact h t (mem_flatMap.mpr ⟨v,hv,ht⟩)
  | obj ms ih =>
    rw [visit,visitMembers_map] at h
    rw [blank,blankMembers_map]
    refine congrArg _ ?_
    conv_rhs => rw [←map_id ms]
    refine map_congr_left fun m hm => ?_
    rw [@ih m hm _ (raw++[.name m.1]) (by rw [map_append,hraw]; rfl) fun t ht =>
      h t (mem_flatMap.mpr ⟨m,hm,ht⟩)]
    rfl

theorem visit_blank (v : Json) (raw path : List PathKey) :
    (visit nfc raw v).1=blank nfc (fun _ => false) path v := by
  induction v using Json.induct generalizing raw path with
  | null => rfl
  | bool b => rfl
  | num q => rfl
  | str s =>
    rw [visit,blank]
    by_cases hs : s.length > 32768
    · rw [if_pos hs,if_pos ⟨hs,rfl⟩]
    · rw [if_neg hs,if_neg fun h => hs h.1]
  | arr vs ih =>
    rw [visit,visitItems_map,blank,blankItems_map]
    exact congrArg _ (map_congr_left fun v hv => ih v.1 (fst_mem_of_mem_zipIdx hv) _ _)
  | obj ms ih =>
    rw [visit,visitMembers_map,blank,blankMembers_map]
    exact congrArg _ (map_congr_left fun m hm => by rw [ih m hm])

theorem readBack_arr (vs : List Json) : readBack nfc (.arr vs)=.arr (vs.map (readBack nfc)) := by
  rw [readBack,canonical_arr,Json.own,ownItems_map,map_map]
  rfl

variable (nfc)

/-- The order in which the members of a read back object are enumerated; only keys decide it. -/
def arrange (ms : List (JsString × Json)) : List (JsString × Json) :=
  (ms.insertionSort fun a b => compareUtf8 nfc a.1 b.1 ≤ 0).insertionSort fun a b =>
    keyOrder (nfc.normalize a.1) ≤ keyOrder (nfc.normalize b.1)

variable {nfc}

theorem arrange_perm (ms : List (JsString × Json)) : (arrange nfc ms).Perm ms :=
  (perm_insertionSort _ _).trans (perm_insertionSort _ _)

theorem arrange_map (f : JsString × Json → Json) (ms : List (JsString × Json)) :
    arrange nfc (ms.map fun m => (m.1,f m))=(arrange nfc ms).map fun m => (m.1,f m) := by
  rw [arrange,arrange,←map_insertionSort (fun a b : JsString × Json => compareUtf8 nfc a.1 b.1 ≤ 0)
    (fun a b : JsString × Json => compareUtf8 nfc a.1 b.1 ≤ 0) (fun m => (m.1,f m)) ms
    fun _ _ _ _ => Iff.rfl]
  exact (map_insertionSort
    (fun a b : JsString × Json => keyOrder (nfc.normalize a.1) ≤ keyOrder (nfc.normalize b.1))
    (fun a b : JsString × Json => keyOrder (nfc.normalize a.1) ≤ keyOrder (nfc.normalize b.1))
    (fun m => (m.1,f m)) _ fun _ _ _ _ => Iff.rfl).symm

theorem readBack_obj {ms : List (JsString × Json)}
    (h : (ms.map fun m => nfc.normalize m.1).Nodup) : readBack nfc (.obj ms)=
      .obj ((arrange nfc ms).map fun m => (nfc.normalize m.1,readBack nfc m.2)) := by
  have hkeys : (((sortedMembers nfc ms).map fun m => (m.1,m.2.own)).map Prod.fst).Nodup := by
    rw [map_map]
    exact (sortedMembers_keys nfc ms).nodup_iff.mpr h
  rw [readBack,canonical_obj,Json.own,ownValues_map,ownMembers,assignAll_of_nodup hkeys,
    sortedMembers,map_map,arrange]
  exact congrArg _ (map_insertionSort
    (fun a b : JsString × Json => keyOrder (nfc.normalize a.1) ≤ keyOrder (nfc.normalize b.1))
    (fun a b : JsString × Json => keyOrder a.1 ≤ keyOrder b.1)
    (fun m => (nfc.normalize m.1,readBack nfc m.2)) _ fun _ _ _ _ => Iff.rfl).symm

theorem assign_at {x y : Json} {l r : List (JsString × Json)}
    (h : k∉l.map Prod.fst) : assign k y (l++(k,x)::r)=l++(k,y)::r := by
  induction l with
  | nil => simp [assign]
  | cons m l ih =>
    simp only [map_cons,mem_cons,not_or] at h
    rw [cons_append,assign,if_neg (Ne.symm h.1),ih h.2]
    rfl

theorem setMember_at {x : Json} {l r : List (JsString × Json)} (h : k∉l.map Prod.fst) :
    setMember text path k (l++(k,x)::r)=(setPath text path x).map fun y => l++(k,y)::r := by
  induction l with
  | nil =>
    rw [nil_append,setMember,if_pos rfl]
    rfl
  | cons m l ih =>
    simp only [map_cons,mem_cons,not_or] at h
    obtain ⟨k',w⟩ := m
    rw [cons_append,setMember,if_neg (Ne.symm h.1),ih h.2,Option.map_map]
    rfl

theorem setPath_member {x : Json} {l r : List (JsString × Json)}
    (h : OwnKeys ((l++(k,x)::r).map Prod.fst)) : setPath text (.name k::path) (.obj (l++(k,x)::r))=
    (setPath text path x).map fun y => .obj (l++(k,y)::r) := by
  have hl : k∉l.map Prod.fst := by
    have := h.1
    rw [map_append,nodup_append] at this
    intro hk
    exact this.2.2 k hk k (by simp) rfl
  rw [setPath]
  split
  · rename_i hp
    subst hp
    rw [ownMembers,assignAll_append,assignAll_of_nodup h.1,foldl_cons,foldl_nil,
      assign_at hl,setPath,Option.map_some]
    have hsorted := h.2
    rw [pairwise_map] at hsorted
    have hsorted2 : (l++(k,Json.str text)::r).Pairwise fun a b => keyOrder a.1 ≤ keyOrder b.1 := by
      rw [pairwise_append,pairwise_cons] at hsorted ⊢
      obtain ⟨h1,⟨h2,h3⟩,h4⟩ := hsorted
      refine ⟨h1,⟨h2,h3⟩,fun a ha b hb => ?_⟩
      rcases mem_cons.mp hb with rfl | hb
      · exact h4 a ha (k,x) (by simp)
      · exact h4 a ha b (by simp [hb])
    rw [hsorted2.insertionSort_eq]
  · rw [setMember_at hl,Option.map_map]
    rfl

theorem setItem_at {l r : List Json} {x : Json} :
    setItem text path l.length (l++x::r)=(setPath text path x).map fun y => l++y::r := by
  induction l with
  | nil => rw [nil_append,length_nil,setItem]; rfl
  | cons v l ih =>
    rw [cons_append,length_cons,setItem,ih,Option.map_map]
    rfl

theorem separated_keys {ms : List (JsString × Json)} (h : (Json.obj ms).Separated nfc) :
    (ms.map fun m => nfc.normalize m.1).Nodup := by
  have hk := ((all_obj ms).mp h).1
  rw [map_map] at hk
  refine List.Nodup.of_map utf8 ?_
  rwa [map_map]

theorem map_split {α β : Type} {l : List α} {x : α} (hl : l.Nodup) (hx : x∈l) {f g : α → β}
    (h : ∀y∈l,y≠x → f y=g y) : ∃a b,l=a++x::b ∧ l.map f=a.map f++f x::b.map f ∧
      l.map g=a.map f++g x::b.map f := by
  obtain ⟨a,b,rfl⟩ := append_of_mem hx
  refine ⟨a,b,rfl,by simp,?_⟩
  rw [nodup_append,nodup_cons] at hl
  have ha : a.map f=a.map g := map_congr_left fun y hy =>
    h y (by simp [hy]) fun e => hl.2.2 y hy x (by simp) e
  have hb : b.map f=b.map g := map_congr_left fun y hy =>
    h y (by simp [hy]) fun e => hl.2.1.1 (e ▸ hy)
  rw [ha,hb,map_append,map_cons]

theorem zipIdx_nodup (vs : List Json) : (vs.zipIdx.map Prod.snd).Nodup := by
  rw [zipIdx_map_snd]
  exact nodup_range'

theorem zipIdx_place {vs : List Json} {a b : List (Json × Nat)} {w : Json} {i : Nat}
    (h : vs.zipIdx=a++(w,i)::b) : a.length=i := by
  have hget : (vs.zipIdx)[a.length]?=some (w,i) := by rw [h]; simp
  rw [List.getElem?_zipIdx] at hget
  obtain ⟨x,-,hx⟩ := Option.map_eq_some_iff.mp hget
  simp only [Prod.mk.injEq] at hx
  omega

/-- Putting a long string back at its path: the rest of the record is as it was. -/
theorem setPath_readBack (v : Json) (hs : v.Separated nfc) {raw : List PathKey} {t : LongText}
    (ht : t∈(visit nfc raw v).2) (kept : List PathKey → Bool) :
    ∃r,t.path=raw++r ∧ setPath t.normalized (r.map (PathKey.normalized nfc))
        (readBack nfc (blank nfc kept (raw.map (PathKey.normalized nfc)) v))=
      some (readBack nfc (blank nfc (fun p => kept p || p==t.path.map (PathKey.normalized nfc))
        (raw.map (PathKey.normalized nfc)) v)) := by
  induction v using Json.induct generalizing raw with
  | null => exact (not_mem_nil ht).elim
  | bool b => exact (not_mem_nil ht).elim
  | num q => exact (not_mem_nil ht).elim
  | str s =>
    rw [visit] at ht
    split at ht
    · obtain rfl := mem_singleton.mp ht
      refine ⟨[],by simp,?_⟩
      have hkept : blank nfc (fun p => kept p || p==raw.map (PathKey.normalized nfc))
          (raw.map (PathKey.normalized nfc)) (.str s)=.str s := by
        rw [blank,if_neg (by simp)]
      rw [map_nil,setPath,hkept]
      rfl
    · exact (not_mem_nil ht).elim
  | arr vs ih =>
    rw [visit,visitItems_map] at ht
    obtain ⟨⟨w,i⟩,hw,htw⟩ := mem_flatMap.mp ht
    have hwv := fst_mem_of_mem_zipIdx hw
    obtain ⟨r,hr,hset⟩ := ih w hwv ((all_arr vs).mp hs w hwv) htw
    refine ⟨.index i::r,by rw [hr]; simp,?_⟩
    have hother : ∀y∈vs.zipIdx,y≠(w,i) →
        readBack nfc (blank nfc kept (raw.map (PathKey.normalized nfc)++[.index y.2]) y.1)=
        readBack nfc (blank nfc (fun p => kept p || p==t.path.map (PathKey.normalized nfc))
          (raw.map (PathKey.normalized nfc)++[.index y.2]) y.1) := by
      intro y hy hne
      refine congrArg _ (blank_congr y.1 fun q => ?_)
      have hi : y.2≠i := fun e => hne (inj_on_of_nodup_map (zipIdx_nodup vs) hy hw e)
      simp [hr,PathKey.normalized,hi]
    obtain ⟨a,b,hl,hf,hg⟩ := map_split (List.Nodup.of_map _ (zipIdx_nodup vs)) hw hother
    rw [blank,blank,readBack_arr,readBack_arr,blankItems_map,blankItems_map,map_map,map_map]
    simp only [Function.comp_def]
    rw [hf,hg,map_cons,PathKey.normalized,setPath,
      ←zipIdx_place hl,←length_map (f := fun y : Json × Nat => readBack nfc
        (blank nfc kept (raw.map (PathKey.normalized nfc)++[.index y.2]) y.1)),setItem_at]
    rw [map_append] at hset
    have hset' := hset
    simp only [map_cons,map_nil,PathKey.normalized] at hset'
    rw [length_map,zipIdx_place hl,hset']
    rfl
  | obj ms ih =>
    rw [visit,visitMembers_map] at ht
    obtain ⟨⟨k,w⟩,hw,htw⟩ := mem_flatMap.mp ht
    obtain ⟨r,hr,hset⟩ := ih (k,w) hw (((all_obj ms).mp hs).2 (k,w) hw) htw
    refine ⟨.name k::r,by rw [hr]; simp,?_⟩
    have hkeys := separated_keys hs
    have harr : ((arrange nfc ms).map fun m => nfc.normalize m.1).Nodup :=
      ((arrange_perm ms).map _).nodup_iff.mpr hkeys
    have hin : (k,w)∈arrange nfc ms := (arrange_perm ms).mem_iff.mpr hw
    have hother : ∀y∈arrange nfc ms,y≠(k,w) →
        (nfc.normalize y.1,readBack nfc (blank nfc kept
          (raw.map (PathKey.normalized nfc)++[.name (nfc.normalize y.1)]) y.2))=
        (nfc.normalize y.1,readBack nfc (blank nfc
          (fun p => kept p || p==t.path.map (PathKey.normalized nfc))
          (raw.map (PathKey.normalized nfc)++[.name (nfc.normalize y.1)]) y.2)) := by
      intro y hy hne
      refine congrArg _ (congrArg _ (blank_congr y.2 fun q => ?_))
      have hi : nfc.normalize y.1≠nfc.normalize k := fun e =>
        hne (inj_on_of_nodup_map harr hy hin e)
      simp [hr,PathKey.normalized,hi]
    obtain ⟨a,b,hl,hf,hg⟩ := map_split (List.Nodup.of_map _ harr) hin hother
    have hread : ∀kept,readBack nfc (blank nfc kept (raw.map (PathKey.normalized nfc)) (.obj ms))=
        .obj ((arrange nfc ms).map fun m => (nfc.normalize m.1,readBack nfc (blank nfc kept
          (raw.map (PathKey.normalized nfc)++[.name (nfc.normalize m.1)]) m.2))) := by
      intro kept
      have harm : arrange nfc (ms.map fun m => (m.1,blank nfc kept
          (raw.map (PathKey.normalized nfc)++[.name (nfc.normalize m.1)]) m.2))=_ :=
        arrange_map _ ms
      rw [blank,blankMembers_map,readBack_obj (by rw [map_map]; exact hkeys),harm,
        map_map]
      rfl
    have hown : OwnKeys (((arrange nfc ms).map fun m => (nfc.normalize m.1,readBack nfc (blank nfc
        kept (raw.map (PathKey.normalized nfc)++[.name (nfc.normalize m.1)]) m.2))).map
          Prod.fst) := by
      have : (readBack nfc (blank nfc kept (raw.map (PathKey.normalized nfc)) (.obj ms))).Own :=
        Json.own_Own _
      rw [hread kept] at this
      exact ((all_obj _).mp this).1
    rw [hread,hread,hg,map_cons,PathKey.normalized]
    rw [hf] at hown ⊢
    rw [setPath_member hown]
    have hset' := hset
    simp only [map_append,map_cons,map_nil,PathKey.normalized] at hset'
    rw [hset']
    rfl

end

end CardKeepr.Reconciliation
