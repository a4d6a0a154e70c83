import CardKeepr.Shared.Values
import Mathlib.Data.Set.Insert

namespace CardKeepr.Shared.JsonPointer

open List

variable {κ : Kind} {j k : JsString} {a b c o t v t' : Value}

abbrev Path := List JsString

/-- `text.replaceAll(ab, c)` for a pair of code units. -/
def replacePair (a b c : UInt16) : JsString → JsString
  | [] => []
  | [u] => [u]
  | u::v::us => if u=a ∧ v=b then c::replacePair a b c us else u::replacePair a b c (v::us)

/-- The parts of a JSON pointer: `~1` and `~0` stand for `/` and `~`. -/
def pointerParts (path : JsString) : Path :=
  ((path.drop 1).splitOn 47).map fun part => replacePair 126 48 126 (replacePair 126 49 47 part)

/-- An assignment keeps the place of a member that is there and appends one that is not. -/
def setMember (k : JsString) (v : Value) : List (JsString × Value) → List (JsString × Value)
  | [] => [(k,v)]
  | m::ms => if m.1=k then (k,v)::ms else m::setMember k v ms

def removeMember (k : JsString) (ms : List (JsString × Value)) : List (JsString × Value) :=
  ms.filter fun m => m.1≠k

def valueAt : Path → Value → Option Value
  | [],v => some v
  | k::p,.own _ ms => match lookupMember k ms with
    | some c => valueAt p c
    | none => none
  | _::_,_ => none

/-- An assignment; it throws when a parent is neither an object nor an array. -/
def setAt : Path → Value → Value → Option Value
  | [k],v,.own κ ms => some (.own (κ.grown k ms) (setMember k v ms))
  | k::k'::p,v,.own κ ms => match lookupMember k ms with
    | some c => (setAt (k'::p) v c).map fun c => .own κ (setMember k c ms)
    | none => none
  | _,_,_ => none

/-- A deletion; it returns quietly when a parent is not there, and leaves an array its length. -/
def deleteAt : Path → Value → Value
  | [k],.own κ ms => .own κ (removeMember k ms)
  | k::k'::p,.own κ ms => match lookupMember k ms with
    | some c => .own κ (setMember k (deleteAt (k'::p) c) ms)
    | none => .own κ ms
  | _,t => t

def under (K : Set Path) (k : JsString) : Set Path := { p | k::p∈K }

/-- The paths of a set that do not lead through `p`. -/
def without (K : Set Path) (p : Path) : Set Path := { q∈K | ¬p<+:q }

/-- `Over K L a b`: the value `b` is `a` but for what stands at the paths of `K` and the lengths of
the arrays at the paths of `L`. -/
inductive Over : Set Path → Set Path → Value → Value → Prop where
  | touched {K L : Set Path} (a b : Value) (h : []∈K) : Over K L a b
  | same (K L : Set Path) (a : Value) : Over K L a a
  | members {K L : Set Path} {κ κ' : Kind} {ms ns extra : List (JsString × Value)}
      (hκ : κ'≠κ → []∈L) (hk : ns.map Prod.fst=ms.map Prod.fst)
      (hm : ∀(i : Nat) (x y : JsString × Value),ms[i]?=some x → ns[i]?=some y →
        (ms.map Prod.fst).idxOf x.1=i → Over (under K x.1) (under L x.1) x.2 y.2)
      (hd : ∀(i : Nat) (x y : JsString × Value),ms[i]?=some x → ns[i]?=some y →
        (ms.map Prod.fst).idxOf x.1≠i → x.2=y.2)
      (he : ∀e∈extra,e.1∉ms.map Prod.fst ∧ [e.1]∈K) :
      Over K L (.own κ ms) (.own κ' (ns++extra))

/-- The array above the end of the path, which an assignment there makes longer. -/
def grows (p : Path) (a : Value) : Set Path :=
  { q | ∃k κ ms,p=q++[k] ∧ valueAt q a=some (.own κ ms) ∧ κ.grown k ms≠κ }

theorem lookupMember_none {ms : List (JsString × Value)} :
    lookupMember k ms=none ↔ k∉ms.map Prod.fst := by
  induction ms with
  | nil => simp [lookupMember]
  | cons m ms ih =>
    by_cases h : m.1=k
    · simp [lookupMember,h]
    · simp only [lookupMember,if_neg h,ih,map_cons,mem_cons,not_or]
      exact ⟨fun hm => ⟨fun hk => h hk.symm,hm⟩,fun hm => hm.2⟩

theorem setMember_map_fst {ms : List (JsString × Value)}
    (h : k∈ms.map Prod.fst) : (setMember k v ms).map Prod.fst=ms.map Prod.fst := by
  induction ms with
  | nil => simp at h
  | cons m ms ih =>
    by_cases hk : m.1=k
    · simp [setMember,hk]
    · have hms : k∈ms.map Prod.fst := by
        rcases mem_cons.mp h with h | h
        · exact absurd h.symm hk
        · exact h
      simp [setMember,hk,ih hms]

theorem setMember_append_left {ms es : List (JsString × Value)}
    (h : k∈ms.map Prod.fst) : setMember k v (ms++es)=setMember k v ms++es := by
  induction ms with
  | nil => simp at h
  | cons m ms ih =>
    by_cases hk : m.1=k
    · simp [setMember,hk]
    · have hms : k∈ms.map Prod.fst := by
        rcases mem_cons.mp h with h | h
        · exact absurd h.symm hk
        · exact h
      simp [setMember,hk,ih hms]

theorem setMember_append_right {ms es : List (JsString × Value)}
    (h : k∉ms.map Prod.fst) : setMember k v (ms++es)=ms++setMember k v es := by
  induction ms with
  | nil => rfl
  | cons m ms ih =>
    have hk : m.1≠k := fun hk => h (by simp [hk])
    have hms : k∉ms.map Prod.fst := fun hms => h (by simp only [map_cons,mem_cons]; exact Or.inr hms)
    simp [setMember,hk,ih hms]

theorem lookupMember_append_left {ms es : List (JsString × Value)}
    (h : k∈ms.map Prod.fst) : lookupMember k (ms++es)=lookupMember k ms := by
  induction ms with
  | nil => simp at h
  | cons m ms ih =>
    by_cases hk : m.1=k
    · simp [lookupMember,hk]
    · have hms : k∈ms.map Prod.fst := by
        rcases mem_cons.mp h with h | h
        · exact absurd h.symm hk
        · exact h
      simp [lookupMember,hk,ih hms]

theorem mem_setMember {ms : List (JsString × Value)}
    {m : JsString × Value} (h : m∈setMember k v ms) : m.1=k ∨ m∈ms := by
  induction ms with
  | nil => exact Or.inl (by rw [mem_singleton.mp h])
  | cons n ms ih =>
    by_cases hk : n.1=k
    · rw [setMember,if_pos hk] at h
      rcases mem_cons.mp h with rfl | h
      · exact Or.inl rfl
      · exact Or.inr (mem_cons_of_mem _ h)
    · rw [setMember,if_neg hk] at h
      rcases mem_cons.mp h with rfl | h
      · exact Or.inr mem_cons_self
      · rcases ih h with h | h
        · exact Or.inl h
        · exact Or.inr (mem_cons_of_mem _ h)

theorem setMember_getElem? (v : Value) {ms : List (JsString × Value)} (h : k∈ms.map Prod.fst) :
    ∃c,ms[(ms.map Prod.fst).idxOf k]?=some (k,c) ∧ lookupMember k ms=some c ∧
    (setMember k v ms)[(ms.map Prod.fst).idxOf k]?=some (k,v) ∧ ∀j : Nat,j≠(ms.map Prod.fst).idxOf
    k → (setMember k v ms)[j]?=ms[j]? := by
  induction ms with
  | nil => simp at h
  | cons m ms ih =>
    obtain ⟨k',c⟩ := m
    by_cases hk : k'=k
    · subst hk
      refine ⟨c,by simp,by simp [lookupMember],by simp [setMember],?_⟩
      intro j hj
      cases j with
      | zero => simp at hj
      | succ j => simp [setMember]
    · have hms : k∈ms.map Prod.fst := by
        rcases mem_cons.mp h with h | h
        · exact absurd h.symm hk
        · exact h
      obtain ⟨d,hi,hl,hs,ho⟩ := ih hms
      have hidx : (((k',c)::ms).map Prod.fst).idxOf k=(ms.map Prod.fst).idxOf k+1 := by
        simp [hk]
      rw [hidx]
      refine ⟨d,by simpa using hi,by simp [lookupMember,hk,hl],by simpa [setMember,hk] using hs,?_⟩
      intro j hj
      cases j with
      | zero => simp [setMember,hk]
      | succ j => simpa [setMember,hk] using ho j (by omega)

variable {K L : Set Path}

theorem Over.eq (h : Over K L a b) (hK : K=∅) (hL : L=∅) : a=b := by
  induction h with
  | touched a b h => rw [hK] at h; cases h
  | same => rfl
  | @members K L κ κ' ms ns extra hκ hk hm hd he ih =>
    have hkind : κ'=κ := by
      by_contra hne
      have := hκ hne
      rw [hL] at this
      cases this
    have hextra : extra=[] := by
      apply eq_nil_iff_forall_not_mem.mpr
      intro e hmem
      have := (he e hmem).2
      rw [hK] at this
      cases this
    have hns : ns=ms := by
      apply List.ext_getElem?
      intro i
      have hkey : (ns[i]?).map Prod.fst=(ms[i]?).map Prod.fst := by
        rw [← List.getElem?_map,← List.getElem?_map,hk]
      cases hx : ms[i]? with
      | none =>
        rw [hx] at hkey
        cases hy : ns[i]? with
        | none => rfl
        | some y => rw [hy] at hkey; cases hkey
      | some x =>
        rw [hx] at hkey
        cases hy : ns[i]? with
        | none => rw [hy] at hkey; cases hkey
        | some y =>
          rw [hy] at hkey
          have hfst : y.1=x.1 := by simpa using hkey
          have hsnd : x.2=y.2 := by
            by_cases hi : (ms.map Prod.fst).idxOf x.1=i
            · apply ih i x y hx hy hi
              · rw [hK]
                rfl
              · rw [hL]
                rfl
            · exact hd i x y hx hy hi
          rw [Prod.ext hfst hsnd.symm]
    rw [hextra,append_nil,hns,hkind]

theorem Over.mono {a b : Value} {K L K' L' : Set Path} (h : Over K L a b) (hK : K⊆K')
    (hL : L⊆L') : Over K' L' a b := by
  induction h generalizing K' L' with
  | touched a b h => exact .touched a b (hK h)
  | same => exact .same _ _ _
  | members hκ hk hm hd he ih =>
    refine .members (fun hne => hL (hκ hne)) hk ?_ hd ?_
    · intro i x y hx hy hi
      exact ih i x y hx hy hi (fun p hp => hK hp) fun p hp => hL hp
    · intro e hmem
      exact ⟨(he e hmem).1,hK (he e hmem).2⟩

theorem Over.own {ms : List (JsString × Value)}
    (h : Over K L (.own κ ms) b) (hK : []∉K) : ∃κ' ns extra,b=.own κ' (ns++extra) ∧
      (κ'≠κ → []∈L) ∧ ns.map Prod.fst=ms.map Prod.fst ∧
      (∀(i : Nat) (x y : JsString × Value),ms[i]?=some x → ns[i]?=some y →
        (ms.map Prod.fst).idxOf x.1=i → Over (under K x.1) (under L x.1) x.2 y.2) ∧
      (∀(i : Nat) (x y : JsString × Value),ms[i]?=some x → ns[i]?=some y →
        (ms.map Prod.fst).idxOf x.1≠i → x.2=y.2) ∧
      ∀e∈extra,e.1∉ms.map Prod.fst ∧ [e.1]∈K := by
  cases h with
  | touched _ _ h => exact absurd h hK
  | same =>
    refine ⟨κ,ms,[],by rw [append_nil],fun h => absurd rfl h,rfl,?_,?_,by simp⟩
    · intro i x y hx hy _
      rw [hx] at hy
      cases hy
      exact .same _ _ _
    · intro i x y hx hy _
      rw [hx] at hy
      cases hy
      rfl
  | members hκ hk hm hd he => exact ⟨_,_,_,rfl,hκ,hk,hm,hd,he⟩

theorem Over.of_own {ts : List (JsString × Value)}
    (h : Over K L a (.own κ ts)) (hK : []∉K) : ∃κ ms,a=.own κ ms := by
  cases h with
  | touched _ _ h => exact absurd h hK
  | same => exact ⟨κ,ts,rfl⟩
  | members => exact ⟨_,_,rfl⟩

theorem Over.exchange {K' L' : Set Path} {κ' : Kind} {ms ns extra : List (JsString × Value)} {c' : Value} (hκ : κ'≠κ → []∈L') (hk : ns.map Prod.fst=ms.map Prod.fst)
    (hm : ∀(i : Nat) (x y : JsString × Value),ms[i]?=some x → ns[i]?=some y →
      (ms.map Prod.fst).idxOf x.1=i → Over (under K x.1) (under L x.1) x.2 y.2)
    (hd : ∀(i : Nat) (x y : JsString × Value),ms[i]?=some x → ns[i]?=some y →
      (ms.map Prod.fst).idxOf x.1≠i → x.2=y.2)
    (he : ∀e∈extra,e.1∉ms.map Prod.fst ∧ [e.1]∈K') (hmem : k∈ms.map Prod.fst)
    (hl : lookupMember k (ns++extra)=some c)
    (hchild : ∀a,lookupMember k ms=some a → Over (under K k) (under L k) a c →
      Over (under K' k) (under L' k) a c')
    (hother : ∀j,j≠k → under K j⊆under K' j ∧ under L j⊆under L' j) :
    Over K' L' (.own κ ms) (.own κ' (setMember k c' (ns++extra))) := by
  have hns : k∈ns.map Prod.fst := by rw [hk]; exact hmem
  rw [lookupMember_append_left hns] at hl
  rw [setMember_append_left hns]
  obtain ⟨b,hbi,hbl,hbs,hbo⟩ := setMember_getElem? c' hns
  obtain ⟨a,hai,hal,_,_⟩ := setMember_getElem? c' hmem
  rw [hl] at hbl
  cases hbl
  rw [hk] at hbi hbs hbo
  have hplace : ∀{i : Nat} {x : JsString × Value},ms[i]?=some x →
      i=(ms.map Prod.fst).idxOf k → x=(k,a) := by
    intro i x hx hi
    rw [hi,hai] at hx
    exact (Option.some.inj hx).symm
  refine .members hκ (by rw [setMember_map_fst hns,hk]) ?_ ?_ he
  · intro i x y hx hy hi
    by_cases hix : i=(ms.map Prod.fst).idxOf k
    · cases hplace hx hix
      rw [hix,hbs] at hy
      cases hy
      exact hchild a hal (hm _ _ _ hai hbi rfl)
    · rw [hbo i hix] at hy
      have hne : x.1≠k := fun h => hix (by rw [← hi,h])
      exact (hm i x y hx hy hi).mono (hother x.1 hne).1 (hother x.1 hne).2
  · intro i x y hx hy hi
    by_cases hix : i=(ms.map Prod.fst).idxOf k
    · cases hplace hx hix
      exact absurd hix.symm hi
    · rw [hbo i hix] at hy
      exact hd i x y hx hy hi

theorem under_insert_self (K : Set Path) (k : JsString) (p : Path) :
    under (insert (k::p) K) k=insert p (under K k) := by
  ext q
  simp [under]

variable {p q : Path}

theorem under_insert_ne (h : j≠k) : under (insert (k::p) K) j=under K j := by
  ext q
  simp [under,h]

theorem under_without_self (K : Set Path) (k : JsString) (p : Path) :
    under (without K (k::p)) k=without (under K k) p := by
  ext q
  simp [under,without,cons_prefix_cons]

theorem under_without_ne (h : j≠k) : under (without K (k::p)) j=under K j := by
  ext q
  simp [under,without,cons_prefix_cons,Ne.symm h]

theorem nil_mem_without (h : []∈K) : []∈without K (k::p) := ⟨h,by simp⟩

theorem lookupMember_isSome {ms : List (JsString × Value)} :
    (lookupMember k ms).isSome=decide (k∈ms.map Prod.fst) := by
  cases h : lookupMember k ms with
  | none => simpa using lookupMember_none.mp h
  | some c =>
    by_contra hne
    have hnone : lookupMember k ms=none := by
      apply lookupMember_none.mpr
      simpa using hne
    rw [h] at hnone
    cases hnone

theorem Kind.grown_mem {ms : List (JsString × Value)} (h : k∈ms.map Prod.fst) : κ.grown k ms=κ := by
  cases κ with
  | object => rfl
  | array length => rw [Kind.grown,lookupMember_isSome,decide_eq_true h,if_pos rfl]

theorem Kind.grown_congr {κ : Kind} {k : JsString} {ms ts : List (JsString × Value)}
    (h : k∈ms.map Prod.fst ↔ k∈ts.map Prod.fst) : κ.grown k ms=κ.grown k ts := by
  cases κ with
  | object => rfl
  | array length => rw [Kind.grown,Kind.grown,lookupMember_isSome,lookupMember_isSome,
      decide_eq_decide.mpr h]

theorem grows_cons {ms : List (JsString × Value)}
    (hl : lookupMember k ms=some b) (hq : q∈grows p b) : k::q∈grows (k::p) (.own κ ms) := by
  obtain ⟨j,κ',ns,rfl,hv,hne⟩ := hq
  refine ⟨j,κ',ns,rfl,?_,hne⟩
  rw [valueAt,hl]
  exact hv

/-- A write touches its path, and the length of the array it extends. -/
theorem Over.set (h : Over K L a t)
    (hs : setAt p v t=some t') : Over (insert p K) (L∪grows p a) a t' := by
  induction p generalizing K L a t t' with
  | nil => simp [setAt] at hs
  | cons k p ih =>
    by_cases hK : []∈K
    · exact .touched a t' (Set.mem_insert_of_mem _ hK)
    cases t with
    | scalar s => cases p <;> simp [setAt] at hs
    | own κ' ts =>
      obtain ⟨κ,ms,rfl⟩ := h.of_own hK
      obtain ⟨κ₁,ns,extra,heq,hκ,hk,hm,hd,he⟩ := h.own hK
      obtain ⟨rfl,rfl⟩ := Value.own.inj heq
      have he' : ∀e∈extra,e.1∉ms.map Prod.fst ∧ [e.1]∈insert (k::p) K :=
        fun e hmem => ⟨(he e hmem).1,Set.mem_insert_of_mem _ (he e hmem).2⟩
      have hother : ∀j,j≠k → under K j⊆under (insert (k::p) K) j ∧
          under L j⊆under (L∪grows (k::p) (.own κ ms)) j :=
        fun j hj => ⟨by rw [under_insert_ne hj],fun q hq => Or.inl hq⟩
      cases p with
      | nil =>
        cases hs
        by_cases hmem : k∈ms.map Prod.fst
        · have hns : k∈ns.map Prod.fst := by rw [hk]; exact hmem
          obtain ⟨c,_,hl,_⟩ := setMember_getElem? v hns
          have hkind : κ'.grown k (ns++extra)=κ' := Kind.grown_mem (by simp [hns])
          rw [hkind]
          refine Over.exchange (fun hne => Or.inl (hκ hne)) hk hm hd he' hmem
            (by rw [lookupMember_append_left hns,hl]) ?_ hother
          intro b _ _
          rw [under_insert_self]
          exact .touched b v (Set.mem_insert _ _)
        · rw [setMember_append_right (by rw [hk]; exact hmem)]
          refine .members ?_ hk ?_ hd ?_
          · intro hne
            by_cases hκκ : κ'=κ
            · subst hκκ
              right
              refine ⟨k,_,ms,rfl,rfl,?_⟩
              by_cases hextra : k∈extra.map Prod.fst
              · exact absurd (Kind.grown_mem (by simp [hextra])) hne
              · rw [@Kind.grown_congr _ k ms (ns++extra) (by simp [hk,hmem,hextra])]
                exact hne
            · exact Or.inl (hκ hκκ)
          · intro i x y hx hy hi
            exact (hm i x y hx hy hi).mono (fun q hq => Set.mem_insert_of_mem _ hq)
              fun q hq => Or.inl hq
          · intro e hmem'
            rcases mem_setMember hmem' with hek | hmem'
            · rw [hek]
              exact ⟨hmem,Set.mem_insert _ _⟩
            · exact he' e hmem'
      | cons k' p =>
        simp only [setAt] at hs
        cases hl : lookupMember k (ns++extra) with
        | none => rw [hl] at hs; cases hs
        | some c =>
          rw [hl] at hs
          obtain ⟨c',hc',rfl⟩ := Option.map_eq_some_iff.mp hs
          by_cases hmem : k∈ms.map Prod.fst
          · refine Over.exchange (fun hne => Or.inl (hκ hne)) hk hm hd he' hmem hl ?_ hother
            intro b hb hover
            rw [under_insert_self]
            refine (ih hover hc').mono subset_rfl ?_
            rintro q (hq | hq)
            · exact Or.inl hq
            · exact Or.inr (grows_cons hb hq)
          · have hns : k∉ns.map Prod.fst := by rw [hk]; exact hmem
            -- the parent was written before it
            have hkey : [k]∈K := by
              have hin : k∈(ns++extra).map Prod.fst := by
                by_contra hn
                rw [lookupMember_none.mpr hn] at hl
                cases hl
              rw [map_append,mem_append] at hin
              rcases hin with hin | hin
              · exact absurd hin hns
              · obtain ⟨e,hmem',rfl⟩ := mem_map.mp hin
                exact (he e hmem').2
            rw [setMember_append_right hns]
            refine .members (fun hne => Or.inl (hκ hne)) hk ?_ hd ?_
            · intro i x y hx hy hi
              exact (hm i x y hx hy hi).mono (fun q hq => Set.mem_insert_of_mem _ hq)
                fun q hq => Or.inl hq
            · intro e hmem'
              rcases mem_setMember hmem' with hek | hmem'
              · rw [hek]
                exact ⟨hmem,Set.mem_insert_of_mem _ hkey⟩
              · exact he' e hmem'

theorem Over.restore (h : Over K L a t)
    (hg : valueAt p a=some o) (hs : setAt p o t=some t') : Over (without K p) (without L p) a t' := by
  induction p generalizing K L a t t' with
  | nil => simp [setAt] at hs
  | cons k p ih =>
    by_cases hK : []∈K
    · exact .touched a t' (nil_mem_without hK)
    cases a with
    | scalar s => simp [valueAt] at hg
    | own κ ms =>
      obtain ⟨κ',ns,extra,rfl,hκ,hk,hm,hd,he⟩ := h.own hK
      simp only [valueAt] at hg
      cases hla : lookupMember k ms with
      | none => rw [hla] at hg; cases hg
      | some b =>
        rw [hla] at hg
        have hmem : k∈ms.map Prod.fst := by
          by_contra hn
          rw [lookupMember_none.mpr hn] at hla
          cases hla
        have he' : ∀e∈extra,e.1∉ms.map Prod.fst ∧ [e.1]∈without K (k::p) := by
          intro e hmem'
          refine ⟨(he e hmem').1,(he e hmem').2,?_⟩
          intro hpre
          have hek : k=e.1 := (cons_prefix_cons.mp hpre).1
          exact (he e hmem').1 (hek ▸ hmem)
        have hother : ∀j,j≠k → under K j⊆under (without K (k::p)) j ∧
            under L j⊆under (without L (k::p)) j :=
          fun j hj => ⟨by rw [under_without_ne hj],by rw [under_without_ne hj]⟩
        have hns : k∈ns.map Prod.fst := by rw [hk]; exact hmem
        obtain ⟨c,_,hl,_⟩ := setMember_getElem? o hns
        have hl' : lookupMember k (ns++extra)=some c := by rw [lookupMember_append_left hns,hl]
        cases p with
        | nil =>
          cases hs
          have hkind : κ'.grown k (ns++extra)=κ' := Kind.grown_mem (by simp [hns])
          rw [hkind]
          refine Over.exchange (fun hne => nil_mem_without (hκ hne)) hk hm hd he' hmem hl' ?_ hother
          intro b' hb' _
          rw [hla] at hb'
          cases hb'
          cases hg
          exact .same _ _ _
        | cons k' p =>
          simp only [setAt] at hs
          rw [hl'] at hs
          obtain ⟨c',hc',rfl⟩ := Option.map_eq_some_iff.mp hs
          refine Over.exchange (fun hne => nil_mem_without (hκ hne)) hk hm hd he' hmem hl' ?_ hother
          intro b' hb' hover
          rw [hla] at hb'
          cases hb'
          rw [under_without_self,under_without_self]
          exact ih hover hg hc'

theorem removeMember_of_not_mem {ms : List (JsString × Value)}
    (h : k∉ms.map Prod.fst) : removeMember k ms=ms := by
  apply filter_eq_self.mpr
  intro m hm
  have : m.1≠k := fun hk => h (hk ▸ mem_map_of_mem hm)
  simpa using this

/-- Deleting what the document does not have undoes what was written at or below a path. -/
theorem Over.delete (h : Over K L a t)
    (hg : valueAt p a=none) : Over (without K p) (without L p) a (deleteAt p t) := by
  induction p generalizing K L a t with
  | nil => simp [valueAt] at hg
  | cons k p ih =>
    by_cases hK : []∈K
    · exact .touched a _ (nil_mem_without hK)
    -- an untouched document is not changed by the deletion
    cases a with
    | own κ ms =>
      obtain ⟨κ',ns,extra,rfl,hκ,hk,hm,hd,he⟩ := h.own hK
      simp only [valueAt] at hg
      cases p with
      | nil =>
        have hmem : k∉ms.map Prod.fst := by
          cases hla : lookupMember k ms with
          | none => exact lookupMember_none.mp hla
          | some b => rw [hla] at hg; cases hg
        have hns : removeMember k (ns++extra)=ns++removeMember k extra := by
          rw [removeMember,filter_append]
          congr 1
          exact removeMember_of_not_mem (by rw [hk]; exact hmem)
        rw [deleteAt,hns]
        refine .members (fun hne => nil_mem_without (hκ hne)) hk ?_ hd ?_
        · intro i x y hx hy hi
          have hne : x.1≠k := by
            intro hxk
            exact hmem (hxk ▸ mem_map_of_mem (List.mem_of_getElem? hx))
          rw [under_without_ne hne,under_without_ne hne]
          exact hm i x y hx hy hi
        · intro e hmem'
          obtain ⟨hmem',hek⟩ := mem_filter.mp hmem'
          refine ⟨(he e hmem').1,(he e hmem').2,?_⟩
          intro hpre
          have : k=e.1 := (cons_prefix_cons.mp hpre).1
          simp [this] at hek
      | cons k' p =>
        have he' : ∀e∈extra,e.1∉ms.map Prod.fst ∧ [e.1]∈without K (k::k'::p) := by
          intro e hmem'
          refine ⟨(he e hmem').1,(he e hmem').2,?_⟩
          intro hpre
          have := (cons_prefix_cons.mp hpre).2
          simp at this
        have hother : ∀j,j≠k → under K j⊆under (without K (k::k'::p)) j ∧
            under L j⊆under (without L (k::k'::p)) j :=
          fun j hj => ⟨by rw [under_without_ne hj],by rw [under_without_ne hj]⟩
        simp only [deleteAt]
        cases hl : lookupMember k (ns++extra) with
        | none =>
          have hmem : k∉ms.map Prod.fst := by
            have := lookupMember_none.mp hl
            rw [map_append,mem_append,not_or,hk] at this
            exact this.1
          refine .members (fun hne => nil_mem_without (hκ hne)) hk ?_ hd he'
          intro i x y hx hy hi
          have hne : x.1≠k := by
            intro hxk
            exact hmem (hxk ▸ mem_map_of_mem (List.mem_of_getElem? hx))
          exact (hm i x y hx hy hi).mono (hother x.1 hne).1 (hother x.1 hne).2
        | some c =>
          by_cases hmem : k∈ms.map Prod.fst
          · refine Over.exchange (fun hne => nil_mem_without (hκ hne)) hk hm hd he' hmem hl ?_ hother
            intro b hb hover
            rw [hb] at hg
            rw [under_without_self,under_without_self]
            exact ih hover hg
          · have hns : k∉ns.map Prod.fst := by rw [hk]; exact hmem
            dsimp only
            rw [setMember_append_right hns]
            refine .members (fun hne => nil_mem_without (hκ hne)) hk ?_ hd ?_
            · intro i x y hx hy hi
              have hne : x.1≠k := by
                intro hxk
                exact hmem (hxk ▸ mem_map_of_mem (List.mem_of_getElem? hx))
              exact (hm i x y hx hy hi).mono (hother x.1 hne).1 (hother x.1 hne).2
            · intro e hmem'
              rcases mem_setMember hmem' with hek | hmem'
              · -- the member is one of those written before
                have hin : k∈extra.map Prod.fst := by
                  by_contra hn
                  have hnot : k∉(ns++extra).map Prod.fst := by
                    rw [map_append,mem_append,not_or]
                    exact ⟨hns,hn⟩
                  rw [lookupMember_none.mpr hnot] at hl
                  cases hl
                obtain ⟨e',hmem'',hek'⟩ := mem_map.mp hin
                have := he' e' hmem''
                rw [hek'] at this
                rw [hek]
                exact this
              · exact he' e hmem'
    | scalar s =>
      cases h with
      | touched _ _ h => exact absurd h hK
      | same => cases p <;> exact .same _ _ _

/-- Every parent along the path is an object or an array. -/
def opens : Path → Value → Bool
  | [_],.own _ _ => true
  | k::k'::p,.own _ ms => match lookupMember k ms with
    | some c => opens (k'::p) c
    | none => false
  | _,_ => false

theorem setAt_of_opens (v : Value) (h : opens p t=true) : ∃t',setAt p v t=some t' := by
  induction p generalizing t with
  | nil => simp [opens] at h
  | cons k p ih =>
    cases t with
    | own κ ms =>
      cases p with
      | nil => exact ⟨_,rfl⟩
      | cons k' p =>
        simp only [opens] at h
        simp only [setAt]
        cases hl : lookupMember k ms with
        | none => rw [hl] at h; cases h
        | some c =>
          rw [hl] at h
          obtain ⟨c',hc'⟩ := ih h
          exact ⟨.own κ (setMember k c' ms),by simp [hc']⟩
    | _ => cases p <;> simp [opens] at h

theorem opens_of_setAt (h : setAt p v t=some t') : opens p t=true := by
  induction p generalizing t t' with
  | nil => simp [setAt] at h
  | cons k p ih =>
    cases t with
    | own κ ms =>
      cases p with
      | nil => rfl
      | cons k' p =>
        simp only [setAt] at h
        simp only [opens]
        cases hl : lookupMember k ms with
        | none => rw [hl] at h; cases h
        | some c =>
          rw [hl] at h
          obtain ⟨c',hc',_⟩ := Option.map_eq_some_iff.mp h
          exact ih hc'
    | _ => cases p <;> simp [setAt] at h

theorem opens_of_valueAt (h : valueAt p t=some o) (hp : p≠[]) : opens p t=true := by
  induction p generalizing t with
  | nil => exact absurd rfl hp
  | cons k p ih =>
    cases t with
    | own κ ms =>
      cases p with
      | nil => rfl
      | cons k' p =>
        simp only [valueAt] at h
        simp only [opens]
        cases hl : lookupMember k ms with
        | none => rw [hl] at h; cases h
        | some c =>
          rw [hl] at h
          exact ih h (by simp)
    | _ => simp [valueAt] at h

theorem lookupMember_setMember_self (k : JsString) (v : Value) (ms : List (JsString × Value)) :
    lookupMember k (setMember k v ms)=some v := by
  induction ms with
  | nil => simp [setMember,lookupMember]
  | cons m ms ih => by_cases h : m.1=k <;> simp [setMember,lookupMember,h,ih]

theorem lookupMember_setMember_ne (v : Value) (ms : List (JsString × Value))
    (h : j≠k) : lookupMember j (setMember k v ms)=lookupMember j ms := by
  induction ms with
  | nil => simp [setMember,lookupMember,Ne.symm h]
  | cons m ms ih =>
    by_cases hk : m.1=k
    · simp [setMember,lookupMember,hk,Ne.symm h]
    · simp [setMember,lookupMember,hk,ih]

theorem lookupMember_removeMember_ne (ms : List (JsString × Value))
    (h : j≠k) : lookupMember j (removeMember k ms)=lookupMember j ms := by
  induction ms with
  | nil => rfl
  | cons m ms ih =>
    by_cases hk : m.1=k
    · have hj : m.1≠j := fun hj => h (hj.symm.trans hk)
      rw [show removeMember k (m::ms)=removeMember k ms by simp [removeMember,hk],ih]
      simp [lookupMember,hj]
    · rw [show removeMember k (m::ms)=m::removeMember k ms by simp [removeMember,hk]]
      simp [lookupMember,ih]

theorem valueAt_append : valueAt (p++q) t=(valueAt p t).bind (valueAt q) := by
  induction p generalizing t with
  | nil => rfl
  | cons k p ih =>
    cases t with
    | own κ ms =>
      simp only [cons_append,valueAt]
      cases lookupMember k ms with
      | none => rfl
      | some c => exact ih
    | _ => rfl

theorem setMember_of_lookup {ms : List (JsString × Value)}
    (h : lookupMember k ms=some c) : setMember k c ms=ms := by
  induction ms with
  | nil => simp [lookupMember] at h
  | cons m ms ih =>
    obtain ⟨j,v⟩ := m
    by_cases hj : j=k
    · have hv : v=c := by simpa [lookupMember,hj] using h
      simp [setMember,hj,hv]
    · have hrest : lookupMember k ms=some c := by simpa [lookupMember,hj] using h
      simp [setMember,hj,ih hrest]

theorem setAt_of_valueAt (h : valueAt p t=some v) (hp : p≠[]) : setAt p v t=some t := by
  induction p generalizing t with
  | nil => exact absurd rfl hp
  | cons k p ih =>
    cases t with
    | own κ ms =>
      simp only [valueAt] at h
      cases hl : lookupMember k ms with
      | none => rw [hl] at h; cases h
      | some c =>
        rw [hl] at h
        cases p with
        | nil =>
          cases h
          have hmem : k∈ms.map Prod.fst := by
            by_contra hn
            rw [lookupMember_none.mpr hn] at hl
            cases hl
          simp only [setAt,setMember_of_lookup hl,Kind.grown_mem hmem]
        | cons k' p =>
          have hc : setAt (k'::p) v c=some c := ih h (by simp)
          simp only [setAt,hl,hc,Option.map_some,setMember_of_lookup hl]
    | _ => simp [valueAt] at h

theorem valueAt_setAt_self (h : setAt p v t=some t') : valueAt p t'=some v := by
  induction p generalizing t t' with
  | nil => simp [setAt] at h
  | cons k p ih =>
    cases t with
    | own κ ms =>
      cases p with
      | nil =>
        cases h
        simp only [valueAt,lookupMember_setMember_self]
      | cons k' p =>
        simp only [setAt] at h
        cases hl : lookupMember k ms with
        | none => rw [hl] at h; cases h
        | some c =>
          rw [hl] at h
          obtain ⟨c',hc',rfl⟩ := Option.map_eq_some_iff.mp h
          have hread : valueAt (k'::p) c'=some v := ih hc'
          rw [valueAt,lookupMember_setMember_self]
          exact hread
    | _ => cases p <;> simp [setAt] at h

theorem setAt_own {ms : List (JsString × Value)} (h : setAt (k::p) v (.own κ ms)=some t') :
    ∃κ' c,t'=.own κ' (setMember k c ms) := by
  cases p with
  | nil =>
    cases h
    exact ⟨_,v,rfl⟩
  | cons k' p =>
    simp only [setAt] at h
    cases hl : lookupMember k ms with
    | none => rw [hl] at h; cases h
    | some c =>
      rw [hl] at h
      obtain ⟨c',_,rfl⟩ := Option.map_eq_some_iff.mp h
      exact ⟨_,c',rfl⟩

theorem valueAt_setAt_other (h : setAt p v t=some t')
    (hpq : ¬p<+:q) (hqp : ¬q<+:p) : valueAt q t'=valueAt q t := by
  induction p generalizing q t t' with
  | nil => simp [setAt] at h
  | cons k p ih =>
    cases t with
    | own κ ms =>
      cases q with
      | nil => exact absurd nil_prefix hqp
      | cons j q =>
        by_cases hjk : j=k
        · subst hjk
          have hpq' : ¬p<+:q := fun hp => hpq ((cons_prefix_cons).mpr ⟨rfl,hp⟩)
          have hqp' : ¬q<+:p := fun hq => hqp ((cons_prefix_cons).mpr ⟨rfl,hq⟩)
          cases p with
          | nil => exact absurd nil_prefix hpq'
          | cons k' p =>
            simp only [setAt] at h
            cases hl : lookupMember j ms with
            | none => rw [hl] at h; cases h
            | some c =>
              rw [hl] at h
              obtain ⟨c',hc',rfl⟩ := Option.map_eq_some_iff.mp h
              simp only [valueAt,lookupMember_setMember_self,hl]
              exact ih hc' hpq' hqp'
        · obtain ⟨_,c,rfl⟩ := setAt_own h
          simp only [valueAt,lookupMember_setMember_ne c ms hjk]
    | _ => cases p <;> simp [setAt] at h

end CardKeepr.Shared.JsonPointer
