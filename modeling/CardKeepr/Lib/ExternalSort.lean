import CardKeepr.Lib.StableSort
import Mathlib

namespace CardKeepr.Lib

open List

section Batches
variable {α β : Type*} (size : α → Nat) (count limit : Nat)

/-- Batches of at most `count` elements. A batch is closed before an element that would take it
over `limit`, and as soon as it reaches `count` elements or `limit`. -/
def batchesFrom : List α → Nat → List α → List (List α)
  | pending,_,[] => if pending.isEmpty then [] else [pending]
  | pending,total,a::as =>
    let full := !pending.isEmpty && decide (total+size a > limit)
    let kept := if full then [] else pending
    let sum := (if full then 0 else total)+size a
    let rest :=
      if (kept++[a]).length=count ∨ sum ≥ limit then (kept++[a])::batchesFrom [] 0 as
      else batchesFrom (kept++[a]) sum as
    if full then pending::rest else rest

def batches (as : List α) : List (List α) := batchesFrom size count limit [] 0 as

theorem batchesFrom_flatten (pending : List α) (total : Nat) (as : List α) :
    (batchesFrom size count limit pending total as).flatten=pending++as := by
  induction as generalizing pending total with
  | nil => cases pending <;> simp [batchesFrom]
  | cons a as ih =>
    rw [batchesFrom]
    cases hf : !pending.isEmpty && decide (total+size a > limit) with
    | true => simp only [if_true]; split <;> simp [ih]
    | false => simp only [Bool.false_eq_true,if_false]; split <;> simp [ih]

theorem batches_flatten (as : List α) : (batches size count limit as).flatten=as := by
  rw [batches,batchesFrom_flatten,nil_append]

theorem batchesFrom_ne_nil {pending : List α} {total : Nat} {as : List α} :
    ∀b∈batchesFrom size count limit pending total as,b≠[] := by
  induction as generalizing pending total with
  | nil =>
    intro b hb
    rw [batchesFrom] at hb
    cases pending with
    | nil => exact (not_mem_nil hb).elim
    | cons c cs => rw [mem_singleton.mp hb]; exact cons_ne_nil _ _
  | cons a as ih =>
    intro b hb
    rw [batchesFrom] at hb
    have hrest : ∀kept : List α,∀sum,b∈(if (kept++[a]).length=count ∨ sum ≥ limit then
        (kept++[a])::batchesFrom size count limit [] 0 as
        else batchesFrom size count limit (kept++[a]) sum as) → b≠[] := by
      intro kept sum hb
      split at hb
      · rcases mem_cons.mp hb with rfl | hb
        · simp
        · exact ih b hb
      · exact ih b hb
    cases hf : !pending.isEmpty && decide (total+size a > limit) with
    | true =>
      simp only [hf,if_true] at hb
      rcases mem_cons.mp hb with rfl | hb
      · rintro rfl
        simp at hf
      · exact hrest _ _ hb
    | false =>
      simp only [hf,Bool.false_eq_true,if_false] at hb
      exact hrest _ _ hb

theorem length_le_flatten {bs : List (List β)} (h : ∀b∈bs,b≠[]) :
    bs.length ≤ bs.flatten.length := by
  induction bs with
  | nil => exact Nat.zero_le _
  | cons b bs ih =>
    have hb := length_pos_of_ne_nil (h b mem_cons_self)
    have := ih fun x hx => h x (mem_cons_of_mem _ hx)
    rw [length_cons,flatten_cons,length_append]
    omega

theorem batches_eq_nil {as : List α} : batches size count limit as=[] ↔ as=[] := by
  constructor
  · intro h
    rw [←batches_flatten size count limit as,h,flatten_nil]
  · rintro rfl
    rfl

end Batches

section Selection
variable {κ : Type*}

/-- `lt` is the strict part of a total preorder. -/
structure StrictWeak (lt : κ → κ → Bool) : Prop where
  asymm : ∀a b,lt a b=true → lt b a=false
  neg_trans : ∀a b c,lt a b=false → lt b c=false → lt a c=false

/-- The total preorder itself. -/
def NotAfter (lt : κ → κ → Bool) (a b : κ) : Prop := lt b a=false

instance (lt : κ → κ → Bool) : DecidableRel (NotAfter lt) := fun a b =>
  inferInstanceAs (Decidable (lt b a=false))

variable {lt : κ → κ → Bool}

theorem StrictWeak.irrefl (h : StrictWeak lt) (a : κ) : lt a a=false := by
  cases haa : lt a a with
  | false => rfl
  | true => rw [h.asymm a a haa] at haa; exact haa.symm

theorem StrictWeak.refl (h : StrictWeak lt) (a : κ) : NotAfter lt a a := h.irrefl a

theorem StrictWeak.trans (h : StrictWeak lt) {a b c : κ} (hab : NotAfter lt a b)
    (hbc : NotAfter lt b c) : NotAfter lt a c := h.neg_trans c b a hbc hab

theorem StrictWeak.total (h : StrictWeak lt) (a b : κ) : NotAfter lt a b ∨ NotAfter lt b a := by
  cases hba : lt b a with
  | false => exact .inl hba
  | true => exact .inr (h.asymm b a hba)

theorem StrictWeak.lt_of_lt_of_notAfter (h : StrictWeak lt) {a b c : κ} (hab : lt a b=true)
    (hbc : NotAfter lt b c) : lt a c=true := by
  cases hac : lt a c with
  | true => rfl
  | false =>
    rw [h.neg_trans a c b hac hbc] at hab
    exact hab

variable (lt)

/-- The first of the least heads: a later head replaces the selected one only when it is less. -/
def selectFrom : Option (Nat × κ) → Nat → List (Option κ) → Option (Nat × κ)
  | selected,_,[] => selected
  | selected,index,none::heads => selectFrom selected (index+1) heads
  | none,index,some head::heads => selectFrom (some (index,head)) (index+1) heads
  | some best,index,some head::heads =>
    selectFrom (some (if lt head best.2 then (index,head) else best)) (index+1) heads

def select (heads : List (Option κ)) : Option Nat := (selectFrom lt none 0 heads).map Prod.fst

/-- Among the heads seen so far the selected one is the first of the least. -/
def Selected (seen : List (Option κ)) : Option (Nat × κ) → Prop
  | none => ∀h∈seen,h=none
  | some best => seen[best.1]?=some (some best.2) ∧
    ∀(k : Nat) b,seen[k]?=some (some b) → NotAfter lt best.2 b ∧ (k < best.1 → lt best.2 b=true)

variable {lt}

theorem Selected.snoc {seen : List (Option κ)} {best : Nat × κ} {head : Option κ}
    (h : Selected lt seen (some best)) (hh : ∀b,head=some b → NotAfter lt best.2 b) :
    Selected lt (seen++[head]) (some best) := by
  obtain ⟨h1,h2⟩ := h
  have hlt : best.1 < seen.length := by
    rcases Nat.lt_or_ge best.1 seen.length with hb | hb
    · exact hb
    · rw [List.getElem?_eq_none hb] at h1
      cases h1
  refine ⟨by rw [List.getElem?_append_left hlt,h1],fun k b hk => ?_⟩
  rcases Nat.lt_or_ge k seen.length with hks | hks
  · exact h2 k b (by rwa [List.getElem?_append_left hks] at hk)
  · rw [List.getElem?_append_right hks] at hk
    have hz : k-seen.length=0 := by
      by_contra hne
      rw [List.getElem?_eq_none (by simp; omega)] at hk
      cases hk
    rw [hz] at hk
    exact ⟨hh b (Option.some.inj hk),fun hlt2 => by omega⟩

theorem selectFrom_selected (hw : StrictWeak lt) {seen heads : List (Option κ)}
    {best : Option (Nat × κ)} (h : Selected lt seen best) :
    Selected lt (seen++heads) (selectFrom lt best seen.length heads) := by
  induction heads generalizing seen best with
  | nil => simpa [selectFrom] using h
  | cons head heads ih =>
    rw [show seen++head::heads=(seen++[head])++heads by simp]
    have hlen : (seen++[head]).length=seen.length+1 := by simp
    have next : ∀best',Selected lt (seen++[head]) best' →
        Selected lt (seen++[head]++heads) (selectFrom lt best' (seen.length+1) heads) := by
      intro best' hb
      rw [←hlen]
      exact ih hb
    have hnew : ∀a,head=some a → (∀(k : Nat) b,seen[k]?=some (some b) → lt a b=true) →
        Selected lt (seen++[head]) (some (seen.length,a)) := by
      intro a ha hall
      refine ⟨by simp [ha],fun k b hk => ?_⟩
      rcases Nat.lt_or_ge k seen.length with hks | hks
      · rw [List.getElem?_append_left hks] at hk
        exact ⟨hw.asymm _ _ (hall k b hk),fun _ => hall k b hk⟩
      · have hke : k=seen.length := by
          by_contra hne
          rw [List.getElem?_eq_none (by simp; omega)] at hk
          cases hk
        subst hke
        simp only [List.getElem?_concat_length,ha,Option.some.injEq] at hk
        exact ⟨hk ▸ hw.refl a,fun hlt => (Nat.lt_irrefl _ hlt).elim⟩
    cases head with
    | none =>
      cases best with
      | none =>
        apply next
        intro h' hm
        rcases mem_append.mp hm with hm | hm
        · exact h h' hm
        · exact mem_singleton.mp hm
      | some best => exact next _ (h.snoc fun b hb => by cases hb)
    | some a =>
      cases best with
      | none =>
        apply next
        apply hnew a rfl
        intro k b hk
        have := h _ (List.mem_of_getElem? hk)
        cases this
      | some best =>
        rw [selectFrom]
        cases hab : lt a best.2 with
        | true =>
          apply next
          apply hnew a rfl
          intro k b hk
          exact hw.lt_of_lt_of_notAfter hab (h.2 k b hk).1
        | false =>
          apply next
          apply h.snoc
          intro b hb
          rw [←Option.some.inj hb]
          exact hab

theorem select_selected (hw : StrictWeak lt) (heads : List (Option κ)) :
    Selected lt heads (selectFrom lt none 0 heads) := by
  have hnone : Selected lt [] none := fun _ h => (not_mem_nil h).elim
  exact selectFrom_selected hw hnone

end Selection

section Merge
variable {α κ : Type*} (lt : κ → κ → Bool) (key : α → κ)

/-- The elements in the order in which selection takes them, each with what it leaves. -/
def mergeFrom : Nat → List (List α) → List (α × List (List α))
  | 0,_ => []
  | n+1,lists =>
    match select lt (lists.map fun l => l.head?.map key) with
    | none => []
    | some i =>
      match lists[i]? with
      | some (a::as) => (a,lists.set i as)::mergeFrom n (lists.set i as)
      | _ => []

def mergeSteps (lists : List (List α)) : List (α × List (List α)) :=
  mergeFrom lt key lists.flatten.length lists

def mergeLists (lists : List (List α)) : List α := (mergeSteps lt key lists).map Prod.fst

variable {lt key}

/-- Where selection finds its element: the lists before it hold only greater ones. -/
theorem select_split (hw : StrictWeak lt) {lists : List (List α)}
    (hs : ∀l∈lists,l.Pairwise fun a b => NotAfter lt (key a) (key b)) :
    (select lt (lists.map fun l => l.head?.map key)=none ∧ lists.flatten=[]) ∨ ∃l a as
    r,lists=l++(a::as)::r ∧ select lt (lists.map fun l => l.head?.map key)=some l.length ∧
    (∀b∈l.flatten,lt (key a) (key b)=true) ∧ ∀b∈lists.flatten,NotAfter lt (key a) (key b) := by
  have h := select_selected hw (lists.map fun l => l.head?.map key)
  rw [select]
  have hhead : ∀(m : List α) b,b∈m → ∃c,m.head?=some c ∧ (m∈lists → NotAfter lt (key c) (key b)) := by
    intro m b hb
    cases m with
    | nil => exact (not_mem_nil hb).elim
    | cons c m =>
      refine ⟨c,rfl,fun hm => ?_⟩
      rcases mem_cons.mp hb with rfl | hb
      · exact hw.refl _
      · exact rel_of_pairwise_cons (hs _ hm) hb
  cases hsel : selectFrom lt none 0 (lists.map fun l => l.head?.map key) with
  | none =>
    rw [hsel] at h
    refine .inl ⟨rfl,?_⟩
    rw [flatten_eq_nil_iff]
    intro m hm
    cases m with
    | nil => rfl
    | cons c m =>
      have := h _ (mem_map_of_mem (f := fun l : List α => l.head?.map key) hm)
      cases this
  | some best =>
    rw [hsel] at h
    obtain ⟨h1,h2⟩ := h
    right
    rw [List.getElem?_map] at h1
    obtain ⟨m,hm,hmk⟩ := Option.map_eq_some_iff.mp h1
    cases m with
    | nil => cases hmk
    | cons a as =>
      have hkey : key a=best.2 := Option.some.inj hmk
      obtain ⟨hi,hget⟩ := List.getElem?_eq_some_iff.mp hm
      refine ⟨lists.take best.1,a,as,lists.drop (best.1+1),?_,?_,?_,?_⟩
      · rw [←hget,←drop_eq_getElem_cons hi,take_append_drop]
      · rw [length_take_of_le (by omega)]
        rfl
      · intro b hb
        obtain ⟨m,hm,hbm⟩ := mem_flatten.mp hb
        obtain ⟨k,hk,rfl⟩ := mem_take_iff_getElem.mp hm
        obtain ⟨c,hc,hcb⟩ := hhead _ b hbm
        have hkl : k < lists.length := by omega
        obtain ⟨-,h4⟩ := h2 k (key c) (by
          rw [List.getElem?_map,List.getElem?_eq_getElem hkl,Option.map_some,hc,Option.map_some])
        rw [hkey]
        exact hw.lt_of_lt_of_notAfter (h4 (by omega)) (hcb (getElem_mem hkl))
      · intro b hb
        obtain ⟨m,hm,hbm⟩ := mem_flatten.mp hb
        obtain ⟨k,hk,rfl⟩ := mem_iff_getElem.mp hm
        obtain ⟨c,hc,hcb⟩ := hhead _ b hbm
        obtain ⟨h3,-⟩ := h2 k (key c) (by
          rw [List.getElem?_map,List.getElem?_eq_getElem hk,Option.map_some,hc,Option.map_some])
        rw [hkey]
        exact hw.trans h3 (hcb (getElem_mem hk))

def InOrder (lt : κ → κ → Bool) (key : α → κ) (lists : List (List α)) : Prop :=
  ∀l∈lists,l.Pairwise fun a b => NotAfter lt (key a) (key b)

theorem InOrder.tail {l r : List (List α)} {a : α} {as : List α}
    (h : InOrder lt key (l++(a::as)::r)) : InOrder lt key (l++as::r) := by
  intro m hm
  rcases mem_append.mp hm with hm | hm
  · exact h m (mem_append_left _ hm)
  · rcases mem_cons.mp hm with rfl | hm
    · exact (h (a::m) (by simp)).tail
    · exact h m (by simp [hm])

theorem mergeSteps_nil {lists : List (List α)} (h : lists.flatten=[]) :
    mergeSteps lt key lists=[] := by
  rw [mergeSteps,h]
  rfl

theorem mergeSteps_cons {l r : List (List α)} {a : α} {as : List α}
    (h : select lt ((l++(a::as)::r).map fun l => l.head?.map key)=some l.length) :
    mergeSteps lt key (l++(a::as)::r)=(a,l++as::r)::mergeSteps lt key (l++as::r) := by
  have hlen : (l++(a::as)::r).flatten.length=(l++as::r).flatten.length+1 := by
    simp
    omega
  rw [mergeSteps,hlen,mergeFrom]
  simp only [h]
  have hget : (l++(a::as)::r)[l.length]?=some (a::as) := by simp
  have hset : (l++(a::as)::r).set l.length as=l++as::r := by simp
  simp only [hget,hset]
  rfl

theorem merge_induct (hw : StrictWeak lt) {P : List (List α) → Prop}
    (empty : ∀lists,lists.flatten=[] → P lists)
    (step : ∀l a as r,(∀b∈l.flatten,lt (key a) (key b)=true) →
      (∀b∈(l++(a::as)::r).flatten,NotAfter lt (key a) (key b)) →
      select lt ((l++(a::as)::r).map fun l => l.head?.map key)=some l.length →
      InOrder lt key (l++(a::as)::r) → P (l++as::r) → P (l++(a::as)::r))
    (lists : List (List α)) (h : InOrder lt key lists) : P lists := by
  induction hn : lists.flatten.length generalizing lists with
  | zero => exact empty lists (length_eq_zero_iff.mp hn)
  | succ n ih =>
    rcases select_split hw h with ⟨-,he⟩ | ⟨l,a,as,r,rfl,hsel,hlt,hle⟩
    · rw [he] at hn
      cases hn
    · apply step l a as r hlt hle hsel h
      apply ih _ h.tail
      simp at hn ⊢
      omega

theorem mergeLists_filter (hw : StrictWeak lt) {lists : List (List α)} (h : InOrder lt key lists)
    {p : α → Bool} (hp : ∀a b,p a=true → p b=true → NotAfter lt (key a) (key b)) :
    (mergeLists lt key lists).filter p=lists.flatten.filter p := by
  refine merge_induct (P := fun lists => (mergeLists lt key lists).filter p=
    lists.flatten.filter p) hw
    (fun lists he => ?_) (fun l a as r hlt hle hsel _ ih => ?_) lists h
  · rw [mergeLists,mergeSteps_nil he,he]; rfl
  · rw [mergeLists,mergeSteps_cons hsel,map_cons,filter_cons]
    rw [mergeLists] at ih
    rw [ih]
    cases ha : p a with
    | false => simp [ha]
    | true =>
      have hl : l.flatten.filter p=[] := by
        rw [filter_eq_nil_iff]
        intro b hb hpb
        have := hp b a hpb ha
        rw [NotAfter,hlt b hb] at this
        cases this
      simp [hl,ha]

theorem mergeLists_perm (hw : StrictWeak lt) {lists : List (List α)} (h : InOrder lt key lists) :
    (mergeLists lt key lists).Perm lists.flatten := by
  refine merge_induct (P := fun lists => (mergeLists lt key lists).Perm lists.flatten) hw
    (fun lists he => ?_) (fun l a as r _ _ hsel _ ih => ?_) lists h
  · rw [mergeLists,mergeSteps_nil he,he]; rfl
  · rw [mergeLists,mergeSteps_cons hsel,map_cons]
    refine (ih.cons a).trans ?_
    simp only [flatten_append,flatten_cons,cons_append]
    exact perm_middle.symm

theorem mergeLists_sorted (hw : StrictWeak lt) {lists : List (List α)} (h : InOrder lt key lists) :
    (mergeLists lt key lists).Pairwise fun a b => NotAfter lt (key a) (key b) := by
  refine merge_induct (P := fun lists => (mergeLists lt key lists).Pairwise
    fun a b => NotAfter lt (key a) (key b)) hw
    (fun lists he => ?_) (fun l a as r _ hle hsel ho ih => ?_) lists h
  · rw [mergeLists,mergeSteps_nil he]; exact .nil
  · rw [mergeLists,mergeSteps_cons hsel,map_cons]
    refine .cons (fun b hb => hle b ?_) ih
    have := (mergeLists_perm hw ho.tail).subset hb
    simp only [flatten_append,flatten_cons,mem_append] at this ⊢
    rcases this with h1 | h1 | h1
    · exact .inl h1
    · exact .inr (.inl (mem_cons_of_mem _ h1))
    · exact .inr (.inr h1)

theorem sorted_unique (hw : StrictWeak lt) {l m : List α}
    (hl : l.Pairwise fun a b => NotAfter lt (key a) (key b))
    (hm : m.Pairwise fun a b => NotAfter lt (key a) (key b))
    (h : ∀p : α → Bool,(∀a b,p a=true → p b=true → NotAfter lt (key a) (key b)) →
      l.filter p=m.filter p) : l=m := by
  let like (a b : α) : Bool := !lt (key a) (key b) && !lt (key b) (key a)
  have like_iff : ∀a b,like a b=true ↔ NotAfter lt (key b) (key a) ∧ NotAfter lt (key a) (key b) := by
    intro a b
    simp [like,NotAfter]
  have like_class : ∀a b c,like a b=true → like a c=true → NotAfter lt (key b) (key c) := by
    intro a b c hb hc
    exact hw.trans ((like_iff a b).mp hb).1 ((like_iff a c).mp hc).2
  have like_self : ∀a,like a a=true := fun a => (like_iff a a).mpr ⟨hw.refl _,hw.refl _⟩
  induction l generalizing m with
  | nil =>
    cases m with
    | nil => rfl
    | cons b m =>
      have := h (like b) (like_class b)
      rw [filter_cons_of_pos (like_self b)] at this
      cases this
  | cons a l ih =>
    have hin : a∈m := by
      have : a∈(a::l).filter (like a) := mem_filter.mpr ⟨mem_cons_self,like_self a⟩
      rw [h (like a) (like_class a)] at this
      exact mem_of_mem_filter this
    cases m with
    | nil => exact (not_mem_nil hin).elim
    | cons b m =>
      have hba : NotAfter lt (key b) (key a) := by
        rcases mem_cons.mp hin with rfl | hin
        · exact hw.refl _
        · exact rel_of_pairwise_cons hm hin
      have hab : NotAfter lt (key a) (key b) := by
        have : b∈(b::m).filter (like b) := mem_filter.mpr ⟨mem_cons_self,like_self b⟩
        rw [←h (like b) (like_class b)] at this
        rcases mem_cons.mp (mem_of_mem_filter this) with rfl | hb
        · exact hw.refl _
        · exact rel_of_pairwise_cons hl hb
      have he := h (like a) (like_class a)
      rw [filter_cons_of_pos (like_self a),filter_cons_of_pos ((like_iff a b).mpr ⟨hba,hab⟩)] at he
      obtain rfl : a=b := (List.cons.inj he).1
      refine congrArg _ (ih hl.tail hm.tail fun p hp => ?_)
      have hall := h p hp
      cases hpa : p a with
      | true =>
        rw [filter_cons_of_pos hpa,filter_cons_of_pos hpa] at hall
        exact (List.cons.inj hall).2
      | false =>
        rwa [filter_cons_of_neg (by simp [hpa]),filter_cons_of_neg (by simp [hpa])]
          at hall

def sortBy (lt : κ → κ → Bool) (key : α → κ) (as : List α) : List α :=
  as.insertionSort fun a b => NotAfter lt (key a) (key b)

theorem sortBy_sorted (hw : StrictWeak lt) (as : List α) :
    (sortBy lt key as).Pairwise fun a b => NotAfter lt (key a) (key b) := by
  have : Std.Total fun a b : α => NotAfter lt (key a) (key b) := ⟨fun a b => hw.total _ _⟩
  have : IsTrans α fun a b : α => NotAfter lt (key a) (key b) := ⟨fun _ _ _ h k => hw.trans h k⟩
  exact pairwise_insertionSort _ as

theorem sortBy_filter {p : α → Bool} (hp : ∀a b,p a=true → p b=true → NotAfter lt (key a) (key b))
    (as : List α) : (sortBy lt key as).filter p=as.filter p := filter_insertionSort hp as

end Merge

section Passes
variable {α κ : Type*} {lt : κ → κ → Bool} {key : α → κ}

theorem mergeLists_sortBy (hw : StrictWeak lt) (ss : List (List α)) :
    mergeLists lt key (ss.map (sortBy lt key))=sortBy lt key ss.flatten := by
  have ho : InOrder lt key (ss.map (sortBy lt key)) := by
    intro l hl
    obtain ⟨s,-,rfl⟩ := mem_map.mp hl
    exact sortBy_sorted hw s
  refine sorted_unique hw (mergeLists_sorted hw ho) (sortBy_sorted hw _) fun p hp => ?_
  rw [mergeLists_filter hw ho hp,sortBy_filter hp,filter_flatten,filter_flatten,map_map]
  exact congrArg _ (map_congr_left fun s _ => sortBy_filter hp s)

def group {β : Type*} (g : Nat) (ss : List β) : List β := (ss.drop (4*g)).take 4

def groups {β : Type*} (ss : List β) : List (List β) :=
  (List.range ((ss.length+3)/4)).map fun g => group g ss

@[simp] theorem groups_length {β : Type*} (ss : List β) : (groups ss).length=(ss.length+3)/4 := by
  rw [groups,length_map,List.length_range]

theorem group_get {β : Type*} {ss : List β} {g i : Nat} {a : β} (h : (group g ss)[i]?=some a) :
    ss[4*g+i]?=some a := by
  rw [group,List.getElem?_take] at h
  split at h
  · rwa [List.getElem?_drop] at h
  · cases h

theorem group_length {β : Type*} (g : Nat) (ss : List β) :
    (group g ss).length=min 4 (ss.length-4*g) := by
  rw [group,length_take,length_drop]

theorem groups_get {β : Type*} {ss : List β} {g : Nat} (h : 4*g < ss.length) :
    (groups ss)[g]?=some (group g ss) := by
  rw [groups,List.getElem?_map,List.getElem?_range (by omega)]
  rfl

theorem group_map {β γ : Type*} (f : β → γ) (g : Nat) (ss : List β) :
    group g (ss.map f)=(group g ss).map f := by
  simp only [group,map_take,map_drop]

theorem groups_flatten {β : Type*} (ss : List β) : (groups ss).flatten=ss := by
  have hall : ∀n,((List.range n).map fun g => group g ss).flatten=ss.take (4*n) := by
    intro n
    induction n with
    | zero => rfl
    | succ n ih =>
      rw [range_succ,map_append,flatten_append,ih,map_singleton,
        flatten_singleton,group,Nat.mul_succ,take_add]
  rw [groups,hall]
  exact take_of_length_le (by omega)

/-- The parts of the input that make the runs of a pass. -/
def segments (ss : List (List α)) : Nat → List (List α)
  | 0 => ss
  | p+1 => (groups (segments ss p)).map List.flatten

theorem segments_flatten (ss : List (List α)) (p : Nat) : (segments ss p).flatten=ss.flatten := by
  induction p with
  | zero => rfl
  | succ p ih =>
    have hjoin : ∀l : List (List (List α)),(l.map List.flatten).flatten=l.flatten.flatten := by
      intro l
      rw [flatten_flatten]
    rw [segments,hjoin,groups_flatten,ih]

theorem segments_length (ss : List (List α)) (p : Nat) :
    (segments ss (p+1)).length=((segments ss p).length+3)/4 := by
  rw [segments,length_map,groups_length]

def runsOf (lt : κ → κ → Bool) (key : α → κ) (ss : List (List α)) (p : Nat) : List (List α) :=
  (segments ss p).map (sortBy lt key)

@[simp] theorem runsOf_length (ss : List (List α)) (p : Nat) :
    (runsOf lt key ss p).length=(segments ss p).length := length_map ..

theorem runsOf_succ (hw : StrictWeak lt) {ss : List (List α)} {p g : Nat}
    (h : 4*g < (segments ss p).length) : (runsOf lt key ss (p+1))[g]?=
      some (mergeLists lt key (group g (runsOf lt key ss p))) := by
  rw [runsOf,List.getElem?_map,segments,List.getElem?_map,groups_get h,runsOf,group_map,
    mergeLists_sortBy hw]
  rfl

theorem runsOf_last {ss : List (List α)} {p : Nat} (h : (segments ss p).length=1) :
    runsOf lt key ss p=[sortBy lt key ss.flatten] := by
  obtain ⟨s,hs⟩ := length_eq_one_iff.mp h
  have hflat := segments_flatten ss p
  rw [hs,flatten_singleton] at hflat
  rw [runsOf,hs,hflat]
  rfl

theorem runsOf_inOrder (hw : StrictWeak lt) (ss : List (List α)) (p : Nat) :
    InOrder lt key (runsOf lt key ss p) := by
  intro l hl
  obtain ⟨s,-,rfl⟩ := mem_map.mp hl
  exact sortBy_sorted hw s

end Passes

section Filled
variable {α : Type*} {size : α → Nat} {count limit : Nat}

theorem batchesFrom_crowded {pending : List α} {total : Nat} {a : α} {as : List α}
    (hp : pending≠[]) (h : limit < total+size a) : batchesFrom size count limit pending total (a::as)=
      pending::batches size count limit (a::as) := by
  have hfull : (!pending.isEmpty && decide (total+size a > limit))=true := by
    simp [hp,h]
  rw [batches,batchesFrom,hfull,batchesFrom]
  rfl

theorem batchesFrom_push {pending : List α} {total : Nat} {a : α} {as : List α}
    (h : ¬(pending≠[] ∧ limit < total+size a)) :
    batchesFrom size count limit pending total (a::as)=
      if (pending++[a]).length=count ∨ limit ≤ total+size a then
        (pending++[a])::batches size count limit as
      else batchesFrom size count limit (pending++[a]) (total+size a) as := by
  have hfull : (!pending.isEmpty && decide (total+size a > limit))=false := by
    rw [Bool.eq_false_iff]
    intro hc
    rw [Bool.and_eq_true,decide_eq_true_eq] at hc
    exact h ⟨by rintro rfl; simp at hc,hc.2⟩
  rw [batchesFrom,hfull]
  rfl

theorem batchesFrom_last {pending : List α} {total : Nat} (h : pending≠[]) :
    batchesFrom size count limit pending total []=[pending] := by
  rw [batchesFrom,if_neg (by simpa using h)]

/-- A batch has no more than `count` elements, and stays within the limit unless it is alone. -/
def Bounded (size : α → Nat) (count limit : Nat) (b : List α) : Prop :=
  b.length ≤ count ∧ ((b.map size).sum ≤ limit ∨ b.length=1)

theorem batchesFrom_bounded (hc : 0 < count) {pending : List α} {as : List α}
    (hlen : pending.length < count) (hsum : (pending.map size).sum < limit ∨ pending=[]) :
    ∀b∈batchesFrom size count limit pending (pending.map size).sum as,
      Bounded size count limit b := by
  have hbound : ∀{q : List α},q≠[] → q.length < count → (q.map size).sum < limit ∨ q=[] →
      Bounded size count limit q := fun hq hl h =>
    ⟨Nat.le_of_lt hl,.inl (Nat.le_of_lt (h.resolve_right hq))⟩
  induction as generalizing pending with
  | nil =>
    intro b hb
    by_cases hp : pending=[]
    · subst hp
      cases hb
    · rw [batchesFrom_last hp,mem_singleton] at hb
      rw [hb]
      exact hbound hp hlen hsum
  | cons a as ih =>
    have hadd : ∀{q : List α},q.length < count → ¬(q≠[] ∧ limit < (q.map size).sum+size a) →
        ∀b∈batchesFrom size count limit q (q.map size).sum (a::as),Bounded size count limit b := by
      intro q hl hroom b hb
      have hsum' : ((q++[a]).map size).sum=(q.map size).sum+size a := by
        rw [map_append,sum_append]
        simp
      have hq : Bounded size count limit (q++[a]) := by
        rw [Bounded,hsum',length_append,length_singleton]
        refine ⟨hl,?_⟩
        by_cases he : q=[]
        · exact .inr (by rw [he]; rfl)
        · exact .inl (by
            by_contra hgt
            exact hroom ⟨he,by omega⟩)
      rw [batchesFrom_push hroom] at hb
      split_ifs at hb with hfull
      · rcases mem_cons.mp hb with rfl | hb
        · exact hq
        · exact @ih [] hc (.inr rfl) b hb
      · rw [not_or,hsum'.symm] at hfull
        rw [←hsum'] at hb
        have hlen' : (q++[a]).length=q.length+1 := by simp
        exact ih (by omega) (.inl (by omega)) b hb
    by_cases hroom : pending≠[] ∧ limit < (pending.map size).sum+size a
    · intro b hb
      rw [batchesFrom_crowded hroom.1 hroom.2] at hb
      rcases mem_cons.mp hb with rfl | hb
      · exact hbound hroom.1 hlen hsum
      · exact @hadd [] hc (fun h => h.1 rfl) b hb
    · exact hadd hlen hroom

theorem batches_bounded (hc : 0 < count) (as : List α) :
    ∀b∈batches size count limit as,Bounded size count limit b :=
  @batchesFrom_bounded α size count limit hc [] as hc (.inr rfl)

end Filled

/-- Where a cursor stands in a list that is cut into pieces: `rest` is still to come. -/
def Behind {α : Type*} (ps : List (List α)) (batch offset : Nat) (rest : List α) : Prop :=
  batch ≤ ps.length ∧ offset ≤ (ps.getD batch []).length ∧
    rest=((ps.drop batch).flatten).drop offset

section Behind
variable {α : Type*} {ps : List (List α)} {batch offset : Nat} {rest : List α}

theorem behind_start (ps : List (List α)) : Behind ps 0 0 ps.flatten :=
  ⟨Nat.zero_le _,Nat.zero_le _,rfl⟩

theorem Behind.ended (h : Behind ps batch offset rest) (hb : batch=ps.length) : rest=[] := by
  rw [h.2.2,hb,drop_length,flatten_nil,drop_nil]

theorem Behind.within (h : Behind ps batch offset rest) (hb : batch < ps.length)
    (ho : offset < ps[batch].length) :
    ∃as,rest=ps[batch][offset]::as ∧ Behind ps batch (offset+1) as := by
  have hget : ps.getD batch []=ps[batch] := by
    rw [List.getD,List.getElem?_eq_getElem hb]
    rfl
  refine ⟨((ps.drop batch).flatten).drop (offset+1),?_,h.1,?_,rfl⟩
  · rw [h.2.2,drop_eq_getElem_cons hb,flatten_cons,drop_append_of_le_length (by omega),
      drop_eq_getElem_cons ho,drop_append_of_le_length (by omega)]
    rfl
  · rw [hget]
    omega

theorem Behind.next (h : Behind ps batch offset rest) (hb : batch < ps.length)
    (ho : ps[batch].length ≤ offset) : Behind ps (batch+1) 0 rest := by
  refine ⟨hb,Nat.zero_le _,?_⟩
  have hget : ps.getD batch []=ps[batch] := by
    rw [List.getD,List.getElem?_eq_getElem hb]
    rfl
  have hle := h.2.1
  rw [hget] at hle
  have he : offset=ps[batch].length := by omega
  rw [h.2.2,he,drop_eq_getElem_cons hb,flatten_cons,drop_left]
  rfl

end Behind

end CardKeepr.Lib
