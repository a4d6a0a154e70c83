import Mathlib.Data.List.Sort
import Mathlib.Data.List.Dedup
import Mathlib.Order.Defs.LinearOrder

namespace CardKeepr.Lib

open List

variable {κ α : Type}

structure Numbered (κ α : Type) where
  ordinal : Nat
  key : κ
  value : α

/-- Behind `base` stand effects of the log only, and its first `n` effects are there. -/
structure Holding (base : Nat) (log : List (κ×α)) (n : Nat) (rows : List (Numbered κ α)) :
    Prop where
  distinct : rows.Nodup
  positive : ∀r∈rows,0 < r.ordinal
  sound : ∀r∈rows,base < r.ordinal → log[r.ordinal-base-1]?=some (r.key,r.value)
  reached : ∀i < n,∀e,log[i]?=some e → ⟨base+i+1,e.1,e.2⟩∈rows

/-- The rows of a log behind `base`, each effect at its ordinal. -/
def numbered (base : Nat) (log : List (κ×α)) : List (Numbered κ α) :=
  log.mapIdx fun i e => ⟨base+i+1,e.1,e.2⟩

section
variable {base n : Nat} {log : List (κ×α)} {rows : List (Numbered κ α)}

theorem holding_empty (base : Nat) (log : List (κ×α)) : Holding base log 0 [] :=
  ⟨nodup_nil,fun _ h => (not_mem_nil h).elim,fun _ h => (not_mem_nil h).elim,
    fun i hi => (Nat.not_lt_zero i hi).elim⟩

theorem Holding.lower {m : Nat} (h : Holding base log n rows) (hm : m ≤ n) :
    Holding base log m rows :=
  ⟨h.distinct,h.positive,h.sound,fun i hi => h.reached i (by omega)⟩

theorem mem_numbered {r : Numbered κ α} :
    r∈numbered base log ↔ ∃i e,log[i]?=some e ∧ r=⟨base+i+1,e.1,e.2⟩ := by
  rw [numbered,mem_mapIdx]
  constructor
  · rintro ⟨i,hi,rfl⟩
    exact ⟨i,_,List.getElem?_eq_getElem hi,rfl⟩
  · rintro ⟨i,e,he,rfl⟩
    obtain ⟨hi,rfl⟩ := List.getElem?_eq_some_iff.mp he
    exact ⟨i,hi,rfl⟩

theorem numbered_nodup : (numbered base log).Nodup := by
  rw [numbered,nodup_iff_pairwise_ne,pairwise_iff_getElem]
  intro i j hi hj hij he
  rw [getElem_mapIdx,getElem_mapIdx] at he
  have ho := congrArg Numbered.ordinal he
  dsimp only at ho
  omega

theorem Holding.part (h : Holding base log n rows) {m : Nat} (hm : m ≤ n) :
    (rows.filter fun r => decide (base < r.ordinal ∧ r.ordinal ≤ base+m)).Perm
      (numbered base (log.take m)) := by
  refine (perm_ext_iff_of_nodup (h.distinct.filter _) numbered_nodup).mpr fun r => ?_
  rw [mem_filter,mem_numbered,decide_eq_true_iff]
  constructor
  · rintro ⟨hr,hlt,hle⟩
    refine ⟨r.ordinal-base-1,(r.key,r.value),?_,?_⟩
    · rw [List.getElem?_take_of_lt (by omega)]
      exact h.sound r hr hlt
    · have ho : base+(r.ordinal-base-1)+1=r.ordinal := by omega
      rw [ho]
  · rintro ⟨i,e,he,rfl⟩
    have hi : i < m := by
      have hlt := (List.getElem?_eq_some_iff.mp he).1
      rw [length_take] at hlt
      omega
    rw [List.getElem?_take_of_lt hi] at he
    refine ⟨h.reached i (by omega) e he,?_,?_⟩
    · show base < base+i+1
      omega
    · show base+i+1 ≤ base+m
      omega

theorem Holding.all (h : Holding base log log.length rows) :
    (rows.filter fun r => decide (base < r.ordinal)).Perm (numbered base log) := by
  have hpart := h.part (le_refl log.length)
  rw [take_length] at hpart
  have hsame : ∀r∈rows,decide (base < r.ordinal)=
      decide (base < r.ordinal ∧ r.ordinal ≤ base+log.length) := by
    intro r hr
    refine decide_eq_decide.mpr ⟨fun hlt => ⟨hlt,?_⟩,And.left⟩
    have hin := (List.getElem?_eq_some_iff.mp (h.sound r hr hlt)).1
    omega
  rw [filter_congr hsame]
  exact hpart

end

section
variable [DecidableEq κ]

def rowAt (rows : List (Numbered κ α)) (ordinal : Nat) (key : κ) : Option (Numbered κ α) :=
  rows.find? fun r => decide (r.ordinal=ordinal ∧ r.key=key)

/-- A row that is there already must be the same. -/
def retainRow [DecidableEq α] (rows : List (Numbered κ α)) (r : Numbered κ α) :
    Bool × List (Numbered κ α) :=
  match rowAt rows r.ordinal r.key with
  | some s => (decide (s.value=r.value),rows)
  | none => (true,rows++[r])

/-- The value of the greatest ordinal below a bound. -/
def latest (rows : List (Numbered κ α)) (key : κ) : Nat → Option α
  | 0 => none
  | n+1 =>
    match rowAt rows n key with
    | some r => some r.value
    | none => latest rows key n

def lastOf (log : List (κ×α)) (key : κ) : Option α := log.reverse.lookup key

@[simp] theorem lastOf_nil (key : κ) : lastOf ([] : List (κ×α)) key=none := rfl

theorem lastOf_append (log : List (κ×α)) (e : κ×α) (key : κ) :
    lastOf (log++[e]) key=if key=e.1 then some e.2 else lastOf log key := by
  rw [lastOf,reverse_append,reverse_singleton,singleton_append,lookup_cons]
  split_ifs with h
  · rw [h,beq_self_eq_true]
  · rw [beq_eq_false_iff_ne.mpr h]
    rfl

theorem lastOf_mem {log : List (κ×α)} {key : κ} {a : α} (h : lastOf log key=some a) :
    (key,a)∈log := by
  obtain ⟨l,r,he,-⟩ := lookup_eq_some_iff.mp h
  have hin : (key,a)∈log.reverse := by
    rw [he]
    simp
  exact mem_reverse.mp hin

variable {base n : Nat} {log : List (κ×α)} {rows : List (Numbered κ α)}

theorem rowAt_some {ordinal : Nat} {key : κ} {r : Numbered κ α}
    (h : rowAt rows ordinal key=some r) : r∈rows ∧ r.ordinal=ordinal ∧ r.key=key := by
  have hp := List.find?_some h
  exact ⟨List.mem_of_find?_eq_some h,of_decide_eq_true hp⟩

theorem rowAt_none {ordinal : Nat} {key : κ} (h : rowAt rows ordinal key=none) :
    ∀r∈rows,¬(r.ordinal=ordinal ∧ r.key=key) := by
  intro r hr hk
  have hp := List.find?_eq_none.mp h r hr
  exact hp (decide_eq_true hk)

theorem Holding.retain [DecidableEq α] (h : Holding base log n rows) {e : κ×α}
    (he : log[n]?=some e) : (retainRow rows ⟨base+n+1,e.1,e.2⟩).1=true ∧ Holding base log (n+1)
    (retainRow rows ⟨base+n+1,e.1,e.2⟩).2 := by
  have hindex : base+n+1-base-1=n := by omega
  rw [retainRow]
  cases hr : rowAt rows (base+n+1) e.1 with
  | some s =>
    obtain ⟨hs,ho,hk⟩ := rowAt_some hr
    have hlog := h.sound s hs (by omega)
    rw [ho,hindex,he] at hlog
    have hv : e.2=s.value := congrArg Prod.snd (Option.some.inj hlog)
    refine ⟨decide_eq_true hv.symm,h.distinct,h.positive,h.sound,fun i hi e' he' => ?_⟩
    rcases Nat.lt_succ_iff_lt_or_eq.mp hi with hlt | rfl
    · exact h.reached i hlt e' he'
    · obtain rfl := Option.some.inj (he.symm.trans he')
      have hrow : (⟨base+i+1,e.1,e.2⟩ : Numbered κ α)=s := by
        rw [hv,←hk,←ho]
      rw [hrow]
      exact hs
  | none =>
    have hnew : (⟨base+n+1,e.1,e.2⟩ : Numbered κ α)∉rows := fun hin =>
      rowAt_none hr _ hin ⟨rfl,rfl⟩
    refine ⟨rfl,?_,fun r hr => ?_,fun r hr hb => ?_,fun i hi e' he' => ?_⟩
    · exact nodup_append.mpr ⟨h.distinct,nodup_singleton _,fun a ha b hb hab => by
        rw [mem_singleton.mp hb] at hab
        exact hnew (hab ▸ ha)⟩
    · rcases mem_append.mp hr with hr | hr
      · exact h.positive r hr
      · rw [mem_singleton.mp hr]
        exact Nat.succ_pos _
    · rcases mem_append.mp hr with hr | hr
      · exact h.sound r hr hb
      · rw [mem_singleton.mp hr]
        dsimp only
        rw [hindex,he]
    · rcases Nat.lt_succ_iff_lt_or_eq.mp hi with hlt | rfl
      · exact mem_append_left _ (h.reached i hlt e' he')
      · obtain rfl := Option.some.inj (he.symm.trans he')
        simp

theorem Holding.absent (h : Holding 0 log n rows) {e : κ×α} (he : log[n]?=some e) {key : κ}
    (hk : key≠e.1) : rowAt rows (n+1) key=none := by
  cases hr : rowAt rows (n+1) key with
  | none => rfl
  | some r =>
    obtain ⟨hr,ho,hrk⟩ := rowAt_some hr
    have hlog := h.sound r hr (by omega)
    have hindex : r.ordinal-0-1=n := by omega
    rw [hindex,he] at hlog
    have hfst : e.1=r.key := congrArg Prod.fst (Option.some.inj hlog)
    exact absurd (hrk.symm.trans hfst.symm) hk

theorem Holding.before (h : Holding 0 log n rows) (key : κ) : latest rows key 1=none := by
  have hnone : rowAt rows 0 key=none := by
    cases hr : rowAt rows 0 key with
    | none => rfl
    | some r =>
      obtain ⟨hr,ho,-⟩ := rowAt_some hr
      have hpos := h.positive r hr
      omega
  rw [latest,hnone]
  rfl

theorem Holding.latest (h : Holding 0 log n rows) (hn : n ≤ log.length) (key : κ) :
    latest rows key (n+1)=lastOf (log.take n) key := by
  induction n with
  | zero => exact h.before key
  | succ n ih =>
    have hlt : n < log.length := by omega
    have hget : log[n]?=some log[n] := List.getElem?_eq_getElem hlt
    have hlow : Holding 0 log n rows := h.lower (by omega)
    rw [Lib.latest,take_add_one,hget,Option.toList_some,lastOf_append]
    split_ifs with hk
    · cases hr : rowAt rows (n+1) key with
      | some r =>
        obtain ⟨hr,ho,-⟩ := rowAt_some hr
        have hlog := h.sound r hr (by omega)
        have hindex : r.ordinal-0-1=n := by omega
        rw [hindex,hget] at hlog
        exact congrArg some (congrArg Prod.snd (Option.some.inj hlog)).symm
      | none =>
        have hrow := h.reached n (by omega) _ hget
        exact absurd ⟨by dsimp only; omega,hk.symm⟩ (rowAt_none hr _ hrow)
    · rw [hlow.absent hget hk]
      exact ih hlow (by omega)

end

section
variable [LinearOrder κ]

/-- The rows up to an ordinal that no later one of their key replaces. -/
def current (rows : List (Numbered κ α)) (through : Nat) : List (Numbered κ α) :=
  rows.filter fun r => decide (r.ordinal ≤ through) &&
    rows.all fun s => decide (s.key=r.key → s.ordinal ≤ through → s.ordinal ≤ r.ordinal)

/-- The current values behind a key, in the order of the keys. -/
def entityValues (rows : List (Numbered κ α)) (through : Nat) (behind : κ) : List (κ×α) :=
  (((current rows through).map fun r => (r.key,r.value)).filter
    fun e => decide (behind < e.1)).insertionSort fun a b => a.1 ≤ b.1

/-- The last value of every key of a log, in the order of the keys. -/
def entities (log : List (κ×α)) : List (κ×α) :=
  ((log.map Prod.fst).dedup.insertionSort fun a b => a ≤ b).filterMap fun k =>
    (lastOf log k).map fun a => (k,a)

variable {n : Nat} {log : List (κ×α)} {rows : List (Numbered κ α)}

theorem mem_entities {k : κ} {a : α} : (k,a)∈entities log ↔ lastOf log k=some a := by
  rw [entities,mem_filterMap]
  constructor
  · rintro ⟨l,-,h⟩
    obtain ⟨b,hb,he⟩ := Option.map_eq_some_iff.mp h
    obtain ⟨rfl,rfl⟩ := Prod.mk.inj he
    exact hb
  · intro h
    refine ⟨k,?_,by rw [h]; rfl⟩
    rw [mem_insertionSort,mem_dedup]
    exact mem_map_of_mem (f := Prod.fst) (lastOf_mem h)

theorem entities_sorted (log : List (κ×α)) : (entities log).Pairwise fun a b => a.1 < b.1 := by
  have hsorted : ((log.map Prod.fst).dedup.insertionSort fun a b => a ≤ b).Pairwise
      fun a b => a < b := by
    have hle := pairwise_insertionSort (fun a b : κ => a ≤ b) (log.map Prod.fst).dedup
    have hne : ((log.map Prod.fst).dedup.insertionSort fun a b => a ≤ b).Nodup :=
      (perm_insertionSort _ _).nodup_iff.mpr (nodup_dedup _)
    exact (hle.and hne).imp fun h => lt_of_le_of_ne h.1 h.2
  refine pairwise_filterMap.mpr (hsorted.imp fun hlt a ha b hb => ?_)
  obtain ⟨x,-,rfl⟩ := Option.map_eq_some_iff.mp ha
  obtain ⟨y,-,rfl⟩ := Option.map_eq_some_iff.mp hb
  exact hlt

theorem ledger_sorted_unique {as bs : List (κ×α)} (ha : as.Pairwise fun a b => a.1 < b.1)
    (hb : bs.Pairwise fun a b => a.1 < b.1) (h : ∀e,e∈as ↔ e∈bs) : as=bs := by
  have hna : as.Nodup := ha.imp fun hlt he => absurd (congrArg Prod.fst he) (ne_of_lt hlt)
  have hnb : bs.Nodup := hb.imp fun hlt he => absurd (congrArg Prod.fst he) (ne_of_lt hlt)
  have hperm : as.Perm bs := (perm_ext_iff_of_nodup hna hnb).mpr h
  exact hperm.eq_of_pairwise (fun a b _ _ h1 h2 => absurd h1 (lt_asymm h2)) ha hb

theorem latest_some {key : κ} {m : Nat} {a : α} (h : latest rows key m=some a) : ∃r∈rows,r.key=key ∧
    r.ordinal < m ∧ r.value=a ∧ ∀s∈rows,s.key=key → s.ordinal < m → s.ordinal ≤ r.ordinal := by
  induction m with
  | zero => cases h
  | succ m ih =>
    rw [latest] at h
    cases hr : rowAt rows m key with
    | some r =>
      rw [hr] at h
      obtain ⟨hr,ho,hk⟩ := rowAt_some hr
      exact ⟨r,hr,hk,by omega,Option.some.inj h,fun s _ _ hs => by omega⟩
    | none =>
      rw [hr] at h
      obtain ⟨r,hr',hk,ho,hv,hmax⟩ := ih h
      refine ⟨r,hr',hk,by omega,hv,fun s hs hsk hlt => ?_⟩
      rcases Nat.lt_succ_iff_lt_or_eq.mp hlt with hlt | heq
      · exact hmax s hs hsk hlt
      · exact (rowAt_none hr s hs ⟨heq,hsk⟩).elim

theorem latest_none {key : κ} {m : Nat} (h : latest rows key m=none) :
    ∀r∈rows,r.key=key → m ≤ r.ordinal := by
  induction m with
  | zero => exact fun r _ _ => Nat.zero_le _
  | succ m ih =>
    rw [latest] at h
    cases hr : rowAt rows m key with
    | some r =>
      rw [hr] at h
      cases h
    | none =>
      rw [hr] at h
      intro r hin hk
      have hle := ih h r hin hk
      have hne : r.ordinal≠m := fun he => rowAt_none hr r hin ⟨he,hk⟩
      omega

theorem mem_current {r : Numbered κ α} : r∈current rows n ↔ r∈rows ∧ r.ordinal ≤ n ∧
    ∀s∈rows,s.key=r.key → s.ordinal ≤ n → s.ordinal ≤ r.ordinal := by
  rw [current,mem_filter,Bool.and_eq_true,decide_eq_true_iff,all_eq_true]
  simp only [decide_eq_true_iff]

theorem Holding.current_iff (h : Holding 0 log n rows) (hn : n ≤ log.length) {k : κ} {a : α} :
    (∃r∈current rows n,r.key=k ∧ r.value=a) ↔ lastOf (log.take n) k=some a := by
  rw [←h.latest hn k]
  constructor
  · rintro ⟨r,hr,rfl,rfl⟩
    obtain ⟨hin,hle,hmax⟩ := mem_current.mp hr
    cases hl : Lib.latest rows r.key (n+1) with
    | none =>
      have hge := latest_none hl r hin rfl
      omega
    | some b =>
      obtain ⟨s,hs,hsk,hlt,rfl,hsmax⟩ := latest_some hl
      have h1 := hmax s hs hsk (by omega)
      have h2 := hsmax r hin rfl (by omega)
      have hrow := h.sound r hin (h.positive r hin)
      have hother := h.sound s hs (h.positive s hs)
      have ho : s.ordinal=r.ordinal := by omega
      rw [ho,hrow] at hother
      exact congrArg some (congrArg Prod.snd (Option.some.inj hother)).symm
  · intro hl
    obtain ⟨r,hr,hk,hlt,hv,hmax⟩ := latest_some hl
    refine ⟨r,mem_current.mpr ⟨hr,by omega,fun s hs hsk hle => ?_⟩,hk,hv⟩
    exact hmax s hs (hsk.trans hk) (by omega)

theorem current_nodup (h : Holding 0 log n rows) :
    ((current rows n).map fun r => (r.key,r.value)).Nodup := by
  refine List.Nodup.map_on (fun r hr s hs he => ?_) (h.distinct.filter _)
  obtain ⟨hr,hrn,hrmax⟩ := mem_current.mp hr
  obtain ⟨hs,hsn,hsmax⟩ := mem_current.mp hs
  obtain ⟨hk,hv⟩ := Prod.mk.inj he
  have h1 := hrmax s hs hk.symm hsn
  have h2 := hsmax r hr hk hrn
  obtain ⟨ro,rk,rv⟩ := r
  obtain ⟨so,sk,sv⟩ := s
  dsimp only at hk hv h1 h2
  rw [hk,hv,Nat.le_antisymm h2 h1]

theorem Holding.entityValues (h : Holding 0 log n rows) (hn : n ≤ log.length) (behind : κ) :
    entityValues rows n behind=(entities (log.take n)).filter fun e => decide (behind < e.1) := by
  have hmem : ∀e : κ×α,e∈(current rows n).map (fun r => (r.key,r.value)) ↔
      e∈entities (log.take n) := by
    rintro ⟨k,a⟩
    rw [mem_entities,←h.current_iff hn,mem_map]
    simp only [Prod.mk.injEq]
  refine ledger_sorted_unique ?_ ((entities_sorted _).filter _) fun e => ?_
  · have hnodup := (current_nodup h).filter fun e => decide (behind < e.1)
    have hkeys : ∀a∈(current rows n).map (fun r => (r.key,r.value)),
        ∀b∈(current rows n).map (fun r => (r.key,r.value)),a.1=b.1 → a=b := by
      rintro ⟨k,a⟩ ha ⟨l,b⟩ hb rfl
      have h1 := mem_entities.mp ((hmem _).mp ha)
      have h2 := mem_entities.mp ((hmem _).mp hb)
      rw [h1] at h2
      rw [Option.some.inj h2]
    have hle := pairwise_insertionSort (fun a b : κ×α => a.1 ≤ b.1)
      (((current rows n).map fun r => (r.key,r.value)).filter fun e => decide (behind < e.1))
    have hperm := perm_insertionSort (fun a b : κ×α => a.1 ≤ b.1)
      (((current rows n).map fun r => (r.key,r.value)).filter fun e => decide (behind < e.1))
    rw [Lib.entityValues]
    refine (hle.and (hperm.nodup_iff.mpr hnodup)).imp_of_mem fun {a b} ha hb hab => ?_
    refine lt_of_le_of_ne hab.1 fun he => hab.2 (hkeys a ?_ b ?_ he)
    · exact mem_of_mem_filter (hperm.mem_iff.mp ha)
    · exact mem_of_mem_filter (hperm.mem_iff.mp hb)
  · rw [Lib.entityValues,mem_insertionSort,mem_filter,mem_filter,hmem]

end

end CardKeepr.Lib
