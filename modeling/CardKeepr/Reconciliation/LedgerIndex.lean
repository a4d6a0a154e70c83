import CardKeepr.Lib.Attempt
import CardKeepr.Lib.Ledger

namespace CardKeepr.Reconciliation

open Lib

variable {κ α : Type}

/-- The mutable fields of a `ReconciliationReducerIndex` of typed values, a key in place of its
digest. -/
structure LedgerIndex (κ α : Type) where
  ordinal : Nat
  completedPrefix : Bool
  written : List κ
  lastWrite : Option (κ×α)

namespace LedgerIndex

def fresh : LedgerIndex κ α := ⟨0,false,[],none⟩

def resumeAt (position : Nat) : LedgerIndex κ α := ⟨position,true,[],none⟩

def beginObservation (x : LedgerIndex κ α) : LedgerIndex κ α := ⟨x.ordinal+1,false,[],none⟩

/-- `accept`; a small value without text parts is kept at hand. -/
def accept (x : LedgerIndex κ α) (whole : α → Bool) (key : κ) (value : α) : LedgerIndex κ α :=
  { x with
    written := key::x.written,
    lastWrite := if whole value=true then some (key,value) else none }

/-- The row that `seed` retains. -/
def seedRow (x : LedgerIndex κ α) (key : κ) (value : α) : Numbered κ α := ⟨x.ordinal+1,key,value⟩

/-- The index after `seed`. -/
def seeded (x : LedgerIndex κ α) (whole : α → Bool) (key : κ) (value : α) : LedgerIndex κ α :=
  x.beginObservation.accept whole key value

section
variable [DecidableEq κ]

/-- The first ordinal a read of this key does not see. -/
def before (x : LedgerIndex κ α) (key : κ) : Nat :=
  x.ordinal+if x.completedPrefix ∨ key∈x.written then 1 else 0

def get (x : LedgerIndex κ α) (rows : List (Numbered κ α)) (key : κ) : Option α :=
  if x.ordinal=0 then none
  else match x.lastWrite.filter fun w => decide (w.1=key) with
    | some w => some w.2
    | none => latest rows key (x.before key)

end

@[simp] theorem seeded_ordinal (x : LedgerIndex κ α) (whole : α → Bool) (key : κ) (value : α) :
    (x.seeded whole key value).ordinal=x.ordinal+1 := rfl

/-- An index that has been reopened, or that wrote the last effect itself. -/
structure Follows (x : LedgerIndex κ α) (log : List (κ×α)) : Prop where
  written : x.completedPrefix=false → x.ordinal≠0 →
    ∃e,log[x.ordinal-1]?=some e ∧ x.written=[e.1]
  lastWrite : ∀w,x.lastWrite=some w → log[x.ordinal-1]?=some w

theorem fresh_follows (log : List (κ×α)) : (fresh : LedgerIndex κ α).Follows log :=
  ⟨fun _ h => absurd rfl h,fun _ h => by cases h⟩

theorem resumeAt_follows (position : Nat) (log : List (κ×α)) :
    (resumeAt position : LedgerIndex κ α).Follows log :=
  ⟨fun h => (by cases h),fun _ h => (by cases h)⟩

variable {x : LedgerIndex κ α} {log : List (κ×α)} {rows : List (Numbered κ α)}

theorem seeded_follows {whole : α → Bool} {e : κ×α} (he : log[x.ordinal]?=some e) :
    (x.seeded whole e.1 e.2).Follows log := by
  refine ⟨fun _ _ => ⟨e,he,rfl⟩,fun w hw => ?_⟩
  rw [seeded,accept] at hw
  dsimp only at hw
  split at hw
  · rw [seeded_ordinal,Nat.add_sub_cancel,he]
    exact hw
  · cases hw

theorem Follows.get [DecidableEq κ] (hx : x.Follows log) (h : Holding 0 log x.ordinal rows)
    (hn : x.ordinal ≤ log.length) (key : κ) : x.get rows key=lastOf (log.take x.ordinal) key := by
  rw [LedgerIndex.get]
  by_cases h0 : x.ordinal=0
  · rw [if_pos h0,h0]
    rfl
  · have hlt : x.ordinal-1 < log.length := by omega
    have hsplit : log.take x.ordinal=log.take (x.ordinal-1)++[log[x.ordinal-1]] := by
      have hone : x.ordinal=x.ordinal-1+1 := by omega
      conv_lhs => rw [hone]
      exact List.take_succ_eq_append_getElem hlt
    have hget : log[x.ordinal-1]?=some log[x.ordinal-1] := List.getElem?_eq_getElem hlt
    rw [if_neg h0]
    cases hw : x.lastWrite.filter fun w => decide (w.1=key) with
    | some w =>
      obtain ⟨hl,hk⟩ := Option.filter_eq_some_iff.mp hw
      have hlog := hx.lastWrite w hl
      rw [hget] at hlog
      rw [hsplit,lastOf_append,Option.some.inj hlog,if_pos (of_decide_eq_true hk).symm]
    | none =>
      dsimp only
      rw [before]
      split_ifs with hc
      · exact h.latest hn key
      · -- the last effect is of another key
        obtain ⟨hp,hnot⟩ := not_or.mp hc
        obtain ⟨e,he,hwritten⟩ := hx.written (by simpa using hp) h0
        have hne : key≠e.1 := by
          rw [hwritten,List.mem_singleton] at hnot
          exact hnot
        have hlow : Holding 0 log (x.ordinal-1) rows := h.lower (by omega)
        have habsent := hlow.absent he hne
        rw [hget] at he
        rw [hsplit,lastOf_append,Option.some.inj he,if_neg hne,
          ←hlow.latest (by omega) key,Nat.add_zero]
        have hone : x.ordinal=x.ordinal-1+1 := by omega
        rw [hone,Nat.add_sub_cancel]

end LedgerIndex

end CardKeepr.Reconciliation
