import CardKeepr.Lib.Attempt
import CardKeepr.Shared.JsString

namespace CardKeepr.Reconciliation

open Shared

def checkpointChanged : JsString :=
  js "Reconciliation checkpoint replay changed immutable content.".toList

variable {κ : Type} [DecidableEq κ]

/-- `retainReconciliationCheckpoint` in a phase whose ordinals begin at zero: an ordinal that is
taken keeps its value. -/
def retainCheckpoint (rows : List κ) (ordinal : Nat) (value : κ) : Except JsString (List κ) :=
  match rows[ordinal]? with
  | some r => if r=value then .ok rows else .error checkpointChanged
  | none => .ok (rows++[value])

theorem retainCheckpoint_next {rows : List κ} {ordinal : Nat} (h : ordinal=rows.length)
    (value : κ) : retainCheckpoint rows ordinal value=.ok (rows++[value]) := by
  have hnone : rows[ordinal]?=none := by
    rw [h]
    exact List.getElem?_eq_none (Nat.le_refl _)
  rw [retainCheckpoint,hnone]

end CardKeepr.Reconciliation
