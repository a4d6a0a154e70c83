import CardKeepr.Reconciliation.PartitionWalk
import CardKeepr.Reconciliation.TextSlices

namespace CardKeepr.Reconciliation.Partitions

open Lib Shared List

section
variable {nfc : Nfc} {cs : List (JsString×RecordSource)} {initial : JsString} {kept : TextTable}

theorem byteLength_bracketed {parts : List JsString} (h : ∀t∈parts,wellFormed t=true) :
    byteLength (bracketed parts)=2+(parts.map byteLength).sum+(parts.length-1) :=
  byteLength_enclosed h (by decide) (by decide)

/-- A partition: its records in order, read back from its content, and its bounds. -/
structure Holds (nfc : Nfc) (p : JsString×List (JsString×Json)) (row : Partition) : Prop where
  kind : row.kind=p.1
  content : jsonParse row.content=
    some (.arr (p.2.map fun e => ((envelope nfc e.2).json.canonical nfc).own))
  sha256 : row.sha256=sha256Text row.content
  records : row.record_count=p.2.length ∧ 0 < row.record_count ∧ row.record_count ≤ 128
  bytes : row.byte_length=byteLength row.content ∧ row.byte_length ≤ 524288

theorem pieces_flatten (cs : List (JsString×RecordSource)) : (pieces nfc cs).flatMap
    (fun p => p.2.map fun e => (p.1,e))= cs.flatMap fun c => c.2.entries.map fun e => (c.1,e) := by
  rw [pieces,flatMap_assoc]
  congr 1
  funext c
  have hflat := Filling.cut_flatten (m := room nfc) (.empty (room nfc)) c.2.entries
  rw [Filling.empty_parts,nil_append] at hflat
  rw [collectionPieces,flatMap_map]
  conv_rhs => rw [←hflat]
  rw [map_flatten,flatMap_def]

end

section
variable {nfc : Nfc} {draft : Draft} {initial : JsString} {kept texts : TextTable}
variable {d : Retained}

theorem before_rests (h : Retainable nfc draft.collections initial kept → texts.Le kept) :
    Rests nfc draft.collections initial kept (.before texts) :=
  ⟨0,rfl,Nat.zero_le _,h,Place.first,Nat.le_refl 0⟩

/-- What an attempt may come to. -/
def Came (nfc : Nfc) (draft : Draft) (initial : JsString) (kept : TextTable) (t : Bool×Option Nat)
    (d : Retained) : Ending JsString (JsString×Nat)×Retained → Prop
  | (.completed r,d') => Whole nfc draft.collections initial d' ∧
    r=outcome nfc draft.collections initial
  | (.stopped .cutOff,_) => t.2≠none
  | (.stopped (.continuation _),d') => t.1=true ∧
    toGo nfc draft.collections (d'.cursor initial) < toGo nfc draft.collections (d.cursor initial)
  | (.stopped (.failed _),_) => ¬Retainable nfc draft.collections initial kept
  | (.unended,_) => False

theorem attempt_spec (h : Rests nfc draft.collections initial kept d) (t : Bool×Option Nat) :
    Rests nfc draft.collections initial kept (attempt nfc draft initial t d).2 ∧
      Came nfc draft initial kept t d (attempt nfc draft initial t d) := by
  have hends : (persistCandidatePartitions nfc t.1 draft).Ends _ _
      (Halts nfc draft.collections initial kept t.1 _ (t.2=none)) := attempt_ends h rfl id
  refine hends.performAttempt (P := fun x => Rests nfc draft.collections initial kept x.2 ∧
    Came nfc draft initial kept t d x) ?_ ?_
  · intro r s hr
    exact hr
  · intro r s hr
    obtain ⟨hrest,hwhy⟩ := hr
    cases r with
    | cutOff => exact ⟨hrest,hwhy⟩
    | continuation n => exact ⟨hrest,hwhy⟩
    | failed e => exact ⟨hrest,hwhy⟩

theorem performAll_rests (h : Retainable nfc draft.collections initial kept → texts.Le kept)
    (ts : List (Bool×Option Nat)) : Rests nfc draft.collections initial kept
      (performAll (attempt nfc draft initial) ts (.before texts)) :=
  performAll_keeps (I := Rests nfc draft.collections initial kept)
    (fun t _ hd => (attempt_spec hd t).1) (before_rests h)

end

section
variable (nfc : Nfc)

end

end CardKeepr.Reconciliation.Partitions
