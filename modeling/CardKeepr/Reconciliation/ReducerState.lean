import CardKeepr.Lib.Replay
import CardKeepr.Reconciliation.Text

namespace CardKeepr.Reconciliation

open Lib Shared

structure StateRow where
  content : JsString
  sha256 : JsString
  deriving DecidableEq

/-- The tables a reducer reaches, for one preparation: `reconciliation_reducer_state` by namespace,
key digest and observation ordinal, and the text chunks. -/
@[ext] structure ReducerStore where
  state : JsString → JsString → Nat → Option StateRow
  text : TextTable

/-- A row or a chunk once retained is never changed or removed. -/
instance : PartialOrder ReducerStore where
  le u v := (∀n d o r,u.state n d o=some r → v.state n d o=some r) ∧
    ∀h o c,u.text h o=some c → v.text h o=some c
  le_refl u := ⟨fun _ _ _ _ h => h,fun _ _ _ h => h⟩
  le_trans u v w h k := ⟨fun n d o r e => k.1 n d o r (h.1 n d o r e),
    fun s o c e => k.2 s o c (h.2 s o c e)⟩
  le_antisymm u v h k := by
    apply ReducerStore.ext
    · funext n d o
      exact Option.ext fun r => ⟨h.1 n d o r,k.1 n d o r⟩
    · funext s o
      exact Option.ext fun c => ⟨h.2 s o c,k.2 s o c⟩

/-- `lastWrite` of an index. -/
structure LastWrite where
  digest : JsString
  content : JsString
  deriving DecidableEq

/-- The mutable fields of `ReconciliationReducerIndex`. -/
structure IndexState where
  ordinal : Nat
  completedPrefix : Bool
  written : List JsString
  lastWrite : Option LastWrite
  deriving DecidableEq

namespace IndexState

def fresh : IndexState := ⟨0,false,[],none⟩

def resumeAt (position : Nat) : IndexState := ⟨position,true,[],none⟩

def beginObservation (x : IndexState) : IndexState := ⟨x.ordinal+1,false,[],none⟩

/-- The first ordinal a read of this digest does not see. -/
def before (x : IndexState) (digest : JsString) : Nat :=
  x.ordinal+if x.completedPrefix ∨ digest∈x.written then 1 else 0

end IndexState

/-- One effect as `prepareWrite` binds it. -/
structure PreparedWrite where
  space : JsString
  digest : JsString
  ordinal : Nat
  content : JsString
  sha256 : JsString
  /-- `envelope.text_parts.length === 0` -/
  whole : Bool

/-- The row of greatest ordinal below the bound. -/
def latestBelow {α : Type} (rows : Nat → Option α) : Nat → Option α
  | 0 => none
  | n+1 => match rows n with
    | some r => some r
    | none => latestBelow rows n

def reducerStateStatement (u : ReducerStore) (space digest : JsString) (before : Nat) :
    Option StateRow := latestBelow (u.state space digest) before

/-- `reducerStateLookupPageStatement`: a missing key keeps its row, and the running total of the
contents bounds the page. -/
def reducerStateLookupPage (u : ReducerStore) (space : JsString)
    (requests : List (JsString × Nat)) : List (Option StateRow) :=
  bounded (fun row => (row.map fun r => byteLength r.content).getD 0) 131072 0
    (requests.map fun q => reducerStateStatement u space q.1 q.2)

/-- `retainReducerStateStatement`: the row it returns, `none` on a conflict. -/
def retainReducerState (u : ReducerStore) (w : PreparedWrite) : Option StateRow × ReducerStore :=
  match u.state w.space w.digest w.ordinal with
  | some _ => (none,u)
  | none =>
    let row : StateRow := ⟨storedText w.content,w.sha256⟩
    (some row,{ u with state := fun n d o =>
      if n=w.space ∧ d=w.digest ∧ o=w.ordinal then some row else u.state n d o })

def retainReducerStates : List PreparedWrite → ReducerStore → List (Option StateRow) × ReducerStore
  | [],u => ([],u)
  | w::ws,u =>
    let r := retainReducerState u w
    let rs := retainReducerStates ws r.2
    (r.1::rs.1,rs.2)

def exactReducerState (u : ReducerStore) (w : PreparedWrite) : Option StateRow :=
  u.state w.space w.digest w.ordinal

def matchingReducerState (u : ReducerStore) (w : PreparedWrite) : Option StateRow :=
  (exactReducerState u w).filter fun r => r.content=w.content ∧ r.sha256=w.sha256

/-- The transactions of a reducer. -/
inductive ReducerCall where
  | retainText (chunks : List TextChunk)
  | textPages (requests : List (JsString × Nat × Nat))
  | states (requests : List (JsString × JsString × Nat))
  | lookup (space : JsString) (requests : List (JsString × Nat))
  | retainStates (writes : List PreparedWrite)
  | exactState (write : PreparedWrite)
  | matchingStates (writes : List PreparedWrite)

@[reducible] def ReducerCall.Answer : ReducerCall → Type
  | .retainText _ => List (Option JsString)
  | .textPages _ => List (List (Nat × JsString))
  | .states _ => List (Option StateRow)
  | .lookup _ _ => List (Option StateRow)
  | .retainStates _ => Option (List (Option StateRow))
  | .exactState _ => Option StateRow
  | .matchingStates _ => List (Option StateRow)

/-- What the database does in one transaction. A state row of ordinal zero fails its check and
takes the whole transaction with it. -/
def ReducerStore.refer : (op : ReducerCall) → ReducerStore → op.Answer × ReducerStore
  | .retainText chunks,u =>
    let r := retainTextBatch chunks u.text
    (r.1,{ u with text := r.2 })
  | .textPages requests,u => (requests.map fun q => textPage u.text q.1 q.2.1 q.2.2,u)
  | .states requests,u => (requests.map fun q => reducerStateStatement u q.1 q.2.1 q.2.2,u)
  | .lookup space requests,u => (reducerStateLookupPage u space requests,u)
  | .retainStates writes,u =>
    if ∃w∈writes,w.ordinal=0 then (none,u)
    else
      let r := retainReducerStates writes u
      (some r.1,r.2)
  | .exactState write,u => (exactReducerState u write,u)
  | .matchingStates writes,u => (writes.map (matchingReducerState u),u)

end CardKeepr.Reconciliation
