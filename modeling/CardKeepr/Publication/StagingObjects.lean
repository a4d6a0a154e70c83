import CardKeepr.Lib.Fallible
import CardKeepr.Shared.Sha256

namespace CardKeepr.Staging

open Lib Shared

inductive StagingBinding where
  | PRINTING_IMAGES | CATALOGUE_EXPORTS
  deriving DecidableEq

/-- A key in one of the two buckets; statements write it `binding||':'||object_key`. -/
structure ObjectKey where
  binding : StagingBinding
  object_key : JsString
  deriving DecidableEq

structure R2Object where
  content : List UInt8
  cleanup_writer_token : Option JsString

inductive StagingState where
  | available | reserved | deleting | deleted
  deriving DecidableEq

/-- `staging_objects`. -/
structure StagingObject where
  incarnation : Nat
  state : StagingState
  cleanup_id : Option JsString
  reserved_at : Option Nat

/-- `staging_object_writes`. -/
structure StagingWrite where
  token : JsString
  preparation_id : JsString
  key : ObjectKey
  incarnation : Nat
  completed : Bool

/-- `staging_object_deletes`. -/
structure StagingDelete where
  token : JsString
  key : ObjectKey
  incarnation : Nat
  cleanup_id : JsString
  completed : Bool
  /-- the thread that took the ticket, which is not a column -/
  owner : Nat

inductive PreparationState where
  | active | failed | abandoned
  deriving DecidableEq

/-- `reconciliation_operations`, with instants in milliseconds. -/
structure Preparation where
  state : PreparationState
  terminal_at : Option Nat

/-- `evidence_cleanup_operations` of scope `staging`. -/
structure StagingCleanup where
  id : JsString
  preparation_id : JsString
  retention_days : Nat
  terminal_at : Nat
  eligible_at : Nat

/-- The row of a preparation that names an object: an artifact, a composition node or
`root_digest`. -/
inductive PublicationRow where
  | artifact (ordinal : Nat) (kind : JsString)
  | node (level ordinal : Nat)
  | root

def printingImages : JsString := js "printing_images".toList

/-- Where the fences and `staging_retained_objects` look for the object of a row. -/
def PublicationRow.binding : PublicationRow → StagingBinding
  | .artifact _ kind => if kind=printingImages then .PRINTING_IMAGES else .CATALOGUE_EXPORTS
  | .node _ _ => .CATALOGUE_EXPORTS
  | .root => .CATALOGUE_EXPORTS

/-- A verified object that is to be named by a row. The last two fields are not kept by the
source: the bucket it was verified in, and the incarnation then in force. -/
structure Receipt where
  row : PublicationRow
  object_key : JsString
  sha256 : JsString
  byte_length : Nat
  reused : Bool
  stored : StagingBinding
  seen : Nat

/-- A committed row, with the incarnation of its object when it was committed. -/
structure Reference extends Receipt where
  candidate_id : JsString
  admitted : Nat

/-- The key under which the object was verified. -/
def Receipt.key (r : Receipt) : ObjectKey := ⟨r.stored,r.object_key⟩

def Receipt.fenced (r : Receipt) : ObjectKey := ⟨r.row.binding,r.object_key⟩

/-- A bucket delete that was executed, with the writers and the incarnation then. -/
structure Deletion where
  key : ObjectKey
  incarnation : Nat
  openWrite : Bool
  current : Nat

/-- A delete whose caller was told that it failed; it may still happen. -/
structure LostDelete where
  key : ObjectKey
  incarnation : Nat
  token : JsString

structure Store where
  bucket : ObjectKey → Option R2Object
  objects : ObjectKey → Option StagingObject
  writes : List StagingWrite
  deletes : List StagingDelete
  preparations : JsString → Option Preparation
  /-- `game_candidates.preparation_id` -/
  candidates : JsString → Option JsString
  cleanups : List StagingCleanup
  references : List Reference
  /-- the keys that the other tables of `staging_retained_objects` name -/
  retained : List ObjectKey
  /-- a backup attempt still covers what is about to be deleted -/
  backup : Bool
  /-- puts whose caller was told that they failed -/
  lostPuts : List (ObjectKey × R2Object)
  lostDeletes : List LostDelete
  deletions : List Deletion

/-- The messages of the triggers and `constraint` for a primary key. -/
inductive Fault where
  | staging_writer_fenced | staging_incarnation_fenced | staging_reference_protected
  | staging_delete_waiting | staging_reference_fenced | constraint

def day : Nat := 86400000

namespace Store

def setObject (s : Store) (k : ObjectKey) (o : StagingObject) : Store :=
  { s with objects := fun l => if l=k then some o else s.objects l }

def setBucket (s : Store) (k : ObjectKey) (o : Option R2Object) : Store :=
  { s with bucket := fun l => if l=k then o else s.bucket l }

def incarnation (s : Store) (k : ObjectKey) : Nat := (s.objects k).elim 0 StagingObject.incarnation

def free (s : Store) (k : ObjectKey) : Bool :=
  (s.objects k).all fun o => o.state=.available

def openWrite (s : Store) (k : ObjectKey) : Bool := s.writes.any fun w => w.key=k && !w.completed

def openDelete (s : Store) (k : ObjectKey) : Bool := s.deletes.any fun d => d.key=k && !d.completed

/-- `staging_retained_objects`. -/
def isRetained (s : Store) (k : ObjectKey) : Bool :=
  s.references.any (fun r => r.fenced=k) || s.retained.any fun l => l=k

/-- `preparation.state NOT IN ('failed','abandoned')`. -/
def isActive (s : Store) (id : JsString) : Bool := (s.preparations id).any fun p => p.state=.active

/-- `COALESCE((SELECT preparation_id FROM game_candidates WHERE id=?),?)`. -/
def ownerOf (s : Store) (preparation : JsString) : JsString :=
  (s.candidates preparation).getD preparation

/-- The row a writer finds or makes, a deleted one in its next incarnation. -/
def admitted (s : Store) (k : ObjectKey) : StagingObject := match s.objects k with
  | none => ⟨0,.available,none,none⟩
  | some o => if o.state=.deleted then ⟨o.incarnation+1,.available,none,none⟩ else o

def isDeleted (s : Store) (k : ObjectKey) : Bool := (s.objects k).any fun o => o.state=.deleted

/-- The two statements for one key, with `staging_incarnation_guard` on the first and
`staging_writer_admission` on the second. -/
def beginStagingWrite (s : Store) (preparation : JsString) (k : ObjectKey) (token : JsString) :
    Except Fault Store := do
  let owner := s.ownerOf preparation
  demand (!(s.isDeleted k && s.openDelete k)) .staging_incarnation_fenced
  demand (decide ((s.admitted k).state=.available) && s.isActive owner &&
    !(s.cleanups.any fun c => c.preparation_id=owner)) .staging_writer_fenced
  demand (!(s.writes.any fun w => w.token=token)) .constraint
  .ok { s.setObject k (s.admitted k) with
    writes := s.writes++[⟨token,owner,k,(s.admitted k).incarnation,false⟩] }

/-- The batch of `writeStagingObjects`. -/
def beginStagingWrites (s : Store) (preparation : JsString) :
    List (ObjectKey × JsString) → Except Fault Store
  | [] => .ok s
  | (k,token)::rest => do
    let t ← s.beginStagingWrite preparation k token
    t.beginStagingWrites preparation rest

def finishStagingWrites (s : Store) (tokens : List JsString) : Store :=
  { s with writes := s.writes.map fun w =>
      if w.token∈tokens then { w with completed := true } else w }

def finishObservedStagingWrite (s : Store) (k : ObjectKey) (token : JsString) : Store :=
  { s with writes := s.writes.map fun w =>
      if w.token=token ∧ w.key=k ∧ w.incarnation=s.incarnation k then { w with completed := true }
      else w }

/-- The preparation has not been terminal for long enough. -/
def recent (s : Store) (id : JsString) (days at' : Nat) : Bool := match s.preparations id with
  | none => false
  | some p => decide (p.state=.active) || match p.terminal_at with
    | none => true
    | some t => decide (at' < t+days*day)

/-- `staging_reservation_guard`. -/
def reservationBlocked (s : Store) (id : JsString) (k : ObjectKey) (incarnation at' : Nat) : Bool :=
  let cleanup := s.cleanups.filter fun c => c.id=id
  let eligible := cleanup.any fun c => (s.preparations c.preparation_id).any fun p =>
    decide (p.state≠.active) && decide (p.terminal_at=some c.terminal_at) &&
      decide (c.eligible_at ≤ at')
  !eligible || s.isRetained k || s.writes.any fun w =>
    decide (w.key=k ∧ w.incarnation=incarnation) && cleanup.any fun c =>
      s.recent w.preparation_id c.retention_days at'

def reserveStagingObject (s : Store) (id : JsString) (k : ObjectKey) (incarnation at' : Nat) :
    Except Fault Store := match s.objects k with
  | none => .ok s
  | some o => if o.incarnation=incarnation ∧ o.state=.available then
      if s.reservationBlocked id k o.incarnation at' then .error .staging_reference_protected
      else .ok (s.setObject k ⟨o.incarnation,.reserved,some id,some at'⟩)
    else .ok s

/-- With `staging_physical_guard`. -/
def promoteStagingDelete (s : Store) (id : JsString) (k : ObjectKey) (incarnation : Nat) :
    Except Fault Store := match s.objects k with
  | none => .ok s
  | some o => if o.incarnation=incarnation ∧ o.cleanup_id=some id ∧ o.state=.reserved then
      if s.isRetained k || s.openWrite k || s.backup then .error .staging_delete_waiting
      else .ok (s.setObject k { o with state := .deleting })
    else .ok s

def openStagingTickets (s : Store) (k : ObjectKey) (incarnation : Nat) : Bool :=
  (s.writes.any fun w => decide (w.key=k ∧ w.incarnation=incarnation) && !w.completed) ||
    s.deletes.any fun d => decide (d.key=k ∧ d.incarnation=incarnation) && !d.completed

/-- The number of changed rows; `staging_deleter_admission` asks for what the statement selects. -/
def beginStagingDelete (s : Store) (i : Nat) (id : JsString) (k : ObjectKey) (incarnation : Nat)
    (token : JsString) : Except Fault (Nat × Store) := match s.objects k with
  | none => .ok (0,s)
  | some o => if o.incarnation=incarnation ∧ o.cleanup_id=some id ∧ o.state=.deleting then do
      demand (!(s.deletes.any fun d => d.token=token)) .constraint
      .ok (1,{ s with deletes := s.deletes++[⟨token,k,incarnation,id,false,i⟩] })
    else .ok (0,s)

def completeDelete (s : Store) (token : JsString) : Store :=
  { s with deletes := s.deletes.map fun d =>
      if d.token=token then { d with completed := true } else d }

/-- The second statement of `finishStagingDelete`, with `staging_incarnation_guard`. -/
def markDeleted (s : Store) (k : ObjectKey) (incarnation : Nat) : Except Fault Store :=
  match s.objects k with
  | none => .ok s
  | some o => if o.incarnation=incarnation ∧ o.state=.deleting ∧
      (s.deletes.any fun d => decide (d.key=k ∧ d.incarnation=incarnation) && !d.completed)=false then do
      demand (!s.openDelete k) .staging_incarnation_fenced
      .ok (s.setObject k { o with state := .deleted })
    else .ok s

def finishStagingDelete (s : Store) (k : ObjectKey) (incarnation : Nat) (token : JsString) :
    Except Fault Store :=
  (s.completeDelete token).markDeleted k incarnation

/-- The rows of one preparation batch behind their `staging_reference_*` fences. -/
def commitReceipts (s : Store) (candidate : JsString) (receipts : List Receipt) :
    Except Fault Store := do
  demand (receipts.all fun r => s.free r.fenced) .staging_reference_fenced
  .ok { s with references := s.references++
    receipts.map fun r => ⟨r,candidate,s.incarnation r.key⟩ }

def insertStagingCleanup (s : Store) (id preparation : JsString) (days at' : Nat) : Store :=
  match s.preparations preparation with
  | some ⟨state,some t⟩ =>
    if state≠.active ∧ t+days*day ≤ at' ∧ (s.cleanups.any fun c => c.id=id)=false then
      { s with cleanups := s.cleanups++[⟨id,preparation,days,t,t+days*day⟩] }
    else s
  | _ => s

/-- A put with `onlyIf: { etagDoesNotMatch: "*" }`; `false` is the answer `null`. -/
def put (s : Store) (k : ObjectKey) (o : R2Object) : Bool × Store := match s.bucket k with
  | none => (true,s.setBucket k (some o))
  | some _ => (false,s)

def delete (s : Store) (k : ObjectKey) (incarnation : Nat) : Store :=
  { s.setBucket k none with
    deletions := s.deletions++[⟨k,incarnation,s.openWrite k,s.incarnation k⟩] }

end Store

end CardKeepr.Staging
