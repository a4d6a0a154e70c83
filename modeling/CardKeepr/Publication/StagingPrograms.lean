import CardKeepr.Lib.Threads
import CardKeepr.Publication.StagingObjects

namespace CardKeepr.Staging

open Lib Shared

inductive PutAnswer where
  | stored | refused | rejected

/-- The atomic calls: bucket operations, statement batches, and what the rest of the system does. -/
inductive Op where
  | head (k : ObjectKey)
  | get (k : ObjectKey)
  | put (k : ObjectKey) (o : R2Object) (answered : Bool)
  | delete (k : ObjectKey) (incarnation : Nat) (token : JsString) (answered : Bool)
  | beginWrites (preparation : JsString) (writes : List (ObjectKey × JsString))
  | finishWrites (tokens : List JsString)
  | finishObserved (k : ObjectKey) (token : JsString)
  | commit (candidate : JsString) (receipts : List Receipt)
  | object (k : ObjectKey)
  | reserve (id : JsString) (k : ObjectKey) (incarnation at' : Nat)
  | openTickets (k : ObjectKey) (incarnation : Nat)
  | promote (id : JsString) (k : ObjectKey) (incarnation : Nat)
  | beginDelete (id : JsString) (k : ObjectKey) (incarnation : Nat) (token : JsString)
  | finishDelete (k : ObjectKey) (incarnation : Nat) (token : JsString)
  | insertCleanup (id preparation : JsString) (days at' : Nat)
  | settlePreparation (id : JsString) (p : Preparation)
  | retain (keys : List ObjectKey)
  | backup (covers : Bool)
  | landPut (n : Nat)
  | landDelete (n : Nat)

/-- `get` answers with the incarnation then in force, which only a receipt keeps. -/
def Op.Ans : Op → Type
  | .head _ => Option R2Object
  | .get _ => Option R2Object × Nat
  | .put _ _ _ => PutAnswer
  | .delete _ _ _ _ => Bool
  | .object _ => Option StagingObject
  | .openTickets _ _ => Bool
  | .beginDelete _ _ _ _ => Except Fault Nat
  | .beginWrites _ _ | .commit _ _ | .reserve _ _ _ _ | .promote _ _ _ | .finishDelete _ _ _ =>
    Except Fault Unit
  | .finishWrites _ | .finishObserved _ _ | .insertCleanup _ _ _ _ | .settlePreparation _ _
  | .retain _ | .backup _ | .landPut _ | .landDelete _ => Unit

/-- A batch changes the store as a whole or not at all. -/
def batch (s : Store) : Except Fault Store → Except Fault Unit × Store
  | .ok t => (.ok (),t)
  | .error f => (.error f,s)

/-- The store's answer to thread `i`. -/
def handle (i : Nat) : (op : Op) → Store → op.Ans × Store
  | .head k,s => (s.bucket k,s)
  | .get k,s => ((s.bucket k,s.incarnation k),s)
  | .put k o true,s => (if (s.put k o).1 then .stored else .refused,(s.put k o).2)
  | .put k o false,s => (.rejected,{ s with lostPuts := s.lostPuts++[(k,o)] })
  | .delete k n _ true,s => (true,s.delete k n)
  | .delete k n token false,s =>
    (false,{ s with lostDeletes := s.lostDeletes++[⟨k,n,token⟩] })
  | .beginWrites p ws,s => batch s (s.beginStagingWrites p ws)
  | .finishWrites tokens,s => ((),s.finishStagingWrites tokens)
  | .finishObserved k token,s => ((),s.finishObservedStagingWrite k token)
  | .commit c rs,s => batch s (s.commitReceipts c rs)
  | .object k,s => (s.objects k,s)
  | .reserve id k n at',s => batch s (s.reserveStagingObject id k n at')
  | .openTickets k n,s => (s.openStagingTickets k n,s)
  | .promote id k n,s => batch s (s.promoteStagingDelete id k n)
  | .beginDelete id k n token,s => match s.beginStagingDelete i id k n token with
    | .ok (changes,t) => (.ok changes,t)
    | .error f => (.error f,s)
  | .finishDelete k n token,s => batch s (s.finishStagingDelete k n token)
  | .insertCleanup id p days at',s => ((),s.insertStagingCleanup id p days at')
  | .settlePreparation id p,s =>
    ((),{ s with preparations := fun q => if q=id then some p else s.preparations q })
  | .retain keys,s => ((),{ s with retained := keys })
  | .backup covers,s => ((),{ s with backup := covers })
  | .landPut n,s => match s.lostPuts[n]? with
    | some (k,o) => ((),(({ s with lostPuts := s.lostPuts.eraseIdx n } : Store).put k o).2)
    | none => ((),s)
  | .landDelete n,s => match s.lostDeletes[n]? with
    | some l => ((),({ s with lostDeletes := s.lostDeletes.eraseIdx n } : Store).delete l.key
        l.incarnation)
    | none => ((),s)

inductive Problem where
  | fault (f : Fault)
  | integrity (code : String)
  | message (text : String)

abbrev Program (α : Type) := Prog Op Op.Ans Empty Problem α

def perform (op : Op) : Program op.Ans := .call op .ret

def throw' {α : Type} (e : Problem) : Program α := .fail e

def committed : Except Fault Unit → Program Unit
  | .ok _ => .ret ()
  | .error f => .fail (.fault f)

/-- The reason of the first rejected call, if there is one. -/
def throwRejected {α : Type} : List (Except Problem α) → Program Unit
  | [] => .ret ()
  | .ok _::rs => throwRejected rs
  | .error e::_ => .fail e

/-- A token that was acknowledged before is not sent again; the statement would change nothing. -/
def acknowledgeObserved (k : ObjectKey) : Option R2Object → Program Unit
  | some ⟨_,some token⟩ => perform (.finishObserved k token)
  | _ => .ret ()

/-- `head` of a tracked bucket. -/
def observedHead (k : ObjectKey) : Program (Option R2Object) := do
  let object ← perform (.head k)
  acknowledgeObserved k object
  pure object

/-- What one flush meets: the order in which its calls move, its tokens and which puts are
answered. -/
structure Weather where
  heads : List Nat
  puts : List Nat
  observations : List Nat
  verifications : List Nat
  tokens : Nat → JsString
  answered : Nat → Bool

structure StagingUpload where
  key : ObjectKey
  content : List UInt8
  token : JsString
  answered : Bool

def putObject (u : StagingUpload) : Program Bool := do
  match ←perform (.put u.key ⟨u.content,some u.token⟩ u.answered) with
  | .stored => pure true
  | .refused => pure false
  | .rejected => throw' (.message "put rejected")

def uploads (c : Weather) (objects : List (ObjectKey × List UInt8)) : List StagingUpload :=
  objects.zipIdx.map fun (o,n) => ⟨o.1,o.2,c.tokens n,c.answered n⟩

/-- The tokens of the puts that were answered. -/
def settledTokens (us : List StagingUpload) (results : List (Except Problem Bool)) :
    List JsString :=
  (us.zip results).filterMap fun (u,r) => if r.isOk then some u.token else none

/-- The keys of the puts that were answered with `null`. -/
def refusedKeys (us : List StagingUpload) (results : List (Except Problem Bool)) :
    List ObjectKey :=
  (us.zip results).filterMap fun (u,r) => match r with
    | .ok false => some u.key
    | _ => none

def settleWrites : List JsString → Program Unit
  | [] => .ret ()
  | token::tokens => perform (.finishWrites (token::tokens))

/-- The result says for each object whether it was stored. -/
def writeStagingObjects (c : Weather) (preparation : JsString)
    (objects : List (ObjectKey × List UInt8)) : Program (List Bool) :=
  if objects=[] then pure []
  else if objects.length > 4 then throw' (.message "Staging writes exceed four objects.")
  else do
    let us := uploads c objects
    let begun ← perform (.beginWrites preparation (us.map fun u => (u.key,u.token)))
    committed begun
    let results ← Prog.allSettled c.puts (us.map putObject)
    settleWrites (settledTokens us results)
    let observations ← Prog.allSettled c.observations ((refusedKeys us results).map observedHead)
    throwRejected results
    throwRejected observations
    pure (results.map fun r => r.toOption.getD false)

/-- The answer is the incarnation in force when the object was fetched. -/
def verifyPublicationObject (k : ObjectKey) (sha : JsString) (bytes : Nat) : Program Nat :=
  if bytes > 20*1024*1024 then throw' (.integrity "publication_capacity_exceeded")
  else do
    let fetched ← perform (.get k)
    match fetched.1 with
    | none => throw' (.integrity "publication_artifact_missing")
    | some object =>
      if object.content.length≠bytes ∨ Shared.sha256 object.content≠sha then
        throw' (.integrity "publication_artifact_corrupt")
      else pure fetched.2

structure PendingObject where
  row : PublicationRow
  content : JsString
  object_key : JsString
  sha256 : JsString
  byte_length : Nat

def PendingObject.key (o : PendingObject) : ObjectKey := ⟨.CATALOGUE_EXPORTS,o.object_key⟩

/-- The receipts of a batch: `heads` says which objects existed, `written` which of the others
were stored, `seen` the incarnation each was verified in. -/
def receiptsOf : List PendingObject → List Bool → List Bool → List Nat → List Receipt
  | o::os,existed::heads,written,n::seen =>
    let reused := existed || written.head?=some false
    ⟨o.row,o.object_key,o.sha256,o.byte_length,reused,.CATALOGUE_EXPORTS,n⟩::
      receiptsOf os heads (if existed then written else written.tail) seen
  | _,_,_,_ => []

/-- The objects that no head found. -/
def missing (batch : List PendingObject) (heads : List (Except Problem (Option R2Object))) :
    List (ObjectKey × List UInt8) :=
  (batch.zip heads).filterMap fun (o,h) => match h with
    | .ok none => some (o.key,utf8 o.content)
    | _ => none

def found : Except Problem (Option R2Object) → Bool
  | .ok (some _) => true
  | _ => false

def flush (c : Weather) (preparation : JsString) (batch : List PendingObject) :
    Program (List Receipt) :=
  if batch=[] then pure []
  else do
    let heads ← Prog.allSettled c.heads (batch.map fun o => observedHead o.key)
    throwRejected heads
    let written ← writeStagingObjects c preparation (missing batch heads)
    let verified ← Prog.allSettled c.verifications
      (batch.map fun o => verifyPublicationObject o.key o.sha256 o.byte_length)
    throwRejected verified
    pure (receiptsOf batch (heads.map found) written (verified.map fun r => r.toOption.getD 0))

/-- One object that `prepareUnit` retains: an image that is already stored, or content that goes
to the exports bucket under its digest or a given key. -/
inductive PreparationUnit where
  | image (ordinal : Nat) (object_key content_sha256 : JsString) (content_byte_length : Nat)
  | stage (row : PublicationRow) (content : JsString) (key : Option JsString)

def artifactKey (sha : JsString) : JsString := js "publication-artifacts/".toList++sha

def pendingObject (row : PublicationRow) (content : JsString) (key : Option JsString) :
    PendingObject :=
  let sha := sha256Text content
  ⟨row,content,key.getD (artifactKey sha),sha,(utf8 content).length⟩

/-- A composition node may not exceed 16 KiB. -/
def checkNode (o : PendingObject) : Program Unit := match o.row with
  | .node _ _ =>
    if o.byte_length > 16384 then throw' (.integrity "publication_capacity_exceeded") else .ret ()
  | _ => .ret ()

/-- The units of a callback and its last flush, with the objects pending and the receipts so far. -/
def prepareUnits (preparation : JsString) (last : Weather) :
    List (Weather × PreparationUnit) → List PendingObject → List Receipt → Program (List Receipt)
  | [],pending,receipts => do
    let more ← flush last preparation pending
    pure (receipts++more)
  | (_,.image ordinal key sha bytes)::units,pending,receipts =>
    if key≠js "printing-images/".toList++sha then
      throw' (.integrity "publication_image_reference_invalid")
    else do
      let seen ← verifyPublicationObject ⟨.PRINTING_IMAGES,key⟩ sha bytes
      prepareUnits preparation last units pending (receipts++
        [⟨.artifact ordinal printingImages,key,sha,bytes,true,.PRINTING_IMAGES,seen⟩])
  | (c,.stage row content key)::units,pending,receipts =>
    let o := pendingObject row content key
    if o.byte_length > 524288 then throw' (.integrity "publication_capacity_exceeded")
    else if pending.length=4 ∨
        (pending.map PendingObject.byte_length).sum+o.byte_length > 524288 then do
      let more ← flush c preparation pending
      checkNode o
      prepareUnits preparation last units [o] (receipts++more)
    else do
      checkNode o
      prepareUnits preparation last units (pending++[o]) receipts

/-- One callback: every object is written and verified before the rows that name them commit. -/
def advancePublicationPreparation (candidate preparation : JsString)
    (units : List (Weather × PreparationUnit)) (last : Weather) : Program Unit := do
  let receipts ← prepareUnits preparation last units [] []
  let answer ← perform (.commit candidate receipts)
  committed answer

/-- The object that the inventory of a cleanup offers next, and what its unit meets. -/
structure CleanupUnit where
  key : ObjectKey
  token : JsString
  answered : Bool

/-- From the ticket on. -/
def deleteStagingObject (id : JsString) (unit : CleanupUnit) (incarnation : Nat) :
    Program Unit := do
  match ←perform (.beginDelete id unit.key incarnation unit.token) with
  | .error f => throw' (.fault f)
  | .ok 0 => pure ()
  | .ok (_+1) =>
    -- an ambiguous rejection leaves the ticket open
    let answered : Bool ← perform (.delete unit.key incarnation unit.token unit.answered)
    if answered then do
      let answer ← perform (.finishDelete unit.key incarnation unit.token)
      committed answer
    else pure ()

def reclaimReserved (id : JsString) (unit : CleanupUnit) (object : StagingObject) :
    Program Unit := do
  let waiting : Bool ← perform (.openTickets unit.key object.incarnation)
  if waiting then pure ()
  else if object.state=.reserved then do
    match ←perform (.promote id unit.key object.incarnation) with
    | .error .staging_delete_waiting => pure ()
    | .error f => throw' (.fault f)
    | .ok _ => deleteStagingObject id unit object.incarnation
  else deleteStagingObject id unit object.incarnation

def reclaimObject (id : JsString) (unit : CleanupUnit) (object : StagingObject) : Program Unit :=
  if object.cleanup_id≠some id then pure ()
  else if object.state=.deleted then pure ()
  else reclaimReserved id unit object

def advanceUnit (id : JsString) (at' : Nat) (unit : CleanupUnit) : Program Unit := do
  match ←perform (.object unit.key) with
  | none => throw' (.message "Staging ownership inventory is missing.")
  | some object =>
    if object.state=.available then do
      match ←perform (.reserve id unit.key object.incarnation at') with
      | .error .staging_reference_protected => pure ()
      | .error f => throw' (.fault f)
      | .ok _ => do
        match ←perform (.object unit.key) with
        | none => throw' (.message "Staging ownership inventory is missing.")
        | some object => reclaimObject id unit object
    else reclaimObject id unit object

def advanceStagingCleanup (id : JsString) (at' : Nat) : List CleanupUnit → Program Unit
  | [] => pure ()
  | unit::units => do
    advanceUnit id at' unit
    advanceStagingCleanup id at' units

/-- What the rest of the system may do to the store at any time. -/
def Op.isWorld : Op → Bool
  | .insertCleanup _ _ _ _ | .settlePreparation _ _ | .retain _ | .backup _ | .landPut _
  | .landDelete _ => true
  | _ => false

/-- The threads of the protocol: any callback, any cleanup, and the rest of the system. -/
inductive Started : Program Unit → Prop
  | preparation (candidate preparation : JsString) (units : List (Weather × PreparationUnit))
    (last : Weather) : Started (advancePublicationPreparation candidate preparation units last)
  | cleanup (id : JsString) (at' : Nat) (units : List CleanupUnit) :
    Started (advanceStagingCleanup id at' units)
  | world (op : Op) (h : op.isWorld=true) : Started (.call op fun _ => .ret ())

end CardKeepr.Staging
