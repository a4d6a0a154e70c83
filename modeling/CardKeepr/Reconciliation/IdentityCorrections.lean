import CardKeepr.Lib.Fallible
import CardKeepr.Shared.CanonicalMembers
import CardKeepr.Shared.Sha256

namespace CardKeepr.Lib

variable {α : Type} {next : α → Option α}

/-- `b` is reached from `a` over `n` forwarding pointers. -/
inductive Follows (next : α → Option α) : Nat → α → α → Prop
  | here (a : α) : Follows next 0 a a
  | there {n : Nat} {a b c : α} : next a=some b → Follows next n b c → Follows next (n+1) a c

/-- Every pointer leads to a larger rank, and ranks stay below a bound. -/
structure Ascends (next : α → Option α) (rank : α → Nat) (top : Nat) : Prop where
  step : ∀{a b},next a=some b → rank a < rank b
  bounded : ∀a,rank a ≤ top

theorem Ascends.reaches_end {rank : α → Nat} {top : Nat} (h : Ascends next rank top) (a : α) :
    ∃n c,Follows next n a c ∧ next c=none ∧ n ≤ top-rank a := by
  -- the distance to the bound shrinks with every pointer
  generalize hd : top-rank a=d
  induction d using Nat.strongRecOn generalizing a with
  | ind d ih =>
    cases hn : next a with
    | none => exact ⟨0,a,.here a,hn,Nat.zero_le _⟩
    | some b =>
      have hb := h.step hn
      have ht := h.bounded b
      obtain ⟨n,c,hf,hc,hl⟩ := ih (top-rank b) (by omega) b rfl
      exact ⟨n+1,c,.there hn hf,hc,by omega⟩

end CardKeepr.Lib

namespace CardKeepr.Reconciliation.Identity

open Lib Shared

inductive EntityKind where
  | card | printing
  deriving DecidableEq

def EntityKind.text : EntityKind → String
  | .card => "card"
  | .printing => "printing"

inductive Action where
  | merge | split | assign
  deriving DecidableEq

def Action.text : Action → String
  | .merge => "merge"
  | .split => "split"
  | .assign => "assign"

structure IdentityCorrectionProposal where
  game : JsString
  entity_kind : EntityKind
  action : Action
  source_ids : List JsString
  replacement_ids : List JsString
  /-- the members of the object, as they are enumerated -/
  printing_assignments : List (JsString × JsString)
  expected_current_revision_id : JsString
  rationale : JsString
  attestation : JsString

def key (name : String) : JsString := js name.toList

def assignmentMembers (p : IdentityCorrectionProposal) : List (JsString × Json) :=
  p.printing_assignments.map fun e => (e.1,.str e.2)

def IdentityCorrectionProposal.json (p : IdentityCorrectionProposal) : Json := .obj [
  (key "game",.str p.game),(key "entity_kind",.str (key p.entity_kind.text)),
  (key "action",.str (key p.action.text)),(key "source_ids",.arr (p.source_ids.map .str)),
  (key "replacement_ids",.arr (p.replacement_ids.map .str)),
  (key "printing_assignments",.obj (assignmentMembers p)),
  (key "expected_current_revision_id",.str p.expected_current_revision_id),
  (key "rationale",.str p.rationale),
  (key "evidence",.obj [(key "attestation",.str p.attestation)])]

inductive Failure where
  | problem (status : Nat) (code detail : String)
  | error (text : JsString)

def invalid (detail : String) : Failure := .problem 422 "identity_correction_invalid" detail

/-- The white space that `trim` removes. -/
def isTrimmed (u : UInt16) : Bool :=
  [9,10,11,12,13,32,160,0x1680,0x2028,0x2029,0x202f,0x205f,0x3000,0xfeff].contains u ||
    decide (0x2000 ≤ u ∧ u ≤ 0x200a)

def blank (s : JsString) : Bool := s.all isTrimmed

def registeredSupportedGames : List JsString :=
  ["magic","pokemon","riftbound","one-piece","fusion-world","digimon","gundam"].map key

def goodIds (ids : List JsString) : Bool :=
  !ids.isEmpty && decide (ids.length ≤ 100) && ids.all (fun id => !id.isEmpty) && decide ids.Nodup

def goodSides (p : IdentityCorrectionProposal) : Bool :=
  !(p.source_ids.any fun id => p.replacement_ids.contains id) &&
    if p.action=.split then p.source_ids.length==1 && decide (2 ≤ p.replacement_ids.length)
    else p.replacement_ids.length==1

variable (nfc : Nfc)

/-- `new TextEncoder().encode(canonicalJson(value))` within `limit` bytes. -/
def canonicalWithin (limit : Nat) (detail : String) (value : Json) : Except Failure JsString :=
  match canonicalJson nfc value with
  | .error e => .error (.error e)
  | .ok text => if limit < (utf8 text).length then .error (invalid detail) else .ok text

/-- `proposal(value)` for a value with the fields and the types it asks for. -/
def proposal (p : IdentityCorrectionProposal) : Except Failure Unit := do
  demand (registeredSupportedGames.contains p.game)
    (invalid "Select a Supported Game, Card or Printing, and merge, split or assign.")
  demand (goodIds p.source_ids && goodIds p.replacement_ids)
    (invalid "Provide one to 100 distinct IDs per side.")
  demand (goodSides p)
    (invalid "A merge has one survivor; a split has one conflated identity and at least two replacements, with no self-reference.")
  demand (p.printing_assignments.all fun e => p.replacement_ids.contains e.2)
    (invalid "Printing assignments must explicitly name replacement Card IDs.")
  demand (!blank p.expected_current_revision_id) (invalid "expected_current_revision_id is required.")
  demand (!blank p.rationale) (invalid "rationale is required.")
  demand (!blank p.attestation)
    (invalid "Retain the owner's specific evidence attestation; source mapping history remains independently inspectable.")
  let _ ← canonicalWithin nfc (64*1024) "One correction is limited to 64 KiB." p.json

/-- `identity_correction_decisions`; `request` is what `JSON.parse(request_json)` gives. -/
structure CorrectionRow where
  sequence : Nat
  id : JsString
  game : JsString
  request : IdentityCorrectionProposal

def texts (ms : List (JsString × Json)) : List (JsString × JsString) := ms.filterMap fun
  | (k,.str s) => some (k,s)
  | _ => none

/-- `JSON.parse(canonicalJson(value))`: every text comes back in normal form, and members whose
keys have one normal form become one member. -/
def retained (p : IdentityCorrectionProposal) : IdentityCorrectionProposal where
  game := nfc.normalize p.game
  entity_kind := p.entity_kind
  action := p.action
  source_ids := p.source_ids.map nfc.normalize
  replacement_ids := p.replacement_ids.map nfc.normalize
  printing_assignments := texts (ownMembers (sortedMembers nfc (assignmentMembers p)))
  expected_current_revision_id := nfc.normalize p.expected_current_revision_id
  rationale := nfc.normalize p.rationale
  attestation := nfc.normalize p.attestation

/-- A published entity: the UTF-8 length of its `document_json` and the value parsed from it. -/
structure Document where
  bytes : Nat
  value : Json

/-- The source mapping that `correctionPrintingMappingStatement` selects. -/
structure Mapping where
  preparation_id : Option JsString
  source_observation_id : JsString
  source_snapshot_id : JsString
  evidence : Json

/-- The published Catalogue Revision that a decision is reviewed against. Identities are texts of
canonical documents, so they are in normal form. -/
structure Published where
  current_revision_id : JsString
  entity : EntityKind → JsString → Option Document
  /-- the Printings with their Cards, in the order of `printing_id` -/
  printings : List (JsString × JsString)
  mapping : JsString → JsString → Option Mapping
  normal : ∀{kind id d},entity kind id=some d → nfc.normalize id=id

/-- `envelope.data ?? envelope` -/
def unwrap (envelope : Json) : Json :=
  match envelope.member (key "data") with
  | none | some .null => envelope
  | some data => data

def textOf : Option Json → Option JsString
  | some (.str s) => some s
  | _ => none

variable {nfc} (published : Published nfc)

/-- The game of a reviewed entity: its own, or that of a Printing's published Card. -/
def entityGame (kind : EntityKind) (entity : Json) : Except Failure (Option JsString) :=
  match kind with
  | .card => .ok (textOf (entity.member (key "game")))
  | .printing =>
    match (textOf (entity.member (key "card_id"))).bind (published.entity .card) with
    | none => .error (invalid "Printing has no published Card.")
    | some card => .ok (textOf ((unwrap card.value).member (key "game")))

/-- The loop over the identities of both sides; `bytes` is `reviewedEntityBytes`. -/
def reviewEntities (input : IdentityCorrectionProposal) :
    Nat → List JsString → Except Failure (List (JsString × Json))
  | _,[] => .ok []
  | bytes,id::ids =>
    match published.entity input.entity_kind id with
    | none => .error (invalid "Every source and replacement must exist in the reviewed published revision. Admit new replacements separately first.")
    | some row => do
      demand (decide (bytes+row.bytes ≤ 256*1024))
        (invalid "The reviewed evidence exceeds the 256 KiB correction record bound.")
      let game ← entityGame published input.entity_kind (unwrap row.value)
      demand (game==some input.game)
        (invalid "All identities must belong to the correction's Supported Game.")
      let rest ← reviewEntities input (bytes+row.bytes) ids
      pure ((id,unwrap row.value)::rest)

/-- `correctionHistoryStatement`: at most 100 decisions of one game after a sequence number. -/
def correctionHistory (rows : List CorrectionRow) (game : JsString) (after : Nat) :
    List CorrectionRow :=
  (rows.filter fun r => r.game==game && decide (after < r.sequence)).take 100

/-- The pages that the paging loops read; a short page is the last one. -/
def historyPages (rows : List CorrectionRow) (game : JsString) :
    Nat → Nat → List (List CorrectionRow)
  | 0,_ => []
  | fuel+1,after =>
    let page := correctionHistory rows game after
    match page.getLast? with
    | none => [page]
    | some last =>
      if page.length < 100 then [page]
      else page::historyPages rows game fuel last.sequence

def pagesOf (rows : List CorrectionRow) (game : JsString) : List (List CorrectionRow) :=
  historyPages rows game (rows.length+1) 0

/-- `decision_cutoff` of `correctionStateStatement`. -/
def decisionCutoff (rows : List CorrectionRow) : Nat := (rows.map (·.sequence)).foldr max 0

structure Review where
  review_digest : JsString
  reviewed : Json

variable (nfc) in
def finishReview (reviewed : Json) : Except Failure Review := do
  let text ← canonicalWithin nfc (256*1024)
    "The reviewed evidence exceeds the 256 KiB correction record bound." reviewed
  pure ⟨sha256Text text,reviewed⟩

/-- The retained Card split that an assignment refers to: the first match of the last page with one. -/
def namedSplit (pages : List (List CorrectionRow)) (input : IdentityCorrectionProposal) :
    Option CorrectionRow :=
  pages.foldl (fun split page => (page.find? fun row =>
    decide (row.request.action=.split) && decide (row.request.entity_kind=.card) &&
    row.request.source_ids.head?==input.source_ids.head? &&
    input.replacement_ids.head?.any fun id => row.request.replacement_ids.contains id).or split) none

/-- The evidence of each assigned Printing. -/
def assignmentEvidence (input : IdentityCorrectionProposal) :
    List (JsString × JsString) → Except Failure (List Json)
  | [] => .ok []
  | (printing,_)::rest =>
    match published.mapping printing input.game with
    | none => .error (invalid "Review a retained source mapping for each assigned Printing.")
    | some m => do
      demand (textOf ((m.evidence.member (key "compatibility")).bind (Json.member (key "card_id")))
        ==input.source_ids.head?)
        (invalid "Every assigned Printing must have retained evidence associating it with the split Card.")
      let evidence ← assignmentEvidence input rest
      pure (.obj ((key "printing_id",.str printing)::
        ((m.preparation_id.map fun id => (key "preparation_id",Json.str id)).toList++
        [(key "source_observation_id",.str m.source_observation_id),
          (key "source_snapshot_id",.str m.source_snapshot_id),(key "evidence",m.evidence)]))
        ::evidence)

def validateAssignmentTo (rows : List CorrectionRow) (input : IdentityCorrectionProposal)
    (split : CorrectionRow) (target : Json) : Except Failure Review := do
  demand (textOf (target.member (key "game"))==some input.game)
    (invalid "The replacement must belong to the same Supported Game.")
  let evidence ← assignmentEvidence published input input.printing_assignments
  finishReview nfc (.obj [(key "proposal",input.json),(key "split_id",.str split.id),
    (key "target",target),(key "assignment_evidence",.arr evidence),
    (key "decision_cutoff",.num (decisionCutoff rows))])

def validateAssignmentOf (rows : List CorrectionRow) (input : IdentityCorrectionProposal) :
    Except Failure Review :=
  match namedSplit (pagesOf rows input.game) input with
  | none => .error (invalid "An assignment must name a retained Card split and one of its replacements.")
  | some split =>
    match input.replacement_ids.head?.bind (published.entity .card) with
    | none => .error (invalid "The replacement Card must exist in the current published revision.")
    | some row => validateAssignmentTo published rows input split (unwrap row.value)

def validateIdentityAssignment (rows : List CorrectionRow) (input : IdentityCorrectionProposal) :
    Except Failure Review := do
  demand (decide (input.entity_kind=.card) && input.source_ids.length==1 &&
      !input.printing_assignments.isEmpty && decide (input.printing_assignments.length ≤ 100))
    (invalid "Assign one to 100 retained Printings from one split Card to a reviewed replacement Card.")
  validateAssignmentOf published rows input

/-- `correctionCardPrintingsStatement` -/
def cardPrintings (ids : List JsString) : List (JsString × JsString) :=
  (published.printings.filter fun p => (ids.map nfc.normalize).contains p.2).take 1001

variable (nfc) in
/-- What merged entities must have in common: the Card of Printings, the class of Cards. -/
def mergeClass (category : Json → Except JsString Json) (kind : EntityKind) (entity : Json) :
    Except Failure JsString :=
  match kind with
  | .printing => .ok ((textOf (entity.member (key "card_id"))).getD [])
  | .card =>
    match category entity,(entity.member (key "game_data")).bind (Json.member (key "profile")) with
    | .error e,_ => .error (.error e)
    | .ok _,none => .error (.error (js "Canonical catalogue JSON contains an unsupported value".toList))
    | .ok c,some profile =>
      match canonicalJson nfc (.arr [c,profile]) with
      | .error e => .error (.error e)
      | .ok text => .ok text

variable (nfc) in
def oneClass (category : Json → Except JsString Json) (input : IdentityCorrectionProposal)
    (entities : List (JsString × Json)) : Except Failure Unit :=
  if input.action=.merge then do
    let classes ← entities.mapM fun e => mergeClass nfc category input.entity_kind e.2
    demand (classes.dedup.length==1) (invalid (match input.entity_kind with
      | .printing => "Merge the Cards explicitly before merging Printings attached to different Cards."
      | .card => "Merged Cards must share their category and Game Profile; shared artwork does not establish equivalence."))
  else .ok ()

/-- A Card split assigns exactly the Printings of the split Card. -/
def assignsChildren (input : IdentityCorrectionProposal) (children : List (JsString × JsString)) :
    Bool :=
  (children.all fun p => (input.printing_assignments.lookup p.1).any fun id => !id.isEmpty) &&
    input.printing_assignments.all fun e => children.any fun p => p.1==e.1

def validateIdentityChange (category : Json → Except JsString Json) (rows : List CorrectionRow)
    (input : IdentityCorrectionProposal) : Except Failure Review := do
  let entities ← reviewEntities published input 0 (input.source_ids++input.replacement_ids)
  demand (!((pagesOf rows input.game).any fun page => page.any fun row =>
      (input.source_ids++input.replacement_ids).any fun id => row.request.source_ids.contains id))
    (invalid "An identity already retired by a retained decision cannot be selected again; inspect its survivor or replacements.")
  let children := if input.entity_kind=.card then cardPrintings published input.source_ids else []
  demand (decide (children.length ≤ 1000))
    (invalid "One reviewed correction is limited to 1,000 affected Printings.")
  demand (decide (input.entity_kind=.card) || input.printing_assignments.isEmpty)
    (invalid "Printing corrections do not take Card assignments.")
  demand (decide (¬(input.entity_kind=.card ∧ input.action=.split)) || assignsChildren input children)
    (invalid "Explicitly assign every affected catalogue Printing to one replacement Card; never infer a consumer's split variant.")
  demand (decide (input.action≠.merge) || input.printing_assignments.isEmpty)
    (invalid "Merge uses its sole survivor; Printing assignments are only for Card splits.")
  oneClass nfc category input entities
  finishReview nfc (.obj [(key "proposal",input.json),(key "entities",.obj entities),
    (key "children",.arr (children.map fun p =>
      .obj [(key "printing_id",.str p.1),(key "card_id",.str p.2)])),
    (key "decision_cutoff",.num (decisionCutoff rows))])

/-- `category` stands for the category of `derivedCardModel`. -/
def validateIdentityCorrection (category : Json → Except JsString Json) (rows : List CorrectionRow)
    (input : IdentityCorrectionProposal) : Except Failure Review := do
  proposal nfc input
  demand (published.current_revision_id==input.expected_current_revision_id)
    (.problem 409 "current_revision_mismatch" "Review the current published Catalogue Revision.")
  if input.action=.assign then validateIdentityAssignment published rows input
  else validateIdentityChange published category rows input

end CardKeepr.Reconciliation.Identity
