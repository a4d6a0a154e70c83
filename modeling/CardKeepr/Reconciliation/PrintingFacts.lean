import CardKeepr.Lib.Fallible
import CardKeepr.Shared.CanonicalObjects

namespace CardKeepr.Reconciliation.Printings
open Shared Lib

/-- The white space of `trim` and of `\s`. -/
def isWhiteSpace (u : UInt16) : Bool :=
  [9,10,11,12,13,32,160,0x1680,0x2028,0x2029,0x202f,0x205f,0x3000,0xfeff].contains u ||
    decide (0x2000 ≤ u.toNat ∧ u.toNat ≤ 0x200a)

def trim (s : JsString) : JsString :=
  ((s.dropWhile isWhiteSpace).reverse.dropWhile isWhiteSpace).reverse

/-- `replace(/\s+/g, " ")`, inside a run of white space or not. -/
def collapse (inRun : Bool) : JsString → JsString
  | [] => []
  | u::s =>
    if isWhiteSpace u then (if inRun then collapse true s else 32::collapse true s)
    else u::collapse false s

mutual

def normalizedFormatting : Json → Json
  | .str s => .str (collapse false (trim s))
  | .arr vs => .arr (formattedItems vs)
  | .obj ms => .obj (formattedMembers ms)
  | v => v

def formattedItems : List Json → List Json
  | [] => []
  | v::vs => normalizedFormatting v::formattedItems vs

def formattedMembers : List (JsString×Json) → List (JsString×Json)
  | [] => []
  | (k,v)::ms => (k,normalizedFormatting v)::formattedMembers ms

end

/-- What filling gives: `undefined`, a value, or an object with an undefined member in it, which
is not JSON any more. -/
inductive Filled
  | undefined
  | value (v : Json)
  | holed

mutual

/-- The fallback is `none` where it is undefined. -/
def fillAuthorityGaps : Json → Option Json → Filled
  | .null,none => .undefined
  | .null,some fallback => .value fallback
  | .obj ms,some (.obj ns) =>
    match filledMembers ns ms with
    | some filled => .value (.obj (filled++ns.filter fun n => !(ms.map Prod.fst).contains n.1))
    | none => .holed
  | authority,_ => .value authority

/-- The fields of the authority; those of the fallback alone follow as they are. -/
def filledMembers (ns : List (JsString×Json)) :
    List (JsString×Json) → Option (List (JsString×Json))
  | [] => some []
  | (k,v)::ms =>
    match fillAuthorityGaps v (ns.lookup k),filledMembers ns ms with
    | .value w,some filled => some ((k,w)::filled)
    | _,_ => none

end

section
variable (nfc : Nfc)

/-- Without the path at its end. -/
def unsupported : JsString := js "Canonical catalogue JSON contains an unsupported value".toList

/-- `canonicalJson(normalizedFormatting(value))`. -/
def formattedText : Filled → Except JsString JsString
  | .value v => canonicalJson nfc (normalizedFormatting v)
  | _ => .error unsupported

def printingFactsFormattingEquivalent (left right : Filled) : Except JsString Bool := do
  let l ← formattedText nfc left
  let r ← formattedText nfc right
  return l==r

/-- The facts accepted for a printing, and the contradictions reported. -/
structure Accepted where
  facts : Option Json
  contradictions : List String

def contradictory : String :=
  "Retained observations disagree on canonical Printing facts and no " ++
    "deterministic authority rule resolves them."

/-- An observation of a printing whose identity was reviewed. -/
def Accepted.observe (a : Accepted) (proposed : Json) : Except JsString Accepted :=
  match a.facts with
  | none => .ok { a with facts := some proposed }
  | some prior => do
    let complementary ← printingFactsFormattingEquivalent nfc
      (fillAuthorityGaps prior (some proposed)) (fillAuthorityGaps proposed (some prior))
    if complementary then
      match fillAuthorityGaps prior (some proposed) with
      | .value accepted => return { a with facts := some accepted }
      | _ => .error unsupported
    else
      let equal ← printingFactsFormattingEquivalent nfc (.value prior) (.value proposed)
      if equal then return { a with facts := some proposed }
      else return { a with contradictions := a.contradictions++[contradictory] }

def acceptedFacts (observed : List Json) : Except JsString Accepted :=
  observed.foldlM (Accepted.observe nfc) ⟨none,[]⟩

def form (v : Json) : Json := (normalizedFormatting v).canonical nfc

/-- What stands at a path of fields: nothing, `null`, an object, or another value. -/
inductive Node
  | absent
  | unknown
  | object
  | value (form : Json)

def node : List JsString → Json → Node
  | [],.null => .unknown
  | [],.obj _ => .object
  | [],v => .value (form nfc v)
  | k::p,.obj ms =>
    match ms.lookup k with
    | some v => node p v
    | none => .absent
  | _::_,_ => .absent

def Node.known : Node → Prop
  | .object => True
  | .value _ => True
  | _ => False

def Differ (v w : Json) : Prop :=
  ∃p,(node nfc p v).known ∧ (node nfc p w).known ∧ node nfc p v≠node nfc p w

/-- A field that is `null` in one value and missing from the same object of the other. -/
def Uneven (v w : Json) : Prop :=
  ∃p k,node nfc p v=.object ∧ node nfc p w=.object ∧ node nfc (p++[k]) v=.unknown ∧
    node nfc (p++[k]) w=.absent

def SomeDiffer (observed : List Json) : Prop := ∃v∈observed,∃w∈observed,Differ nfc v w

/-- In every order of the observations a contradiction is reported exactly when two of them
differ, and else the accepted facts are the same up to formatting. -/
def OrderIndependent (observed : List Json) : Prop :=
  ∀later,later.Perm observed → ∃a b,acceptedFacts nfc observed=.ok a ∧
    acceptedFacts nfc later=.ok b ∧ (b.contradictions≠[] ↔ SomeDiffer nfc observed) ∧
    (b.contradictions=[] → a.facts.map (form nfc)=b.facts.map (form nfc))

end

end CardKeepr.Reconciliation.Printings
