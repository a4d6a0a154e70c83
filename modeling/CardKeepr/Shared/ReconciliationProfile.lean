import CardKeepr.Lib.Fallible
import CardKeepr.Lib.InsertionMap
import CardKeepr.Shared.CanonicalObjects

namespace CardKeepr.Shared
open Lib

/-- The schemas of a profile's attributes. -/
inductive Schema
  | string (nullable : Bool) (minimumLength : Nat)
  | integer (nullable : Bool) (minimum : Int)
  | boolean
  | enum (values : List JsString)
  | array (nullable : Bool) (items : Schema) (unique : Bool) (minimumItems : Nat)
      (maximumItems : Option Nat)
  | object (required : List JsString) (properties : List (JsString×Schema))

def invalid (path : JsString) : JsString :=
  js "Retained profile value at ".toList++path++js " is invalid.".toList

def incomplete (profile path : JsString) (missing : List JsString) : JsString :=
  js "Retained ".toList++profile++js " evidence at ".toList++path++js " is incomplete: ".toList++
    List.intercalate (js ", ".toList) missing++js ".".toList

/-- A value that may be `null` where the schema says so. -/
def orNull (nullable : Bool) (path : JsString) : Except JsString (Option Json) :=
  if nullable then .ok (some .null) else .error (invalid path)

section
variable (nfc : Nfc) (localeCompare : JsString → JsString → Int) (profile : JsString)

/-- `[...new Map(items.map((item) => [canonicalJson(item), item])).values()]` sorted by the
keys. -/
def distinctItems (items : List Json) : Except JsString (List Json) := do
  let keyed ← items.mapM fun item => do
    let key ← canonicalJson nfc item
    return (key,item)
  return ((mapOf keyed).insertionSort fun l r => localeCompare l.1 r.1 ≤ 0).map Prod.snd

def uniqueItems (unique : Bool) (items : List Json) : Except JsString (List Json) :=
  if unique then distinctItems nfc localeCompare items else .ok items

def isEnumerated (items : Schema) : Bool :=
  match items with
  | .enum _ => true
  | _ => false

mutual

/-- The canonical value of what a source gives; `none` is undefined. -/
def sanitize : Schema → JsString → Json → Except JsString (Option Json)
  | .string nullable _,path,.null => orNull nullable path
  | .string _ minimumLength,path,.str s =>
    if s.length < minimumLength then .error (invalid path) else .ok (some (.str s))
  | .integer nullable _,path,.null => orNull nullable path
  | .integer _ minimum,path,.num q =>
    if q.den=1 ∧ minimum ≤ q.num then .ok (some (.num q)) else .error (invalid path)
  | .boolean,_,.bool b => .ok (some (.bool b))
  | .enum values,_,.str s => .ok (if values.contains s then some (.str s) else none)
  | .enum _,_,_ => .ok none
  | .array nullable _ _ _ _,path,.null => orNull nullable path
  | .array _ items unique minimumItems maximumItems,path,.arr vs => do
    let result ← sanitizeItems items path 0 vs
    let canonical ← uniqueItems nfc localeCompare unique result
    if canonical.length < minimumItems ∨ maximumItems.getD 9007199254740991 < canonical.length then
      .error (invalid path)
    else .ok (some (.arr canonical))
  | .object required properties,path,.obj ms => do
    let entries ← sanitizeMembers properties path ms
    let missing := required.filter fun field => !((mapOf entries).map Prod.fst).contains field
    if missing=[] then .ok (some (.obj (mapOf entries)))
    else .error (incomplete profile path missing)
  | _,path,_ => .error (invalid path)

/-- The items from the given index on; what is undefined is dropped. -/
def sanitizeItems (items : Schema) (path : JsString) : Nat → List Json →
    Except JsString (List Json)
  | _,[] => .ok []
  | index,v::vs => do
    let canonical ← sanitize items
      (if isEnumerated items then path
      else path++js "[".toList++decimal index++js "]".toList) v
    let rest ← sanitizeItems items path (index+1) vs
    return canonical.toList++rest

/-- The fields of an object that its schema has and that are not undefined. -/
def sanitizeMembers (properties : List (JsString×Schema)) (path : JsString) :
    List (JsString×Json) → Except JsString (List (JsString×Json))
  | [] => .ok []
  | (field,raw)::ms =>
    match properties.lookup field with
    | none => sanitizeMembers properties path ms
    | some child => do
      let canonical ← sanitize child (path++js ".".toList++field) raw
      let rest ← sanitizeMembers properties path ms
      return canonical.toList.map (fun v => (field,v))++rest

end
end

/-- The profiles of the games. -/
inductive Profile
  | magic
  | pokemon
  | riftbound
  | one_piece
  | fusion_world
  | digimon
  | gundam
deriving DecidableEq

def Profile.name : Profile → JsString
  | .magic => js "magic@1".toList
  | .pokemon => js "pokemon@1".toList
  | .riftbound => js "riftbound@1".toList
  | .one_piece => js "one-piece@1".toList
  | .fusion_world => js "fusion-world@1".toList
  | .digimon => js "digimon@1".toList
  | .gundam => js "gundam@1".toList

def texts (names : List String) : List JsString := names.map fun n => js n.toList

def enumeration (values : List String) : Schema := .enum (texts values)

def nullableText : Schema := .string true 0
def nullableInteger : Schema := .integer true 0
def requiredText : Schema := .string false 1
def strings : Schema := .array false (.string false 0) true 0 none

/-- Every field of the object is required. -/
def complete (properties : List (String×Schema)) : Schema :=
  .object (texts (properties.map Prod.fst)) (properties.map fun p => (js p.1.toList,p.2))

def magicLayouts : List String :=
  ["normal","token","art_series","transform","saga","adventure","planar","split","modal_dfc",
    "emblem","double_faced_token","scheme","mutate","prepare","class","meld","leveler","flip",
    "prototype","vanguard","host","case","augment","reversible_card"]

def printedFace : Schema :=
  complete [("role",enumeration ["front","back"]),("name",requiredText),
    ("printed_rules_text",nullableText)]

/-- The printing attributes of a profile. -/
def Profile.printing : Profile → Schema
  | .magic => complete [("set_code",requiredText),("collector_number",requiredText),
      ("finish",enumeration ["nonfoil","foil","etched"]),("layout",enumeration magicLayouts),
      ("faces",.array false printedFace false 1 (some 5)),("artists",strings),
      ("reverse_face",nullableText),("finish_image",nullableText)]
  | .pokemon => complete [("set_code",requiredText),("collector_number",requiredText),
      ("finish",nullableText),("edition",nullableText),("size",nullableText),("stamps",strings),
      ("artists",strings),("reverse_face",nullableText)]
  | .riftbound => complete [("public_code",nullableText),("collector_number",nullableInteger),
      ("set_code",requiredText),("orientation",nullableText),("reverse_face",nullableText),
      ("finish",nullableText),("artists",strings)]
  | .one_piece => .object [] [(js "illustration_types".toList,
      .array false (enumeration ["comic","animation","original","other"]) true 0 none)]
  | .fusion_world => .object [] []
  | .digimon => complete [("alternative_art",.boolean)]
  | .gundam => complete [("alternate_art",.boolean)]

end CardKeepr.Shared
