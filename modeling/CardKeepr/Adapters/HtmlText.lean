import CardKeepr.Lib.References
import CardKeepr.Reconciliation.PrintingFacts

namespace CardKeepr.Adapters
open Shared Lib Lib.References
open Reconciliation.Printings (isWhiteSpace trim)

/-- What a decoder throws: its own failure or an error of the language. -/
inductive Thrown where
  | adapterParseFailure (message : JsString)
  | rangeError
  | syntaxError (message : JsString)
  | typeError
  | uriError (message : JsString)
deriving DecidableEq

/-- A `SyntaxError` or `URIError` becomes the adapter's failure; every other error stays. -/
def withAdapterParseFailure {α : Type} : Except Thrown α → Except Thrown α
  | .error (.syntaxError message) => .error (.adapterParseFailure message)
  | .error (.uriError message) => .error (.adapterParseFailure message)
  | r => r

/-- `text.replaceAll(pattern, replacement)`. -/
def replaceAll (pattern replacement s : JsString) : JsString :=
  replaceFound (literalAt pattern) (fun _ => replacement) s

/-- `/&#(\d+);/gu` -/
def numericAt : JsString → Option Nat
  | 38::35::s =>
    let digits := s.takeWhile isDigit
    if digits≠[] ∧ (s.drop digits.length).head?=some 59 then some (digits.length+3) else none
  | _ => none

/-- `String.fromCodePoint(n)` -/
def fromCodePoint (n : Nat) : Except Thrown JsString :=
  if 0x10ffff < n then .error .rangeError
  else if n < 0x10000 then .ok [UInt16.ofNat n]
  else .ok [UInt16.ofNat (0xd800+(n-0x10000)/0x400),UInt16.ofNat (0xdc00+(n-0x10000)%0x400)]

/-- The numeric pass: `String.fromCodePoint(Number.parseInt(digits, 10))` for a match `&#digits;`.
The double nearest to a number above 2^53 is above every code point as well. -/
def fromParts : List (Fragment UInt16) → Except Thrown JsString
  | [] => .ok []
  | .kept u::ps => do
    let t ← fromParts ps
    .ok (u::t)
  | .found m::ps => do
    let c ← fromCodePoint (digitsValue (m.drop 2).dropLast)
    let t ← fromParts ps
    .ok (c++t)

def ampersand : JsString := js "&amp;".toList

def decodeHtmlText (value : JsString) : Except Thrown JsString :=
  let value := replaceAll ampersand [38] value
  let value := replaceAll (js "&quot;".toList) [34] value
  let value := replaceAll (js "&#039;".toList) [39] value
  let value := replaceAll (js "&#39;".toList) [39] value
  let value := replaceAll (js "&lt;".toList) [60] value
  let value := replaceAll (js "&gt;".toList) [62] value
  fromParts (parts numericAt value)

/-- A character as `i` and `u` compare it: U+017F and U+212A are `s` and `k` as well. -/
def foldCase (u : UInt16) : UInt16 :=
  if 65 ≤ u.toNat ∧ u.toNat ≤ 90 then u+32 else if u=0x17f then 115 else if u=0x212a then 107 else u

/-- A word character of `\b` under `i` and `u`. -/
def isWord (u : UInt16) : Bool :=
  let c := foldCase u
  decide (97 ≤ c.toNat ∧ c.toNat ≤ 122) || isDigit c || c==95

/-- `[^>]*>` -/
def tagRest (s : JsString) : Option Nat :=
  let inner := s.takeWhile (fun u => u != 62)
  if inner.length < s.length then some (inner.length+1) else none

/-- `/<br\b[^>]*>/giu` -/
def breakAt : JsString → Option Nat
  | 60::b::r::s =>
    if foldCase b=98 ∧ foldCase r=114 ∧ (s.head?.map isWord).getD false=false then
      (tagRest s).map fun n => n+3
    else none
  | _ => none

def blockNames : List JsString :=
  ["p","div","li","section","article","h1","h2","h3","h4","h5","h6"].map fun n => js n.toList

/-- `/<\/(?:p|div|li|section|article|h[1-6])\s*>/giu` -/
def blockEndAt : JsString → Option Nat
  | 60::47::s => blockNames.findSome? fun name =>
      let rest := s.drop name.length
      let spaces := rest.takeWhile isWhiteSpace
      if (s.take name.length).map foldCase=name ∧ (rest.drop spaces.length).head?=some 62 then
        some (name.length+spaces.length+3)
      else none
  | _ => none

/-- `/<[^>]+>/gu` -/
def tagAt : JsString → Option Nat
  | 60::s => if s.head?=some 62 then none else (tagRest s).map fun n => n+1
  | _ => none

def withoutTags (value : JsString) : JsString :=
  let value := replaceFound breakAt (fun _ => [10]) value
  let value := replaceFound blockEndAt (fun _ => [10]) value
  replaceFound tagAt (fun _ => [32]) value

/-- `split(/\r?\n/u)` -/
def splitLines : JsString → List JsString
  | [] => [[]]
  | 10::s => []::splitLines s
  | 13::10::s => []::splitLines s
  | u::s => (splitLines s).modifyHead fun line => u::line

/-- `replace(/[^\S\r\n]+/gu, " ")`, inside a run of such white space or not. -/
def squeeze (inRun : Bool) : JsString → JsString
  | [] => []
  | u::s =>
    if isWhiteSpace u && u != 13 && u != 10 then
      (if inRun then squeeze true s else 32::squeeze true s)
    else u::squeeze false s

def htmlText (value : JsString) : Except Thrown JsString := do
  let text ← decodeHtmlText (withoutTags value)
  let lines := (splitLines text).map fun line => trim (squeeze false line)
  .ok ([10].intercalate (lines.filter fun line => !line.isEmpty))

/-- The text with the five characters replaced by references that the decoder knows. -/
def escaped : UInt16 → JsString
  | 38 => js "&amp;".toList
  | 60 => js "&lt;".toList
  | 62 => js "&gt;".toList
  | 34 => js "&quot;".toList
  | 39 => js "&#39;".toList
  | u => [u]

def escapeHtml (t : JsString) : JsString := t.flatMap escaped

/-- A result is returned or an `AdapterParseFailure` is thrown. -/
def Settled {α : Type} (r : Except Thrown α) : Prop :=
  (∃t,r=.ok t) ∨ ∃message,r=.error (.adapterParseFailure message)

/-- The body of a numeric reference. -/
def isNumeric : JsString → Bool
  | 35::digits => !digits.isEmpty && digits.all isDigit
  | _ => false

/-- The text spells a reference that is decoded after the ampersands. -/
def SpellsReference (t : JsString) : Prop :=
  (∃b∈["quot","lt","gt"].map fun n => js n.toList,reference 38 59 b <:+: t) ∨
    ∃b,isNumeric b=true ∧ reference 38 59 b <:+: t

/-- A numeric reference above the last code point, with `&` or with `&amp;` in front. -/
def HugeReference (t : JsString) : Prop :=
  ∃b,isNumeric b=true ∧ 0x10ffff < digitsValue (b.drop 1) ∧
    (reference 38 59 b <:+: t ∨ ampersand++(b++[59]) <:+: t)

end CardKeepr.Adapters
