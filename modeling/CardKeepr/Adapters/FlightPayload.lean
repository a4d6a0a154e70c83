import CardKeepr.Adapters.HtmlText
import CardKeepr.Lib.InsertionMap

namespace CardKeepr.Adapters
open Shared Lib Lib.References
open Reconciliation.Printings (isWhiteSpace trim)

def maximumFlightCharacters : Nat := 4*1024*1024
def maximumChunks : Nat := 8192

abbrev FlightChunks := List (JsString × Json)

def parseFailure {α : Type} (message : String) : Except Thrown α :=
  .error (.adapterParseFailure (js message.toList))

/-- `self.__next_f.push([1,"` -/
def pushOpen : JsString := js "self.__next_f.push([1,\"".toList

/-- `"])` -/
def pushClose : JsString := js "\"])".toList

/-- What `.` does not match. -/
def isLineTerminator (u : UInt16) : Bool := u==10 || u==13 || u==0x2028 || u==0x2029

/-- The length of `(?:[^"\\]|\\.)*` in front of a quote. -/
def bodyEnd : JsString → Option Nat
  | [] => none
  | u::s =>
    if u=34 then some 0
    else if u=92 then
      match s with
      | [] => none
      | c::s => if isLineTerminator c then none else (bodyEnd s).map fun n => n+2
    else (bodyEnd s).map fun n => n+1

/-- `pushPattern` -/
def pushAt (s : JsString) : Option Nat :=
  if pushOpen.isPrefixOf s then
    match bodyEnd (s.drop pushOpen.length) with
    | some n =>
      if pushClose.isPrefixOf ((s.drop pushOpen.length).drop n) then
        some (pushOpen.length+n+pushClose.length)
      else none
    | none => none
  else none

/-- `match[1]` -/
def captured (found : JsString) : JsString :=
  (found.drop pushOpen.length).take (found.length-pushOpen.length-pushClose.length)

/-- `html.matchAll(pushPattern)`, the first group of each match. -/
def pushes (html : JsString) : List JsString :=
  ((parts pushAt html).filterMap Fragment.found?).map captured

section
variable (syntaxMessage : JsString → JsString)

/-- `JSON.parse(text)`, with the engine's message for a text that it refuses. -/
def parseJson (text : JsString) : Except Thrown Json :=
  match jsonParse text with
  | some v => .ok v
  | none => .error (.syntaxError (syntaxMessage text))

/-- One match of the first loop. -/
def appendPush (flight m : JsString) : Except Thrown JsString := do
  let piece ← withAdapterParseFailure (parseJson syntaxMessage (34::(m++[34])))
  match piece with
  | .str s =>
    if maximumFlightCharacters < (flight++s).length then
      parseFailure "Next.js flight payload exceeds its decoding bound."
    else .ok (flight++s)
  -- a text in quotes parses to nothing else
  | _ => .error .typeError

def flightText (groups : List JsString) : Except Thrown JsString :=
  groups.foldlM (appendPush syntaxMessage) []

/-- `/^[0-9a-f]+$/u` -/
def isChunkId (id : JsString) : Bool :=
  !id.isEmpty && id.all fun u =>
    isDigit u || decide (97 ≤ u.toNat ∧ u.toNat ≤ 102)

/-- The digits behind a prefix `0x`. -/
def withoutHexPrefix : JsString → JsString
  | 48::x::rest => if x=120 ∨ x=88 then rest else 48::x::rest
  | text => text

/-- `Number.parseInt(text, 16)`; `none` is NaN. -/
def parseHex (text : JsString) : Option Int :=
  let text := text.dropWhile isWhiteSpace
  let negative := text.head?=some 45
  let text := if text.head?=some 45 ∨ text.head?=some 43 then text.tail else text
  let digits := (withoutHexPrefix text).takeWhile fun u => (hexValue u).isSome
  if digits.isEmpty then none
  else
    let n : Nat := digits.foldl (fun n u => 16*n+(hexValue u).getD 0) 0
    some (if negative then -(n:Int) else n)

def unitBytes (u : UInt16) : Nat := (utf8Point (if isSurrogate u then 0xfffd else u.toNat)).length

/-- The loop of `textByByteLength`: the bytes consumed, the text and what follows it. -/
def textLoop (bytes consumed : Nat) : JsString → Nat × JsString × JsString
  | [] => (consumed,[],[])
  | [u] =>
    if consumed < bytes then (consumed+unitBytes u,[u],[]) else (consumed,[],[u])
  | u::v::s =>
    if consumed < bytes then
      if isPair u v then
        let r := textLoop bytes (consumed+4) s
        (r.1,u::v::r.2.1,r.2.2)
      else
        let r := textLoop bytes (consumed+unitBytes u) (v::s)
        (r.1,u::r.2.1,r.2.2)
    else (consumed,[],u::v::s)

def textByByteLength (s : JsString) (bytes : Nat) : Except Thrown (JsString × JsString) :=
  let r := textLoop bytes 0 s
  if r.1≠bytes then parseFailure "Next.js flight text chunk is truncated." else .ok r.2

/-- `T<hex length>,<text>` behind its first character. -/
def textChunk (s : JsString) : Except Thrown (JsString × JsString) :=
  match s.findIdx? (· == 44) with
  | none => parseFailure "Next.js flight text chunk length is invalid."
  | some comma =>
    match parseHex (s.take comma) with
    | none => parseFailure "Next.js flight text chunk length is invalid."
    | some length =>
      if 2^53 ≤ length.natAbs ∨ length < 0 then
        parseFailure "Next.js flight text chunk length is invalid."
      else textByByteLength (s.drop (comma+1)) length.toNat

def moduleValue (body : JsString) : Json := .obj [(js "$module".toList,.str body)]

/-- One turn of the loop on `flight.slice(offset)`. -/
def flightTurn (s : JsString) (chunks : FlightChunks) : Except Thrown (JsString × FlightChunks) :=
  let lineEnd := s.findIdx? (· == 10)
  let line := s.take (lineEnd.getD s.length)
  let next := s.drop ((lineEnd.map (· + 1)).getD s.length)
  let unidentified : Except Thrown (JsString × FlightChunks) :=
    if (trim line).isEmpty then .ok (next,chunks)
    else parseFailure "Next.js flight line has no chunk identifier."
  match s.findIdx? (· == 58) with
  | none => unidentified
  | some separator =>
    if lineEnd.any (fun e => decide (e < separator)) then unidentified
    else
      let id := s.take separator
      if id.isEmpty then .ok (next,chunks)
      else if !isChunkId id then parseFailure "Next.js flight chunk identifier is invalid."
      else if maximumChunks ≤ chunks.length then
        parseFailure "Next.js flight payload exceeds its chunk bound."
      else
        let kind := (s.drop (separator+1)).head?
        if kind=some 84 then do
          let (text,rest) ← textChunk (s.drop (separator+2))
          .ok (if rest.head?=some 10 then rest.tail else rest,mapSet chunks id (.str text))
        else
          let body := line.drop (separator+1)
          if kind=some 73 ∨ kind=some 72 then .ok (next,mapSet chunks id (moduleValue body))
          else do
            let value ← withAdapterParseFailure (parseJson syntaxMessage body)
            .ok (next,mapSet chunks id value)

/-- The loop with at most `n` turns; `none` where these do not reach the end. -/
def flightLoop : Nat → JsString → FlightChunks → Option (Except Thrown FlightChunks)
  | _,[],chunks => some (.ok chunks)
  | 0,_::_,_ => none
  | n+1,u::s,chunks =>
    match flightTurn syntaxMessage (u::s) chunks with
    | .error e => some (.error e)
    | .ok (rest,chunks) => flightLoop n rest chunks

/-- The decoder with one turn of its loop for each character. -/
def decodeFlightPayload (html : JsString) : Option (Except Thrown FlightChunks) :=
  match flightText syntaxMessage (pushes html) with
  | .error e => some (.error e)
  | .ok flight =>
    if flight.isEmpty then some (parseFailure "The page carries no Next.js flight payload.")
    else flightLoop syntaxMessage flight.length flight []

end

/-- The content of a row, with what makes it one: a line of JSON, a line of a module or a hint, or
any text. -/
inductive FlightRow where
  | json (value : Json) (text : JsString) (parses : jsonParse text=some value) (line : 10∉text)
  | module (kind : UInt16) (rest : JsString) (named : kind=73 ∨ kind=72) (line : 10∉rest)
  | text (content : JsString)

def FlightRow.value : FlightRow → Json
  | .json v _ _ _ => v
  | .module kind rest _ _ => moduleValue (kind::rest)
  | .text t => .str t

/-- `n.toString(16)` -/
def hexadecimal (n : Nat) : JsString := js (Nat.toDigits 16 n)

def FlightRow.written : FlightRow → JsString
  | .json _ line _ _ => line++[10]
  | .module kind rest _ _ => kind::(rest++[10])
  | .text t => 84::(hexadecimal (utf8 t).length++44::t)

/-- Rows with distinct hexadecimal identifiers. -/
structure FlightRows where
  rows : List (JsString × FlightRow)
  hex : ∀r∈rows,isChunkId r.1=true
  distinct : (rows.map Prod.fst).Nodup

def writtenRows (rows : List (JsString × FlightRow)) : JsString :=
  rows.flatMap fun r => r.1++58::r.2.written

/-- A push script behind other text: a string literal of the script and what it denotes. -/
structure PushScript where
  before : JsString
  literal : JsString
  piece : JsString
  plain : ¬pushOpen <:+: before
  denotes : StringText (literal++[34]) piece

def PushScript.html (p : PushScript) : JsString := p.before++(pushOpen++(p.literal++pushClose))

/-- A page with these scripts and no other ones. -/
structure FlightPage where
  scripts : List PushScript
  rest : JsString
  plain : ¬pushOpen <:+: rest

def FlightPage.html (p : FlightPage) : JsString := p.scripts.flatMap PushScript.html++p.rest

/-- The scripts' pieces, one behind the other. -/
def FlightPage.flight (p : FlightPage) : JsString := p.scripts.flatMap PushScript.piece

end CardKeepr.Adapters
