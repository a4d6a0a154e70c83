import CardKeepr.Shared.JsString
import Mathlib.Data.Nat.Digits.Defs
import Mathlib.Data.Rat.Lemmas

namespace CardKeepr.Shared

/-- JSON values. A number is the decimal value of its shortest text; a member list keeps the
order in which the runtime enumerates the object's keys. -/
inductive Json where
  | null
  | bool (b : Bool)
  | num (q : ℚ)
  | str (s : JsString)
  | arr (items : List Json)
  | obj (members : List (JsString × Json))

/-- The natural number a JSON value is. -/
def natural : Json → Option Nat
  | .num q => if q.den=1 ∧ 0 ≤ q.num then some q.num.toNat else none
  | _ => none

/-- `Number.MAX_SAFE_INTEGER`. -/
def maxSafeInteger : Nat := 9007199254740991

def isSpace (u : UInt16) : Bool := u==32 || u==9 || u==10 || u==13
def isDigit (u : UInt16) : Bool := decide (48 ≤ u.toNat ∧ u.toNat ≤ 57)
def digitValue (u : UInt16) : Nat := u.toNat-48
def skipSpace (s : JsString) : JsString := s.dropWhile isSpace

def hexValue (u : UInt16) : Option Nat :=
  if isDigit u then some (u.toNat-48)
  else if 97 ≤ u.toNat ∧ u.toNat ≤ 102 then some (u.toNat-87)
  else if 65 ≤ u.toNat ∧ u.toNat ≤ 70 then some (u.toNat-55)
  else none

def unescape (u : UInt16) : Option UInt16 :=
  if u=34 then some 34
  else if u=92 then some 92
  else if u=47 then some 47
  else if u=98 then some 8
  else if u=102 then some 12
  else if u=110 then some 10
  else if u=114 then some 13
  else if u=116 then some 9
  else none

def unhex (a b c d : UInt16) : Option UInt16 := do
  let a ← hexValue a
  let b ← hexValue b
  let c ← hexValue c
  let d ← hexValue d
  some (UInt16.ofNat (a*4096+b*256+c*16+d))

/-- The characters of a string literal after its opening quote, and what follows the literal. -/
def stringBody : JsString → Option (JsString × JsString)
  | [] => none
  | u::us =>
    if u=34 then some ([],us)
    else if u=92 then
      match us with
      | 117::a::b::c::d::us =>
        match unhex a b c d with
        | none => none
        | some v => (stringBody us).map fun r => (v::r.1,r.2)
      | e::us =>
        match unescape e with
        | none => none
        | some v => (stringBody us).map fun r => (v::r.1,r.2)
      | [] => none
    else if u.toNat < 32 then none
    else (stringBody us).map fun r => (u::r.1,r.2)

def digitsValue (ds : JsString) : Nat := ds.foldl (fun n u => 10*n+digitValue u) 0

/-- An integer part: a lone zero, or digits that do not start with a zero. -/
def integerPart (s : JsString) : Option (JsString × JsString) :=
  match s with
  | [] => none
  | u::us =>
    if u=48 then some ([48],us)
    else if isDigit u then some (s.span isDigit)
    else none

def fractionPart (s : JsString) : Option (JsString × JsString) :=
  match s with
  | 46::us => if (us.span isDigit).1=[] then none else some (us.span isDigit)
  | _ => some ([],s)

def exponentPart (s : JsString) : Option (Int × JsString) :=
  match s with
  | [] => some (0,s)
  | u::us =>
    if u=101 ∨ u=69 then
      let (sign,us) : Int × JsString := match us with
        | 43::us => (1,us)
        | 45::us => (-1,us)
        | _ => (1,us)
      if (us.span isDigit).1=[] then none
      else some (sign*digitsValue (us.span isDigit).1,(us.span isDigit).2)
    else some (0,s)

def unsignedNumber (s : JsString) : Option (ℚ × JsString) := do
  let (whole,s) ← integerPart s
  let (fraction,s) ← fractionPart s
  let (exponent,s) ← exponentPart s
  some (digitsValue (whole++fraction)*(10:ℚ)^(exponent-fraction.length),s)

def parseNumber (s : JsString) : Option (ℚ × JsString) :=
  match s with
  | 45::us => (unsignedNumber us).map fun r => (-r.1,r.2)
  | _ => unsignedNumber s

/-- The keyword at the front of `s`, if it is there. -/
def keyword (word : List Char) (s : JsString) : Option JsString :=
  if (js word).isPrefixOf s then some (s.drop word.length) else none

mutual

def parseValue : Nat → JsString → Option (Json × JsString)
  | 0,_ => none
  | n+1,s =>
    match s with
    | [] => none
    | u::us =>
      if u=34 then (stringBody us).map fun r => (.str r.1,r.2)
      else if u=91 then
        if (skipSpace us).head?=some 93 then some (.arr [],(skipSpace us).tail)
        else (parseItems n us).map fun r => (.arr r.1,r.2)
      else if u=123 then
        if (skipSpace us).head?=some 125 then some (.obj [],(skipSpace us).tail)
        else (parseMembers n us).map fun r => (.obj r.1,r.2)
      else if u=110 then (keyword ['n','u','l','l'] s).map fun r => (.null,r)
      else if u=116 then (keyword ['t','r','u','e'] s).map fun r => (.bool true,r)
      else if u=102 then (keyword ['f','a','l','s','e'] s).map fun r => (.bool false,r)
      else (parseNumber s).map fun r => (.num r.1,r.2)

/-- Elements of an array after `[` or `,`, up to and including the closing bracket. -/
def parseItems : Nat → JsString → Option (List Json × JsString)
  | 0,_ => none
  | n+1,s =>
    match parseValue n (skipSpace s) with
    | none => none
    | some (v,s) =>
      match skipSpace s with
      | [] => none
      | u::us =>
        if u=44 then (parseItems n us).map fun r => (v::r.1,r.2)
        else if u=93 then some ([v],us)
        else none

/-- Members of an object after `{` or `,`, up to and including the closing brace. -/
def parseMembers : Nat → JsString → Option (List (JsString × Json) × JsString)
  | 0,_ => none
  | n+1,s =>
    match skipSpace s with
    | [] => none
    | q::s =>
      if q≠34 then none
      else match stringBody s with
      | none => none
      | some (k,s) =>
        match skipSpace s with
        | [] => none
        | c::s =>
          if c≠58 then none
          else match parseValue n (skipSpace s) with
          | none => none
          | some (v,s) =>
            match skipSpace s with
            | [] => none
            | u::us =>
              if u=44 then (parseMembers n us).map fun r => ((k,v)::r.1,r.2)
              else if u=125 then some ([(k,v)],us)
              else none

end

/-- The syntax of a whole JSON text; members keep their textual order and repetitions. -/
def jsonSyntax (text : JsString) : Option Json :=
  match parseValue (2*text.length+1) (skipSpace text) with
  | none => none
  | some (v,rest) => if skipSpace rest=[] then some v else none

mutual

def Json.decEq : (a b : Json) → Decidable (a=b)
  | .null,b => match b with
    | .null => .isTrue rfl
    | .bool _ | .num _ | .str _ | .arr _ | .obj _ => .isFalse Json.noConfusion
  | .bool x,b => match b with
    | .bool y => decidable_of_iff (x=y) (by simp)
    | .null | .num _ | .str _ | .arr _ | .obj _ => .isFalse Json.noConfusion
  | .num x,b => match b with
    | .num y => decidable_of_iff (x=y) (by simp)
    | .null | .bool _ | .str _ | .arr _ | .obj _ => .isFalse Json.noConfusion
  | .str x,b => match b with
    | .str y => decidable_of_iff (x=y) (by simp)
    | .null | .bool _ | .num _ | .arr _ | .obj _ => .isFalse Json.noConfusion
  | .arr x,b => match b with
    | .arr y => have := decEqItems x y; decidable_of_iff (x=y) (by simp)
    | .null | .bool _ | .num _ | .str _ | .obj _ => .isFalse Json.noConfusion
  | .obj x,b => match b with
    | .obj y => have := decEqMembers x y; decidable_of_iff (x=y) (by simp)
    | .null | .bool _ | .num _ | .str _ | .arr _ => .isFalse Json.noConfusion

def decEqItems : (a b : List Json) → Decidable (a=b)
  | [],[] => .isTrue rfl
  | [],_::_ => .isFalse (by simp)
  | _::_,[] => .isFalse (by simp)
  | x::xs,y::ys =>
    have := Json.decEq x y
    have := decEqItems xs ys
    decidable_of_iff (x=y ∧ xs=ys) (by simp)

def decEqMembers : (a b : List (JsString × Json)) → Decidable (a=b)
  | [],[] => .isTrue rfl
  | [],_::_ => .isFalse (by simp)
  | _::_,[] => .isFalse (by simp)
  | (k,x)::xs,(l,y)::ys =>
    have := Json.decEq x y
    have := decEqMembers xs ys
    decidable_of_iff ((k=l ∧ x=y) ∧ xs=ys) (by simp)

end

instance : DecidableEq Json := Json.decEq

end CardKeepr.Shared
