import CardKeepr.Shared.CanonicalJson

namespace CardKeepr.Shared

open List

-- JSON values in memory, where code writes to them by pointers: an array can get a hole there, or
-- a member that is no element, which no JSON text has.

/-- A value that is neither an object nor an array. -/
inductive Scalar where
  | null
  | bool (b : Bool)
  | num (q : ℚ)
  | str (s : JsString)
  deriving DecidableEq

inductive Kind where
  | object
  | array (length : Nat)
  deriving DecidableEq

/-- The own members of an array are its elements, under the texts of their indices, and what was
assigned to it beside them; its `length` is kept apart. -/
inductive Value where
  | scalar (s : Scalar)
  | own (kind : Kind) (members : List (JsString × Value))

def lookupMember {α : Type} (k : JsString) : List (JsString × α) → Option α
  | [] => none
  | m::ms => if m.1=k then some m.2 else lookupMember k ms

mutual

def Value.decEq : (a b : Value) → Decidable (a=b)
  | .scalar x,b => match b with
    | .scalar y => decidable_of_iff (x=y) (by simp)
    | .own _ _ => .isFalse Value.noConfusion
  | .own κ x,b => match b with
    | .own κ' y => have := decEqOwn x y; decidable_of_iff (κ=κ' ∧ x=y) (by simp)
    | .scalar _ => .isFalse Value.noConfusion

def decEqOwn : (a b : List (JsString × Value)) → Decidable (a=b)
  | [],[] => .isTrue rfl
  | [],_::_ => .isFalse (by simp)
  | _::_,[] => .isFalse (by simp)
  | (k,x)::xs,(l,y)::ys =>
    have := Value.decEq x y
    have := decEqOwn xs ys
    decidable_of_iff ((k=l ∧ x=y) ∧ xs=ys) (by simp)

end

instance : DecidableEq Value := Value.decEq

mutual

/-- What `JSON.parse` and `structuredClone` make of a JSON value. -/
def Value.of : Json → Value
  | .null => .scalar .null
  | .bool b => .scalar (.bool b)
  | .num q => .scalar (.num q)
  | .str s => .scalar (.str s)
  | .arr vs => .own (.array vs.length) (elementsOf 0 vs)
  | .obj ms => .own .object (valuesOf ms)

def elementsOf (index : Nat) : List Json → List (JsString × Value)
  | [] => []
  | v::vs => (decimal index,Value.of v)::elementsOf (index+1) vs

def valuesOf : List (JsString × Json) → List (JsString × Value)
  | [] => []
  | (k,v)::ms => (k,Value.of v)::valuesOf ms

end

/-- The text is the index of an array element. -/
def arrayIndex (k : JsString) : Option Nat :=
  let n := k.foldl (fun n u => 10*n+(u.toNat-48)) 0
  if decimal n=k ∧ n < 2^32-1 then some n else none

/-- An element behind the end makes the array longer. -/
def Kind.grown {α : Type} (κ : Kind) (k : JsString) (ms : List (JsString × α)) : Kind :=
  match κ with
  | .object => .object
  | .array length =>
    if (lookupMember k ms).isSome then .array length
    else match arrayIndex k with
      | some i => .array (max length (i+1))
      | none => .array length

def Scalar.json : Scalar → Json
  | .null => .null
  | .bool b => .bool b
  | .num q => .num q
  | .str s => .str s

section
variable (nfc : Nfc)

/-- The text of an object's or an array's parts: the sorted members, or the elements in a row, a
hole without a text. -/
def canonicalParts (κ : Kind) (parts : List (JsString × Except JsString JsString)) :
    List (Except JsString JsString) :=
  match κ with
  | .object => (parts.insertionSort fun a b => compareUtf8 nfc a.1 b.1 ≤ 0).map fun part =>
      part.2.map fun t => quote (nfc.normalize part.1)++58::t
  | .array length => (List.range length).map fun i => (lookupMember (decimal i) parts).getD (.ok [])

mutual

def Value.canonicalAt (path : JsString) : Value → Except JsString JsString
  | .scalar s => canonicalJsonAt nfc path s.json
  | .own κ ms => do
    let texts ← collect (canonicalParts nfc κ (canonicalOwn κ path ms))
    match κ with
    | .object => return 123::(commas texts++[125])
    | .array _ => return 91::(commas texts++[93])

def canonicalOwn (κ : Kind) (path : JsString) :
    List (JsString × Value) → List (JsString × Except JsString JsString)
  | [] => []
  | (k,v)::ms =>
    (k,Value.canonicalAt (match κ with
      | .object => path++46::k
      | .array _ => path++91::(k++[93])) v)::canonicalOwn κ path ms

end

/-- `canonicalJson` of a value in memory. -/
def Value.canonicalJson (v : Value) : Except JsString JsString := v.canonicalAt nfc [36]

theorem lookupMember_indices {α : Type} (xs : List α) (s j : Nat) (h : s ≤ j) :
    lookupMember (decimal j) ((xs.zipIdx s).map fun c => (decimal c.2,c.1))=xs[j-s]? := by
  induction xs generalizing s with
  | nil => rfl
  | cons x xs ih =>
    rw [zipIdx_cons,map_cons,lookupMember]
    by_cases hj : s=j
    · subst hj
      simp
    · rw [if_neg fun he => hj (decimal_inj he),ih (s+1) (by omega),
        show j-s=j-(s+1)+1 by omega,List.getElem?_cons_succ]

theorem canonicalItems_length (path : JsString) (i : Nat) (vs : List Json) :
    (canonicalItems nfc path i vs).length=vs.length := by
  induction vs generalizing i with
  | nil => rfl
  | cons v vs ih => rw [canonicalItems,length_cons,length_cons,ih]

theorem canonicalMembers_map (path : JsString) (ms : List (JsString × Json)) : canonicalMembers nfc
    path ms= (ms.map fun m => (m.1,canonicalJsonAt nfc (path++46::m.1) m.2)).map fun part =>
    (part.1,part.2.map fun t => quote (nfc.normalize part.1)++58::t) := by
  induction ms with
  | nil => rfl
  | cons m ms ih => rw [canonicalMembers,ih]; rfl

mutual

/-- A JSON value has the text of itself in memory. -/
theorem canonicalAt_of (path : JsString) :
    (v : Json) → (Value.of v).canonicalAt nfc path=canonicalJsonAt nfc path v
  | .null => rfl
  | .bool _ => rfl
  | .num _ => rfl
  | .str _ => rfl
  | .arr vs => by
    have hparts : canonicalParts nfc (.array vs.length)
        (canonicalOwn nfc (.array vs.length) path (elementsOf 0 vs))=canonicalItems nfc path 0 vs := by
      rw [canonicalOwn_elements path vs.length 0 vs,canonicalParts]
      have hlen : (canonicalItems nfc path 0 vs).length=vs.length := canonicalItems_length nfc path 0 vs
      apply List.ext_getElem?
      intro i
      rw [List.getElem?_map]
      by_cases hi : i < vs.length
      · rw [List.getElem?_range hi,Option.map_some,lookupMember_indices _ 0 i (Nat.zero_le i),
          Nat.sub_zero,List.getElem?_eq_getElem (by omega),Option.getD_some]
      · rw [List.getElem?_eq_none (by simp; omega),List.getElem?_eq_none (by omega)]
        rfl
    rw [Value.of,Value.canonicalAt,hparts,canonicalJsonAt]
  | .obj ms => by
    have hparts : canonicalParts nfc .object (canonicalOwn nfc .object path (valuesOf ms))=
        ((canonicalMembers nfc path ms).insertionSort fun a b =>
          compareUtf8 nfc a.1 b.1 ≤ 0).map Prod.snd := by
      rw [canonicalOwn_members path ms,canonicalMembers_map,canonicalParts]
      rw [← map_insertionSort (fun a b : JsString × Except JsString JsString =>
        compareUtf8 nfc a.1 b.1 ≤ 0) _ _ _ fun a _ b _ => Iff.rfl,map_map]
      rfl
    rw [Value.of,Value.canonicalAt,hparts,canonicalJsonAt]

theorem canonicalOwn_elements (path : JsString) (n i : Nat) :
    (vs : List Json) → canonicalOwn nfc (.array n) path (elementsOf i vs)=
      ((canonicalItems nfc path i vs).zipIdx i).map fun c => (decimal c.2,c.1)
  | [] => rfl
  | v::vs => by
    rw [elementsOf,canonicalOwn,canonicalItems,zipIdx_cons,map_cons,
      canonicalAt_of _ v,canonicalOwn_elements path n (i+1) vs]

theorem canonicalOwn_members (path : JsString) :
    (ms : List (JsString × Json)) → canonicalOwn nfc .object path (valuesOf ms)=
      ms.map fun m => (m.1,canonicalJsonAt nfc (path++46::m.1) m.2)
  | [] => rfl
  | (k,v)::ms => by
    rw [valuesOf,canonicalOwn,canonicalAt_of _ v,canonicalOwn_members path ms]
    rfl

end

theorem canonicalJson_of (v : Json) : (Value.of v).canonicalJson nfc=canonicalJson nfc v :=
  canonicalAt_of nfc [36] v

end

end CardKeepr.Shared
