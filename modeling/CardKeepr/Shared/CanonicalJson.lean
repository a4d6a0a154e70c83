import CardKeepr.Shared.JsonParse

namespace CardKeepr.Shared

open List

/-- `String.prototype.normalize("NFC")`, as far as the code relies on it. -/
structure Nfc where
  normalize : JsString → JsString
  idempotent : ∀s,normalize (normalize s)=normalize s
  ascii : ∀s,isAscii s=true → normalize s=s

/-- Texts as they are. -/
def Nfc.asWritten : Nfc := ⟨id,fun _ => rfl,fun _ _ => rfl⟩

variable (nfc : Nfc)

def Nfc.rank (k : JsString) : List UInt8 := utf8 (nfc.normalize k)

def compareUtf8 (left right : JsString) : Int :=
  if isAscii left && isAscii right then compareUnits left right
  else compareBytes (nfc.rank left) (nfc.rank right)

theorem compareUtf8_le (l r : JsString) :
    compareUtf8 nfc l r ≤ 0 ↔ compareBytes (nfc.rank l) (nfc.rank r) ≤ 0 := by
  unfold compareUtf8
  split
  · rename_i h
    obtain ⟨hl,hr⟩ := Bool.and_eq_true_iff.mp h
    rw [compareUnits_sign l r hl hr,Nfc.rank,Nfc.rank,nfc.ascii l hl,nfc.ascii r hr]
  · exact Iff.rfl

theorem rank_normalize (k : JsString) : nfc.rank (nfc.normalize k)=nfc.rank k := by
  rw [Nfc.rank,nfc.idempotent,Nfc.rank]

/-- `1.2e+21`: how a number of 22 digits or more is written. -/
def exponential (digits : JsString) : JsString :=
  match (digits.reverse.dropWhile (·==48)).reverse with
  | [] => digits
  | u::us => u::((if us=[] then [] else 46::us)++[101,43]++decimal (digits.length-1))

/-- `JSON.stringify` of an integer: plain digits below 10^21, else exponent form. All digits of the
integer are written: numbers stay exact, not rounded to doubles. -/
def integerText (m : Int) : JsString :=
  let digits := decimal m.natAbs
  let text := if m.natAbs < 10^21 then digits else exponential digits
  if m < 0 then 45::text else text

def integersOnly (path : JsString) : JsString :=
  js "Canonical catalogue JSON permits finite integers only at ".toList++path

/-- Run the parts in order; the first failure is thrown. -/
def collect {ε α : Type} : List (Except ε α) → Except ε (List α)
  | [] => .ok []
  | r::rs => do
    let a ← r
    let as ← collect rs
    return a::as

/-- `texts.join(",")`. -/
def commas : List JsString → JsString
  | [] => []
  | [t] => t
  | t::u::ts => t++44::commas (u::ts)

mutual

def canonicalJsonAt (path : JsString) : Json → Except JsString JsString
  | .null => .ok (js ['n','u','l','l'])
  | .bool true => .ok (js ['t','r','u','e'])
  | .bool false => .ok (js ['f','a','l','s','e'])
  | .num q => if q.den=1 then .ok (integerText q.num) else .error (integersOnly path)
  | .str s => .ok (quote (nfc.normalize s))
  | .arr vs => do
    let texts ← collect (canonicalItems path 0 vs)
    return 91::(commas texts++[93])
  | .obj ms => do
    let members := (canonicalMembers path ms).insertionSort fun a b => compareUtf8 nfc a.1 b.1 ≤ 0
    let texts ← collect (members.map Prod.snd)
    return 123::(commas texts++[125])

def canonicalItems (path : JsString) (index : Nat) : List Json → List (Except JsString JsString)
  | [] => []
  | v::vs => canonicalJsonAt (path++91::(decimal index++[93])) v::canonicalItems path (index+1) vs

/-- Each key with the text of its member. -/
def canonicalMembers (path : JsString) :
    List (JsString × Json) → List (JsString × Except JsString JsString)
  | [] => []
  | (k,v)::ms => (k,(canonicalJsonAt (path++46::k) v).map fun t =>
      quote (nfc.normalize k)++58::t)::canonicalMembers path ms

end

def canonicalJson (v : Json) : Except JsString JsString := canonicalJsonAt nfc [36] v

mutual

/-- Every string and every key in normal form. -/
def Json.normalized : Json → Json
  | .null => .null
  | .bool b => .bool b
  | .num q => .num q
  | .str s => .str (nfc.normalize s)
  | .arr vs => .arr (normalizedItems vs)
  | .obj ms => .obj (normalizedMembers ms)

def normalizedItems : List Json → List Json
  | [] => []
  | v::vs => v.normalized::normalizedItems vs

def normalizedMembers : List (JsString × Json) → List (JsString × Json)
  | [] => []
  | (k,v)::ms => (nfc.normalize k,v.normalized)::normalizedMembers ms

end

mutual

/-- The members of every object in the order of their keys' ranks, ties as they were. -/
def Json.sortKeys : Json → Json
  | .null => .null
  | .bool b => .bool b
  | .num q => .num q
  | .str s => .str s
  | .arr vs => .arr (sortItems vs)
  | .obj ms => .obj ((sortMembers ms).insertionSort fun a b =>
      compareBytes (nfc.rank a.1) (nfc.rank b.1) ≤ 0)

def sortItems : List Json → List Json
  | [] => []
  | v::vs => v.sortKeys::sortItems vs

def sortMembers : List (JsString × Json) → List (JsString × Json)
  | [] => []
  | (k,v)::ms => (k,v.sortKeys)::sortMembers ms

end

mutual

/-- The text of a syntax tree without any space. -/
def Json.print : Json → JsString
  | .null => js ['n','u','l','l']
  | .bool true => js ['t','r','u','e']
  | .bool false => js ['f','a','l','s','e']
  | .num q => integerText q.num
  | .str s => quote s
  | .arr vs => 91::(commas (printItems vs)++[93])
  | .obj ms => 123::(commas (printMembers ms)++[125])

def printItems : List Json → List JsString
  | [] => []
  | v::vs => v.print::printItems vs

def printMembers : List (JsString × Json) → List JsString
  | [] => []
  | (k,v)::ms => (quote k++58::v.print)::printMembers ms

end

attribute [local simp] Json.normalized normalizedItems normalizedMembers Json.sortKeys sortItems
  sortMembers Json.print printItems printMembers

theorem normalizedItems_map (vs : List Json) :
    normalizedItems nfc vs=vs.map (Json.normalized nfc) := by
  induction vs with
  | nil => rfl
  | cons v vs ih => simp [normalizedItems,ih]

theorem normalizedMembers_map (ms : List (JsString × Json)) : normalizedMembers nfc ms=
    ms.map fun m => (nfc.normalize m.1,m.2.normalized nfc) := by
  induction ms with
  | nil => rfl
  | cons m ms ih => simp [normalizedMembers,ih]

theorem sortItems_map (vs : List Json) : sortItems nfc vs=vs.map (Json.sortKeys nfc) := by
  induction vs with
  | nil => rfl
  | cons v vs ih => simp [sortItems,ih]

theorem sortMembers_map (ms : List (JsString × Json)) :
    sortMembers nfc ms=ms.map fun m => (m.1,m.2.sortKeys nfc) := by
  induction ms with
  | nil => rfl
  | cons m ms ih => simp [sortMembers,ih]

theorem printItems_map (vs : List Json) : printItems vs=vs.map Json.print := by
  induction vs with
  | nil => rfl
  | cons v vs ih => simp [printItems,ih]

theorem printMembers_map (ms : List (JsString × Json)) :
    printMembers ms=ms.map fun m => quote m.1++58::m.2.print := by
  induction ms with
  | nil => rfl
  | cons m ms ih => simp [printMembers,ih]

/-- The values whose numbers `canonicalJson` admits. -/
def Json.Integral (v : Json) : Prop := v.All (fun q => q.den=1) (fun _ => True) (fun _ => True)

def Json.canonical (v : Json) : Json := (v.normalized nfc).sortKeys nfc

theorem collect_ok_map (ε : Type) {α β : Type} (f : α → β) (as : List α) :
    collect (as.map fun a => (.ok (f a) : Except ε β))=.ok (as.map f) := by
  induction as with
  | nil => rfl
  | cons a as ih => simp [collect,ih,bind,Except.bind,pure,Except.pure]

theorem canonicalItems_ok {path : JsString} {vs : List Json} (index : Nat)
    (h : ∀v ∈ vs,∀path,canonicalJsonAt nfc path v=.ok (v.canonical nfc).print) :
    canonicalItems nfc path index vs=vs.map fun v => .ok (v.canonical nfc).print := by
  induction vs generalizing index with
  | nil => rfl
  | cons v vs ih =>
    rw [canonicalItems,h v (by simp),ih (index+1) fun w hw => h w (by simp [hw])]
    rfl

theorem canonicalMembers_ok {path : JsString} {ms : List (JsString × Json)}
    (h : ∀m ∈ ms,∀path,canonicalJsonAt nfc path m.2=.ok (m.2.canonical nfc).print) :
    canonicalMembers nfc path ms=ms.map fun m =>
      (m.1,.ok (quote (nfc.normalize m.1)++58::(m.2.canonical nfc).print)) := by
  induction ms with
  | nil => rfl
  | cons m ms ih =>
    rw [canonicalMembers,h m (by simp),ih fun n hn => h n (by simp [hn])]
    rfl

theorem canonical_arr (vs : List Json) :
    (Json.arr vs).canonical nfc=.arr (vs.map (Json.canonical nfc)) := by
  simp only [Json.canonical,Json.normalized,Json.sortKeys,normalizedItems_map,sortItems_map,map_map]
  rfl

/-- The members of a canonical object, sorted by their raw keys. -/
def sortedMembers (ms : List (JsString × Json)) : List (JsString × Json) :=
  (ms.insertionSort fun a b => compareUtf8 nfc a.1 b.1 ≤ 0).map fun m =>
    (nfc.normalize m.1,m.2.canonical nfc)

theorem canonical_obj (ms : List (JsString × Json)) :
    (Json.obj ms).canonical nfc=.obj (sortedMembers nfc ms) := by
  simp only [sortedMembers,Json.canonical,Json.normalized,Json.sortKeys,normalizedMembers_map,sortMembers_map,
    map_map]
  rw [map_insertionSort _ fun a b : JsString × Json =>
    compareBytes (nfc.rank a.1) (nfc.rank b.1) ≤ 0]
  · rfl
  · intro a _ b _
    rw [compareUtf8_le]
    simp only [rank_normalize]

theorem canonicalJsonAt_eq {v : Json} (h : v.Integral) (path : JsString) :
    canonicalJsonAt nfc path v=.ok (v.canonical nfc).print := by
  induction v using Json.induct generalizing path with
  | null => rfl
  | bool b => cases b <;> rfl
  | num q =>
    have h : q.den=1 := h
    rw [canonicalJsonAt,if_pos h]
    rfl
  | str s => rfl
  | arr vs ih =>
    have h := (all_arr vs).mp h
    rw [canonicalJsonAt,canonicalItems_ok nfc 0 fun v hv => ih v hv (h v hv),canonical_arr,
      Json.print,printItems_map,map_map]
    have hc := collect_ok_map JsString (fun v => (Json.canonical nfc v).print) vs
    simp only [hc]
    rfl
  | obj ms ih =>
    have h := ((all_obj ms).mp h).2
    rw [canonicalJsonAt,canonicalMembers_ok nfc fun m hm => ih m hm (h m hm),canonical_obj,
      Json.print,printMembers_map,sortedMembers,map_map]
    simp only [←map_insertionSort (fun a b : JsString × Json => compareUtf8 nfc a.1 b.1 ≤ 0)
      (fun a b : JsString × Except JsString JsString => compareUtf8 nfc a.1 b.1 ≤ 0)
      (fun m => (m.1,.ok (quote (nfc.normalize m.1)++58::(Json.canonical nfc m.2).print))) ms
      fun _ _ _ _ => Iff.rfl]
    rw [map_map]
    have hc := collect_ok_map JsString
      (fun m : JsString × Json => quote (nfc.normalize m.1)++58::(Json.canonical nfc m.2).print)
      (ms.insertionSort fun a b => compareUtf8 nfc a.1 b.1 ≤ 0)
    simp only [Function.comp_def,hc]
    rfl

theorem sortedMembers_perm (ms : List (JsString × Json)) : (sortedMembers nfc ms).Perm
    (ms.map fun m => (nfc.normalize m.1,m.2.canonical nfc)) :=
  (perm_insertionSort _ ms).map _

theorem sortedMembers_keys (ms : List (JsString × Json)) :
    ((sortedMembers nfc ms).map Prod.fst).Perm (ms.map fun m => nfc.normalize m.1) := by
  simpa [Function.comp_def] using (sortedMembers_perm nfc ms).map Prod.fst

end CardKeepr.Shared
