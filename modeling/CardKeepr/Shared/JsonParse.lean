import CardKeepr.Shared.JsonGrammar
import Mathlib.Data.List.Sort
import Mathlib.Data.List.Induction
import Mathlib.Data.List.Perm.Subperm

namespace CardKeepr.Shared

open List

variable {k : JsString}

def decimal (n : Nat) : JsString := js (Nat.toDigits 10 n)

theorem decimal_step {n : Nat} (h : 10 ≤ n) :
    decimal n=decimal (n/10)++[UInt16.ofNat (48+n%10)] := by
  rw [decimal,Nat.toDigits_of_base_le (by decide) h]
  simp [js,decimal,Nat.toNat_digitChar_of_lt_ten (Nat.mod_lt n (by decide : 0 < 10))]

theorem decimal_small {n : Nat} (h : n < 10) : decimal n=[UInt16.ofNat (48+n)] := by
  rw [decimal,Nat.toDigits_of_lt_base h]
  simp [js,Nat.toNat_digitChar_of_lt_ten h]

theorem digit_unit {d : Nat} (h : d < 10) :
    isDigit (UInt16.ofNat (48+d))=true ∧ digitValue (UInt16.ofNat (48+d))=d := by
  interval_cases d <;> decide

theorem decimal_digits (n : Nat) : Digits (decimal n) := by
  induction n using Nat.strongRecOn with
  | ind n ih =>
    intro u hu
    by_cases h : n < 10
    · rw [decimal_small h,mem_singleton] at hu
      exact hu ▸ (digit_unit h).1
    · rw [decimal_step (by omega),mem_append,mem_singleton] at hu
      obtain hu|rfl := hu
      · exact ih (n/10) (by omega) u hu
      · exact (digit_unit (Nat.mod_lt n (by decide))).1

theorem digitsValue_append (l r : JsString) :
    digitsValue (l++r)=digitsValue l*10^r.length+digitsValue r := by
  have h : ∀(r : JsString) (n : Nat),r.foldl (fun n u => 10*n+digitValue u) n=
      n*10^r.length+r.foldl (fun n u => 10*n+digitValue u) 0 := by
    intro r
    induction r with
    | nil => simp
    | cons u r ih =>
      intro n
      rw [foldl_cons,foldl_cons,ih,ih (10*0+_),length_cons]
      ring
  rw [digitsValue,foldl_append]
  exact h r _

theorem digitsValue_decimal (n : Nat) : digitsValue (decimal n)=n := by
  induction n using Nat.strongRecOn with
  | ind n ih =>
    by_cases h : n < 10
    · rw [decimal_small h]
      simpa [digitsValue] using (digit_unit h).2
    · have hd : digitsValue [UInt16.ofNat (48+n%10)]=n%10 := by
        simpa [digitsValue] using (digit_unit (Nat.mod_lt n (by decide : 0 < 10))).2
      rw [decimal_step (by omega),digitsValue_append,ih _ (by omega),hd,length_singleton]
      omega

theorem decimal_head (n : Nat) : ∃u us,decimal n=u::us ∧ (n≠0 → u≠48) := by
  induction n using Nat.strongRecOn with
  | ind n ih =>
    by_cases h : n < 10
    · refine ⟨_,_,decimal_small h,?_⟩
      interval_cases n <;> decide
    · obtain ⟨u,us,e,hu⟩ := ih (n/10) (by omega)
      exact ⟨u,us++[UInt16.ofNat (48+n%10)],by rw [decimal_step (by omega),e]; rfl,
        fun _ => hu (by omega)⟩

theorem decimal_whole (n : Nat) : WholeText (decimal n) := by
  obtain ⟨u,us,e,hu⟩ := decimal_head n
  by_cases h : n=0
  · subst h
    exact .zero
  · have hd := decimal_digits n
    rw [e] at hd ⊢
    exact .digits (hu h) hd

theorem decimal_inj {m n : Nat} (h : decimal m=decimal n) : m=n := by
  rw [←digitsValue_decimal m,h,digitsValue_decimal]

def keyOrder (k : JsString) : Nat :=
  if k=decimal (digitsValue k) ∧ digitsValue k < 2^32-1 then digitsValue k else 2^32

/-- Assigning a property keeps the place of one that is already there. -/
def assign (k : JsString) (v : Json) : List (JsString × Json) → List (JsString × Json)
  | [] => [(k,v)]
  | (l,w)::ms => if l=k then (k,v)::ms else (l,w)::assign k v ms

def assignAll (ms : List (JsString × Json)) : List (JsString × Json) :=
  ms.foldl (fun acc m => assign m.1 m.2 acc) []

/-- The members of the object that assigning `ms` in turn builds, as they are enumerated. -/
def ownMembers (ms : List (JsString × Json)) : List (JsString × Json) :=
  (assignAll ms).insertionSort fun a b => keyOrder a.1 ≤ keyOrder b.1

mutual

/-- The value a syntax tree denotes: repeated and index keys are resolved in every object. -/
def Json.own : Json → Json
  | .null => .null
  | .bool b => .bool b
  | .num q => .num q
  | .str s => .str s
  | .arr vs => .arr (ownItems vs)
  | .obj ms => .obj (ownMembers (ownValues ms))

def ownItems : List Json → List Json
  | [] => []
  | v::vs => v.own::ownItems vs

def ownValues : List (JsString × Json) → List (JsString × Json)
  | [] => []
  | (k,v)::ms => (k,v.own)::ownValues ms

end

/-- `JSON.parse(text)`; `none` stands for its `SyntaxError`. A number keeps its exact value, where
the runtime takes the nearest double. -/
def jsonParse (text : JsString) : Option Json := (jsonSyntax text).map Json.own

attribute [local simp] assign decimal

theorem ownItems_map (vs : List Json) : ownItems vs=vs.map Json.own := by
  induction vs with
  | nil => rfl
  | cons v vs ih => simp [ownItems,ih]

theorem ownValues_map (ms : List (JsString × Json)) :
    ownValues ms=ms.map fun m => (m.1,m.2.own) := by
  induction ms with
  | nil => rfl
  | cons m ms ih => simp [ownValues,ih]

theorem Json.induct {P : Json → Prop} (null : P .null) (bool : ∀b,P (.bool b))
    (num : ∀q,P (.num q)) (str : ∀s,P (.str s)) (arr : ∀vs,(∀v ∈ vs,P v) → P (.arr vs))
    (obj : ∀ms : List (JsString × Json),(∀m ∈ ms,P m.2) → P (.obj ms)) (v : Json) : P v :=
  @Json.rec P (fun vs => ∀v ∈ vs,P v) (fun ms => ∀m ∈ ms,P m.2) (fun m => P m.2)
    null bool num str (fun vs h => arr vs h) (fun ms h => obj ms h) (by simp)
    (fun v vs hv hvs => by simpa using ⟨hv,hvs⟩) (by simp)
    (fun m ms hm hms => by simpa using ⟨hm,fun k v h => hms (k,v) h⟩) (fun _ _ h => h) v

mutual

/-- Every number, every string and the key list of every object satisfy their predicate. -/
def Json.All (num : ℚ → Prop) (str : JsString → Prop) (keys : List JsString → Prop) : Json → Prop
  | .null => True
  | .bool _ => True
  | .num q => num q
  | .str s => str s
  | .arr vs => AllItems num str keys vs
  | .obj ms => keys (ms.map Prod.fst) ∧ AllMembers num str keys ms

def AllItems (num : ℚ → Prop) (str : JsString → Prop) (keys : List JsString → Prop) :
    List Json → Prop
  | [] => True
  | v::vs => v.All num str keys ∧ AllItems num str keys vs

def AllMembers (num : ℚ → Prop) (str : JsString → Prop) (keys : List JsString → Prop) :
    List (JsString × Json) → Prop
  | [] => True
  | (_,v)::ms => v.All num str keys ∧ AllMembers num str keys ms

end

section All

variable {num : ℚ → Prop} {str : JsString → Prop} {keys : List JsString → Prop}

theorem all_arr (vs : List Json) : (Json.arr vs).All num str keys ↔ ∀v ∈ vs,v.All num str keys := by
  rw [Json.All]
  induction vs with
  | nil => simp [AllItems]
  | cons v vs ih => simp [AllItems,ih]

theorem all_obj (ms : List (JsString × Json)) : (Json.obj ms).All num str keys ↔
    keys (ms.map Prod.fst) ∧ ∀m ∈ ms,m.2.All num str keys := by
  rw [Json.All]
  refine and_congr_right fun h => ?_
  clear h
  induction ms with
  | nil => simp [AllMembers]
  | cons m ms ih => simp [AllMembers,ih]

end All

def OwnKeys (ks : List JsString) : Prop := ks.Nodup ∧ ks.Pairwise fun a b => keyOrder a ≤ keyOrder b

/-- The values of the runtime among the syntax trees. -/
def Json.Own (v : Json) : Prop := v.All (fun _ => True) (fun _ => True) OwnKeys

variable {v : Json}

theorem assign_new {ms : List (JsString × Json)}
    (h : k ∉ ms.map Prod.fst) : assign k v ms=ms++[(k,v)] := by
  induction ms with
  | nil => rfl
  | cons m ms ih =>
    simp only [map_cons,mem_cons,not_or] at h
    simp [assign,Ne.symm h.1,ih h.2]

theorem assign_old {ms : List (JsString × Json)}
    (h : k ∈ ms.map Prod.fst) : (assign k v ms).map Prod.fst=ms.map Prod.fst := by
  induction ms with
  | nil => simp at h
  | cons m ms ih =>
    by_cases hk : m.1=k
    · simp [assign,hk]
    · have h : k ∈ ms.map Prod.fst := (mem_cons.mp h).resolve_left (Ne.symm hk)
      simp [assign,hk,ih h]

theorem assign_mem {ms : List (JsString × Json)}
    {m : JsString × Json} (h : m ∈ assign k v ms) : m=(k,v) ∨ m ∈ ms := by
  induction ms with
  | nil => exact .inl (mem_singleton.mp h)
  | cons n ms ih =>
    rw [assign] at h
    split_ifs at h
    · exact (mem_cons.mp h).imp_right fun h => by simp [h]
    · obtain rfl|h := mem_cons.mp h
      · exact .inr (by simp)
      · exact (ih h).imp_right fun h => by simp [h]

theorem assign_nodup {ms : List (JsString × Json)}
    (h : (ms.map Prod.fst).Nodup) : ((assign k v ms).map Prod.fst).Nodup := by
  by_cases hk : k ∈ ms.map Prod.fst
  · rwa [assign_old hk]
  · rw [assign_new hk,map_append,nodup_append]
    simp only [map_cons,map_nil,nodup_singleton,mem_singleton,true_and]
    exact ⟨h,by rintro a ha b rfl rfl; exact hk ha⟩

theorem assignAll_append (l r : List (JsString × Json)) :
    assignAll (l++r)=r.foldl (fun acc m => assign m.1 m.2 acc) (assignAll l) :=
  foldl_append

theorem assignAll_nodup (ms : List (JsString × Json)) : ((assignAll ms).map Prod.fst).Nodup := by
  induction ms using List.reverseRecOn with
  | nil => simp [assignAll]
  | append_singleton ms m ih =>
    rw [assignAll_append]
    exact assign_nodup ih

theorem assignAll_mem {ms : List (JsString × Json)} {m : JsString × Json}
    (h : m ∈ assignAll ms) : m ∈ ms := by
  induction ms using List.reverseRecOn with
  | nil => simp [assignAll] at h
  | append_singleton ms n ih =>
    rw [assignAll_append] at h
    obtain rfl|h := assign_mem h
    · simp
    · simp [ih h]

theorem assignAll_keys (ms : List (JsString × Json)) (k : JsString) :
    k ∈ (assignAll ms).map Prod.fst ↔ k ∈ ms.map Prod.fst := by
  induction ms using List.reverseRecOn with
  | nil => simp [assignAll]
  | append_singleton ms n ih =>
    rw [assignAll_append,foldl_cons,foldl_nil,map_append,mem_append,←ih]
    by_cases hk : n.1 ∈ (assignAll ms).map Prod.fst
    · rw [assign_old hk]
      simp only [map_cons,map_nil,mem_singleton]
      exact ⟨.inl,fun h => h.elim id fun e => e ▸ hk⟩
    · rw [assign_new hk,map_append,mem_append]

theorem assignAll_of_nodup {ms : List (JsString × Json)} (h : (ms.map Prod.fst).Nodup) :
    assignAll ms=ms := by
  induction ms using List.reverseRecOn with
  | nil => rfl
  | append_singleton ms m ih =>
    rw [map_append,nodup_append] at h
    rw [assignAll_append,foldl_cons,foldl_nil,ih h.1,assign_new]
    intro hm
    exact h.2.2 m.1 hm m.1 (by simp) rfl

theorem assignAll_length {ms : List (JsString × Json)} (h : ¬(ms.map Prod.fst).Nodup) :
    (assignAll ms).length < ms.length := by
  have hs : ((assignAll ms).map Prod.fst).Subperm (ms.map Prod.fst) :=
    subperm_of_subset (assignAll_nodup ms) fun k hk => (assignAll_keys ms k).mp hk
  have hl := hs.length_le
  rw [length_map,length_map] at hl
  rcases Nat.lt_or_eq_of_le hl with hl|hl
  · exact hl
  · exfalso
    have hp := hs.perm_of_length_le (by simp [hl])
    exact h (hp.nodup_iff.mp (assignAll_nodup ms))

theorem ownMembers_perm {ms : List (JsString × Json)} (h : (ms.map Prod.fst).Nodup) :
    (ownMembers ms).Perm ms := by
  rw [ownMembers,assignAll_of_nodup h]
  exact perm_insertionSort _ _

theorem ownMembers_keys (ms : List (JsString × Json)) : OwnKeys ((ownMembers ms).map Prod.fst) := by
  constructor
  · exact ((perm_insertionSort _ (assignAll ms)).map Prod.fst).nodup_iff.mpr
      (assignAll_nodup ms)
  · rw [pairwise_map]
    have : Std.Total fun a b : JsString × Json => keyOrder a.1 ≤ keyOrder b.1 :=
      ⟨fun a b => Nat.le_total _ _⟩
    have : IsTrans (JsString × Json) fun a b => keyOrder a.1 ≤ keyOrder b.1 :=
      ⟨fun a b c => Nat.le_trans⟩
    exact pairwise_insertionSort _ _

theorem Json.own_Own (v : Json) : v.own.Own := by
  induction v using Json.induct with
  | null => trivial
  | bool b => trivial
  | num q => trivial
  | str s => trivial
  | arr vs ih =>
    rw [Json.own,ownItems_map]
    refine (all_arr _).mpr fun w hw => ?_
    obtain ⟨v,hv,rfl⟩ := mem_map.mp hw
    exact ih v hv
  | obj ms ih =>
    rw [Json.own,ownValues_map]
    refine (all_obj _).mpr ⟨ownMembers_keys _,fun m hm => ?_⟩
    have hm := assignAll_mem ((mem_insertionSort _).mp hm)
    obtain ⟨n,hn,rfl⟩ := mem_map.mp hm
    exact ih n hn

theorem Json.Own.own_eq (h : v.Own) : v.own=v := by
  induction v using Json.induct with
  | null => rfl
  | bool b => rfl
  | num q => rfl
  | str s => rfl
  | arr vs ih =>
    have h := (all_arr _).mp h
    rw [Json.own,ownItems_map,map_congr_left fun v hv => ih v hv (h v hv),map_id']
  | obj ms ih =>
    obtain ⟨⟨hk,ho⟩,hm⟩ := (all_obj _).mp h
    have hv : ms.map (fun m => (m.1,m.2.own))=ms := by
      rw [map_congr_left fun m h => by rw [ih m h (hm m h)],map_id']
    rw [Json.own,ownValues_map,hv,ownMembers,assignAll_of_nodup hk]
    rw [pairwise_map] at ho
    rw [ho.insertionSort_eq]

end CardKeepr.Shared
