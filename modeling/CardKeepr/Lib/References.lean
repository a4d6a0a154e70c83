import Mathlib.Data.List.Infix
import Mathlib.Data.List.Flatten

namespace CardKeepr.Lib.References

open List

inductive Fragment (α : Type) where
  | kept (a : α)
  | found (text : List α)
deriving DecidableEq

section Search
variable {α : Type}

/-- The matches from left to right, each behind the one before, and the elements between them;
`find` is the length of a match at the head. -/
def partsFrom (find : List α → Option Nat) : Nat → List α → List (Fragment α)
  | _,[] => []
  | n+1,_::s => partsFrom find n s
  | 0,a::s =>
    match find (a::s) with
    | some n => .found ((a::s).take n)::partsFrom find (n-1) s
    | none => .kept a::partsFrom find 0 s

def parts (find : List α → Option Nat) (s : List α) : List (Fragment α) := partsFrom find 0 s

def Fragment.substituted (r : List α → List α) : Fragment α → List α
  | .kept a => [a]
  | .found m => r m

/-- The list with each match `m` replaced by `r m`. -/
def replaceFound (find : List α → Option Nat) (r : List α → List α) (s : List α) : List α :=
  (parts find s).flatMap (Fragment.substituted r)

def literalAt [DecidableEq α] (p s : List α) : Option Nat :=
  if p.isPrefixOf s then some p.length else none

variable {find : List α → Option Nat}

theorem partsFrom_drop (n : Nat) (s : List α) : partsFrom find n s=parts find (s.drop n) := by
  induction n generalizing s with
  | zero => rfl
  | succ n ih =>
    cases s with
    | nil => rfl
    | cons a s => rw [partsFrom,ih,drop_succ_cons]

theorem parts_nil : parts find []=[] := rfl

theorem parts_kept {a : α} {s : List α} (h : find (a::s)=none) :
    parts find (a::s)=.kept a::parts find s := by
  rw [parts,partsFrom,h]
  rfl

theorem parts_found {m s : List α} (hm : m≠[]) (h : find (m++s)=some m.length) :
    parts find (m++s)=.found m::parts find s := by
  cases m with
  | nil => exact absurd rfl hm
  | cons a m =>
    rw [cons_append] at h ⊢
    rw [parts,partsFrom,h]
    have htake : (a::(m++s)).take (a::m).length=a::m := by simp
    have hdrop : (m++s).drop ((a::m).length-1)=s := by simp
    simp only [partsFrom_drop,htake,hdrop]

theorem parts_plain {w s : List α} (h : ∀u v,w=u++v → v≠[] → find (v++s)=none) :
    parts find (w++s)=w.map .kept++parts find s := by
  induction w with
  | nil => rfl
  | cons a w ih =>
    have hhead : find (a::(w++s))=none := h [] (a::w) rfl (by simp)
    have hrest := ih fun u v hw hv => h (a::u) v (by rw [hw]; rfl) hv
    rw [cons_append,parts_kept hhead,hrest]
    rfl

/-- The text of a match. -/
def Fragment.found? : Fragment α → Option (List α)
  | .kept _ => none
  | .found m => some m

theorem found_kept (w : List α) : (w.map Fragment.kept).filterMap Fragment.found?=[] := by
  induction w with
  | nil => rfl
  | cons a w ih =>
    rw [map_cons,filterMap_cons_none rfl,ih]

end Search

section References
variable {α : Type} (o e : α) (name : α → Bool)

inductive Token (α : Type) where
  | unit (a : α)
  | ref (body : List α)
deriving DecidableEq

def reference (b : List α) : List α := o::b++[e]

def Token.text : Token α → List α
  | .unit a => [a]
  | .ref b => reference o e b

def flat (ts : List (Token α)) : List α := ts.flatMap (Token.text o e)

/-- Names and then the closing element stand in front. -/
def closes [DecidableEq α] : List (Token α) → Bool
  | .unit a::ts => a=e || name a && closes ts
  | _ => false

/-- The tokens are those of their text: no reference is spelt by single elements. -/
def Apart [DecidableEq α] : List (Token α) → Prop
  | [] => True
  | .unit a::ts => (a=o → closes e name ts=false) ∧ Apart ts
  | .ref b::ts => (∀a∈b,name a=true) ∧ Apart ts

/-- Elements that delimit no reference and stand in no name. -/
structure Delimits : Prop where
  apart : o≠e
  opening : name o=false
  closing : name e=false

/-- A search for the references with a body in `K`. -/
structure Reads (find : List α → Option Nat) (K : List α → Prop) : Prop where
  named : ∀b,K b → ∀a∈b,name a=true
  other : ∀a s,a≠o → find (a::s)=none
  known : ∀b s,K b → find (reference o e b++s)=some (reference o e b).length
  only : ∀s n,find (o::s)=some n → ∃b t,K b ∧ s=b++e::t

variable {o e name} {find : List α → Option Nat} {K : List α → Prop}

@[simp] theorem flat_nil : flat o e ([] : List (Token α))=[] := rfl

@[simp] theorem flat_cons (t : Token α) (ts : List (Token α)) :
    flat o e (t::ts)=t.text o e++flat o e ts := rfl

@[simp] theorem flat_append (ts us : List (Token α)) :
    flat o e (ts++us)=flat o e ts++flat o e us := flatMap_append

theorem body_unique (hd : Delimits o e name) {b c s t : List α} (hb : ∀a∈b,name a=true)
    (hc : ∀a∈c,name a=true) (h : b++e::s=c++e::t) : b=c ∧ s=t := by
  induction b generalizing c with
  | nil =>
    cases c with
    | nil => exact ⟨rfl,(List.cons.inj h).2⟩
    | cons a c =>
      have ha := hc a mem_cons_self
      rw [←(List.cons.inj h).1,hd.closing] at ha
      cases ha
  | cons a b ih =>
    cases c with
    | nil =>
      have ha := hb a mem_cons_self
      rw [(List.cons.inj h).1,hd.closing] at ha
      cases ha
    | cons a' c =>
      obtain ⟨rfl,htail⟩ := List.cons.inj h
      obtain ⟨rfl,hs⟩ := ih (fun x hx => hb x (mem_cons_of_mem _ hx))
        (fun x hx => hc x (mem_cons_of_mem _ hx)) htail
      exact ⟨rfl,hs⟩

variable [DecidableEq α]

theorem closes_of_flat (hd : Delimits o e name) {ts : List (Token α)} {b s : List α}
    (hb : ∀a∈b,name a=true) (h : flat o e ts=b++e::s) : closes e name ts=true := by
  induction ts generalizing b with
  | nil =>
    have hlen := congrArg List.length h
    simp at hlen
  | cons t ts ih =>
    cases t with
    | unit a =>
      rw [flat_cons,Token.text,singleton_append] at h
      cases b with
      | nil =>
        obtain ⟨rfl,-⟩ := List.cons.inj h
        simp [closes]
      | cons a' b =>
        obtain ⟨rfl,htail⟩ := List.cons.inj h
        have hn := hb a mem_cons_self
        have hrest := ih (fun x hx => hb x (mem_cons_of_mem _ hx)) htail
        simp [closes,hn,hrest]
    | ref c =>
      rw [flat_cons,Token.text,reference] at h
      exfalso
      cases b with
      | nil => exact hd.apart (List.cons.inj h).1
      | cons a' b =>
        have hn := hb a' mem_cons_self
        rw [←(List.cons.inj h).1,hd.opening] at hn
        cases hn

theorem flat_of_closes {ts : List (Token α)} (h : closes e name ts=true) :
    ∃b s,(∀a∈b,name a=true) ∧ flat o e ts=b++e::s := by
  induction ts with
  | nil => cases h
  | cons t ts ih =>
    cases t with
    | ref c => cases h
    | unit a =>
      rw [closes,Bool.or_eq_true,decide_eq_true_eq,Bool.and_eq_true] at h
      rcases h with rfl | ⟨hn,h⟩
      · exact ⟨[],flat o a ts,by simp,rfl⟩
      · obtain ⟨b,s,hb,hs⟩ := ih h
        refine ⟨a::b,s,?_,?_⟩
        · intro x hx
          rcases mem_cons.mp hx with rfl | hx
          · exact hn
          · exact hb x hx
        · rw [flat_cons,hs]
          rfl

theorem exists_apart (o e : α) (name : α → Bool) (s : List α) :
    ∃ts,Apart o e name ts ∧ flat o e ts=s := by
  induction hn : s.length using Nat.strong_induction_on generalizing s with
  | _ n ih =>
    cases s with
    | nil => exact ⟨[],trivial,rfl⟩
    | cons a s =>
      rw [length_cons] at hn
      obtain ⟨ts,hts,rfl⟩ := ih s.length (by omega) s rfl
      by_cases hc : a=o ∧ closes e name ts=true
      · obtain ⟨rfl,hc⟩ := hc
        obtain ⟨b,t,hb,ht⟩ := flat_of_closes (o := a) hc
        have hlen := congrArg List.length ht
        rw [length_append,length_cons] at hlen
        obtain ⟨us,hus,rfl⟩ := ih t.length (by omega) t rfl
        refine ⟨.ref b::us,⟨hb,hus⟩,?_⟩
        rw [ht,flat_cons,Token.text,reference]
        simp
      · refine ⟨.unit a::ts,⟨?_,hts⟩,rfl⟩
        intro ho
        rw [Bool.eq_false_iff]
        exact fun h => hc ⟨ho,h⟩

omit [DecidableEq α] in
theorem behind_reference (hd : Delimits o e name) {b c s x y : List α} (hb : ∀a∈b,name a=true)
    (hc : ∀a∈c,name a=true) (h : reference o e c++s=x++(reference o e b++y)) :
    x=[] ∧ c=b ∧ s=y ∨ ∃z,x=reference o e c++z ∧ s=z++(reference o e b++y) := by
  cases x with
  | nil =>
    have h' : c++e::s=b++e::y := by simpa [reference] using h
    obtain ⟨rfl,rfl⟩ := body_unique hd hc hb h'
    exact .inl ⟨rfl,rfl,rfl⟩
  | cons a x =>
    right
    have ha : a=o := (List.cons.inj h).1.symm
    have h' : (c++[e])++s=x++(reference o e b++y) := by
      simpa [reference] using (List.cons.inj h).2
    rcases append_eq_append_iff.mp h' with ⟨z,hx,hz⟩ | ⟨z,hcz,hz⟩
    · refine ⟨z,?_,hz⟩
      rw [hx,ha]
      simp [reference]
    · cases z with
      | nil =>
        rw [append_nil] at hcz
        refine ⟨[],?_,hz.symm⟩
        rw [←hcz,ha]
        simp [reference]
      -- the reference would begin inside the body of the other one
      | cons z₀ z =>
        exfalso
        have hz₀ : o=z₀ := (List.cons.inj hz).1
        have hmem : o∈c++[e] := by rw [hcz,hz₀]; simp
        rcases mem_append.mp hmem with ho | ho
        · have hn := hc o ho
          rw [hd.opening] at hn
          cases hn
        · exact hd.apart (mem_singleton.mp ho)

theorem split_ref (hd : Delimits o e name) {ts : List (Token α)} (hts : Apart o e name ts)
    {b x y : List α} (hb : ∀a∈b,name a=true) (h : flat o e ts=x++(reference o e b++y)) :
    ∃us vs,ts=us++.ref b::vs ∧ flat o e us=x ∧ flat o e vs=y := by
  induction ts generalizing x with
  | nil =>
    have hlen := congrArg List.length h
    simp [reference] at hlen
  | cons t ts ih =>
    cases t with
    | unit a =>
      rw [flat_cons,Token.text,singleton_append] at h
      cases x with
      | nil =>
        obtain ⟨rfl,htail⟩ := List.cons.inj h
        have hbody : flat a e ts=b++e::y := by simpa using htail
        have hclose := hts.1 rfl
        rw [closes_of_flat hd hb hbody] at hclose
        cases hclose
      | cons a' x =>
        obtain ⟨rfl,htail⟩ := List.cons.inj h
        obtain ⟨us,vs,rfl,rfl,hy⟩ := ih hts.2 htail
        exact ⟨.unit a::us,vs,rfl,rfl,hy⟩
    | ref c =>
      rw [flat_cons,Token.text] at h
      rcases behind_reference hd hb hts.1 h with ⟨rfl,rfl,rfl⟩ | ⟨z,rfl,hz⟩
      · exact ⟨[],ts,rfl,rfl,rfl⟩
      · obtain ⟨us,vs,rfl,rfl,hy⟩ := ih hts.2 hz
        exact ⟨.ref c::us,vs,rfl,rfl,hy⟩

theorem mem_ref_iff (hd : Delimits o e name) {ts : List (Token α)} (hts : Apart o e name ts)
    {b : List α} (hb : ∀a∈b,name a=true) : reference o e b <:+: flat o e ts ↔ .ref b∈ts := by
  constructor
  · rintro ⟨x,y,h⟩
    rw [append_assoc] at h
    obtain ⟨us,vs,rfl,-,-⟩ := split_ref hd hts hb h.symm
    simp
  · intro h
    obtain ⟨us,vs,rfl⟩ := append_of_mem h
    refine ⟨flat o e us,flat o e vs,?_⟩
    rw [flat_append,flat_cons,Token.text,append_assoc]

def Token.parted (o e : α) (K : List α → Prop) [DecidablePred K] : Token α → List (Fragment α)
  | .unit a => [.kept a]
  | .ref b => if K b then [.found (reference o e b)] else (reference o e b).map .kept

omit [DecidableEq α] in
theorem parts_inert {w s : List α} (h : Reads o e name find K) (hw : o∉w) :
    parts find (w++s)=w.map .kept++parts find s := by
  induction w with
  | nil => rfl
  | cons a w ih =>
    have ha : a≠o := fun he => hw (by simp [he])
    have hnone : find (a::(w++s))=none := h.other a _ ha
    rw [cons_append,parts_kept hnone,ih fun hm => hw (mem_cons_of_mem _ hm)]
    rfl

theorem parts_flat [DecidablePred K] (hd : Delimits o e name) (h : Reads o e name find K)
    {ts : List (Token α)} (hts : Apart o e name ts) :
    parts find (flat o e ts)=ts.flatMap (Token.parted o e K) := by
  induction ts with
  | nil => rfl
  | cons t ts ih =>
    rw [flat_cons,flatMap_cons]
    cases t with
    | unit a =>
      have hnone : find (a::flat o e ts)=none := by
        by_cases ha : a=o
        · subst ha
          cases hf : find (a::flat a e ts) with
          | none => rfl
          | some n =>
            obtain ⟨b,s,hk,hs⟩ := h.only _ n hf
            have hc := hts.1 rfl
            rw [closes_of_flat hd (h.named b hk) hs] at hc
            cases hc
        · exact h.other a _ ha
      rw [Token.text,singleton_append,parts_kept hnone,ih hts.2]
      rfl
    | ref b =>
      rw [Token.text,Token.parted]
      by_cases hk : K b
      · rw [parts_found (by simp [reference]) (h.known b _ hk),if_pos hk,ih hts.2]
        rfl
      · have hnone : find (o::((b++[e])++flat o e ts))=none := by
          cases hf : find (o::((b++[e])++flat o e ts)) with
          | none => rfl
          | some n =>
            obtain ⟨c,s,hc,hs⟩ := h.only _ n hf
            rw [append_assoc] at hs
            obtain ⟨rfl,-⟩ := body_unique hd hts.1 (h.named c hc) hs
            exact absurd hc hk
        have ho : o∉b++[e] := by
          intro hm
          rcases mem_append.mp hm with hm | hm
          · have hn := hts.1 o hm
            rw [hd.opening] at hn
            cases hn
          · exact hd.apart (mem_singleton.mp hm)
        have hshape : reference o e b++flat o e ts=o::((b++[e])++flat o e ts) := by
          simp [reference]
        rw [hshape,parts_kept hnone,parts_inert h ho,ih hts.2,if_neg hk]
        simp [reference]

/-- The text with each reference of `K` replaced by what `r` gives for it. -/
def Token.replaced (o e : α) (K : List α → Prop) [DecidablePred K] (r : List α → List α) :
    Token α → List α
  | .unit a => [a]
  | .ref b => if K b then r b else reference o e b

omit [DecidableEq α] in
theorem kept_substituted (r : List α → List α) (w : List α) :
    (w.map Fragment.kept).flatMap (Fragment.substituted r)=w := by
  induction w with
  | nil => rfl
  | cons a w ih => rw [map_cons,flatMap_cons,ih]; rfl

theorem replaceFound_flat [DecidablePred K] (hd : Delimits o e name) (h : Reads o e name find K)
    (r : List α → List α) {ts : List (Token α)} (hts : Apart o e name ts) : replaceFound find r
    (flat o e ts)= ts.flatMap (Token.replaced o e K fun b => r (reference o e b)) := by
  rw [replaceFound,parts_flat hd h hts,flatMap_assoc]
  congr 1
  funext t
  cases t with
  | unit a => rfl
  | ref b =>
    by_cases hk : K b
    · simp [Token.parted,Token.replaced,hk,Fragment.substituted]
    · simp only [Token.parted,Token.replaced,if_neg hk,kept_substituted]

omit [DecidableEq α] in
theorem takeWhile_body {p : α → Bool} (he : p e=false) {b s : List α} (hb : ∀a∈b,p a=true) :
    (b++e::s).takeWhile p=b := by
  rw [takeWhile_append_of_pos hb,takeWhile_cons,he]
  simp

omit [DecidableEq α] in
theorem drop_takeWhile (p : α → Bool) (s : List α) :
    s.drop (s.takeWhile p).length=s.dropWhile p := by
  induction s with
  | nil => rfl
  | cons a s ih =>
    cases h : p a with
    | true => simp [h,ih]
    | false => simp [h]

omit [DecidableEq α] in
theorem head_closes {s : List α} (h : s.head?=some e) : ∃t,s=e::t := by
  cases s with
  | nil => cases h
  | cons a s => exact ⟨s,by rw [Option.some.inj h]⟩

theorem literal_reads {b : List α} (hb : ∀a∈b,name a=true) :
    Reads o e name (literalAt (reference o e b)) (· = b) where
  named := by
    rintro c rfl
    exact hb
  other := by
    intro a s ha
    have hne : ¬(reference o e b).isPrefixOf (a::s)=true := by
      rw [ isPrefixOf_iff_prefix]
      rintro ⟨t,ht⟩
      exact ha (List.cons.inj ht).1.symm
    rw [literalAt,if_neg hne]
  known := by
    rintro c s rfl
    have hp : (reference o e c).isPrefixOf (reference o e c++s)=true := by
      rw [ isPrefixOf_iff_prefix]
      exact prefix_append _ _
    rw [literalAt,if_pos hp]
  only := by
    intro s n hf
    rw [literalAt] at hf
    split at hf
    · rename_i hp
      obtain ⟨t,ht⟩ := isPrefixOf_iff_prefix.mp hp
      refine ⟨b,t,rfl,?_⟩
      simpa [reference] using (List.cons.inj ht).2.symm
    · cases hf

def Opens (e : α) (name : α → Bool) (s : List α) : Prop := ∀a t,s=a::t → a≠e ∧ name a=false

theorem closes_append {us : List (Token α)} (h : Opens e name (flat o e us))
    (ts : List (Token α)) : closes e name (ts++us)=closes e name ts := by
  induction ts with
  | nil =>
    cases us with
    | nil => rfl
    | cons u us =>
      cases u with
      | unit a =>
        obtain ⟨hne,hname⟩ := h a (flat o e us) rfl
        simp [closes,hne,hname]
      | ref b => rfl
  | cons t ts ih =>
    cases t with
    | unit a => rw [cons_append,closes,closes,ih]
    | ref b => rfl

theorem apart_append {ts us : List (Token α)} (hts : Apart o e name ts)
    (hus : Apart o e name us) (h : Opens e name (flat o e us)) : Apart o e name (ts++us) := by
  induction ts with
  | nil => exact hus
  | cons t ts ih =>
    cases t with
    | unit a =>
      refine ⟨fun ho => ?_,ih hts.2⟩
      have hc := closes_append h ts
      rw [hts.1 ho] at hc
      exact hc
    | ref b => exact ⟨hts.1,ih hts.2⟩

theorem replaceFound_append [DecidablePred K] (hd : Delimits o e name)
    (h : Reads o e name find K) {r : List α → List α} {s t : List α} (ht : Opens e name t) :
    replaceFound find r (s++t)=replaceFound find r s++replaceFound find r t := by
  obtain ⟨ts,hts,rfl⟩ := exists_apart o e name s
  obtain ⟨us,hus,rfl⟩ := exists_apart o e name t
  have happ := apart_append hts hus ht
  rw [←flat_append,replaceFound_flat hd h r happ,replaceFound_flat hd h r hts,
    replaceFound_flat hd h r hus,flatMap_append]

omit [DecidableEq α] in
theorem front_of_units (hd : Delimits o e name) {F G : Token α → List α}
    (hF : ∀b,∃w,F (.ref b)=o::w) (hunit : ∀a,F (.unit a)=[a] ∧ G (.unit a)=[a])
    {ts : List (Token α)} {b y : List α} (hb : ∀a∈b,name a=true)
    (h : ts.flatMap F=b++e::y) : ∃z,ts.flatMap G=b++e::z := by
  induction ts generalizing b with
  | nil =>
    have hlen := congrArg List.length h
    simp at hlen
  | cons t ts ih =>
    rw [flatMap_cons] at h ⊢
    cases t with
    | unit a =>
      rw [(hunit a).1,singleton_append] at h
      rw [(hunit a).2,singleton_append]
      cases b with
      | nil =>
        obtain ⟨rfl,-⟩ := List.cons.inj h
        exact ⟨_,rfl⟩
      | cons a' b =>
        obtain ⟨rfl,htail⟩ := List.cons.inj h
        obtain ⟨z,hz⟩ := ih (fun x hx => hb x (mem_cons_of_mem _ hx)) htail
        rw [hz]
        exact ⟨z,rfl⟩
    | ref c =>
      exfalso
      obtain ⟨w,hw⟩ := hF c
      rw [hw] at h
      cases b with
      | nil => exact hd.apart (List.cons.inj h).1
      | cons a b =>
        have hn := hb a mem_cons_self
        rw [←(List.cons.inj h).1,hd.opening] at hn
        cases hn

/-- The tokens with `k` replaced by the opening element. -/
abbrev reopened (o e : α) (k : List α) : Token α → List α :=
  Token.replaced o e (· = k) fun _ => [o]

theorem reopened_ref (k b : List α) : ∃w,reopened o e k (.ref b)=o::w := by
  by_cases h : b=k
  · exact ⟨[],by simp [Token.replaced,h]⟩
  · exact ⟨b++[e],by simp [Token.replaced,h,reference]⟩

theorem split_reopened (hd : Delimits o e name) {ts : List (Token α)}
    (hts : Apart o e name ts) {k b x y : List α} (hb : ∀a∈b,name a=true)
    (h : ts.flatMap (reopened o e k)=x++(reference o e b++y)) :
    .ref b∈ts ∨ ∃us vs z,ts=us++.ref k::vs ∧ flat o e vs=b++e::z := by
  have front : ∀{us : List (Token α)} {z : List α},us.flatMap (reopened o e k)=b++e::z →
      ∃z,flat o e us=b++e::z := fun hu =>
    front_of_units hd (reopened_ref k) (fun a => ⟨rfl,rfl⟩) hb hu
  induction ts generalizing x with
  | nil =>
    have hlen := congrArg List.length h
    simp [reference] at hlen
  | cons t ts ih =>
    have later : ∀{x},ts.flatMap (reopened o e k)=x++(reference o e b++y) →
        Apart o e name ts → .ref b∈t::ts ∨ ∃us vs z,t::ts=us++.ref k::vs ∧ flat o e vs=b++e::z := by
      intro x hx hts
      rcases ih hts hx with hm | ⟨us,vs,z,rfl,hz⟩
      · exact .inl (mem_cons_of_mem _ hm)
      · exact .inr ⟨t::us,vs,z,rfl,hz⟩
    rw [flatMap_cons] at h
    cases t with
    | unit a =>
      cases x with
      | nil =>
        exfalso
        obtain ⟨rfl,htail⟩ := List.cons.inj h
        obtain ⟨z,hz⟩ := front (by simpa using htail)
        have hclose := hts.1 rfl
        rw [closes_of_flat hd hb hz] at hclose
        cases hclose
      | cons a' x => exact later (List.cons.inj h).2 hts.2
    | ref c =>
      by_cases hck : c=k
      · have hr : reopened o e k (.ref c)=[o] := by simp [Token.replaced,hck]
        rw [hr] at h
        cases x with
        | nil =>
          obtain ⟨z,hz⟩ := front (by simpa [reference] using h)
          exact .inr ⟨[],ts,z,by rw [hck]; rfl,hz⟩
        | cons a' x => exact later (List.cons.inj h).2 hts.2
      · have hr : reopened o e k (.ref c)=reference o e c := by simp [Token.replaced,hck]
        rw [hr] at h
        rcases behind_reference hd hb hts.1 h with ⟨-,rfl,-⟩ | ⟨z,-,hz⟩
        · exact .inl mem_cons_self
        · exact later hz hts.2

theorem reopened_iff (hd : Delimits o e name) {ts : List (Token α)} (hts : Apart o e name ts)
    {k b : List α} (hk : ∀a∈k,name a=true) (hb : ∀a∈b,name a=true) (hne : b≠k) :
    reference o e b <:+: ts.flatMap (reopened o e k) ↔
      reference o e b <:+: flat o e ts ∨ reference o e k++(b++[e]) <:+: flat o e ts := by
  constructor
  · rintro ⟨x,y,h⟩
    rw [append_assoc] at h
    rcases split_reopened hd hts hb h.symm with hm | ⟨us,vs,z,rfl,hz⟩
    · exact .inl ((mem_ref_iff hd hts hb).mpr hm)
    · refine .inr ⟨flat o e us,z,?_⟩
      rw [flat_append,flat_cons,hz]
      simp [Token.text]
  · rintro (h | ⟨x,y,h⟩)
    · obtain ⟨us,vs,rfl⟩ := append_of_mem ((mem_ref_iff hd hts hb).mp h)
      refine ⟨us.flatMap (reopened o e k),vs.flatMap (reopened o e k),?_⟩
      simp [Token.replaced,hne]
    · have h' : flat o e ts=x++(reference o e k++(b++e::y)) := by simp [←h]
      obtain ⟨us,vs,rfl,-,hv⟩ := split_ref hd hts hk h'
      obtain ⟨z,hz⟩ := front_of_units (G := reopened o e k) hd
        (fun c => ⟨c++[e],rfl⟩) (fun a => ⟨rfl,rfl⟩) hb hv
      refine ⟨us.flatMap (reopened o e k),z,?_⟩
      rw [flatMap_append,flatMap_cons,hz]
      simp [Token.replaced,reference]

def Foreign (o e : α) (name : α → Bool) (a : α) : Prop := a≠o ∧ a≠e ∧ name a=false

instance (a : α) : Decidable (Foreign o e name a) :=
  inferInstanceAs (Decidable (a≠o ∧ a≠e ∧ name a=false))

/-- A map of tokens that exchanges references and foreign elements only. -/
structure Exchanges (o e : α) (name : α → Bool) (f : Token α → Token α) : Prop where
  own : ∀a,¬Foreign o e name a → f (.unit a)=.unit a
  foreign : ∀a,Foreign o e name a → (∃c,Foreign o e name c ∧ f (.unit a)=.unit c) ∨
    ∃b,(∀x∈b,name x=true) ∧ f (.unit a)=.ref b
  refs : ∀b,(∀x∈b,name x=true) → (∃c,Foreign o e name c ∧ f (.ref b)=.unit c) ∨
    ∃c,(∀x∈c,name x=true) ∧ f (.ref b)=.ref c

variable {f : Token α → Token α}

theorem closes_foreign {a : α} (ha : Foreign o e name a) (ts : List (Token α)) :
    closes e name (.unit a::ts)=false := by
  simp [closes,ha.2.1,ha.2.2]

theorem Exchanges.closes (h : Exchanges o e name f) {ts : List (Token α)}
    (hts : Apart o e name ts) : References.closes e name (ts.map f)=References.closes e name ts := by
  induction ts with
  | nil => rfl
  | cons t ts ih =>
    rw [map_cons]
    cases t with
    | unit a =>
      by_cases ha : Foreign o e name a
      · rw [closes_foreign ha]
        rcases h.foreign a ha with ⟨c,hc,hf⟩ | ⟨b,-,hf⟩
        · rw [hf,closes_foreign hc]
        · rw [hf]
          rfl
      · rw [h.own a ha,References.closes,References.closes,ih hts.2]
    | ref b =>
      rcases h.refs b hts.1 with ⟨c,hc,hf⟩ | ⟨c,-,hf⟩
      · rw [hf,closes_foreign hc]
        rfl
      · rw [hf]
        rfl

theorem Exchanges.apart (h : Exchanges o e name f) {ts : List (Token α)}
    (hts : Apart o e name ts) : Apart o e name (ts.map f) := by
  induction ts with
  | nil => trivial
  | cons t ts ih =>
    rw [map_cons]
    cases t with
    | unit a =>
      by_cases ha : Foreign o e name a
      · rcases h.foreign a ha with ⟨c,hc,hf⟩ | ⟨b,hb,hf⟩
        · rw [hf]
          exact ⟨fun ho => absurd ho hc.1,ih hts.2⟩
        · rw [hf]
          exact ⟨hb,ih hts.2⟩
      · rw [h.own a ha]
        refine ⟨fun ho => ?_,ih hts.2⟩
        rw [h.closes hts.2]
        exact hts.1 ho
    | ref b =>
      rcases h.refs b hts.1 with ⟨c,hc,hf⟩ | ⟨c,hc,hf⟩
      · rw [hf]
        exact ⟨fun ho => absurd ho hc.1,ih hts.2⟩
      · rw [hf]
        exact ⟨hc,ih hts.2⟩

end References
end CardKeepr.Lib.References
