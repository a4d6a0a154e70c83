import CardKeepr.Shared.StreamedResume

namespace CardKeepr.Shared

open List

variable {d : Nat} {u : UInt16} {s t w : JsString}

/-- The scan outside or inside a string at a given depth. -/
abbrev scanAt (depth : Nat) (quoted : Bool) (s : JsString) : JsString × JsString :=
  scan ⟨depth,0,quoted,false⟩ s

/-- A piece of the token in front of the result of a scan. -/
def pushed (t : JsString) (r : JsString × JsString) : JsString × JsString := (t++r.1,r.2)

/-- What a scan does once the value at `depth` has ended. -/
def scanAfter (depth : Nat) (s : JsString) : JsString × JsString :=
  if depth=0 then ([],s) else scanAt depth false s

theorem pushed_append (t u : JsString) (r : JsString × JsString) :
    pushed (t++u) r=pushed t (pushed u r) := by
  simp [pushed]

theorem scan_count (d k : Nat) (q e : Bool) (s : JsString) : scan ⟨d,k,q,e⟩ s=scan ⟨d,0,q,e⟩ s := by
  induction s generalizing d k q e with
  | nil => rfl
  | cons u us ih =>
    simp only [scan,TokenScan.unit]
    split_ifs <;> simp only [ih _ (k+1),ih _ k,ih _ (0+1)]

def isPlain (u : UInt16) : Bool := u != 34 && u != 91 && u != 123 && u != 93 && u != 125

theorem scan_plain (hp : isPlain u=true) (hd : d=0 → isDelimiter u=false)
    (s : JsString) : scanAt d false (u::s)=pushed [u] (scanAt d false s) := by
  simp only [isPlain,Bool.and_eq_true,bne_iff_ne] at hp
  obtain ⟨⟨⟨⟨h1,h2⟩,h3⟩,h4⟩,h5⟩ := hp
  have hstop : (d==0 && isDelimiter u)=false := by
    by_cases h0 : d=0
    · simp [hd h0]
    · simp [h0]
  simp only [scanAt,scan,TokenScan.unit,Bool.not_false,Bool.true_and,hstop]
  split_ifs <;> simp_all [pushed,scan_count d (0+1)]

theorem scan_plains (hw : ∀u ∈ w,isPlain u=true ∧ (d=0 → isDelimiter u=false)) (s : JsString) :
    scanAt d false (w++s)=pushed w (scanAt d false s) := by
  induction w with
  | nil => rfl
  | cons u w ih =>
    obtain ⟨hp,hd⟩ := hw u (by simp)
    rw [cons_append,scan_plain hp hd,ih fun v hv => hw v (by simp [hv])]
    rfl

theorem scan_quote (d : Nat) (s : JsString) :
    scanAt d false (34::s)=pushed [34] (scanAt d true s) := by
  have hd : isDelimiter 34=false := by decide
  have hs : isStructural 34=false := by decide
  simp [scan,TokenScan.unit,hd,hs,pushed]

theorem scan_open (hu : u=91 ∨ u=123) (s : JsString) :
    scanAt d false (u::s)=pushed [u] (scanAt (d+1) false s) := by
  have hd : isDelimiter u=false := by rcases hu with rfl|rfl <;> decide
  have hs : isStructural u=true := by rcases hu with rfl|rfl <;> decide
  have hq : u≠34 := by rcases hu with rfl|rfl <;> decide
  simp [scan,TokenScan.unit,hd,hs,hq,hu,pushed,scan_count _ 1]

theorem scan_close (hu : u=93 ∨ u=125) (s : JsString) :
    scanAt (d+1) false (u::s)=pushed [u] (scanAfter d s) := by
  have hs : isStructural u=true := by rcases hu with rfl|rfl <;> decide
  have hq : u≠34 ∧ u≠91 ∧ u≠123 := by rcases hu with rfl|rfl <;> decide
  by_cases h0 : d=0
  · simp [scan,TokenScan.unit,hs,hq,hu,pushed,scanAfter,h0]
  · simp [scan,TokenScan.unit,hs,hq,hu,pushed,scanAfter,h0,scan_count _ 1]

theorem hex_unit {n : Nat} (h : hexValue u=some n) : u≠34 ∧ u≠92 := by
  constructor <;> (rintro rfl; simp [hexValue,isDigit] at h)

theorem scan_quoted_plain (h : u≠34 ∧ u≠92) (s : JsString) :
    scanAt d true (u::s)=pushed [u] (scanAt d true s) := by
  simp [scan,TokenScan.unit,h,pushed]

theorem scan_quoted_escape (d : Nat) (u : UInt16) (s : JsString) :
    scanAt d true (92::u::s)=pushed [92,u] (scanAt d true s) := by
  simp [scan,TokenScan.unit,pushed]

theorem scan_string {t v : JsString} (h : StringText t v) (d : Nat) (s : JsString) :
    scanAt d true (t++s)=pushed t (scanAfter d s) := by
  induction h with
  | done =>
    by_cases h0 : d=0
    · simp [scan,TokenScan.unit,pushed,scanAfter,h0]
    · simp [scan,TokenScan.unit,pushed,scanAfter,h0]
  | @hex a b c e v t w hx _ ih =>
    simp only [unhex,bind,Option.bind_eq_some_iff] at hx
    obtain ⟨na,ha,nb,hb,nc,hc,ne,he,-⟩ := hx
    simp only [cons_append]
    rw [scan_quoted_escape,scan_quoted_plain (hex_unit ha),scan_quoted_plain (hex_unit hb),
      scan_quoted_plain (hex_unit hc),scan_quoted_plain (hex_unit he),ih]
    rfl
  | @escape e v t w _ _ ih =>
    simp only [cons_append]
    rw [scan_quoted_escape,ih]
    rfl
  | unit h1 h2 _ _ ih =>
    rw [cons_append,scan_quoted_plain ⟨h1,h2⟩,ih]
    rfl

def Stops (s : JsString) : Prop := ∀u,s.head?=some u → isDelimiter u=true

theorem scan_stops (h : Stops s) : scanAt 0 false s=([],s) := by
  cases s with
  | nil => rfl
  | cons u us =>
    have hu := h u rfl
    simp [scan,TokenScan.unit,hu]

theorem plain_of_all (h : t.all (fun u => isPlain u && !isDelimiter u)=true) :
    ∀u ∈ t,isPlain u=true ∧ isDelimiter u=false := by
  simpa using h

theorem scan_scalar (ht : ∀u ∈ t,isPlain u=true ∧ isDelimiter u=false)
    (hs : d≠0 ∨ Stops s) : scanAt d false (t++s)=pushed t (scanAfter d s) := by
  rw [scan_plains (fun u hu => ⟨(ht u hu).1,fun _ => (ht u hu).2⟩)]
  by_cases h0 : d=0
  · subst h0
    have hs := hs.resolve_left (by simp)
    rw [scan_stops hs]
    rfl
  · rw [scanAfter,if_neg h0]

theorem number_unit (h : isNumberUnit u=true) : isPlain u=true ∧ isDelimiter u=false := by
  simp only [isNumberUnit,isDigit,Bool.or_eq_true,decide_eq_true_eq,beq_iff_eq] at h
  obtain ((((hd|rfl)|rfl)|rfl)|rfl)|rfl := h
  · have hne : ∀v : UInt16,v.toNat < 48 ∨ 57 < v.toNat → u≠v := by
      rintro v hv rfl
      omega
    simp only [isPlain,isDelimiter,isSpace,Bool.and_eq_true,bne_iff_ne,Bool.or_eq_false_iff,
      beq_eq_false_iff_ne]
    refine ⟨⟨⟨⟨⟨?_,?_⟩,?_⟩,?_⟩,?_⟩,⟨⟨⟨?_,?_⟩,?_⟩,?_⟩,⟨⟨?_,?_⟩,?_⟩,?_⟩ <;>
      exact hne _ (by decide)
  all_goals decide

theorem space_plain (h : Spaces w) : ∀u ∈ w,isPlain u=true ∧ (d+1=0 → isDelimiter u=false) := by
  intro u hu
  have hs := h u hu
  simp only [isSpace,Bool.or_eq_true,beq_iff_eq] at hs
  refine ⟨?_,by omega⟩
  rcases hs with ((rfl|rfl)|rfl)|rfl <;> decide

theorem scan_spaces (h : Spaces w) (d : Nat) (s : JsString) :
    scanAt (d+1) false (w++s)=pushed w (scanAt (d+1) false s) := scan_plains (space_plain h) s

theorem scan_separator (h : u=44 ∨ u=58) (d : Nat) (s : JsString) :
    scanAt (d+1) false (u::s)=pushed [u] (scanAt (d+1) false s) := by
  refine scan_plain ?_ (by simp) s
  rcases h with rfl|rfl <;> decide

theorem scanAfter_succ (d : Nat) (s : JsString) : scanAfter (d+1) s=scanAt (d+1) false s := by
  simp [scanAfter]

/-- How a scan crosses a text of the grammar. -/
def Crosses (d : Nat) (s : JsString) : Node → JsString → Prop
  | .value _,t => d≠0 ∨ Stops s → scanAt d false (t++s)=pushed t (scanAfter d s)
  | .items _,t => scanAt (d+1) false (t++s)=pushed t (scanAfter d s)
  | .members _,t => scanAt (d+1) false (t++s)=pushed t (scanAfter d s)

theorem Text.crosses {node : Node} (h : Text node t) : ∀d s,Crosses d s node t := by
  induction h with
  | null =>
    intro d s hs
    exact scan_scalar (plain_of_all (by decide)) hs
  | yes =>
    intro d s hs
    exact scan_scalar (plain_of_all (by decide)) hs
  | no =>
    intro d s hs
    exact scan_scalar (plain_of_all (by decide)) hs
  | number h =>
    intro d s hs
    exact scan_scalar (fun u hu => number_unit (h.units u hu)) hs
  | string h =>
    intro d s _
    rw [cons_append,scan_quote,scan_string h]
    rfl
  | emptyArray hw =>
    intro d s _
    rw [cons_append,append_assoc,scan_open (.inl rfl),scan_spaces hw,
      singleton_append,scan_close (.inl rfl),←pushed_append,←pushed_append]
    rfl
  | array _ ih =>
    intro d s _
    rw [cons_append,scan_open (.inl rfl),ih d s,←pushed_append]
    rfl
  | emptyObject hw =>
    intro d s _
    rw [cons_append,append_assoc,scan_open (.inr rfl),scan_spaces hw,
      singleton_append,scan_close (.inr rfl),←pushed_append,←pushed_append]
    rfl
  | object _ ih =>
    intro d s _
    rw [cons_append,scan_open (.inr rfl),ih d s,←pushed_append]
    rfl
  | lastItem hw hx _ ih =>
    intro d s
    have hv := fun s => ih (d+1) s (.inl (by omega))
    simp only [Crosses,append_assoc,singleton_append]
    rw [scan_spaces hw,hv,scanAfter_succ,scan_spaces hx,scan_close (.inl rfl)]
    simp [pushed]
  | item hw hx _ _ ih1 ih2 =>
    intro d s
    have hv := fun s => ih1 (d+1) s (.inl (by omega))
    have hr : scanAt (d+1) false _=_ := ih2 d s
    simp only [Crosses,append_assoc,cons_append]
    rw [scan_spaces hw,hv,scanAfter_succ,scan_spaces hx,scan_separator (.inl rfl),hr]
    simp [pushed]
  | lastMember hw hx hy hz hk _ ih =>
    intro d s
    have hv := fun s => ih (d+1) s (.inl (by omega))
    simp only [Crosses,append_assoc,cons_append,nil_append]
    rw [scan_spaces hw,scan_quote,scan_string hk,scanAfter_succ,scan_spaces hx,
      scan_separator (.inr rfl),scan_spaces hy,hv,scanAfter_succ,scan_spaces hz,
      scan_close (.inr rfl)]
    simp [pushed]
  | member hw hx hy hz hk _ _ ih1 ih2 =>
    intro d s
    have hv := fun s => ih1 (d+1) s (.inl (by omega))
    have hr : scanAt (d+1) false _=_ := ih2 d s
    simp only [Crosses,append_assoc,cons_append]
    rw [scan_spaces hw,scan_quote,scan_string hk,scanAfter_succ,scan_spaces hx,
      scan_separator (.inr rfl),scan_spaces hy,hv,scanAfter_succ,scan_spaces hz,
      scan_separator (.inl rfl),hr]
    simp [pushed]

theorem scan_value {v : Json} (h : Text (.value v) t) (hs : Stops s) : scan {} (t++s)=(t,s) := by
  have hc : scanAt 0 false (t++s)=pushed t (scanAfter 0 s) := h.crosses 0 s (.inr hs)
  exact hc.trans (by simp [pushed,scanAfter])

theorem jsonParse_text {v : Json} (h : Text (.value v) t) : jsonParse t=some v.own := by
  have hs : jsonSyntax t=some v :=
    (jsonSyntax_iff t v).mpr ⟨[],t,[],by simp,spaces_nil,spaces_nil,h⟩
  rw [jsonParse,hs]
  rfl

end CardKeepr.Shared
