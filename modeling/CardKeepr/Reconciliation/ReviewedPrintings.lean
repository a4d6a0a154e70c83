import CardKeepr.Reconciliation.PrintingOrder
import CardKeepr.Shared.ReconciliationProfile

namespace CardKeepr.Reconciliation.Printings
open Shared Lib List

def nullable : Schema → Bool
  | .string nullable _ => nullable
  | .integer nullable _ => nullable
  | .array nullable _ _ _ _ => nullable
  | _ => false

/-- The fields of all objects have ASCII names. -/
inductive Ascii : Schema → Prop
  | string (n : Bool) (m : Nat) : Ascii (.string n m)
  | integer (n : Bool) (m : Int) : Ascii (.integer n m)
  | boolean : Ascii .boolean
  | enum (values : List JsString) : Ascii (.enum values)
  | array (n u : Bool) (lo : Nat) (hi : Option Nat) {items : Schema} (h : Ascii items) :
      Ascii (.array n items u lo hi)
  | object (required : List JsString) {properties : List (JsString×Schema)}
      (names : ∀p∈properties,isAscii p.1=true) (h : ∀p∈properties,Ascii p.2) :
      Ascii (.object required properties)

/-- No field of an object may be both missing and `null`. -/
inductive Settled : Schema → Prop
  | string (n : Bool) (m : Nat) : Settled (.string n m)
  | integer (n : Bool) (m : Int) : Settled (.integer n m)
  | boolean : Settled .boolean
  | enum (values : List JsString) : Settled (.enum values)
  | array (n u : Bool) (lo : Nat) (hi : Option Nat) (items : Schema) :
      Settled (.array n items u lo hi)
  | object {required : List JsString} {properties : List (JsString×Schema)}
      (there : ∀p∈properties,nullable p.2=true → p.1∈required) (h : ∀p∈properties,Settled p.2) :
      Settled (.object required properties)

/-- The object under a field. -/
def requiredRecord (value : Option Json) (field : JsString) :
    Except JsString (List (JsString×Json)) :=
  match value with
  | some (.obj ms) => .ok ms
  | _ => .error (field++js " must be an object.".toList)

def nullableString (value : Option Json) (field : JsString) : Except JsString Json :=
  match value with
  | none => .ok .null
  | some .null => .ok .null
  | some (.str (u::s)) => .ok (.str (u::s))
  | _ => .error (field++js " must be a non-empty string.".toList)

/-- What the observed card says of its printings. -/
structure Classification where
  art : Bool
  gameplay_applicability : JsString

section
variable (nfc : Nfc) (localeCompare : JsString → JsString → Int)

/-- The printing attributes a profile lets through. -/
def canonicalProfileAttributes (profile : Profile) (raw : List (JsString×Json)) :
    Except JsString Json := do
  match ← sanitize nfc localeCompare profile.name profile.printing (js "printing".toList)
      (.obj raw) with
  | some (.obj canonical) => .ok (.obj canonical)
  | _ => .error (js "Retained ".toList++profile.name++js " printing evidence is invalid.".toList)

/-- The printing of an observation whose card has the profile. -/
def observedPrinting (profile : Profile) (classification : Classification)
    (rawPrinting : List (JsString×Json)) : Except JsString Json := do
  let printed := rawPrinting.lookup (js "printed_rules_text".toList)
  demand (!(classification.art && !(match printed with | some .null => true | _ => false)))
    (js "Art Printing rules text is inapplicable.".toList)
  demand (match rawPrinting.lookup (js "gameplay_applicability".toList) with
    | none => true
    | some (.str s) => s==classification.gameplay_applicability
    | some _ => false) (js "Printing gameplay applicability conflicts with its Card.".toList)
  let rarity ← requiredRecord (rawPrinting.lookup (js "rarity".toList)) (js "printing.rarity".toList)
  let gameData ← requiredRecord (rawPrinting.lookup (js "game_data".toList))
    (js "printing.game_data".toList)
  demand (match gameData.lookup (js "profile".toList) with
    | some (.str s) => s==profile.name
    | _ => false) (js "Card and Printing Game Profiles must agree.".toList)
  let rawAttributes ← requiredRecord (gameData.lookup (js "attributes".toList))
    (js "printing.game_data.attributes".toList)
  let attributes ← canonicalProfileAttributes nfc localeCompare profile rawAttributes
  let raw ← nullableString (rarity.lookup (js "raw".toList)) (js "printing.rarity.raw".toList)
  let normalized ← nullableString (rarity.lookup (js "normalized".toList))
    (js "printing.rarity.normalized".toList)
  let printed_rules_text ← nullableString printed (js "printing.printed_rules_text".toList)
  return .obj [(js "gameplay_applicability".toList,.str classification.gameplay_applicability),
    (js "rarity".toList,.obj [(js "raw".toList,raw),(js "normalized".toList,normalized)]),
    (js "printed_rules_text".toList,printed_rules_text),
    (js "game_data".toList,.obj [(js "profile".toList,.str profile.name),
      (js "attributes".toList,attributes)])]

/-- The facts of one observation of a printing of the profile. -/
structure ReviewedFacts (profile : Profile) where
  classification : Classification
  rawPrinting : List (JsString×Json)
  facts : Json
  observed : observedPrinting nfc localeCompare profile classification rawPrinting=.ok facts

end

section
variable {nfc : Nfc} {localeCompare : JsString → JsString → Int} {profile : JsString}
variable {s : Schema} {v w : Json} {path : JsString}

theorem sanitizeMembers_mem {properties : List (JsString×Schema)}
    {ms entries : List (JsString×Json)}
    (h : sanitizeMembers nfc localeCompare profile properties path ms=.ok entries)
    {e : JsString×Json} (he : e∈entries) : ∃child p,∃m∈ms,properties.lookup e.1=some child ∧
    sanitize nfc localeCompare profile child p m.2=.ok (some e.2) := by
  induction ms generalizing entries with
  | nil =>
    obtain rfl := Except.ok.inj h
    cases he
  | cons m ms ih =>
    obtain ⟨field,raw⟩ := m
    rw [sanitizeMembers] at h
    cases hc : properties.lookup field with
    | none =>
      rw [hc] at h
      obtain ⟨child,p,m,hm,hr⟩ := ih h he
      exact ⟨child,p,m,mem_cons_of_mem _ hm,hr⟩
    | some child =>
      rw [hc] at h
      obtain ⟨canonical,hcan,h⟩ := bind_ok h
      obtain ⟨rest,hrest,h⟩ := bind_ok h
      obtain rfl := Except.ok.inj h
      rcases mem_append.mp he with he | he
      · obtain ⟨v,hv,rfl⟩ := mem_map.mp he
        rw [Option.mem_toList] at hv
        rw [hv] at hcan
        exact ⟨child,_,_,mem_cons_self,hc,hcan⟩
      · obtain ⟨child,p,m,hm,hr⟩ := ih hrest he
        exact ⟨child,p,m,mem_cons_of_mem _ hm,hr⟩

theorem sanitizeItems_mem {items : Schema} {index : Nat} {vs result : List Json}
    (h : sanitizeItems nfc localeCompare profile items path index vs=.ok result)
    (hw : w∈result) : ∃p,∃v∈vs,sanitize nfc localeCompare profile items p v=.ok (some w) := by
  induction vs generalizing index result with
  | nil =>
    obtain rfl := Except.ok.inj h
    cases hw
  | cons v vs ih =>
    rw [sanitizeItems] at h
    obtain ⟨canonical,hcan,h⟩ := bind_ok h
    obtain ⟨rest,hrest,h⟩ := bind_ok h
    obtain rfl := Except.ok.inj h
    rcases mem_append.mp hw with hw | hw
    · rw [Option.mem_toList] at hw
      rw [hw] at hcan
      exact ⟨_,v,mem_cons_self,hcan⟩
    · obtain ⟨p,v,hv,hr⟩ := ih hrest hw
      exact ⟨p,v,mem_cons_of_mem _ hv,hr⟩

theorem uniqueItems_subset {unique : Bool} {items distinct : List Json}
    (h : uniqueItems nfc localeCompare unique items=.ok distinct) : distinct⊆items := by
  cases unique with
  | false => exact Except.ok.inj h ▸ fun _ hw => hw
  | true =>
    obtain ⟨keyed,hk,h⟩ := bind_ok h
    obtain rfl := Except.ok.inj h
    intro w hw
    obtain ⟨e,he,rfl⟩ := mem_map.mp hw
    obtain ⟨item,hi,hf⟩ := mapM_ok_mem hk (mem_of_mapOf ((mem_insertionSort _).mp he))
    obtain ⟨key,-,hf⟩ := bind_ok hf
    obtain rfl := Except.ok.inj hf
    exact hi

/-- What `sanitize` makes of a value. -/
inductive Canonical (nfc : Nfc) (localeCompare : JsString → JsString → Int) (profile : JsString) :
    Schema → Json → Json → Prop
  | null {s : Schema} (v : Json) (h : nullable s=true) : Canonical _ _ _ s v .null
  | str (s : Schema) (v : Json) (t : JsString) : Canonical _ _ _ s v (.str t)
  | bool (s : Schema) (v : Json) (b : Bool) : Canonical _ _ _ s v (.bool b)
  | num (s : Schema) (v : Json) {q : ℚ} (h : q.den=1) : Canonical _ _ _ s v (.num q)
  | arr (n u : Bool) (lo : Nat) (hi : Option Nat) {items : Schema} {vs ws : List Json}
      (h : ∀w∈ws,∃p,∃v∈vs,sanitize nfc localeCompare profile items p v=.ok (some w)) :
      Canonical _ _ _ (.array n items u lo hi) (.arr vs) (.arr ws)
  | obj {required : List JsString} {properties : List (JsString×Schema)}
      {ms ws : List (JsString×Json)} (nodup : (ws.map Prod.fst).Nodup)
      (there : ∀k∈required,k∈ws.map Prod.fst)
      (h : ∀w∈ws,∃child p,∃m∈ms,properties.lookup w.1=some child ∧
        sanitize nfc localeCompare profile child p m.2=.ok (some w.2)) :
      Canonical _ _ _ (.object required properties) (.obj ms) (.obj ws)

theorem orNull_some {n : Bool} (h : orNull n path=.ok (some w)) : n=true ∧ w=.null := by
  rw [orNull] at h
  split at h
  · rename_i hn
    exact ⟨hn,(Option.some.inj (Except.ok.inj h)).symm⟩
  · cases h

theorem sanitize_canonical (h : sanitize nfc localeCompare profile s path v=.ok (some w)) :
    Canonical nfc localeCompare profile s v w := by
  cases s with
  | string n m =>
    cases v with
    | null =>
      obtain ⟨hn,rfl⟩ := orNull_some h
      exact .null _ hn
    | str t =>
      rw [sanitize] at h
      split at h
      · cases h
      · obtain rfl := Option.some.inj (Except.ok.inj h)
        exact .str _ _ t
    | _ => cases h
  | integer n m =>
    cases v with
    | null =>
      obtain ⟨hn,rfl⟩ := orNull_some h
      exact .null _ hn
    | num q =>
      rw [sanitize] at h
      split at h
      · rename_i hq
        obtain rfl := Option.some.inj (Except.ok.inj h)
        exact .num _ _ hq.1
      · cases h
    | _ => cases h
  | boolean =>
    cases v with
    | bool b =>
      obtain rfl := Option.some.inj (Except.ok.inj h)
      exact .bool _ _ b
    | _ => cases h
  | enum values =>
    cases v with
    | str t =>
      rw [sanitize] at h
      split at h
      · obtain rfl := Option.some.inj (Except.ok.inj h)
        exact .str _ _ t
      · cases h
    | _ => cases h
  | array n items u lo hi =>
    cases v with
    | null =>
      obtain ⟨hn,rfl⟩ := orNull_some h
      exact .null _ hn
    | arr vs =>
      rw [sanitize] at h
      obtain ⟨result,hresult,h⟩ := bind_ok h
      obtain ⟨canonical,hcan,h⟩ := bind_ok h
      split at h
      · cases h
      · obtain rfl := Option.some.inj (Except.ok.inj h)
        exact .arr n u lo hi fun w hw => sanitizeItems_mem hresult (uniqueItems_subset hcan hw)
    | _ => cases h
  | object required properties =>
    cases v with
    | obj ms =>
      rw [sanitize] at h
      obtain ⟨entries,hentries,h⟩ := bind_ok h
      dsimp only at h
      split at h
      · rename_i hmissing
        obtain rfl := Option.some.inj (Except.ok.inj h)
        refine .obj (mapOf_nodup entries) (fun k hk => ?_) fun w hw =>
          sanitizeMembers_mem hentries (mem_of_mapOf hw)
        by_contra hn
        have hk : k∈required.filter fun field => !((mapOf entries).map Prod.fst).contains field :=
          mem_filter.mpr ⟨hk,by rw [contains_eq_mem,decide_eq_false hn]; rfl⟩
        rw [hmissing] at hk
        cases hk
      · cases h
    | _ => cases h

theorem sanitize_null
    (h : sanitize nfc localeCompare profile s path v=.ok (some .null)) : nullable s=true := by
  cases sanitize_canonical h with
  | null _ h => exact h

theorem sanitize_regular (hs : Ascii s)
    (h : sanitize nfc localeCompare profile s path v=.ok (some w)) : w.Regular := by
  induction v using Json.induct generalizing s path w with
  | arr vs ih =>
    cases sanitize_canonical h with
    | null | str | bool => trivial
    | num _ _ hq => exact hq
    | arr n u lo hi hw =>
      cases hs with
      | array _ _ _ _ hitems =>
        refine (all_arr _).mpr fun w hw' => ?_
        obtain ⟨p,v,hv,hr⟩ := hw w hw'
        exact ih v hv hitems hr
  | obj ms ih =>
    cases sanitize_canonical h with
    | null | str | bool => trivial
    | num _ _ hq => exact hq
    | obj nodup there hw =>
      cases hs with
      | object _ hnames hprops =>
        refine (all_obj _).mpr ⟨⟨?_,nodup⟩,fun w hw' => ?_⟩
        · rw [all_eq_true]
          intro k hk
          obtain ⟨w,hw',rfl⟩ := mem_map.mp hk
          obtain ⟨child,-,-,-,hc,-⟩ := hw w hw'
          exact hnames _ (lookup_mem hc)
        · obtain ⟨child,p,m,hm,hc,hr⟩ := hw w hw'
          exact ih m hm (hprops _ (lookup_mem hc)) hr
  | _ =>
    cases sanitize_canonical h with
    | null | str | bool => trivial
    | num _ _ hq => exact hq

theorem uneven_obj {ms ns : List (JsString×Json)} (h : Uneven nfc (.obj ms) (.obj ns)) :
    (∃k,ms.lookup k=some .null ∧ ns.lookup k=none) ∨
      ∃k v w,ms.lookup k=some v ∧ ns.lookup k=some w ∧ Uneven nfc v w := by
  obtain ⟨p,k,h1,h2,h3,h4⟩ := h
  cases p with
  | nil =>
    rw [nil_append] at h3 h4
    obtain ⟨ms',v,he,hm,hv⟩ := node_cons (by rw [h3]; simp)
    obtain rfl := Json.obj.inj he
    refine .inl ⟨k,hm.trans (congrArg some (root_unknown (hv.trans h3))),?_⟩
    cases hn : ns.lookup k with
    | none => rfl
    | some w =>
      rw [node_lookup hn] at h4
      exact absurd h4 (node_root_ne w)
  | cons l p =>
    obtain ⟨ms',v,he,hm,hv⟩ := node_cons (by rw [h1]; simp)
    obtain rfl := Json.obj.inj he
    obtain ⟨ns',w,he,hn,hw⟩ := node_cons (by rw [h2]; simp)
    obtain rfl := Json.obj.inj he
    rw [cons_append,node_lookup hm] at h3
    rw [cons_append,node_lookup hn] at h4
    exact .inr ⟨l,v,w,hm,hn,p,k,hv.trans h1,hw.trans h2,h3,h4⟩

theorem uneven_objects (h : Uneven nfc v w) : ∃ms ns,v=.obj ms ∧ w=.obj ns := by
  obtain ⟨p,k,h1,h2,-,-⟩ := h
  cases p with
  | nil =>
    obtain ⟨ms,rfl⟩ := root_object h1
    obtain ⟨ns,rfl⟩ := root_object h2
    exact ⟨ms,ns,rfl,rfl⟩
  | cons l p =>
    obtain ⟨ms,-,rfl,-,-⟩ := node_cons (by rw [h1]; simp)
    obtain ⟨ns,-,rfl,-,-⟩ := node_cons (by rw [h2]; simp)
    exact ⟨ms,ns,rfl,rfl⟩

theorem sanitize_even (hs : Settled s) {p q : JsString} {v' w' : Json}
    (hv : sanitize nfc localeCompare profile s p v=.ok (some v'))
    (hw : sanitize nfc localeCompare profile s q w=.ok (some w')) : ¬Uneven nfc v' w' := by
  induction hs generalizing p q v v' w w' with
  | object there _ ih =>
    intro hu
    obtain ⟨ms,ns,rfl,rfl⟩ := uneven_objects hu
    cases sanitize_canonical hv with
    | obj hmd hmt hm =>
      cases sanitize_canonical hw with
      | obj hnd hnt hn =>
        rcases uneven_obj hu with ⟨k,hnull,hmissing⟩ | ⟨k,x,y,hx,hy,hxy⟩
        · obtain ⟨child,_,_,_,hc,hr⟩ := hm _ (lookup_mem hnull)
          have hk : k∈_ := there _ (lookup_mem hc) (sanitize_null hr)
          exact mem_keys_iff.mp (hnt k hk) hmissing
        · obtain ⟨child,_,_,_,hc,hr⟩ := hm _ (lookup_mem hx)
          obtain ⟨child',_,_,_,hc',hr'⟩ := hn _ (lookup_mem hy)
          obtain rfl := Option.some.inj (hc.symm.trans hc')
          exact ih _ (lookup_mem hc) hr hr' hxy
  | _ =>
    intro hu
    obtain ⟨ms,ns,rfl,rfl⟩ := uneven_objects hu
    cases sanitize_canonical hv

theorem complete_ascii {properties : List (String×Schema)}
    (names : ∀p∈properties,isAscii (js p.1.toList)=true) (h : ∀p∈properties,Ascii p.2) :
    Ascii (complete properties) := by
  refine .object _ (fun p hp => ?_) fun p hp => ?_ <;> obtain ⟨q,hq,rfl⟩ := mem_map.mp hp
  · exact names q hq
  · exact h q hq

theorem printing_ascii (p : Profile) : Ascii p.printing := by
  have hface : Ascii printedFace := by
    refine complete_ascii (by simp [js,isAscii]) fun p hp => ?_
    simp only [mem_cons,not_mem_nil,or_false] at hp
    rcases hp with rfl | rfl | rfl <;> constructor
  cases p with
  | one_piece =>
    refine .object _ (by simp [js,isAscii]) fun p hp => ?_
    obtain rfl := mem_singleton.mp hp
    exact .array _ _ _ _ (.enum _)
  | fusion_world => exact .object _ (fun p hp => by cases hp) fun p hp => by cases hp
  | _ =>
    refine complete_ascii (by simp [js,isAscii]) fun p hp => ?_
    simp only [mem_cons,not_mem_nil,or_false] at hp
    rcases hp with rfl | rfl | rfl | rfl | rfl | rfl | rfl | rfl <;> first
      | exact .array _ _ _ _ hface
      | exact .array _ _ _ _ (.string _ _)
      | constructor

theorem complete_settled {properties : List (String×Schema)}
    (h : ∀p∈properties,Settled p.2) : Settled (complete properties) := by
  refine .object (fun p hp _ => ?_) fun p hp => ?_ <;> obtain ⟨q,hq,rfl⟩ := mem_map.mp hp
  · exact mem_map_of_mem (mem_map_of_mem hq)
  · exact h q hq

theorem printing_settled (p : Profile) : Settled p.printing := by
  cases p with
  | one_piece =>
    refine .object (fun p hp hn => ?_) fun p hp => ?_ <;> obtain rfl := mem_singleton.mp hp
    · cases hn
    · exact .array ..
  | fusion_world => exact .object (fun p hp => by cases hp) fun p hp => by cases hp
  | _ =>
    refine complete_settled fun p hp => ?_
    simp only [mem_cons,not_mem_nil,or_false] at hp
    rcases hp with rfl | rfl | rfl | rfl | rfl | rfl | rfl | rfl <;> constructor

def IsText (v : Json) : Prop := v=.null ∨ ∃s,v=.str s

theorem nullableString_ok {value : Option Json} {field : JsString}
    (h : nullableString value field=.ok v) : IsText v := by
  cases value with
  | none => exact .inl (Except.ok.inj h).symm
  | some w =>
    cases w with
    | null => exact .inl (Except.ok.inj h).symm
    | str s =>
      cases s with
      | nil => cases h
      | cons u s => exact .inr ⟨u::s,(Except.ok.inj h).symm⟩
    | _ => cases h

theorem observedPrinting_ok {profile : Profile} {classification : Classification}
    {rawPrinting : List (JsString×Json)} {facts : Json}
    (h : observedPrinting nfc localeCompare profile classification rawPrinting=.ok facts) :
    ∃rawAttributes attributes raw normalized printed,
      sanitize nfc localeCompare profile.name profile.printing (js "printing".toList)
        rawAttributes=.ok (some attributes) ∧
      IsText raw ∧ IsText normalized ∧ IsText printed ∧
      facts=.obj [(js "gameplay_applicability".toList,.str classification.gameplay_applicability),
        (js "rarity".toList,.obj [(js "raw".toList,raw),(js "normalized".toList,normalized)]),
        (js "printed_rules_text".toList,printed),
        (js "game_data".toList,.obj [(js "profile".toList,.str profile.name),
          (js "attributes".toList,attributes)])] := by
  obtain ⟨-,-,h⟩ := bind_ok h
  obtain ⟨-,-,h⟩ := bind_ok h
  obtain ⟨rarity,-,h⟩ := bind_ok h
  obtain ⟨gameData,-,h⟩ := bind_ok h
  obtain ⟨-,-,h⟩ := bind_ok h
  obtain ⟨rawAttributes,-,h⟩ := bind_ok h
  obtain ⟨attributes,hattr,h⟩ := bind_ok h
  obtain ⟨raw,hraw,h⟩ := bind_ok h
  obtain ⟨normalized,hnorm,h⟩ := bind_ok h
  obtain ⟨printed,hprinted,h⟩ := bind_ok h
  obtain rfl := Except.ok.inj h
  refine ⟨.obj rawAttributes,attributes,raw,normalized,printed,?_,nullableString_ok hraw,
    nullableString_ok hnorm,nullableString_ok hprinted,rfl⟩
  obtain ⟨sanitized,hsan,hattr⟩ := bind_ok hattr
  split at hattr
  · obtain rfl := Except.ok.inj hattr
    exact hsan
  · cases hattr

theorem same_fields_even {ms ns : List (JsString×Json)}
    (h : List.Forall₂ (fun m n => m.1=n.1 ∧ ¬Uneven nfc m.2 n.2) ms ns) :
    ¬Uneven nfc (.obj ms) (.obj ns) := by
  have hfield (k : JsString) : (ms.lookup k=none ∧ ns.lookup k=none) ∨
      ∃v w,ms.lookup k=some v ∧ ns.lookup k=some w ∧ ¬Uneven nfc v w := by
    induction h with
    | nil => exact .inl ⟨rfl,rfl⟩
    | @cons m n ms ns hmn _ ih =>
      obtain ⟨hk,heven⟩ := hmn
      rw [lookup_cons,lookup_cons,←hk]
      cases k==m.1 with
      | true => exact .inr ⟨m.2,n.2,rfl,rfl,heven⟩
      | false => exact ih
  intro hu
  rcases uneven_obj hu with ⟨k,hnull,hmissing⟩ | ⟨k,v,w,hv,hw,hvw⟩ <;>
    rcases hfield k with ⟨hv',hw'⟩ | ⟨v',w',hv',hw',heven⟩
  · rw [hnull] at hv'
    cases hv'
  · rw [hmissing] at hw'
    cases hw'
  · rw [hv] at hv'
    cases hv'
  · obtain rfl := Option.some.inj (hv.symm.trans hv')
    obtain rfl := Option.some.inj (hw.symm.trans hw')
    exact heven hvw

theorem obj_regular {ms : List (JsString×Json)} (names : ∀m∈ms,isAscii m.1=true)
    (nodup : (ms.map Prod.fst).Nodup) (h : ∀m∈ms,m.2.Regular) : (Json.obj ms).Regular := by
  refine (all_obj _).mpr ⟨⟨all_eq_true.mpr fun k hk => ?_,nodup⟩,h⟩
  obtain ⟨m,hm,rfl⟩ := mem_map.mp hk
  exact names m hm

theorem IsText.regular (h : IsText v) : v.Regular := by
  rcases h with rfl | ⟨s,rfl⟩ <;> trivial

theorem IsText.even (h : IsText v) : ¬Uneven nfc v w := by
  intro hu
  obtain ⟨ms,-,rfl,-⟩ := uneven_objects hu
  rcases h with h | ⟨s,h⟩ <;> cases h

theorem ReviewedFacts.regular {profile : Profile} (f : ReviewedFacts nfc localeCompare profile) :
    f.facts.Regular := by
  obtain ⟨rawAttributes,attributes,raw,normalized,printed,hattr,hraw,hnorm,hprinted,he⟩ :=
    observedPrinting_ok f.observed
  have htext (s : JsString) : (Json.str s).Regular := IsText.regular (.inr ⟨s,rfl⟩)
  rw [he]
  refine obj_regular (by simp [js,isAscii]) (by simp [js]) ?_
  refine forall_mem_cons.mpr ⟨htext _,forall_mem_cons.mpr ⟨?_,forall_mem_cons.mpr
    ⟨hprinted.regular,forall_mem_singleton.mpr ?_⟩⟩⟩
  · exact obj_regular (by simp [js,isAscii]) (by simp [js]) (forall_mem_cons.mpr
      ⟨hraw.regular,forall_mem_singleton.mpr hnorm.regular⟩)
  · exact obj_regular (by simp [js,isAscii]) (by simp [js]) (forall_mem_cons.mpr
      ⟨htext _,forall_mem_singleton.mpr (sanitize_regular (printing_ascii profile) hattr)⟩)

theorem ReviewedFacts.even {profile : Profile} (f g : ReviewedFacts nfc localeCompare profile) :
    ¬Uneven nfc f.facts g.facts := by
  obtain ⟨r,attributes,raw,normalized,printed,hattr,hraw,hnorm,hprinted,he⟩ :=
    observedPrinting_ok f.observed
  obtain ⟨r',attributes',raw',normalized',printed',hattr',-,-,-,he'⟩ :=
    observedPrinting_ok g.observed
  have htext (s : JsString) (w : Json) : ¬Uneven nfc (.str s) w := IsText.even (.inr ⟨s,rfl⟩)
  have hrarity : ¬Uneven nfc
      (.obj [(js "raw".toList,raw),(js "normalized".toList,normalized)])
      (.obj [(js "raw".toList,raw'),(js "normalized".toList,normalized')]) :=
    same_fields_even (.cons ⟨rfl,hraw.even⟩ (.cons ⟨rfl,hnorm.even⟩ .nil))
  have hgame : ¬Uneven nfc
      (.obj [(js "profile".toList,.str profile.name),(js "attributes".toList,attributes)])
      (.obj [(js "profile".toList,.str profile.name),(js "attributes".toList,attributes')]) :=
    same_fields_even (.cons ⟨rfl,htext _ _⟩
      (.cons ⟨rfl,sanitize_even (printing_settled profile) hattr hattr'⟩ .nil))
  rw [he,he']
  exact same_fields_even (.cons ⟨rfl,htext _ _⟩ (.cons ⟨rfl,hrarity⟩
    (.cons ⟨rfl,hprinted.even⟩ (.cons ⟨rfl,hgame⟩ .nil))))

/-- The reviewed facts of one printing are accepted alike in every order, and a contradiction is
reported exactly when two of them differ. -/
theorem reviewedFacts_orderIndependent (nfc : Nfc) (localeCompare : JsString → JsString → Int)
    (profile : Profile) (observed : List (ReviewedFacts nfc localeCompare profile)) :
    OrderIndependent nfc (observed.map ReviewedFacts.facts) := by
  refine even_independent (fun v hv => ?_) ?_
  · obtain ⟨f,-,rfl⟩ := mem_map.mp hv
    exact f.regular
  · rintro ⟨v,hv,w,hw,hu⟩
    obtain ⟨f,-,rfl⟩ := mem_map.mp hv
    obtain ⟨g,-,rfl⟩ := mem_map.mp hw
    exact f.even g hu

/-- A Digimon printing with alternative art. -/
example (nfc : Nfc) (localeCompare : JsString → JsString → Int) :
    (observedPrinting nfc localeCompare .digimon ⟨false,js "applicable".toList⟩
      [(js "rarity".toList,.obj [(js "raw".toList,.str (js "SR".toList))]),
        (js "game_data".toList,.obj [(js "profile".toList,.str (js "digimon@1".toList)),
          (js "attributes".toList,.obj [(js "alternative_art".toList,.bool true)])])]).isOk=true :=
  rfl

end

end CardKeepr.Reconciliation.Printings
