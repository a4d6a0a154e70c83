import CardKeepr.Read.FilterMeanings

namespace CardKeepr.Read.Composed
open Shared Read Lib Publication.Preparation List

section
variable {t : Platform} {m : Composition} {kind : Collection} {e : Entity}
  {filters filters' : ComposedFilters}
variable {q v : JsString} {release_region : Option Region} {c o o' product_id : Option JsString}

theorem mem_collection : e∈composedCollection t m kind filters ↔ e∈m.entities ∧
    ordinary t m kind e filters=true ∧ searched t m kind e filters.q=true ∧
    placed m kind e filters.product_id filters.release_region=true := by
  simp only [composedCollection,mem_filter,Bool.and_eq_true,and_assoc]

theorem equal_given (h : equal c o=true) (hv : o=some v) : c=some v := by
  rw [hv] at h
  exact beq_iff_eq.mp h

theorem equal_mono (h : equal c o'=true) (hk : ∀v,o=some v → o'=some v) : equal c o=true := by
  cases o with
  | none => rfl
  | some v => rwa [hk v rfl] at h

theorem ofCategory_meets (h : ofCategory m kind e o=true)
    (hv : o=some v) : HasCategory m kind e v := by
  subst hv
  cases kind with
  | cards => exact beq_iff_eq.mp h
  | products => exact beq_iff_eq.mp h
  | printings =>
    obtain ⟨card,hm,hc⟩ := any_eq_true.mp h
    simp only [Bool.and_eq_true,beq_iff_eq,decide_eq_true_eq] at hc
    exact ⟨card,hm,hc.1.1.1,hc.1.1.2,hc.2.symm,hc.1.2⟩

theorem ofCategory_mono (h : ofCategory m kind e o'=true)
    (hk : ∀v,o=some v → o'=some v) : ofCategory m kind e o=true := by
  cases o with
  | none =>
    cases kind with
    | cards => rfl
    | printings => rfl
    | products => rfl
  | some v => rwa [hk v rfl] at h

theorem ofRarity_meets (h : ofRarity t m kind e o=true)
    (hv : o=some v) (hlower : t.toLowerCase v=v) : HasRarity m kind e v := by
  subst hv
  cases kind with
  | cards =>
    obtain ⟨p,hm,hp⟩ := any_eq_true.mp h
    simp only [Bool.and_eq_true,beq_iff_eq,decide_eq_true_eq,hlower] at hp
    exact ⟨p,⟨hm,hp.1.1.1,hp.1.1.2,hp.2⟩,hp.1.2⟩
  | printings =>
    have he : (e.rarity==some (t.toLowerCase v))=true := h
    rw [hlower] at he
    exact beq_iff_eq.mp he
  | products =>
    have he : (e.rarity==some (t.toLowerCase v))=true := h
    rw [hlower] at he
    exact beq_iff_eq.mp he

theorem ofRarity_mono (h : ofRarity t m kind e o'=true)
    (hk : ∀v,o=some v → o'=some v) : ofRarity t m kind e o=true := by
  cases o with
  | none => cases kind <;> rfl
  | some v => rwa [hk v rfl] at h

theorem attributed_meets {l : List (JsString×JsString)} (h : attributed m e l=true) :
    ∀a∈l,∃row∈m.attributes,row.candidate_id=e.candidate_id ∧ row.card_id=e.entity_id ∧
      row.name=a.1 ∧ row.value=a.2 := by
  intro a ha
  obtain ⟨row,hm,hrow⟩ := any_eq_true.mp (all_eq_true.mp h a ha)
  simp only [Bool.and_eq_true,beq_iff_eq] at hrow
  exact ⟨row,hm,hrow.1.1.1,hrow.2,hrow.1.1.2,hrow.1.2⟩

theorem attributed_mono {l l' : List (JsString×JsString)} (h : attributed m e l'=true)
    (hk : ∀a∈l,a∈l') : attributed m e l=true :=
  all_eq_true.mpr fun a ha => all_eq_true.mp h a (hk a ha)

theorem ordinary_iff : ordinary t m kind e filters=true ↔
    (∃g∈m.games,g.1=e.candidate_id) ∧ e.kind=.listed kind ∧
    equal (some e.supported_game) filters.game=true ∧ ofCategory m kind e filters.category=true ∧
    equal (match kind with | .cards => some e.entity_id | _ => e.card_id) filters.card_id=true ∧
    equal (column e.identity_value) filters.card_number=true ∧
    ofRarity t m kind e filters.rarity=true ∧ attributed m e filters.attributes=true := by
  constructor
  · intro h
    simp only [ordinary,Bool.and_eq_true,any_eq_true,decide_eq_true_eq,and_assoc] at h
    exact h
  · intro h
    simp only [ordinary,Bool.and_eq_true,any_eq_true,decide_eq_true_eq,and_assoc]
    exact h

theorem ordinary_mono (h : ordinary t m kind e filters'=true) (hk : Extends filters filters') :
    ordinary t m kind e filters=true := by
  obtain ⟨h1,h2,h3,h4,h5,h6,h7,h8⟩ := ordinary_iff.mp h
  exact ordinary_iff.mpr ⟨h1,h2,equal_mono h3 hk.game,ofCategory_mono h4 hk.category,
    equal_mono h5 hk.card_id,equal_mono h6 hk.card_number,ofRarity_mono h7 hk.rarity,
    attributed_mono h8 hk.attributes⟩

theorem instr_iff (q text : JsString) : instr q text=true ↔ q <:+: text := by
  induction text with
  | nil => rw [instr, isPrefixOf_iff_prefix,prefix_nil,infix_nil]
  | cons u text ih => rw [instr,Bool.or_eq_true,ih, isPrefixOf_iff_prefix,infix_cons_iff]

theorem lower_joined (a b : JsString) : lower (a++[32]++b)=lower a++32::lower b := by
  simp only [lower,map_append,append_assoc]
  rfl

theorem chunks_own (he : e∈m.entities) (hkind : e.kind=.listed .cards) : searched t m .cards e
    (some q)=true ↔ ∃r∈cardRows (normalizeCardSearchText t) e.prepared,q <:+: r.text := by
  change (m.searchChunks t).any _=true ↔ _
  rw [any_eq_true]
  constructor
  · rintro ⟨row,hrow,hc⟩
    obtain ⟨card,hcard,hrow⟩ := mem_flatMap.mp hrow
    obtain ⟨chunk,hchunk,rfl⟩ := mem_map.mp hrow
    obtain ⟨hmem,hlisted⟩ := mem_filter.mp hcard
    simp only [Bool.and_eq_true,beq_iff_eq,decide_eq_true_eq,instr_iff] at hc hlisted
    have hkey : card.key=e.key := by
      rw [Entity.key,Entity.key,hc.1.1,hc.1.2,hlisted,hkind]
    obtain rfl := inj_on_of_nodup_map m.unique hmem he hkey
    exact ⟨chunk,hchunk,hc.2⟩
  · rintro ⟨chunk,hchunk,hq⟩
    refine ⟨⟨e.candidate_id,e.entity_id,chunk⟩,?_,?_⟩
    · refine mem_flatMap.mpr ⟨e,mem_filter.mpr ⟨he,?_⟩,mem_map.mpr ⟨chunk,hchunk,rfl⟩⟩
      exact decide_eq_true hkind
    · simp only [Bool.and_eq_true,beq_iff_eq,true_and,instr_iff]
      exact hq

theorem infix_joined {α : Type} {a b w : List α} {c : α} : w <:+: a++c::b ↔
    w <:+: a ∨ w <:+: b ∨ ∃x y,w=x++c::y ∧ x <:+ a ∧ y <+: b := by
  rw [infix_append_iff,infix_cons_iff]
  constructor
  · rintro (h | (h | h) | ⟨x,y,rfl,hx,hy⟩)
    · exact .inl h
    · obtain rfl | ⟨y,rfl,hy⟩ := prefix_cons_iff.mp h
      · exact .inl nil_infix
      · exact .inr (.inr ⟨[],y,rfl,nil_suffix,hy⟩)
    · exact .inr (.inl h)
    · obtain rfl | ⟨y,rfl,hb⟩ := prefix_cons_iff.mp hy
      · rw [append_nil]
        exact .inl hx.isInfix
      · exact .inr (.inr ⟨x,y,rfl,hx,hb⟩)
  · rintro (h | h | ⟨x,y,rfl,hx,hy⟩)
    · exact .inl h
    · exact .inr (.inl (.inr h))
    · exact .inr (.inr ⟨x,c::y,rfl,hx,(prefix_cons_inj c).mpr hy⟩)

theorem searched_found (he : e∈m.entities) (hkind : e.kind=.listed kind)
    (hq : 1 ≤ (points q).length ∧ (points q).length ≤ maximumNormalizedSearchQueryCodePoints) :
    searched t m kind e (some q)=true ↔ Found t kind e q := by
  have hjoined : instr q (lower ((column e.official_code).getD []++[32]++
      (column e.name).getD []))=true ↔ q <:+: lower ((column e.official_code).getD []) ∨
      q <:+: lower ((column e.name).getD []) ∨ ∃x y,q=x++32::y ∧
        x <:+ lower ((column e.official_code).getD []) ∧ y <+: lower ((column e.name).getD []) := by
    rw [instr_iff,lower_joined,infix_joined]
  cases kind with
  | cards =>
    rw [chunks_own he hkind,cardRows_shown hq.1 hq.2]
    rfl
  | printings =>
    unfold searched Found
    exact hjoined
  | products =>
    unfold searched Found
    exact hjoined

theorem searched_none : searched t m kind e none=true := by
  cases kind <;> rfl

theorem searched_mono (h : searched t m kind e o'=true)
    (hk : ∀v,o=some v → o'=some v) : searched t m kind e o=true := by
  cases o with
  | none => exact searched_none
  | some v => rwa [hk v rfl] at h

theorem ofRegion_released {candidate_id product : JsString} {region : Region} :
    ofRegion m candidate_id (some product) region=true ↔ Released m candidate_id product region := by
  rw [ofRegion,any_eq_true]
  simp only [Bool.and_eq_true,beq_iff_eq,decide_eq_true_eq,Option.some.injEq,and_assoc]
  rfl

theorem placed_products : placed m .products e product_id release_region=true ↔
      product_id=none ∧ release_region=none ∨
      ∃region,release_region=some region ∧ Released m e.candidate_id e.entity_id region := by
  rw [placed]
  split_ifs with h
  · exact ⟨fun _ => .inl h,fun _ => rfl⟩
  · cases release_region with
    | none => simpa using h
    | some region =>
      change ofRegion m e.candidate_id (some e.entity_id) region=true ↔ _
      rw [ofRegion_released]
      simp

/-- A relationship through which an entity is in a product. -/
def Through (m : Composition) (kind : Collection) (e rel : Entity) : Prop :=
  rel∈m.entities ∧ rel.candidate_id=e.candidate_id ∧ membership m rel=true ∧
    match kind with
    | .cards => ∃p,PrintingOf m e p ∧ rel.from_id=some p.entity_id
    | _ => rel.from_id=some e.entity_id

theorem placed_through (hkind : kind≠.products) : placed m kind e product_id release_region=true ↔
      product_id=none ∧ release_region=none ∨ ∃rel,Through m kind e rel ∧
        equal rel.to_id product_id=true ∧
        ∀region,release_region=some region → ofRegion m e.candidate_id rel.to_id region=true := by
  unfold placed
  split_ifs with h
  · exact ⟨fun _ => .inl h,fun _ => rfl⟩
  · have hall : ∀rel : Entity,release_region.all (fun region => ofRegion m e.candidate_id rel.to_id
        region)=true ↔ ∀region,release_region=some region →
        ofRegion m e.candidate_id rel.to_id region=true := fun rel => by
      cases release_region with
      | none => simp
      | some region => simp
    cases kind with
    | products => exact absurd rfl hkind
    | printings =>
      simp only [any_eq_true,Bool.and_eq_true,beq_iff_eq,hall,h,false_or,Through,and_assoc]
    | cards =>
      simp only [any_eq_true,Bool.and_eq_true,beq_iff_eq,decide_eq_true_eq,hall,h,false_or,Through]
      constructor
      · rintro ⟨rel,hm,⟨⟨⟨h1,h2⟩,p,hp,⟨⟨hc,hk⟩,hf⟩,hcard⟩,h4⟩,h5⟩
        exact ⟨rel,⟨hm,h1,h2,p,⟨hp,hc.trans h1,hk,hcard⟩,hf.symm⟩,h4,h5⟩
      · rintro ⟨rel,⟨hm,h1,h2,p,⟨hp,hc,hk,hcard⟩,hf⟩,h4,h5⟩
        exact ⟨rel,hm,⟨⟨⟨h1,h2⟩,p,hp,⟨⟨hc.trans h1.symm,hk⟩,hf.symm⟩,hcard⟩,h4⟩,h5⟩

theorem placed_inProduct (hkind : kind≠.products)
    (h : placed m kind e (some v) release_region=true) : InProduct m kind e v := by
  obtain ⟨hnone,-⟩ | ⟨rel,⟨hm,hc,hmember,hfrom⟩,hto,-⟩ := (placed_through hkind).mp h
  · cases hnone
  · have hto : rel.to_id=some v := equal_given hto rfl
    cases kind with
    | products => exact absurd rfl hkind
    | printings => exact ⟨rel,hm,hc,hmember,hfrom,hto⟩
    | cards =>
      obtain ⟨p,hp,hfrom⟩ := hfrom
      exact ⟨p,hp,rel,hm,hc,hmember,hfrom,hto⟩

theorem placed_inRegion {region : Region}
    (h : placed m kind e product_id (some region)=true) : InRegion m kind e region := by
  by_cases hkind : kind=.products
  · subst hkind
    obtain ⟨-,hnone⟩ | ⟨r,hr,hreleased⟩ := placed_products.mp h
    · cases hnone
    · rwa [Option.some.inj hr]
  · obtain ⟨-,hnone⟩ | ⟨rel,⟨hm,hc,hmember,hfrom⟩,-,hregion⟩ := (placed_through hkind).mp h
    · cases hnone
    · have hin := hregion region rfl
      obtain ⟨product,hto⟩ : ∃product,rel.to_id=some product := by
        rw [ofRegion,any_eq_true] at hin
        obtain ⟨r,-,hr⟩ := hin
        simp only [Bool.and_eq_true,beq_iff_eq] at hr
        exact ⟨_,hr.1.2.symm⟩
      rw [hto] at hin
      have hreleased := ofRegion_released.mp hin
      cases kind with
      | products => exact absurd rfl hkind
      | printings => exact ⟨product,⟨rel,hm,hc,hmember,hfrom,hto⟩,hreleased⟩
      | cards =>
        obtain ⟨p,hp,hfrom⟩ := hfrom
        exact ⟨p,product,hp,⟨rel,hm,hc,hmember,hfrom,hto⟩,hreleased⟩

theorem placed_mono (hkind : kind≠.products) {p p' : Option JsString} {r r' : Option Region}
    (h : placed m kind e p' r'=true) (hp : ∀v,p=some v → p'=some v)
    (hr : ∀v,r=some v → r'=some v) : placed m kind e p r=true := by
  rw [placed_through hkind] at h ⊢
  obtain ⟨rfl,rfl⟩ | ⟨rel,hthrough,hto,hregion⟩ := h
  · left
    constructor
    · cases p with
      | none => rfl
      | some v => cases hp v rfl
    · cases r with
      | none => rfl
      | some v => cases hr v rfl
  · exact .inr ⟨rel,hthrough,equal_mono hto hp,fun region hv => hregion region (hr region hv)⟩

theorem ordinary_meets {params : SearchParams} (hf : Composes t kind params filters)
    (h : ordinary t m kind e filters=true) (hq : ∀v,filters.q=some v → Shows t kind e v)
    (hp : ∀v,filters.product_id=some v → InProduct m kind e v)
    (hr : ∀v,filters.release_region=some v → InRegion m kind e v) : Meets t m kind e filters := by
  obtain ⟨-,-,hgame,hcategory,hcard,hnumber,hrarity,hattributes⟩ := ordinary_iff.mp h
  refine ⟨?_,?_,hq,?_,?_,?_,hp,hr,attributed_meets hattributes⟩
  · intro v hv
    exact Option.some.inj (equal_given hgame hv)
  · exact fun v hv => ofCategory_meets hcategory hv
  · intro v hv
    have hcard := equal_given hcard hv
    cases kind with
    | cards => exact Option.some.inj hcard
    | printings => exact hcard
    | products => exact hcard
  · exact fun v hv => equal_given hnumber hv
  · exact fun v hv => ofRarity_meets hrarity hv (composes_rarity hf hv)

theorem searched_given {params : SearchParams} (hf : Composes t kind params filters)
    (he : e∈m.entities) (h : ordinary t m kind e filters=true) :
    searched t m kind e filters.q=true ↔ ∀q,filters.q=some q → Found t kind e q := by
  have hkind := (ordinary_iff.mp h).2.1
  constructor
  · intro hs q hq
    rw [hq] at hs
    exact (searched_found he hkind (composes_query hf hq)).mp hs
  · intro hall
    cases hq : filters.q with
    | none => exact searched_none
    | some q => exact (searched_found he hkind (composes_query hf hq)).mpr (hall q hq)

variable {params : SearchParams}

theorem apt_of_meaningful (hf : acceptedFilters t m kind params=.ok filters)
    (h : Meaningful t m kind params filters) : Apt t m kind filters := by
  have hc := (accepted_iff.mp hf).1
  constructor
  · rintro rfl id hid e he hord hfound
    have hs := (searched_given hc he hord).mpr hfound
    cases hregion : filters.release_region with
    | none =>
      intro region hreleased
      have hmore := accepted_withRegion region hf hregion
      have hplaced : placed m .products e filters.product_id (some region)=true :=
        placed_products.mpr (.inr ⟨region,rfl,hreleased⟩)
      have hin : e∈composedCollection t m .products
          {filters with release_region := some region} := mem_collection.mpr ⟨he,hord,hs,hplaced⟩
      have hsub : ∀p∈params,p∈withRegion params region := fun p hp => mem_append_left _ hp
      have hback := (mem_collection.mp (h.narrows _ _ hsub hmore e hin)).2.2.2
      rw [hregion,hid] at hback
      obtain ⟨hnone,-⟩ | ⟨r,hr,-⟩ := placed_products.mp hback
      · cases hnone
      · cases hr
    | some region =>
      intro hreleased
      have hplaced : placed m .products e filters.product_id filters.release_region=true :=
        placed_products.mpr (.inr ⟨region,hregion,hreleased⟩)
      exact (h.meets e (mem_collection.mpr ⟨he,hord,hs,hplaced⟩)).product_id id hid
  · intro q hq e he hord hplaced
    have hsearched := searched_given hc he hord
    constructor
    · intro hfound
      have hs : searched t m kind e filters.q=true := hsearched.mpr fun v hv => by
        rwa [Option.some.inj (hv.symm.trans hq)]
      exact (h.meets e (mem_collection.mpr ⟨he,hord,hs,hplaced⟩)).q q hq
    · intro hkind hshows
      have hrest : e∈composedCollection t m kind {filters with q := none} :=
        mem_collection.mpr ⟨he,hord,searched_none,hplaced⟩
      have hin := (h.searches hkind q hq e hrest).mpr hshows
      exact hsearched.mp (mem_collection.mp hin).2.2.1 q hq

theorem meaningful_of_apt (hf : acceptedFilters t m kind params=.ok filters)
    (h : Apt t m kind filters) : Meaningful t m kind params filters := by
  have hc := (accepted_iff.mp hf).1
  refine ⟨?_,?_,?_⟩
  · intro e hin
    obtain ⟨he,hord,hs,hplaced⟩ := mem_collection.mp hin
    have hfound := (searched_given hc he hord).mp hs
    refine ordinary_meets hc hord (fun q hq => (h.query q hq e he hord hplaced).1 (hfound q hq)) ?_ ?_
    · intro id hid
      by_cases hkind : kind=.products
      · subst hkind
        have hproduct := h.product rfl id hid e he hord hfound
        obtain ⟨hnone,-⟩ | ⟨region,hregion,hreleased⟩ := placed_products.mp hplaced
        · rw [hid] at hnone
          cases hnone
        · rw [hregion] at hproduct
          exact hproduct hreleased
      · rw [hid] at hplaced
        exact placed_inProduct hkind hplaced
    · intro region hregion
      rw [hregion] at hplaced
      exact placed_inRegion hplaced
  · intro more filters' hsub hf' e hin
    have hext := composes_extends hsub hc (accepted_iff.mp hf').1
    obtain ⟨he,hord,hs,hplaced⟩ := mem_collection.mp hin
    have hord := ordinary_mono hord hext
    have hs := searched_mono hs hext.q
    refine mem_collection.mpr ⟨he,hord,hs,?_⟩
    by_cases hkind : kind=.products
    · subst hkind
      rw [placed_products]
      cases hregion : filters.release_region with
      | some region =>
        rw [hext.release_region region hregion] at hplaced
        obtain ⟨-,hnone⟩ | ⟨r,hr,hreleased⟩ := placed_products.mp hplaced
        · cases hnone
        · exact .inr ⟨r,hr,hreleased⟩
      | none =>
        cases hid : filters.product_id with
        | none => exact .inl ⟨rfl,rfl⟩
        | some id =>
          have hproduct := h.product rfl id hid e he hord ((searched_given hc he hord).mp hs)
          rw [hregion] at hproduct
          obtain ⟨hnone,-⟩ | ⟨r,-,hreleased⟩ := placed_products.mp hplaced
          · rw [hext.product_id id hid] at hnone
            cases hnone
          · exact absurd hreleased (hproduct r)
    · exact placed_mono hkind hplaced hext.product_id hext.release_region
  · intro hkind q hq e hin
    obtain ⟨he,hord,-,hplaced⟩ := mem_collection.mp hin
    have hord : ordinary t m kind e filters=true := hord
    have hplaced : placed m kind e filters.product_id filters.release_region=true := hplaced
    have hquery := h.query q hq e he hord hplaced
    have hsearched := searched_given hc he hord
    constructor
    · intro hin
      exact hquery.1 (hsearched.mp (mem_collection.mp hin).2.2.1 q hq)
    · intro hshows
      refine mem_collection.mpr ⟨he,hord,hsearched.mpr ?_,hplaced⟩
      intro v hv
      rw [Option.some.inj (hv.symm.trans hq)]
      exact hquery.2 hkind hshows

end

/-- For every composition, kind and query: the accepted filters are applied as they are meant
exactly when they are apt. -/
theorem filters_meaningful (t : Platform) (m : Composition) (kind : Collection)
    (params : SearchParams) :
    (∀filters,acceptedFilters t m kind params=.ok filters → Meaningful t m kind params filters) ↔
      ∀filters,acceptedFilters t m kind params=.ok filters → Apt t m kind filters :=
  forall₂_congr fun _ hf => ⟨apt_of_meaningful hf,meaningful_of_apt hf⟩

/-- Texts of lower-case letters and digits, which the runtime leaves as they are. -/
def plainPlatform : Platform where
  nfc s := s
  nfkc s := s
  trim s := s
  toLowerCase s := s
  toLocaleLowerCase s := s
  profileContracts := []
  lower_plain _ _ := rfl
  bounded _ h := le_trans h (by decide)

def publishedProduct (id : Char) : Entity where
  candidate_id := js ['c']
  kind := .listed .products
  entity_id := js [id]
  supported_game := js ['g']
  card_id := none
  identity_value := .inline none
  name := .inline none
  official_code := .inline (some (js [id]))
  effective_rules_text := .inline none
  rarity := none
  relationship_kind := none
  from_id := none
  to_id := none
  category := none

def twoProducts : Composition where
  games := [(js ['c'],js ['g'])]
  entities := [publishedProduct 'p',publishedProduct 'r']
  lifecycles := []
  release_regions := [⟨js ['c'],js ['p'],.us⟩,⟨js ['c'],js ['r'],.us⟩]
  attributes := []
  unique := by decide

def askedFor : SearchParams :=
  [(.filter .product_id,js ['p']),(.filter .release_region,Region.us.text)]

def askedFilters : ComposedFilters where
  game := none
  category := none
  q := none
  card_id := none
  card_number := none
  rarity := none
  product_id := some (js ['p'])
  release_region := some .us
  attributes := []

/-- Who asks for product `p` in a region is given product `r` too. -/
theorem other_product_returned : acceptedFilters plainPlatform twoProducts .products askedFor=.ok
    askedFilters ∧ ¬Meaningful plainPlatform twoProducts .products askedFor askedFilters := by
  refine ⟨rfl,?_⟩
  intro h
  have hin : publishedProduct 'r'∈composedCollection plainPlatform twoProducts .products
      askedFilters := mem_filter.mpr ⟨mem_cons_of_mem _ mem_cons_self,rfl⟩
  have hid : (publishedProduct 'r').entity_id=js ['p'] := (h.meets _ hin).product_id _ rfl
  exact absurd hid (by decide)

/-- The runtime's lower case of `É` is `é`; SQLite's `lower` leaves it. -/
def accentedPlatform : Platform :=
  { plainPlatform with
    toLocaleLowerCase := fun s => if s=[0xc9] then [0xe9] else s
    bounded := fun s h => by
      change (points (if s=[0xc9] then [0xe9] else s)).length ≤ _
      split
      · decide
      · exact h.trans (by decide) }

def accentedProduct : Entity :=
  { publishedProduct 'p' with official_code := .inline none, name := .inline (some [0xc9]) }

def accentedProducts : Composition :=
  { twoProducts with entities := [accentedProduct], unique := by decide }

def searchedFilters (q : Option JsString) : ComposedFilters :=
  { askedFilters with q := q, product_id := none, release_region := none }

/-- Who searches for `é` is not given the product named `É`. -/
theorem accented_product_missed : acceptedFilters accentedPlatform accentedProducts .products
    [(.filter .q,[0xe9])]= .ok (searchedFilters (some [0xe9])) ∧ ¬Meaningful accentedPlatform
    accentedProducts .products [(.filter .q,[0xe9])] (searchedFilters (some [0xe9])) := by
  refine ⟨rfl,?_⟩
  intro h
  have hin : accentedProduct∈composedCollection accentedPlatform accentedProducts .products
      (searchedFilters none) := mem_filter.mpr ⟨mem_cons_self,rfl⟩
  have hshows : Shows accentedPlatform .products accentedProduct [0xe9] :=
    ⟨_,mem_cons_of_mem _ mem_cons_self,infix_rfl⟩
  have hfound := (h.searches (by decide) _ rfl _ hin).mpr hshows
  exact absurd (mem_filter.mp hfound).2 (by decide)

end CardKeepr.Read.Composed
