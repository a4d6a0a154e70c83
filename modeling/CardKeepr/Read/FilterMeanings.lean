import CardKeepr.Read.CompositionFilters
import CardKeepr.Publication.SearchCoverage

namespace CardKeepr.Read.Composed
open Shared Read Lib Publication.Preparation List

section
variable (t : Platform) (m : Composition) (kind : Collection) (e : Entity)

/-- The texts a search reads. -/
def searchTexts : List CardField :=
  match kind with
  | .cards => e.prepared.fields
  | _ => [e.official_code,e.name]

def Shows (q : JsString) : Prop :=
  ∃field∈searchTexts kind e,q <:+: normalizeCardSearchText t field.whole

/-- The printing is in the product, by a relationship that is current. -/
def Sells (candidate_id printing product : JsString) : Prop :=
  ∃rel∈m.entities,rel.candidate_id=candidate_id ∧ membership m rel=true ∧
    rel.from_id=some printing ∧ rel.to_id=some product

def Released (candidate_id product : JsString) (region : Region) : Prop :=
  ∃r∈m.release_regions,r.candidate_id=candidate_id ∧ r.product_id=product ∧ r.region=region

def PrintingOf (p : Entity) : Prop :=
  p∈m.entities ∧ p.candidate_id=e.candidate_id ∧ p.kind=.listed .printings ∧
    p.card_id=some e.entity_id

def HasCategory (category : JsString) : Prop :=
  match kind with
  | .printings => ∃card∈m.entities,card.candidate_id=e.candidate_id ∧ card.kind=.listed .cards ∧
    e.card_id=some card.entity_id ∧ card.category=some category
  | _ => e.category=some category

def HasCard (card_id : JsString) : Prop :=
  match kind with
  | .cards => e.entity_id=card_id
  | _ => e.card_id=some card_id

def HasRarity (rarity : JsString) : Prop :=
  match kind with
  | .cards => ∃p,PrintingOf m e p ∧ p.rarity=some rarity
  | _ => e.rarity=some rarity

def InProduct (product_id : JsString) : Prop :=
  match kind with
  | .cards => ∃p,PrintingOf m e p ∧ Sells m e.candidate_id p.entity_id product_id
  | .printings => Sells m e.candidate_id e.entity_id product_id
  | .products => e.entity_id=product_id

def InRegion (region : Region) : Prop :=
  match kind with
  | .cards => ∃p product,PrintingOf m e p ∧ Sells m e.candidate_id p.entity_id product ∧
    Released m e.candidate_id product region
  | .printings => ∃product,Sells m e.candidate_id e.entity_id product ∧
    Released m e.candidate_id product region
  | .products => Released m e.candidate_id e.entity_id region

/-- An entity satisfies each given filter, one by one. -/
structure Meets (filters : ComposedFilters) : Prop where
  game : ∀v,filters.game=some v → e.supported_game=v
  category : ∀v,filters.category=some v → HasCategory m kind e v
  q : ∀v,filters.q=some v → Shows t kind e v
  card_id : ∀v,filters.card_id=some v → HasCard kind e v
  card_number : ∀v,filters.card_number=some v → column e.identity_value=some v
  rarity : ∀v,filters.rarity=some v → HasRarity m kind e v
  product_id : ∀v,filters.product_id=some v → InProduct m kind e v
  release_region : ∀v,filters.release_region=some v → InRegion m kind e v
  attributes : ∀a∈filters.attributes,∃row∈m.attributes,row.candidate_id=e.candidate_id ∧
    row.card_id=e.entity_id ∧ row.name=a.1 ∧ row.value=a.2

end

section
variable (t : Platform) (m : Composition) (kind : Collection)

/-- The filters of a request mean what they say: the entities satisfy each of them, another
filter adds none, and of the entities of the other filters `q` admits those that show it. -/
structure Meaningful (params : SearchParams) (filters : ComposedFilters) : Prop where
  meets : ∀e∈composedCollection t m kind filters,Meets t m kind e filters
  narrows : ∀more filters',(∀p∈params,p∈more) → acceptedFilters t m kind more=.ok filters' →
    ∀e∈composedCollection t m kind filters',e∈composedCollection t m kind filters
  searches : kind≠.printings → ∀q,filters.q=some q →
    ∀e∈composedCollection t m kind {filters with q := none},
      (e∈composedCollection t m kind filters ↔ Shows t kind e q)

/-- How the statement finds a query in an entity's texts. -/
def Found (e : Entity) (q : JsString) : Prop :=
  match kind with
  | .cards => ∃field∈e.prepared.fields,∃view∈field.views,q <:+: normalizeCardSearchText t view
  | _ =>
    let code := lower ((column e.official_code).getD [])
    let name := lower ((column e.name).getD [])
    q <:+: code ∨ q <:+: name ∨ ∃x y,q=x++32::y ∧ x <:+ code ∧ y <+: name

/-- The requests whose filters are applied as meant. -/
structure Apt (filters : ComposedFilters) : Prop where
  /-- Where a product is asked for, no other product is published in the region asked for, and
  without a region none is published at all. -/
  product : kind=.products → ∀id,filters.product_id=some id → ∀e∈m.entities,
    ordinary t m kind e filters=true → (∀q,filters.q=some q → Found t kind e q) →
    match filters.release_region with
    | none => ∀region,¬Released m e.candidate_id e.entity_id region
    | some region => Released m e.candidate_id e.entity_id region → e.entity_id=id
  /-- The statement finds the query where the normalized texts show it. -/
  query : ∀q,filters.q=some q → ∀e∈m.entities,ordinary t m kind e filters=true →
    placed m kind e filters.product_id filters.release_region=true →
    (Found t kind e q → Shows t kind e q) ∧ (kind≠.printings → Shows t kind e q → Found t kind e q)

end

section
variable {t : Platform} {m : Composition} {kind : Collection} {params more : SearchParams}
  {name : Name} {v w : JsString}
variable {v path : JsString} {o game : Option JsString} {filters : ComposedFilters}

theorem singleParameter_mem (h : singleParameter params name=.ok (some v)) : (name,v)∈params := by
  rw [singleParameter] at h
  split at h
  · cases h
  · next p hp =>
    have hm : p∈params.filter fun p => p.1=name := by rw [hp]; exact mem_singleton_self p
    obtain ⟨hmem,hname⟩ := mem_filter.mp hm
    have hval : p.2=v := Option.some.inj (Except.ok.inj h)
    rw [← of_decide_eq_true hname,← hval]
    exact hmem
  · cases h

theorem singleParameter_of_mem (hm : (name,v)∈params)
    (h : singleParameter params name=.ok o) : o=some v := by
  have hin : (name,v)∈params.filter fun p => p.1=name := mem_filter.mpr ⟨hm,by simp⟩
  rw [singleParameter] at h
  split at h
  · next hp =>
    rw [hp] at hin
    cases hin
  · next p hp =>
    rw [hp,mem_singleton] at hin
    rw [← hin] at h
    exact (Except.ok.inj h).symm
  · cases h

theorem collectionFilter_mem (h : collectionFilter params name=.ok (some v)) : (name,v)∈params := by
  obtain ⟨o,ho,hg⟩ := bind_ok h
  cases o with
  | none => cases hg
  | some raw =>
    obtain rfl : raw=v := by
      rw [given,collectionFilterValue] at hg
      split_ifs at hg
      · cases hg
      · cases hg
      · exact Option.some.inj (Except.ok.inj hg)
    exact singleParameter_mem ho

theorem collectionFilter_of_mem (hm : (name,v)∈params)
    (h : collectionFilter params name=.ok o) : o=some v := by
  obtain ⟨raw,hraw,hg⟩ := bind_ok h
  rw [singleParameter_of_mem hm hraw,given,collectionFilterValue] at hg
  split_ifs at hg
  · cases hg
  · cases hg
  · exact (Except.ok.inj hg).symm

/-- A filter is read from its parameter and checked. -/
def Reads {α : Type} (params : SearchParams) (f : Filter) (check : JsString → Except Problem α)
    (o : Option α) : Prop :=
  ∃raw,collectionFilter params (.filter f)=.ok raw ∧ given raw check=.ok o

theorem reads_kept {α : Type} {f : Filter} {check : JsString → Except Problem α} {a : α}
    {o : Option α} (hm : ∀p∈params,p∈more) (h : Reads params f check (some a))
    (h' : Reads more f check o) : o=some a := by
  obtain ⟨raw,hraw,hg⟩ := h
  obtain ⟨raw',hraw',hg'⟩ := h'
  cases raw with
  | none => cases hg
  | some v =>
    rw [collectionFilter_of_mem (hm _ (collectionFilter_mem hraw)) hraw',hg] at hg'
    exact (Except.ok.inj hg').symm

/-- What the accepted filters of a query are. -/
structure Composes (t : Platform) (kind : Collection) (params : SearchParams)
    (filters : ComposedFilters) : Prop where
  parameters : collectionParameters kind params=.ok ()
  game : Reads params .game (fun v => checkTrimmed t .game v >>= checkGame t) filters.game
  category : Reads params .category checkCategory filters.category
  q : Reads params .q (checkQuery t) filters.q
  card_id : Reads params .card_id .ok filters.card_id
  card_number : Reads params .card_number (checkTrimmed t .card_number) filters.card_number
  rarity : Reads params .rarity (checkRarity t) filters.rarity
  product_id : Reads params .product_id .ok filters.product_id
  release_region : Reads params .release_region checkRegion filters.release_region
  attributes : ((params.filterMap attributePath).insertionSort fun a b => compareUnits a b ≤ 0).mapM
    (checkAttribute t params filters.game)=.ok filters.attributes

theorem given_split {α : Type} {f : JsString → Except Problem JsString}
    {g : JsString → Except Problem α} {y : Option α} (h : given o (fun v => f v >>= g)=.ok y) :
    ∃x,given o f=.ok x ∧ given x g=.ok y := by
  cases o with
  | none => exact ⟨none,rfl,h⟩
  | some v =>
    rw [given] at h ⊢
    cases hf : f v with
    | error e =>
      rw [hf] at h
      cases h
    | ok x =>
      rw [hf] at h
      exact ⟨some x,rfl,h⟩

theorem given_plain (o : Option JsString) : given o (.ok : JsString → Except Problem JsString)=.ok o := by
  cases o with
  | none => rfl
  | some v => rfl

theorem given_given {β : Type} {f : JsString → Except Problem JsString}
    {g : JsString → Except Problem β} {x : Option JsString} (h : given o f=.ok x) :
    given x g=given o (fun v => f v >>= g) := by
  cases o with
  | none =>
    obtain rfl := Except.ok.inj h
    rfl
  | some v =>
    rw [given] at h
    cases hf : f v with
    | error e =>
      rw [hf] at h
      cases h
    | ok y =>
      rw [hf] at h
      obtain rfl := Except.ok.inj h
      rw [given,given,hf]
      rfl

theorem composedFilters_iff :
    composedFilters t kind params=.ok filters ↔ Composes t kind params filters := by
  constructor
  · intro h
    rw [composedFilters] at h
    obtain ⟨_,hparams,h⟩ := bind_ok h
    obtain ⟨game,hgame,h⟩ := bind_ok h
    obtain ⟨category,hcategory,h⟩ := bind_ok h
    obtain ⟨q,hq,h⟩ := bind_ok h
    obtain ⟨card_id,hcard,h⟩ := bind_ok h
    obtain ⟨card_number,hnumber,h⟩ := bind_ok h
    obtain ⟨rarity,hrarity,h⟩ := bind_ok h
    obtain ⟨product_id,hproduct,h⟩ := bind_ok h
    obtain ⟨region,hregion,h⟩ := bind_ok h
    obtain ⟨game',hgame',h⟩ := bind_ok h
    obtain ⟨card_number',hnumber',h⟩ := bind_ok h
    obtain ⟨category',hcategory',h⟩ := bind_ok h
    obtain ⟨game'',hgame'',h⟩ := bind_ok h
    obtain ⟨region',hregion',h⟩ := bind_ok h
    obtain ⟨q',hq',h⟩ := bind_ok h
    obtain ⟨rarity',hrarity',h⟩ := bind_ok h
    obtain ⟨attributes,hattributes,h⟩ := bind_ok h
    obtain rfl := Except.ok.inj h
    exact ⟨hparams,⟨game,hgame,(given_given hgame').symm.trans hgame''⟩,⟨_,hcategory,hcategory'⟩,
      ⟨_,hq,hq'⟩,⟨_,hcard,given_plain _⟩,⟨_,hnumber,hnumber'⟩,⟨_,hrarity,hrarity'⟩,
      ⟨_,hproduct,given_plain _⟩,⟨_,hregion,hregion'⟩,hattributes⟩
  · rintro ⟨hparams,⟨game,hgame,hgame'⟩,⟨category,hcategory,hcategory'⟩,⟨q,hq,hq'⟩,
      ⟨card_id,hcard,hcard'⟩,⟨card_number,hnumber,hnumber'⟩,⟨rarity,hrarity,hrarity'⟩,
      ⟨product_id,hproduct,hproduct'⟩,⟨region,hregion,hregion'⟩,hattributes⟩
    obtain ⟨trimmed,htrimmed,hgame'⟩ := given_split hgame'
    rw [given_plain] at hcard' hproduct'
    rw [composedFilters,hparams,ok_bind,hgame,ok_bind,hcategory,ok_bind,hq,ok_bind,hcard,ok_bind,
      hnumber,ok_bind,hrarity,ok_bind,hproduct,ok_bind,hregion,ok_bind,htrimmed,ok_bind,hnumber',
      ok_bind,hcategory',ok_bind,hgame',ok_bind,hregion',ok_bind,hq',ok_bind,hrarity',ok_bind,
      hattributes,ok_bind,Except.ok.inj hcard',Except.ok.inj hproduct']

theorem attributePath_mem :
    path∈params.filterMap attributePath ↔ ∃v,(Name.attributeAt path,v)∈params := by
  rw [mem_filterMap]
  constructor
  · rintro ⟨⟨name,v⟩,hm,hp⟩
    cases name with
    | attributeAt p => exact ⟨v,Option.some.inj hp▸hm⟩
    | limit => cases hp
    | after => cases hp
    | revision => cases hp
    | filter f => cases hp
    | other n => cases hp
  · rintro ⟨v,hm⟩
    exact ⟨_,hm,rfl⟩

theorem checkAttribute_ok {a : JsString×JsString}
    (hm : (Name.attributeAt path,v)∈params) (h : checkAttribute t params game path=.ok a) :
    ∃g profile value,game=some g ∧ gameProfileForGame t g=some profile ∧
      gameProfileFilterValue profile path v=some value ∧ a=(path,value) := by
  rw [checkAttribute] at h
  split at h
  · cases h
  · next profile hp =>
    obtain ⟨g,hg,hprofile⟩ := Option.bind_eq_some_iff.mp hp
    obtain ⟨raw,hraw,h⟩ := bind_ok h
    rw [collectionFilter_of_mem hm hraw,ok_bind] at h
    dsimp only [Option.getD_some] at h
    cases hv : gameProfileFilterValue profile path v with
    | none =>
      rw [hv] at h
      cases h
    | some value =>
      rw [hv] at h
      exact ⟨g,profile,value,hg,hprofile,hv,(Except.ok.inj h).symm⟩

theorem checkAttribute_kept {game' : Option JsString} {a b : JsString×JsString}
    (hm : (Name.attributeAt path,v)∈params) (hm' : (Name.attributeAt path,v)∈more)
    (hgame : ∀g,game=some g → game'=some g) (h : checkAttribute t params game path=.ok a)
    (h' : checkAttribute t more game' path=.ok b) : a=b := by
  obtain ⟨g,profile,value,hg,hp,hv,rfl⟩ := checkAttribute_ok hm h
  obtain ⟨g',profile',value',hg',hp',hv',rfl⟩ := checkAttribute_ok hm' h'
  obtain rfl : g=g' := Option.some.inj ((hgame g hg).symm.trans hg')
  obtain rfl : profile=profile' := Option.some.inj (hp.symm.trans hp')
  rw [Option.some.inj (hv.symm.trans hv')]

/-- The filters of a query with more parameters. -/
structure Extends (filters filters' : ComposedFilters) : Prop where
  game : ∀v,filters.game=some v → filters'.game=some v
  category : ∀v,filters.category=some v → filters'.category=some v
  q : ∀v,filters.q=some v → filters'.q=some v
  card_id : ∀v,filters.card_id=some v → filters'.card_id=some v
  card_number : ∀v,filters.card_number=some v → filters'.card_number=some v
  rarity : ∀v,filters.rarity=some v → filters'.rarity=some v
  product_id : ∀v,filters.product_id=some v → filters'.product_id=some v
  release_region : ∀v,filters.release_region=some v → filters'.release_region=some v
  attributes : ∀a∈filters.attributes,a∈filters'.attributes

theorem composes_extends {filters' : ComposedFilters} (hm : ∀p∈params,p∈more)
    (h : Composes t kind params filters) (h' : Composes t kind more filters') :
    Extends filters filters' := by
  have kept : ∀{β : Type} {f : Filter} {check : JsString → Except Problem β} {o o' : Option β},
      Reads params f check o → Reads more f check o' → ∀v,o=some v → o'=some v := by
    rintro β f check o o' hr hr' v rfl
    exact reads_kept hm hr hr'
  have hgame := kept h.game h'.game
  refine ⟨hgame,kept h.category h'.category,kept h.q h'.q,kept h.card_id h'.card_id,
    kept h.card_number h'.card_number,kept h.rarity h'.rarity,kept h.product_id h'.product_id,
    kept h.release_region h'.release_region,?_⟩
  intro a ha
  obtain ⟨path,hpath,hok⟩ := mapM_ok_mem h.attributes ha
  obtain ⟨v,hv⟩ := attributePath_mem.mp ((mem_insertionSort _).mp hpath)
  have hin : path∈(more.filterMap attributePath).insertionSort fun a b => compareUnits a b ≤ 0 :=
    (mem_insertionSort _).mpr (attributePath_mem.mpr ⟨v,hm _ hv⟩)
  obtain ⟨b,hb,hok'⟩ := mapM_mem_ok h'.attributes hin
  rwa [checkAttribute_kept hv (hm _ hv) hgame hok hok']

def withRegion (params : SearchParams) (region : Region) : SearchParams :=
  params++[(.filter .release_region,region.text)]

theorem singleParameter_withRegion (region : Region) (h : name≠.filter .release_region) :
    singleParameter (withRegion params region) name=singleParameter params name := by
  rw [singleParameter,singleParameter,withRegion,filter_append]
  have hno : [(Name.filter Filter.release_region,region.text)].filter (fun p => p.1=name)=[] := by
    simp [Ne.symm h]
  rw [hno,append_nil]

theorem collectionFilter_withRegion (region : Region) (h : name≠.filter .release_region) :
    collectionFilter (withRegion params region) name=collectionFilter params name := by
  rw [collectionFilter,collectionFilter,singleParameter_withRegion region h]

theorem reads_absent {α : Type} {f : Filter} {check : JsString → Except Problem α}
    (h : Reads params f check none) : singleParameter params (.filter f)=.ok none := by
  obtain ⟨raw,hraw,hg⟩ := h
  cases raw with
  | some v =>
    rw [given] at hg
    cases hc : check v with
    | error e =>
      rw [hc] at hg
      cases hg
    | ok a =>
      rw [hc] at hg
      cases hg
  | none =>
    obtain ⟨o,ho,hg⟩ := bind_ok hraw
    cases o with
    | none => exact ho
    | some v =>
      rw [given,collectionFilterValue] at hg
      split_ifs at hg
      · cases hg
      · cases hg
      · cases hg

theorem singleParameter_region {region : Region}
    (h : singleParameter params (.filter .release_region)=.ok none) :
    singleParameter (withRegion params region) (.filter .release_region)=.ok (some region.text) := by
  have hnone : params.filter (fun p => p.1=Name.filter .release_region)=[] := by
    rw [singleParameter] at h
    split at h
    · assumption
    · cases h
    · cases h
  rw [singleParameter,withRegion,filter_append,hnone]
  rfl

theorem region_read (region : Region) :
    given (some region.text) (collectionFilterValue (.filter .release_region))=
      .ok (some region.text) ∧ given (some region.text) checkRegion=.ok (some region) := by
  cases region with
  | oceania => exact ⟨rfl,rfl⟩
  | asia => exact ⟨rfl,rfl⟩
  | us => exact ⟨rfl,rfl⟩
  | unknown => exact ⟨rfl,rfl⟩

theorem collectionParameters_iff : collectionParameters kind params=.ok () ↔
    ∀p∈params,p.1.text≠[] ∧ allowed kind p.1=true ∧ ∃o,singleParameter params p.1=.ok o := by
  rw [collectionParameters,forM_ok,forall_mem_map]
  refine forall₂_congr fun p _ => ?_
  constructor
  · intro h
    split_ifs at h with h1 h2
    · cases h
    · cases h
    · refine ⟨h1,by simpa using h2,?_⟩
      cases hs : singleParameter params p.1 with
      | error e =>
        rw [hs] at h
        cases h
      | ok o => exact ⟨o,rfl⟩
  · rintro ⟨h1,h2,o,ho⟩
    rw [if_neg h1,if_neg (by simp [h2]),ho]
    rfl

theorem composes_withRegion (region : Region)
    (h : Composes t kind params filters) (hnone : filters.release_region=none) :
    Composes t kind (withRegion params region) {filters with release_region := some region} := by
  have hgone : singleParameter params (.filter .release_region)=.ok none := by
    have hread := h.release_region
    rw [hnone] at hread
    exact reads_absent hread
  have hread : ∀{β : Type} {f : Filter} {check : JsString → Except Problem β} {o : Option β},
      f≠.release_region → Reads params f check o → Reads (withRegion params region) f check o := by
    rintro β f check o hf ⟨raw,hraw,hg⟩
    refine ⟨raw,?_,hg⟩
    rwa [collectionFilter_withRegion region (fun he => hf (Name.filter.inj he))]
  refine ⟨?_,hread (by decide) h.game,hread (by decide) h.category,hread (by decide) h.q,
    hread (by decide) h.card_id,hread (by decide) h.card_number,hread (by decide) h.rarity,
    hread (by decide) h.product_id,?_,?_⟩
  · rw [collectionParameters_iff]
    intro p hp
    obtain hp | hp := mem_append.mp hp
    · obtain ⟨h1,h2,o,ho⟩ := collectionParameters_iff.mp h.parameters p hp
      refine ⟨h1,h2,o,?_⟩
      by_cases hname : p.1=.filter .release_region
      · have hmem : (Name.filter Filter.release_region,p.2)∈params := by
          rw [← hname]
          exact hp
        have hsome := singleParameter_of_mem hmem hgone
        cases hsome
      · rwa [singleParameter_withRegion region hname]
    · obtain rfl := mem_singleton.mp hp
      have hname : (Name.filter Filter.release_region).text≠[] := by decide
      refine ⟨hname,?_,_,singleParameter_region hgone⟩
      cases kind with
      | cards => rfl
      | printings => rfl
      | products => rfl
  · refine ⟨some region.text,?_,(region_read region).2⟩
    rw [collectionFilter,singleParameter_region hgone,ok_bind]
    exact (region_read region).1
  · have hpaths : (withRegion params region).filterMap attributePath=params.filterMap attributePath := by
      rw [withRegion,filterMap_append]
      simp [attributePath]
    have hcheck : checkAttribute t (withRegion params region) filters.game=
        checkAttribute t params filters.game := by
      funext path
      rw [checkAttribute,checkAttribute,collectionFilter_withRegion region (by simp)]
    rw [hpaths]
    change List.mapM (checkAttribute t (withRegion params region) filters.game) _=_
    rw [hcheck]
    exact h.attributes

theorem accepted_iff : acceptedFilters t m kind params=.ok filters ↔
    Composes t kind params filters ∧ checkValues m filters=.ok () := by
  rw [← composedFilters_iff,acceptedFilters]
  constructor
  · intro h
    obtain ⟨found,hfound,h⟩ := bind_ok h
    obtain ⟨_,hvalues,h⟩ := bind_ok h
    obtain rfl := Except.ok.inj h
    exact ⟨hfound,hvalues⟩
  · rintro ⟨hfound,hvalues⟩
    rw [hfound,ok_bind,hvalues]
    rfl

theorem accepted_withRegion (region : Region)
    (h : acceptedFilters t m kind params=.ok filters) (hnone : filters.release_region=none) :
    acceptedFilters t m kind (withRegion params region)=
      .ok {filters with release_region := some region} := by
  obtain ⟨hcomposes,hvalues⟩ := accepted_iff.mp h
  exact accepted_iff.mpr ⟨composes_withRegion region hcomposes hnone,hvalues⟩

theorem composes_rarity (h : Composes t kind params filters)
    (hv : filters.rarity=some v) : t.toLowerCase v=v := by
  obtain ⟨raw,-,hg⟩ := h.rarity
  rw [hv] at hg
  cases raw with
  | none => cases hg
  | some raw =>
    rw [given,checkRarity] at hg
    split_ifs at hg with hplain
    · obtain rfl := Option.some.inj (Except.ok.inj hg)
      exact t.lower_plain _ hplain.1
    · cases hg

theorem composes_query (h : Composes t kind params filters) (hv : filters.q=some v) : 1 ≤
    (points v).length ∧ (points v).length ≤ maximumNormalizedSearchQueryCodePoints := by
  obtain ⟨raw,hraw,hg⟩ := h.q
  rw [hv] at hg
  cases raw with
  | none => cases hg
  | some raw =>
    have hlong : (points raw).length ≤ 500 := by
      obtain ⟨o,-,hvalue⟩ := bind_ok hraw
      cases o with
      | none => cases hvalue
      | some r =>
        rw [given,collectionFilterValue] at hvalue
        split_ifs at hvalue with h1 h2
        · cases hvalue
        · cases hvalue
        · obtain rfl := Option.some.inj (Except.ok.inj hvalue)
          omega
    rw [given,checkQuery,nonempty] at hg
    split_ifs at hg with hempty
    · cases hg
    · obtain rfl := Option.some.inj (Except.ok.inj hg)
      refine ⟨?_,t.bounded raw hlong⟩
      cases hs : normalizeCardSearchText t raw with
      | nil => exact absurd hs hempty
      | cons u s =>
        have hflat := points_flatten (u::s)
        rw [Nat.one_le_iff_ne_zero,ne_eq,length_eq_zero_iff]
        intro hnil
        rw [hnil] at hflat
        cases hflat

end

end CardKeepr.Read.Composed
