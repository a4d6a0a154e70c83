import CardKeepr.Lib.InsertionMap
import CardKeepr.Lib.StableSort
import CardKeepr.Shared.IsoTime
import CardKeepr.Reconciliation.Text

namespace CardKeepr.Reconciliation.Product

open Lib Shared

/-- `String.prototype.localeCompare`, as far as the code relies on it: a consistent order of texts,
in which bracketed ISO times decide before what stands after them. -/
structure Collation where
  compare : JsString → JsString → Int
  swap : ∀a b,compare a b ≤ 0 ↔ 0 ≤ compare b a
  trans : ∀a b c,compare a b ≤ 0 → compare b c ≤ 0 → compare a c ≤ 0
  times : ∀(s t : DateTime) (x y : JsString),s.rank < t.rank →
    compare (91::34::(s.iso++34::x)) (91::34::(t.iso++34::y)) < 0

inductive ProductAuthorityClass where
  | product_detail
  | release_schedule
  | product_listing
  | card_detail
  | card_listing
  | policy
  | unknown
  deriving DecidableEq

def productAuthorityRank : ProductAuthorityClass → Nat
  | .product_detail => 0
  | .release_schedule => 1
  | .product_listing => 2
  | .card_detail => 3
  | .card_listing => 4
  | .policy => 5
  | .unknown => 6

inductive RequestRole where
  | surface
  | listing
  | detail
  | product_detail
  | image
  deriving DecidableEq

structure ProductEvidenceResource where
  id : JsString
  captured_at : DateTime
  source : JsString
  surface : Option JsString
  request_role : Option RequestRole
  authority_class : Option ProductAuthorityClass
  deriving DecidableEq

def ProductEvidenceResource.authority (e : ProductEvidenceResource) : Nat :=
  productAuthorityRank (e.authority_class.getD .unknown)

inductive ReferenceKind where
  | official_code
  | name

structure ProductReference where
  kind : ReferenceKind
  value : JsString

inductive ReleaseRegion where
  | enOceania
  | enAsia
  | enUs
  | unknown

inductive ReleasePrecision where
  | day
  | month
  | quarter
  | season
  | year
  | unknown

inductive ReleaseStatus where
  | announced
  | released

/-- A withdrawal; its `assertion` is always `withdrawn`. -/
structure ProductWithdrawal where
  revision_id : Option JsString
  effective_at : JsString
  evidence : JsString
  source_lineage : JsString
  source_snapshot_id : JsString
  source_observation_set_id : JsString
  source_observation_id : JsString

structure ObservedRelease where
  eventKey : JsString
  region : ReleaseRegion
  precision : ReleasePrecision
  value : Option JsString
  tentative : Bool
  status : Option ReleaseStatus

structure CarriedOfficialCode where
  value : JsString
  evidence : List ProductEvidenceResource

structure ProductSourceObservation where
  reference : ProductReference
  id : JsString
  officialCode : Option JsString
  name : JsString
  releases : List ObservedRelease
  withdrawal : Option ProductWithdrawal
  evidence : ProductEvidenceResource
  carriedOfficialCode : Option CarriedOfficialCode

/-- What a fact is as a JSON value; no fact holds a number. -/
class FactValue (V : Type) where
  json : V → Json
  integral : ∀v,(json v).Integral

def text (s : String) : Json := .str (js s.toList)

def optional {V : Type} (json : V → Json) : Option V → Json
  | none => .null
  | some v => json v

instance : FactValue JsString := ⟨.str,fun _ => trivial⟩
instance : FactValue Bool := ⟨.bool,fun _ => trivial⟩

instance {V : Type} [FactValue V] : FactValue (Option V) where
  json := optional FactValue.json
  integral
    | none => trivial
    | some v => FactValue.integral v

instance : FactValue ReleaseRegion where
  json
    | .enOceania => text "EN-OCEANIA"
    | .enAsia => text "EN-ASIA"
    | .enUs => text "EN-US"
    | .unknown => text "unknown"
  integral v := by cases v <;> trivial

instance : FactValue ReleasePrecision where
  json
    | .day => text "day"
    | .month => text "month"
    | .quarter => text "quarter"
    | .season => text "season"
    | .year => text "year"
    | .unknown => text "unknown"
  integral v := by cases v <;> trivial

instance : FactValue ReleaseStatus where
  json
    | .announced => text "announced"
    | .released => text "released"
  integral v := by cases v <;> trivial

inductive DisagreementStatus where
  | unresolved
  | resolved_by_authority

/-- A value that was observed, with the observation that stated it last. -/
structure FactCandidate where
  value : Json
  integral : value.Integral
  observation_id : JsString

structure ProductDisagreement where
  path : JsString
  status : DisagreementStatus
  candidates : List FactCandidate

/-- What `resolveFact` returns, and what it records under its path. -/
structure Resolved (V : Type) where
  value : V
  provenance : List JsString
  disagreement : Option ProductDisagreement

structure CatalogueRelease where
  id : JsString
  event_key : JsString
  product_id : JsString
  region : ReleaseRegion
  precision : ReleasePrecision
  value : Option JsString
  tentative : Bool
  status : Option ReleaseStatus

structure CatalogueProduct where
  reference : ProductReference
  id : JsString
  game : JsString
  official_code : Option JsString
  name : JsString
  releases : List CatalogueRelease
  observed : Bool
  withdrawal : Option ProductWithdrawal
  included : List ProductEvidenceResource
  provenance : List (JsString × List JsString)
  disagreements : List ProductDisagreement
  source_observations : List ProductSourceObservation

def sameAuthority (path : JsString) : JsString :=
  js "Same-authority Product evidence conflicts at ".toList++path++[46]

/-- `.sort()` of texts. -/
def sortTexts (texts : List JsString) : List JsString :=
  texts.insertionSort fun a b => compareUnits a b ≤ 0

section
variable (nfc : Nfc)

/-- `canonicalJson` of a value without numbers, which is never refused. -/
def canonicalText (v : Json) : JsString :=
  match canonicalJson nfc v with
  | .ok t => t
  | .error _ => []

def factKey {V : Type} [FactValue V] (v : V) : JsString := canonicalText nfc (FactValue.json v)

/-- The observed values of a fact by canonical text: each where it was first met, with the
observation that stated it last. -/
def distinctValues {V : Type} [FactValue V] (observations : List (V × ProductEvidenceResource)) :
    List (JsString × FactCandidate) :=
  mapOf (observations.map fun o => (factKey nfc o.1,⟨FactValue.json o.1,FactValue.integral o.1,o.2.id⟩))

def authoritative {V : Type} (observations : List (V × ProductEvidenceResource)) :
    List (V × ProductEvidenceResource) :=
  observations.filter fun o => some o.2.authority=(observations.map (·.2.authority)).min?

variable (c : Collation)

/-- `[...values].sort((left, right) => key(left).localeCompare(key(right)))`. -/
def Collation.sort {α : Type} (key : α → JsString) (values : List α) : List α :=
  values.insertionSort fun a b => c.compare (key a) (key b) ≤ 0

def resolveFact {V : Type} [FactValue V] (observations : List (V × ProductEvidenceResource))
    (path : JsString) : Except JsString (Resolved V) :=
  let distinct := distinctValues nfc observations
  if distinct.length=1 then
    match observations with
    | [] => .error typeError
    | o::_ => .ok ⟨o.1,sortTexts (observations.map (·.2.id)).eraseDups,none⟩
  else
    let best := authoritative observations
    if (mapOf (best.map fun o => (factKey nfc o.1,o))).length > 1 then .error (sameAuthority path)
    else match best with
    | [] => .error typeError
    | o::_ => .ok ⟨o.1,
        sortTexts ((best.filter fun p => factKey nfc p.1=factKey nfc o.1).map (·.2.id)),
        some ⟨path,.resolved_by_authority,c.sort (·.observation_id) (distinct.map Prod.snd)⟩⟩

def uniqueById (evidence : List ProductEvidenceResource) : List ProductEvidenceResource :=
  c.sort (·.id) ((mapOf (evidence.map fun e => (e.id,e))).map Prod.snd)

/-- A carried code speaks for an observation that states none. -/
def officialCodeFacts (observations : List ProductSourceObservation) :
    List (Option JsString × ProductEvidenceResource) :=
  observations.flatMap fun o =>
    match o.officialCode,o.carriedOfficialCode with
    | none,some carried => carried.evidence.map fun e => (some carried.value,e)
    | code,_ => [(code,o.evidence)]

def groupIdentity (r : ObservedRelease × ProductEvidenceResource) : JsString :=
  canonicalText nfc (.arr [.str r.2.source,FactValue.json r.1.region,.str r.1.eventKey])

/-- The observed releases of one source, region and event, in the order of these. -/
def releaseGroups (observations : List ProductSourceObservation) :
    List (JsString × List (ObservedRelease × ProductEvidenceResource)) :=
  c.sort Prod.fst (groupBy (groupIdentity nfc)
    (observations.flatMap fun o => o.releases.map fun r => (r,o.evidence)))

def releaseIdFor (productId eventIdentity : JsString) : JsString :=
  js "release_".toList++sha256Text (canonicalText nfc (.obj [
    (js "product_id".toList,.str productId),
    (js "event_identity".toList,.str eventIdentity)]))

def releasePath (index : Nat) (field : String) : JsString :=
  js "/data/releases/".toList++decimal index++js field.toList

/-- A record under a path, as `provenance` and `disagreements` take it. -/
structure Recorded where
  provenance : List (JsString × List JsString)
  disagreements : List ProductDisagreement

instance : Append Recorded :=
  ⟨fun a b => ⟨a.provenance++b.provenance,a.disagreements++b.disagreements⟩⟩

def Resolved.recorded {V : Type} (r : Resolved V) (path : JsString) : Recorded :=
  ⟨[(path,r.provenance)],r.disagreement.toList⟩

/-- One fact of a release group. -/
def resolveReleaseFact {V : Type} [FactValue V]
    (values : List (ObservedRelease × ProductEvidenceResource)) (field : ObservedRelease → V)
    (path : JsString) : Except JsString (V × Recorded) := do
  let r ← resolveFact nfc c (values.map fun v => (field v.1,v.2)) path
  return (r.value,r.recorded path)

/-- A release never stated as subject to change has no such fact. -/
def resolveTentative (values : List (ObservedRelease × ProductEvidenceResource))
    (path : JsString) : Except JsString (Bool × Recorded) :=
  if values.any (·.1.tentative) then resolveReleaseFact nfc c values (·.tentative) path
  else .ok (false,⟨[],[]⟩)

def resolveRelease (productId : JsString)
    (group : (JsString × List (ObservedRelease × ProductEvidenceResource)) × Nat) :
    Except JsString (CatalogueRelease × Recorded) := do
  let values := group.1.2
  let index := group.2
  match values with
  | [] => .error typeError
  | first::_ =>
    let region ← resolveReleaseFact nfc c values (·.region) (releasePath index "/region")
    let precision ← resolveReleaseFact nfc c values (·.precision)
      (releasePath index "/date/precision")
    let value ← resolveReleaseFact nfc c values (·.value) (releasePath index "/date/value")
    let status ← resolveReleaseFact nfc c values (·.status) (releasePath index "/status")
    let tentative ← resolveTentative nfc c values (releasePath index "/date/tentative")
    return (⟨releaseIdFor nfc productId group.1.1,first.1.eventKey,productId,region.1,precision.1,
      value.1,tentative.1,status.1⟩,
      region.2++precision.2++value.2++status.2++tentative.2)

/-- `canonicalJson([captured_at, id])`. -/
def captureText (e : ProductEvidenceResource) : JsString :=
  canonicalText nfc (.arr [.str e.captured_at.iso,.str e.id])

/-- The withdrawals in the order they were captured in. -/
def sortedWithdrawals (observations : List ProductSourceObservation) :
    List ProductSourceObservation :=
  c.sort (fun o => captureText nfc o.evidence) (observations.filter (·.withdrawal.isSome))

def resolveProduct (observations : List ProductSourceObservation) (game : JsString) :
    Except JsString CatalogueProduct :=
  match observations with
  | [] => .error typeError
  | first::_ => do
    let officialCode ← resolveFact nfc c (officialCodeFacts observations)
      (js "/data/official_code".toList)
    let name ← resolveFact nfc c (observations.map fun o => (o.name,o.evidence))
      (js "/data/name".toList)
    let releases ← (releaseGroups nfc c observations).zipIdx.mapM (resolveRelease nfc c first.id)
    let recorded := officialCode.recorded (js "/data/official_code".toList)++
      name.recorded (js "/data/name".toList)++
      releases.foldr (fun r rest => r.2++rest) ⟨[],[]⟩
    return {
      reference := match officialCode.value with
        | none => first.reference
        | some code => ⟨.official_code,code⟩
      id := first.id
      game := game
      official_code := officialCode.value
      name := name.value
      releases := releases.map Prod.fst
      observed := true
      withdrawal := (sortedWithdrawals nfc c observations).getLast?.bind (·.withdrawal)
      included := uniqueById c (observations.flatMap fun o =>
        o.evidence::(o.carriedOfficialCode.map (·.evidence)).getD [])
      provenance := recorded.provenance
      disagreements := c.sort (·.path) recorded.disagreements
      source_observations := c.sort (fun o =>
        canonicalText nfc (.arr [.str o.evidence.source,.str o.evidence.id])) observations }

end

def ReferenceKind.json : ReferenceKind → Json
  | .official_code => text "official_code"
  | .name => text "name"

def DisagreementStatus.json : DisagreementStatus → Json
  | .unresolved => text "unresolved"
  | .resolved_by_authority => text "resolved_by_authority"

def ProductReference.json (r : ProductReference) : Json := .obj [
  (js "kind".toList,r.kind.json),
  (js "value".toList,.str r.value)]

def CatalogueRelease.json (r : CatalogueRelease) : Json := .obj [
  (js "id".toList,.str r.id),
  (js "event_key".toList,.str r.event_key),
  (js "product_id".toList,.str r.product_id),
  (js "region".toList,FactValue.json r.region),
  (js "date".toList,.obj ([
    (js "precision".toList,FactValue.json r.precision),
    (js "value".toList,FactValue.json r.value)]++
    if r.tentative then [(js "tentative".toList,.bool true)] else [])),
  (js "status".toList,FactValue.json r.status)]

/-- What the projection keeps of a withdrawal. -/
def ProductWithdrawal.semantic (w : ProductWithdrawal) : Json := .obj [
  (js "assertion".toList,text "withdrawn"),
  (js "effective_at".toList,.str w.effective_at),
  (js "evidence".toList,.str w.evidence)]

def ProductDisagreement.semantic (d : ProductDisagreement) : Json := .obj [
  (js "path".toList,.str d.path),
  (js "status".toList,d.status.json),
  (js "candidates".toList,.arr (d.candidates.map fun v => .obj [(js "value".toList,v.value)]))]

/-- The product as `semanticCatalogueCandidate` projects it. -/
def CatalogueProduct.semantic (p : CatalogueProduct) : Json := .obj [
  (js "reference".toList,p.reference.json),
  (js "id".toList,.str p.id),
  (js "game".toList,.str p.game),
  (js "official_code".toList,FactValue.json p.official_code),
  (js "name".toList,.str p.name),
  (js "releases".toList,.arr (p.releases.map CatalogueRelease.json)),
  (js "withdrawal".toList,optional ProductWithdrawal.semantic p.withdrawal),
  (js "disagreements".toList,.arr (p.disagreements.map ProductDisagreement.semantic))]

end CardKeepr.Reconciliation.Product
