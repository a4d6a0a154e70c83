import CardKeepr.Lib.Fallible
import Mathlib.Data.List.Nodup
import Mathlib.Data.List.Sort

namespace CardKeepr.SourceEvidence.Plans

open Lib List

inductive Failure where
  | problem (status : Nat) (code : String) (detail : String)
  | error (message : String)
  deriving DecidableEq

inductive Capability where
  | catalogue | errata
  deriving DecidableEq

def Capability.text : Capability → String
  | .catalogue => "catalogue"
  | .errata => "errata"

inductive DiscoveredRole where
  | listing | detail | product_detail | image
  deriving DecidableEq

def DiscoveredRole.text : DiscoveredRole → String
  | .listing => "listing"
  | .detail => "detail"
  | .product_detail => "product_detail"
  | .image => "image"

/-- What a named scope may override; an absent member is `undefined`. `surfaces` holds
`requiredSurfaces` with the URL `requestUrlForSurface` gives each of them. -/
structure CoverageContract where
  surfaces : Option (List (String × String)) := none
  reconciliationCapability : Option Capability := none
  acquiredDiscoveryRoles : Option (List DiscoveredRole) := none
  selectableDiscoveryRoles : Option (List DiscoveredRole) := none

structure SourceAdapterRegistration where
  adapterVersion : String
  sourceLineage : String
  supportedGame : String
  requestCapacity : Nat
  /-- The URL of an `exact-url` request surface. -/
  requestSurface : Option String := none
  reconciliationCapability : Capability := .catalogue
  acquiredDiscoveryRoles : Option (List DiscoveredRole) := none
  selectableDiscoveryRoles : Option (List DiscoveredRole) := none
  /-- The adapter has a `discoverySelectionGroup`. -/
  groups : Bool := false
  coverageContracts : Option (List (String × CoverageContract)) := none
  surfaces : Option (List (String × String)) := none
  requestUrlForDiscovery : Option String := none

def SourceAdapterRegistration.gameProfileVersion (a : SourceAdapterRegistration) : String :=
  a.supportedGame++"@1"

/-- A complete publisher adapter: its discovery starts at its first surface. -/
def bandaiAdapter (adapterVersion sourceLineage supportedGame : String) (requestCapacity : Nat)
    (coverageContracts : Option (List (String × CoverageContract)))
    (surfaces : List (String × String)) : SourceAdapterRegistration where
  adapterVersion := adapterVersion
  sourceLineage := sourceLineage
  supportedGame := supportedGame
  requestCapacity := requestCapacity
  coverageContracts := coverageContracts
  surfaces := some surfaces
  requestUrlForDiscovery := surfaces.head?.map Prod.snd

def scope (surfaces : List (String × String)) : CoverageContract where
  surfaces := some surfaces

def limitlessOnePieceSourceAdapterRegistration : SourceAdapterRegistration where
  adapterVersion := "limitless-one-piece-en@1"
  sourceLineage := "limitless-one-piece-en"
  supportedGame := "one-piece"
  requestCapacity := 9559
  surfaces := some [("products-index","https://onepiece.limitlesstcg.com/cards"),
    ("promos-index","https://onepiece.limitlesstcg.com/cards/promos")]
  coverageContracts := some [
    ("p-001-catalogue",scope [("p-001-catalogue","https://onepiece.limitlesstcg.com/cards/en/P-001")]),
    ("five-card-pilot",scope [
      ("p-001-catalogue","https://onepiece.limitlesstcg.com/cards/en/P-001"),
      ("st01-001-catalogue","https://onepiece.limitlesstcg.com/cards/ST01-001"),
      ("op16-002-catalogue","https://onepiece.limitlesstcg.com/cards/OP16-002"),
      ("op16-019-catalogue","https://onepiece.limitlesstcg.com/cards/OP16-019"),
      ("op16-021-catalogue","https://onepiece.limitlesstcg.com/cards/OP16-021")])]

def riftboundInventoryUrl : String :=
  "https://content.publishing.riotgames.com/publishing-content/v2.0/public/channel/" ++
    "riftbound_website/list/riftbound_gallery_cards?locale=en_US&from=0&limit=200"
def riftboundOriginsErrataUrl : String :=
  "https://playriftbound.com/en-us/news/rules-and-releases/riftbound-origins-card-errata/"
def riftboundProductsUrl : String :=
  "https://playriftbound.com/en-us/news/announcements/products-and-sets-into-2027/"

def riftboundSourceAdapterRegistration : SourceAdapterRegistration where
  adapterVersion := "riftbound-en@1"
  sourceLineage := "riftbound-en"
  supportedGame := "riftbound"
  requestCapacity := 5000
  surfaces := some [("catalogue",riftboundInventoryUrl),("errata",riftboundOriginsErrataUrl),
    ("products",riftboundProductsUrl)]
  coverageContracts := some [
    ("public-english-inventory",scope [("catalogue",riftboundInventoryUrl)]),
    ("origins-errata",{ scope [("errata",riftboundOriginsErrataUrl)] with
      reconciliationCapability := some .errata }),
    ("announced-products-2027",scope [("products",riftboundProductsUrl)])]

def riftboundDbSurfaces : List (String × String) :=
  [("facets","https://www.riftbound-db.com/api/facets"),
    ("promo-page","https://www.riftbound-db.com/api/cards?set=PR&page=1&pageSize=3"),
    ("bird-page","https://www.riftbound-db.com/api/cards?q=Bird&page=1&pageSize=3")]

def riftboundDbSourceAdapterRegistration : SourceAdapterRegistration where
  adapterVersion := "riftbound-db-en@1"
  sourceLineage := "riftbound-db-en"
  supportedGame := "riftbound"
  requestCapacity := 7
  surfaces := some riftboundDbSurfaces
  coverageContracts := some [("promo-overlap-pilot",scope riftboundDbSurfaces)]

def piltoverPilotSurfaces : List (String × String) :=
  [("gallery","https://piltoverarchive.com/cards")]

def piltoverArchiveSourceAdapterRegistration : SourceAdapterRegistration where
  adapterVersion := "piltover-archive-en@1"
  sourceLineage := "piltover-archive-en"
  supportedGame := "riftbound"
  requestCapacity := 1400
  surfaces := some piltoverPilotSurfaces
  coverageContracts := some [("promo-lead-pilot",scope piltoverPilotSurfaces),
    ("gallery-census",scope [("gallery-census","https://piltoverarchive.com/cards?page=1")])]

def hexdeckPilotSurfaces : List (String × String) :=
  [("set-slice",
      "https://www.hexdeck.io/cards?displayFormat=Images&page=1&sortDirection=Ascending&sortField=Set"),
    ("token-page",
      "https://www.hexdeck.io/cards?displayFormat=Images&page=7&sortDirection=Ascending&sortField=Set")]

def hexdeckSourceAdapterRegistration : SourceAdapterRegistration where
  adapterVersion := "hexdeck-en@1"
  sourceLineage := "hexdeck-en"
  supportedGame := "riftbound"
  requestCapacity := 1100
  surfaces := some hexdeckPilotSurfaces
  coverageContracts := some [("set-slice-pilot",scope hexdeckPilotSurfaces),
    ("search-census",scope [("search-census",
      "https://www.hexdeck.io/cards?displayFormat=Images&page=1&sortField=Set&sortDirection=Ascending")])]

def scryfallSelectedRecords : List String :=
  ["6904ea20-e504-47da-95a0-08739fdde260","8de2ff37-fdb7-4f77-9d48-e99afac9a79e",
    "7f57005c-414d-4c83-9b4f-cd26e547d54d","a33fda72-e61d-478f-bc33-ff1a23b5f45b"]

def scryfallBulkSurfaces : List (String × String) :=
  [("bulk-data","https://api.scryfall.com/bulk-data")]

def scryfallSourceAdapterRegistration : SourceAdapterRegistration where
  adapterVersion := "scryfall-magic-en@1"
  sourceLineage := "scryfall-magic-en"
  supportedGame := "magic"
  requestCapacity := 108691
  groups := true
  surfaces := some scryfallBulkSurfaces
  coverageContracts := some [
    ("representative-english-paper",
      scope (scryfallSelectedRecords.map fun id => (id,"https://api.scryfall.com/cards/"++id))),
    ("facts-only",{ scope scryfallBulkSurfaces with acquiredDiscoveryRoles := some [.listing] }),
    ("image-tranche",{ scope scryfallBulkSurfaces with
      acquiredDiscoveryRoles := some [.listing,.image]
      selectableDiscoveryRoles := some [.image] })]

def tcgdexCardSurfaces : List (String × String) :=
  [("svp-051","https://api.tcgdex.net/v2/en/cards/svp-051"),
    ("base1-4","https://api.tcgdex.net/v2/en/cards/base1-4")]

def tcgdexPokemonSourceAdapterRegistration : SourceAdapterRegistration where
  adapterVersion := "tcgdex-pokemon-en@1"
  sourceLineage := "tcgdex-pokemon-en"
  supportedGame := "pokemon"
  requestCapacity := 45000
  surfaces := some tcgdexCardSurfaces
  coverageContracts := some [
    ("english-declared-catalogue",
      scope [("english-set-inventory","https://api.tcgdex.net/v2/en/sets")]),
    ("snorlax-charizard-pilot",scope tcgdexCardSurfaces)]

def pokemonProductCardSurfaces : List (String × String) :=
  [("snorlax-product","https://www.pokemon.com/us/pokemon-tcg/product-gallery/" ++
      "scarlet-violet-151-pokemon-center-elite-trainer-box"),
    ("garchomp-card","https://www.pokemon.com/us/pokemon-tcg/pokemon-cards/series/swsh9/109")]
def pokemonErrataSurfaces : List (String × String) :=
  [("errata","https://www.pokemon.com/us/news/" ++
    "errata-for-garchomp-in-pokemon-tcg-sword-shield-brilliant-stars")]

def pokemonOfficialSourceAdapterRegistration : SourceAdapterRegistration where
  adapterVersion := "pokemon-official-en@1"
  sourceLineage := "pokemon-official-en"
  supportedGame := "pokemon"
  requestCapacity := 4
  surfaces := some (pokemonProductCardSurfaces++pokemonErrataSurfaces)
  coverageContracts := some [
    ("card-product-correction-pilot",scope (pokemonProductCardSurfaces++pokemonErrataSurfaces)),
    ("card-product-pilot",scope pokemonProductCardSurfaces),
    ("garchomp-correction",{ scope pokemonErrataSurfaces with
      reconciliationCapability := some .errata })]

def onePieceErrataUrl : String := "https://en.onepiece-cardgame.com/rules/errata_card/"

def onePieceOfficialErrataRegistration : SourceAdapterRegistration where
  adapterVersion := "one-piece-official-errata-html@1"
  sourceLineage := "one-piece-en"
  supportedGame := "one-piece"
  requestCapacity := 5000
  requestSurface := some onePieceErrataUrl
  reconciliationCapability := .errata
  surfaces := some [("errata",onePieceErrataUrl)]

def onePieceCatalogueSurface (number : String) : String × String :=
  (number.toLower++"-catalogue","https://en.onepiece-cardgame.com/cardlist/?freewords="++number)
def onePieceEventSurface : String × String :=
  ("store-championship-p001",
    "https://en.onepiece-cardgame.com/events/2023/championship/store_championship_wave1.php")

def onePieceCoverageContracts : List (String × CoverageContract) :=
  [("p-001-catalogue",scope [onePieceCatalogueSurface "P-001"]),
    ("p-001-catalogue-and-corroboration",
      scope [onePieceCatalogueSurface "P-001",onePieceEventSurface]),
    ("five-card-pilot-and-corroboration",
      scope ((["P-001","ST01-001","OP16-002","OP16-019","OP16-021"].map onePieceCatalogueSurface)++
        [onePieceEventSurface]))]

def onePieceAdapter : SourceAdapterRegistration :=
  bandaiAdapter "one-piece-en@6" "one-piece-en" "one-piece" 10000 (some onePieceCoverageContracts)
    [("card-list","https://en.onepiece-cardgame.com/cardlist/?series=569116"),
      ("products","https://en.onepiece-cardgame.com/products/"),
      ("releases","https://en.onepiece-cardgame.com/products/"),("errata",onePieceErrataUrl)]

def fusionWorldAdapter : SourceAdapterRegistration :=
  bandaiAdapter "fusion-world-en@9" "fusion-world-en" "fusion-world" 15000 none
    [("card-search",
        "https://www.dbs-cardgame.com/fw/en/cardlist/?search=true&category%5B0%5D=583301"),
      ("products","https://www.dbs-cardgame.com/fw/en/products/"),
      ("releases","https://www.dbs-cardgame.com/fw/en/products/")]

def digimonAdapter : SourceAdapterRegistration :=
  bandaiAdapter "digimon-en@7" "digimon-en" "digimon" 5000 none
    [("card-list","https://world.digimoncard.com/cards/index.php?search=true"),
      ("products","https://world.digimoncard.com/products/"),
      ("releases","https://world.digimoncard.com/products/"),
      ("errata","https://world.digimoncard.com/rule/errata_card/")]

def gundamAdapter (sourceLineage locale : String) : SourceAdapterRegistration :=
  bandaiAdapter (sourceLineage++"@7") sourceLineage "gundam" 5000 none
    [("packages","https://www.gundam-gcg.com/"++locale++"/cards/index.php"),
      ("products","https://www.gundam-gcg.com/"++locale++"/products/list.php"),
      ("releases","https://www.gundam-gcg.com/"++locale++"/products/list.php"),
      ("errata","https://www.gundam-gcg.com/"++locale++"/news/?subcategory=news&tag=all&page=1")]

/-- Every installed registration; none is superseded or unavailable, so all are active. -/
def installedSourceAdapterRegistrations : List SourceAdapterRegistration :=
  [limitlessOnePieceSourceAdapterRegistration,riftboundSourceAdapterRegistration,
    riftboundDbSourceAdapterRegistration,piltoverArchiveSourceAdapterRegistration,
    hexdeckSourceAdapterRegistration,scryfallSourceAdapterRegistration,
    tcgdexPokemonSourceAdapterRegistration,pokemonOfficialSourceAdapterRegistration,
    onePieceOfficialErrataRegistration,onePieceAdapter,fusionWorldAdapter,digimonAdapter,
    gundamAdapter "gundam-en-asia" "asia-en",gundamAdapter "gundam-en-us" "en"]

/-- `sourceLineages`: each lineage with its game. -/
def sourceLineages : List (String × String) :=
  [("tcgdex-pokemon-en","pokemon"),("pokemon-official-en","pokemon"),("scryfall-magic-en","magic"),
    ("riftbound-en","riftbound"),("riftbound-db-en","riftbound"),
    ("piltover-archive-en","riftbound"),("hexdeck-en","riftbound"),("one-piece-en","one-piece"),
    ("limitless-one-piece-en","one-piece"),("fusion-world-en","fusion-world"),
    ("digimon-en","digimon"),("gundam-en-asia","gundam"),("gundam-en-us","gundam")]

/-- The games that have a profile; the profile of each is its game with `@1`. -/
def profiledGames : List String :=
  ["magic","pokemon","riftbound","one-piece","fusion-world","digimon","gundam"]

def gameProfileForGame (game : String) : Option String :=
  (profiledGames.find? (·=game)).map (·++"@1")

def requiredSourceAdapter (adapterVersion : String) : Except Failure SourceAdapterRegistration :=
  match installedSourceAdapterRegistrations.find? (·.adapterVersion=adapterVersion) with
  | some a => .ok a
  | none => .error (.problem 422 "adapter_not_supported"
      "The requested Official Source adapter version is not installed.")

def requiredActiveSourceAdapter (adapterVersion : String) :
    Except Failure SourceAdapterRegistration :=
  match installedSourceAdapterRegistrations.find? (·.adapterVersion=adapterVersion) with
  | some a => .ok a
  | none => .error (.problem 422 "adapter_not_supported"
      "The requested Official Source adapter version is not active for new collection.")

/-- The members every object inherits. -/
def inheritedMembers : List String :=
  ["constructor","__defineGetter__","__defineSetter__","hasOwnProperty","__lookupGetter__",
    "__lookupSetter__","isPrototypeOf","propertyIsEnumerable","toString","valueOf","__proto__",
    "toLocaleString"]

/-- `coverageContracts?.[subset]`. The value of an inherited member is truthy and has none of the
fields of a contract. -/
def coverageContract (contracts : Option (List (String × CoverageContract))) (subset : String) :
    Option CoverageContract :=
  contracts.bind fun contracts =>
    match contracts.lookup subset with
    | some contract => some contract
    | none => if subset∈inheritedMembers then some {} else none

def sourceAdapterForCoverage (adapter : SourceAdapterRegistration) (subset : String) :
    Except Failure SourceAdapterRegistration :=
  if subset="complete" then .ok adapter
  else match coverageContract adapter.coverageContracts subset with
  | none => .error (.problem 422 "unsupported_source_subset"
      "The adapter has no independently complete contract for this named subset.")
  | some contract => .ok { adapter with
      surfaces := contract.surfaces
      acquiredDiscoveryRoles := contract.acquiredDiscoveryRoles.orElse fun _ =>
        adapter.acquiredDiscoveryRoles
      selectableDiscoveryRoles := contract.selectableDiscoveryRoles.orElse fun _ =>
        adapter.selectableDiscoveryRoles
      requestUrlForDiscovery := none
      reconciliationCapability := contract.reconciliationCapability.getD
        adapter.reconciliationCapability }

def assertAdapterBinding (adapter : SourceAdapterRegistration)
    (sourceLineage supportedGame : String) : Except Failure Unit :=
  demand (sourceLineages.any (·=(adapter.sourceLineage,adapter.supportedGame)) &&
      gameProfileForGame adapter.supportedGame=some adapter.gameProfileVersion &&
      adapter.sourceLineage=sourceLineage && adapter.supportedGame=supportedGame)
    (.problem 422 "adapter_binding_mismatch"
      "The adapter version is not registered for this Supported Game, Game Profile, and Official Source lineage.")

/-- `/^[A-Za-z0-9][A-Za-z0-9._:@-]*$/` and the length bounds. -/
def isIdentifier (value : String) : Bool :=
  let word := fun c : Char => ('a' ≤ c && c ≤ 'z') || ('A' ≤ c && c ≤ 'Z') || ('0' ≤ c && c ≤ '9')
  match value.toList with
  | [] => false
  | c::cs => word c && cs.all (fun c => word c || c∈['.','_',':','@','-']) && value.length ≤ 200

def assertIdentifier (value field : String) : Except Failure Unit :=
  demand (isIdentifier value)
    (.problem 422 "invalid_parameter" (field++" is not a valid opaque identity."))

structure Url where
  href : String
  protocol : String
  username : String
  password : String
  hash : String
  deriving DecidableEq

abbrev Headers := List (String × String)

/-- What the plans take from the platform: the URL parser, the canonical text of headers and the
digests of a request. -/
structure Platform where
  url : String → Option Url
  headersJson : Headers → String
  representationFingerprint : String → Headers → String
  /-- The digest of a discovered request's lineage, role, key, URL and headers. -/
  discoveryDigest : String → DiscoveredRole → Option String → String → Headers → String

structure EvidencePlanRequest where
  id : String
  url : String
  headers : Headers
  representation_fingerprint : String

inductive Participation where
  | required | optional
  deriving DecidableEq

structure SourceCoverage where
  area : String
  subset : String
  deriving DecidableEq

structure DiscoverySelection where
  role : DiscoveredRole
  groups : Option (List String)
  maximum_requests : Option Nat
  deriving DecidableEq

structure EvidencePlan where
  participation : Participation
  coverage : SourceCoverage
  supported_game : String
  source_lineage : String
  game_profile_version : String
  adapter_version : String
  requests : List EvidencePlanRequest
  discovery_selection : Option DiscoverySelection

def redirectDiscoveredFailureCode : String := "source_request_redirect_discovered"

def toleratedPrintingImageFailureCodes : List String :=
  ["source_image_retries_exhausted","source_image_not_found","source_image_rejected",
    "source_image_redirected","source_image_revalidation_rejected","source_image_body_contract"]

/-- `requestId.split(":", 1)[0]`. -/
def lineagePart (requestId : String) : String :=
  String.ofList (requestId.toList.takeWhile (·≠ ':'))

/-- The one plan that names a request, or where none does the one plan of its lineage. -/
def soleOwner {P : Type} (names named : P → Bool) (plans : List P) : Option P :=
  match plans.filter names,plans.filter named with
  | [],[plan] => some plan
  | [plan],_ => some plan
  | _,_ => none

theorem soleOwner_some {P : Type} {names named : P → Bool} {plans : List P} {plan : P} :
    soleOwner names named plans=some plan ↔ plans.filter names=[plan] ∨
      plans.filter names=[] ∧ plans.filter named=[plan] := by
  rw [soleOwner]
  split
  · rename_i hnone hone
    simp [hnone,hone]
  · rename_i hone
    simp [hone]
  · rename_i hone hnone
    constructor
    · intro h
      cases h
    · intro h
      obtain h | h := h
      · exact (hone plan h).elim
      · exact (hnone plan h.1 h.2).elim

structure RequestInput where
  id : String
  url : String
  method : Option String := none
  headers : Headers := []

structure EvidencePlanInput where
  participation : Option String := none
  subset : Option String := none
  discovery_selection : Option DiscoverySelection := none
  supported_game : String
  source_lineage : String
  adapter_version : String
  requests : List RequestInput

def invalid (detail : String) : Failure := .problem 422 "invalid_parameter" detail

/-- `/^[a-z0-9][a-z0-9._-]{0,63}$/`. -/
def isGroup (group : String) : Bool :=
  let word := fun c : Char => ('a' ≤ c && c ≤ 'z') || ('0' ≤ c && c ≤ '9')
  match group.toList with
  | [] => false
  | c::cs => word c && cs.all (fun c => word c || c∈['.','_','-']) && cs.length ≤ 63

def validatedDiscoverySelection (adapter : SourceAdapterRegistration) (value : DiscoverySelection) :
    Except Failure DiscoverySelection := do
  demand ((adapter.selectableDiscoveryRoles.getD []).contains value.role)
    (.problem 422 "unsupported_discovery_selection"
      "The plan's scope does not permit selecting discovered requests of this role.")
  demand (value.groups.isSome || value.maximum_requests.isSome)
    (invalid "discovery_selection must select by groups, maximum_requests or both.")
  let groups ← match value.groups with
    | none => .ok none
    | some groups => do
      demand adapter.groups (.problem 422 "unsupported_discovery_selection"
        "The adapter declares no selection group for discovered requests.")
      demand (decide (1 ≤ groups.length ∧ groups.length ≤ 2000))
        (invalid "discovery_selection.groups must list between 1 and 2000 groups.")
      demand (groups.all isGroup)
        (invalid "discovery_selection.groups must be lowercase source group codes.")
      let sorted := groups.dedup.insertionSort (· ≤ ·)
      demand (sorted.length=groups.length) (invalid "discovery_selection.groups must be unique.")
      .ok (some sorted)
  demand (value.maximum_requests.all fun maximum =>
      decide (1 ≤ maximum ∧ maximum ≤ adapter.requestCapacity))
    (invalid "discovery_selection.maximum_requests must be a positive integer within the Request Capacity.")
  .ok { value with groups := groups }

def allowedRequestHeaders : List String := ["accept","accept-language","user-agent"]

def isJsSpace (c : Char) : Bool :=
  [9,10,11,12,13,32,160,0x1680,0x2028,0x2029,0x202f,0x205f,0x3000,0xfeff].contains c.toNat ||
    (0x2000 ≤ c.toNat && c.toNat ≤ 0x200a)

def jsTrim (text : List Char) : List Char :=
  ((text.dropWhile isJsSpace).reverse.dropWhile isJsSpace).reverse

/-- The user agent without the tokens that name a request's role or surface. -/
def canonicalOfficialSourceUserAgent (value : String) : String :=
  let marks := ["request-role=".toList,"request-surface=".toList]
  let tokens := (value.toList.splitOn ';').map jsTrim
  let kept := tokens.filter fun token =>
    !token.isEmpty && !marks.any (·.isPrefixOf (token.map Char.toLower))
  String.ofList ([';',' '].intercalate kept)

/-- `headers[name] = value`. -/
def setHeader (headers : Headers) (name value : String) : Headers :=
  if headers.any (·.1=name) then headers.map fun h => if h.1=name then (name,value) else h
  else headers++[(name,value)]

def normalizedHeaders (input : Headers) : Except Failure Headers :=
  input.foldlM (fun headers (name,value) => do
    let normalizedName := name.toLower
    demand (allowedRequestHeaders.contains normalizedName)
      (.problem 422 "unsafe_source_request_header"
        ("Official Source request header "++name++" is not permitted."))
    if normalizedName="user-agent" then
      let canonical := canonicalOfficialSourceUserAgent value
      if canonical.length=0 then .ok headers else .ok (setHeader headers normalizedName canonical)
    else .ok (setHeader headers normalizedName value)) []

section Validation

variable (platform : Platform)

def validOfficialSourceUrl (value : String) : Except Failure Url :=
  match platform.url value with
  | none => .error (invalid "Official Source request URL is invalid.")
  | some url =>
    if url.protocol="https:" ∧ url.username="" ∧ url.password="" ∧ url.hash="" then .ok url
    else .error (invalid "Official Source request URLs must be credential-free HTTPS URLs.")

def assertAdapterRequestSurface (adapter : SourceAdapterRegistration) (url : Url) :
    Except Failure Unit :=
  match adapter.requestSurface with
  | none => .ok ()
  | some exact => demand (url.href=exact) (.problem 422 "official_source_surface_mismatch"
      ("The Official Errata adapter accepts only "++exact++"."))

def assertBoundedOfficialSourceRequest (url : String) (headers : Headers) (discovered : Bool) :
    Except Failure Unit :=
  demand (url.utf8ByteSize ≤ 2048 && (platform.headersJson headers).utf8ByteSize ≤ 2048)
    (.problem 422 (if discovered then "source_discovery_failed" else "invalid_parameter")
      "Official Source request URL and headers must fit the bounded Workflow identity contract.")

def validateRequest (adapter : SourceAdapterRegistration) (requests : List EvidencePlanRequest)
    (sourceRequest : RequestInput) : Except Failure (List EvidencePlanRequest) := do
  assertIdentifier sourceRequest.id "requests[].id"
  demand (!(requests.map (·.id)).contains sourceRequest.id)
    (invalid "Each Official Source request identity must be unique.")
  demand (sourceRequest.method.all (·="GET"))
    (invalid "Official Source evidence capture currently permits only GET.")
  let url ← validOfficialSourceUrl platform sourceRequest.url
  assertAdapterRequestSurface adapter url
  let headers ← normalizedHeaders sourceRequest.headers
  assertBoundedOfficialSourceRequest platform url.href headers false
  .ok (requests++[{
    id := sourceRequest.id
    url := url.href
    headers := headers
    representation_fingerprint := platform.representationFingerprint url.href headers }])

/-- `new URL(text).href`, with the exception of a text that is no URL. -/
def hrefOf (text : String) : Except Failure String :=
  match platform.url text with
  | none => .error (.error "Invalid URL")
  | some url => .ok url.href

/-- The roots a scope fixes: one discovery request, or every required surface once. A scope with
neither leaves them free. -/
def assertRoots (adapter : SourceAdapterRegistration) (requests : List EvidencePlanRequest) :
    Except Failure Unit :=
  let actualIds := requests.map (·.id)
  match adapter.requestUrlForDiscovery,adapter.surfaces with
  | some discoveryUrl,_ => do
    demand (actualIds.length=1 && actualIds.contains (adapter.sourceLineage++":discovery"))
      (.problem 422 "incomplete_source_plan"
        "A complete Official Source Evidence Plan must contain its one exact discovery request.")
    requests.forM fun sourceRequest => do
      let actual ← hrefOf platform sourceRequest.url
      let expected ← hrefOf platform discoveryUrl
      demand (actual=expected) (.problem 422 "source_surface_binding_mismatch"
        "The discovery request must use its exact Official Source URL contract.")
  | none,some surfaces => do
    let expectedIds := surfaces.map fun surface => adapter.sourceLineage++":"++surface.1
    demand (actualIds.length=expectedIds.length && expectedIds.all actualIds.contains)
      (.problem 422 "incomplete_source_plan"
        "The Evidence Plan must contain every exact required Official Source surface once.")
    requests.forM fun sourceRequest => do
      let surface := String.ofList
        (sourceRequest.id.toList.drop (adapter.sourceLineage++":").length)
      let contract ← match surfaces.lookup surface with
        | some url => .ok url
        | none => .error (.error "Unknown surface.")
      let actual ← hrefOf platform sourceRequest.url
      let expected ← hrefOf platform contract
      demand (actual=expected) (.problem 422 "source_surface_binding_mismatch"
        "Every Source Request identity must use its exact Official Source surface URL contract.")
  | none,none => .ok ()

def validateEvidencePlan (idempotencyKey : String) (request : EvidencePlanInput) :
    Except Failure (SourceAdapterRegistration × EvidencePlan) := do
  assertIdentifier request.supported_game "supported_game"
  assertIdentifier request.source_lineage "source_lineage"
  assertIdentifier request.adapter_version "adapter_version"
  assertIdentifier idempotencyKey "idempotency_key"
  let registered ← requiredActiveSourceAdapter request.adapter_version
  let adapter ← sourceAdapterForCoverage registered (request.subset.getD "complete")
  demand (request.participation.all fun p => p="required" || p="optional")
    (.problem 422 "invalid_participation"
      "Participation must be required or optional before collection.")
  assertAdapterBinding adapter request.source_lineage request.supported_game
  demand (decide (0<request.requests.length ∧ request.requests.length ≤ 100))
    (invalid "requests must contain between 1 and 100 Official Source requests.")
  let requests ← request.requests.foldlM (validateRequest platform adapter) []
  assertRoots platform adapter requests
  let selection ← request.discovery_selection.mapM (validatedDiscoverySelection adapter)
  .ok (adapter,{
    participation := if request.participation=some "optional" then .optional else .required
    coverage := ⟨adapter.reconciliationCapability.text,request.subset.getD "complete"⟩
    supported_game := adapter.supportedGame
    source_lineage := adapter.sourceLineage
    game_profile_version := adapter.gameProfileVersion
    adapter_version := adapter.adapterVersion
    requests := requests
    discovery_selection := selection })

/-- All plans for one Source Lineage agree on adapter, participation, coverage and selection; the
canonical texts the source compares are equal exactly when these records are. -/
def agrees (existing plan : EvidencePlan) : Bool :=
  existing.source_lineage≠plan.source_lineage ||
    (existing.adapter_version=plan.adapter_version && existing.participation=plan.participation &&
      existing.coverage=plan.coverage && existing.discovery_selection=plan.discovery_selection)

/-- The plans so far, with the capability of each one's adapter. -/
structure Accepted where
  plans : List EvidencePlan := []
  capabilities : List Capability := []

def rootIds (plans : List EvidencePlan) : List String :=
  plans.flatMap fun plan => plan.requests.map (·.id)

def validateNext (idempotencyKey : String) (s : Accepted) (input : EvidencePlanInput) :
    Except Failure Accepted := do
  let (adapter,plan) ← validateEvidencePlan platform idempotencyKey input
  demand ((plan.requests.map (·.id)).all fun id => !(rootIds s.plans).contains id)
    (invalid "Source Request identities must be unique across all Evidence Plans.")
  demand (s.plans.all (agrees · plan)) (.problem 422 "duplicate_source_coverage"
    "All plans for one Source Lineage must agree on immutable coverage, adapter and participation.")
  .ok ⟨s.plans++[plan],s.capabilities++[adapter.reconciliationCapability]⟩

def validateEvidencePlans (idempotencyKey : String) (inputs : List EvidencePlanInput) :
    Except Failure (List EvidencePlan) := do
  assertIdentifier idempotencyKey "idempotency_key"
  demand (decide (1 ≤ inputs.length ∧ inputs.length ≤ 20))
    (invalid "plans must contain between 1 and 20 Evidence Plans.")
  let accepted ← inputs.foldlM (validateNext platform idempotencyKey) {}
  demand (decide (accepted.capabilities.dedup.length ≤ 1))
    (.problem 422 "heterogeneous_reconciliation_coverage"
      "One Evidence Plan cannot mix Errata-only and complete Catalogue coverage.")
  .ok accepted.plans

end Validation

/-- A request of a plan as the checks leave it: its URL was read from some text and both it and
its headers are within the bounds. -/
def EvidencePlanRequest.Checked (platform : Platform) (request : EvidencePlanRequest) : Prop :=
  ∃text url,platform.url text=some url ∧ url.href=request.url ∧
    assertBoundedOfficialSourceRequest platform request.url request.headers false=.ok ()

section Accepted

variable {platform : Platform}
variable {key : String}

theorem bounded_again {url : String} {headers : Headers} {a b : Bool}
    (h : assertBoundedOfficialSourceRequest platform url headers a=.ok ()) :
    assertBoundedOfficialSourceRequest platform url headers b=.ok () := by
  have hok := demand_ok h
  rw [assertBoundedOfficialSourceRequest,hok]
  rfl

theorem validOfficialSourceUrl_ok {value : String} {url : Url}
    (h : validOfficialSourceUrl platform value=.ok url) : platform.url value=some url := by
  unfold validOfficialSourceUrl at h
  cases hu : platform.url value with
  | none => simp [hu] at h
  | some u =>
    simp only [hu] at h
    split at h
    · rw [Except.ok.inj h]
    · cases h

variable {adapter : SourceAdapterRegistration}

theorem validateRequest_ok {before after : List EvidencePlanRequest} {input : RequestInput}
    (h : validateRequest platform adapter before input=.ok after) :
    ∃request : EvidencePlanRequest,after=before++[request] ∧ request.id=input.id ∧
      input.id∉before.map (·.id) ∧ request.Checked platform := by
  unfold validateRequest at h
  obtain ⟨_,-,h⟩ := bind_ok h
  obtain ⟨_,hnew,h⟩ := bind_ok h
  obtain ⟨_,-,h⟩ := bind_ok h
  obtain ⟨url,hurl,h⟩ := bind_ok h
  obtain ⟨_,-,h⟩ := bind_ok h
  obtain ⟨headers,-,h⟩ := bind_ok h
  obtain ⟨_,hbound,h⟩ := bind_ok h
  have hfresh : input.id∉before.map (·.id) := by simpa using demand_ok hnew
  exact ⟨_,(Except.ok.inj h).symm,rfl,hfresh,input.url,url,validOfficialSourceUrl_ok hurl,rfl,hbound⟩

theorem validateRequests_ok {inputs : List RequestInput} {requests : List EvidencePlanRequest}
    (h : inputs.foldlM (validateRequest platform adapter) []=.ok requests) :
    requests.map (·.id)=inputs.map (·.id) ∧ (requests.map (·.id)).Nodup ∧
      ∀request∈requests,request.Checked platform := by
  refine foldlM_ok h (P := fun done requests => requests.map (·.id)=done.map (·.id) ∧
    (requests.map (·.id)).Nodup ∧ ∀request∈requests,request.Checked platform) ?_ ?_
  · simp
  · rintro done input rest before after - ⟨hids,hnodup,hchecked⟩ hstep
    obtain ⟨request,rfl,hid,hfresh,hrequest⟩ := validateRequest_ok hstep
    refine ⟨by simp [hids,hid],?_,?_⟩
    · rw [map_append,nodup_append]
      refine ⟨hnodup,by simp,?_⟩
      rintro a ha b hb rfl
      simp only [map_cons,map_nil,mem_singleton] at hb
      exact hfresh (hid ▸ hb ▸ ha)
    · intro r hr
      rcases mem_append.mp hr with hr | hr
      · exact hchecked r hr
      · rw [mem_singleton.mp hr]
        exact hrequest

theorem coverage_keeps {registered : SourceAdapterRegistration} {subset : String}
    (h : sourceAdapterForCoverage registered subset=.ok adapter) :
    adapter.adapterVersion=registered.adapterVersion ∧
      adapter.sourceLineage=registered.sourceLineage := by
  unfold sourceAdapterForCoverage at h
  split at h
  · rw [Except.ok.inj h]
    exact ⟨rfl,rfl⟩
  · split at h
    · cases h
    · rw [← Except.ok.inj h]
      exact ⟨rfl,rfl⟩

theorem requiredActive_ok {version : String} {a : SourceAdapterRegistration}
    (h : requiredActiveSourceAdapter version=.ok a) : a∈installedSourceAdapterRegistrations ∧
    a.adapterVersion=version ∧ requiredSourceAdapter version=.ok a := by
  unfold requiredActiveSourceAdapter at h
  cases hf : installedSourceAdapterRegistrations.find? (·.adapterVersion=version) with
  | none => simp [hf] at h
  | some b =>
    simp only [hf] at h
    obtain rfl := Except.ok.inj h
    refine ⟨List.mem_of_find?_eq_some hf,by simpa using List.find?_some hf,?_⟩
    rw [requiredSourceAdapter,hf]

/-- What an accepted plan has of its input and of the registry. -/
structure EvidencePlan.Valid (platform : Platform) (input : EvidencePlanInput)
    (plan : EvidencePlan) : Prop where
  lineage : plan.source_lineage=input.source_lineage
  subset : plan.coverage.subset=input.subset.getD "complete"
  adapter : ∃registered∈installedSourceAdapterRegistrations,∃covered,
    requiredSourceAdapter plan.adapter_version=.ok registered ∧
    sourceAdapterForCoverage registered plan.coverage.subset=.ok covered ∧
    plan.source_lineage=registered.sourceLineage ∧
    assertRoots platform covered plan.requests=.ok ()
  some_request : plan.requests≠[]
  distinct : (plan.requests.map (·.id)).Nodup
  checked : ∀request∈plan.requests,request.Checked platform

variable {input : EvidencePlanInput}

theorem validateEvidencePlan_ok {plan : EvidencePlan}
    (h : validateEvidencePlan platform key input=.ok (adapter,plan)) :
    plan.Valid platform input := by
  unfold validateEvidencePlan at h
  obtain ⟨_,-,h⟩ := bind_ok h
  obtain ⟨_,-,h⟩ := bind_ok h
  obtain ⟨_,-,h⟩ := bind_ok h
  obtain ⟨_,-,h⟩ := bind_ok h
  obtain ⟨registered,hregistered,h⟩ := bind_ok h
  obtain ⟨covered,hcovered,h⟩ := bind_ok h
  obtain ⟨_,-,h⟩ := bind_ok h
  obtain ⟨_,hbinding,h⟩ := bind_ok h
  obtain ⟨_,hcount,h⟩ := bind_ok h
  obtain ⟨requests,hrequests,h⟩ := bind_ok h
  obtain ⟨_,hroots,h⟩ := bind_ok h
  obtain ⟨selection,-,h⟩ := bind_ok h
  obtain ⟨rfl,rfl⟩ := Prod.mk.inj (Except.ok.inj h)
  obtain ⟨hids,hnodup,hchecked⟩ := validateRequests_ok hrequests
  obtain ⟨hinstalled,hversion,hagain⟩ := requiredActive_ok hregistered
  obtain ⟨hsame,hlineage⟩ := coverage_keeps hcovered
  have hbound := demand_ok hbinding
  simp only [Bool.and_eq_true,decide_eq_true_eq] at hbound
  have hlen : requests.length=input.requests.length := by simpa using congrArg List.length hids
  have hpos := of_decide_eq_true (demand_ok hcount)
  refine ⟨hbound.1.2,rfl,⟨registered,hinstalled,covered,?_,hcovered,hlineage,hroots⟩,?_,hnodup,
    hchecked⟩
  · show requiredSourceAdapter covered.adapterVersion=.ok registered
    rw [hsame,hversion]
    exact hagain
  · intro hnil
    have hzero : requests.length=0 := by simp [show requests=[] from hnil]
    omega

theorem validateNext_ok {before after : Accepted}
    (h : validateNext platform key before input=.ok after) : ∃plan,plan.Valid platform input ∧
    after.plans=before.plans++[plan] ∧ (∀id∈plan.requests.map (·.id),id∉rootIds before.plans) ∧
    ∀existing∈before.plans,agrees existing plan=true := by
  unfold validateNext at h
  obtain ⟨⟨adapter,plan⟩,hplan,h⟩ := bind_ok h
  obtain ⟨_,hnew,h⟩ := bind_ok h
  obtain ⟨_,hagree,h⟩ := bind_ok h
  refine ⟨plan,validateEvidencePlan_ok hplan,by rw [← Except.ok.inj h],?_,?_⟩
  · intro id hid
    have hall := all_eq_true.mp (demand_ok hnew) id hid
    simpa using hall
  · exact all_eq_true.mp (demand_ok hagree)

theorem rootIds_append (a b : List EvidencePlan) : rootIds (a++b)=rootIds a++rootIds b := by
  simp [rootIds]

theorem rootIds_singleton (plan : EvidencePlan) : rootIds [plan]=plan.requests.map (·.id) := by
  simp [rootIds]

/-- An accepted list: every plan is valid for its input, no identity is given twice and the plans
of one lineage agree. -/
structure Accepts (platform : Platform) (inputs : List EvidencePlanInput)
    (plans : List EvidencePlan) : Prop where
  valid : List.Forall₂ (fun input plan => plan.Valid platform input) inputs plans
  distinct : (rootIds plans).Nodup
  agree : plans.Pairwise fun a b => agrees a b=true

variable {plans : List EvidencePlan} {inputs : List EvidencePlanInput}

theorem validateEvidencePlans_ok (h : validateEvidencePlans platform key inputs=.ok plans) :
    Accepts platform inputs plans ∧ inputs≠[] := by
  unfold validateEvidencePlans at h
  obtain ⟨_,-,h⟩ := bind_ok h
  obtain ⟨_,hcount,h⟩ := bind_ok h
  obtain ⟨accepted,haccepted,h⟩ := bind_ok h
  obtain ⟨_,-,h⟩ := bind_ok h
  have hsome := of_decide_eq_true (demand_ok hcount)
  refine ⟨?_,ne_nil_of_length_pos (by omega)⟩
  rw [← Except.ok.inj h]
  refine foldlM_ok haccepted (P := fun done s => Accepts platform done s.plans) ?_ ?_
  · exact ⟨.nil,by simp [rootIds],.nil⟩
  · rintro done input rest before after - hbefore hstep
    obtain ⟨plan,hvalid,hplans,hfresh,hagree⟩ := validateNext_ok hstep
    rw [hplans]
    refine ⟨rel_append hbefore.valid (.cons hvalid .nil),?_,?_⟩
    · rw [rootIds_append,rootIds_singleton,nodup_append]
      refine ⟨hbefore.distinct,hvalid.distinct,?_⟩
      rintro a ha b hb rfl
      exact hfresh a hb ha
    · rw [pairwise_append]
      refine ⟨hbefore.agree,pairwise_singleton _ _,?_⟩
      intro a ha b hb
      rw [mem_singleton.mp hb]
      exact hagree a ha

theorem Accepts.lineages (h : Accepts platform inputs plans) :
    plans.map (·.source_lineage)=inputs.map (·.source_lineage) := by
  obtain ⟨hvalid,-,-⟩ := h
  induction hvalid with
  | nil => rfl
  | cons hplan _ ih => rw [map_cons,map_cons,hplan.lineage,ih]

end Accepted

end CardKeepr.SourceEvidence.Plans
