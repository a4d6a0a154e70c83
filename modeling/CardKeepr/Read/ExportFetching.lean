import CardKeepr.Lib.StableSort
import CardKeepr.Publication.ExportRows
import CardKeepr.Read.CardFollowing
import CardKeepr.Read.CompositionExport

namespace CardKeepr.Read.Exports

open Lib Shared Publication.Export List
open Reconciliation.Identity (registeredSupportedGames)

variable {size length offset : Nat}

theorem registered_spelled : registeredSupportedGames=[js ['m','a','g','i','c'],
    js ['p','o','k','e','m','o','n'],js ['r','i','f','t','b','o','u','n','d'],
    js ['o','n','e','-','p','i','e','c','e'],js ['f','u','s','i','o','n','-','w','o','r','l','d'],
    js ['d','i','g','i','m','o','n'],js ['g','u','n','d','a','m']] := by
  have h1 : "magic".toList=['m','a','g','i','c'] := String.toList_ofList
  have h2 : "pokemon".toList=['p','o','k','e','m','o','n'] := String.toList_ofList
  have h3 : "riftbound".toList=['r','i','f','t','b','o','u','n','d'] := String.toList_ofList
  have h4 : "one-piece".toList=['o','n','e','-','p','i','e','c','e'] := String.toList_ofList
  have h5 : "fusion-world".toList=['f','u','s','i','o','n','-','w','o','r','l','d'] :=
    String.toList_ofList
  have h6 : "digimon".toList=['d','i','g','i','m','o','n'] := String.toList_ofList
  have h7 : "gundam".toList=['g','u','n','d','a','m'] := String.toList_ofList
  simp only [registeredSupportedGames,map_cons,map_nil,Reconciliation.Identity.key,h1,h2,
    h3,h4,h5,h6,h7]

theorem registered_names : ∀g∈registeredSupportedGames,isGameName g=true ∧ (46∉g ∧ g.length ≤ 12) ∧
    [] < textKey g := by
  rw [registered_spelled]
  decide

theorem registered_keys : ∀g∈registeredSupportedGames,∀g'∈registeredSupportedGames,
    textKey g=textKey g' → g=g' := by
  rw [registered_spelled]
  decide

theorem game_text {g g' : SupportedGame} (h : g.text=g'.text) : g=g' := by
  cases g
  cases g'
  simp only at h
  subst h
  rfl

theorem game_key {g g' : SupportedGame} (h : textKey g.text=textKey g'.text) : g=g' :=
  game_text (registered_keys _ g.registered _ g'.registered h)

theorem isOrdinal_decimal (n : Nat) : isOrdinal (decimal n)=true := by
  obtain ⟨u,us,he,hu⟩ := decimal_head n
  have hdigits := decimal_digits n
  rw [he] at hdigits ⊢
  have hfirst : isDigit u=true := hdigits u mem_cons_self
  have hrest : us.all isDigit=true :=
    all_eq_true.mpr fun v hv => hdigits v (mem_cons_of_mem _ hv)
  rw [isOrdinal,hfirst,hrest]
  by_cases hn : n=0
  · subst hn
    have h0 : decimal 0=[48] := decimal_small (by omega)
    rw [h0] at he
    injection he with h1 h2
    rw [← h1,← h2]
    rfl
  · simp [hu hn]

theorem nameParts_component (g : SupportedGame) (n : Nat) :
    nameParts (componentName g n)=some (g.text,n) := by
  obtain ⟨hname,⟨hdot,-⟩,-⟩ := registered_names _ g.registered
  have hother : ∀u∈g.text,(u != 46)=true := fun u hu => bne_iff_ne.mpr fun h => hdot (h▸hu)
  have hspan : (componentName g n).span (· != 46)=(g.text,46::decimal n) := by
    rw [componentName,span_eq_takeWhile_dropWhile,
      takeWhile_append_of_pos hother,dropWhile_append_of_pos hother]
    simp
  rw [nameParts,hspan]
  simp only
  rw [hname,isOrdinal_decimal,digitsValue_decimal]
  rfl

theorem decimal_length {k n : Nat} (h : n < 10^(k+1)) : (decimal n).length ≤ k+1 := by
  induction k generalizing n with
  | zero =>
    rw [decimal_small (by omega)]
    rfl
  | succ k ih =>
    by_cases hn : n < 10
    · rw [decimal_small hn]
      simp
    · have hless : n/10 < 10^(k+1) := by
        rw [Nat.pow_succ] at h
        omega
      have hstep := ih hless
      rw [decimal_step (by omega),length_append]
      simpa using hstep

theorem suffixRange_inside {suffix : Nat} (hs : 0 < size)
    (h : suffixRange suffix size=.slice offset length) : 0 < length ∧ offset+length ≤ size := by
  rw [suffixRange] at h
  split at h
  · cases h
  · injection h with ho hl
    omega

theorem boundedRange_inside {first last : Nat}
    (h : boundedRange first last size=.slice offset length) : 0 < length ∧ offset+length ≤ size := by
  rw [boundedRange] at h
  split at h
  · cases h
  · injection h with ho hl
    omega

theorem parseRange_inside {header : Option JsString} (hs : 0 < size)
    (h : parseRange header size=.slice offset length) : 0 < length ∧ offset+length ≤ size := by
  rw [parseRange.eq_def] at h
  split at h
  · cases h
  · split at h
    · cases h
    · split at h
      · cases h
      · split at h
        · exact suffixRange_inside hs h
        · exact boundedRange_inside h

/-- A published composition whose export is available. -/
structure Exposed (nfc : Nfc) (gzip : Compressor) (c : Catalogue) (r : CatalogueRevision)
    (receipt : Receipt) : Prop where
  written : Written nfc gzip c.db
  revision : (c.catalogue_revisions.find? fun s => decide (s.id=r.id))=some r
  named : ∃uuid : JsString,uuid.length=36 ∧ r.id=js "catrev_".toList++uuid
  published : r.publication_operation_id≠none
  model : r.model_ready=true
  exported : (c.catalogue_exports.find? fun e => decide (e.catalogue_revision_id=r.id))=some receipt
  kept : receipt.maintenance_state=available
  ready : composedPublicExportReady c r=true

/-- The rows of the listing, by game and ordinal. -/
def listed (db : Database) (revisionId : JsString) : List Artifact :=
  (artifacts db revisionId).insertionSort fun a b => artifactKey a ≤ artifactKey b

section
variable {nfc : Nfc} {gzip : Compressor} {c : Catalogue} {r : CatalogueRevision}
  {receipt : Receipt}
variable {a b : Artifact} {request : Request} {text : Bytes → JsString}
  {canonicalEtag : Manifest → JsString} {bucket : Option (JsString → Option Stored)}

theorem mem_artifacts (h : Exposed nfc gzip c r receipt) : a∈artifacts c.db r.id ↔
    ∃m∈c.db.composition,m.catalogue_revision_id=r.id ∧ a.1=c.db.game_candidates m.candidate_id ∧
    a.2∈c.db.components ∧ a.2.candidate_id=m.candidate_id := by
  have hall := (Bool.and_eq_true_iff.mp h.ready).2
  constructor
  · intro ha
    obtain ⟨m,hm,ha⟩ := mem_flatMap.mp ha
    obtain ⟨p,-,ha⟩ := mem_flatMap.mp ha
    obtain ⟨e,he,rfl⟩ := mem_map.mp ha
    have hm := mem_filter.mp hm
    have he := mem_filter.mp he
    exact ⟨m,hm.1,of_decide_eq_true hm.2,rfl,he.1,of_decide_eq_true he.2⟩
  · rintro ⟨m,hm,hrevision,hgame,he,hcandidate⟩
    have hm' : m∈c.db.composition.filter fun m => m.catalogue_revision_id=r.id :=
      mem_filter.mpr ⟨hm,decide_eq_true hrevision⟩
    obtain ⟨p,hp,hv⟩ := any_eq_true.mp (all_eq_true.mp hall m hm')
    refine mem_flatMap.mpr ⟨m,hm',mem_flatMap.mpr ⟨p,mem_filter.mpr ⟨hp,hv⟩,?_⟩⟩
    refine mem_map.mpr ⟨a.2,mem_filter.mpr ⟨he,decide_eq_true hcandidate⟩,?_⟩
    rw [← hgame]

theorem artifact_sound (h : Exposed nfc gzip c r receipt) (ha : a∈artifacts c.db r.id) : Sound
    c.db.game_candidates a.2 ∧ a.1=c.db.game_candidates a.2.candidate_id := by
  obtain ⟨m,-,-,hgame,he,hcandidate⟩ := (mem_artifacts h).mp ha
  exact ⟨h.written.kept.components _ he,by rw [hgame,hcandidate]⟩

theorem artifactKey_lt : artifactKey a < artifactKey b ↔
    textKey a.1.text < textKey b.1.text ∨ (a.1=b.1 ∧ a.2.ordinal < b.2.ordinal) := by
  have hgame : textKey a.1.text=textKey b.1.text ↔ a.1=b.1 :=
    ⟨game_key,fun hg => by rw [hg]⟩
  simp only [artifactKey,cons_lt_cons_iff,hgame]
  simp

theorem artifactKey_eq (hk : artifactKey a=artifactKey b) : a.1=b.1 ∧ a.2.ordinal=b.2.ordinal := by
  injection hk with hg ho
  injection ho with ho _
  injection ho with ho _
  exact ⟨game_key hg,ho⟩

theorem artifacts_keys (h : Exposed nfc gzip c r receipt) :
    (artifacts c.db r.id).Pairwise fun a b => artifactKey a≠artifactKey b := by
  have hkept := h.written.kept
  refine pairwise_flatMap.mpr ⟨fun m hm => pairwise_flatMap.mpr ⟨fun p hp => ?_,?_⟩,?_⟩
  · refine pairwise_map.mpr ((hkept.keys.filter _).imp_of_mem ?_)
    intro a b ha hb hne hkey
    have ha := of_decide_eq_true (mem_filter.mp ha).2
    have hb := of_decide_eq_true (mem_filter.mp hb).2
    exact hne ⟨by rw [ha,hb],(artifactKey_eq hkey).2⟩
  · refine ((pairwise_map.mp hkept.preparations).filter _).imp_of_mem ?_
    intro p q hp hq hne
    have hp := of_decide_eq_true (mem_filter.mp hp).2
    have hq := of_decide_eq_true (mem_filter.mp hq).2
    exact absurd (hp.1.trans hq.1.symm) hne
  · refine (hkept.games.filter _).imp_of_mem ?_
    intro m n hm hn hne x hx y hy hkey
    have hm := of_decide_eq_true (mem_filter.mp hm).2
    have hn := of_decide_eq_true (mem_filter.mp hn).2
    obtain ⟨p,-,hx⟩ := mem_flatMap.mp hx
    obtain ⟨q,-,hy⟩ := mem_flatMap.mp hy
    obtain ⟨e,-,rfl⟩ := mem_map.mp hx
    obtain ⟨f,-,rfl⟩ := mem_map.mp hy
    exact hne ⟨hm.trans hn.symm,(artifactKey_eq hkey).1⟩

theorem listed_sorted (h : Exposed nfc gzip c r receipt) :
    (listed c.db r.id).Pairwise fun a b => artifactKey a < artifactKey b := by
  have htotal : Std.Total fun a b : Artifact => artifactKey a ≤ artifactKey b :=
    ⟨fun a b => le_total _ _⟩
  have htrans : IsTrans Artifact fun a b => artifactKey a ≤ artifactKey b :=
    ⟨fun a b d => le_trans⟩
  have hsorted := pairwise_insertionSort
    (fun a b : Artifact => artifactKey a ≤ artifactKey b) (artifacts c.db r.id)
  have hperm := perm_insertionSort
    (fun a b : Artifact => artifactKey a ≤ artifactKey b) (artifacts c.db r.id)
  have hne := (hperm.pairwise_iff fun hxy => Ne.symm hxy).mpr (artifacts_keys h)
  exact (hsorted.and hne).imp fun hxy => lt_of_le_of_ne hxy.1 hxy.2

theorem mem_listed : a∈listed c.db r.id ↔ a∈artifacts c.db r.id :=
  mem_insertionSort _

theorem composedExportArtifacts_eq (db : Database) (revisionId game : JsString) (ordinal : Int) :
    composedExportArtifacts db revisionId game ordinal=
      ((listed db revisionId).filter (isAfter game ordinal)).take 4 := by
  have htotal : Std.Total fun a b : Artifact => artifactKey a ≤ artifactKey b :=
    ⟨fun a b => le_total _ _⟩
  have htrans : IsTrans Artifact fun a b => artifactKey a ≤ artifactKey b :=
    ⟨fun a b d => le_trans⟩
  rw [composedExportArtifacts,insertionSort_filter,listed]

theorem isAfter_first (a : Artifact) : isAfter [] (-1) a=true :=
  decide_eq_true (.inl (registered_names _ a.1.registered).2.2)

theorem isAfter_key (a x : Artifact) :
    isAfter a.1.text a.2.ordinal x=true ↔ artifactKey a < artifactKey x := by
  rw [isAfter,decide_eq_true_iff,artifactKey_lt]
  have hgame : x.1.text=a.1.text ↔ a.1=x.1 := ⟨fun hg => game_text hg.symm,fun hg => by rw [hg]⟩
  rw [hgame,Int.ofNat_lt]

def cursorMembers (revisionId : JsString) (a : Artifact) : List (JsString×Json) := [
  (js "revision_id".toList,.str revisionId),(js "game".toList,.str a.1.text),
  (js "ordinal".toList,.num a.2.ordinal)]

theorem revision_text : "revision_id".toList=['r','e','v','i','s','i','o','n','_','i','d'] :=
  String.toList_ofList

theorem game_name : "game".toList=['g','a','m','e'] := String.toList_ofList

theorem ordinal_text : "ordinal".toList=['o','r','d','i','n','a','l'] := String.toList_ofList

theorem cursorMembers_own (revisionId : JsString) (a : Artifact) :
    (Json.obj (cursorMembers revisionId a)).Own := by
  refine (all_obj _).mpr ⟨ownKeys_names ?_ ?_,?_⟩
  · simp [cursorMembers,revision_text,game_name,ordinal_text,js]
  · simp [cursorMembers,revision_text,game_name,ordinal_text,js,isDigit]
  · intro m hm
    simp only [cursorMembers,mem_cons,not_mem_nil,or_false] at hm
    rcases hm with rfl | rfl | rfl <;> trivial

theorem cursorMembers_integral (revisionId : JsString) (a : Artifact) :
    (Json.obj (cursorMembers revisionId a)).Integral := by
  refine (all_obj _).mpr ⟨trivial,fun m hm => ?_⟩
  simp only [cursorMembers,mem_cons,not_mem_nil,or_false] at hm
  rcases hm with rfl | rfl | rfl
  · trivial
  · trivial
  · exact Rat.den_natCast _

theorem cursorPlace_members (revisionId : JsString) (hs : a.2.ordinal < 2^53) :
    cursorPlace revisionId (cursorMembers revisionId a)=some (a.1.text,a.2.ordinal) := by
  have h1 : (cursorMembers revisionId a).lookup (js "revision_id".toList)=
      some (.str revisionId) := by
    simp [cursorMembers]
  have h2 : (cursorMembers revisionId a).lookup (js "game".toList)=some (.str a.1.text) := by
    simp [cursorMembers,revision_text,game_name,js,List.lookup]
  have h3 : (cursorMembers revisionId a).lookup (js "ordinal".toList)=
      some (.num a.2.ordinal) := by
    simp [cursorMembers,revision_text,game_name,ordinal_text,js,List.lookup]
  have hsafe : safeOrdinal (some (.num a.2.ordinal))=some a.2.ordinal := by
    have hcond : ((a.2.ordinal : ℚ).den=1 ∧ 0 ≤ (a.2.ordinal : ℚ).num ∧
        (a.2.ordinal : ℚ).num ≤ maxSafeInteger) := by
      rw [maxSafeInteger]
      refine ⟨Rat.den_natCast _,?_,?_⟩ <;> rw [Rat.num_natCast] <;> omega
    rw [safeOrdinal,if_pos hcond,Rat.num_natCast]
    rfl
  rw [cursorPlace,h1,h2,h3,hsafe]
  exact if_pos ⟨rfl,decide_eq_true a.1.registered⟩

theorem member_bytes (k : JsString) (v : Json) :
    (utf8 (quote k++58::v.print)).length=(utf8 (quote k)).length+(1+(utf8 v.print).length) := by
  rw [utf8_append (quote_wellFormed k),length_append,utf8_unit (by decide),length_append]
  rfl

theorem member_wellFormed (k : JsString) (v : Json) : wellFormed (quote k++58::v.print)=true := by
  rw [wellFormed_append (quote_wellFormed k),wellFormed_unit (by decide)]
  exact print_wellFormed v

theorem object_bytes (ms : List (JsString×Json)) : (utf8 (Json.obj ms).print).length=
      (ms.map fun m => (utf8 (quote m.1)).length+(1+(utf8 m.2.print).length)).sum+
        (ms.length-1)+2 := by
  have hwf : ∀t∈printMembers ms,wellFormed t=true := by
    intro t ht
    rw [printMembers_map] at ht
    obtain ⟨m,-,rfl⟩ := mem_map.mp ht
    exact member_wellFormed _ _
  have hlist : (printMembers ms).map (fun t => (utf8 t).length)=
      ms.map fun m => (utf8 (quote m.1)).length+(1+(utf8 m.2.print).length) := by
    rw [printMembers_map,map_map]
    exact map_congr_left fun m _ => member_bytes m.1 m.2
  have hlength : (printMembers ms).length=ms.length := by
    rw [printMembers_map,length_map]
  have hb : (utf8Point (123 : UInt16).toNat).length=1 := by decide
  have he : (utf8 [125]).length=1 := by decide
  rw [Json.print,utf8_unit (by decide),length_append,utf8_append (commas_wellFormed hwf),
    length_append,utf8_commas hwf,hlist,hlength,hb,he]
  omega

theorem ordinal_bytes {n : Nat} (hn : n < 2^53) : (utf8 (Json.num n).print).length ≤ 16 := by
  have hsmall : n < 10^(15+1) := by omega
  have hint : n < 10^21 := by omega
  have habs : (n : ℤ).natAbs=n := Int.natAbs_natCast n
  have hpos : ¬(n : ℤ) < 0 := Int.not_lt.mpr (Int.natCast_nonneg n)
  have htext : integerText (n : ℚ).num=decimal n := by
    rw [Rat.num_natCast,integerText]
    simp only [habs,if_pos hint,if_neg hpos]
  have hprint : (Json.num n).print=decimal n := htext
  rw [hprint,utf8_length_ascii (htext▸integerText_ascii _)]
  exact decimal_length hsmall

theorem exportCursor_short {revisionId uuid : JsString} (hu : uuid.length=36)
    (hr : revisionId=js "catrev_".toList++uuid) (hs : a.2.ordinal < 2^53) :
    (exportCursor revisionId a).length ≤ maximumCursorLength := by
  have hspelled : "catrev_".toList=['c','a','t','r','e','v','_'] := String.toList_ofList
  have hid : revisionId.length=43 := by
    rw [hr,hspelled,length_append,hu]
    rfl
  have hgame := (registered_names _ a.1.registered).2.1.2
  have hordinal := ordinal_bytes hs
  have h1 := quote_bytes (js "revision_id".toList)
  have h2 := quote_bytes (js "game".toList)
  have h3 := quote_bytes (js "ordinal".toList)
  have h4 : (utf8 (Json.str revisionId).print).length ≤ 6*revisionId.length+2 :=
    quote_bytes revisionId
  have h5 : (utf8 (Json.str a.1.text).print).length ≤ 6*a.1.text.length+2 :=
    quote_bytes a.1.text
  have hl1 : (js "revision_id".toList).length=11 := by rw [revision_text]; rfl
  have hl2 : (js "game".toList).length=4 := by rw [game_name]; rfl
  have hl3 : (js "ordinal".toList).length=7 := by rw [ordinal_text]; rfl
  have hbytes := object_bytes (cursorMembers revisionId a)
  simp only [cursorMembers,map_cons,map_nil,sum_cons,sum_nil,length_cons,length_nil] at hbytes
  rw [exportCursor,encodeCursor_length,maximumCursorLength]
  omega

theorem exportReadState_exposed (h : Exposed nfc gzip c r receipt) :
    exportReadState c r.id=⟨some r,some receipt,true⟩ := by
  rw [exportReadState,h.revision,h.exported]
  simp only [Option.any_some,h.ready]

/-- The page of a place. -/
def pageOf (db : Database) (revisionId : JsString) (place : JsString×Int) :
    List Descriptor×Option JsString :=
  let rows := composedExportArtifacts db revisionId place.1 place.2
  (rows.map fun a => a.2.descriptor,
    if rows.length=4 then rows.getLast?.map (exportCursor revisionId) else none)

/-- Listings as a caller without conditions reads them; `none` is an answer without a page. -/
def readListing (text : Bytes → JsString) (canonicalEtag : Manifest → JsString) (c : Catalogue)
    (request : Request) (revisionId : JsString) (bucket : Option (JsString → Option Stored))
    (after : Option JsString) : Except (Option Refusal) (List Descriptor×Option JsString) :=
  match compositionExportResponse text canonicalEtag c request revisionId after bucket with
  | .error e => .error (some e)
  | .ok (.response manifest) => .ok (manifest.components,manifest.next_cursor)
  | .ok _ => .error none

theorem readListing_place (canonicalEtag : Manifest → JsString) {after : Option JsString}
    {place : JsString×Int} (h : Exposed nfc gzip c r receipt)
    (hrequest : ∀tag,request.if_none_match tag=false)
    (hbucket : bucket.all (fun b => manifestVerified text b receipt)=true)
    (hplace : requestPlace r.id after=.ok place) :
    readListing text canonicalEtag c request r.id bucket after=.ok (pageOf c.db r.id place) := by
  have hkept : ((some receipt).all fun r => decide (r.maintenance_state=available))=true :=
    decide_eq_true h.kept
  rw [readListing,compositionExportResponse,exportReadState_exposed h]
  simp only
  rw [hkept,demand_true,ok_bind,if_neg h.published,h.model,demand_true,ok_bind,hbucket,demand_true,
    ok_bind,demand_true,ok_bind,hplace,ok_bind,hrequest]
  rfl

theorem requestPlace_cursor (h : Exposed nfc gzip c r receipt) (ha : a∈artifacts c.db r.id) :
    requestPlace r.id (some (exportCursor r.id a))=.ok (a.1.text,a.2.ordinal) := by
  obtain ⟨uuid,hu,hr⟩ := h.named
  have hs := (artifact_sound h ha).1.safe
  have hdecode : decodeCursor (exportCursor r.id a)=some (cursorMembers r.id a) := by
    have hread := decodeCursor_encode (cursorMembers_integral r.id a) (cursorMembers_own r.id a)
    have hshort : (encodeCursor (.obj (cursorMembers r.id a))).length ≤ maximumCursorLength :=
      exportCursor_short hu hr hs
    rwa [if_pos hshort] at hread
  have hne : exportCursor r.id a≠[] := by
    intro he
    rw [he] at hdecode
    cases hdecode
  rw [requestPlace,if_neg hne,hdecode]
  simp only
  rw [cursorPlace_members r.id hs]

/-- A place of the listing with the rows behind it. -/
def Stands (db : Database) (revisionId : JsString) (place : Option JsString)
    (rest : List Descriptor) : Prop :=
  (place=none ∧ rest=(listed db revisionId).map fun a => a.2.descriptor) ∨
  ∃done a left,listed db revisionId=done++a::left ∧ place=some (exportCursor revisionId a) ∧
    rest=left.map fun a => a.2.descriptor

theorem take_next {left : List Artifact} (revisionId : JsString) (done : List Artifact)
    (hlen : left.length=4) : ∃a pre,left.getLast?.map (exportCursor revisionId)=
      some (exportCursor revisionId a) ∧ left=pre++[a] ∧ done++left=done++pre++[a] := by
  rcases eq_nil_or_concat left with rfl | ⟨pre,a,rfl⟩
  · cases hlen
  · exact ⟨a,pre,by simp,by simp,by simp⟩

theorem page_rows (place : JsString×Int) (done : List Artifact) {rest : List Artifact}
    (hlisted : listed c.db r.id=done++rest)
    (hbehind : (listed c.db r.id).filter (isAfter place.1 place.2)=rest) : ∃left,rest.map
    (fun a => a.2.descriptor)=(pageOf c.db r.id place).1++left ∧
    ((pageOf c.db r.id place).2=none → left=[]) ∧ ∀next,(pageOf c.db r.id place).2=some next →
    (pageOf c.db r.id place).1≠[] ∧ Stands c.db r.id (some next) left := by
  have hrows : composedExportArtifacts c.db r.id place.1 place.2=rest.take 4 := by
    rw [composedExportArtifacts_eq,hbehind]
  refine ⟨(rest.drop 4).map fun a => a.2.descriptor,?_,?_,?_⟩
  · rw [pageOf,hrows,← map_append,take_append_drop]
  · intro hnone
    rw [pageOf,hrows] at hnone
    by_cases hlen : (rest.take 4).length=4
    · obtain ⟨a,-,hnext,-,-⟩ := take_next r.id [] hlen
      simp only [if_pos hlen,hnext] at hnone
      cases hnone
    · rw [length_take] at hlen
      rw [drop_eq_nil_of_le (by omega)]
      rfl
  · intro next hsome
    rw [pageOf,hrows] at hsome ⊢
    by_cases hlen : (rest.take 4).length=4
    · obtain ⟨a,pre,hnext,htake,hdone⟩ := take_next r.id done hlen
      simp only [if_pos hlen,hnext] at hsome
      refine ⟨?_,.inr ⟨done++pre,a,rest.drop 4,?_,hsome.symm,rfl⟩⟩
      · rw [htake]
        simp
      · rw [hlisted,← singleton_append,← append_assoc,← hdone,append_assoc,
          take_append_drop]
    · simp only [if_neg hlen] at hsome
      cases hsome

theorem readListing_stands
    (h : Exposed nfc gzip c r receipt) (hrequest : ∀tag,request.if_none_match tag=false)
    (hbucket : bucket.all (fun b => manifestVerified text b receipt)=true)
    (place : Option JsString) (rest : List Descriptor) (hs : Stands c.db r.id place rest) :
    ∃page left next,readListing text canonicalEtag c request r.id bucket place=.ok (page,next) ∧
      rest=page++left ∧ (next=none → left=[]) ∧
      ∀place',next=some place' → page≠[] ∧ Stands c.db r.id (some place') left := by
  rcases hs with ⟨rfl,rfl⟩ | ⟨done,a,left,hlisted,rfl,rfl⟩
  · have hall : (listed c.db r.id).filter (isAfter [] (-1))=listed c.db r.id :=
      filter_eq_self.mpr fun a _ => isAfter_first a
    have hplace : requestPlace r.id none=.ok ([],-1) := rfl
    have hread := readListing_place canonicalEtag h hrequest hbucket hplace
    obtain ⟨left,hrest,hnone,hsome⟩ := page_rows ([],-1) [] (nil_append _).symm hall
    exact ⟨_,left,_,hread,hrest,hnone,hsome⟩
  · have hmem : a∈artifacts c.db r.id := by
      rw [← mem_listed,hlisted]
      exact mem_append_right _ mem_cons_self
    have hbehind : (listed c.db r.id).filter (isAfter a.1.text a.2.ordinal)=left := by
      have hsorted := listed_sorted h
      rw [hlisted] at hsorted ⊢
      exact filter_greater (fun x => isAfter_key a x) hsorted
    have hread := readListing_place canonicalEtag h hrequest hbucket (requestPlace_cursor h hmem)
    have hsplit : listed c.db r.id=(done++[a])++left := by
      rw [hlisted,append_assoc,singleton_append]
    obtain ⟨rest,hrest,hnone,hsome⟩ :=
      page_rows (a.1.text,a.2.ordinal) (done++[a]) hsplit hbehind
    exact ⟨_,rest,_,hread,hrest,hnone,hsome⟩

theorem paged_listing
    (h : Exposed nfc gzip c r receipt) (hrequest : ∀tag,request.if_none_match tag=false)
    (hbucket : bucket.all (fun b => manifestVerified text b receipt)=true) :
    Paged (readListing text canonicalEtag c request r.id bucket) none
      ((listed c.db r.id).map fun a => a.2.descriptor) :=
  paged_all (Stands c.db r.id) (readListing_stands h hrequest hbucket) (.inl ⟨rfl,rfl⟩)

end

end CardKeepr.Read.Exports
