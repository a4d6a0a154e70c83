import CardKeepr.Read.ExportFetching
import CardKeepr.Shared.Gunzip

namespace CardKeepr.Read.Exports

open Lib Shared Publication.Export List

/-- The object of a component, which every read of a request finds. -/
structure Intact (bucket : Reads) (e : Component) (object : Stored) : Prop where
  reads : ∀n,bucket n e.ref.object_key=some object
  length : object.bytes.length=e.ref.byte_length
  digest : sha256 object.bytes=e.ref.sha256
  checksum : object.checksum.all (fun sha => decide (sha=e.ref.sha256))=true

/-- The range that a request asks for: all bytes for HEAD and for another If-Range tag. -/
def requested (request : Request) (etag : JsString) (size : Nat) : Range :=
  if request.head=true ∨ (request.if_range.isSome ∧ request.if_range≠some etag) then .whole
  else parseRange request.range size

/-- What a request may be answered about the bytes of a component. -/
inductive Fetched (request : Request) (etag : JsString) (bytes : Bytes) :
    Except Refusal (Answer ComponentResponse) → Prop
  | unmodified (h : request.if_none_match etag=true) : Fetched request etag bytes (.ok .unmodified)
  | header {a : ComponentResponse} (h : request.head=true) (hstatus : a.status=200)
      (hlength : a.content_length=decimal bytes.length) (hrange : a.content_range=none)
      (hbody : a.body=none) : Fetched request etag bytes (.ok (.response a))
  | whole {a : ComponentResponse} (h : requested request etag bytes.length=.whole)
      (hstatus : a.status=200) (hlength : a.content_length=decimal bytes.length)
      (hrange : a.content_range=none) (hbody : a.body=some bytes) :
      Fetched request etag bytes (.ok (.response a))
  | slice {a : ComponentResponse} {offset length : Nat}
      (h : requested request etag bytes.length=.slice offset length) (hpos : 0 < length)
      (hin : offset+length ≤ bytes.length) (hstatus : a.status=206)
      (hlength : a.content_length=decimal length)
      (hrange : a.content_range=some (contentRange
        (decimal offset++45::decimal (offset+length-1)) bytes.length))
      (hbody : a.body=some ((bytes.drop offset).take length)) :
      Fetched request etag bytes (.ok (.response a))
  | unsatisfiable {e : Refusal} (h : requested request etag bytes.length=.unsatisfiable)
      (hstatus : e.status=416) (hrange : e.content_range=some (contentRange [42] bytes.length)) :
      Fetched request etag bytes (.error e)

section
variable {bucket : Reads} {e : Component} {object : Stored}

theorem Intact.verified (h : Intact bucket e object) :
    verifiedObject bucket e.ref.object_key e.ref.byte_length e.ref.sha256=some object := by
  have hlength : ¬object.bytes.length≠e.ref.byte_length := not_not.mpr h.length
  have hchecksum := h.checksum
  simp only [verifiedObject,h.reads,Option.bind_eq_bind,Option.bind_some,if_neg hlength]
  cases hc : object.checksum with
  | none =>
    have hchanged : ¬(object.bytes.length≠e.ref.byte_length ∨ object.etag≠object.etag) := by
      rintro (h' | h')
      · exact hlength h'
      · exact h' rfl
    simp only [if_neg hchanged,if_pos h.digest]
  | some sha =>
    rw [hc] at hchecksum
    exact if_pos (of_decide_eq_true hchecksum)

theorem Intact.body (h : Intact bucket e object) (range : Range) :
    verifiedObjectBody bucket e.ref.object_key object range=match range with
    | .slice offset length => some ((object.bytes.drop offset).take length)
    | _ => some object.bytes := by
  cases range <;> simp [verifiedObjectBody,h.reads]

theorem componentBody_fetched (h : Intact bucket e object) (hlower : 0 < e.ref.byte_length)
    (hupper : e.ref.byte_length ≤ maximumBytes) (request : Request) (revisionId name : JsString) :
    Fetched request (quoted e.ref.sha256) object.bytes
      (componentBody bucket request revisionId name e) := by
  have hsize : decide (e.ref.byte_length ≤ 4000000)=true := decide_eq_true hupper
  rw [componentBody,hsize,demand_true,ok_bind,h.verified]
  simp only
  by_cases htag : request.if_none_match (quoted e.ref.sha256)=true
  · rw [if_pos htag]
    exact .unmodified htag
  · rw [if_neg htag]
    cases hrange : requested request (quoted e.ref.sha256) e.ref.byte_length with
    | whole =>
      have hrange' := hrange
      rw [requested] at hrange'
      rw [hrange']
      by_cases hhead : request.head=true
      · simp only [if_pos hhead]
        refine .header hhead rfl ?_ rfl rfl
        rw [h.length]
      · simp only [if_neg hhead,h.body]
        refine .whole ?_ rfl ?_ rfl rfl
        · rw [h.length,hrange]
        · rw [h.length]
    | slice offset length =>
      have hrange' := hrange
      rw [requested] at hrange'
      rw [hrange']
      simp only [h.body]
      have hin : 0 < length ∧ offset+length ≤ e.ref.byte_length := by
        split at hrange'
        · cases hrange'
        · exact parseRange_inside hlower hrange'
      have hrequested : requested request (quoted e.ref.sha256) object.bytes.length=
          .slice offset length := by rw [h.length,hrange]
      refine .slice hrequested hin.1 ?_ rfl rfl ?_ rfl
      · rw [h.length]
        exact hin.2
      · rw [h.length]
    | unsatisfiable =>
      have hrange' := hrange
      rw [requested] at hrange'
      rw [hrange']
      refine .unsatisfiable ?_ rfl ?_
      · rw [h.length,hrange]
      · rw [h.length]

end

section
variable {nfc : Nfc} {gzip : Compressor} {c : Catalogue} {r : CatalogueRevision}
  {receipt : Receipt}

theorem composedExportArtifact_row (h : Exposed nfc gzip c r receipt) {a : Artifact}
    (ha : a∈artifacts c.db r.id) :
    composedExportArtifact c.db r.id a.1.text a.2.ordinal=some a.2 := by
  have hfound : ((artifacts c.db r.id).find? fun x =>
      decide (x.1.text=a.1.text ∧ x.2.ordinal=a.2.ordinal)).isSome=true :=
    List.find?_isSome.mpr ⟨a,ha,decide_eq_true ⟨rfl,rfl⟩⟩
  obtain ⟨x,hx⟩ := Option.isSome_iff_exists.mp hfound
  have hfield := List.find?_some hx
  have hfield := of_decide_eq_true hfield
  have hkey : artifactKey x=artifactKey a := by
    rw [artifactKey,artifactKey,hfield.1,hfield.2]
  have hnodup : ((artifacts c.db r.id).map artifactKey).Nodup :=
    pairwise_map.mpr (artifacts_keys h)
  have heq : x=a := inj_on_of_nodup_map hnodup (List.mem_of_find?_eq_some hx) ha hkey
  rw [composedExportArtifact,hx,heq]
  rfl

theorem component_resolved (h : Exposed nfc gzip c r receipt) {a : Artifact}
    (ha : a∈artifacts c.db r.id) (bucket : Reads) (request : Request) :
    compositionExportComponentResponse c bucket request r.id a.2.descriptor.name=
      componentBody bucket request r.id a.2.descriptor.name a.2 := by
  obtain ⟨hsound,hgame⟩ := artifact_sound h ha
  have hname : nameParts a.2.descriptor.name=some (a.1.text,a.2.ordinal) := by
    rw [hsound.named,← hgame]
    exact nameParts_component a.1 a.2.ordinal
  have hdeleted : ((some receipt).any fun r => decide (r.maintenance_state≠available))=false :=
    decide_eq_false (not_not.mpr h.kept)
  have hprofile : ¬(gameProfileForGame a.1.text=false ∨ a.2.ordinal > maxSafeInteger) := by
    have hsafe := hsound.safe
    rw [gameProfileForGame,decide_eq_false_iff_not,maxSafeInteger]
    rintro (hg | ho)
    · exact hg a.1.registered
    · omega
  rw [compositionExportComponentResponse,exportReadState_exposed h]
  simp only
  rw [hdeleted,if_neg h.published,demand_true,ok_bind,hname]
  simp only
  rw [if_neg hprofile,composedExportArtifact_row h ha]
  rfl

/-- The listing of an available export leads to each of its components once and in order, and each
listed name to the bytes of that component or to a slice of them. -/
theorem listed_components_fetched (h : Exposed nfc gzip c r receipt) : ∃rows : List Artifact,
    (rows.Pairwise fun a b => artifactKey a < artifactKey b) ∧
    (∀a,a∈rows ↔ ∃m∈c.db.composition,m.catalogue_revision_id=r.id ∧
      a.1=c.db.game_candidates m.candidate_id ∧ a.2∈c.db.components ∧
      a.2.candidate_id=m.candidate_id) ∧
    (∀text canonicalEtag request bucket,(∀tag,request.if_none_match tag=false) →
      bucket.all (fun b => manifestVerified text b receipt)=true →
      Paged (readListing text canonicalEtag c request r.id bucket) none
        (rows.map fun a => a.2.descriptor)) ∧
    ∀a∈rows,∀bucket object request,Intact bucket a.2 object →
      Fetched request (quoted a.2.ref.sha256) object.bytes
        (compositionExportComponentResponse c bucket request r.id a.2.descriptor.name) := by
  refine ⟨listed c.db r.id,listed_sorted h,fun a => mem_listed.trans (mem_artifacts h),?_,?_⟩
  · intro text canonicalEtag request bucket hrequest hbucket
    exact paged_listing h hrequest hbucket
  · intro a ha bucket object request hintact
    have ha := mem_listed.mp ha
    obtain ⟨hsound,-⟩ := artifact_sound h ha
    have hlower : 0 < a.2.ref.byte_length := by
      have hmember := hsound.lower
      omega
    rw [component_resolved h ha]
    exact componentBody_fetched hintact hlower hsound.upper request r.id a.2.descriptor.name

end

def bitsValue : List Bool → Nat
  | [] => 0
  | b::bs => b.toNat+2*bitsValue bs

/-- The first bit of a byte is its lowest. -/
def packed : List Bool → Bytes
  | a::b::c::d::e::f::g::h::bits => UInt8.ofNat (bitsValue [a,b,c,d,e,f,g,h])::packed bits
  | [] => []
  | bits => [UInt8.ofNat (bitsValue bits)]

/-- A literal in the fixed codes of a deflate block. -/
def literalBits (b : UInt8) : List Bool :=
  if b < 144 then (List.range 8).map fun i => (0x30+b.toNat).testBit (7-i)
  else (List.range 9).map fun i => (0x190+(b.toNat-144)).testBit (8-i)

def fourBytes (n : Nat) : Bytes := (List.range 4).map fun i => UInt8.ofNat (n/256^i)

/-- Members of one block with fixed codes, as inputs that repeat nothing have them. -/
def fixedGzip : Compressor where
  deterministicGzip data := [0x1f,0x8b,8,0,0,0,0,0,2,0xff]++
    packed (true::true::false::data.flatMap literalBits++List.replicate 7 false)++
    (fourBytes (Shared.Gunzip.crc32 0 data).toNat++fourBytes data.length)
  member data := ⟨_,_,_,rfl,rfl,by simp [fourBytes]⟩

def asTyped : Nfc := ⟨fun s => s,fun _ => rfl,fun _ _ => rfl⟩

def magic : SupportedGame where
  text := js ['m','a','g','i','c']
  registered := by
    rw [registered_spelled]
    exact mem_cons_self

def candidate : JsString := js ['g','c']

def operation : JsString := js ['o','p']

def record : Json := .obj [(js ['i','d'],.str (js ['c','1']))]

def line : Bytes := [123,34,105,100,34,58,34,99,49,34,125,10]

def card : Source where
  kind := js ['c','a','r','d','s']
  entity_id := js ['c','1']
  ordinal := 0
  content := []
  sha256 := sha256Text []
  lifecycle_json := js ['{','}']
  text_parts := []
  dependencies := []
  safe := by decide

def fair : Weather :=
  ⟨fun _ => none,.record record,true,fun _ => some (fixedGzip.deterministicGzip line)⟩

theorem record_line : canonical asTyped record=
    .ok (js ['\x7b','"','i','d','"',':','"','c','1','"','\x7d']) := by
  rfl

theorem inputDigest_text (source : Source) : ∃t,inputDigest asTyped source []=.ok t := by
  have hi : (Json.obj [
      (js "contract".toList,.str (js "card-keepr-public-record@5".toList)),
      (js "projection".toList,.str source.sha256),
      (js "lifecycle".toList,.str source.lifecycle_json),
      (js "dependencies".toList,.arr (([] : List Dependency).map Dependency.json))]).Integral := by
    refine (all_obj _).mpr ⟨trivial,fun m hm => ?_⟩
    simp only [mem_cons,not_mem_nil,or_false] at hm
    rcases hm with rfl | rfl | rfl | rfl
    · trivial
    · trivial
    · trivial
    · exact (all_arr []).mpr fun v hv => (not_mem_nil hv).elim
  rw [inputDigest,canonical,canonicalJson,canonicalJsonAt_eq asTyped hi]
  exact ⟨_,rfl⟩

def projected : Database := { Database.start (fun _ => magic) (fun _ => ⟨candidate,[]⟩) with
  publication_read_entities := fun _ => [card] }

def owner : Owner := exportOwner projected operation

/-- The reference is to the member with the record's line. -/
def OfLine (ref : Reference) : Prop :=
  (fixedGzip.deterministicGzip line).length=ref.byte_length ∧
    sha256 (fixedGzip.deterministicGzip line)=ref.sha256

theorem card_staged : ∃ref descriptor pending, sealComponent asTyped fixedGzip fair card
    ⟨⟨.records,-1⟩,0,[],18,0,⟨[],0⟩⟩= .ok (some (ref,descriptor,pending)) ∧ pending.refs=[ref] ∧
    OfLine ref ∧ verify fair.flushed ref=.ok () := by
  have hraw : utf8 (js ['\x7b','"','i','d','"',':','"','c','1','"','\x7d'])++[10]=line := by
    decide
  have hlength : (fixedGzip.deterministicGzip line).length=32 := by
    decide
  have hline : decide (line.length ≤ maximumBytes)=true := by decide
  have hmember : decide ((fixedGzip.deterministicGzip line).length ≤ maximumBytes)=true := by
    rw [hlength]
    decide
  have hroom : ¬0+line.length > maximumBytes := by decide
  have hfits : ¬(([] : List Reference).length=4 ∨
      0+(fixedGzip.deterministicGzip line).length > maximumBytes) := by
    rw [hlength]
    decide
  rw [sealComponent]
  simp only [fair,record_line,ok_bind,hraw,hline,demand_true,if_neg hroom,stage,hmember,if_neg hfits]
  refine ⟨_,_,_,rfl,rfl,⟨rfl,rfl⟩,?_⟩
  simp only [verify,hmember,demand_true,ok_bind,decide_true]

theorem card_prepared : ∃s e,prepareRecord asTyped fixedGzip projected owner fair
    ⟨⟨.records,-1⟩,0,[],0,0,⟨[],0⟩⟩=.ok (true,s) ∧ s.statements=[e] ∧ s.cursor=⟨.records,0⟩ ∧
      s.component_count=1 ∧ s.pending.refs=[e.ref] ∧ verify fair.flushed e.ref=.ok () ∧
      e.candidate_id=candidate ∧ OfLine e.ref := by
  obtain ⟨t,ht⟩ := inputDigest_text card
  obtain ⟨ref,descriptor,pending,hseal,hrefs,hline,hverify⟩ := card_staged
  have hsource : publicationExportSource projected owner.candidate_id (-1)=some card := by
    have hfilter : [card].filter (fun s => decide ((-1 : Int) < s.ordinal))=[card] :=
      filter_cons_of_pos (by decide)
    rw [publicationExportSource]
    simp only [projected,hfilter,insertionSort_cons,insertionSort_nil,
      orderedInsert_nil,List.head?_cons]
  have hprior : priorExportComponent projected owner card t=none := rfl
  have hsound : decide (sha256Text card.content=card.sha256)=true := by
    simp only [card,decide_true]
  have hdeps : (if card.kind=js "printings".toList then card.dependencies else [])=[] := ite_self _
  have hcalls : callsOf card []=18 := rfl
  have hbudget : decide (([] : List Dependency).length ≤ 128 ∧ 18 ≤ 80)=true := by decide
  have hroom : ¬0+18 > 80 := by decide
  rw [prepareRecord]
  simp only [hsource,hsound,demand_true,ok_bind,hdeps,hcalls,hbudget,if_neg hroom,ht,hprior,
    Nat.zero_add,hseal]
  exact ⟨_,_,rfl,rfl,rfl,rfl,hrefs,hverify,rfl,hline⟩

theorem nodes_begun {s : Progress} (h : s.cursor=⟨.records,0⟩) :
    prepareRecord asTyped fixedGzip projected owner fair s=
      .ok (true,{ s with cursor := ⟨.nodes,-1⟩ }) := by
  have hfilter : [card].filter (fun s => decide ((0 : Int) < s.ordinal))=[] := by decide
  have hsource : publicationExportSource projected owner.candidate_id s.cursor.after=none := by
    rw [h,publicationExportSource]
    simp only [projected,hfilter,insertionSort_nil,List.head?_nil]
  rw [prepareRecord,hsource]

def preparation (state : ExportState) (sequence : Nat) : Preparation :=
  ⟨operation,candidate,state,sequence,⟨.nodes,-1⟩,1,none⟩

def prepared (e : Component) (p : Preparation) (games : List CompositionGame) : Database :=
  { projected with components := [e], preparations := [p], composition := games }

theorem advanceUnit_records {nfc : Nfc} {gzip : Compressor} {db : Database} {owner : Owner}
    {ws : List Weather} {sealing : Sealing} {last : Weather} {current : Preparation} {s : Progress}
    (hphase : current.cursor.phase=.records)
    (h : prepareRecords nfc gzip db owner ws last current=.ok s) :
    advanceUnit nfc gzip db owner ws sealing last current=retainUnit s.statements
      { current with cursor := s.cursor, component_count := s.component_count } db := by
  rw [advanceUnit.eq_def,hphase,h]

theorem records_prepared : ∃e,(e.candidate_id=candidate ∧ OfLine e.ref) ∧
    advancePublicationExports asTyped fixedGzip operation [fair,fair,fair,fair] .verified fair
      projected=some (prepared e (preparation .preparing 1) []) := by
  obtain ⟨s,e,hs,hstatements,hcursor,hcount,hrefs,hverify,hcandidate⟩ := card_prepared
  have hunits : prepareUnits asTyped fixedGzip projected owner [fair,fair,fair,fair]
      ⟨⟨.records,-1⟩,0,[],0,0,⟨[],0⟩⟩=.ok { s with cursor := ⟨.nodes,-1⟩ } := by
    have hgoes : ¬(true=false ∨ s.cursor.phase≠.records) := by
      rw [hcursor]
      decide
    rw [prepareUnits,hs,ok_bind]
    simp only [if_neg hgoes]
    rw [prepareUnits,nodes_begun hcursor,ok_bind]
    rfl
  have hflush : flush fair s.pending=.ok ⟨[],0⟩ := by
    have hwritten : demand fair.written (.raised : Problem)=.ok () := rfl
    have hall : [e.ref].forM (verify fair.flushed)=.ok () := by
      rw [List.forM,hverify]
      rfl
    rw [flush,hrefs,if_neg (cons_ne_nil _ _),hwritten,ok_bind,hall]
    rfl
  have hrecords : prepareRecords asTyped fixedGzip projected owner [fair,fair,fair,fair] fair
      ⟨operation,candidate,.preparing,1,⟨.records,-1⟩,0,none⟩=
        .ok { s with cursor := ⟨.nodes,-1⟩ } := by
    rw [prepareRecords]
    simp only [take_succ_cons,take_nil,hunits,ok_bind,hflush]
  have hnew : retainUnit [e] (preparation .preparing 1) projected=
      some (prepared e (preparation .preparing 1) []) := rfl
  refine ⟨e,hcandidate,?_⟩
  have hcall : advancePublicationExports asTyped fixedGzip operation [fair,fair,fair,fair] .verified
      fair projected=advanceUnit asTyped fixedGzip projected owner [fair,fair,fair,fair] .verified
        fair ⟨operation,candidate,.preparing,1,⟨.records,-1⟩,0,none⟩ := by
    have hnone : projected.preparations.find? (fun p =>
        decide (p.publication_operation_id=operation))=none := rfl
    have hcandidate : (exportOwner projected operation).candidate_id=candidate := rfl
    rw [advancePublicationExports]
    simp only [hnone,Option.getD_none,hcandidate,owner]
    exact if_neg fun h => h rfl
  rw [hcall,advanceUnit_records rfl hrecords,hstatements,hcount]
  exact hnew

def revision : CatalogueRevision where
  id := js "catrev_".toList++js "00000000-0000-4000-8000-000000000000".toList
  published_at := []
  content_digest := []
  publication_operation_id := some operation
  model_ready := true

def published (e : Component) : Database :=
  prepared e (preparation .verified 2) [⟨revision.id,candidate⟩]

theorem published_written : ∃e,(e.candidate_id=candidate ∧ OfLine e.ref) ∧
    Written asTyped fixedGzip (published e) := by
  obtain ⟨e,hcandidate,hrecords⟩ := records_prepared
  have hnodes : advancePublicationExports asTyped fixedGzip operation [] .verified fair
      (prepared e (preparation .preparing 1) [])=
        some (prepared e (preparation .verified 2) []) := rfl
  have hcompose : insertComposition [⟨revision.id,candidate⟩]
      (prepared e (preparation .verified 2) [])=some (published e) := rfl
  refine ⟨e,hcandidate,fun _ => magic,fun _ => ⟨candidate,[]⟩,?_⟩
  exact .tail (.tail (.tail (.single (.project fun _ => [card]))
    (.advance operation _ _ _ hrecords)) (.advance operation _ _ _ hnodes)) (.compose _ hcompose)

def receipt : Receipt := ⟨revision.id,available,[],[]⟩

def catalogue (e : Component) : Catalogue := ⟨published e,[revision],[receipt],[]⟩

theorem catalogue_exposed {e : Component} (h : Written asTyped fixedGzip (published e)) :
    Exposed asTyped fixedGzip (catalogue e) revision receipt where
  written := h
  revision := List.find?_cons_of_pos (decide_eq_true rfl)
  named := ⟨_,by decide,rfl⟩
  published := Option.some_ne_none _
  model := rfl
  exported := List.find?_cons_of_pos (decide_eq_true rfl)
  kept := rfl
  ready := by
    simp [composedPublicExportReady,catalogue,published,prepared,isVerified,preparation,revision]

/-- A listing with one card, whose member lies in the bucket. -/
theorem listed_card_fetched : ∃e,∃rows : List Artifact,∃bucket object,
    Exposed asTyped fixedGzip (catalogue e) revision receipt ∧
    (magic,e)∈rows ∧ (rows.Pairwise fun a b => artifactKey a < artifactKey b) ∧
    Intact bucket e object ∧ ∀request,Fetched request (quoted e.ref.sha256) object.bytes
      (compositionExportComponentResponse (catalogue e) bucket request revision.id
        e.descriptor.name) := by
  obtain ⟨e,⟨hcandidate,hlength,hdigest⟩,hwritten⟩ := published_written
  have hexposed := catalogue_exposed hwritten
  obtain ⟨rows,hsorted,hmem,-,hfetched⟩ := listed_components_fetched hexposed
  have hin : (magic,e)∈rows := (hmem _).mpr
    ⟨⟨revision.id,candidate⟩,mem_cons_self,rfl,rfl,mem_cons_self,hcandidate⟩
  have hintact : Intact (fun _ _ => some ⟨fixedGzip.deterministicGzip line,[],none⟩) e
      ⟨fixedGzip.deterministicGzip line,[],none⟩ := ⟨fun _ => rfl,hlength,hdigest,rfl⟩
  exact ⟨e,rows,_,_,hexposed,hin,hsorted,hintact,fun request => hfetched _ hin _ _ request hintact⟩

end CardKeepr.Read.Exports
