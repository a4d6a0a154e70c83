import CardKeepr.Read.CardPages

namespace CardKeepr.Read
open Shared Lib List

variable {o : Opened} {g : Reading} {request : Request} {rest : List CardRow} {revision : Revision}
  {catalogue : Catalogue}

theorem keyOrder_name {u : UInt16} {s : JsString} (h : isDigit u=false) : keyOrder (u::s)=2^32 := by
  rw [keyOrder,if_neg]
  rintro ⟨hd,-⟩
  have hu := decimal_digits (digitsValue (u::s)) u (hd ▸ mem_cons_self)
  rw [h] at hu
  cases hu

theorem ownKeys_names {ks : List JsString} (hd : ks.Nodup)
    (h : ∀k∈ks,∃u s,k=u::s ∧ isDigit u=false) : OwnKeys ks := by
  have horder (k : JsString) (hk : k∈ks) : keyOrder k=2^32 := by
    obtain ⟨u,s,rfl,hu⟩ := h k hk
    exact keyOrder_name hu
  exact ⟨hd,pairwise_of_forall_mem_list fun k hk l hl => by rw [horder k hk,horder l hl]⟩

theorem textOrNull_own (t : Option JsString) : (textOrNull t).Own ∧ (textOrNull t).Integral := by
  cases t <;> exact ⟨trivial,trivial⟩

theorem CollectionFilters.json_own (f : CollectionFilters) : f.json.Own := by
  refine (all_obj _).mpr ⟨ownKeys_names ?_ ?_,fun m hm => ?_⟩
  · cases f.cardId <;> simp [js]
  · cases f.cardId <;> simp [js,isDigit]
  · rw [mem_append] at hm
    rcases hm with hm | hm
    · obtain ⟨c,-,rfl⟩ := mem_map.mp hm
      trivial
    · simp only [mem_cons,not_mem_nil,or_false] at hm
      rcases hm with rfl | rfl | rfl | rfl | rfl | rfl | rfl | rfl
      iterate 6 exact (textOrNull_own _).1
      · refine (all_obj _).mpr ⟨?_,fun a ha => ?_⟩
        · rw [map_map]
          exact f.keys
        · obtain ⟨b,-,rfl⟩ := mem_map.mp ha
          trivial
      · trivial

theorem CollectionFilters.json_integral (f : CollectionFilters) : f.json.Integral := by
  refine (all_obj _).mpr ⟨trivial,fun m hm => ?_⟩
  rw [mem_append] at hm
  rcases hm with hm | hm
  · obtain ⟨c,-,rfl⟩ := mem_map.mp hm
    trivial
  · simp only [mem_cons,not_mem_nil,or_false] at hm
    rcases hm with rfl | rfl | rfl | rfl | rfl | rfl | rfl | rfl
    iterate 6 exact (textOrNull_own _).2
    · refine (all_obj _).mpr ⟨trivial,fun a ha => ?_⟩
      obtain ⟨b,-,rfl⟩ := mem_map.mp ha
      trivial
    · exact Rat.den_natCast _

def cursorOf (revision : Revision) (request : Request) (r : CardRow) : CardCursor :=
  ⟨revision.id,request.filters.json,r.position⟩

theorem members_own (revision : Revision) (request : Request) (r : CardRow) :
    (Json.obj (cursorOf revision request r).members).Own := by
  have hafter : r.position.json.Own := by
    refine (all_obj _).mpr ⟨ownKeys_names (by simp [js]) (by simp [js,isDigit]),?_⟩
    intro m hm
    simp only [mem_cons,not_mem_nil,or_false] at hm
    rcases hm with rfl | rfl | rfl | rfl <;> trivial
  refine (all_obj _).mpr ⟨ownKeys_names (by simp [CardCursor.members,js])
    (by simp [CardCursor.members,js,isDigit]),fun m hm => ?_⟩
  simp only [CardCursor.members,mem_cons,not_mem_nil,or_false] at hm
  rcases hm with rfl | rfl | rfl | rfl | rfl | rfl
  iterate 4 trivial
  · exact request.filters.json_own
  · exact hafter

theorem members_integral (revision : Revision) (request : Request) (r : CardRow) :
    (Json.obj (cursorOf revision request r).members).Integral := by
  refine (all_obj _).mpr ⟨trivial,fun m hm => ?_⟩
  simp only [CardCursor.members,mem_cons,not_mem_nil,or_false] at hm
  rcases hm with rfl | rfl | rfl | rfl | rfl | rfl
  iterate 4 trivial
  · exact request.filters.json_integral
  · refine (all_obj _).mpr ⟨trivial,?_⟩
    intro m hm
    simp only [mem_cons,not_mem_nil,or_false] at hm
    rcases hm with rfl | rfl | rfl | rfl <;> trivial

theorem nonemptyText_of {s : JsString} (h : s≠[]) : nonemptyText (some (.str s))=some s := by
  cases s with
  | nil => exact absurd rfl h
  | cons u s => rfl

theorem members_lookup (c : CardCursor) :
    c.members.lookup (js "contract".toList)=some (.str contract) ∧
    c.members.lookup (js "route".toList)=some (.str route) ∧
    c.members.lookup (js "order".toList)=some (.str cardCollectionOrder) ∧
    c.members.lookup (js "revision_id".toList)=some (.str c.revision_id) ∧
    c.members.lookup (js "filters".toList)=some c.filters ∧
    c.members.lookup (js "after".toList)=some c.after.json := by
  refine ⟨?_,?_,?_,?_,?_,?_⟩ <;> simp [CardCursor.members,js,List.lookup]

theorem position_lookup (p : CardPagePosition) : ∃ms,p.json=.obj ms ∧
    ms.lookup (js "game".toList)=some (.str p.game) ∧
    ms.lookup (js "identity_kind".toList)=some (.str p.identity_kind) ∧
    ms.lookup (js "identity_value".toList)=some (.str p.identity_value) ∧
    ms.lookup (js "id".toList)=some (.str p.id) := by
  refine ⟨_,rfl,?_,?_,?_,?_⟩ <;> simp [js,List.lookup]

theorem parseCursor_row (revision : Revision) (request : Request) (r : CardRow) :
    parseCursor (rowCursor revision request r)=
      if (rowCursor revision request r).length ≤ maximumCursorLength then
        some (cursorOf revision request r)
      else none := by
  have hdecode := decodeCursor_encode (members_integral revision request r)
    (members_own revision request r)
  have htext : encodeCursor (.obj (cursorOf revision request r).members)=
    rowCursor revision request r := rfl
  rw [htext] at hdecode
  rw [parseCursor,hdecode]
  split_ifs with hlen
  · obtain ⟨h1,h2,h3,h4,h5,h6⟩ := members_lookup (cursorOf revision request r)
    obtain ⟨ms,hms,hg,hk,hv,hi⟩ := position_lookup r.position
    obtain ⟨ng,nk,nv,ni⟩ := r.named
    have hposition : recordOf (some (cursorOf revision request r).after.json)=some ms := by
      rw [cursorOf,hms]
      rfl
    obtain ⟨fs,hfs⟩ : ∃fs,request.filters.json=.obj fs := ⟨_,rfl⟩
    have hfilters : recordOf (some (cursorOf revision request r).filters)=some fs := by
      rw [cursorOf,hfs]
      rfl
    simp only [Option.bind_eq_bind,Option.bind_some,h1,h2,h3,h4,h5,h6,isText,BEq.rfl,Bool.and_self,
      if_true,hposition,hfilters,hg,hk,hv,hi,nonemptyText_of ng,nonemptyText_of nk,
      nonemptyText_of nv,nonemptyText_of ni]
    rw [show (cursorOf revision request r).revision_id=revision.id from rfl,
      nonemptyText_of revision.named,cursorOf,hfs]
    rfl
  · rfl

theorem key_id {p q : CardPagePosition} (h : p.key=q.key) : utf8 p.id=utf8 q.id := by
  have hid := congrArg List.getLast? h
  simp only [CardPagePosition.key,map_cons,map_nil,List.getLast?_cons_cons,
    List.getLast?_singleton,Option.some.injEq] at hid
  exact map_injective_iff.mpr (fun a b h => UInt8.toNat_inj.mp h) hid

/-- All rows of the filters, in the order of the collection. -/
def collectionRows (g : Reading) (revision : Revision) (filters : CollectionFilters) :
    List CardRow :=
  candidates (g.matching filters) revision none

theorem rows_sorted (g : Reading) (revision : Revision) (filters : CollectionFilters) :
    (collectionRows g revision filters).Pairwise fun a b => a.key < b.key := by
  have hall : collectionRows g revision filters=
      (revision.cards.filter (g.matching filters)).insertionSort fun a b => a.key ≤ b.key :=
    filter_eq_self.mpr fun _ _ => rfl
  have htotal : Std.Total fun a b : CardRow => a.key ≤ b.key := ⟨fun a b => le_total _ _⟩
  have htrans : IsTrans CardRow fun a b => a.key ≤ b.key := ⟨fun a b c => le_trans⟩
  have hsorted := pairwise_insertionSort (fun a b : CardRow => a.key ≤ b.key)
    (revision.cards.filter (g.matching filters))
  have hnodup : ((revision.cards.filter (g.matching filters)).insertionSort
      fun a b => a.key ≤ b.key).Pairwise fun a b => a.key≠b.key := by
    have hperm := perm_insertionSort (fun a b : CardRow => a.key ≤ b.key)
      (revision.cards.filter (g.matching filters))
    refine (hperm.pairwise_iff fun h => Ne.symm h).mpr ?_
    have hids := revision.keys.sublist
      ((filter_sublist (p := g.matching filters) (l := revision.cards)).map _)
    exact (pairwise_map.mp hids).imp fun hne hkey => hne (key_id hkey)
  rw [hall]
  exact hsorted.and hnodup |>.imp fun h => lt_of_le_of_ne h.1 h.2

theorem candidates_after {filters : CollectionFilters} {done : List CardRow} {r : CardRow}
    (h : collectionRows g revision filters=done++r::rest) :
    candidates (g.matching filters) revision (some r.position)=rest := by
  have hsorted := rows_sorted g revision filters
  have hall : collectionRows g revision filters=
      (revision.cards.filter (g.matching filters)).insertionSort fun a b => a.key ≤ b.key :=
    filter_eq_self.mpr fun _ _ => rfl
  rw [candidates,←hall,h]
  rw [h] at hsorted
  exact filter_greater (fun (x : CardRow) => (decide_eq_true_iff : _ ↔ r.key < x.key)) hsorted

/-- The rows of a page and its cursor. -/
def readPage (g : Reading) (catalogue : Catalogue) (request : Request) (after : Option JsString) :
    Except ReadProblem (List CardRow×Option JsString) := do
  let page ← cardCollectionResponse g catalogue { request with after }
  return (page.rows,page.next_cursor)

theorem sameFilters_refl (nfc : Nfc) (f : CollectionFilters) :
    sameFilters nfc f.json f.json=true := by
  rw [sameFilters,canonicalJson,canonicalJsonAt_eq nfc f.json_integral]
  exact beq_self_eq_true _

theorem pinRevision_id {requested : Option JsString}
    (h : pinRevision catalogue requested=.ok revision) : revision.id=requested.getD
    catalogue.current ∧ pinRevision catalogue (some revision.id)=.ok revision := by
  rw [pinRevision] at h
  split at h
  · rename_i found hfind
    obtain rfl := Except.ok.inj h
    have hid : found.id=requested.getD catalogue.current :=
      beq_iff_eq.mp (List.find?_some (p := fun r : Revision => r.id==_) hfind)
    refine ⟨hid,?_⟩
    rw [pinRevision,Option.getD_some,hid,hfind]
  · cases h

theorem opened_first (hfirst : request.after=none) (h : opened g catalogue request=.ok o) :
    pinRevision catalogue request.revision=.ok o.revision ∧
      g.published o.revision request.filters=.ok () ∧ o.after=none := by
  rw [opened,requestCursor,hfirst] at h
  obtain ⟨cursor,hc,h⟩ := bind_ok h
  obtain rfl := Except.ok.inj hc
  obtain ⟨-,-,h⟩ := bind_ok h
  obtain ⟨revision,hpin,h⟩ := bind_ok h
  obtain ⟨-,-,h⟩ := bind_ok h
  obtain ⟨u,hpub,h⟩ := bind_ok h
  obtain rfl := Except.ok.inj h
  rw [Option.map_none,Option.or_none] at hpin
  exact ⟨hpin,hpub,rfl⟩

theorem opened_row
    (hfirst : request.after=none) (h : opened g catalogue request=.ok o) (r : CardRow)
    (hlen : (rowCursor o.revision request r).length ≤ maximumCursorLength) :
    opened g catalogue { request with after := some (rowCursor o.revision request r) }=
      .ok ⟨o.revision,some r.position⟩ := by
  obtain ⟨hpin,hpub,-⟩ := opened_first hfirst h
  obtain ⟨hid,hagain⟩ := pinRevision_id hpin
  have hcursor : requestCursor { request with after := some (rowCursor o.revision request r) }=
      .ok (some (cursorOf o.revision request r)) := by
    rw [requestCursor]
    dsimp only
    rw [parseCursor_row,if_pos hlen]
  have hsame : (request.revision.any fun t => !t.isEmpty && t != o.revision.id)=false := by
    cases hr : request.revision with
    | none => rfl
    | some t =>
      rw [hr,Option.getD_some] at hid
      rw [hid]
      simp
  have hrequested : request.revision.or (some o.revision.id)=some o.revision.id := by
    cases hr : request.revision with
    | none => rfl
    | some t =>
      rw [hr,Option.getD_some] at hid
      rw [hid]
      rfl
  rw [opened,hcursor]
  simp only [ok_bind,cursorOf,Option.any_some,hsame,Bool.not_false,demand_true,Option.map_some,
    hrequested,hagain,Option.all_some,sameFilters_refl,hpub]
  rfl

/-- Every cursor of the collection can be read again. -/
def ShortCursors (g : Reading) (revision : Revision) (request : Request) : Prop :=
  ∀r∈collectionRows g revision request.filters,
    (rowCursor revision request r).length ≤ maximumCursorLength

/-- The bare envelope fits, and every row alone on whichever page it comes. -/
def EachFits (g : Reading) (revision : Revision) (request : Request) : Prop :=
  around g revision request none ≤ maximumCollectionResponseBytes ∧
  ∀after,(after=none ∨ ∃s∈collectionRows g revision request.filters,
      after=some (rowCursor revision request s)) →
    ∀r∈collectionRows g revision request.filters,FitsAlone g revision { request with after } r

/-- The rows behind a place: all of them, or those behind the row of a cursor. -/
def Stands (g : Reading) (revision : Revision) (request : Request) (place : Option JsString)
    (rest : List CardRow) : Prop :=
  (place=none ∧ rest=collectionRows g revision request.filters) ∨
    ∃done r,place=some (rowCursor revision request r) ∧ rest≠[] ∧
      collectionRows g revision request.filters=done++r::rest

theorem stands_opened (hfirst : request.after=none) (h : opened g catalogue request=.ok o)
    (hshort : ShortCursors g o.revision request) {place : Option JsString}
    (hs : Stands g o.revision request place rest) :
    ∃p,opened g catalogue { request with after := place }=.ok ⟨o.revision,p⟩ ∧
      candidates (g.matching request.filters) o.revision p=rest := by
  rcases hs with ⟨rfl,rfl⟩ | ⟨done,r,rfl,-,he⟩
  · obtain ⟨-,-,hafter⟩ := opened_first hfirst h
    have hsame : { request with after := none }=request := by rw [←hfirst]
    refine ⟨none,?_,rfl⟩
    rw [hsame,h,←hafter]
  · exact ⟨some r.position,opened_row hfirst h r (hshort r (he ▸ by simp)),candidates_after he⟩

theorem stands_page {request' : Request} {place : Option JsString} {page : CardPage}
    (hs : Stands g revision request place rest) (hp : PageOf g revision request' rest page)
    (hfilters : request'.filters=request.filters) :
    ∃left,rest=page.rows++left ∧ (page.next_cursor=none → left=[]) ∧
      ∀c,page.next_cursor=some c → page.rows≠[] ∧ Stands g revision request (some c) left := by
  obtain ⟨left,hleft⟩ := hp.rows
  refine ⟨left,hleft.symm,fun hnone => ?_,fun c hc => ?_⟩
  · rw [hp.last.mp hnone] at hleft
    exact append_right_eq_self.mp hleft
  · obtain ⟨r,hr,hcr⟩ := hp.next c hc
    rw [hcr]
    have hne : left≠[] := by
      rintro rfl
      rw [append_nil] at hleft
      rw [hp.last.mpr hleft] at hc
      cases hc
    obtain ⟨before,hrows⟩ := List.getLast?_eq_some_iff.mp hr
    have hcursor : rowCursor revision request' r=rowCursor revision request r := by
      rw [rowCursor,hfilters,rowCursor]
    refine ⟨by rw [hrows]; simp,.inr ?_⟩
    rw [hrows,append_assoc] at hleft
    rcases hs with ⟨-,rfl⟩ | ⟨done,s,-,-,he⟩
    · exact ⟨before,r,congrArg some hcursor,hne,hleft.symm⟩
    · refine ⟨done++s::before,r,congrArg some hcursor,hne,?_⟩
      rw [he,←hleft]
      simp

theorem cardCollection_follow (hfirst : request.after=none) (h : opened g catalogue request=.ok o)
    (hshort : ShortCursors g o.revision request) (hfits : EachFits g o.revision request)
    {fuel : Nat} (hf : (collectionRows g o.revision request.filters).length < fuel) :
    follow (readPage g catalogue request) fuel none=
      .ok (collectionRows g o.revision request.filters) := by
  refine follow_all (Stands g o.revision request) (fun place rest hs => ?_)
    (.inl ⟨rfl,rfl⟩) hf
  obtain ⟨p,hopen,hrest⟩ := stands_opened hfirst h hshort hs
  have hresponse : cardCollectionResponse g catalogue { request with after := place }=
      pageResponse g o.revision { request with after := place } p := by
    rw [cardCollectionResponse,hopen,ok_bind]
  rcases pageResponse_spec g o.revision { request with after := place } p with
    ⟨page,hok,hpage⟩ | ⟨-,hnofit⟩
  · rw [hrest] at hpage
    obtain ⟨left,hleft,hnone,hsome⟩ := stands_page hs hpage rfl
    refine ⟨page.rows,left,page.next_cursor,?_,hleft,hnone,hsome⟩
    rw [readPage,hresponse,hok]
    rfl
  · exfalso
    dsimp only at hnofit
    rw [hrest] at hnofit
    rcases hs with ⟨rfl,rfl⟩ | ⟨done,s,rfl,hne,he⟩
    · have hsame : { request with after := none }=request := by rw [←hfirst]
      rw [hsame] at hnofit
      cases hr : collectionRows g o.revision request.filters with
      | nil =>
        rw [hr] at hnofit
        exact absurd hfits.1 (not_le.mpr hnofit)
      | cons r rows =>
        have halone := hfits.2 none (.inl rfl) r (hr ▸ mem_cons_self)
        rw [hsame] at halone
        rw [hr] at hnofit
        exact hnofit halone
    · cases rest with
      | nil => exact hne rfl
      | cons r rest =>
        exact hnofit (hfits.2 _ (.inr ⟨s,he ▸ by simp,rfl⟩) r (he ▸ by simp))

/-- The pages of a collection: each is a prefix of what stands at its position, within the budget,
and following the cursors gives every row once. -/
theorem cardCollection_pages (g : Reading) (catalogue : Catalogue) (request : Request)
    (o : Opened) (h : opened g catalogue request=.ok o) :
    ((∃page,cardCollectionResponse g catalogue request=.ok page ∧ PageOf g o.revision request
        (candidates (g.matching request.filters) o.revision o.after) page) ∨
      (cardCollectionResponse g catalogue request=.error budgetExceeded ∧
        NoneFits g o.revision request
          (candidates (g.matching request.filters) o.revision o.after))) ∧
    (request.after=none → ShortCursors g o.revision request → EachFits g o.revision request →
      ∀fuel,(collectionRows g o.revision request.filters).length < fuel →
        follow (readPage g catalogue request) fuel none=
          .ok (collectionRows g o.revision request.filters)) := by
  have hresponse : cardCollectionResponse g catalogue request=
      pageResponse g o.revision request o.after := by
    rw [cardCollectionResponse,h,ok_bind]
  constructor
  · rw [hresponse]
    exact pageResponse_spec g o.revision request o.after
  · exact fun hfirst hshort hfits fuel hf => cardCollection_follow hfirst h hshort hfits hf

/-- A revision with three cards. -/
def threeCards : Revision where
  id := js [ 'r']
  published_at := js [ '2', '0', '2', '6']
  cards := [99,97,98].map fun u => ⟨(Json.obj [(js [ 'i'],.str [u])]).print,⟨[109],[117],[u],[u]⟩,by simp⟩
  named := by simp [js]
  keys := by decide

def plainReading : Reading where
  nfc := .asWritten
  matching := fun _ _ => true
  publicDocument := fun text => (jsonParse text).getD .null
  self := fun _ => js "/v1/cards?limit=1".toList
  published := fun _ _ => .ok ()

/-- The first of the pages of one card each. -/
def firstOfOne : Request where
  filters := ⟨none,none,none,none,none,none,none,[],1,⟨nodup_nil,List.Pairwise.nil⟩,by decide⟩
  revision := none
  after := none

/-- The first of the pages of two cards each. -/
def firstOfTwo : Request := { firstOfOne with
  filters := ⟨none,none,none,none,none,none,none,[],2,⟨nodup_nil,List.Pairwise.nil⟩,by decide⟩ }

def CardPage.ids (page : CardPage) : List JsString := page.rows.map fun r => r.position.id

theorem threeCards_short : ShortCursors plainReading threeCards firstOfTwo := by
  have hall : ∀r∈collectionRows plainReading threeCards firstOfTwo.filters,
    (rowCursor threeCards firstOfTwo r).length ≤ maximumCursorLength := by decide +kernel
  exact hall

theorem threeCards_fit : EachFits plainReading threeCards firstOfTwo := by
  have hall : ∀r∈collectionRows plainReading threeCards firstOfTwo.filters,
      ∀next∈[none,some (rowCursor threeCards firstOfTwo r)],
        (utf8 (serialized plainReading r)).length+around plainReading threeCards firstOfTwo next ≤
          maximumCollectionResponseBytes := by decide +kernel
  refine ⟨by decide +kernel,fun after _ r hr next hnext => ?_⟩
  exact hall r hr next (mem_pair.mpr hnext)

/-- Two pages, whose cursor is followed. -/
theorem threeCards_pages : ∃first c second,
    cardCollectionResponse plainReading ⟨[threeCards],threeCards.id⟩ firstOfTwo=.ok first ∧
    PageOf plainReading threeCards firstOfTwo
      (collectionRows plainReading threeCards firstOfTwo.filters) first ∧
    first.ids=[[97],[98]] ∧ first.next_cursor=some c ∧
    cardCollectionResponse plainReading ⟨[threeCards],threeCards.id⟩
      { firstOfTwo with after := some c }=.ok second ∧
    second.ids=[[99]] ∧ second.next_cursor=none ∧
    follow (readPage plainReading ⟨[threeCards],threeCards.id⟩ firstOfTwo) 4 none=
      .ok (collectionRows plainReading threeCards firstOfTwo.filters) := by
  have hfirst : ((cardCollectionResponse plainReading ⟨[threeCards],threeCards.id⟩
      firstOfTwo).toOption.bind fun p => p.next_cursor.bind fun c =>
        (cardCollectionResponse plainReading ⟨[threeCards],threeCards.id⟩
          { firstOfTwo with after := some c }).toOption.map fun q =>
            (p.ids,q.ids,q.next_cursor))=some ([[97],[98]],[[99]],none) := by decide +kernel
  obtain ⟨first,hok,hc⟩ := Option.bind_eq_some_iff.mp hfirst
  obtain ⟨c,hnext,hq⟩ := Option.bind_eq_some_iff.mp hc
  obtain ⟨second,hok',hids⟩ := Option.map_eq_some_iff.mp hq
  have hok := ok_of_toOption hok
  have hall := cardCollection_pages plainReading ⟨[threeCards],threeCards.id⟩ firstOfTwo
    ⟨threeCards,none⟩ rfl
  rcases hall.1 with ⟨page,hpage,hof⟩ | ⟨herr,-⟩
  · rw [hok] at hpage
    obtain rfl := Except.ok.inj hpage
    obtain ⟨hp,hrest⟩ := Prod.mk.inj hids
    obtain ⟨hs,hlast⟩ := Prod.mk.inj hrest
    exact ⟨first,c,second,hok,hof,hp,hnext,ok_of_toOption hok',hs,hlast,
      hall.2 rfl threeCards_short threeCards_fit 4 (by decide +kernel)⟩
  · rw [hok] at herr
    cases herr

theorem length_le_utf8 (s : JsString) : s.length ≤ (utf8 s).length := by
  induction s using codePoints.induct with
  | case1 => exact le_rfl
  | case2 u =>
    rw [utf8,codePoints,List.flatMap_singleton]
    exact utf8Point_pos _
  | case3 u v us hp ih =>
    have hlong : 2 ≤ (utf8Point (0x10000+(u.toNat-0xd800)*0x400+(v.toNat-0xdc00))).length := by
      rw [utf8Point]
      split_ifs <;> simp
      omega
    rw [utf8_pair hp,length_append,length_cons,length_cons]
    omega
  | case4 u v us hp ih =>
    rw [utf8] at ih ⊢
    rw [codePoints,if_neg hp,flatMap_cons,length_append,length_cons]
    have hpos := utf8Point_pos (if isSurrogate u then 0xfffd else u.toNat)
    omega

theorem commas_length {t : JsString} {ts : List JsString} (h : t∈ts) :
    t.length ≤ (commas ts).length := by
  induction ts using commas.induct with
  | case1 => cases h
  | case2 s => rw [mem_singleton.mp h,commas]
  | case3 s u ts ih =>
    rw [commas,length_append,length_cons]
    rcases mem_cons.mp h with rfl | h
    · omega
    · have hle := ih h
      omega

theorem member_length {m : JsString×Json} {ms : List (JsString×Json)} (h : m∈ms) :
    m.2.print.length ≤ (Json.obj ms).print.length := by
  have hin : quote m.1++58::m.2.print∈printMembers ms := by
    rw [printMembers_map]
    exact mem_map_of_mem h
  have hle := commas_length hin
  rw [length_append,length_cons] at hle
  rw [Json.print,length_cons,length_append]
  omega

theorem escapeUnit_length (u : UInt16) : 1 ≤ (escapeUnit u).length := by
  rw [escapeUnit]
  split_ifs <;> simp

theorem quote_length (s : JsString) : s.length ≤ (quote s).length := by
  have hbody : s.length ≤ (quoteBody s).length := by
    induction s using quoteBody.induct with
    | case1 => exact le_rfl
    | case2 u =>
      rw [quoteBody]
      exact escapeUnit_length u
    | case3 u v us hp ih =>
      rw [quoteBody,if_pos hp]
      simpa using ih
    | case4 u v us hp ih =>
      have hone := escapeUnit_length u
      rw [quoteBody,if_neg hp,length_append]
      simp only [length_cons] at ih ⊢
      omega
  rw [quote,length_cons,length_append]
  omega

theorem rowCursor_length (revision : Revision) (request : Request) (r : CardRow) :
    r.position.identity_value.length ≤ (rowCursor revision request r).length := by
  have hquote := quote_length r.position.identity_value
  have hposition : (quote r.position.identity_value).length ≤ r.position.json.print.length :=
    member_length (m := (js "identity_value".toList,.str r.position.identity_value))
      (by simp)
  have hmembers : r.position.json.print.length ≤
      (Json.obj (cursorOf revision request r).members).print.length :=
    member_length (m := (js "after".toList,r.position.json))
      (by simp [CardCursor.members,cursorOf])
  have hbytes := length_le_utf8 (Json.obj (cursorOf revision request r).members).print
  have hlength : (rowCursor revision request r).length=_ :=
    encodeCursor_length (.obj (cursorOf revision request r).members)
  omega

/-- What following the cursors from a first request should give. -/
def FollowsAll (g : Reading) (catalogue : Catalogue) (request : Request) : Prop :=
  ∀o,opened g catalogue request=.ok o →
    ∃fuel,follow (readPage g catalogue request) fuel none=
      .ok (collectionRows g o.revision request.filters)

/-- One row a page, and a first cursor that cannot be read again: the second row is never
reached. -/
theorem long_cursor_stops (hfirst : request.after=none) (h : opened g catalogue request=.ok o)
    (hlimit : request.filters.limit=1) {r s : CardRow}
    (hrows : collectionRows g o.revision request.filters=r::s::rest)
    (hlong : maximumCursorLength < (rowCursor o.revision request r).length) :
    ¬FollowsAll g catalogue request := by
  intro hall
  obtain ⟨fuel,hf⟩ := hall o h
  rw [hrows] at hf
  have hsame : { request with after := none }=request := by rw [←hfirst]
  have hresponse : cardCollectionResponse g catalogue { request with after := none }=
      pageResponse g o.revision request none := by
    rw [hsame,cardCollectionResponse,h,ok_bind,(opened_first hfirst h).2.2]
  cases fuel with
  | zero => cases hf
  | succ fuel =>
    rw [follow,readPage,hresponse] at hf
    rcases pageResponse_spec g o.revision request none with ⟨page,hok,hpage⟩ | ⟨herr,-⟩
    · change PageOf g o.revision request (collectionRows g o.revision request.filters) page at hpage
      rw [hrows] at hpage
      rw [hok,ok_bind] at hf
      have hone : page.rows=[r] := by
        obtain ⟨left,hleft⟩ := hpage.rows
        have hlen := hpage.limited
        have hne := hpage.nonempty (cons_ne_nil _ _)
        rw [hlimit] at hlen
        cases hp : page.rows with
        | nil => exact absurd hp hne
        | cons t ts =>
          rw [hp] at hleft hlen
          have hts : ts=[] := length_eq_zero_iff.mp (by
            rw [length_cons] at hlen
            omega)
          rw [hts,(List.cons.inj hleft).1]
      cases hc : page.next_cursor with
      | none =>
        have hlast := hpage.last.mp hc
        rw [hone] at hlast
        cases hlast
      | some c =>
        obtain ⟨t,ht,hct⟩ := hpage.next c hc
        rw [hone] at ht
        obtain rfl : r=t := Option.some.inj ht
        have hrefused : requestCursor { request with after := some c }=.error invalidCursor := by
          rw [requestCursor,hct]
          dsimp only
          rw [parseCursor_row,if_neg (by omega)]
        have hnext : readPage g catalogue request (some c)=.error invalidCursor := by
          rw [readPage,cardCollectionResponse,opened,hrefused]
          rfl
        have hf' : (do
            let later ← follow (readPage g catalogue request) fuel (some c)
            return page.rows++later : Except ReadProblem (List CardRow))=.ok (r::s::rest) := by
          have hpage' : (pure (page.rows,page.next_cursor) :
              Except ReadProblem (List CardRow×Option JsString))=.ok (page.rows,some c) := by
            rw [hc]
            rfl
          rw [hpage',ok_bind] at hf
          exact hf
        cases fuel with
        | zero =>
          rw [follow,ok_bind,hone] at hf'
          cases hf'
        | succ fuel =>
          rw [follow,hnext] at hf'
          cases hf'
    · rw [herr] at hf
      cases hf

/-- A card with a publisher name of 16385 letters. -/
def longCard (id : UInt16) : CardRow where
  summary_json := (Json.obj [(js "id".toList,.str [id]),(js "game".toList,.str (js "riftbound".toList)),
    (js "official_identity".toList,.obj [(js "kind".toList,.str (js "publisher_name".toList)),
      (js "value".toList,.str (List.replicate 16385 97))])]).print
  position := ⟨js "riftbound".toList,js "publisher_name".toList,List.replicate 16385 97,[id]⟩
  named := ⟨by simp [js],by simp [js],ne_nil_of_length_pos (by
    rw [length_replicate]
    omega),cons_ne_nil _ _⟩

def longNames : Revision where
  id := js [ 'r']
  published_at := js [ '2', '0', '2', '6']
  cards := [longCard 97,longCard 98]
  named := by simp [js]
  keys := by decide

theorem longNames_not_followed :
    ¬FollowsAll plainReading ⟨[longNames],longNames.id⟩ firstOfOne := by
  have hopen : opened plainReading ⟨[longNames],longNames.id⟩ firstOfOne=.ok ⟨longNames,none⟩ := rfl
  have hall : collectionRows plainReading longNames firstOfOne.filters=
      [longCard 97,longCard 98].insertionSort fun a b => a.key ≤ b.key :=
    filter_eq_self.mpr fun _ _ => rfl
  have hlength : (collectionRows plainReading longNames firstOfOne.filters).length=2 := by
    rw [hall,length_insertionSort]
    rfl
  obtain ⟨r,s,hrows⟩ := length_eq_two.mp hlength
  have hin : r∈[longCard 97,longCard 98] := by
    rw [←mem_insertionSort fun a b : CardRow => a.key ≤ b.key,←hall,hrows]
    exact mem_cons_self
  have hname : r.position.identity_value.length=16385 := by
    simp only [mem_cons,not_mem_nil,or_false] at hin
    rcases hin with h | h <;> rw [h,longCard,length_replicate]
  have hcursor := rowCursor_length longNames firstOfOne r
  have hmax : maximumCursorLength=16384 := rfl
  have hlong : maximumCursorLength < (rowCursor longNames firstOfOne r).length := by omega
  exact long_cursor_stops rfl hopen rfl hrows hlong

end CardKeepr.Read
