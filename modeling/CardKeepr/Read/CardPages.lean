import CardKeepr.Read.CardCollection

namespace CardKeepr.Read
open Shared Lib List

section
variable {limit maximum : Nat}

theorem takeRows_sized (limit maximum ordinal sum : Nat) (rows : List CardRow) :
    ∃left,rows=(takeRows (sized limit maximum ordinal sum rows)).1++left ∧
      ((takeRows (sized limit maximum ordinal sum rows)).2=true ↔ left≠[]) ∧
      (takeRows (sized limit maximum ordinal sum rows)).1.length ≤ limit-ordinal := by
  induction rows generalizing ordinal sum with
  | nil => exact ⟨[],rfl,by simp [sized,takeRows],Nat.zero_le _⟩
  | cons r rows ih =>
    rw [sized]
    split_ifs with hj
    · obtain ⟨left,he,hm,hl⟩ := ih (ordinal+1) (sum+(r.summary_bytes+1))
      refine ⟨left,congrArg (r::·) he,hm,?_⟩
      have h1 := hj.1
      rw [takeRows,length_cons]
      omega
    · exact ⟨r::rows,rfl,by simp [takeRows],Nat.zero_le _⟩

theorem takeRows_first {r : CardRow} {rows : List CardRow} (h : 1 ≤ limit) :
    (takeRows (sized limit maximum 0 0 (r::rows))).1≠[] := by
  rw [sized,if_pos ⟨h,.inr rfl⟩,takeRows]
  exact cons_ne_nil _ _

theorem takeRows_page (rows : List CardRow) (h : 1 ≤ limit) :
    ∃left,rows=(takeRows (cardCollectionPage limit maximum rows)).1++left ∧
      ((takeRows (cardCollectionPage limit maximum rows)).2=true ↔ left≠[]) ∧
      (rows≠[] → (takeRows (cardCollectionPage limit maximum rows)).1≠[]) ∧
      (takeRows (cardCollectionPage limit maximum rows)).1.length ≤ limit := by
  obtain ⟨left,he,hm,hl⟩ := takeRows_sized limit maximum 0 0 (rows.take (limit+1))
  rw [cardCollectionPage]
  refine ⟨left++rows.drop (limit+1),?_,hm.trans ⟨fun hne => ?_,fun hne hleft => ?_⟩,fun hne => ?_,hl⟩
  · rw [←append_assoc,←he,take_append_drop]
  · exact fun hnil => hne (append_eq_nil_iff.mp hnil).1
  · refine hne ?_
    rw [hleft,append_nil] at he
    have hlen := congrArg List.length he
    rw [length_take] at hlen
    rw [hleft,nil_append,drop_eq_nil_iff]
    omega
  · cases rows with
    | nil => exact absurd rfl hne
    | cons r rows =>
      rw [take_succ_cons]
      exact takeRows_first h

end

theorem queryCardPage_spec (matching : CardRow → Bool) (r : Revision) {limit : Nat}
    (h : 1 ≤ limit) (after : Option CardPagePosition) :
    ∃left,candidates matching r after=(queryCardPage matching r limit after).1++left ∧
      ((queryCardPage matching r limit after).2=true ↔ left≠[]) ∧
      (candidates matching r after≠[] → (queryCardPage matching r limit after).1≠[]) ∧
      (queryCardPage matching r limit after).1.length ≤ limit :=
  takeRows_page _ h

section
variable {g : Reading} {revision : Revision} {request : Request} {rows : List CardRow}
variable {hasMore : Bool}
variable {n count : Nat}

def dataSize (g : Reading) (rows : List CardRow) : Nat :=
  ((rows.map (serialized g)).map fun row => (utf8 row).length).sum+(rows.length-1)

theorem serialized_wellFormed : ∀t∈rows.map (serialized g),wellFormed t=true := by
  intro t ht
  obtain ⟨r,-,rfl⟩ := mem_map.mp ht
  exact print_wellFormed _

theorem dataSize_eq : dataSize g rows=(utf8 (commas (rows.map (serialized g)))).length := by
  rw [utf8_commas serialized_wellFormed,length_map,dataSize]

theorem dataSize_take (h : count+1 < rows.length) : dataSize g (rows.take (count+2))=dataSize g
    (rows.take (count+1))+ ((((rows.map (serialized g))[count+1]?.map utf8).getD []).length+1) := by
  have hget : rows[count+1]?=some rows[count+1] := List.getElem?_eq_getElem h
  rw [List.getElem?_map,hget,dataSize,dataSize,take_add_one,hget]
  simp only [map_append,sum_append,length_append,length_take]
  simp
  omega

variable (g revision request rows hasMore) in
theorem trim_spec (h : count ≤ rows.length) : (∃n,n ≤ count ∧ (0 < count → 0 < n) ∧
      dataSize g (rows.take n)+around g revision request
        (nextCursor revision request rows hasMore n) ≤ maximumCollectionResponseBytes ∧
      trim g revision request rows hasMore count (dataSize g (rows.take count))=
        .ok (cardPage g revision request rows hasMore n (dataSize g (rows.take n)))) ∨
    (trim g revision request rows hasMore count (dataSize g (rows.take count))=
        .error budgetExceeded ∧
      maximumCollectionResponseBytes < dataSize g (rows.take (min count 1))+
        around g revision request (nextCursor revision request rows hasMore (min count 1))) := by
  induction count with
  | zero =>
    rw [trim]
    split_ifs with hf
    · exact .inl ⟨0,le_rfl,id,hf,rfl⟩
    · exact .inr ⟨rfl,by simpa using hf⟩
  | succ count ih =>
    rw [trim.eq_def]
    split_ifs with hf
    · exact .inl ⟨count+1,le_rfl,id,hf,rfl⟩
    · cases count with
      | zero => exact .inr ⟨rfl,by simpa using hf⟩
      | succ count =>
        have hsub : dataSize g (rows.take (count+2))-
            ((((rows.map (serialized g))[count+1]?.map utf8).getD []).length+1)=
              dataSize g (rows.take (count+1)) := by
          rw [dataSize_take (by omega)]
          omega
        dsimp only
        rw [hsub]
        rcases ih (by omega) with ⟨n,hn,hpos,hfit,he⟩ | ⟨he,hfit⟩
        · exact .inl ⟨n,by omega,fun _ => hpos (by omega),hfit,he⟩
        · refine .inr ⟨he,?_⟩
          have h1 : min (count+1) 1=1 := by omega
          have h2 : min (count+1+1) 1=1 := by omega
          rw [h1] at hfit
          rwa [h2]

/-- A page of the rows that stand at the position of a request. -/
structure PageOf (g : Reading) (revision : Revision) (request : Request) (rest : List CardRow)
    (page : CardPage) : Prop where
  rows : page.rows <+: rest
  limited : page.rows.length ≤ request.filters.limit
  data : page.data=page.rows.map (serialized g)
  accounting : page.dataBytes=(utf8 (commas page.data)).length
  body : page.body=head++(commas page.data++suffix g revision request page.next_cursor)
  size : (utf8 page.body).length=page.dataBytes+around g revision request page.next_cursor
  fits : (utf8 page.body).length ≤ maximumCollectionResponseBytes
  nonempty : rest≠[] → page.rows≠[]
  last : page.next_cursor=none ↔ page.rows=rest
  next : ∀c,page.next_cursor=some c → ∃r,page.rows.getLast?=some r ∧
    c=rowCursor revision request r

/-- A row that fits alone, whether it is the last one or not. -/
def FitsAlone (g : Reading) (revision : Revision) (request : Request) (r : CardRow) : Prop :=
  ∀next,next=none ∨ next=some (rowCursor revision request r) →
    (utf8 (serialized g r)).length+around g revision request next ≤ maximumCollectionResponseBytes

/-- Not even the first of the rows fits; where there is none, the bare envelope does not. -/
def NoneFits (g : Reading) (revision : Revision) (request : Request) : List CardRow → Prop
  | [] => maximumCollectionResponseBytes < around g revision request none
  | r::_ => ¬FitsAlone g revision request r

variable (revision request rows hasMore) in
theorem nextCursor_pos (h0 : 0 < n) (hn : n ≤ rows.length) :
    ∃r,(rows.take n).getLast?=some r ∧ nextCursor revision request rows hasMore n=
      if hasMore=true ∨ n < rows.length then some (rowCursor revision request r) else none := by
  have hlt : n-1 < rows.length := by omega
  have hget : rows[n-1]?=some rows[n-1] := List.getElem?_eq_getElem hlt
  refine ⟨rows[n-1],?_,?_⟩
  · rw [List.getLast?_eq_getElem?,length_take,Nat.min_eq_left hn,List.getElem?_take,
      if_pos (by omega),hget]
  · rw [nextCursor,hget,decide_eq_true h0,Bool.and_true]
    simp only [Bool.or_eq_true,decide_eq_true_eq,Option.map_some]

variable (g revision request) in
theorem body_size (data : List JsString) (h : ∀t∈data,wellFormed t=true) (next : Option JsString) :
    (utf8 (head++(commas data++suffix g revision request next))).length=
      (utf8 (commas data)).length+around g revision request next := by
  have hhead : wellFormed head=true := wellFormed_ascii (by simp [head,js,isAscii])
  rw [around,utf8_append hhead,utf8_append (commas_wellFormed h),utf8_append hhead]
  simp only [length_append]
  omega

theorem cardPage_of {rest left : List CardRow} (he : rest=rows++left)
    (hm : hasMore=true ↔ left≠[]) (hne : rest≠[] → rows≠[])
    (hlim : rows.length ≤ request.filters.limit) (hn : n ≤ rows.length) (hpos : 0 < rows.length → 0 < n)
    (hfit : dataSize g (rows.take n)+around g revision request
      (nextCursor revision request rows hasMore n) ≤ maximumCollectionResponseBytes) :
    PageOf g revision request rest
      (cardPage g revision request rows hasMore n (dataSize g (rows.take n))) := by
  have hwell : ∀t∈(rows.take n).map (serialized g),wellFormed t=true := serialized_wellFormed
  have hsize := body_size g revision request _ hwell
    (nextCursor revision request rows hasMore n)
  rw [←dataSize_eq] at hsize
  refine ⟨?_,(length_take_le _ _).trans (hn.trans hlim),rfl,dataSize_eq,rfl,hsize,hsize.trans_le hfit,fun hr => ?_,?_,fun c hc => ?_⟩
  · exact ( take_prefix n rows).trans (he ▸ prefix_append rows left)
  · have hlen := length_pos_of_ne_nil (hne hr)
    have hn0 := hpos hlen
    exact ne_nil_of_length_pos (by
      change 0 < (rows.take n).length
      rw [length_take]
      omega)
  · change nextCursor revision request rows hasMore n=none ↔ rows.take n=rest
    rcases Nat.eq_zero_or_pos n with rfl | h0
    · have hrows : rows=[] := by
        by_contra hr
        exact absurd (hpos (length_pos_of_ne_nil hr)) (lt_irrefl 0)
      have hrest : rest=[] := by
        by_contra hr
        exact hne hr hrows
      rw [hrows,hrest]
      simp [nextCursor]
    · obtain ⟨r,-,hnext⟩ := nextCursor_pos revision request rows hasMore h0 hn
      rw [hnext,ite_eq_right_iff,he]
      constructor
      · intro hnone
        have hall : ¬(hasMore=true ∨ n < rows.length) := fun h => by cases hnone h
        have hleft : left=[] := by
          by_contra hl
          exact hall (.inl (hm.mpr hl))
        have hlen : rows.length ≤ n := by
          by_contra hl
          exact hall (.inr (by omega))
        rw [hleft,append_nil,take_of_length_le hlen]
      · intro htake
        have hlen := congrArg List.length htake
        rw [length_take,length_append] at hlen
        rintro (h | h)
        · have hl := length_pos_of_ne_nil (hm.mp h)
          omega
        · omega
  · have hc' : nextCursor revision request rows hasMore n=some c := hc
    have h0 : 0 < n := by
      by_contra h0
      obtain rfl : n=0 := by omega
      simp [nextCursor] at hc'
    obtain ⟨r,hr,hnext⟩ := nextCursor_pos revision request rows hasMore h0 hn
    rw [hnext] at hc'
    split_ifs at hc'
    exact ⟨r,hr,(Option.some.inj hc').symm⟩

theorem pageResponse_spec (g : Reading) (revision : Revision) (request : Request)
    (after : Option CardPagePosition) :
    (∃page,pageResponse g revision request after=.ok page ∧ PageOf g revision request
      (candidates (g.matching request.filters) revision after) page) ∨
    (pageResponse g revision request after=.error budgetExceeded ∧ NoneFits g revision request
      (candidates (g.matching request.filters) revision after)) := by
  obtain ⟨left,he,hm,hne,hlim⟩ := queryCardPage_spec (g.matching request.filters) revision
    request.filters.limited.1 after
  have hstart : pageResponse g revision request after=
      trim g revision request (queryCardPage (g.matching request.filters) revision
        request.filters.limit after).1 (queryCardPage (g.matching request.filters) revision
        request.filters.limit after).2 (queryCardPage (g.matching request.filters) revision
        request.filters.limit after).1.length (dataSize g (List.take (queryCardPage
        (g.matching request.filters) revision request.filters.limit after).1.length
        (queryCardPage (g.matching request.filters) revision request.filters.limit after).1)) := by
    rw [take_length,pageResponse,dataSize,length_map]
  revert hstart he hm hne hlim
  generalize queryCardPage (g.matching request.filters) revision request.filters.limit after=q
  generalize candidates (g.matching request.filters) revision after=rest
  intro he hm hne hlim hstart
  rcases trim_spec g revision request q.1 q.2 le_rfl with ⟨n,hn,hpos,hfit,hok⟩ | ⟨herr,hfit⟩
  · exact .inl ⟨_,hstart.trans hok,cardPage_of he hm hne hlim hn hpos hfit⟩
  · refine .inr ⟨hstart.trans herr,?_⟩
    rcases rest with _ | ⟨s,rest⟩
    · have hq : q.1=[] := (append_eq_nil_iff.mp he.symm).1
      rw [hq] at hfit
      simpa [nextCursor,dataSize,NoneFits] using hfit
    intro halone
    obtain ⟨t,rows,hq⟩ := exists_cons_of_length_pos
      (length_pos_of_ne_nil (hne (cons_ne_nil s rest)))
    obtain rfl : s=t := by
      rw [hq,cons_append] at he
      exact (List.cons.inj he).1
    have hlen : 0 < q.1.length := by
      rw [hq]
      exact Nat.succ_pos _
    have hmin : min q.1.length 1=1 := by omega
    rw [hmin] at hfit
    obtain ⟨t,ht,hnext⟩ := nextCursor_pos revision request q.1 q.2 Nat.one_pos hlen
    rw [hq,take_succ_cons,take_zero,List.getLast?_singleton] at ht
    obtain rfl := Option.some.inj ht
    have hsize : dataSize g (List.take 1 q.1)=(utf8 (serialized g s)).length := by
      rw [hq,dataSize]
      simp
    have hle := halone (nextCursor revision request q.1 q.2 1) (by
      rw [hnext]
      split_ifs
      · exact .inr rfl
      · exact .inl rfl)
    omega

end

end CardKeepr.Read
