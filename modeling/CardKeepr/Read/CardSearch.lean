import CardKeepr.Shared.CanonicalText

namespace CardKeepr.Read
open Shared List

variable {s : JsString} {ps : List JsString}

def maximumNormalizedSearchQueryCodePoints : Nat := 9*1024
def maximumSearchChunkCodePoints : Nat := 12*1024
def searchChunkStride : Nat :=
  maximumSearchChunkCodePoints-maximumNormalizedSearchQueryCodePoints+1

/-- `[...text]`: a surrogate pair or a single unit each. -/
def points : JsString → List JsString
  | [] => []
  | [u] => [[u]]
  | u::v::us => if isPair u v then [u,v]::points us else [u]::points (v::us)

structure SearchableCard where
  official_identity : Option JsString
  name : JsString
  effective_rules_text : Option JsString

structure CardSearchChunk where
  field : Nat
  ordinal : Nat
  text : JsString

/-- The three texts of a card that are searched. -/
def SearchableCard.texts (normalize : JsString → JsString) (card : SearchableCard) :
    List JsString :=
  [normalize (card.official_identity.getD []),normalize card.name,
    normalize (card.effective_rules_text.getD [])]

def cardSearchText (normalize : JsString → JsString) (card : SearchableCard) : JsString :=
  (Json.arr ((card.texts normalize).map Json.str)).print

def asText : Json → Option JsString
  | .str s => some s
  | _ => none

/-- `none` is the error of an invalid document. -/
def searchFields (document : JsString) : Option (List JsString) :=
  match jsonParse document with
  | some (.arr vs) => if vs.length≠3 then none else vs.mapM asText
  | _ => none

/-- The loop over the chunks of a field. -/
def fieldChunks (field : Nat) (ps : List JsString) (start ordinal : Nat) : List CardSearchChunk :=
  if start < ps.length then
    ⟨field,ordinal,((ps.drop start).take maximumSearchChunkCodePoints).flatten⟩::
      (if start+maximumSearchChunkCodePoints ≥ ps.length then []
      else fieldChunks field ps (start+searchChunkStride) (ordinal+1))
  else []
  termination_by ps.length-start
  decreasing_by
    have hs : 0 < searchChunkStride := by decide
    omega

def cardSearchChunks (document : JsString) : Option (List CardSearchChunk) :=
  (searchFields document).map fun fields =>
    fields.zipIdx.flatMap fun f => fieldChunks f.2 (points f.1) 0 0

theorem points_pair {u v : UInt16} (h : isPair u v=true) (s : JsString) :
    points (u::v::s)=[u,v]::points s := by
  rw [points,if_pos h]

theorem points_single {u : UInt16} (h : ∀v∈s.head?,isPair u v=false) :
    points (u::s)=[u]::points s := by
  cases s with
  | nil => rfl
  | cons v us =>
    have hv := h v rfl
    rw [points,hv,if_neg Bool.false_ne_true]

theorem points_cons (u : UInt16) (s : JsString) :
    (∃v us,s=v::us ∧ isPair u v=true) ∨ ∀v∈s.head?,isPair u v=false := by
  cases s with
  | nil => exact Or.inr nofun
  | cons v us =>
    cases hp : isPair u v with
    | true => exact Or.inl ⟨v,us,rfl,hp⟩
    | false =>
      refine Or.inr fun w hw => ?_
      obtain rfl : v=w := Option.some.inj hw
      exact hp

theorem low_not_first {u v w : UInt16} (h : isPair u v=true) : isPair v w=false := by
  simp only [isPair,isHigh,isLow,Bool.and_eq_true,decide_eq_true_eq] at h
  have hv : isHigh v=false := by
    rw [isHigh,decide_eq_false_iff_not]
    omega
  rw [isPair,hv,Bool.false_and]

theorem points_flatten (s : JsString) : (points s).flatten=s := by
  induction s using points.induct with
  | case1 => rfl
  | case2 u => rfl
  | case3 u v us hp ih => rw [points_pair hp,flatten_cons,ih]; rfl
  | case4 u v us hp ih =>
    rw [points,if_neg hp,flatten_cons,ih]
    rfl

theorem points_tail {p : JsString} (h : points s=p::ps) :
    s=p++ps.flatten ∧ points ps.flatten=ps := by
  have hs : s=p++ps.flatten := by rw [←points_flatten s,h,flatten_cons]
  refine ⟨hs,?_⟩
  cases s with
  | nil => cases h
  | cons u s =>
    obtain ⟨v,us,rfl,hp⟩ | hn := points_cons u s
    · rw [points_pair hp] at h
      obtain ⟨-,rfl⟩ := List.cons.inj h
      rw [points_flatten]
    · rw [points_single hn] at h
      obtain ⟨-,rfl⟩ := List.cons.inj h
      rw [points_flatten]

theorem points_suffix {pre : List JsString} (h : points s=pre++ps) : points ps.flatten=ps := by
  induction pre generalizing s with
  | nil =>
    obtain rfl : points s=ps := h
    rw [points_flatten]
  | cons p pre ih => exact ih (points_tail h).2

theorem points_prefix {post : List JsString} (h : points s=ps++post) : points ps.flatten=ps := by
  induction ps generalizing s with
  | nil => rfl
  | cons p ps ih =>
    obtain ⟨hs,ht⟩ := points_tail h
    have hps := ih ht
    cases s with
    | nil => cases h
    | cons u s =>
      obtain ⟨v,us,rfl,hp⟩ | hn := points_cons u s
      · rw [points_pair hp] at h
        obtain ⟨rfl,-⟩ := List.cons.inj h
        exact (points_pair hp _).trans (congrArg _ hps)
      · rw [points_single hn] at h
        obtain ⟨rfl,-⟩ := List.cons.inj h
        have hst : s=ps.flatten++post.flatten := by
          rw [←flatten_append]
          exact (List.cons.inj hs).2
        refine (points_single fun v hv => hn v ?_).trans (congrArg _ hps)
        have hv : ps.flatten.head?=some v := hv
        rw [hst,List.head?_append,hv]
        rfl

theorem points_within (h : ps <:+: points s) : points ps.flatten=ps := by
  obtain ⟨pre,post,h⟩ := h
  rw [append_assoc] at h
  exact points_prefix (points_suffix h.symm)

theorem points_start {q b : JsString} : ∃ps post,points (q++b)=ps++post ∧
    q <+: ps.flatten ∧ ps.length=(points q).length := by
  induction q using points.induct with
  | case1 => exact ⟨[],points b,rfl, nil_prefix,rfl⟩
  | case2 u =>
    obtain ⟨v,us,rfl,hp⟩ | hn := points_cons u b
    · exact ⟨[[u,v]],points us,points_pair hp us,⟨[v],rfl⟩,rfl⟩
    · exact ⟨[[u]],points b,points_single hn,⟨[],rfl⟩,rfl⟩
  | case3 u v us hp ih =>
    obtain ⟨ps,post,he,hq,hl⟩ := ih
    refine ⟨[u,v]::ps,post,?_,?_,?_⟩
    · rw [cons_append,cons_append,points_pair hp,he,cons_append]
    · rw [flatten_cons]
      exact (prefix_append_right_inj [u,v]).mpr hq
    · rw [points_pair hp,length_cons,length_cons,hl]
  | case4 u v us hp ih =>
    obtain ⟨ps,post,he,hq,hl⟩ := ih
    refine ⟨[u]::ps,post,?_,?_,?_⟩
    · rw [cons_append,cons_append,points,if_neg hp,cons_append]
      exact congrArg _ he
    · rw [flatten_cons]
      exact (prefix_append_right_inj [u]).mpr hq
    · rw [points,if_neg hp,length_cons,length_cons,hl]

theorem points_occurrence (a q b : JsString) : ∃pre ps post,points (a++q++b)=pre++ps++post ∧
    q <:+: ps.flatten ∧ ps.length=(points q).length := by
  induction a using points.induct with
  | case1 =>
    obtain ⟨ps,post,he,hq,hl⟩ := points_start (q := q) (b := b)
    exact ⟨[],ps,post,he,hq.isInfix,hl⟩
  | case2 u =>
    cases q with
    | nil => exact ⟨[],[],points ([u]++[]++b),rfl, nil_infix,rfl⟩
    | cons v q =>
      cases hp : isPair u v with
      | true =>
        obtain ⟨ps,post,he,hq,hl⟩ := points_start (q := q) (b := b)
        have hv : points (v::q)=[v]::points q := points_single fun w _ => low_not_first hp
        refine ⟨[],[u,v]::ps,post,?_,?_,?_⟩
        · show points (u::v::(q++b))=_
          rw [points_pair hp,he]
          rfl
        · obtain ⟨t,ht⟩ := hq
          exact ⟨[u],t,by simp [←ht]⟩
        · rw [hv,length_cons,length_cons,hl]
      | false =>
        obtain ⟨ps,post,he,hq,hl⟩ := points_start (q := v::q) (b := b)
        have hu : points (u::(v::q++b))=[u]::points (v::q++b) := by
          refine points_single fun w hw => ?_
          obtain rfl : v=w := Option.some.inj hw
          exact hp
        refine ⟨[[u]],ps,post,?_,hq.isInfix,hl⟩
        show points (u::(v::q++b))=_
        rw [hu,he]
        rfl
  | case3 u v us hp ih =>
    obtain ⟨pre,ps,post,he,hq,hl⟩ := ih
    refine ⟨[u,v]::pre,ps,post,?_,hq,hl⟩
    show points (u::v::(us++q++b))=_
    rw [points_pair hp,he]
    rfl
  | case4 u v us hp ih =>
    obtain ⟨pre,ps,post,he,hq,hl⟩ := ih
    refine ⟨[u]::pre,ps,post,?_,hq,hl⟩
    show points (u::v::(us++q++b))=_
    rw [points,if_neg hp]
    exact congrArg _ he

variable {k : CardSearchChunk}

theorem fieldChunks_window {field : Nat} {start ordinal : Nat} (h : k∈fieldChunks field ps start ordinal) : k.field=field ∧
      ∃s,k.text=((ps.drop s).take maximumSearchChunkCodePoints).flatten := by
  fun_induction fieldChunks field ps start ordinal with
  | case1 start ordinal hlt ih =>
    rw [mem_cons] at h
    obtain rfl | h := h
    · exact ⟨rfl,start,rfl⟩
    · split at h
      · cases h
      · exact ih h
  | case2 start ordinal hge => cases h

theorem fieldChunks_reach (field ordinal : Nat) {start p : Nat}
    (hs : start ≤ p) (hp : p < ps.length) : ∃k∈fieldChunks field ps start ordinal,∃s,s ≤ p ∧
      (p < s+searchChunkStride ∨ ps.length ≤ s+maximumSearchChunkCodePoints) ∧
      k.text=((ps.drop s).take maximumSearchChunkCodePoints).flatten := by
  fun_induction fieldChunks field ps start ordinal with
  | case1 start ordinal hlt ih =>
    by_cases hlast : start+maximumSearchChunkCodePoints ≥ ps.length
    · exact ⟨_,mem_cons_self,start,hs,Or.inr hlast,rfl⟩
    · by_cases hnear : p < start+searchChunkStride
      · exact ⟨_,mem_cons_self,start,hs,Or.inl hnear,rfl⟩
      · obtain ⟨k,hk,rest⟩ := ih (by omega)
        refine ⟨k,mem_cons_of_mem _ ?_,rest⟩
        rwa [if_neg hlast]
  | case2 start ordinal hge => omega

theorem infix_window {α : Type} {pre w post : List α} {s size : Nat} (hs : s ≤ pre.length)
    (he : pre.length+w.length ≤ s+size) : w <:+: ((pre++w++post).drop s).take size := by
  have hd : (pre++w++post).drop s=pre.drop s++w++post := by
    rw [append_assoc,drop_append_of_le_length hs,append_assoc]
  have hl : (pre.drop s++w).length ≤ size := by
    rw [length_append,length_drop]
    omega
  rw [hd,take_append,take_of_length_le hl]
  exact ⟨pre.drop s,_,rfl⟩

theorem fieldChunks_holds (field ordinal : Nat) {w : List JsString} (h : w <:+: ps) (hne : w≠[])
    (hl : w.length ≤ maximumNormalizedSearchQueryCodePoints) :
    ∃k∈fieldChunks field ps 0 ordinal,∃win,win <:+: ps ∧ w <:+: win ∧ k.text=win.flatten := by
  obtain ⟨pre,post,rfl⟩ := h
  have hw := length_pos_iff.mpr hne
  have hp : pre.length < (pre++w++post).length := by
    simp only [length_append]
    omega
  obtain ⟨k,hk,s,hs,hreach,ht⟩ := fieldChunks_reach field ordinal
    (Nat.zero_le pre.length) hp
  refine ⟨k,hk,_,(( take_prefix _ _).isInfix).trans (drop_suffix s _).isInfix,?_,ht⟩
  obtain hnear | hend := hreach
  · refine infix_window hs ?_
    simp only [searchChunkStride,maximumSearchChunkCodePoints,
      maximumNormalizedSearchQueryCodePoints] at hnear hl ⊢
    omega
  · refine infix_window hs ?_
    simp only [length_append] at hend
    omega

theorem flatten_infix {α : Type} {xs ys : List (List α)} (h : xs <:+: ys) :
    xs.flatten <:+: ys.flatten := by
  obtain ⟨pre,post,rfl⟩ := h
  exact ⟨pre.flatten,post.flatten,by simp⟩

theorem window_text {field : Nat} {text : JsString} (h : k∈fieldChunks field (points text) 0 0) :
    k.field=field ∧ ∃win,win <:+: points text ∧ k.text=win.flatten := by
  obtain ⟨hf,s,ht⟩ := fieldChunks_window h
  exact ⟨hf,_,(( take_prefix _ _).isInfix).trans (drop_suffix s _).isInfix,ht⟩

theorem mapM_asText (fields : List JsString) : (fields.map Json.str).mapM asText=some fields := by
  induction fields with
  | nil => rfl
  | cons f fields ih => rw [map_cons,mapM_cons,ih]; rfl

theorem searchFields_cardSearchText (normalize : JsString → JsString) (card : SearchableCard) :
    searchFields (cardSearchText normalize card)=some (card.texts normalize) := by
  have hown : ∀fields : List JsString,(Json.arr (fields.map Json.str)).own=
      Json.arr (fields.map Json.str) := by
    intro fields
    rw [Json.own,ownItems_map,map_map]
    rfl
  have hint : ∀fields : List JsString,(Json.arr (fields.map Json.str)).Integral := by
    intro fields
    rw [Json.Integral,all_arr]
    intro v hv
    obtain ⟨f,-,rfl⟩ := mem_map.mp hv
    trivial
  rw [searchFields,cardSearchText,jsonParse,jsonSyntax_print (hint _),Option.map_some,hown]
  exact mapM_asText _

theorem mem_chunks {fields : List JsString} : k∈fields.zipIdx.flatMap
    (fun f => fieldChunks f.2 (points f.1) 0 0) ↔ ∃(field : Nat)
    (text : JsString),fields[field]?=some text ∧ k∈fieldChunks field (points text) 0 0 := by
  rw [mem_flatMap]
  constructor
  · rintro ⟨⟨text,field⟩,hm,hk⟩
    exact ⟨field,text,List.mem_zipIdx_iff_getElem?.mp hm,hk⟩
  · rintro ⟨field,text,hf,hk⟩
    exact ⟨(text,field),List.mem_zipIdx_iff_getElem?.mpr hf,hk⟩

/-- A query of a card's search is in a field exactly when it is in one of the field's chunks, as
text and as code points, and every chunk is a part of the one field it is stored under. -/
theorem cardSearchChunks_cover {normalize : JsString → JsString} {card : SearchableCard}
    {field : Nat} {text query : JsString} (hf : (card.texts normalize)[field]?=some text)
    (h1 : 1 ≤ (points query).length)
    (hl : (points query).length ≤ maximumNormalizedSearchQueryCodePoints) :
    ∃chunks,cardSearchChunks (cardSearchText normalize card)=some chunks ∧
      (query <:+: text ↔ ∃k∈chunks,k.field=field ∧ query <:+: k.text) ∧
      (points query <:+: points text ↔ ∃k∈chunks,k.field=field ∧ points query <:+: points k.text) ∧
      ∀k∈chunks,∃own,(card.texts normalize)[k.field]?=some own ∧ k.text <:+: own ∧
        points k.text <:+: points own := by
  have hne : ∀w : List JsString,w.length=(points query).length → w≠[] := by
    rintro w hw rfl
    rw [length_nil] at hw
    omega
  have hown : ∀k field own,(card.texts normalize)[field]?=some own →
      k∈fieldChunks field (points own) 0 0 → k.field=field ∧ k.text <:+: own ∧
        points k.text <:+: points own := by
    intro k field own _ hk
    obtain ⟨hfield,win,hwin,ht⟩ := window_text hk
    have hflat := flatten_infix hwin
    rw [points_flatten] at hflat
    rw [ht, points_within hwin]
    exact ⟨hfield,hflat,hwin⟩
  refine ⟨_,by rw [cardSearchChunks,searchFields_cardSearchText]; rfl,?_,?_,?_⟩
  · constructor
    · rintro ⟨a,b,rfl⟩
      obtain ⟨pre,w,post,hp,hq,hw⟩ := points_occurrence a query b
      have hin : w <:+: points (a++query++b) := ⟨pre,post,hp.symm⟩
      obtain ⟨k,hk,win,-,hwin,ht⟩ := fieldChunks_holds field 0 hin (hne w hw) (by omega)
      refine ⟨k,mem_chunks.mpr ⟨field,_,hf,hk⟩,(hown k field _ hf hk).1,?_⟩
      rw [ht]
      exact hq.trans ( flatten_infix hwin)
    · rintro ⟨k,hk,hkf,hq⟩
      obtain ⟨g,own,hg,hk⟩ := mem_chunks.mp hk
      obtain ⟨hfield,hin,-⟩ := hown k g own hg hk
      obtain rfl : g=field := hfield.symm.trans hkf
      obtain rfl : own=text := Option.some.inj (hg.symm.trans hf)
      exact hq.trans hin
  · constructor
    · intro hin
      obtain ⟨k,hk,win,hsub,hwin,ht⟩ := fieldChunks_holds field 0 hin (hne _ rfl) hl
      refine ⟨k,mem_chunks.mpr ⟨field,_,hf,hk⟩,(hown k field _ hf hk).1,?_⟩
      rwa [ht, points_within hsub]
    · rintro ⟨k,hk,hkf,hq⟩
      obtain ⟨g,own,hg,hk⟩ := mem_chunks.mp hk
      obtain ⟨hfield,-,hin⟩ := hown k g own hg hk
      obtain rfl : g=field := hfield.symm.trans hkf
      obtain rfl : own=text := Option.some.inj (hg.symm.trans hf)
      exact hq.trans hin
  · intro k hk
    obtain ⟨g,own,hg,hk⟩ := mem_chunks.mp hk
    obtain ⟨rfl,hin⟩ := hown k g own hg hk
    exact ⟨own,hg,hin⟩

/-- The name of a card without rules text is searched in its one chunk. -/
theorem named_card_found : ∃chunks,
    cardSearchChunks (cardSearchText id ⟨none,js ['a','b'],none⟩)=some chunks ∧
      ∃k∈chunks,k.field=1 ∧ js ['b'] <:+: k.text := by
  have hin : js ['b'] <:+: js ['a','b'] := ⟨[97],[],rfl⟩
  obtain ⟨chunks,hc,htext,-,-⟩ := @cardSearchChunks_cover id ⟨none,js ['a','b'],none⟩ 1 _
    (js ['b']) rfl (by decide) (by decide)
  exact ⟨chunks,hc,htext.mp hin⟩

end CardKeepr.Read
