import CardKeepr.Publication.SearchProjection
import CardKeepr.Reconciliation.Text

namespace CardKeepr.Publication.Preparation
open Shared Read Lib List
open CardKeepr.Reconciliation (sliceEnd slices textSlices)

section
variable {normalize : JsString → JsString} {card : PreparedCard} {c : Cursor}
  {rows : List CardSearchChunk}

/-- From the cursor on, the units end and retain the rows. -/
def Retains (normalize : JsString → JsString) (card : PreparedCard) (c : Cursor)
    (rows : List CardSearchChunk) : Prop :=
  ∃n last,searchUnits normalize card n c=.ok (rows,last) ∧ searchUnit normalize card last=.ok none

attribute [local simp] searchUnits viewRows

theorem retains_done (h : searchUnit normalize card c=.ok none) :
    Retains normalize card c rows ↔ rows=[] := by
  constructor
  · rintro ⟨n,last,hn,-⟩
    cases n with
    | zero => exact (congrArg Prod.fst (Except.ok.inj hn)).symm
    | succ n =>
      rw [searchUnits,h] at hn
      exact (congrArg Prod.fst (Except.ok.inj hn)).symm
  · rintro rfl
    exact ⟨0,c,rfl,h⟩

theorem retains_unit {row : CardSearchChunk} {next : Cursor}
    (h : searchUnit normalize card c=.ok (some (row,next))) :
    Retains normalize card c rows ↔ ∃more,rows=row::more ∧ Retains normalize card next more := by
  constructor
  · rintro ⟨n,last,hn,hlast⟩
    cases n with
    | zero =>
      have hc : c=last := congrArg Prod.snd (Except.ok.inj hn)
      rw [← hc,h] at hlast
      cases hlast
    | succ n =>
      rw [searchUnits,h] at hn
      change (searchUnits normalize card n next >>= _)=_ at hn
      obtain ⟨⟨more,final⟩,hmore,hn⟩ := bind_ok hn
      obtain ⟨rfl,rfl⟩ := Prod.mk.inj (Except.ok.inj hn)
      exact ⟨more,rfl,n,final,hmore,hlast⟩
  · rintro ⟨more,rfl,n,last,hn,hlast⟩
    refine ⟨n+1,last,?_,hlast⟩
    rw [searchUnits,h]
    change (searchUnits normalize card n next >>= _)=_
    rw [hn]
    rfl

theorem retains_failed {e : Failure} (h : searchUnit normalize card c=.error e) :
    ¬Retains normalize card c rows := by
  rintro ⟨n,last,hn,hlast⟩
  cases n with
  | zero =>
    have hc : c=last := congrArg Prod.snd (Except.ok.inj hn)
    rw [← hc,h] at hlast
    cases hlast
  | succ n =>
    rw [searchUnits,h] at hn
    cases hn

end

theorem sourceText_overlapped {first text : JsString} {more : List JsString} {k : Nat}
    (h : (overlapped first more)[k]?=some text) :
    (CardField.part first more).sourceText (k+1)=.ok text := by
  induction more generalizing first k with
  | nil => cases h
  | cons source more ih =>
    cases k with
    | zero =>
      obtain rfl : overlap first++source=text := Option.some.inj h
      rfl
    | succ k =>
      have hk := @ih source k h
      exact hk

theorem sourceText_view {field : CardField} {text : JsString} {k : Nat}
    (h : field.views[k]?=some text) : field.sourceText k=.ok text := by
  cases field with
  | inline value =>
    cases k with
    | zero => exact congrArg Except.ok (Option.some.inj h)
    | succ k => cases h
  | part first more =>
    cases k with
    | zero => exact congrArg Except.ok (Option.some.inj h)
    | succ k => exact sourceText_overlapped h

theorem overlapped_length (first : JsString) (more : List JsString) :
    (overlapped first more).length=more.length := by
  induction more generalizing first with
  | nil => rfl
  | cons source more ih => exact congrArg (·+1) (ih source)

theorem finished_views (field : CardField) {k : Nat} (h : k < field.views.length) :
    field.finished (k+1)=decide (field.views.length=k+1) := by
  cases field with
  | inline value =>
    have hk : k=0 := by
      change k < 1 at h
      omega
    subst hk
    rfl
  | part first more =>
    change (k+1==more.length+1)=decide ((overlapped first more).length+1=k+1)
    rw [overlapped_length,Bool.eq_iff_iff,beq_iff_eq,decide_eq_true_iff]
    omega

/-- Where the units go on when a view is done. -/
def afterView (field : CardField) (c : Cursor) (ordinal : Nat) : Cursor :=
  if field.finished (c.chunk+1) then ⟨c.text+1,0,some 0,some 0⟩
  else ⟨c.text,c.chunk+1,some 0,some ordinal⟩

section
variable {normalize : JsString → JsString} {card : PreparedCard} {c : Cursor}
  {rows : List CardSearchChunk} {field : CardField} {text : JsString}

theorem searchUnit_field (hf : card.fields[c.text]?=some field)
    (ht : field.sourceText c.chunk=.ok text) : searchUnit normalize card c=
      if (points (normalize text)).length > 768000 then .error .publication_capacity_exceeded
      else .ok (some (⟨c.text,c.search_ordinal.getD 0,
        (((points (normalize text)).drop (c.search_offset.getD 0)).take
          maximumSearchChunkCodePoints).flatten⟩,
        if c.search_offset.getD 0+maximumSearchChunkCodePoints ≥ (points (normalize text)).length
        then afterView field c (c.search_ordinal.getD 0+1)
        else ⟨c.text,c.chunk,some (c.search_offset.getD 0+searchChunkStride),
          some (c.search_ordinal.getD 0+1)⟩)) := by
  rw [searchUnit,hf]
  change (field.sourceText c.chunk >>= _)=_
  rw [ht]
  rfl

theorem retains_unfit (hf : card.fields[c.text]?=some field)
    (ht : field.sourceText c.chunk=.ok text)
    (hfit : ¬(points (normalize text)).length ≤ 768000) : ¬Retains normalize card c rows := by
  have hunit := @searchUnit_field normalize _ _ _ _ hf ht
  rw [if_pos (by omega)] at hunit
  exact retains_failed hunit

theorem retains_view {f : Nat} {ps : List JsString} {offset ordinal : Nat}
    (hps : points (normalize text)=ps) (hfit : ps.length ≤ 768000) (hc : c.text=f)
    (ho : c.search_offset.getD 0=offset) (hn : c.search_ordinal.getD 0=ordinal)
    (hf : card.fields[c.text]?=some field) (ht : field.sourceText c.chunk=.ok text) : Retains
    normalize card c rows ↔ ∃more,rows=windows f ps offset ordinal++more ∧ Retains normalize card
    (afterView field c (ordinal+(windows f ps offset ordinal).length)) more := by
  fun_induction windows f ps offset ordinal generalizing c rows with
  | case1 offset ordinal hlast =>
    have hunit := @searchUnit_field normalize _ _ _ _ hf ht
    rw [hps,hc,ho,hn,if_neg (by omega),if_pos hlast] at hunit
    exact retains_unit hunit
  | case2 offset ordinal hlast ih =>
    have hunit := @searchUnit_field normalize _ _ _ _ hf ht
    rw [hps,hc,ho,hn,if_neg (by omega),if_neg hlast] at hunit
    have hgo := fun rows => @ih ⟨f,c.chunk,some (offset+searchChunkStride),some (ordinal+1)⟩ rows
      rfl rfl rfl (hc▸hf) ht
    have hafter : ∀n,afterView field ⟨f,c.chunk,some (offset+searchChunkStride),some (ordinal+1)⟩ n=
        afterView field c n := fun n => by rw [← hc]; rfl
    rw [retains_unit hunit]
    simp only [hgo,hafter,length_cons,cons_append]
    constructor
    · rintro ⟨_,rfl,more,rfl,hmore⟩
      refine ⟨more,rfl,?_⟩
      rwa [show ordinal+((windows f ps (offset+searchChunkStride) (ordinal+1)).length+1)=
        ordinal+1+(windows f ps (offset+searchChunkStride) (ordinal+1)).length by omega]
    · rintro ⟨more,rfl,hmore⟩
      refine ⟨_,rfl,more,rfl,?_⟩
      rwa [show ordinal+1+(windows f ps (offset+searchChunkStride) (ordinal+1)).length=
        ordinal+((windows f ps (offset+searchChunkStride) (ordinal+1)).length+1) by omega]

theorem retains_views {f ordinal : Nat} {done views : List JsString} (hviews : views≠[])
    (hv : field.views=done++views) (hc : c.text=f) (hk : c.chunk=done.length)
    (ho : c.search_offset.getD 0=0) (hn : c.search_ordinal.getD 0=ordinal)
    (hf : card.fields[f]?=some field) : Retains normalize card c rows ↔
    (∀v∈views,(points (normalize v)).length ≤ 768000) ∧ ∃more,rows=viewRows normalize f views
    ordinal++more ∧ Retains normalize card ⟨f+1,0,some 0,some 0⟩ more := by
  induction views generalizing c rows ordinal done with
  | nil => exact absurd rfl hviews
  | cons view views ih =>
    have hlt : done.length < field.views.length := by
      rw [hv,length_append,length_cons]
      omega
    have ht : field.sourceText c.chunk=.ok view := by
      apply sourceText_view
      rw [hv,hk]
      simp
    by_cases hfit : (points (normalize view)).length ≤ 768000
    · rw [retains_view rfl hfit hc ho hn (hc▸hf) ht]
      have hend := finished_views field hlt
      simp only [forall_mem_cons,hfit,true_and,afterView,hk,hend,viewRows,hc]
      cases views with
      | nil =>
        rw [hv,length_append,length_singleton]
        simp [viewRows]
      | cons next views =>
        have hmore : ¬field.views.length=done.length+1 := by
          rw [hv,length_append,length_cons,length_cons]
          omega
        rw [decide_eq_false hmore,if_neg Bool.false_ne_true]
        have hgo := fun ordinal rows => @ih
          ⟨f,done.length+1,some 0,some ordinal⟩ rows ordinal (done++[view]) (by simp)
          (by rw [hv]; simp) rfl (by simp) rfl rfl
        simp only [hgo,append_assoc]
        constructor
        · rintro ⟨_,rfl,hall,more,rfl,hmore⟩
          exact ⟨hall,more,rfl,hmore⟩
        · rintro ⟨hall,more,rfl,hmore⟩
          exact ⟨_,rfl,hall,more,rfl,hmore⟩
    · have hnot := @retains_unfit _ _ _ rows _ _ (hc▸hf) ht hfit
      exact ⟨fun h => absurd h hnot,fun h => absurd (h.1 view mem_cons_self) hfit⟩

theorem views_nonempty (field : CardField) : field.views≠[] := by
  cases field with
  | inline value => exact cons_ne_nil _ _
  | part first more => exact cons_ne_nil _ _

theorem retains_field {f : Nat} (hc : c.text=f) (hk : c.chunk=0) (ho : c.search_offset.getD 0=0)
    (hn : c.search_ordinal.getD 0=0) (hf : card.fields[f]?=some field) : Retains normalize card c
    rows ↔ Fits normalize field ∧ ∃more,rows=fieldRows normalize field f++more ∧ Retains normalize
    card ⟨f+1,0,some 0,some 0⟩ more :=
  @retains_views normalize card c rows field f 0 [] field.views (views_nonempty field) rfl hc hk ho hn hf

theorem retains_card : Retains normalize card .start rows ↔
    (∀field∈card.fields,Fits normalize field) ∧ rows=fieldRows normalize card.official_identity
    0++(fieldRows normalize card.name 1++ fieldRows normalize card.effective_rules_text 2) := by
  have hdone : ∀rows,Retains normalize card ⟨3,0,some 0,some 0⟩ rows ↔ rows=[] := fun rows =>
    retains_done rfl
  rw [@retains_field normalize card .start rows card.official_identity 0 rfl rfl rfl rfl rfl]
  simp only [fun rows => @retains_field normalize card ⟨0+1,0,some 0,some 0⟩ rows card.name 1
      rfl rfl rfl rfl rfl,
    fun rows => @retains_field normalize card ⟨1+1,0,some 0,some 0⟩ rows card.effective_rules_text 2
      rfl rfl rfl rfl rfl,hdone]
  simp only [PreparedCard.fields,forall_mem_cons]
  constructor
  · rintro ⟨h0,_,rfl,h1,_,rfl,h2,_,rfl,rfl⟩
    simp [h0,h1,h2]
  · rintro ⟨⟨h0,h1,h2,-⟩,rfl⟩
    exact ⟨h0,_,rfl,h1,_,rfl,h2,[],by simp,rfl⟩

end

theorem windows_of {f : Nat} {ps : List JsString} {offset ordinal : Nat} {r : CardSearchChunk}
    (h : r∈windows f ps offset ordinal) :
    r.field=f ∧ ∃s,r.text=((ps.drop s).take maximumSearchChunkCodePoints).flatten := by
  fun_induction windows f ps offset ordinal with
  | case1 offset ordinal hlast =>
    rw [mem_singleton] at h
    exact h▸⟨rfl,offset,rfl⟩
  | case2 offset ordinal hlast ih =>
    obtain rfl | h := mem_cons.mp h
    · exact ⟨rfl,offset,rfl⟩
    · exact ih h

theorem windows_ordinals (f : Nat) (ps : List JsString) (offset ordinal : Nat) :
    (windows f ps offset ordinal).map CardSearchChunk.ordinal=
      List.range' ordinal (windows f ps offset ordinal).length := by
  fun_induction windows f ps offset ordinal with
  | case1 offset ordinal hlast => rfl
  | case2 offset ordinal hlast ih => simp [ih,range'_succ]

theorem windows_chunks (f : Nat) {ps : List JsString} {offset : Nat} (ordinal : Nat)
    (h : offset < ps.length) : windows f ps offset ordinal=fieldChunks f ps offset ordinal := by
  fun_induction windows f ps offset ordinal with
  | case1 offset ordinal hlast => rw [fieldChunks,if_pos h,if_pos hlast]
  | case2 offset ordinal hlast ih =>
    have hs : searchChunkStride ≤ maximumSearchChunkCodePoints := by decide
    rw [fieldChunks,if_pos h,if_neg hlast,ih (by omega)]

section
variable {normalize : JsString → JsString} {f ordinal : Nat} {query text : JsString}
  {views : List JsString} {r : CardSearchChunk}

theorem windows_within (h : r∈windows f (points text) 0 ordinal) :
    ∃win,win <:+: points text ∧ r.text=win.flatten := by
  obtain ⟨-,s,ht⟩ := windows_of h
  exact ⟨_,( take_prefix _ _).isInfix.trans (drop_suffix s _).isInfix,ht⟩

theorem windows_bounded (h : r∈windows f (points text) 0 ordinal) :
    (points r.text).length ≤ maximumSearchChunkCodePoints := by
  obtain ⟨-,s,ht⟩ := windows_of h
  have hin : ((points text).drop s).take maximumSearchChunkCodePoints <:+: points text :=
    ( take_prefix _ _).isInfix.trans (drop_suffix s _).isInfix
  rw [ht,points_within hin]
  exact length_take_le _ _

theorem windows_hold (h1 : 1 ≤ (points query).length)
    (hl : (points query).length ≤ maximumNormalizedSearchQueryCodePoints) :
    (∃r∈windows f (points text) 0 ordinal,query <:+: r.text) ↔ query <:+: text := by
  constructor
  · rintro ⟨r,hr,hq⟩
    obtain ⟨win,hwin,ht⟩ := windows_within hr
    have hflat := flatten_infix hwin
    rw [points_flatten] at hflat
    rw [ht] at hq
    exact hq.trans hflat
  · rintro ⟨a,b,rfl⟩
    obtain ⟨pre,w,post,hp,hq,hw⟩ := points_occurrence a query b
    have hin : w <:+: points (a++query++b) := ⟨pre,post,hp.symm⟩
    have hne : w≠[] := by
      rintro rfl
      rw [length_nil] at hw
      omega
    have hpos : 0 < (points (a++query++b)).length := by
      rw [hp]
      simp only [length_append]
      omega
    obtain ⟨k,hk,win,-,hwin,ht⟩ := fieldChunks_holds f ordinal hin hne (by omega)
    refine ⟨k,?_,?_⟩
    · rwa [windows_chunks f ordinal hpos]
    · rw [ht]
      exact hq.trans ( flatten_infix hwin)

theorem viewRows_mem : r∈viewRows normalize f views ordinal →
    ∃view∈views,∃n,r∈windows f (points (normalize view)) 0 n := by
  induction views generalizing ordinal with
  | nil => intro h; cases h
  | cons view views ih =>
    intro h
    obtain h | h := mem_append.mp h
    · exact ⟨view,mem_cons_self,ordinal,h⟩
    · obtain ⟨v,hv,n,hr⟩ := ih h
      exact ⟨v,mem_cons_of_mem _ hv,n,hr⟩

theorem viewRows_hold (h1 : 1 ≤ (points query).length)
    (hl : (points query).length ≤ maximumNormalizedSearchQueryCodePoints) :
    (∃r∈viewRows normalize f views ordinal,query <:+: r.text) ↔
      ∃view∈views,query <:+: normalize view := by
  induction views generalizing ordinal with
  | nil => simp [viewRows]
  | cons view views ih =>
    simp only [viewRows,mem_append,or_and_right,exists_or,exists_mem_cons_iff,windows_hold h1 hl,ih]

theorem viewRows_ordinals : (viewRows normalize f views ordinal).map CardSearchChunk.ordinal=
    List.range' ordinal (viewRows normalize f views ordinal).length := by
  induction views generalizing ordinal with
  | nil => rfl
  | cons view views ih =>
    rw [viewRows,map_append,windows_ordinals,ih,length_append,← range'_append_1]

end

section
variable {normalize : JsString → JsString} {f : Nat} {r : CardSearchChunk}
variable {field : CardField}

theorem fieldRows_field (h : r∈fieldRows normalize field f) : r.field=f := by
  obtain ⟨_,-,_,hr⟩ := viewRows_mem h
  exact (windows_of hr).1

theorem fieldRows_filter (field : CardField) (f g : Nat) :
    (fieldRows normalize field f).filter (fun r => r.field==g)=
      if f=g then fieldRows normalize field f else [] := by
  split
  · next h =>
    rw [filter_eq_self]
    intro r hr
    rw [fieldRows_field hr,h]
    exact beq_self_eq_true g
  · next h =>
    rw [filter_eq_nil_iff]
    intro r hr
    rw [fieldRows_field hr,beq_iff_eq]
    exact h

theorem cardRows_filter {card : PreparedCard} (h : card.fields[f]?=some field) :
    (cardRows normalize card).filter (fun r => r.field==f)=fieldRows normalize field f := by
  simp only [cardRows,filter_append,fieldRows_filter]
  obtain rfl | rfl | rfl | hlt : f=0 ∨ f=1 ∨ f=2 ∨ 3 ≤ f := by omega
  · obtain rfl : card.official_identity=field := Option.some.inj h
    simp
  · obtain rfl : card.name=field := Option.some.inj h
    simp
  · obtain rfl : card.effective_rules_text=field := Option.some.inj h
    simp
  · rw [List.getElem?_eq_none_iff.mpr hlt] at h
    cases h

theorem cardRows_bounded {card : PreparedCard} (h : r∈cardRows normalize card) :
    (points r.text).length ≤ maximumSearchChunkCodePoints := by
  have hfield : ∀field f,r∈fieldRows normalize field f →
      (points r.text).length ≤ maximumSearchChunkCodePoints := by
    intro field f hr
    obtain ⟨_,-,_,hr⟩ := viewRows_mem hr
    exact windows_bounded hr
  obtain h | h := mem_append.mp h
  · exact hfield _ _ h
  · obtain h | h := mem_append.mp h
    · exact hfield _ _ h
    · exact hfield _ _ h

theorem cardRows_hold {card : PreparedCard} {query : JsString} (h : card.fields[f]?=some field)
    (hq : Query normalize query) : (∃r∈cardRows normalize card,r.field=f ∧ query <:+: r.text) ↔
    ∃view∈field.views,query <:+: normalize view := by
  rw [← @viewRows_hold _ f 0 _ _ hq.nonempty hq.bounded]
  change _ ↔ ∃r∈fieldRows normalize field f,_
  rw [← cardRows_filter h]
  simp [mem_filter,and_assoc]

theorem cardRows_shown {card : PreparedCard} {query : JsString} (h1 : 1 ≤ (points query).length)
    (hl : (points query).length ≤ maximumNormalizedSearchQueryCodePoints) :
    (∃r∈cardRows normalize card,query <:+: r.text) ↔
      ∃field∈card.fields,∃view∈field.views,query <:+: normalize view := by
  have hfield : ∀field f,(∃r∈fieldRows normalize field f,query <:+: r.text) ↔
      ∃view∈field.views,query <:+: normalize view := fun field f => viewRows_hold h1 hl
  simp only [cardRows,mem_append,or_and_right,exists_or,hfield,PreparedCard.fields,
    exists_mem_cons_iff,not_mem_nil,false_and,exists_false,or_false]

/-- No view shows a query that the whole text lacks, and none is lost between the views. -/
structure Seamless (normalize : JsString → JsString) (field : CardField) : Prop where
  unforged : ∀query,Query normalize query → ∀view∈field.views,query <:+: normalize view →
    query <:+: normalize field.whole
  unlost : ∀query,Query normalize query → query <:+: normalize field.whole →
    ∃view∈field.views,query <:+: normalize view

theorem seamless_iff : Seamless normalize field ↔ ∀query,Query normalize query →
      (query <:+: normalize field.whole ↔ ∃view∈field.views,query <:+: normalize view) := by
  constructor
  · intro h query hq
    constructor
    · exact h.unlost query hq
    · rintro ⟨view,hview,hin⟩
      exact h.unforged query hq view hview hin
  · intro h
    exact ⟨fun query hq view hview hin => (h query hq).mpr ⟨view,hview,hin⟩,
      fun query hq => (h query hq).mp⟩

theorem covered_iff (card : PreparedCard) : Covered normalize card ↔
    ∀field∈card.fields,Fits normalize field ∧ Seamless normalize field := by
  constructor
  · rintro ⟨n,rows,last,hn,hlast,hall⟩ field hfield
    obtain ⟨hfits,rfl⟩ := retains_card.mp ⟨n,last,hn,hlast⟩
    refine ⟨hfits field hfield,seamless_iff.mpr ?_⟩
    intro query hq
    obtain ⟨f,hf⟩ := List.mem_iff_getElem?.mp hfield
    rw [(hall f field hf).2.2 query hq]
    exact cardRows_hold hf hq
  · intro h
    obtain ⟨n,last,hn,hlast⟩ := retains_card.mpr ⟨fun field hfield => (h field hfield).1,rfl⟩
    refine ⟨n,cardRows normalize card,last,hn,hlast,?_⟩
    intro f field hf
    refine ⟨?_,fun r hr => cardRows_bounded hr,?_⟩
    · rw [cardRows_filter hf]
      exact ⟨_,viewRows_ordinals.trans (range_eq_range' ..).symm⟩
    · intro query hq
      rw [cardRows_hold hf hq]
      exact seamless_iff.mp (h field (List.mem_iff_getElem?.mpr ⟨f,hf⟩)).2 query hq

end

section
variable {normalize : JsString → JsString} {first : JsString} {more : List JsString}

/-- Every short stretch of the normalized rows lies in a view. -/
theorem stretch_viewed {w : List JsString} (h : Chained normalize first more)
    (hw : w.length ≤ maximumNormalizedSearchQueryCodePoints)
    (hin : w <:+: ((first::more).map fun row => points (normalize row)).flatten) :
    ∃view∈first::overlapped first more,w <:+: points (normalize view) := by
  induction more generalizing first with
  | nil =>
    refine ⟨first,mem_cons_self,?_⟩
    rwa [map_singleton,flatten_singleton] at hin
  | cons source more ih =>
    obtain ⟨htail,hjoin,hlong,hrest⟩ := h
    have hlater : ∀view∈source::overlapped source more,w <:+: points (normalize view) →
        ∃view∈first::overlapped first (source::more),w <:+: points (normalize view) := by
      intro view hview hw
      obtain rfl | hview := mem_cons.mp hview
      · refine ⟨overlap first++view,mem_cons_of_mem _ mem_cons_self,?_⟩
        rw [hjoin]
        exact hw.trans infix_append_right
      · exact ⟨view,mem_cons_of_mem _ (mem_cons_of_mem _ hview),hw⟩
    rw [map_cons,flatten_cons,infix_append_iff_ne_nil] at hin
    obtain hin | hin | ⟨x,y,hx,hy,rfl,hend,hstart⟩ := hin
    · exact ⟨first,mem_cons_self,hin⟩
    · obtain ⟨view,hview,hin⟩ := ih hrest hin
      exact hlater view hview hin
    · -- The stretch crosses the edge behind the first row: the overlap holds its head.
      have hx1 := length_pos_iff.mpr hx
      have hy1 := length_pos_iff.mpr hy
      rw [length_append] at hw
      have hhead : x <:+ points (normalize (overlap first)) :=
        suffix_of_suffix_length_le hend htail (by omega)
      have hbody : y <+: points (normalize source) := by
        rw [map_cons,flatten_cons] at hstart
        obtain hle | hgt := Nat.le_total y.length (points (normalize source)).length
        · exact prefix_of_prefix_length_le hstart (prefix_append _ _) hle
        · cases more with
          | nil => rwa [map_nil,flatten_nil,append_nil] at hstart
          | cons next more =>
            have hsource := hrest.1.length_le
            have hnext := hrest.2.2.1
            exact prefix_of_prefix_length_le hstart (prefix_append _ _) (by omega)
      refine ⟨overlap first++source,mem_cons_of_mem _ mem_cons_self,?_⟩
      rw [hjoin]
      obtain ⟨a,ha⟩ := hhead
      obtain ⟨b,hb⟩ := hbody
      exact ⟨a,b,by rw [← ha,← hb]; simp⟩

/-- Every view is a stretch of the normalized rows. -/
theorem view_stretch (h : Chained normalize first more) {view : JsString}
    (hview : view∈first::overlapped first more) : points (normalize view) <:+:
      ((first::more).map fun row => points (normalize row)).flatten := by
  induction more generalizing first with
  | nil =>
    obtain rfl := mem_singleton.mp hview
    exact infix_append_left
  | cons source more ih =>
    obtain ⟨⟨pre,htail⟩,hjoin,-,hrest⟩ := h
    obtain rfl | hview := mem_cons.mp hview
    · exact infix_append_left
    · change view∈(overlap first++source)::overlapped source more at hview
      obtain hview | hview := mem_cons.mp hview
      · refine ⟨pre,(more.map fun row => points (normalize row)).flatten,?_⟩
        rw [hview,hjoin,map_cons,map_cons,flatten_cons,flatten_cons,← htail]
        simp only [append_assoc]
      · exact (ih hrest (mem_cons_of_mem _ hview)).trans infix_append_right

theorem rowByRow_seamless {field : CardField} (h : RowByRow normalize field) :
    Seamless normalize field := by
  cases field with
  | inline value =>
    constructor
    · intro query _ view hview hin
      obtain rfl := mem_singleton.mp hview
      exact hin
    · intro query _ hin
      exact ⟨_,mem_cons_self,hin⟩
  | part first more =>
    obtain ⟨hwhole,hchained⟩ := h
    constructor
    · intro query _ view hview hin
      have hflat := flatten_infix (view_stretch hchained hview)
      rw [← hwhole,points_flatten,points_flatten] at hflat
      exact hin.trans hflat
    · rintro query hq ⟨a,b,hin⟩
      obtain ⟨pre,w,post,hp,hquery,hw⟩ := points_occurrence a query b
      have hpoints : w <:+: points (normalize (CardField.part first more).whole) :=
        ⟨pre,post,by rw [← hp,hin]⟩
      change w <:+: points (normalize (first::more).flatten) at hpoints
      rw [hwhole] at hpoints
      obtain ⟨view,hview,hin⟩ := stretch_viewed hchained 
        ((Nat.le_of_eq hw).trans hq.bounded) hpoints
      have hflat := flatten_infix hin
      rw [points_flatten] at hflat
      exact ⟨view,hview,hquery.trans hflat⟩

end

/-- The units of the search projection end only for a card whose fields fit; where they fit and
their rows normalize one by one, the units do end, with numbered rows of bounded length that show
exactly the queries of each field. -/
theorem search_projection_covers (normalize : JsString → JsString) (card : PreparedCard) :
    (Covered normalize card → ∀field∈card.fields,Fits normalize field) ∧
    ((∀field∈card.fields,RowByRow normalize field) →
      (∀field∈card.fields,Fits normalize field) → Covered normalize card) := by
  rw [covered_iff]
  constructor
  · intro h field hfield
    exact (h field hfield).1
  · intro hrows hfits field hfield
    exact ⟨hfits field hfield,rowByRow_seamless (hrows field hfield)⟩

/-- The normalization of a text of lower-case ASCII letters, fullwidth `a` and acute accents
behind the latter. -/
def foldFullwidth : JsString → JsString
  | 0xff41::0x301::s => 0xe1::foldFullwidth s
  | 0xff41::s => 0x61::foldFullwidth s
  | u::s => u::foldFullwidth s
  | [] => []

theorem foldFullwidth_filler (n : Nat) (s : JsString) :
    foldFullwidth (List.replicate n 0x78++s)=List.replicate n 0x78++foldFullwidth s := by
  induction n with
  | zero => rfl
  | succ n ih =>
    rw [replicate_succ,cons_append,cons_append,← ih]
    rfl

theorem points_filler (n : Nat) (s : JsString) :
    points (List.replicate n 0x78++s)=List.replicate n [0x78]++points s := by
  induction n with
  | zero => rfl
  | succ n ih =>
    have hx : ∀v,isPair 0x78 v=false := fun v => by
      rw [isPair,show isHigh 0x78=false by decide,Bool.false_and]
    rw [replicate_succ,cons_append,points_single fun v _ => hx v,ih]
    rfl

theorem overlap_filler (n : Nat) : overlap (List.replicate (9214+n) 0x78++[0x62,0xff41])=
    List.replicate 9214 0x78++[0x62,0xff41] := by
  have hpoints : points [0x62,0xff41]=[[0x62],[0xff41]] := by decide
  have hcut : (List.replicate (9214+n) ([0x78] : JsString)++[[0x62],[0xff41]]).length-
      maximumNormalizedSearchQueryCodePoints=n := by
    rw [length_append,length_replicate]
    simp only [length_cons,length_nil,maximumNormalizedSearchQueryCodePoints]
    omega
  rw [overlap,points_filler,hpoints,hcut,
    drop_append_of_le_length (by rw [length_replicate]; omega),drop_replicate,
    Nat.add_sub_cancel,flatten_append,flatten_replicate_singleton]
  rfl

/-- A rules text whose second row has the letter and its accent. -/
def straddledCard (n : Nat) : PreparedCard :=
  ⟨.inline (some (js ['o','p'])),.inline (some (js ['z'])),
    .part (List.replicate n 0x78++[0x62,0xff41]) [[0x62,0xff41,0x301]]⟩

theorem straddled_rows (n : Nat) (field : CardField)
    (h : field∈(straddledCard (9214+n)).fields) : RowByRow foldFullwidth field := by
  simp only [straddledCard,PreparedCard.fields,mem_cons,not_mem_nil,or_false] at h
  obtain rfl | rfl | rfl := h
  · exact trivial
  · exact trivial
  · have hpoints : points [0x62,0x61]=[[0x62],[0x61]] := by decide
    have hbehind : points [0x62,0x61,0x62,0xe1]=[[0x62],[0x61],[0x62],[0xe1]] := by decide
    refine ⟨?_,?_,?_,?_,trivial⟩
    · simp only [map_cons,map_nil,flatten_cons,flatten_nil,append_assoc,
        append_nil,foldFullwidth_filler,points_filler]
      rfl
    · rw [overlap_filler,foldFullwidth_filler,foldFullwidth_filler,points_filler,points_filler]
      refine ⟨List.replicate n [0x78],?_⟩
      rw [← append_assoc,replicate_append_replicate,Nat.add_comm n]
    · rw [overlap_filler,append_assoc,foldFullwidth_filler,foldFullwidth_filler,points_filler,
        points_filler,append_assoc]
      rfl
    · rw [overlap_filler,foldFullwidth_filler,points_filler,length_append,
        length_replicate]
      decide

theorem straddled_fits (field : CardField) (h : field∈(straddledCard 32766).fields) :
    Fits foldFullwidth field := by
  simp only [straddledCard,PreparedCard.fields,mem_cons,not_mem_nil,or_false] at h
  obtain rfl | rfl | rfl := h
  · simp only [Fits,CardField.views,mem_singleton,forall_eq]
    decide
  · simp only [Fits,CardField.views,mem_singleton,forall_eq]
    decide
  · have hlen : ∀k s,(points (foldFullwidth (List.replicate k 0x78++s))).length=
        k+(points (foldFullwidth s)).length := by
      intro k s
      rw [foldFullwidth_filler,points_filler,length_append,length_replicate]
    have hoverlap := overlap_filler 23552
    simp only [Fits,CardField.views,overlapped,forall_mem_cons,not_mem_nil,
      false_implies,implies_true,and_true]
    constructor
    · rw [hlen]
      decide
    · rw [hoverlap,append_assoc,hlen]
      decide

/-- The rules text of 32766 letters `x` and `baba`, where only the last letter has an accent, ends
its first row between the two halves; the query across that edge is shown. -/
theorem straddled_text_shown : Covered foldFullwidth (straddledCard 32766) ∧
    Query foldFullwidth [0x61,0x62,0xe1] ∧ [0x61,0x62,0xe1] <:+:
      foldFullwidth (straddledCard 32766).effective_rules_text.whole := by
  refine ⟨(search_projection_covers _ _).2 (straddled_rows 23552) straddled_fits,
    ⟨rfl,by decide,by decide⟩,List.replicate 32766 0x78++[0x62],[],?_⟩
  change _=foldFullwidth ((List.replicate 32766 0x78++[0x62,0xff41])++[0x62,0xff41,0x301])
  rw [append_assoc _ [0x62,0xff41],foldFullwidth_filler,append_assoc,append_assoc]
  rfl

theorem slices_full {row : JsString} {u v : UInt16} (hrow : row.length=32767)
    (hu : isHigh u=false) : textSlices (row++u::[v])=[row++[u],[v]] := by
  have hlen : (row++u::[v]).length=row.length+1+1 := by
    rw [length_append]
    rfl
  have hend : sliceEnd (row++u::[v])=32768 := by
    have hlast : (row++u::[v]).getD 32767 0=u := by
      rw [List.getD_eq_getElem?_getD,List.getElem?_append_right (by omega),hrow]
      rfl
    rw [sliceEnd,hlen,hrow]
    simp only [show min 32768 (32767+1+1)=32768 by omega,show 32768-1=32767 by omega,hlast,hu,
      Bool.false_eq_true,and_false,if_false]
  have hone : sliceEnd [v]=1 := by
    rw [sliceEnd]
    simp
  have hsplit : row++u::[v]=(row++[u])++[v] := by simp
  have hlong : (row++[u]).length=32768 := by
    rw [length_append,hrow]
    rfl
  rw [textSlices,hlen,slices,if_neg (by simp),hend,hsplit,take_left' hlong,
    drop_left' hlong,slices,if_neg (by simp),hone]
  cases row.length with
  | zero => rfl
  | succ n => rfl

/-- A rules text whose letter and accent stand in different rows. -/
def accentedCard (n : Nat) : PreparedCard :=
  ⟨.inline (some (js ['o','p'])),.inline (some (js ['z'])),
    .part (List.replicate n 0x78++[0x62,0xff41]) [[0x301]]⟩

theorem accent_forged (n : Nat) : ¬Covered foldFullwidth (accentedCard n) := by
  rw [covered_iff]
  intro h
  have hfield : CardField.part (List.replicate n 0x78++[0x62,0xff41]) [[0x301]]∈
      (accentedCard n).fields := mem_cons_of_mem _ (mem_cons_of_mem _ mem_cons_self)
  have hquery : Query foldFullwidth [0x62,0x61] := ⟨rfl,by decide,by decide⟩
  have hshown : [0x62,0x61] <:+: foldFullwidth (List.replicate n 0x78++[0x62,0xff41]) := by
    rw [foldFullwidth_filler]
    exact ⟨List.replicate n 0x78,[],append_nil _⟩
  have hin := (h _ hfield).2.unforged _ hquery _ mem_cons_self hshown
  have hwhole : foldFullwidth (CardField.part (List.replicate n 0x78++[0x62,0xff41])
      [[0x301]]).whole=List.replicate n 0x78++[0x62,0xe1] := by
    change foldFullwidth ((List.replicate n 0x78++[0x62,0xff41])++([0x301]++[]))=_
    rw [append_assoc,foldFullwidth_filler]
    rfl
  rw [hwhole] at hin
  have hletter : (0x61 : UInt16)∈List.replicate n 0x78++[0x62,0xe1] :=
    hin.subset (mem_cons_of_mem _ mem_cons_self)
  rw [mem_append,mem_replicate] at hletter
  obtain ⟨-,h⟩ | h := hletter
  · exact absurd h (by decide)
  · exact absurd h (by decide)

/-- Of the text of 32766 letters `x`, `b`, a fullwidth `a` and an accent, stored in its two rows,
the search shows `ba`, which its normalized form lacks. -/
theorem accented_text_forged : textSlices ((List.replicate 32766 0x78++[0x62])++0xff41::[0x301])=
      [(List.replicate 32766 0x78++[0x62])++[0xff41],[0x301]] ∧
    ¬Covered foldFullwidth (accentedCard 32766) :=
  ⟨slices_full (by rw [length_append,length_replicate]; rfl) (by decide),
    accent_forged 32766⟩

end CardKeepr.Publication.Preparation
