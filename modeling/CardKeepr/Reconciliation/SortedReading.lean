import CardKeepr.Reconciliation.SortedMerge

namespace CardKeepr.Reconciliation.Sorting

open Lib Shared List Steps

section
variable {nfc : Nfc} {before : JsString → JsString → Bool} {version : Nat} {src : Source}
  {kept : TextTable} {d : Retained} {s : Attempt Retained Variables}

theorem runs_last {pass : Nat} (h : (runs nfc before src pass).length=1) :
    (runs nfc before src pass)[0]?=some (sortBy before (sortKey nfc) src.values) := by
  rw [runs,runsOf_length] at h
  rw [runs,runsOf_last h,inputs_flatten]
  rfl

theorem canonicalEntries_behind (hsort : Sortable nfc src kept) {fuel pass : Nat} (hfuel : 1 < fuel)
    {run : List Json} (hrun : (runs nfc before src pass)[0]?=some run)
    (hpass : PassDone nfc before src pass s.retained) {position : Position} {vs : List Json}
    (h : Behind (pieces nfc pass run) position.batch position.offset vs) :
    ∃es : List (Position×Json),es.map Prod.snd=vs.map (readBack nfc) ∧
      (∀n,vs.length < n → canonicalEntries nfc fuel pass n position s=some (.ok es,s)) ∧
      ∀done e rest,es=done++e::rest →
        ∀n,rest.length < n → canonicalEntries nfc fuel pass n e.1 s=some (.ok rest,s) := by
  induction vs generalizing position with
  | nil =>
    obtain ⟨r,s',hr,rfl,hhead⟩ := (readHead_ends (E := fun _ _ => False) hsort hfuel hrun hpass h
      (Q := fun r s' => s'=s ∧ r.1=none) fun _ _ _ => ⟨rfl,rfl⟩).succeeds
    refine ⟨[],rfl,fun n hn => ?_,fun done e rest he => ?_⟩
    · obtain ⟨m,rfl⟩ := Nat.exists_eq_add_of_lt hn
      rw [length_nil,Nat.zero_add,canonicalEntries]
      refine (bind_ok hr).trans ?_
      rw [hhead]
      rfl
    · exact absurd he.symm (by simp)
  | cons v vs ih =>
    obtain ⟨r,s',hr,rfl,hhead,hnext⟩ := (readHead_ends (E := fun _ _ => False) hsort hfuel hrun
      hpass h (Q := fun r s' => s'=s ∧ r.1=some (Item.restored nfc v) ∧
        Behind (pieces nfc pass run) r.2.batch (r.2.offset+1) vs)
      fun position' _ hn => ⟨rfl,rfl,hn v vs rfl⟩).succeeds
    obtain ⟨es,hes,hall,hbehind⟩ := @ih ⟨r.2.batch,r.2.offset+1⟩ hnext
    have hlen : es.length=vs.length := by
      rw [←length_map (f := Prod.snd),hes,length_map]
    refine ⟨(⟨r.2.batch,r.2.offset+1⟩,readBack nfc v)::es,?_,fun n hn => ?_,?_⟩
    · rw [map_cons,map_cons,hes]
    · obtain ⟨m,rfl⟩ : ∃m,n=m+1 := ⟨n-1,by rw [length_cons] at hn; omega⟩
      rw [canonicalEntries]
      refine (bind_ok hr).trans ?_
      rw [hhead]
      refine (bind_ok (hall m ?_)).trans rfl
      rw [length_cons] at hn
      omega
    · intro done e rest he n hn
      cases done with
      | nil =>
        obtain ⟨rfl,rfl⟩ := List.cons.inj he
        exact hall n (hlen ▸ hn)
      | cons d₀ done => exact hbehind done e rest (List.cons.inj he).2 n hn

/-- What the iteration yields: the sorted records, and behind every position the others. -/
def Reads (nfc : Nfc) (before : JsString → JsString → Bool) (src : Source) (pass : Nat)
    (d : Retained) : Prop := ∃es : List (Position×Json),
  es.map Prod.snd=(sortBy before (sortKey nfc) src.values).map (readBack nfc) ∧
  iterate nfc src pass ⟨0,0⟩ d=.completed es ∧
  ∀done e rest,es=done++e::rest → iterate nfc src pass e.1 d=.completed rest

theorem PassDone.reads (hsort : Sortable nfc src kept) {pass : Nat}
    (h : PassDone nfc before src pass d) (hone : (runs nfc before src pass).length=1) :
    Reads nfc before src pass d := by
  have hstart := behind_start (pieces nfc pass (sortBy before (sortKey nfc) src.values))
  rw [pieces_flatten] at hstart
  have hlen : (sortBy before (sortKey nfc) src.values).length=src.entries.length :=
    (perm_insertionSort _ _).length_eq.trans (values_length src)
  obtain ⟨es,hes,hall,hbehind⟩ := @canonicalEntries_behind nfc before src kept
    ⟨d,⟨firstCursor 0,0,[],0,[]⟩,none⟩ hsort src.turns pass (by rw [Source.turns]; omega) _
    (runs_last hone) h ⟨0,0⟩ _ hstart
  have hes' : es.length=src.entries.length := by
    rw [←hlen,←length_map (f := Prod.snd),hes,length_map]
  refine ⟨es,hes,?_,fun done e rest he => ?_⟩
  · rw [iterate,performAttempt,hall _ (by rw [hlen,Source.turns]; omega)]
  · have hrest : rest.length < src.entries.length := by
      rw [←hes',he,length_append,length_cons]
      omega
    rw [iterate,performAttempt,hbehind done e rest he _ (by rw [Source.turns]; omega)]

/-- What an attempt comes to. -/
def Came (nfc : Nfc) (before : JsString → JsString → Bool) (src : Source) (t : Bool×Option Nat)
    (x : Ending JsString Nat×Retained) : Prop :=
  match x.1 with
  | .completed pass => Reads nfc before src pass x.2
  | .stopped .cutOff => t.2≠none
  | .stopped (.continuation _) => t.1=true
  | .stopped (.failed _) => False
  | .unended => False

theorem attempt_spec (hsort : Sortable nfc src kept) (hw : StrictWeak before)
    (h : Rests nfc before version src kept d) (t : Bool×Option Nat) :
    Rests nfc before version src kept (attempt nfc before version src t d).2 ∧
      Came nfc before src t (attempt nfc before version src t d) := by
  have hrunning : Running nfc before version src kept (t.2=none)
      ⟨d,⟨d.cursor version,d.checkpoints.length,[],0,[]⟩,t.2⟩ := ⟨h,rfl,id⟩
  have hends : (prepareRuns nfc before t.1 src.turns version src).Ends _ _ _ :=
    prepareRuns_ends hsort hw hrunning rfl rfl rfl
  refine hends.performAttempt (P := fun x => Rests nfc before version src kept x.2 ∧
    Came nfc before src t x) ?_ ?_
  · rintro pass s ⟨hrests,hpass,hone⟩
    exact ⟨hrests,hpass.reads hsort hone⟩
  · rintro r s ⟨hrests,hwhy⟩
    cases r with
    | cutOff => exact ⟨hrests,hwhy⟩
    | continuation n => exact ⟨hrests,hwhy⟩
    | failed e => exact ⟨hrests,hwhy⟩

theorem before_rests {texts : TextTable} (h : texts.Le kept) :
    Rests nfc before version src kept (.before texts) := by
  refine ⟨fun p r b row hr => (Option.some_ne_none row hr.symm).elim,h,?_,rfl⟩
  refine ⟨⟨[],src.entries,[],rfl,rfl,rfl,rfl,fun e he => (not_mem_nil he).elim⟩,
    ⟨rfl,rfl,rfl,rfl⟩,fun r hr => (Nat.not_lt_zero r hr).elim⟩

theorem performAll_rests (hsort : Sortable nfc src kept) (hw : StrictWeak before)
    {texts : TextTable} (h : texts.Le kept) (ts : List (Bool×Option Nat)) : Rests nfc before version
    src kept (performAll (attempt nfc before version src) ts (.before texts)) :=
  performAll_keeps (I := Rests nfc before version src kept)
    (fun t _ hd => (attempt_spec hsort hw hd t).1) (before_rests h)

theorem attempt_completes (hsort : Sortable nfc src kept) (hw : StrictWeak before)
    (h : Rests nfc before version src kept d) :
    ∃pass,(attempt nfc before version src (false,none) d).1=.completed pass ∧
      Reads nfc before src pass (attempt nfc before version src (false,none) d).2 := by
  have hcame := (attempt_spec hsort hw h (false,none)).2
  rw [Came] at hcame
  split at hcame
  · exact ⟨_,‹_›,hcame⟩
  · exact absurd rfl hcame
  · cases hcame
  · exact hcame.elim
  · exact hcame.elim

theorem readBack_of_key {v : Json} (h : v.Integral) :
    jsonParse (sortKey nfc v)=some (readBack nfc v) := by
  rw [(sortKey_integral h).1,jsonParse_canonical nfc h]
  rfl

theorem sortBy_keys (hw : StrictWeak before) {vs ws : List Json}
    (hsame : (vs.map (sortKey nfc)).Perm (ws.map (sortKey nfc)))
    (hties : ∀a∈vs.map (sortKey nfc),∀b∈vs.map (sortKey nfc),NotAfter before a b →
      NotAfter before b a → a=b) :
    (sortBy before (sortKey nfc) vs).map (sortKey nfc)=
      (sortBy before (sortKey nfc) ws).map (sortKey nfc) := by
  have hperm : ∀us : List Json,((sortBy before (sortKey nfc) us).map (sortKey nfc)).Perm
      (us.map (sortKey nfc)) := fun us => (perm_insertionSort _ us).map _
  have hsorted : ∀us : List Json,((sortBy before (sortKey nfc) us).map (sortKey nfc)).Pairwise
      (NotAfter before) := fun us => pairwise_map.mpr (sortBy_sorted hw us)
  refine List.Perm.eq_of_pairwise (fun a b ha hb => ?_) (hsorted vs) (hsorted ws)
    ((hperm vs).trans (hsame.trans (hperm ws).symm))
  exact hties a ((hperm vs).subset ha) b (hsame.symm.subset ((hperm ws).subset hb))

theorem readBack_of_keys {vs ws : List Json} (hv : ∀v∈vs,v.Integral) (hu : ∀w∈ws,w.Integral)
    (h : vs.map (sortKey nfc)=ws.map (sortKey nfc)) :
    vs.map (readBack nfc)=ws.map (readBack nfc) := by
  have hall : ∀us : List Json,(∀u∈us,u.Integral) →
      (us.map (sortKey nfc)).map jsonParse=(us.map (readBack nfc)).map some := by
    intro us hus
    rw [map_map,map_map]
    exact map_congr_left fun u h => readBack_of_key (hus u h)
  refine map_injective_iff.mpr (Option.some_injective Json) ?_
  rw [←hall vs hv,←hall ws hu,h]

/-- However often the sorting is cut off or yields, an attempt that comes to its end leaves runs
from which the sorted records are read, from the start and from every position. -/
theorem records_sorted (nfc : Nfc) {before : JsString → JsString → Bool} (hw : StrictWeak before)
    {src : Source} {kept texts : TextTable} (hsort : Sortable nfc src kept)
    (htexts : texts.Le kept) (version : Nat) (ts : List (Bool×Option Nat)) (t : Bool×Option Nat) :
    Came nfc before src t (attempt nfc before version src t
      (performAll (attempt nfc before version src) ts (.before texts))) :=
  (attempt_spec hsort hw (performAll_rests hsort hw htexts ts) t).2

/-- Records that are the same up to their order are read back alike, whatever interrupted the
sorting of the one source and of the other. -/
theorem sorted_in_any_order (nfc : Nfc) {before : JsString → JsString → Bool}
    (hw : StrictWeak before) {src src' : Source} {kept kept' texts texts' : TextTable}
    (hsort : Sortable nfc src kept) (hsort' : Sortable nfc src' kept') (htexts : texts.Le kept)
    (htexts' : texts'.Le kept')
    (hsame : (src.values.map (sortKey nfc)).Perm (src'.values.map (sortKey nfc)))
    (hties : ∀a∈src.values.map (sortKey nfc),∀b∈src.values.map (sortKey nfc),
      NotAfter before a b → NotAfter before b a → a=b)
    (version version' : Nat) (ts ts' : List (Bool×Option Nat)) :
    let came := attempt nfc before version src (false,none)
      (performAll (attempt nfc before version src) ts (.before texts))
    let came' := attempt nfc before version' src' (false,none)
      (performAll (attempt nfc before version' src') ts' (.before texts'))
    ∃pass pass' es es',came.1=.completed pass ∧ came'.1=.completed pass' ∧
      iterate nfc src pass ⟨0,0⟩ came.2=.completed es ∧
      iterate nfc src' pass' ⟨0,0⟩ came'.2=.completed es' ∧
      es.map Prod.snd=es'.map Prod.snd := by
  have hrests := @performAll_rests nfc before version src kept hsort hw texts htexts ts
  have hrests' := @performAll_rests nfc before version' src' kept' hsort' hw texts' htexts' ts'
  obtain ⟨pass,hpass,es,hes,hread,-⟩ := attempt_completes hsort hw hrests
  obtain ⟨pass',hpass',es',hes',hread',-⟩ := attempt_completes hsort' hw hrests'
  refine ⟨pass,pass',es,es',hpass,hpass',hread,hread',?_⟩
  rw [hes,hes']
  refine readBack_of_keys (fun v hv => ?_) (fun w hv => ?_) (sortBy_keys hw hsame hties)
  · exact (hsort.record v ((perm_insertionSort _ _).subset hv)).2
  · exact (hsort'.record w ((perm_insertionSort _ _).subset hv)).2

end

/-- The records of a list under the ordinals from one. -/
def listed (vs : List Json) : Source where
  entries := vs.zipIdx.map fun e => (e.2+1,e.1)
  read n := (vs.zipIdx.map fun e => (e.2+1,e.1)).drop n
  first := rfl
  behind done e rest h := by
    have hat : (vs.zipIdx.map fun e => (e.2+1,e.1))[done.length]?=some e := by
      rw [h]
      simp
    rw [List.getElem?_map] at hat
    obtain ⟨⟨v,o⟩,hv,rfl⟩ := Option.map_eq_some_iff.mp hat
    rw [List.getElem?_zipIdx] at hv
    obtain ⟨w,-,hw⟩ := Option.map_eq_some_iff.mp hv
    obtain rfl : 0+done.length=o := congrArg Prod.snd hw
    rw [h]
    show (done++_::rest).drop (0+done.length+1)=rest
    rw [Nat.zero_add,drop_append]
    simp

theorem listed_values (vs : List Json) : (listed vs).values=vs := by
  show (vs.zipIdx.map fun e => (e.2+1,e.1)).map Prod.snd=vs
  rw [map_map]
  exact zipIdx_map_fst 0 vs

def unitsBefore (a b : JsString) : Bool := decide (compareUnits a b < 0)

theorem unitsBefore_strictWeak : StrictWeak unitsBefore where
  asymm a b h := by
    have h := of_decide_eq_true h
    rw [compareUnits_swap] at h
    exact decide_eq_false (by omega)
  neg_trans a b c h k := by
    have h := of_decide_eq_false h
    have k := of_decide_eq_false k
    have hba : compareUnits b a ≤ 0 := by
      rw [compareUnits_swap]
      omega
    have hcb : compareUnits c b ≤ 0 := by
      rw [compareUnits_swap]
      omega
    have hca := compareUnits_trans hcb hba
    rw [compareUnits_swap] at hca
    exact decide_eq_false (by omega)

theorem units_told_apart {a b : JsString} (h : NotAfter unitsBefore a b)
    (k : NotAfter unitsBefore b a) : a=b := by
  have h := of_decide_eq_false h
  have k := of_decide_eq_false k
  have hswap := compareUnits_swap a b
  exact compareUnits_eq (by omega)

/-- Nine letters, backwards. -/
def letters : List Json := (js ['i','h','g','f','e','d','c','b','a']).map fun u => .str [u]

/-- More records than a first run holds, one with a text that is kept apart. -/
def words : List Json := letters++[.str longWord]

theorem letters_small : ∀v∈letters,recordSize acute v ≤ 2097152 ∧ recordChunks acute v=[] ∧
    byteLength ((envelope acute v).json.canonical acute).print ≤ 2000 := by
  decide +kernel

theorem longWord_visit : visit acute [] (.str longWord)=(.null,[⟨[],longWord⟩]) := by
  rw [visit,if_pos (by rw [longWord,length_replicate]; omega),
    acute.ascii _ longWord_ascii]

theorem longWord_small : recordSize acute (.str longWord) ≤ 2097152 := by
  have hquote := quote_bytes longWord
  have hkey : sortKey acute (.str longWord)=quote longWord := by
    rw [(sortKey_integral (v := .str longWord) trivial).1]
    exact congrArg quote (acute.ascii _ longWord_ascii)
  have hlength : longWord.length=40000 := length_replicate
  rw [hlength] at hquote
  rw [recordSize,hkey]
  exact hquote.trans (by omega)

theorem words_sortable {vs : List Json} (hvs : ∀v∈vs,v∈words) :
    Sortable acute (listed vs) wordTable := by
  have hcases : ∀v∈(listed vs).values,v∈letters ∨ v=.str longWord := by
    intro v hv
    rw [listed_values] at hv
    rcases mem_append.mp (hvs v hv) with hv | hv
    · exact .inl hv
    · exact .inr (mem_singleton.mp hv)
  refine {
    record := fun v hv => ?_
    small := fun v hv => ?_
    texts := fun v hv h hh => ?_
    nonempty := fun v hv t ht => ?_
    fit := fun b hb hbound => ?_ }
  · rcases hcases v hv with hv | rfl
    · obtain ⟨u,-,rfl⟩ := mem_map.mp hv
      exact ⟨trivial,trivial⟩
    · exact ⟨trivial,trivial⟩
  · rcases hcases v hv with hv | rfl
    · exact (letters_small v hv).1
    · exact longWord_small
  · rcases hcases v hv with hv | rfl
    · rw [(letters_small v hv).2.1] at hh
      cases hh
    · rw [recordChunks,longWord_visit] at hh
      obtain ⟨t,ht,hc⟩ := mem_flatMap.mp hh
      rw [mem_singleton.mp ht] at hc
      exact word_settled rfl hc
  · rcases hcases v hv with hv | rfl
    · obtain ⟨u,-,rfl⟩ := mem_map.mp hv
      cases ht
    · rw [longWord_visit] at ht
      rw [mem_singleton.mp ht]
      exact cons_ne_nil _ _
  · have heach : ∀x∈b,byteLength ((envelope acute x).json.canonical acute).print ≤ 2000 := by
      intro x hx
      rcases hcases x (hb x hx) with hx | rfl
      · exact (letters_small x hx).2.2
      · rw [envelope,longWord_visit]
        show byteLength ((RecordEnvelope.mk .null [(LongText.mk [] longWord).part]).json.canonical
          acute).print ≤ 2000
        rw [word_part]
        exact worded_bytes .null [] (by decide +kernel) (by decide +kernel)
    have hlen := hbound.1
    have hsum : ((b.map fun v => (envelope acute v).json.canonical acute).map
        fun v => byteLength v.print).sum ≤ b.length*2000 := by
      rw [map_map]
      have hle := sum_le_card_nsmul (b.map ((fun x : Json => byteLength x.print) ∘
        fun x => (envelope acute x).json.canonical acute)) 2000 fun n hn => by
          obtain ⟨x,hx,rfl⟩ := mem_map.mp hn
          exact heach x hx
      rwa [length_map,nsmul_eq_mul,Nat.cast_id] at hle
    rw [batchText,canonical_arr,map_map,byteLength_arr]
    simp only [length_map]
    show 2+((b.map fun v => (envelope acute v).json.canonical acute).map
      fun v => byteLength v.print).sum+(b.length-1) ≤ 524288
    omega

section
-- the attempts are not to be run to see what they come to
attribute [local irreducible] Came

/-- Two runs are merged; the first attempt is cut off at its fourth write, the second yields. -/
theorem words_sorted : Came acute unitsBefore (listed words) (false,none)
    (attempt acute unitsBefore 7 (listed words) (false,none)
      (performAll (attempt acute unitsBefore 7 (listed words))
        [(false,some 3),(true,none)] (.before ReducerStore.empty.text))) :=
  records_sorted acute unitsBefore_strictWeak (words_sortable fun _ hv => hv)
    (fun _ _ _ h => by cases h) 7 [(false,some 3),(true,none)] (false,none)

end

theorem words_in_any_order : ∃pass pass' es es',
    (attempt acute unitsBefore 7 (listed words) (false,none)
      (performAll (attempt acute unitsBefore 7 (listed words))
        [(false,some 3),(true,none)] (.before ReducerStore.empty.text))).1=.completed pass ∧
    (attempt acute unitsBefore 8 (listed words.reverse) (false,none)
      (performAll (attempt acute unitsBefore 8 (listed words.reverse)) [(true,some 5)]
        (.before ReducerStore.empty.text))).1=.completed pass' ∧
    iterate acute (listed words) pass ⟨0,0⟩
      (attempt acute unitsBefore 7 (listed words) (false,none)
        (performAll (attempt acute unitsBefore 7 (listed words))
          [(false,some 3),(true,none)] (.before ReducerStore.empty.text))).2=.completed es ∧
    iterate acute (listed words.reverse) pass' ⟨0,0⟩
      (attempt acute unitsBefore 8 (listed words.reverse) (false,none)
        (performAll (attempt acute unitsBefore 8 (listed words.reverse)) [(true,some 5)]
          (.before ReducerStore.empty.text))).2=.completed es' ∧
    es.map Prod.snd=es'.map Prod.snd :=
  sorted_in_any_order acute unitsBefore_strictWeak (words_sortable fun _ hv => hv)
    (words_sortable fun _ hv => mem_reverse.mp hv) (fun _ _ _ h => by cases h)
    (fun _ _ _ h => by cases h)
    (by
      rw [listed_values,listed_values]
      exact (reverse_perm words).symm.map _)
    (fun _ _ _ _ => units_told_apart) 7 8 [(false,some 3),(true,none)] [(true,some 5)]

end CardKeepr.Reconciliation.Sorting
