import CardKeepr.Reconciliation.TextFill
import CardKeepr.Reconciliation.TextSlices

namespace CardKeepr.Reconciliation

open Lib Shared List

theorem bounded_take {α : Type} {size : α → Nat} {limit : Nat} (sum : Nat) (as : List α) :
    ∃m,bounded size limit sum as=as.take m := by
  induction as generalizing sum with
  | nil => exact ⟨0,rfl⟩
  | cons a as ih =>
    rw [bounded]
    split
    · obtain ⟨m,hm⟩ := ih (sum+size a)
      exact ⟨m+1,by rw [hm,take_succ_cons]⟩
    · exact ⟨0,rfl⟩

theorem bounded_cons {α : Type} {size : α → Nat} {limit : Nat} {a : α} (as : List α)
    (h : size a ≤ limit) : ∃m,bounded size limit 0 (a::as)=(a::as).take (m+1) := by
  obtain ⟨m,hm⟩ := @bounded_take α size limit (0+size a) as
  rw [bounded,if_pos (by omega),hm]
  exact ⟨m,by rw [take_succ_cons]⟩

theorem take_range' (a m n : Nat) : (List.range' a n).take m=List.range' a (min m n) := by
  rcases le_total m n with h | h
  · rw [take_range'_of_length_ge h,min_eq_left h]
  · rw [take_range'_of_length_le h,min_eq_right h]

theorem slice_at {ss : List JsString} {o : Nat} (ho : o < ss.length) : ss.getD o []=ss[o] := by
  rw [List.getD,List.getElem?_eq_getElem ho]
  rfl

section
variable {nfc : Nfc} {t : LongText} {text : TextTable}

theorem LongText.Holds.at (h : t.Holds text) {o : Nat} (ho : o < (textSlices t.normalized).length) :
    text (sha256Text t.normalized) o=some (textSlices t.normalized)[o] :=
  h o _ (List.getElem?_eq_getElem ho)

theorem textPage_held (h : t.Holds text) {o : Nat} (ho : o < (textSlices t.normalized).length) :
    ∃m,0 < m ∧ o+m ≤ (textSlices t.normalized).length ∧
      textPage text (sha256Text t.normalized) o (textSlices t.normalized).length=
        (List.range' o m).map fun i => (i,(textSlices t.normalized).getD i []) := by
  set ss := textSlices t.normalized with hss
  have hrows : (List.range' o (ss.length-o)).filterMap (fun i =>
      (text (sha256Text t.normalized) i).map fun content => (i,content))=
      (List.range' o (ss.length-o)).map fun i => (i,ss.getD i []) := by
    rw [←filterMap_eq_map]
    refine filterMap_congr fun i hi => ?_
    have hlt : i < ss.length := by
      have := mem_range'_1.mp hi
      omega
    rw [h.at hlt]
    show some (i,ss[i])=some (i,ss.getD i [])
    rw [slice_at hlt]
  obtain ⟨k,hk⟩ : ∃k,ss.length-o=k+1 := ⟨ss.length-o-1,by omega⟩
  have hsize : byteLength (quote (ss.getD o [])) ≤ 512000 := by
    have hin : ss.getD o []∈slices t.normalized.length t.normalized := by
      rw [slice_at ho]
      exact getElem_mem ho
    have hlong := slices_length hin
    have hbytes := quote_bytes (ss.getD o [])
    rw [byteLength]
    omega
  rw [textPage,hrows,hk,range'_succ,map_cons,take_succ_cons]
  have hfirst : byteLength (quote (o,ss.getD o []).2) ≤ 512000 := hsize
  obtain ⟨m,hm⟩ := @bounded_cons _ (fun row : Nat × JsString => byteLength (quote row.2)) _ _
    (((List.range' (o+1) k).map fun i => (i,ss.getD i [])).take 15) hfirst
  refine ⟨min (min m 15) k+1,Nat.succ_pos _,by omega,?_⟩
  rw [hm,range'_succ,map_cons,take_succ_cons,take_take,←map_take,take_range']

/-- The part that the read envelope names for a text. -/
def LongText.placed (nfc : Nfc) (t : LongText) : TextPart :=
  { t.part with path := t.path.map (PathKey.normalized nfc) }

/-- The reader of a text that has taken its first `o` chunks. -/
def LongText.reader (nfc : Nfc) (t : LongText) (o : Nat) : TextReader :=
  ⟨t.placed nfc,((textSlices t.normalized).take o).flatten,o⟩

theorem takeRows_held {o m : Nat} (hm : o+m ≤ (textSlices t.normalized).length) : takeRows
    (t.reader nfc o) ((List.range' o m).map fun i => (i,(textSlices t.normalized).getD i []))= some
    (t.reader nfc (o+m)) := by
  induction m generalizing o with
  | zero => rfl
  | succ m ih =>
    have hlt : o < (textSlices t.normalized).length := by omega
    have hnext : (⟨t.placed nfc,((textSlices t.normalized).take o).flatten++
        (textSlices t.normalized).getD o [],o+1⟩ : TextReader)=t.reader nfc (o+1) := by
      rw [LongText.reader,take_succ_eq_append_getElem hlt,flatten_append,slice_at hlt,
        flatten_singleton]
    have hplace : o+(m+1)=o+1+m := by omega
    rw [range'_succ,map_cons,takeRows]
    show (if o=o then takeRows ⟨t.placed nfc,_,_⟩ _ else none)=_
    rw [if_pos rfl,LongText.reader,hnext,ih (by omega),hplace]

theorem takePages_held {rs : List (LongText × Nat)} (hheld : ∀r∈rs,r.1.Holds text)
    (hleft : ∀r∈rs,r.2 < (textSlices r.1.normalized).length) :
    ∃rs' : List (LongText × Nat),takePages (rs.map fun r => r.1.reader nfc r.2)
        (rs.map fun r => textPage text (sha256Text r.1.normalized) r.2
          (textSlices r.1.normalized).length)=some (rs'.map fun r => r.1.reader nfc r.2) ∧
      List.Forall₂ (fun r r' : LongText × Nat => r'.1=r.1 ∧ r.2 < r'.2 ∧
        r'.2 ≤ (textSlices r.1.normalized).length) rs rs' := by
  induction rs with
  | nil => exact ⟨[],rfl,.nil⟩
  | cons r rs ih =>
    obtain ⟨m,hpos,hm,hpage⟩ := textPage_held (hheld r mem_cons_self)
      (hleft r mem_cons_self)
    obtain ⟨rs',hrest,hall⟩ := ih (fun s hs => hheld s (mem_cons_of_mem _ hs))
      fun s hs => hleft s (mem_cons_of_mem _ hs)
    refine ⟨(r.1,r.2+m)::rs',?_,.cons ⟨rfl,by omega,hm⟩ hall⟩
    have hne : (List.range' r.2 m).map (fun i => (i,(textSlices r.1.normalized).getD i []))≠[] := by
      intro he
      have hlen := congrArg List.length he
      rw [length_map,length_range',length_nil] at hlen
      omega
    have htake : takePage (r.1.reader nfc r.2)
        (textPage text (sha256Text r.1.normalized) r.2 (textSlices r.1.normalized).length)=
        some (r.1.reader nfc (r.2+m)) := by
      rw [hpage,takePage,if_neg hne,takeRows_held hm]
    rw [map_cons,map_cons,takePages,htake,hrest]
    rfl

theorem settle_held {v : Json} (hs : v.Separated nfc) {rs : List (LongText × Nat)}
    (hin : ∀r∈rs,r.1∈(visit nfc [] v).2)
    (hle : ∀r∈rs,r.2 ≤ (textSlices r.1.normalized).length) (kept : List PathKey → Bool) :
    ∃kept',settle (rs.map fun r => r.1.reader nfc r.2) (readBack nfc (blank nfc kept [] v))=
        .ok (readBack nfc (blank nfc kept' [] v),
          (rs.filter fun r => r.2 < (textSlices r.1.normalized).length).map
            fun r => r.1.reader nfc r.2) ∧
      (∀p,kept p=true → kept' p=true) ∧
      ∀r∈rs,r.2=(textSlices r.1.normalized).length →
        kept' (r.1.path.map (PathKey.normalized nfc))=true := by
  induction rs with
  | nil => exact ⟨kept,rfl,fun _ h => h,fun r hr => (not_mem_nil hr).elim⟩
  | cons r rs ih =>
    obtain ⟨kept',hsettle,hmono,hdone⟩ := ih (fun s hs => hin s (mem_cons_of_mem _ hs))
      fun s hs => hle s (mem_cons_of_mem _ hs)
    rw [map_cons,settle,hsettle]
    by_cases hlt : r.2 < (textSlices r.1.normalized).length
    · refine ⟨kept',?_,hmono,fun s hs he => ?_⟩
      · rw [filter_cons,if_pos (decide_eq_true hlt)]
        show (if r.2 < (textSlices r.1.normalized).length then _ else _)=_
        rw [if_pos hlt]
        rfl
      · rcases mem_cons.mp hs with rfl | hs
        · omega
        · exact hdone s hs he
    · have hfull : r.2=(textSlices r.1.normalized).length :=
        le_antisymm (hle r mem_cons_self) (not_lt.mp hlt)
      have htext : (r.1.reader nfc r.2).text=r.1.normalized := by
        rw [LongText.reader,hfull,take_length]
        exact textSlices_flatten _
      obtain ⟨q,hq,hset⟩ := setPath_readBack v hs (hin r mem_cons_self) kept'
      rw [nil_append] at hq
      rw [←hq] at hset
      refine ⟨fun p => kept' p || p==r.1.path.map (PathKey.normalized nfc),?_,fun p hp => ?_,
        fun s hs he => ?_⟩
      · rw [filter_cons,if_neg (by simpa using hlt)]
        show (if r.2 < (textSlices r.1.normalized).length then _ else
          if sha256Text (r.1.reader nfc r.2).text≠sha256Text r.1.normalized ∨
            byteLength (r.1.reader nfc r.2).text≠byteLength r.1.normalized then _ else _)=_
        rw [if_neg hlt,htext,if_neg (by simp)]
        have hset' : setPath r.1.normalized (r.1.reader nfc r.2).part.path
            (readBack nfc (blank nfc kept' [] v))=_ := hset
        dsimp only
        rw [hset']
        rfl
      · exact Bool.or_eq_true_iff.mpr (.inl (hmono p hp))
      · rcases mem_cons.mp hs with rfl | hs
        · simp
        · exact Bool.or_eq_true_iff.mpr (.inl (hdone s hs he))

end

end CardKeepr.Reconciliation
