import CardKeepr.Lib.Fallible
import CardKeepr.Shared.JsString

namespace CardKeepr.Ingestion

open Lib Shared List

variable {chunks : List JsString} {s t rest value : JsString}

def maximumChunkBytes : Nat := 524288

/-- The halving search of `byteChunks` for the longest slice whose encoding fits a chunk. -/
def widest (rest : JsString) : Nat → Nat → Nat → Nat
  | 0,low,_ => low
  | n+1,low,high =>
    if low < high then
      if (utf8 (rest.take ((low+high+1)/2))).length ≤ maximumChunkBytes then
        widest rest n ((low+high+1)/2) high
      else widest rest n low ((low+high+1)/2-1)
    else low

def widestSlice (rest : JsString) : Nat :=
  widest rest rest.length 1 (min rest.length maximumChunkBytes)

/-- A slice that would end between the halves of a pair ends before it. -/
def chunkEnd (rest : JsString) : Nat :=
  let low := widestSlice rest
  if low < rest.length ∧ (rest[low-1]?.any isHigh)=true then low-1 else low

def chunkTooSmall : String := "A reconciliation payload character exceeds its chunk bound."

def byteChunksFrom : Nat → JsString → Except String (List JsString)
  | 0,_ => .ok []
  | n+1,rest =>
    if rest=[] then .ok []
    else do
      demand (!(chunkEnd rest==0)) chunkTooSmall
      let more ← byteChunksFrom n (rest.drop (chunkEnd rest))
      .ok (rest.take (chunkEnd rest)::more)

def byteChunks (value : JsString) : Except String (List JsString) := do
  let chunks ← byteChunksFrom value.length value
  .ok (if chunks=[] then [[]] else chunks)

/-- No pair of surrogates lies across the end of `s` and the start of `t`. -/
def Apart (s t : JsString) : Prop := ∀u∈s.getLast?,∀v∈t.head?,isPair u v=false

theorem codePoints_append (h : Apart s t) : codePoints (s++t)=codePoints s++codePoints t := by
  induction s using codePoints.induct with
  | case1 => rfl
  | case2 u =>
    cases t with
    | nil => rfl
    | cons v t =>
      have hp : isPair u v=false := h u rfl v rfl
      have hn : ¬isPair u v=true := by rw [hp]; exact Bool.false_ne_true
      change codePoints (u::v::t)=_
      rw [codePoints.eq_3,if_neg hn]
      rfl
  | case3 u v us hp ih =>
    have hus : Apart us t := by
      intro a ha b hb
      apply h a _ b hb
      cases us with
      | nil => cases ha
      | cons w ws => exact ha
    rw [cons_append,cons_append,codePoints,if_pos hp,codePoints,if_pos hp,ih hus]
    rfl
  | case4 u v us hp ih =>
    have hus : Apart (v::us) t := fun a ha b hb => h a ha b hb
    rw [cons_append,cons_append,codePoints,if_neg hp,codePoints,if_neg hp,←cons_append,ih hus]
    rfl

theorem utf8_apart (h : Apart s t) : utf8 (s++t)=utf8 s++utf8 t := by
  rw [utf8,codePoints_append h,flatMap_append]
  rfl

theorem utf8Point_length (c : Nat) : 1 ≤ (utf8Point c).length ∧ (utf8Point c).length ≤ 4 := by
  rw [utf8Point]
  split
  · simp
  · split
    · simp
    · split <;> simp

theorem codePoints_length (s : JsString) : (codePoints s).length ≤ s.length := by
  induction s using codePoints.induct with
  | case1 => simp [codePoints]
  | case2 u => simp [codePoints]
  | case3 u v us hp ih =>
    rw [codePoints,if_pos hp]
    simp only [length_cons]
    omega
  | case4 u v us hp ih =>
    rw [codePoints,if_neg hp]
    simp only [length_cons] at ih ⊢
    omega

theorem utf8_length_le (s : JsString) : (utf8 s).length ≤ 4*s.length := by
  have hp : ∀l : List Nat,(l.flatMap utf8Point).length ≤ 4*l.length := by
    intro l
    induction l with
    | nil => simp
    | cons c l ih =>
      have := (utf8Point_length c).2
      simp only [flatMap_cons,length_append,length_cons]
      omega
  have h1 := hp (codePoints s)
  have h2 := codePoints_length s
  rw [utf8]
  omega

theorem utf8_pos (h : s≠[]) : 1 ≤ (utf8 s).length := by
  have hc : codePoints s≠[] := by
    match s,h with
    | [u],_ => simp [codePoints]
    | u::v::us,_ =>
      rw [codePoints]
      split <;> simp
  obtain ⟨c,cs,hcs⟩ := exists_cons_of_ne_nil hc
  have := (utf8Point_length c).1
  rw [utf8,hcs,flatMap_cons,length_append]
  omega

theorem widest_fits {n low high : Nat} (hl : low ≤ high)
    (h : (utf8 (rest.take low)).length ≤ maximumChunkBytes) :
    (utf8 (rest.take (widest rest n low high))).length ≤ maximumChunkBytes ∧
      low ≤ widest rest n low high ∧ widest rest n low high ≤ high := by
  induction n generalizing low high with
  | zero => exact ⟨h,le_refl _,hl⟩
  | succ n ih =>
    rw [widest]
    split
    · rename_i hlt
      split
      · rename_i hfit
        have hb : (low+high+1)/2 ≤ high := by omega
        obtain ⟨h1,h2,h3⟩ := ih hb hfit
        exact ⟨h1,by omega,h3⟩
      · have hb : low ≤ (low+high+1)/2-1 := by omega
        obtain ⟨h1,h2,h3⟩ := ih hb h
        exact ⟨h1,h2,by omega⟩
    · exact ⟨h,le_refl _,hl⟩

theorem widestSlice_fits (h : rest≠[]) : (utf8 (rest.take (widestSlice rest))).length ≤
    maximumChunkBytes ∧ 1 ≤ widestSlice rest ∧ widestSlice rest ≤ rest.length := by
  have hpos : 1 ≤ rest.length := length_pos_of_ne_nil h
  have hone : (utf8 (rest.take 1)).length ≤ maximumChunkBytes := by
    have h1 := utf8_length_le (rest.take 1)
    rw [length_take] at h1
    rw [maximumChunkBytes]
    omega
  obtain ⟨h1,h2,h3⟩ := widest_fits (n := rest.length)
    (show 1 ≤ min rest.length maximumChunkBytes by rw [maximumChunkBytes]; omega) hone
  exact ⟨h1,h2,le_trans h3 (Nat.min_le_left _ _)⟩

theorem isPair_high {u v : UInt16} (h : isHigh v=true) : isPair u v=false := by
  have hlow : isLow v=false := by
    simp only [isHigh,isLow,decide_eq_true_eq,decide_eq_false_iff_not] at *
    omega
  rw [isPair,hlow,Bool.and_false]

theorem take_getLast {k : Nat} (h : k < rest.length) : (rest.take (k+1)).getLast?=rest[k]? := by
  rw [List.getLast?_take,if_neg (by omega)]
  simp [h]

theorem chunkEnd_fits (h : rest≠[]) : (utf8 (rest.take (chunkEnd rest))).length ≤
    maximumChunkBytes ∧ Apart (rest.take (chunkEnd rest)) (rest.drop (chunkEnd rest)) := by
  obtain ⟨hfit,hone,hle⟩ := widestSlice_fits h
  obtain ⟨k,hk⟩ : ∃k,widestSlice rest=k+1 := ⟨widestSlice rest-1,by omega⟩
  simp only [chunkEnd,hk,Nat.add_sub_cancel] at *
  have hlt : k < rest.length := by omega
  split
  · rename_i hc
    -- the unit after the slice is the high half, so the slice does not end inside a pair
    have hu : isHigh rest[k]=true := by simpa [hlt] using hc.2
    have hdrop : rest.drop k=rest[k]::rest.drop (k+1) := drop_eq_getElem_cons hlt
    have hapart : Apart (rest.take k) (rest.drop k) := by
      intro u _ v hv
      rw [hdrop] at hv
      obtain rfl := Option.some.inj hv
      exact isPair_high hu
    refine ⟨?_,hapart⟩
    have hsplit : rest.take (k+1)=rest.take k++[rest[k]] := by
      rw [take_succ_eq_append_getElem hlt]
    have hone : Apart (rest.take k) [rest[k]] := by
      intro u hu' v hv
      obtain rfl := Option.some.inj hv
      exact isPair_high hu
    rw [hsplit,utf8_apart hone,length_append] at hfit
    omega
  · rename_i hc
    refine ⟨hfit,?_⟩
    intro u hu v hv
    rw [take_getLast hlt,List.getElem?_eq_getElem hlt] at hu
    obtain rfl := Option.some.inj hu
    have hnext : k+1 < rest.length := by
      by_contra hge
      rw [drop_eq_nil_of_le (by omega)] at hv
      cases hv
    have hnot : isHigh rest[k]=false := by
      have := not_and.mp hc hnext
      simpa [hlt] using this
    rw [isPair,hnot,Bool.false_and]

theorem byteChunksFrom_spec {n : Nat}
    (hn : rest.length ≤ n) (h : byteChunksFrom n rest=.ok chunks) :
    (chunks.map fun c => (utf8 c).length).sum=(utf8 rest).length ∧
      (∀c∈chunks,(utf8 c).length ≤ maximumChunkBytes) ∧ (chunks=[] → rest=[]) := by
  induction n generalizing rest chunks with
  | zero =>
    have hr : rest=[] := length_eq_zero_iff.mp (by omega)
    injection h with h
    subst h hr
    exact ⟨rfl,by simp,fun _ => rfl⟩
  | succ n ih =>
    rw [byteChunksFrom] at h
    split at h
    · rename_i hr
      injection h with h
      subst h hr
      exact ⟨rfl,by simp,fun _ => rfl⟩
    · rename_i hr
      obtain ⟨_,hd,h⟩ := bind_ok h
      obtain ⟨more,hm,h⟩ := bind_ok h
      injection h with h
      subst h
      have hend : chunkEnd rest≠0 := by simpa using demand_ok hd
      obtain ⟨hfit,hapart⟩ := chunkEnd_fits hr
      have hshort : (rest.drop (chunkEnd rest)).length ≤ n := by
        rw [length_drop]
        omega
      obtain ⟨h1,h2,-⟩ := ih hshort hm
      refine ⟨?_,?_,by simp⟩
      · have hw := utf8_apart hapart
        rw [take_append_drop] at hw
        rw [map_cons,sum_cons,h1,hw,length_append]
      · intro c hc
        rcases mem_cons.mp hc with rfl | hc
        · exact hfit
        · exact h2 c hc

theorem byteChunksFrom_length {n : Nat}
    (h : byteChunksFrom n rest=.ok chunks) : chunks.length ≤ n := by
  induction n generalizing rest chunks with
  | zero =>
    injection h with h
    simp [←h]
  | succ n ih =>
    rw [byteChunksFrom] at h
    split at h
    · injection h with h
      simp [←h]
    · obtain ⟨_,-,h⟩ := bind_ok h
      obtain ⟨more,hm,h⟩ := bind_ok h
      injection h with h
      have := ih hm
      rw [←h,length_cons]
      omega

theorem byteChunks_length (h : byteChunks value=.ok chunks) : chunks.length ≤ value.length+1 := by
  obtain ⟨found,hf,h⟩ := bind_ok h
  injection h with h
  have hl := byteChunksFrom_length hf
  rw [←h]
  split
  · simp
  · omega

theorem byteChunks_spec (h : byteChunks value=.ok chunks) :
    chunks≠[] ∧ (chunks.map fun c => (utf8 c).length).sum=(utf8 value).length ∧
      ∀c∈chunks,(utf8 c).length ≤ maximumChunkBytes := by
  obtain ⟨found,hf,h⟩ := bind_ok h
  injection h with h
  obtain ⟨h1,h2,h3⟩ := byteChunksFrom_spec (le_refl _) hf
  split at h
  · rename_i he
    rw [h3 he]
    subst h
    refine ⟨by simp,rfl,?_⟩
    intro c hc
    rw [mem_singleton.mp hc]
    simp [utf8,codePoints]
  · rename_i he
    subst h
    exact ⟨he,h1,h2⟩

end CardKeepr.Ingestion
