import CardKeepr.Reconciliation.ReducerIndex
import CardKeepr.Reconciliation.TextReplay

namespace CardKeepr.Reconciliation

open Lib Shared Durable

/-- The store before the first observation. -/
def ReducerStore.empty : ReducerStore := ⟨fun _ _ _ => none,fun _ _ => none⟩

theorem retainReducerState_grows (u : ReducerStore) (w : PreparedWrite) :
    u ≤ (retainReducerState u w).2 := by
  rw [retainReducerState]
  cases h : u.state w.space w.digest w.ordinal with
  | some r => exact le_refl u
  | none =>
    refine ⟨fun n d o r e => ?_,fun _ _ _ e => e⟩
    have hne : ¬(n=w.space ∧ d=w.digest ∧ o=w.ordinal) := by
      rintro ⟨rfl,rfl,rfl⟩
      rw [h] at e
      cases e
    simpa [hne] using e

theorem retainReducerStates_grows (ws : List PreparedWrite) (u : ReducerStore) :
    u ≤ (retainReducerStates ws u).2 := by
  induction ws generalizing u with
  | nil => exact le_refl u
  | cons w ws ih => exact le_trans (retainReducerState_grows u w) (ih _)

theorem refer_grows (op : ReducerCall) (u : ReducerStore) : u ≤ (ReducerStore.refer op u).2 := by
  cases op with
  | retainText chunks => exact ⟨fun _ _ _ _ e => e,retainTextBatch_grows chunks u.text⟩
  | retainStates writes =>
    rw [ReducerStore.refer]
    split
    · exact le_refl u
    · exact retainReducerStates_grows writes u
  | _ => exact le_refl u

/-- A run of a reducer as the measure of its replays. -/
def reducerReference (last : ReducerStore) (log : List ReducerEvent)
    (Good : ReducerCheckpoint → ReducerStore → Prop)
    (mono : ∀c u v,u ≤ v → Good c u → Good c v) :
    Durable.Reference ReducerCall ReducerCheckpoint ReducerCall.Answer ReducerEvent
      ReducerStore where
  refer := ReducerStore.refer
  first := .empty
  last := last
  log := log
  Good := Good
  grows := refer_grows
  good_mono := mono

section
variable {z : ReducerStore} {L : List ReducerEvent}
  {Good : ReducerCheckpoint → ReducerStore → Prop} {mono : ∀c u v,u ≤ v → Good c u → Good c v}
variable {v value : Json} {parts : List TextPart} {readers : List TextReader}

/-- A round of the restoration once its pages are read. -/
def restoreRound (n : Nat) (value : Json) (admitted : List TextReader × List TextPart)
    (rows : List (List (Nat × JsString))) : ReducerProg Json :=
  match takePages admitted.1 rows with
  | none => .fail textUnavailable
  | some readers =>
    match settle readers value with
    | .error e => .fail e
    | .ok r => restoreRounds (fun requests => ask (.textPages requests)) n r.1 r.2 admitted.2

theorem restoreRounds_succ (n : Nat) (value : Json) (hne : (openReaders readers parts).1≠[]) :
    (restoreRounds (fun requests => ask (.textPages requests)) (n+1) value readers parts :
      ReducerProg Json)=.call (.store (.textPages ((openReaders readers parts).1.map fun r =>
        (r.part.sha256,r.ordinal,r.part.chunks)))) (restoreRound n value (openReaders readers parts)) := by
  rw [restoreRounds]
  simp only [if_neg hne]
  rfl

theorem restoreRounds_reads (n : Nat) (value : Json) (readers : List TextReader)
    (parts : List TextPart) : Durable.Reads ReducerStore.refer
      (restoreRounds (fun requests => ask (.textPages requests)) n value readers parts :
        ReducerProg Json) := by
  induction n generalizing value readers parts with
  | zero => trivial
  | succ n ih =>
    by_cases hne : (openReaders readers parts).1=[]
    · rw [restoreRounds]
      simp only [if_pos hne]
      trivial
    · rw [restoreRounds_succ n value hne]
      refine ⟨fun u => rfl,fun rows => ?_⟩
      rw [restoreRound]
      split
      · trivial
      · split
        · trivial
        · exact ih _ _ _

theorem restoreRow_reads (row : Option StateRow) :
    Durable.Reads ReducerStore.refer (restoreRow row) := by
  cases row with
  | none => trivial
  | some row =>
    rw [restoreRow]
    split
    · trivial
    · split
      · trivial
      · exact reads_bind (restoreRounds_reads _ _ _ _) fun _ => trivial

theorem textPages_refer (readers : List TextReader) (u : ReducerStore) :
    ReducerStore.refer (.textPages (readers.map fun r => (r.part.sha256,r.ordinal,r.part.chunks)))
      u=(readers.map fun r => textPage u.text r.part.sha256 r.ordinal r.part.chunks,u) := by
  simp [ReducerStore.refer]

variable {u : ReducerStore}

theorem restoreRounds_round {n : Nat} (hne : (openReaders readers parts).1≠[])
    (h : (alone (plain ReducerStore.refer) (restoreRounds
      (fun requests => ask (.textPages requests)) (n+1) value readers parts :
        ReducerProg Json) u).result=.ok v) :
    ∃readers' r,takePages (openReaders readers parts).1 ((openReaders readers parts).1.map fun r =>
        textPage u.text r.part.sha256 r.ordinal r.part.chunks)=some readers' ∧
      settle readers' value=.ok r ∧
      (alone (plain ReducerStore.refer) (restoreRounds
        (fun requests => ask (.textPages requests)) n r.1 r.2 (openReaders readers parts).2 :
          ReducerProg Json) u).result=.ok v := by
  rw [restoreRounds_succ n value hne,alone,plain,textPages_refer,restoreRound] at h
  cases ht : takePages (openReaders readers parts).1 ((openReaders readers parts).1.map fun r =>
      textPage u.text r.part.sha256 r.ordinal r.part.chunks) with
  | none =>
    rw [ht] at h
    cases h
  | some readers' =>
    rw [ht] at h
    cases hs : settle readers' value with
    | error e =>
      simp only [hs] at h
      cases h
    | ok r =>
      simp only [hs] at h
      exact ⟨readers',r,rfl,hs,h⟩

theorem restoreRounds_present {n : Nat} (h : (alone (plain ReducerStore.refer) (restoreRounds
      (fun requests => ask (.textPages requests)) n value readers parts :
        ReducerProg Json) u).result=.ok v) :
    ∀r∈(openReaders readers parts).1,Present u.text r.part.sha256 r.ordinal r.part.chunks := by
  induction n generalizing value readers parts with
  | zero => cases h
  | succ n ih =>
    intro r hr
    obtain ⟨readers',q,ht,hs,hn⟩ := restoreRounds_round (List.ne_nil_of_mem hr) h
    obtain ⟨r',hr',hpart,hlt,hp⟩ := takePages_spec ht r hr
    intro o ho ho2
    by_cases hpage : o < r'.ordinal
    · exact hp o ho hpage
    · rcases settle_spec hs r' hr' with hin | hall
      · have hrest := ih hn r' (mem_openReaders hin) o (by omega) (by rw [hpart]; exact ho2)
        rwa [hpart] at hrest
      · rw [hpart] at hall
        omega

theorem restoreRounds_follows {n : Nat} (h : (alone (plain ReducerStore.refer) (restoreRounds
      (fun requests => ask (.textPages requests)) n value readers parts :
        ReducerProg Json) u).result=.ok v) :
    Durable.Follows (reducerReference z L Good mono) Eq
      (restoreRounds (fun requests => ask (.textPages requests)) n value readers parts :
        ReducerProg Json)
      (restoreRounds (fun requests => ask (.textPages requests)) n value readers parts) u := by
  induction n generalizing value readers parts with
  | zero => cases h
  | succ n ih =>
    by_cases hne : (openReaders readers parts).1=[]
    · rw [restoreRounds]
      simp only [if_pos hne]
      exact follows_ret rfl u
    · have hpresent := restoreRounds_present h
      obtain ⟨readers',q,ht,hs,hn⟩ := restoreRounds_round hne h
      have hrest : restoreRound n value (openReaders readers parts) (ReducerStore.refer (.textPages
          ((openReaders readers parts).1.map fun r => (r.part.sha256,r.ordinal,r.part.chunks))) u).1=
          restoreRounds (fun requests => ask (.textPages requests)) n q.1 q.2
            (openReaders readers parts).2 := by
        rw [textPages_refer,restoreRound,ht]
        simp only [hs]
      rw [restoreRounds_succ n value hne]
      apply follows_call
      · intro _ w hw hw2
        refine ⟨?_,hw,hw2⟩
        show (ReducerStore.refer _ w).1=(ReducerStore.refer _ u).1
        rw [textPages_refer,textPages_refer]
        apply List.map_congr_left
        intro r hr
        exact textPage_agree hw.2 (hpresent r hr)
      · have hnext := ih hn
        rw [←hrest] at hnext
        exact hnext

theorem restoreRow_follows (row : Option StateRow) (u : ReducerStore) :
    Durable.Follows (reducerReference z L Good mono) Eq (restoreRow row) (restoreRow row) u := by
  apply follows_of_returns (restoreRow_reads row)
  intro a ha
  cases row with
  | none => exact follows_ret rfl u
  | some row =>
    rw [restoreRow] at ha ⊢
    split
    · exact follows_fail _ u
    · rename_i hsha
      rw [if_neg hsha] at ha
      split at ha
      · rename_i he
        exact follows_fail _ u
      · rename_i e he
        rw [alone_bind] at ha
        cases hr : (alone (plain ReducerStore.refer) (restorePartitionedRecord
            (fun requests => ask (.textPages requests)) e : ReducerProg Json) u).result with
        | error e =>
          simp only [reducerReference,hr] at ha
          cases ha
        | ok v =>
          exact follows_bind (restoreRounds_follows hr) fun a b hab _ => by
            rw [hab]
            exact follows_ret rfl _

end

end CardKeepr.Reconciliation
