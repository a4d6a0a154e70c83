import CardKeepr.SourceEvidence.AcquisitionBudget
import CardKeepr.Shared.CanonicalTies
import Mathlib.Data.List.Nodup

namespace CardKeepr.SourceEvidence

open Lib Shared List

variable {a : Account} {p q : Policy} {s t : Ledger} {op : LedgerCall} {r : Reservation}
  {c : Circumstances} {input : DispatchInput} {rs : List Reservation}
  {n bytes baseline generation : Nat} {id key run digest capture : JsString}

namespace Ledger

def reservationsOf (s : Ledger) (run : JsString) : List Reservation :=
  s.reservations.filter fun r => r.ingestion_run_id=run

def settledBytes (s : Ledger) (run : JsString) : Nat :=
  ((s.reservationsOf run).map fun r => r.settled.getD 0).sum

def exposure (s : Ledger) (run : JsString) : Nat :=
  ((s.reservationsOf run).map fun r => if r.settled=none then r.maximum_source_bytes else 0).sum

def Reserved (s : Ledger) (w : Writer) : Prop := ∃r∈s.reservations,r.id=w.token

end Ledger

/-- The counters of an account are what its rows say, and stay within the latest policy. -/
structure AccountBalanced (s : Ledger) (run : JsString) (a : Account) : Prop where
  dispatches : a.charged_dispatches=(s.reservationsOf run).length
  charged : a.charged_source_bytes=a.baseline_source_bytes+s.settledBytes run
  reserved : a.reserved_source_bytes=s.exposure run
  within : ∃p,s.latest run=some p ∧ a.charged_dispatches ≤ p.budget.max_dispatches ∧
    a.charged_source_bytes+a.reserved_source_bytes ≤ p.budget.max_source_bytes

structure Balanced (s : Ledger) : Prop where
  account : ∀run a,s.accounts run=some a → AccountBalanced s run a
  /-- a run without an account has no reservation -/
  covered : ∀run,s.accounts run=none → s.reservationsOf run=[]
  identities : (s.reservations.map Reservation.id).Nodup
  capture : ∀r∈s.reservations,∀q∈s.reservations,r.capture_operation_id=q.capture_operation_id →
    r.settled=none → q.settled=none → r=q
  tokens : (s.writers.map Writer.token).Nodup
  writer : ∀v∈s.writers,∀w∈s.writers,s.Reserved v → s.Reserved w → v.object_key=w.object_key →
    v.completed=false → w.completed=false → v=w
  policies : ∀p∈s.policies,∀q∈s.policies,p.ingestion_run_id=q.ingestion_run_id →
    p.generation ≤ q.generation → p.budget.Within q.budget

/-- What carries the balance from one transaction to the next. -/
structure LedgerKept (s : Ledger) : Prop extends Balanced s where
  generations : ∀p∈s.policies,∀q∈s.policies,p.ingestion_run_id=q.ingestion_run_id →
    p.generation=q.generation → p=q
  held : ∀r∈s.reservations,∃w∈s.writers,w.token=r.id
  limits : ∀p∈s.policies,p.budget.max_source_bytes ≤ maxSafeInteger ∧ p.budget.max_dispatches ≤ maxSafeInteger
  owned : ∀p∈s.policies,s.accounts p.ingestion_run_id≠none

theorem latestOf_none {ps : List Policy} : Ledger.latestOf ps=none ↔ ps=[] := by
  cases ps with
  | nil => simp [Ledger.latestOf]
  | cons p ps =>
    rw [Ledger.latestOf]
    cases Ledger.latestOf ps with
    | none => simp
    | some q => simp only; split <;> simp

theorem latestOf_some {ps : List Policy} (h : Ledger.latestOf ps=some p) :
    p∈ps ∧ ∀q∈ps,q.generation ≤ p.generation := by
  induction ps generalizing p with
  | nil => cases h
  | cons r ps ih =>
    rw [Ledger.latestOf] at h
    cases hl : Ledger.latestOf ps with
    | none =>
      rw [hl] at h
      obtain rfl := Option.some.inj h
      rw [latestOf_none.mp hl]
      exact ⟨mem_singleton.mpr rfl,fun q hq => by rw [mem_singleton.mp hq]⟩
    | some q =>
      rw [hl] at h
      simp only at h
      obtain ⟨h1,h2⟩ := ih hl
      split at h
      · obtain rfl := Option.some.inj h
        refine ⟨mem_cons_self,fun x hx => ?_⟩
        rcases mem_cons.mp hx with rfl | hx
        · exact le_refl _
        · have := h2 x hx
          omega
      · obtain rfl := Option.some.inj h
        refine ⟨mem_cons_of_mem _ h1,fun x hx => ?_⟩
        rcases mem_cons.mp hx with rfl | hx
        · omega
        · exact h2 x hx

theorem latest_some (h : s.latest run=some p) : p∈s.policies ∧ p.ingestion_run_id=run ∧
      ∀q∈s.policies,q.ingestion_run_id=run → q.generation ≤ p.generation := by
  obtain ⟨h1,h2⟩ := latestOf_some h
  obtain ⟨h3,h4⟩ := mem_filter.mp h1
  exact ⟨h3,of_decide_eq_true h4,fun q hq hr => h2 q (mem_filter.mpr ⟨hq,decide_eq_true hr⟩)⟩

theorem latest_insert (ht : t.policies=p::s.policies)
    (h : ∀q∈s.policies,q.ingestion_run_id=p.ingestion_run_id → q.generation < p.generation)
    (run : JsString) : t.latest run=if run=p.ingestion_run_id then some p else s.latest run := by
  rw [Ledger.latest,ht]
  split
  · rename_i he
    subst he
    rw [filter_cons_of_pos (by simp),Ledger.latestOf]
    cases hl : Ledger.latestOf (s.policies.filter fun q => q.ingestion_run_id=p.ingestion_run_id) with
    | none => rfl
    | some q =>
      obtain ⟨hq,hr,-⟩ := latest_some (s := s) hl
      simp only
      rw [if_pos (h q hq hr)]
  · rename_i he
    rw [filter_cons_of_neg (by simpa using fun e => he e.symm)]
    rfl

theorem within_refl (b : AcquisitionBudget) : b.Within b := ⟨le_refl _,le_refl _,le_refl _⟩

theorem within_trans {a b c : AcquisitionBudget} (h : a.Within b) (k : b.Within c) : a.Within c :=
  ⟨le_trans h.dispatches k.dispatches,le_trans h.bytes k.bytes,le_trans h.deadline k.deadline⟩

theorem LedgerKept.of_policies (h : LedgerKept s)
    (hr : t.reservations=s.reservations) (hw : t.writers=s.writers)
    (hp : t.policies=p::s.policies)
    (hnew : ∀q∈s.policies,q.ingestion_run_id=p.ingestion_run_id →
      q.generation < p.generation ∧ q.budget.Within p.budget)
    (hacc : ∀run a,t.accounts run=some a → AccountBalanced t run a)
    (hcov : ∀run,t.accounts run=none → s.accounts run=none ∧ run≠p.ingestion_run_id)
    (hlim : p.budget.max_source_bytes ≤ maxSafeInteger ∧ p.budget.max_dispatches ≤ maxSafeInteger) :
    LedgerKept t := by
  have hres : ∀run,t.reservationsOf run=s.reservationsOf run := fun run => by
    rw [Ledger.reservationsOf,Ledger.reservationsOf,hr]
  refine ⟨⟨hacc,fun run hn => ?_,?_,?_,?_,?_,?_⟩,?_,?_,?_,?_⟩
  · rw [hres]
    exact h.covered run (hcov run hn).1
  · rw [hr]
    exact h.identities
  · rw [hr]
    exact h.capture
  · rw [hw]
    exact h.tokens
  · rw [hw]
    intro v hv w hw2 hv2
    simp only [Ledger.Reserved,hr] at hv2 ⊢
    exact h.writer v hv w hw2 hv2
  · rw [hp]
    intro q hq r hrr hrun hle
    rcases mem_cons.mp hq with rfl | hq1
    · rcases mem_cons.mp hrr with rfl | hr1
      · exact within_refl _
      · have := (hnew r hr1 hrun.symm).1
        omega
    · rcases mem_cons.mp hrr with rfl | hr1
      · exact (hnew q hq1 hrun).2
      · exact h.policies q hq1 r hr1 hrun hle
  · rw [hp]
    intro q hq r hrr hrun he
    rcases mem_cons.mp hq with rfl | hq1
    · rcases mem_cons.mp hrr with rfl | hr1
      · rfl
      · have := (hnew r hr1 hrun.symm).1
        omega
    · rcases mem_cons.mp hrr with rfl | hr1
      · have := (hnew q hq1 hrun).1
        omega
      · exact h.generations q hq1 r hr1 hrun he
  · rw [hr,hw]
    exact h.held
  · rw [hp]
    intro q hq
    rcases mem_cons.mp hq with rfl | hq
    · exact hlim
    · exact h.limits q hq
  · rw [hp]
    intro q hq hn
    obtain ⟨h1,h2⟩ := hcov _ hn
    rcases mem_cons.mp hq with rfl | hq
    · exact h2 rfl
    · exact h.owned q hq h1

theorem guardStatement_ok {ok : Bool} {text : String} {u : Unit}
    (h : guardStatement ok text=.ok u) : ok=true := by
  rw [guardStatement] at h
  split at h
  · assumption
  · cases h

theorem insertAcquisitionPolicy_ok
    (h : insertAcquisitionPolicy p s=.ok t) : t={ s with policies := p::s.policies } ∧
      (p.budget.max_source_bytes ≤ maxSafeInteger ∧ p.budget.max_dispatches ≤ maxSafeInteger) ∧
      (s.accounts p.ingestion_run_id).isSome := by
  rw [insertAcquisitionPolicy] at h
  split at h
  · rename_i hc
    simp only [policyAdmitted,Bool.and_eq_true,decide_eq_true_eq] at hc
    exact ⟨(Except.ok.inj h).symm,⟨hc.1.2.2,hc.1.1.2.2⟩,hc.1.1.1.1⟩
  · cases h

theorem initializeStatements_ok
    (h : initializeStatements c baseline p s=.ok ((),t)) : s.accounts p.ingestion_run_id=none ∧
      (t.accounts=(s.setAccount p.ingestion_run_id ⟨baseline,0,baseline,0⟩).accounts ∧
        t.policies=p::s.policies ∧ t.reservations=s.reservations ∧ t.writers=s.writers) ∧
      (p.budget.max_source_bytes ≤ maxSafeInteger ∧ p.budget.max_dispatches ≤ maxSafeInteger) := by
  obtain ⟨-,-,h⟩ := bind_ok h
  obtain ⟨s1,h1,h⟩ := bind_ok h
  obtain ⟨s2,h2,h⟩ := bind_ok h
  rw [initialAcquisitionAccount] at h1
  split at h1
  · cases h1
  · rename_i hnone
    obtain rfl := Except.ok.inj h1
    obtain ⟨rfl,hlim,-⟩ := insertAcquisitionPolicy_ok h2
    obtain rfl := congrArg Prod.snd (Except.ok.inj h)
    simp only [not_or,Bool.not_eq_true,Option.isSome_eq_false_iff,Option.isNone_iff_eq_none] at hnone
    exact ⟨hnone.1,⟨rfl,rfl,rfl,rfl⟩,hlim⟩

theorem initializeBatch_ok {legacy : Bool} (h : initializeBatch c legacy baseline p s=.ok ((),t)) :
    initializeStatements c baseline p s=.ok ((),t) := by
  cases legacy with
  | false => exact h
  | true =>
    obtain ⟨-,-,h⟩ := bind_ok h
    obtain ⟨-,-,h⟩ := bind_ok h
    exact h

theorem setAccount_self (s : Ledger) (run : JsString) (a : Account) :
    (s.setAccount run a).accounts run=some a := if_pos rfl

theorem setAccount_other (s : Ledger) {r : JsString} (a : Account) (h : r≠run) :
    (s.setAccount run a).accounts r=s.accounts r := if_neg h

theorem AccountBalanced.grown (h : AccountBalanced s run a) (hr : t.reservations=s.reservations)
    (hl : ∀p,s.latest run=some p → ∃q,t.latest run=some q ∧ p.budget.Within q.budget) :
    AccountBalanced t run a := by
  have hres : t.reservationsOf run=s.reservationsOf run := by
    rw [Ledger.reservationsOf,Ledger.reservationsOf,hr]
  obtain ⟨p,hp,h1,h2⟩ := h.within
  obtain ⟨q,hq,hw⟩ := hl p hp
  refine ⟨?_,?_,?_,q,hq,le_trans h1 hw.dispatches,le_trans h2 hw.bytes⟩
  · rw [hres]
    exact h.dispatches
  · rw [Ledger.settledBytes,hres]
    exact h.charged
  · rw [Ledger.exposure,hres]
    exact h.reserved

theorem LedgerKept.openAccount {legacy : Bool} (h : LedgerKept s) (hb : baseline ≤ p.budget.max_source_bytes)
    (ht : initializeBatch c legacy baseline p s=.ok ((),t)) :
    LedgerKept t ∧ t.policies=p::s.policies := by
  obtain ⟨hnone,⟨hacc,hp,hr,hw⟩,hlim⟩ := initializeStatements_ok (initializeBatch_ok ht)
  have hfirst : ∀q∈s.policies,q.ingestion_run_id≠p.ingestion_run_id := fun q hq he =>
    h.owned q hq (he ▸ hnone)
  have hlatest := latest_insert hp fun q hq hr => (hfirst q hq hr).elim
  have hself : t.accounts p.ingestion_run_id=some ⟨baseline,0,baseline,0⟩ := by
    rw [hacc,setAccount_self]
  have hother : ∀run,run≠p.ingestion_run_id → t.accounts run=s.accounts run := fun run hne => by
    rw [hacc,setAccount_other s _ hne]
  refine ⟨h.of_policies hr hw hp (fun q hq hr => (hfirst q hq hr).elim) ?_ ?_ hlim,hp⟩
  · intro run a ha
    by_cases hre : run=p.ingestion_run_id
    · subst hre
      rw [hself] at ha
      obtain rfl := Option.some.inj ha
      have hres : t.reservationsOf p.ingestion_run_id=[] := by
        rw [Ledger.reservationsOf,hr]
        exact h.covered _ hnone
      refine ⟨?_,?_,?_,p,by rw [hlatest,if_pos rfl],Nat.zero_le _,hb⟩
      · rw [hres]
        rfl
      · rw [Ledger.settledBytes,hres]
        rfl
      · rw [Ledger.exposure,hres]
        rfl
    · rw [hother run hre] at ha
      refine (h.account run a ha).grown hr fun q hq => ⟨q,?_,within_refl _⟩
      rw [hlatest,if_neg hre,hq]
  · intro run hn
    by_cases hre : run=p.ingestion_run_id
    · subst hre
      rw [hself] at hn
      cases hn
    · exact ⟨(hother run hre).symm.trans hn,hre⟩

theorem extendBatch_ok (h : extendBatch c generation p s=.ok ((),t)) :
    (∃q,s.latest p.ingestion_run_id=some q ∧ q.generation=generation) ∧
      t={ s with policies := p::s.policies } ∧
      (p.budget.max_source_bytes ≤ maxSafeInteger ∧ p.budget.max_dispatches ≤ maxSafeInteger) ∧
      (s.accounts p.ingestion_run_id).isSome := by
  rw [extendBatch] at h
  obtain ⟨-,-,h⟩ := bind_ok h
  obtain ⟨_,hg,h⟩ := bind_ok h
  obtain ⟨-,-,h⟩ := bind_ok h
  obtain ⟨u,hu,h⟩ := bind_ok h
  obtain ⟨rfl,hlim,hacc⟩ := insertAcquisitionPolicy_ok hu
  have hg := guardStatement_ok hg
  rw [extensionGuard,Bool.and_eq_true,decide_eq_true_eq,decide_eq_true_eq] at hg
  obtain ⟨q,hq,hgen⟩ := Option.map_eq_some_iff.mp hg.2
  exact ⟨⟨q,hq,hgen⟩,(congrArg Prod.snd (Except.ok.inj h)).symm,hlim,hacc⟩

theorem LedgerKept.extend (h : LedgerKept s) (hgen : p.generation=generation+1) (hq : q∈s.policies)
    (hrun : q.ingestion_run_id=p.ingestion_run_id) (hqg : q.generation=generation)
    (hw : q.budget.Within p.budget) (ht : extendBatch c generation p s=.ok ((),t)) :
    LedgerKept t ∧ t.policies=p::s.policies := by
  obtain ⟨⟨r,hr,hrg⟩,rfl,hlim,hacc⟩ := extendBatch_ok ht
  obtain ⟨hrm,hrr,hmax⟩ := latest_some hr
  obtain rfl : r=q := h.generations r hrm q hq (hrr.trans hrun.symm) (hrg.trans hqg.symm)
  have hnew : ∀x∈s.policies,x.ingestion_run_id=p.ingestion_run_id →
      x.generation < p.generation ∧ x.budget.Within p.budget := by
    intro x hx hxr
    have hle := hmax x hx hxr
    exact ⟨by omega,within_trans (h.policies x hx r hq (hxr.trans hrun.symm) hle) hw⟩
  have hlatest := latest_insert (s := s) (p := p) (t := { s with policies := p::s.policies }) rfl
    fun x hx hxr => (hnew x hx hxr).1
  refine ⟨h.of_policies rfl rfl rfl hnew ?_ ?_ hlim,rfl⟩
  · intro run a ha
    refine (h.account run a ha).grown rfl fun x hx => ?_
    by_cases hre : run=p.ingestion_run_id
    · subst hre
      rw [hr] at hx
      obtain rfl := Option.some.inj hx
      exact ⟨p,by rw [hlatest,if_pos rfl],hw⟩
    · exact ⟨x,by rw [hlatest,if_neg hre,hx],within_refl _⟩
  · intro run hn
    refine ⟨hn,?_⟩
    rintro rfl
    rw [show s.accounts p.ingestion_run_id=none from hn] at hacc
    cases hacc

/-- The conditions under which a reservation is found, and what it is. -/
structure Admitted (c : Circumstances) (input : DispatchInput) (s : Ledger) (a : Account)
    (p : Policy) (r : Reservation) : Prop where
  account : s.accounts input.runId=some a
  latest : s.latest input.runId=some p
  dispatches : a.charged_dispatches < p.budget.max_dispatches
  bytes : input.maximumBytes+a.charged_source_bytes+a.reserved_source_bytes ≤
    p.budget.max_source_bytes
  capture : ∀q∈s.reservations,q.capture_operation_id=input.captureId → q.settled≠none
  writer : ∀w∈s.writers,w.object_key=input.objectKey → w.completed=true
  row : r=⟨input.id,input.runId,input.requestId,input.captureId,input.objectKey,input.parentId,
    input.instanceId,p.generation,input.maximumBytes,c.now,none⟩

theorem reservationOf_some (h : reservationOf c input s=some r) : ∃a p,Admitted c input s a p r := by
  rw [reservationOf] at h
  obtain ⟨a,ha,h⟩ := Option.bind_eq_some_iff.mp h
  obtain ⟨p,hp,h⟩ := Option.bind_eq_some_iff.mp h
  split at h
  · rename_i hc
    obtain ⟨-,h1,h2,h3,h4,-⟩ := hc
    refine ⟨a,p,ha,hp,h1,h2,fun q hq hcap hs => h3 ⟨q,hq,hcap,hs⟩,fun w hw hk => ?_,
      (Option.some.inj h).symm⟩
    cases hd : w.completed with
    | true => rfl
    | false => exact (h4 ⟨w,hw,hk,hd⟩).elim
  · cases h

theorem updateAccount_ok {f : Account → Option Account} (ha : s.accounts run=some a)
    (h : updateAccount run f s=.ok t) : ∃b,f a=some b ∧ t=s.setAccount run b := by
  rw [updateAccount,ha] at h
  simp only at h
  cases hf : f a with
  | none => rw [hf] at h; cases h
  | some b =>
    rw [hf] at h
    simp only at h
    split at h
    · exact ⟨b,rfl,(Except.ok.inj h).symm⟩
    · cases h

/-- What a committed reservation batch did: nothing, or a row, its charge and its writer. -/
theorem reserveSourceDispatch_ok
    (hk : LedgerKept s) (h : reserveSourceDispatch c input s=.ok (n,t)) : t=s ∨
      ∃a p r,Admitted c input s a p r ∧ (∀q∈s.reservations,q.id≠input.id) ∧
        (∀w∈s.writers,w.token≠input.id) ∧ t.reservations=r::s.reservations ∧
        t.accounts=(s.setAccount input.runId { a with
          charged_dispatches := a.charged_dispatches+1,
          reserved_source_bytes := a.reserved_source_bytes+input.maximumBytes }).accounts ∧
        t.writers=⟨input.id,input.runId,input.objectKey,false⟩::s.writers ∧
        t.policies=s.policies := by
  rw [reserveSourceDispatch] at h
  obtain ⟨-,-,h⟩ := bind_ok h
  obtain ⟨⟨m,s1⟩,h1,h⟩ := bind_ok h
  obtain ⟨s2,h2,h⟩ := bind_ok h
  obtain ⟨s3,h3,h⟩ := bind_ok h
  obtain rfl := congrArg Prod.snd (Except.ok.inj h)
  cases hr : reservationOf c input s with
  | none =>
    left
    rw [hr] at h1
    have h1 := Except.ok.inj h1
    obtain ⟨rfl,rfl⟩ := Prod.mk.inj h1
    rw [chargeDispatch,if_neg (Nat.lt_irrefl 0)] at h2
    obtain rfl := Except.ok.inj h2
    rw [insertWriters] at h3
    cases hf : s.reservations.find? fun r => r.id=input.id with
    | none =>
      rw [hf] at h3
      exact (Except.ok.inj h3).symm
    | some r =>
      rw [hf] at h3
      simp only at h3
      obtain ⟨w,hw,hwt⟩ := hk.held r (List.mem_of_find?_eq_some hf)
      rw [if_pos ⟨w,hw,hwt⟩] at h3
      cases h3
  | some r =>
    right
    obtain ⟨a,p,hadm⟩ := reservationOf_some hr
    have hrid : r.id=input.id := by rw [hadm.row]
    rw [hr,insertReservation] at h1
    split at h1
    · cases h1
    · rename_i hfresh
      have h1 := Except.ok.inj h1
      obtain ⟨rfl,rfl⟩ := Prod.mk.inj h1
      rw [not_or] at hfresh
      rw [chargeDispatch,if_pos Nat.one_pos] at h2
      obtain ⟨b,hb,rfl⟩ := updateAccount_ok (a := a)
        (s := { s with reservations := r::s.reservations }) hadm.account h2
      obtain rfl := Option.some.inj hb
      have hfind : (r::s.reservations).find? (fun r => r.id=input.id)=some r := by
        rw [List.find?_cons_of_pos (by simpa using hrid)]
      rw [insertWriters,show Ledger.reservations _=r::s.reservations from rfl,hfind] at h3
      simp only at h3
      split at h3
      · cases h3
      · rename_i hw
        obtain rfl := Except.ok.inj h3
        refine ⟨a,p,r,hadm,fun q hq he => hfresh.1 ⟨q,hq,by rw [he,hrid]⟩,
          fun w hw2 he => hw ⟨w,hw2,by rw [he,hrid]⟩,rfl,rfl,?_,rfl⟩
        rw [hadm.row]
        rfl

theorem reservationsOf_cons (h : t.reservations=r::s.reservations)
    (run : JsString) : t.reservationsOf run=
      if r.ingestion_run_id=run then r::s.reservationsOf run else s.reservationsOf run := by
  rw [Ledger.reservationsOf,h]
  split
  · rename_i he
    rw [filter_cons_of_pos (by simpa using he)]
    rfl
  · rename_i he
    rw [filter_cons_of_neg (by simpa using he)]
    rfl

theorem LedgerKept.reserve (h : LedgerKept s) (ht : reserveSourceDispatch c input s=.ok (n,t)) :
    LedgerKept t ∧ t.policies=s.policies := by
  rcases reserveSourceDispatch_ok h ht with rfl | ⟨a,p,r,hadm,hid,htok,hres,hacc,hwri,hpol⟩
  · exact ⟨h,rfl⟩
  refine ⟨?_,hpol⟩
  have hrun : r.ingestion_run_id=input.runId := by rw [hadm.row]
  have hset : r.settled=none := by rw [hadm.row]
  have hmax : r.maximum_source_bytes=input.maximumBytes := by rw [hadm.row]
  have hlat : ∀run,t.latest run=s.latest run := fun run => by
    rw [Ledger.latest,Ledger.latest,hpol]
  have hrows := reservationsOf_cons hres
  have hself : t.accounts input.runId=some { a with
      charged_dispatches := a.charged_dispatches+1,
      reserved_source_bytes := a.reserved_source_bytes+input.maximumBytes } := by
    rw [hacc,setAccount_self]
  have hother : ∀run,run≠input.runId → t.accounts run=s.accounts run := fun run hne => by
    rw [hacc,setAccount_other s _ hne]
  have hold : ∀run,run≠input.runId → t.reservationsOf run=s.reservationsOf run := fun run hne => by
    rw [hrows,if_neg (by rw [hrun]; exact fun e => hne e.symm)]
  refine ⟨⟨?_,?_,?_,?_,?_,?_,?_⟩,?_,?_,?_,?_⟩
  · intro run b hb
    by_cases hre : run=input.runId
    · subst hre
      rw [hself] at hb
      obtain rfl := Option.some.inj hb
      have hk := h.account _ a hadm.account
      have hnew : t.reservationsOf input.runId=r::s.reservationsOf input.runId := by
        rw [hrows,if_pos hrun]
      refine ⟨?_,?_,?_,p,by rw [hlat]; exact hadm.latest,?_,?_⟩
      · rw [hnew,length_cons]
        exact congrArg (·+1) hk.dispatches
      · rw [Ledger.settledBytes,hnew,map_cons,sum_cons,hset]
        have := hk.charged
        rw [Ledger.settledBytes] at this
        simpa using this
      · rw [Ledger.exposure,hnew,map_cons,sum_cons,if_pos hset,hmax]
        have := hk.reserved
        rw [Ledger.exposure] at this
        show a.reserved_source_bytes+input.maximumBytes=_
        omega
      · have := hadm.dispatches
        show a.charged_dispatches+1 ≤ _
        omega
      · have := hadm.bytes
        show a.charged_source_bytes+(a.reserved_source_bytes+input.maximumBytes) ≤ _
        omega
    · rw [hother run hre] at hb
      have hk := h.account run b hb
      obtain ⟨q,hq,h1,h2⟩ := hk.within
      refine ⟨?_,?_,?_,q,by rw [hlat]; exact hq,h1,h2⟩
      · rw [hold run hre]
        exact hk.dispatches
      · rw [Ledger.settledBytes,hold run hre]
        exact hk.charged
      · rw [Ledger.exposure,hold run hre]
        exact hk.reserved
  · intro run hn
    by_cases hre : run=input.runId
    · subst hre
      rw [hself] at hn
      cases hn
    · rw [hold run hre]
      exact h.covered run ((hother run hre).symm.trans hn)
  · rw [hres,map_cons,nodup_cons]
    refine ⟨fun hm => ?_,h.identities⟩
    obtain ⟨q,hq,he⟩ := mem_map.mp hm
    exact hid q hq (by rw [he,hadm.row])
  · rw [hres]
    have hcap : r.capture_operation_id=input.captureId := by rw [hadm.row]
    intro x hx y hy he h1 h2
    rcases mem_cons.mp hx with rfl | hx1
    · rcases mem_cons.mp hy with rfl | hy1
      · rfl
      · exact (hadm.capture y hy1 (by rw [←he,hcap]) h2).elim
    · rcases mem_cons.mp hy with rfl | hy1
      · exact (hadm.capture x hx1 (by rw [he,hcap]) h1).elim
      · exact h.capture x hx1 y hy1 he h1 h2
  · rw [hwri,map_cons,nodup_cons]
    refine ⟨fun hm => ?_,h.tokens⟩
    obtain ⟨w,hw,he⟩ := mem_map.mp hm
    exact htok w hw he
  · rw [hwri]
    -- no writer of this key was open, so the new one stands alone
    have hresv : ∀w∈s.writers,t.Reserved w → s.Reserved w := by
      intro w hw hrw
      obtain ⟨q,hq,he⟩ := hrw
      rw [hres] at hq
      rcases mem_cons.mp hq with rfl | hq
      · exact (htok w hw (by rw [←he,hadm.row])).elim
      · exact ⟨q,hq,he⟩
    intro v hv w hw hv2 hw2 hkey h1 h2
    rcases mem_cons.mp hv with rfl | hv1
    · rcases mem_cons.mp hw with rfl | hw1
      · rfl
      · have := hadm.writer w hw1 hkey.symm
        rw [h2] at this
        cases this
    · rcases mem_cons.mp hw with rfl | hw1
      · have := hadm.writer v hv1 hkey
        rw [h1] at this
        cases this
      · exact h.writer v hv1 w hw1 (hresv v hv1 hv2) (hresv w hw1 hw2) hkey h1 h2
  · rw [hpol]
    exact h.policies
  · rw [hpol]
    exact h.generations
  · rw [hres,hwri]
    intro q hq
    rcases mem_cons.mp hq with rfl | hq1
    · exact ⟨_,mem_cons_self,by rw [hadm.row]⟩
    · obtain ⟨w,hw,he⟩ := h.held q hq1
      exact ⟨w,mem_cons_of_mem _ hw,he⟩
  · rw [hpol]
    exact h.limits
  · rw [hpol]
    intro q hq hn
    by_cases hre : q.ingestion_run_id=input.runId
    · rw [hre,hself] at hn
      cases hn
    · exact h.owned q hq ((hother _ hre).symm.trans hn)

theorem settleReservations_none
    (h : ∀r∈rs,settles id capture bytes r=false) : settleReservations id capture bytes rs=rs := by
  rw [settleReservations]
  conv_rhs => rw [←map_id rs]
  refine map_congr_left fun r hr => ?_
  rw [h r hr]
  rfl

theorem settles_iff :
    settles id capture bytes r=true ↔ r.id=id ∧ r.capture_operation_id=capture ∧ r.settled=none ∧
      bytes ≤ r.maximum_source_bytes := decide_eq_true_iff

theorem settleReservations_sums (hn : (rs.map Reservation.id).Nodup) (hr : r∈rs)
    (hs : settles id capture bytes r=true) :
    ((settleReservations id capture bytes rs).map fun r => r.settled.getD 0).sum=
      (rs.map fun r => r.settled.getD 0).sum+bytes ∧
    ((settleReservations id capture bytes rs).map fun r =>
        if r.settled=none then r.maximum_source_bytes else 0).sum+r.maximum_source_bytes=
      (rs.map fun r => if r.settled=none then r.maximum_source_bytes else 0).sum := by
  obtain ⟨hid,-,hset,-⟩ := settles_iff.mp hs
  induction rs with
  | nil => exact (not_mem_nil hr).elim
  | cons q rs ih =>
    rw [map_cons,nodup_cons] at hn
    rcases mem_cons.mp hr with rfl | hr
    · have hrest : settleReservations id capture bytes rs=rs := by
        apply settleReservations_none
        intro x hx
        by_contra hc
        have hx2 := (settles_iff.mp (by simpa using hc)).1
        exact hn.1 (mem_map.mpr ⟨x,hx,by rw [hx2,hid]⟩)
      rw [settleReservations] at hrest ⊢
      rw [map_cons,hrest,if_pos hs]
      simp only [map_cons,sum_cons,Option.getD_some,hset,Option.getD_none,if_true]
      constructor
      · omega
      · simp
        omega
    · have hq : settles id capture bytes q=false := by
        by_contra hc
        have hq2 := (settles_iff.mp (by simpa using hc)).1
        exact hn.1 (mem_map.mpr ⟨r,hr,by rw [hq2,hid]⟩)
      obtain ⟨h1,h2⟩ := ih hn.2 hr
      rw [settleReservations] at h1 h2 ⊢
      rw [map_cons,hq]
      simp only [map_cons,sum_cons,Bool.false_eq_true,if_false] at h1 h2 ⊢
      constructor
      · omega
      · omega

theorem settleReservations_filter (id capture : JsString) (bytes : Nat) (rs : List Reservation)
    (run : JsString) : (settleReservations id capture bytes rs).filter
        (fun r => r.ingestion_run_id=run)=
      settleReservations id capture bytes (rs.filter fun r => r.ingestion_run_id=run) := by
  rw [settleReservations,settleReservations,filter_map]
  refine congrArg _ (filter_congr fun r _ => ?_)
  simp only [Function.comp_apply]
  split <;> rfl

theorem settleReservations_ids (id capture : JsString) (bytes : Nat) (rs : List Reservation) :
    (settleReservations id capture bytes rs).map Reservation.id=rs.map Reservation.id := by
  rw [settleReservations,map_map]
  refine map_congr_left fun r _ => ?_
  simp only [Function.comp_apply]
  split <;> rfl

theorem mem_settleReservations (h : r∈settleReservations id capture bytes rs) : ∃q∈rs,q.id=r.id ∧
      q.capture_operation_id=r.capture_operation_id ∧ (r.settled=none → r=q) := by
  obtain ⟨q,hq,rfl⟩ := mem_map.mp h
  refine ⟨q,hq,?_⟩
  split
  · exact ⟨rfl,rfl,fun h => by cases h⟩
  · exact ⟨rfl,rfl,fun _ => rfl⟩

/-- What a committed settlement did: at most one row was settled and its account charged. -/
theorem settleSourceDispatch_ok (hk : LedgerKept s) (h : settleSourceDispatch c id capture bytes s=.ok ((),t)) :
    (t.reservations=settleReservations id capture bytes s.reservations ∧ t.policies=s.policies ∧
      (∃f : Writer → Writer,t.writers=s.writers.map f ∧ ∀w,(f w).token=w.token ∧
        (f w).object_key=w.object_key ∧ ((f w).completed=false → f w=w))) ∧
    ((t.accounts=s.accounts ∧ ∀r∈s.reservations,settles id capture bytes r=false) ∨
      ∃r a,r∈s.reservations ∧ settles id capture bytes r=true ∧
        s.accounts r.ingestion_run_id=some a ∧
        r.maximum_source_bytes ≤ a.reserved_source_bytes ∧
        t.accounts=(s.setAccount r.ingestion_run_id { a with
          charged_source_bytes := a.charged_source_bytes+bytes,
          reserved_source_bytes := a.reserved_source_bytes-r.maximum_source_bytes }).accounts) := by
  rw [settleSourceDispatch] at h
  obtain ⟨-,-,h⟩ := bind_ok h
  obtain ⟨u,hu,h⟩ := bind_ok h
  obtain rfl := congrArg Prod.snd (Except.ok.inj h)
  have hwriters : ∀v : Ledger,v.writers=s.writers →
      ∃f : Writer → Writer,(completeSettledWriter id capture v).writers=s.writers.map f ∧
        ∀w,(f w).token=w.token ∧ (f w).object_key=w.object_key ∧ ((f w).completed=false → f w=w) := by
    intro v hv
    refine ⟨_,by rw [completeSettledWriter,hv],fun w => ?_⟩
    split
    · exact ⟨rfl,rfl,fun h => by cases h⟩
    · exact ⟨rfl,rfl,fun _ => rfl⟩
  by_cases hc : s.reservations.countP (settles id capture bytes)=0
  · rw [settleAccount,if_pos hc] at hu
    obtain rfl := Except.ok.inj hu
    refine ⟨⟨rfl,rfl,hwriters _ rfl⟩,.inl ⟨rfl,fun r hr => ?_⟩⟩
    rw [countP_eq_zero] at hc
    simpa using hc r hr
  · obtain ⟨r,hr,hs⟩ : ∃r∈s.reservations,settles id capture bytes r=true := by
      by_contra hno
      apply hc
      rw [countP_eq_zero]
      exact fun r hr hs => hno ⟨r,hr,hs⟩
    obtain ⟨hid,-,-,-⟩ := settles_iff.mp hs
    rw [settleAccount,if_neg hc] at hu
    cases hf : (settleReservations id capture bytes s.reservations).find? (fun r => r.id=id) with
    | none =>
      have hm : r.id∈(settleReservations id capture bytes s.reservations).map Reservation.id := by
        rw [settleReservations_ids]
        exact mem_map.mpr ⟨r,hr,rfl⟩
      obtain ⟨q,hq,he⟩ := mem_map.mp hm
      have := List.find?_eq_none.mp hf q hq
      simp [he,hid] at this
    | some q =>
      rw [show Ledger.reservations _=settleReservations id capture bytes s.reservations from rfl,
        hf] at hu
      simp only at hu
      -- the row found by its id is the settled one
      have hq : q.ingestion_run_id=r.ingestion_run_id ∧
          q.maximum_source_bytes=r.maximum_source_bytes := by
        have hqid : q.id=id := by simpa using List.find?_some hf
        obtain ⟨x,hx,hxq⟩ := mem_map.mp (List.mem_of_find?_eq_some hf)
        have hxr : x=r := by
          apply inj_on_of_nodup_map hk.identities hx hr
          rw [hid,←hqid,←hxq]
          split <;> rfl
        subst hxr
        rw [←hxq]
        split <;> exact ⟨rfl,rfl⟩
      rw [hq.1] at hu
      have hacc : s.accounts r.ingestion_run_id≠none := by
        intro hn
        have hempty := hk.covered _ hn
        have : r∈s.reservationsOf r.ingestion_run_id := mem_filter.mpr ⟨hr,by simp⟩
        rw [hempty] at this
        exact not_mem_nil this
      obtain ⟨a,ha⟩ := Option.ne_none_iff_exists'.mp hacc
      obtain ⟨b,hb,rfl⟩ := updateAccount_ok (a := a)
        (s := { s with reservations := settleReservations id capture bytes s.reservations }) ha hu
      split at hb
      · rename_i hle
        obtain rfl := Option.some.inj hb
        rw [hq.2] at hle
        refine ⟨⟨rfl,rfl,hwriters _ rfl⟩,.inr ⟨r,a,hr,hs,ha,hle,?_⟩⟩
        rw [hq.2]
        rfl
      · cases hb

theorem LedgerKept.of_writers {f : Writer → Writer} (h : LedgerKept s)
    (hw : t.writers=s.writers.map f) (hids : t.reservations.map Reservation.id=
      s.reservations.map Reservation.id) (hf : ∀w,(f w).token=w.token ∧
        (f w).object_key=w.object_key ∧ ((f w).completed=false → f w=w)) :
    (t.writers.map Writer.token).Nodup ∧
    (∀v∈t.writers,∀w∈t.writers,t.Reserved v → t.Reserved w → v.object_key=w.object_key →
      v.completed=false → w.completed=false → v=w) ∧
    ∀r∈t.reservations,∃w∈t.writers,w.token=r.id := by
  have hmem : ∀id,id∈t.reservations.map Reservation.id ↔ id∈s.reservations.map Reservation.id :=
    fun id => by rw [hids]
  have hresv : ∀w,t.Reserved w → s.Reserved w := by
    intro w ⟨r,hr,he⟩
    obtain ⟨q,hq,hqe⟩ := mem_map.mp ((hmem r.id).mp (mem_map.mpr ⟨r,hr,rfl⟩))
    exact ⟨q,hq,hqe.trans he⟩
  refine ⟨?_,?_,?_⟩
  · have he : t.writers.map Writer.token=s.writers.map Writer.token := by
      rw [hw,map_map]
      exact map_congr_left fun w _ => (hf w).1
    rw [he]
    exact h.tokens
  · rw [hw]
    intro v hv w hw2 hv2 hw3 hkey h1 h2
    obtain ⟨v0,hv0,rfl⟩ := mem_map.mp hv
    obtain ⟨w0,hw0,rfl⟩ := mem_map.mp hw2
    have hv1 := (hf v0).2.2 h1
    have hw1 := (hf w0).2.2 h2
    rw [hv1] at hv2 hkey h1 ⊢
    rw [hw1] at hw3 hkey h2 ⊢
    exact h.writer v0 hv0 w0 hw0 (hresv _ hv2) (hresv _ hw3) hkey h1 h2
  · intro r hr
    obtain ⟨q,hq,hqe⟩ := mem_map.mp ((hmem r.id).mp (mem_map.mpr ⟨r,hr,rfl⟩))
    obtain ⟨w,hw2,he⟩ := h.held q hq
    exact ⟨f w,by rw [hw]; exact mem_map.mpr ⟨w,hw2,rfl⟩,by rw [(hf w).1,he,hqe]⟩

theorem LedgerKept.settle
    (h : LedgerKept s) (ht : settleSourceDispatch c id capture bytes s=.ok ((),t)) :
    LedgerKept t ∧ t.policies=s.policies := by
  obtain ⟨⟨hres,hpol,f,hw,hf⟩,hcase⟩ := settleSourceDispatch_ok h ht
  refine ⟨?_,hpol⟩
  have hids : t.reservations.map Reservation.id=s.reservations.map Reservation.id := by
    rw [hres,settleReservations_ids]
  obtain ⟨htok,hwri,hheld⟩ := h.of_writers hw hids hf
  have hlat : ∀run,t.latest run=s.latest run := fun run => by
    rw [Ledger.latest,Ledger.latest,hpol]
  have hrows : ∀run,t.reservationsOf run=
      settleReservations id capture bytes (s.reservationsOf run) := fun run => by
    rw [Ledger.reservationsOf,hres,settleReservations_filter]
    rfl
  have hnodup : ∀run,((s.reservationsOf run).map Reservation.id).Nodup := fun run =>
    h.identities.sublist (filter_sublist.map _)
  -- an account none of whose rows is settled keeps its sums
  have hsame : ∀run a,s.accounts run=some a →
      (∀r∈s.reservationsOf run,settles id capture bytes r=false) → AccountBalanced t run a := by
    intro run a ha hno
    have hk := h.account run a ha
    have he : t.reservationsOf run=s.reservationsOf run := by
      rw [hrows,settleReservations_none hno]
    obtain ⟨p,hp,h1,h2⟩ := hk.within
    refine ⟨?_,?_,?_,p,by rw [hlat]; exact hp,h1,h2⟩
    · rw [he]
      exact hk.dispatches
    · rw [Ledger.settledBytes,he]
      exact hk.charged
    · rw [Ledger.exposure,he]
      exact hk.reserved
  have hempty : ∀run,s.accounts run=none → t.reservationsOf run=[] := fun run hn => by
    rw [hrows,h.covered run hn]
    rfl
  have hcapture : ∀r∈t.reservations,∀q∈t.reservations,
      r.capture_operation_id=q.capture_operation_id → r.settled=none → q.settled=none → r=q := by
    rw [hres]
    intro r hr q hq he h1 h2
    obtain ⟨r0,hr0,-,-,hr3⟩ := mem_settleReservations hr
    obtain ⟨q0,hq0,-,-,hq3⟩ := mem_settleReservations hq
    obtain rfl := hr3 h1
    obtain rfl := hq3 h2
    exact h.capture r hr0 q hq0 he h1 h2
  have haccounts : (∀run a,t.accounts run=some a → AccountBalanced t run a) ∧
      ∀run,t.accounts run=none ↔ s.accounts run=none := by
    rcases hcase with ⟨hacc,hno⟩ | ⟨r,a,hr,hs,ha,hle,hacc⟩
    · rw [hacc]
      exact ⟨fun run a ha => hsame run a ha fun r hr => hno r (mem_filter.mp hr).1,
        fun run => Iff.rfl⟩
    · obtain ⟨hid,-,hset,hb⟩ := settles_iff.mp hs
      have hself : t.accounts r.ingestion_run_id=some { a with
          charged_source_bytes := a.charged_source_bytes+bytes,
          reserved_source_bytes := a.reserved_source_bytes-r.maximum_source_bytes } := by
        rw [hacc,setAccount_self]
      have hother : ∀run,run≠r.ingestion_run_id → t.accounts run=s.accounts run := fun run hne => by
        rw [hacc,setAccount_other s _ hne]
      constructor
      · intro run b hb2
        by_cases hre : run=r.ingestion_run_id
        · subst hre
          rw [hself] at hb2
          obtain rfl := Option.some.inj hb2
          have hk := h.account _ a ha
          have hin : r∈s.reservationsOf r.ingestion_run_id := mem_filter.mpr ⟨hr,by simp⟩
          obtain ⟨h1,h2⟩ := settleReservations_sums (hnodup _) hin hs
          obtain ⟨p,hp,h3,h4⟩ := hk.within
          have hkc := hk.charged
          have hkr := hk.reserved
          rw [Ledger.settledBytes] at hkc
          rw [Ledger.exposure] at hkr
          refine ⟨?_,?_,?_,p,by rw [hlat]; exact hp,h3,?_⟩
          · rw [hrows,settleReservations,length_map]
            exact hk.dispatches
          · rw [Ledger.settledBytes,hrows,h1]
            show a.charged_source_bytes+bytes=a.baseline_source_bytes+_
            omega
          · rw [Ledger.exposure,hrows]
            show a.reserved_source_bytes-r.maximum_source_bytes=_
            omega
          · show a.charged_source_bytes+bytes+(a.reserved_source_bytes-r.maximum_source_bytes) ≤ _
            omega
        · rw [hother run hre] at hb2
          refine hsame run b hb2 fun q hq => ?_
          by_contra hc
          have hqid := (settles_iff.mp (by simpa using hc)).1
          obtain ⟨hq1,hq2⟩ := mem_filter.mp hq
          have hqr : q=r := inj_on_of_nodup_map h.identities hq1 hr (hqid.trans hid.symm)
          rw [hqr] at hq2
          exact hre (of_decide_eq_true hq2).symm
      · intro run
        by_cases hre : run=r.ingestion_run_id
        · subst hre
          rw [hself,ha]
          simp
        · rw [hother run hre]
  refine ⟨⟨haccounts.1,fun run hn => hempty run ((haccounts.2 run).mp hn),by rw [hids]; exact h.identities,
    hcapture,htok,hwri,by rw [hpol]; exact h.policies⟩,by rw [hpol]; exact h.generations,hheld,
    by rw [hpol]; exact h.limits,?_⟩
  rw [hpol]
  exact fun p hp hn => h.owned p hp ((haccounts.2 _).mp hn)

theorem LedgerKept.congr (h : LedgerKept s) (ha : t.accounts=s.accounts)
    (hp : t.policies=s.policies) (hr : t.reservations=s.reservations) (hw : t.writers=s.writers) :
    LedgerKept t := by
  obtain ⟨acc,pol,res,wri,cap,pau,st⟩ := t
  obtain ⟨acc',pol',res',wri',cap',pau',st'⟩ := s
  simp only at ha hp hr hw
  subst ha hp hr hw
  exact ⟨⟨fun run a e => ⟨(h.account run a e).dispatches,(h.account run a e).charged,
    (h.account run a e).reserved,(h.account run a e).within⟩,h.covered,h.identities,h.capture,
    h.tokens,h.writer,h.policies⟩,h.generations,h.held,h.limits,h.owned⟩

theorem LedgerKept.beginWrite (h : LedgerKept s) {w : Writer}
    (hw : ∀v∈s.writers,v.token≠w.token) : LedgerKept { s with writers := w::s.writers } := by
  have hfree : ¬s.Reserved w := by
    rintro ⟨r,hr,he⟩
    obtain ⟨v,hv,hve⟩ := h.held r hr
    exact hw v hv (hve.trans he)
  refine ⟨⟨fun run a e => ⟨(h.account run a e).dispatches,(h.account run a e).charged,
    (h.account run a e).reserved,(h.account run a e).within⟩,h.covered,h.identities,h.capture,
    ?_,?_,h.policies⟩,h.generations,?_,h.limits,h.owned⟩
  · show ((w::s.writers).map Writer.token).Nodup
    rw [map_cons,nodup_cons]
    refine ⟨fun hm => ?_,h.tokens⟩
    obtain ⟨v,hv,he⟩ := mem_map.mp hm
    exact hw v hv he
  · intro u hu v hv hu2 hv2
    rcases mem_cons.mp hu with rfl | hu
    · exact (hfree hu2).elim
    · rcases mem_cons.mp hv with rfl | hv
      · exact (hfree hv2).elim
      · exact h.writer u hu v hv hu2 hv2
  · intro r hr
    obtain ⟨v,hv,he⟩ := h.held r hr
    exact ⟨v,mem_cons_of_mem _ hv,he⟩

theorem LedgerKept.completeWrite (h : LedgerKept s) (token : JsString) :
    LedgerKept { s with writers := s.writers.map fun w =>
      if w.token=token then { w with completed := true } else w } := by
  obtain ⟨htok,hwri,hheld⟩ := h.of_writers
    (t := { s with writers := s.writers.map fun w =>
      if w.token=token then { w with completed := true } else w }) rfl rfl fun w => by
      split
      · exact ⟨rfl,rfl,fun h => by cases h⟩
      · exact ⟨rfl,rfl,fun _ => rfl⟩
  exact ⟨⟨fun run a e => ⟨(h.account run a e).dispatches,(h.account run a e).charged,
    (h.account run a e).reserved,(h.account run a e).within⟩,h.covered,h.identities,h.capture,
    htok,hwri,h.policies⟩,h.generations,hheld,h.limits,h.owned⟩

theorem ledgerKept_empty : LedgerKept .empty :=
  ⟨⟨fun run a h => (by cases h),fun _ _ => rfl,nodup_nil,fun r hr => (not_mem_nil hr).elim,
    nodup_nil,fun v hv => (not_mem_nil hv).elim,fun p hp => (not_mem_nil hp).elim⟩,
    fun p hp => (not_mem_nil hp).elim,fun r hr => (not_mem_nil hr).elim,
    fun p hp => (not_mem_nil hp).elim,fun p hp => (not_mem_nil hp).elim⟩

/-- What a command knows when it sends a batch that writes a policy; it stays true. -/
def Sound (s : Ledger) : LedgerCall → Prop
  | .openAccount _ _ baseline p => baseline ≤ p.budget.max_source_bytes
  | .extend _ generation p => p.generation=generation+1 ∧ ∃q∈s.policies,
    q.ingestion_run_id=p.ingestion_run_id ∧ q.generation=generation ∧ q.budget.Within p.budget
  | _ => True

theorem Sound.mono {s t : Ledger} {op : LedgerCall} (h : Sound s op)
    (hle : ∀p∈s.policies,p∈t.policies) : Sound t op := by
  cases op with
  | extend c generation p =>
    obtain ⟨h1,q,hq,h2⟩ := h
    exact ⟨h1,q,hle q hq,h2⟩
  | openAccount c legacy baseline p => exact h
  | _ => trivial

theorem commit_kept {α : Type} {b : Except Failure (α × Ledger)} (hs : LedgerKept s)
    (h : ∀a t,b=.ok (a,t) → LedgerKept t ∧ ∀p∈s.policies,p∈t.policies) :
    LedgerKept (commit s b).2 ∧ ∀p∈s.policies,p∈(commit s b).2.policies := by
  cases b with
  | error e => exact ⟨hs,fun p hp => hp⟩
  | ok r => exact h r.1 r.2 rfl

theorem refer_kept (hs : LedgerKept s) (hop : Sound s op) :
    LedgerKept (Ledger.refer op s).2 ∧ ∀p∈s.policies,p∈(Ledger.refer op s).2.policies := by
  cases op with
  | acquisitionPolicyByKey key => exact ⟨hs,fun p hp => hp⟩
  | acquisitionAccount run => exact ⟨hs,fun p hp => hp⟩
  | captureDispatch capture => exact ⟨hs,fun p hp => hp⟩
  | unsettledRawWriter run key => exact ⟨hs,fun p hp => hp⟩
  | openAccount c legacy baseline p =>
    refine commit_kept hs fun a t ht => ?_
    obtain ⟨h1,h2⟩ := hs.openAccount hop ht
    exact ⟨h1,fun q hq => by rw [h2]; exact mem_cons_of_mem _ hq⟩
  | extend c generation p =>
    refine commit_kept hs fun a t ht => ?_
    obtain ⟨hg,q,hq,hr,hqg,hw⟩ := hop
    obtain ⟨h1,h2⟩ := hs.extend hg hq hr hqg hw ht
    exact ⟨h1,fun q hq => by rw [h2]; exact mem_cons_of_mem _ hq⟩
  | reserve c input =>
    refine commit_kept hs fun a t ht => ?_
    obtain ⟨h1,h2⟩ := hs.reserve ht
    exact ⟨h1,fun q hq => by rw [h2]; exact hq⟩
  | settle c id capture bytes =>
    refine commit_kept hs fun a t ht => ?_
    obtain ⟨h1,h2⟩ := hs.settle ht
    exact ⟨h1,fun q hq => by rw [h2]; exact hq⟩
  | pause c row =>
    refine commit_kept hs fun a t ht => ?_
    obtain ⟨-,-,ht⟩ := bind_ok ht
    obtain ⟨-,-,ht⟩ := bind_ok ht
    obtain rfl := congrArg Prod.snd (Except.ok.inj ht)
    exact ⟨hs.congr rfl rfl rfl rfl,fun q hq => hq⟩
  | beginEvidenceObjectWrite token run key =>
    rw [Ledger.refer]
    split
    · exact ⟨hs,fun p hp => hp⟩
    · rename_i hno
      exact ⟨hs.beginWrite fun v hv he => hno ⟨v,hv,he⟩,fun p hp => hp⟩
  | completeEvidenceObjectWrite token => exact ⟨hs.completeWrite token,fun p hp => hp⟩
  | captures rows => exact ⟨hs.congr rfl rfl rfl rfl,fun p hp => hp⟩
  | states state => exact ⟨hs.congr rfl rfl rfl rfl,fun p hp => hp⟩

/-- Policies are never changed or removed, so what was read of them stays true. -/
def ledgerDiscipline : Discipline LedgerCall LedgerCall.Answer Empty Ledger where
  handle := Ledger.refer
  le s t := ∀p∈s.policies,p∈t.policies
  Inv := LedgerKept
  Said _ _ := True
  refl _ _ h := h
  trans _ _ _ h k p hp := k p (h p hp)
  stable _ _ _ _ _ h := h

/-- Every transaction the program may still send is sound, whatever runs in between. -/
abbrev Keeps {α : Type} (p : LedgerProg α) (s : Ledger) : Prop :=
  Safe ledgerDiscipline (fun _ _ _ => True) p [] s

theorem keeps_ret {α : Type} (a : α) (s : Ledger) : Keeps (.ret a) s := fun _ _ _ => trivial

theorem keeps_fail {α : Type} (e : Failure) (s : Ledger) : Keeps (α := α) (.fail e) s :=
  fun _ _ _ => trivial

theorem keeps_perform {α : Type} {f : op.Answer → LedgerProg α}
    (hop : Sound s op) (hf : ∀t,LedgerKept t → (∀p∈s.policies,p∈t.policies) →
      Keeps (f (Ledger.refer op t).1) (Ledger.refer op t).2) : Keeps (perform op >>= f) s := by
  intro t hle hinv
  obtain ⟨h1,h2⟩ := refer_kept hinv (hop.mono hle)
  exact ⟨h1,h2,hf t hinv hle⟩

theorem keeps_ofExcept {α β : Type} {x : Except Failure α} {f : α → LedgerProg β}
    (hf : ∀a,x=.ok a → Keeps (f a) s) : Keeps (ofExcept x >>= f) s := by
  cases x with
  | error e => exact keeps_fail e s
  | ok a => exact hf a rfl

theorem keeps_digestOf {β : Type} {nfc : Nfc} {v : Json} {f : JsString → LedgerProg β}
    (hf : ∀a,Keeps (f a) s) : Keeps (digestOf nfc v >>= f) s := by
  rw [digestOf]
  cases canonicalJson nfc v with
  | error e => exact keeps_fail _ s
  | ok t => exact hf _

theorem keeps_discard {α : Type} {p : LedgerProg α} (h : Keeps p s) :
    Keeps (p >>= fun _ => pure ()) s := by
  apply Safe.bind
  refine h.imp fun l r t _ _ => ?_
  cases r with
  | ok a => exact fun _ _ _ => trivial
  | error e => trivial

theorem keeps_start (nfc : Nfc) (c : Circumstances) (run key : JsString) (b : AcquisitionBudget)
    (s : Ledger) : Keeps (startAcquisition nfc c run key b) s := by
  apply keeps_ofExcept
  intro budget _
  apply keeps_digestOf
  intro digest
  apply keeps_perform (Nat.zero_le _)
  intro t _ _
  rw [ofExcept.eq_def]
  split
  · exact keeps_ret _ _
  · exact keeps_fail _ _

theorem keeps_retained {β : Type} {f : Option (Option (Option Extension)) → LedgerProg β}
    (hf : ∀r t,Keeps (f r) t) : Keeps (retainedAcquisitionResponse key digest >>= f) s := by
  rw [retainedAcquisitionResponse,Prog.bind_assoc]
  refine keeps_perform ?_ fun t _ _ => ?_
  · trivial
  · exact hf _ _

theorem keeps_settleRace (key digest : JsString) (response : Option Extension)
    (done : Except Failure Unit) (s : Ledger) : Keeps (settleRace key digest response done) s := by
  cases done with
  | ok u => exact keeps_ret _ s
  | error e =>
    apply keeps_retained
    intro r t
    split
    · exact keeps_ret _ _
    · exact keeps_fail _ _

theorem keeps_initializeLegacy (c : Circumstances) (verified : Except Failure Nat)
    (run key digest : JsString) (budget : AcquisitionBudget) (s : Ledger) :
    Keeps (initializeLegacy c verified run key digest budget) s := by
  apply keeps_ofExcept
  intro b _
  apply keeps_ofExcept
  intro baseline _
  split
  · exact keeps_fail _ _
  · rename_i hle
    refine keeps_perform ?_ fun t _ _ => ?_
    · exact Nat.le_of_not_lt hle
    · exact keeps_settleRace _ _ _ _ _

theorem keeps_extendPolicy (c : Circumstances)
    {budget : AcquisitionBudget} (hq : q∈s.policies) (hr : q.ingestion_run_id=run) :
    Keeps (extendPolicy c run key digest q.generation q.budget budget) s := by
  rw [extendPolicy]
  split
  · exact keeps_fail _ _
  · rename_i hno
    simp only [not_or,Nat.not_lt,Bool.not_eq_true] at hno
    apply keeps_ofExcept
    intro b _
    have hdeadline : q.budget.dispatch_deadline.rank ≤ budget.dispatch_deadline.rank := by
      rw [←Nat.not_lt,←textBefore_iff,hno.2.2.1]
      decide
    refine keeps_perform ?_ fun t _ _ => ?_
    · exact ⟨rfl,q,hq,hr,rfl,hno.1,hno.2.1,hdeadline⟩
    · exact keeps_settleRace _ _ _ _ _

theorem account_some (h : s.account run=some (a,p)) : p∈s.policies ∧ p.ingestion_run_id=run := by
  rw [Ledger.account] at h
  obtain ⟨b,-,h⟩ := Option.bind_eq_some_iff.mp h
  obtain ⟨q,hq,h⟩ := Option.bind_eq_some_iff.mp h
  obtain ⟨-,rfl⟩ := Prod.mk.inj (Option.some.inj h)
  obtain ⟨h1,h2,-⟩ := latest_some hq
  exact ⟨h1,h2⟩

theorem keeps_extendFrom (c : Circumstances) (verified : Except Failure Nat) (run digest : JsString)
    (input : ExtensionRequest) (previous : Option AcquisitionBudget) (budget : AcquisitionBudget)
    (s : Ledger) : Keeps (extendFrom c verified run digest input previous budget (s.account run)) s := by
  cases ha : s.account run with
  | none =>
    rw [extendFrom]
    split
    · exact keeps_initializeLegacy _ _ _ _ _ _ _
    · exact keeps_fail _ _
  | some r =>
    obtain ⟨a,q⟩ := r
    rw [extendFrom]
    split
    · exact keeps_fail _ _
    · obtain ⟨hq,hr⟩ := account_some ha
      exact keeps_extendPolicy c hq hr

theorem keeps_extend (nfc : Nfc) (c : Circumstances) (verified : Except Failure Nat) (run : JsString)
    (input : ExtensionRequest) (s : Ledger) :
    Keeps (extendAcquisitionBudget nfc c verified run input) s := by
  apply keeps_ofExcept
  intro budget _
  apply keeps_ofExcept
  intro previous _
  apply keeps_digestOf
  intro digest
  apply keeps_retained
  intro replay t
  rw [extendUnlessRetained.eq_def]
  split
  · exact keeps_fail _ _
  · exact keeps_ret _ _
  · refine keeps_perform ?_ fun t _ _ => ?_
    · trivial
    · exact keeps_extendFrom c verified run digest input previous budget t

theorem keeps_reserve (c : Circumstances) (input : DispatchInput) (s : Ledger) :
    Keeps (reserveAcquisitionDispatch c input) s := by
  refine keeps_perform ?_ fun t _ _ => ?_
  · trivial
  apply keeps_ofExcept
  intro changes _
  split
  · exact keeps_ret _ _
  · refine keeps_perform ?_ fun t _ _ => ?_
    · trivial
    refine keeps_perform ?_ fun t _ _ => ?_
    · trivial
    refine keeps_perform ?_ fun t _ _ => ?_
    · trivial
    rw [pauseAcquisition.eq_def]
    split
    · exact keeps_ret _ _
    · refine keeps_perform ?_ fun t _ _ => ?_
      · trivial
      · apply keeps_ofExcept
        intro u _
        exact keeps_ret _ _

theorem keeps_one (s : Ledger) (h : Sound s op) : Keeps (perform op >>= fun _ => pure ()) s :=
  keeps_perform h fun _ _ _ => keeps_ret _ _

theorem keeps_command (nfc : Nfc) (k : Command) (s : Ledger) : Keeps (k.prog nfc) s := by
  cases k with
  | start c run key budget => exact keeps_start nfc c run key budget s
  | extend c verified run input => exact keeps_discard (keeps_extend nfc c verified run input s)
  | reserve c input => exact keeps_discard (keeps_reserve c input s)
  | settle c id capture bytes =>
    refine keeps_perform ?_ fun t _ _ => ?_
    · trivial
    · rw [ofExcept.eq_def]
      split
      · exact keeps_ret _ _
      · exact keeps_fail _ _
  | replayReserve c input => exact keeps_one s trivial
  | beginWrite token run key => exact keeps_one s trivial
  | completeWrite token => exact keeps_one s trivial
  | captures rows => exact keeps_one s trivial
  | states state => exact keeps_one s trivial

/-- Commands start at any time, any number of them at once, and each may stop after any of its
transactions. -/
def Commands (nfc : Nfc) (_ : Ledger)
    (t : Thread LedgerCall LedgerCall.Answer Empty Failure Unit) : Prop :=
  ∃k : Command,t=⟨[],k.prog nfc⟩

/-- The ledger balances in every reachable state. -/
theorem acquisition_ledger_balanced (nfc : Nfc)
    {w : World LedgerCall LedgerCall.Answer Empty Failure Unit Ledger}
    (hw : World.Reachable Ledger.refer (Commands nfc) .empty w) : Balanced w.store := by
  have hkept : w.Kept ledgerDiscipline fun _ _ _ => True := by
    apply World.Reachable.kept (D := ledgerDiscipline) hw ledgerKept_empty
    rintro s t - ⟨k,rfl⟩
    exact ⟨trivial,keeps_command nfc k s⟩
  exact hkept.inv.toBalanced

def newYear : DateTime :=
  ⟨2099,1,1,0,0,0,0,by decide,one_lt_hundred,one_lt_hundred,zero_lt_hundred,zero_lt_hundred,
    zero_lt_hundred,zero_lt_thousand⟩

def calm : Circumstances := ⟨newYear,true,true,true,fun _ => true⟩
def smallBudget : AcquisitionBudget := ⟨2,10,{ newYear with year := 2100, year_lt := by decide }⟩
def smallDispatch : DispatchInput := ⟨js ['d'],js ['r'],js ['q'],js ['c'],js ['o'],none,none,5⟩

theorem digestOf_small : ∃d,digestOf acute smallBudget.json=.ret d := ⟨_,rfl⟩

theorem acquisition_ledger_balanced_reserved : ∃w : World LedgerCall LedgerCall.Answer Empty Failure
    Unit Ledger, World.Reachable Ledger.refer (Commands acute) .empty w ∧ w.store.accounts
    (js ['r'])=some ⟨0,1,0,5⟩ ∧ Balanced w.store := by
  obtain ⟨d,hd⟩ := digestOf_small
  have hstart : (Command.start calm (js ['r']) (js ['k']) smallBudget).prog acute=
      .call (.openAccount calm false 0 ⟨js ['r'],1,smallBudget,js ['k'],d,none⟩) ofExcept := by
    have hvalid : validateAcquisitionBudget calm.now smallBudget true=.ok smallBudget := by rfl
    rw [Command.prog,startAcquisition,hvalid,ofExcept,Prog.ret_bind,hd]
    rfl
  have h1 : World.Reachable Ledger.refer (Commands acute) .empty ⟨.empty,[⟨[],.call
      (.openAccount calm false 0 ⟨js ['r'],1,smallBudget,js ['k'],d,none⟩) ofExcept⟩]⟩ :=
    .single (.spawn ⟨_,by rw [hstart]⟩)
  have h2 := h1.tail (World.Step.call (l := []) (r := []))
  have h3 := h2.tail (World.Step.spawn ⟨.captures [⟨js ['c'],js ['r'],js ['q'],js ['o'],true⟩],rfl⟩)
  have h4 := h3.tail (World.Step.call (l := [_]) (r := []))
  have h5 := h4.tail (World.Step.spawn ⟨.reserve calm smallDispatch,rfl⟩)
  have h6 := h5.tail (World.Step.call (l := [_,_]) (r := []))
  exact ⟨_,h6,rfl,acquisition_ledger_balanced acute h6⟩
end CardKeepr.SourceEvidence
