import CardKeepr.Reconciliation.IdentityPins

namespace CardKeepr.Reconciliation.Identity

open Lib Shared List

variable (nfc : Nfc)
variable {e : ReducerEntry} {i j size work bytes : Nat}
  {next : AssociationLoop → List AssociationAct}

/-- The loops over the pinned rows laid out in a line. -/
inductive AssociationStep where
  | begins (size : Nat)
  | sets (size : Nat) (entry : ReducerEntry)
  | ends (sequence : Nat)

def CorrectionRow.inner (r : CorrectionRow) (association : Nat) : List AssociationStep :=
  ((r.associations nfc).drop association).map (.sets (r.size nfc))++[.ends r.sequence]

def CorrectionRow.steps (r : CorrectionRow) : List AssociationStep :=
  .begins (r.size nfc)::r.inner nfc 0

def stepsOf (rows : List CorrectionRow) : List AssociationStep := rows.flatMap (·.steps nfc)

/-- The loops over the steps that are left. -/
def walk : List AssociationStep → AssociationLoop → List AssociationAct
  | [],s => [s.saving true]
  | .begins size::us,s =>
    if s.due size then s.saving false::.beginObservation::walk us (s.saved.entered size)
    else .beginObservation::walk us (s.entered size)
  | .sets size entry::us,s =>
    if 8 ≤ s.work then
      s.saving false::.set entry::walk us { s.saved with bytes := size }.associated
    else .set entry::walk us s.associated
  | .ends sequence::us,s => walk us (s.decided sequence)

/-- The steps taken before the next checkpoint, by a loop that has counted so much. -/
def stretch : Nat → Nat → List AssociationStep → List AssociationStep
  | _,_,[] => []
  | work,bytes,.begins size::us =>
    if 0 < work ∧ (8 ≤ work ∨ 512000 < bytes+size) then []
    else .begins size::stretch (work+1) (bytes+size) us
  | work,bytes,.sets size entry::us =>
    if 8 ≤ work then [] else .sets size entry::stretch (work+1) bytes us
  | work,bytes,.ends sequence::us => .ends sequence::stretch work bytes us

/-- The size of the decision that a checkpoint falls inside of. -/
def openSize : List AssociationStep → Option Nat
  | .sets size _::_ => some size
  | _ => none

/-- The steps that may be left at a checkpoint. An attempt goes on with nothing counted but the
bytes of an open decision; one that is restarted inside a decision has entered it again. -/
inductive Falls (start : List AssociationStep) : List AssociationStep → Prop
  | first : Falls start start
  | goesOn {us rest : List AssociationStep} (h : Falls start us)
      (he : us=stretch 0 ((openSize us).getD 0) us++rest) : Falls start rest
  | restarts {us rest : List AssociationStep} {size : Nat} (h : Falls start us)
      (ho : openSize us=some size) (he : us=stretch 1 size us++rest) : Falls start rest

/-- The entries that steps set, each with the number of its decision. -/
def effects : Nat → List AssociationStep → List (Nat × ReducerEntry)
  | _,[] => []
  | i,.begins _::us => effects (i+1) us
  | i,.sets _ entry::us => (i,entry)::effects i us
  | i,.ends _::us => effects i us

def begun : Nat → List AssociationStep → Nat
  | i,[] => i
  | i,.begins _::us => begun (i+1) us
  | i,.sets _ _::us => begun i us
  | i,.ends _::us => begun i us

def SamePlace (e e' : ReducerEntry) : Prop :=
  e.space=e'.space ∧ sha256Text e.key=sha256Text e'.key

/-- No checkpoint falls inside a decision so that, before the next one, two successive decisions
give one place different targets. -/
def Undisturbed (rows : List CorrectionRow) : Prop :=
  ∀us size,Falls (stepsOf nfc rows) us → openSize us=some size → ∀i e e',
    (i,e)∈effects 0 (stretch 0 size us) → (i+1,e')∈effects 0 (stretch 0 size us) →
      SamePlace e e' → e.value=e'.value

variable {nfc}

attribute [local simp] stretch effects

theorem effects_append (i : Nat) (t v : List AssociationStep) :
    effects i (t++v)=effects i t++effects (begun i t) v := by
  induction t generalizing i with
  | nil => rfl
  | cons u t ih =>
    cases u with
    | begins size => exact ih (i+1)
    | sets size entry => exact congrArg ((i,entry)::·) (ih i)
    | ends sequence => exact ih i

theorem begun_append (i : Nat) (t v : List AssociationStep) :
    begun i (t++v)=begun (begun i t) v := by
  induction t generalizing i with
  | nil => rfl
  | cons u t ih =>
    cases u with
    | begins size => exact ih (i+1)
    | sets size entry => exact ih i
    | ends sequence => exact ih i

theorem begun_le (i : Nat) (us : List AssociationStep) : i ≤ begun i us := by
  induction us generalizing i with
  | nil => exact le_refl i
  | cons u us ih =>
    cases u with
    | begins size => exact le_trans (Nat.le_succ i) (ih (i+1))
    | sets size entry => exact ih i
    | ends sequence => exact ih i

variable {us rest : List AssociationStep}

theorem effects_bounds (h : (j,e)∈effects i us) : i ≤ j ∧ j ≤ begun i us := by
  induction us generalizing i with
  | nil => cases h
  | cons u us ih =>
    cases u with
    | begins size =>
      obtain ⟨h1,h2⟩ := ih h
      exact ⟨le_trans (Nat.le_succ i) h1,h2⟩
    | sets size entry =>
      rcases mem_cons.mp h with h | h
      · cases h
        exact ⟨le_refl _,begun_le _ us⟩
      · exact ih h
    | ends sequence => exact ih h

theorem effects_shift (i k : Nat) (us : List AssociationStep) :
    effects (i+k) us=(effects i us).map fun p => (p.1+k,p.2) := by
  induction us generalizing i with
  | nil => rfl
  | cons u us ih =>
    cases u with
    | begins size =>
      have h := ih (i+1)
      rw [Nat.add_right_comm] at h
      exact h
    | sets size entry => exact congrArg ((i+k,entry)::·) (ih i)
    | ends sequence => exact ih i

theorem mem_effects_shift : (j,e)∈effects i us ↔ ∃k,j=i+k ∧ (k,e)∈effects 0 us := by
  have h := effects_shift 0 i us
  rw [Nat.zero_add] at h
  rw [h,mem_map]
  constructor
  · rintro ⟨⟨k,e'⟩,hk,he⟩
    cases he
    exact ⟨k,Nat.add_comm k _,hk⟩
  · rintro ⟨k,rfl,hk⟩
    exact ⟨(k,e),hk,Prod.ext (Nat.add_comm k _) rfl⟩

theorem stretch_prefix (work bytes : Nat) (us : List AssociationStep) :
    ∃rest,us=stretch work bytes us++rest := by
  induction us generalizing work bytes with
  | nil => exact ⟨[],rfl⟩
  | cons u us ih =>
    cases u with
    | begins size =>
      rw [stretch]
      split
      · exact ⟨_,rfl⟩
      · obtain ⟨rest,hr⟩ := ih (work+1) (bytes+size)
        exact ⟨rest,by rw [cons_append,←hr]⟩
    | sets size entry =>
      rw [stretch]
      split
      · exact ⟨_,rfl⟩
      · obtain ⟨rest,hr⟩ := ih (work+1) bytes
        exact ⟨rest,by rw [cons_append,←hr]⟩
    | ends sequence =>
      obtain ⟨rest,hr⟩ := ih work bytes
      exact ⟨rest,by rw [stretch,cons_append,←hr]⟩

theorem effects_worked (h : 8 ≤ work) (i bytes : Nat) (us : List AssociationStep) :
    effects i (stretch work bytes us)=[] := by
  induction us with
  | nil => rfl
  | cons u us ih =>
    cases u with
    | begins size => rw [stretch,if_pos ⟨by omega,.inl h⟩,effects]
    | sets size entry => rw [stretch,if_pos h,effects]
    | ends sequence => rw [stretch,effects,ih]

theorem stretch_succ (hw : 0 < work) (hr : us=stretch (work+1) bytes us++rest)
    (h : (j,e)∈effects i (stretch work bytes us)) : (j,e)∈effects i (stretch (work+1) bytes us) ∨
    j=begun i (stretch (work+1) bytes us) ∧ (j,e)∈effects (begun i (stretch (work+1) bytes us))
    rest := by
  induction us generalizing work bytes i with
  | nil => cases h
  | cons u us ih =>
    cases u with
    | begins size =>
      rw [stretch] at h hr
      rw [stretch]
      by_cases h1 : 0 < work+1 ∧ (8 ≤ work+1 ∨ 512000 < bytes+size)
      · by_cases h2 : 0 < work ∧ (8 ≤ work ∨ 512000 < bytes+size)
        · rw [if_pos h2] at h
          cases h
        · rw [if_neg h2,effects,effects_worked (by omega)] at h
          cases h
      · have h2 : ¬(0 < work ∧ (8 ≤ work ∨ 512000 < bytes+size)) := by omega
        rw [if_neg h1,cons_append] at hr
        rw [if_neg h2,effects] at h
        rw [if_neg h1,effects,begun]
        exact ih (Nat.succ_pos work) (List.cons.inj hr).2 h
    | sets size entry =>
      rw [stretch] at h hr
      rw [stretch]
      by_cases h1 : 8 ≤ work+1
      · rw [if_pos h1,nil_append] at hr
        rw [if_pos h1,effects,begun,←hr,effects]
        refine .inr ?_
        by_cases h2 : 8 ≤ work
        · rw [if_pos h2] at h
          cases h
        · rw [if_neg h2,effects,effects_worked h1,mem_singleton] at h
          cases h
          exact ⟨rfl,mem_cons_self⟩
      · have h2 : ¬8 ≤ work := by omega
        rw [if_neg h1,cons_append] at hr
        rw [if_neg h2,effects] at h
        rw [if_neg h1,effects,begun]
        rcases mem_cons.mp h with h | h
        · exact .inl (mem_cons.mpr (.inl h))
        · rcases ih (Nat.succ_pos work) (List.cons.inj hr).2 h with h | h
          · exact .inl (mem_cons_of_mem _ h)
          · exact .inr h
    | ends sequence =>
      rw [stretch,cons_append] at hr
      exact ih hw (List.cons.inj hr).2 h

theorem stretch_fewer (hw : 0 < work) (h : (j,e)∈effects i (stretch (work+1) bytes us)) :
    (j,e)∈effects i (stretch work bytes us) := by
  induction us generalizing work bytes i with
  | nil => cases h
  | cons u us ih =>
    cases u with
    | begins size =>
      rw [stretch] at h ⊢
      split at h
      · cases h
      · rename_i h1
        rw [if_neg (by omega)]
        exact ih (Nat.succ_pos work) h
    | sets size entry =>
      rw [stretch] at h ⊢
      split at h
      · cases h
      · rename_i h1
        rw [if_neg (by omega)]
        rcases mem_cons.mp h with h | h
        · exact mem_cons.mpr (.inl h)
        · exact mem_cons_of_mem _ (ih (Nat.succ_pos work) h)
    | ends sequence => exact ih hw h

theorem restarted_effects (ho : openSize us=some size) (hr : us=stretch 1 size us++rest)
    (h : (j,e)∈effects i (stretch 0 size us)) : (j,e)∈effects i (stretch 1 size us) ∨ j=begun i
    (stretch 1 size us) ∧ (j,e)∈effects (begun i (stretch 1 size us)) rest := by
  cases us with
  | nil => cases ho
  | cons u us =>
    cases u with
    | begins size' => cases ho
    | ends sequence => cases ho
    | sets size' entry =>
      have hw : ¬8 ≤ 0 := by omega
      have hw1 : ¬8 ≤ 1 := by omega
      rw [stretch,if_neg hw1,cons_append] at hr
      rw [stretch,if_neg hw,effects] at h
      rw [stretch,if_neg hw1,effects,begun]
      rcases mem_cons.mp h with h | h
      · exact .inl (mem_cons.mpr (.inl h))
      · rcases stretch_succ Nat.one_pos (List.cons.inj hr).2 h with h | h
        · exact .inl (mem_cons_of_mem _ h)
        · exact .inr h

theorem restarted_fewer (ho : openSize us=some size) (h : (j,e)∈effects i (stretch 1 size us)) :
    (j,e)∈effects i (stretch 0 size us) := by
  cases us with
  | nil => cases ho
  | cons u us =>
    cases u with
    | begins size' => cases ho
    | ends sequence => cases ho
    | sets size' entry =>
      have hw : ¬8 ≤ 0 := by omega
      have hw1 : ¬8 ≤ 1 := by omega
      rw [stretch,if_neg hw1,effects] at h
      rw [stretch,if_neg hw,effects]
      rcases mem_cons.mp h with h | h
      · exact mem_cons.mpr (.inl h)
      · exact mem_cons_of_mem _ (stretch_fewer Nat.one_pos h)

theorem associate_walk (size : Nat) (hn : ∀s,next s=walk us s) (entries : List ReducerEntry)
    (s : AssociationLoop) :
    associate size next entries s=walk (entries.map (.sets size)++us) s := by
  induction entries generalizing s with
  | nil => exact hn s
  | cons entry entries ih =>
    rw [associate,map_cons,cons_append,walk]
    split
    · rw [ih]
    · rw [ih]

theorem decisionBound_ok {d : IdentityCorrectionProposal} (h : decisionBound nfc d=.ok ()) :
    (utf8 (d.json.canonical nfc).print).length ≤ 512000 ∧
      ¬(d.entity_kind=.card ∧
        500 < d.source_ids.length+d.source_ids.length*d.printing_assignments.length) := by
  rw [decisionBound] at h
  obtain ⟨u,h1,h2⟩ := bind_ok h
  have hs := of_decide_eq_true (demand_ok h1)
  have hc := demand_ok h2
  simp only [Bool.or_eq_true,decide_eq_true_eq] at hc
  refine ⟨hs,?_⟩
  rintro ⟨hk,hn⟩
  rcases hc with hc | hc
  · exact hc hk
  · omega

theorem enter_walk {r : CorrectionRow} (hn : ∀s,s.association=0 → next s=walk us s)
    (hb : decisionBound nfc r.request=.ok ()) (s : AssociationLoop) : enter nfc r next
    s=.beginObservation:: walk (r.inner nfc s.association++us) (s.entered (r.size nfc)) := by
  obtain ⟨-,hc⟩ := decisionBound_ok hb
  have hw : ∀s,next (s.decided r.sequence)=walk (.ends r.sequence::us) s := fun s => hn _ rfl
  rw [enter,if_neg hc,associate_walk (r.size nfc) hw,CorrectionRow.inner,append_assoc]
  rfl

/-- The steps of the loop that is entered with the first row at one of its associations. -/
def stepsFrom (nfc : Nfc) : List CorrectionRow → Nat → List AssociationStep
  | [],_ => []
  | r::rows,association => .begins (r.size nfc)::(r.inner nfc association++stepsOf nfc rows)

theorem stepsFrom_zero (rows : List CorrectionRow) : stepsFrom nfc rows 0=stepsOf nfc rows := by
  cases rows with
  | nil => rfl
  | cons r rows => rfl

theorem decideRows_walk {rows : List CorrectionRow}
    (hb : ∀r∈rows,decisionBound nfc r.request=.ok ()) (s : AssociationLoop) :
    decideRows nfc rows s=walk (stepsFrom nfc rows s.association) s := by
  induction rows generalizing s with
  | nil => rfl
  | cons r rows ih =>
    have hr := hb r mem_cons_self
    have hs : ¬512000 < r.size nfc := Nat.not_lt.mpr (decisionBound_ok hr).1
    have hn : ∀s : AssociationLoop,s.association=0 →
        decideRows nfc rows s=walk (stepsOf nfc rows) s := by
      intro s h0
      rw [ih (fun r hr => hb r (mem_cons_of_mem _ hr)) s,h0,stepsFrom_zero]
    rw [decideRows,if_neg hs,stepsFrom,walk]
    split
    · rw [enter_walk hn hr]
      rfl
    · rw [enter_walk hn hr]

end CardKeepr.Reconciliation.Identity
