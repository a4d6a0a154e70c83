import CardKeepr.Curated.Lifecycle
import Mathlib.Data.List.Nodup

namespace CardKeepr.Curated

open Shared List

namespace Store

variable {p : JsString}

-- Which preparation may still stage conflicts, and which has made its conflicts visible. One
-- candidate slot for each game keeps the first kind apart: two preparations under way share no
-- game.

def changed (s : Store) (p : JsString) : Prop :=
  ∃operation,s.operation? p=some operation ∧ s.sourceChanged operation=true

/-- The preparation may still stage conflicts and end by a source change. -/
def underWay (s : Store) (p : JsString) : Prop :=
  ∃operation,s.operation? p=some operation ∧
    (operation.state=.preparing ∨ operation.state=.paused) ∧
    (operation.supported_game=none →
      ∃run,s.run? operation.ingestion_run_id=some run ∧ run.outcome=none)

structure Reserved (s : Store) : Prop where
  ids : (s.operations.map (·.id)).Nodup
  distinct : ∀row∈s.runs,row.selected_games.Nodup
  runs : ∀op∈s.operations,∃run,s.run? op.ingestion_run_id=some run
  whole : ∀op∈s.operations,op.supported_game=none → op.id=op.ingestion_run_id
  slots : (s.slots.map (·.supported_game)).Nodup
  held : ∀p op,s.operation? p=some op → s.underWay p → ∀g∈s.games op,⟨g,p⟩∈s.slots
  ended : ∀p op,s.operation? p=some op → op.supported_game=none → s.changed p → op.state=.failed
  verdict : ∀r row,s.run? r=some row → row.outcome=some (.failed reconfirmation) →
    ∃op,s.operation? r=some op

/-- What a step of the preparations leaves as it is, and what it can make of them. -/
structure Turned (s t : Store) : Prop where
  revisions : t.revisions=s.revisions
  events : t.events=s.events
  conflicts : t.conflicts=s.conflicts
  acknowledged : t.acknowledged=s.acknowledged
  under : ∀p,t.underWay p → s.underWay p ∨ s.operation? p=none
  changed : ∀p,t.changed p → s.changed p ∨ s.underWay p
  games : ∀p op,s.operation? p=some op → ∃op',t.operation? p=some op' ∧ t.games op'=s.games op

theorem Turned.refl (s : Store) : Turned s s :=
  ⟨rfl,rfl,rfl,rfl,fun _ h => Or.inl h,fun _ h => Or.inl h,fun _ op h => ⟨op,h,rfl⟩⟩

theorem find?_map_key {α κ : Type} [DecidableEq κ] (key : α → κ) {f : α → α}
    (hf : ∀a,key (f a)=key a) (l : List α) (k : κ) :
    (l.map f).find? (fun a => key a=k)=(l.find? fun a => key a=k).map f := by
  rw [List.find?_map]
  have hp : ((fun a => decide (key a=k))∘f)=fun a => decide (key a=k) := by
    funext a
    simp [hf]
  rw [hp]

theorem operation?_iff {s : Store} (h : (s.operations.map (·.id)).Nodup)
    {op : Operation} : s.operation? p=some op ↔ op∈s.operations ∧ op.id=p := by
  rw [operation?]
  induction hs : s.operations generalizing s with
  | nil => simp
  | cons o os ih =>
    rw [hs,map_cons,nodup_cons] at h
    have hos := ih (s := { s with operations := os }) h.2 rfl
    by_cases ho : o.id=p
    · rw [List.find?_cons_of_pos (by simpa using ho)]
      constructor
      · intro heq
        cases heq
        exact ⟨mem_cons_self,ho⟩
      · rintro ⟨hmem,hid⟩
        rcases mem_cons.mp hmem with rfl | hmem
        · rfl
        · exact absurd (mem_map_of_mem (f := fun o : Operation => o.id) hmem)
            (by rw [hid,← ho]; exact h.1)
    · rw [List.find?_cons_of_neg (by simpa using ho),hos]
      constructor
      · exact fun hm => ⟨mem_cons_of_mem _ hm.1,hm.2⟩
      · rintro ⟨hmem,hid⟩
        rcases mem_cons.mp hmem with rfl | hmem
        · exact absurd hid ho
        · exact ⟨hmem,hid⟩

theorem mem_of_operation? {s : Store} {op : Operation}
    (h : s.operation? p=some op) : op∈s.operations ∧ op.id=p :=
  ⟨List.mem_of_find?_eq_some h,by simpa using List.find?_some h⟩

theorem operation?_none {s : Store} (h : s.operations.any (·.id=p)=false) :
    s.operation? p=none := by
  rw [operation?,List.find?_eq_none]
  intro op hmem hp
  have := any_eq_false.mp h op hmem
  exact this hp

theorem not_changed_of_underWay {s : Store} (hu : s.underWay p) : ¬s.changed p := by
  rintro ⟨op,hop,hc⟩
  obtain ⟨op',hop',hstate,hrun⟩ := hu
  rw [hop] at hop'
  cases hop'
  rw [sourceChanged] at hc
  cases hr : s.run? op.ingestion_run_id with
  | none => rw [hr] at hc; cases hc
  | some run =>
    rw [hr] at hc
    cases hg : op.supported_game with
    | none =>
      obtain ⟨run',hrun',hout⟩ := hrun hg
      rw [hr] at hrun'
      cases hrun'
      rw [hg] at hc
      simp [hout] at hc
    | some g =>
      rw [hg] at hc
      have hf : op.state=.failed := by simpa using (Bool.and_eq_true_iff.mp hc).1
      rcases hstate with h | h <;> rw [hf] at h <;> cases h

theorem Reserved.exclusive {s : Store} (h : Reserved s) {q g : JsString} {op oq : Operation}
    (hp : s.operation? p=some op) (hq : s.operation? q=some oq) (hpu : s.underWay p)
    (hqu : s.underWay q) (hgp : g∈s.games op) (hgq : g∈s.games oq) : p=q := by
  have hsp := h.held p op hp hpu g hgp
  have hsq := h.held q oq hq hqu g hgq
  have := inj_on_of_nodup_map h.slots hsp hsq rfl
  exact congrArg Slot.preparation_id this

/-- What an update of an operation's state may do. -/
structure Update (f : Operation → Operation) : Prop where
  id : ∀o,(f o).id=o.id
  run : ∀o,(f o).ingestion_run_id=o.ingestion_run_id
  game : ∀o,(f o).supported_game=o.supported_game
  under : ∀o,(f o).state=.preparing ∨ (f o).state=.paused → o.state=.preparing ∨ o.state=.paused
  failed : ∀o,o.state=.failed → (f o).state=.failed
  verdict : ∀o,(f o).state=.failed → (f o).failure_code=some reconfirmation →
    o.state=.failed ∧ o.failure_code=some reconfirmation ∨ o.state=.preparing

theorem Update.at {f : Operation → Operation} (h : Update f) (p : JsString) :
    Update fun o => if o.id=p then f o else o := by
  constructor
  · intro o; by_cases hp : o.id=p <;> simp [hp,h.id]
  · intro o; by_cases hp : o.id=p <;> simp [hp,h.run]
  · intro o; by_cases hp : o.id=p <;> simp [hp,h.game]
  · intro o
    by_cases hp : o.id=p
    · simpa [hp] using h.under o
    · simp [hp]
  · intro o
    by_cases hp : o.id=p
    · simpa [hp] using h.failed o
    · simp [hp]
  · intro o
    by_cases hp : o.id=p
    · simpa [hp] using h.verdict o
    · simp only [hp,if_false]
      exact fun hs hc => Or.inl ⟨hs,hc⟩

section

variable {s : Store} {f : Operation → Operation}
variable {t : Store} {op : Operation} {p id : JsString} {generation : Nat}

def updated (s : Store) (f : Operation → Operation) : Store :=
  { s with operations := s.operations.map f }

theorem updated_operation? (hf : Update f) (p : JsString) :
    (s.updated f).operation? p=(s.operation? p).map f :=
  find?_map_key Operation.id hf.id s.operations p

theorem updated_games (hf : Update f) (op : Operation) : (s.updated f).games (f op)=s.games op := by
  rw [games,games,hf.game,hf.run]
  rfl

theorem updated_underWay (hf : Update f) (h : (s.updated f).underWay p) : s.underWay p := by
  obtain ⟨op',hop',hstate,hrun⟩ := h
  rw [updated_operation? hf,Option.map_eq_some_iff] at hop'
  obtain ⟨op,hop,rfl⟩ := hop'
  refine ⟨op,hop,hf.under op hstate,?_⟩
  intro hg
  rw [hf.game,hf.run] at hrun
  exact hrun hg

theorem updated_run? (r : JsString) : (s.updated f).run? r=s.run? r := rfl

theorem updated_changed (hf : Update f) (h : (s.updated f).changed p) :
    s.changed p ∨ s.underWay p := by
  obtain ⟨op',hop',hc⟩ := h
  rw [updated_operation? hf,Option.map_eq_some_iff] at hop'
  obtain ⟨op,hop,rfl⟩ := hop'
  rw [sourceChanged,hf.run,hf.game] at hc
  rw [updated_run?] at hc
  cases hr : s.run? op.ingestion_run_id with
  | none => rw [hr] at hc; cases hc
  | some run =>
    rw [hr] at hc
    cases hg : op.supported_game with
    | none =>
      rw [hg] at hc
      refine Or.inl ⟨op,hop,?_⟩
      rw [sourceChanged,hr,hg]
      exact hc
    | some g =>
      rw [hg] at hc
      obtain ⟨hs,hcode⟩ := Bool.and_eq_true_iff.mp hc
      rcases hf.verdict op (by simpa using hs) (by simpa using hcode) with ⟨hs,hcode⟩ | hs
      · refine Or.inl ⟨op,hop,?_⟩
        rw [sourceChanged,hr,hg]
        simp [hs,hcode]
      · refine Or.inr ⟨op,hop,Or.inl hs,?_⟩
        intro hn
        rw [hg] at hn
        cases hn

theorem updated_turned (hf : Update f) : Turned s (s.updated f) := by
  refine ⟨rfl,rfl,rfl,rfl,?_,?_,?_⟩
  · exact fun p h => Or.inl (updated_underWay hf h)
  · exact fun p h => updated_changed hf h
  · intro p op hop
    refine ⟨f op,?_,updated_games hf op⟩
    rw [updated_operation? hf,hop]
    rfl

theorem updated_reserved (hf : Update f) (h : Reserved s) : Reserved (s.updated f) := by
  constructor
  · have : (s.updated f).operations.map (·.id)=s.operations.map (·.id) := by
      simp only [updated,map_map]
      apply map_congr_left
      intro o _
      exact hf.id o
    rw [this]
    exact h.ids
  · exact h.distinct
  · intro op hop
    obtain ⟨o,ho,rfl⟩ := mem_map.mp hop
    rw [hf.run]
    exact h.runs o ho
  · intro op hop hg
    obtain ⟨o,ho,rfl⟩ := mem_map.mp hop
    rw [hf.id,hf.run]
    rw [hf.game] at hg
    exact h.whole o ho hg
  · exact h.slots
  · intro p op hop hu g hg
    rw [updated_operation? hf,Option.map_eq_some_iff] at hop
    obtain ⟨o,ho,rfl⟩ := hop
    rw [updated_games hf] at hg
    exact h.held p o ho (updated_underWay hf hu) g hg
  · intro p op hop hg hc
    rw [updated_operation? hf,Option.map_eq_some_iff] at hop
    obtain ⟨o,ho,rfl⟩ := hop
    rw [hf.game] at hg
    apply hf.failed
    apply h.ended p o ho hg
    -- of a whole run only the run's outcome counts
    obtain ⟨op',hop',hc⟩ := hc
    rw [updated_operation? hf,ho] at hop'
    cases hop'
    rw [sourceChanged,hf.run,hf.game] at hc
    refine ⟨o,ho,?_⟩
    rw [sourceChanged]
    rw [updated_run?] at hc
    cases hr : s.run? o.ingestion_run_id with
    | none => rw [hr] at hc; cases hc
    | some run =>
      rw [hr,hg] at hc
      rw [hg]
      exact hc
  · intro r row hrow hout
    obtain ⟨op,hop⟩ := h.verdict r row hrow hout
    exact ⟨f op,by rw [updated_operation? hf,hop]; rfl⟩

theorem released_reserved (h : Reserved s) (hp : ¬s.underWay p) :
    Reserved { s with slots := s.slots.filter fun slot => slot.preparation_id≠p } := by
  refine ⟨h.ids,h.distinct,h.runs,h.whole,?_,?_,h.ended,h.verdict⟩
  · exact h.slots.sublist (filter_sublist.map _)
  · intro q op hop hu g hg
    refine mem_filter.mpr ⟨h.held q op hop hu g hg,?_⟩
    have hne : q≠p := fun heq => hp (heq ▸ hu)
    simpa using hne

theorem Turned.trans {r : Store} (h : Turned s t) (h' : Turned t r)
    (hkept : ∀p,s.operation? p=none → t.operation? p=none) : Turned s r := by
  refine ⟨h'.revisions.trans h.revisions,h'.events.trans h.events,h'.conflicts.trans h.conflicts,
    h'.acknowledged.trans h.acknowledged,?_,?_,?_⟩
  · intro p hp
    rcases h'.under p hp with hp | hp
    · exact h.under p hp
    · cases ho : s.operation? p with
      | none => exact Or.inr rfl
      | some op =>
        obtain ⟨op',hop',_⟩ := h.games p op ho
        rw [hp] at hop'
        cases hop'
  · intro p hp
    rcases h'.changed p hp with hp | hp
    · exact h.changed p hp
    · rcases h.under p hp with hu | hn
      · exact Or.inr hu
      · obtain ⟨op,hop,_⟩ := hp
        rw [hkept p hn] at hop
        cases hop
  · intro p op hop
    obtain ⟨op',hop',hg⟩ := h.games p op hop
    obtain ⟨op'',hop'',hg'⟩ := h'.games p op' hop'
    exact ⟨op'',hop'',hg'.trans hg⟩

def Turn (s t : Store) : Prop := Turned s t ∧ Reserved t

theorem update_turn (h : Reserved s) (hf : Update f) (p : JsString) : Turn s (s.setOperation p f) :=
  ⟨updated_turned (hf.at p),updated_reserved (hf.at p) h⟩

theorem Update.where {c : Operation → Bool} {g : Operation → Operation}
    (hsame : ∀o,(g o).id=o.id ∧ (g o).ingestion_run_id=o.ingestion_run_id ∧
      (g o).supported_game=o.supported_game)
    (hfrom : ∀o,c o=true → o.state≠.failed)
    (hunder : ∀o,c o=true → (g o).state=.preparing ∨ (g o).state=.paused →
      o.state=.preparing ∨ o.state=.paused)
    (hfailed : ∀o,c o=true → (g o).state=.failed → o.state=.preparing) :
    Update fun o => if c o then g o else o := by
  constructor
  · intro o; by_cases hc : c o=true <;> simp [hc,hsame]
  · intro o; by_cases hc : c o=true <;> simp [hc,hsame]
  · intro o; by_cases hc : c o=true <;> simp [hc,hsame]
  · intro o
    by_cases hc : c o=true
    · simpa [hc] using hunder o hc
    · simp [hc]
  · intro o ho
    by_cases hc : c o=true
    · exact absurd ho (hfrom o hc)
    · simpa [hc] using ho
  · intro o
    by_cases hc : c o=true
    · simp only [hc,if_true]
      exact fun hs _ => Or.inr (hfailed o hc hs)
    · simp only [hc]
      exact fun hs hcode => Or.inl ⟨hs,hcode⟩

theorem pause_update (generation : Nat) (detail : Option String) : Update fun operation =>
    if operation.state=.preparing && operation.generation=generation then
      { operation with
        state := .paused, generation := operation.generation+1
        failure_code := if detail.isSome then detail else operation.failure_code }
    else operation := by
  apply Update.where
  · exact fun o => ⟨rfl,rfl,rfl⟩
  · intro o hc hs
    simp [hs] at hc
  · intro o hc _
    simp only [Bool.and_eq_true,decide_eq_true_eq] at hc
    exact Or.inl hc.1
  · intro o hc hs
    cases hs

theorem resume_update (generation : Nat) : Update fun operation =>
    if operation.state=.paused && operation.generation=generation then
      { operation with state := .preparing }
    else operation := by
  apply Update.where
  · exact fun o => ⟨rfl,rfl,rfl⟩
  · intro o hc hs
    simp [hs] at hc
  · intro o hc _
    simp only [Bool.and_eq_true,decide_eq_true_eq] at hc
    exact Or.inr hc.1
  · intro o hc hs
    cases hs

theorem sealOperation_update : Update fun operation =>
    if operation.state=.preparing then { operation with state := .sealed } else operation := by
  have := Update.where (c := fun o => o.state=.preparing)
    (g := fun o => { o with state := .sealed }) (fun o => ⟨rfl,rfl,rfl⟩)
    (by intro o hc hs; simp [hs] at hc) (by rintro o hc (hs | hs) <;> cases hs)
    (by intro o hc hs; cases hs)
  simpa using this

theorem fail_update (code : String) : Update fun operation =>
    if operation.supported_game.isSome && operation.state=.preparing then
      { operation with state := .failed, failure_code := some code }
    else operation := by
  apply Update.where
  · exact fun o => ⟨rfl,rfl,rfl⟩
  · intro o hc hs
    simp [hs] at hc
  · rintro o hc (hs | hs) <;> cases hs
  · intro o hc _
    simp only [Bool.and_eq_true,decide_eq_true_eq] at hc
    exact hc.2

theorem abandon_update (generation : Nat) : Update fun operation =>
    if abandonable operation generation then
      { operation with state := .abandoned, generation := operation.generation+1 }
    else operation := by
  apply Update.where
  · exact fun o => ⟨rfl,rfl,rfl⟩
  · intro o hc hs
    simp [abandonable,hs] at hc
  · rintro o hc (hs | hs) <;> cases hs
  · intro o hc hs
    cases hs

theorem pause_turn (h : Reserved s) (id : JsString) (generation : Nat) (detail : Option String) :
    Turn s (s.pause id generation detail) := update_turn h (pause_update generation detail) id

theorem resume_turn (h : Reserved s) (id : JsString) (generation : Nat) :
    Turn s (s.resume id generation) := update_turn h (resume_update generation) id

theorem sealOperation_turn (h : Reserved s) (id : JsString) : Turn s (s.sealOperation id) :=
  update_turn h sealOperation_update id

theorem Turn.release (h : Turn s t) (hp : ¬t.underWay p) :
    Turn s { t with slots := t.slots.filter fun slot => slot.preparation_id≠p } := by
  obtain ⟨ht,hr⟩ := h
  exact ⟨⟨ht.revisions,ht.events,ht.conflicts,ht.acknowledged,ht.under,ht.changed,ht.games⟩,
    released_reserved hr hp⟩

theorem publish_turn (h : Reserved s) (id : JsString) : Turn s (s.publish id) := by
  rw [publish]
  split
  · rename_i hop
    refine Turn.release ⟨.refl s,h⟩ ?_
    rintro ⟨op,hop',hs,_⟩
    rw [hop] at hop'
    cases hop'
    rcases hs with hs | hs <;> cases hs
  · exact ⟨.refl s,h⟩

theorem writerGuard_preparing (h : s.writerGuard id generation=true) :
    ∃op,s.operation? id=some op ∧ op.state=.preparing := by
  rw [writerGuard] at h
  cases ho : s.operation? id with
  | none => rw [ho] at h; cases h
  | some op =>
    rw [ho] at h
    simp only [Bool.and_eq_true,decide_eq_true_eq] at h
    exact ⟨op,rfl,h.1.2⟩

theorem setOperation_operation? (hf : Update f)
    (h : s.operation? p=some op) : (s.setOperation p f).operation? p=some (f op) := by
  have := updated_operation? (s := s) (hf.at p) p
  rw [h] at this
  rw [setOperation]
  exact this.trans (by simp [(mem_of_operation? h).2])

theorem failPreparation_turn (h : Reserved s) {code : String} (ht : s.failPreparation id generation code=some t) : Turn s t := by
  rw [failPreparation] at ht
  split at ht
  · cases ht
  · rename_i hguard
    simp only [Bool.not_eq_true',Bool.not_eq_false] at hguard
    obtain ⟨op,hop,hprep⟩ := writerGuard_preparing hguard
    split at ht
    · rename_i hop'
      cases ht
      rw [hop'] at hop
      cases hop
      refine (update_turn h (fail_update code) id).release ?_
      rintro ⟨op',hop,hs,_⟩
      rw [setOperation_operation? (fail_update code) hop'] at hop
      cases hop
      dsimp only at hprep
      simp [hprep] at hs
    · cases ht
      exact ⟨.refl s,h⟩

theorem afterRun_same (run : JsString) (outcome : RunOutcome) (op : Operation) :
    (afterRun run outcome op).id=op.id ∧
    (afterRun run outcome op).ingestion_run_id=op.ingestion_run_id ∧
    (afterRun run outcome op).supported_game=op.supported_game := by
  cases outcome with
  | failed code => rw [afterRun]; split <;> exact ⟨rfl,rfl,rfl⟩
  | _ => exact ⟨rfl,rfl,rfl⟩

theorem afterRun_native (run : JsString) (outcome : RunOutcome)
    (h : op.supported_game≠none) : afterRun run outcome op=op := by
  cases outcome with
  | failed code =>
    cases hg : op.supported_game with
    | none => exact absurd hg h
    | some g => simp [afterRun,hg]
  | _ => rfl

theorem afterRun_state (run : JsString) (outcome : RunOutcome) (op : Operation)
    (h : (afterRun run outcome op).state≠.failed) : afterRun run outcome op=op := by
  cases outcome with
  | failed code =>
    rw [afterRun] at h ⊢
    split at h
    · exact absurd rfl h
    · rename_i hc
      rw [if_neg hc]
  | _ => rfl

theorem afterRun_failed (run : JsString) (outcome : RunOutcome)
    (h : op.state=.failed) : afterRun run outcome op=op := by
  cases outcome with
  | failed code => simp [afterRun,h]
  | _ => rfl

theorem endRun_eq (run : JsString) (outcome : RunOutcome) (s : Store) : s.endRun run outcome=s ∨
    s.endRun run outcome=s.ending run outcome ∧ ∃row,s.run? run=some row ∧ row.outcome=none := by
  rw [endRun]
  split
  · rename_i hr
    exact Or.inr ⟨rfl,_,hr,rfl⟩
  · exact Or.inl rfl

section

variable {run : JsString} {outcome : RunOutcome}

theorem ending_operation? (p : JsString) :
    (s.ending run outcome).operation? p=(s.operation? p).map (afterRun run outcome) :=
  find?_map_key Operation.id (fun o => (afterRun_same run outcome o).1) s.operations p

theorem ending_run? (r : JsString) : (s.ending run outcome).run? r=(s.run? r).map fun row =>
    if row.id=run then { row with outcome := some outcome } else row := by
  apply find?_map_key Run.id
  intro row
  split <;> rfl

theorem run?_id {r : JsString} {row : Run} (h : s.run? r=some row) : row.id=r := by
  simpa using List.find?_some h

theorem ending_games (op : Operation) :
    (s.ending run outcome).games (afterRun run outcome op)=s.games op := by
  obtain ⟨_,hr,hg⟩ := afterRun_same run outcome op
  rw [games,games,hg,hr,ending_run?]
  cases op.supported_game with
  | some g => rfl
  | none =>
    cases s.run? op.ingestion_run_id with
    | none => rfl
    | some row =>
      dsimp only [Option.map_some]
      split <;> rfl

theorem ending_underWay {p : JsString} (h : (s.ending run outcome).underWay p) : s.underWay p ∧
    ∀op,s.operation? p=some op → op.supported_game=none → op.ingestion_run_id≠run := by
  obtain ⟨op',hop',hstate,hrun⟩ := h
  rw [ending_operation?,Option.map_eq_some_iff] at hop'
  obtain ⟨op,hop,rfl⟩ := hop'
  have hne : (afterRun run outcome op).state≠.failed := by
    rcases hstate with hs | hs <;> rw [hs] <;> exact fun h => nomatch h
  rw [afterRun_state run outcome op hne] at hstate hrun
  have hlive : op.supported_game=none → ∃row,s.run? op.ingestion_run_id=some row ∧
      row.id≠run ∧ row.outcome=none := by
    intro hg
    obtain ⟨row',hrow',hout⟩ := hrun hg
    rw [ending_run?,Option.map_eq_some_iff] at hrow'
    obtain ⟨row,hrow,rfl⟩ := hrow'
    by_cases hid : row.id=run
    · rw [if_pos hid] at hout
      cases hout
    · rw [if_neg hid] at hout
      exact ⟨row,hrow,hid,hout⟩
  constructor
  · refine ⟨op,hop,hstate,?_⟩
    intro hg
    obtain ⟨row,hrow,_,hout⟩ := hlive hg
    exact ⟨row,hrow,hout⟩
  · intro op'' hop'' hg
    rw [hop] at hop''
    cases hop''
    obtain ⟨row,hrow,hid,_⟩ := hlive hg
    rw [← run?_id hrow]
    exact hid

theorem ending_changed (h : Reserved s) {row : Run} (hrow : s.run? run=some row)
    (hlive : row.outcome=none)
    (hout : outcome=.failed reconfirmation → ∃op,s.operation? run=some op ∧ op.state=.preparing)
    {p : JsString} (hc : (s.ending run outcome).changed p) : s.changed p ∨
    s.underWay p ∧ ∃op,s.operation? p=some op ∧ (afterRun run outcome op).state=.failed := by
  obtain ⟨op',hop',hc⟩ := hc
  rw [ending_operation?,Option.map_eq_some_iff] at hop'
  obtain ⟨op,hop,rfl⟩ := hop'
  obtain ⟨_,hr,hg⟩ := afterRun_same run outcome op
  rw [sourceChanged,hr,hg,ending_run?] at hc
  cases hrun : s.run? op.ingestion_run_id with
  | none => rw [hrun] at hc; cases hc
  | some row' =>
    rw [hrun] at hc
    cases hgame : op.supported_game with
    | some g =>
      rw [hgame] at hc
      refine Or.inl ⟨op,hop,?_⟩
      rw [sourceChanged,hrun,hgame]
      rw [afterRun_native run outcome (by rw [hgame]; exact fun h => nomatch h)] at hc
      exact hc
    | none =>
      rw [hgame] at hc
      dsimp only [Option.map_some] at hc
      by_cases hid : row'.id=run
      · -- the run that ends here
        rw [if_pos hid] at hc
        have hfail : outcome=.failed reconfirmation := by simpa using hc
        obtain ⟨op₁,hop₁,hprep⟩ := hout hfail
        have hmem := mem_of_operation? hop
        have hp : p=run := by
          rw [← hmem.2,h.whole op hmem.1 hgame,← run?_id hrun,hid]
        rw [hp,hop₁] at hop
        cases hop
        refine Or.inr ⟨⟨op,by rw [hp,hop₁],Or.inl hprep,?_⟩,op,by rw [hp,hop₁],?_⟩
        · intro _
          rw [run?_id hrun] at hid
          exact ⟨row,by rw [hid,hrow],hlive⟩
        · rw [run?_id hrun] at hid
          rw [hfail]
          simp [afterRun,hgame,hprep,hid]
      · rw [if_neg hid] at hc
        refine Or.inl ⟨op,hop,?_⟩
        rw [sourceChanged,hrun,hgame]
        exact hc

theorem ending_turn (h : Reserved s) {row : Run} (hrow : s.run? run=some row)
    (hlive : row.outcome=none)
    (hout : outcome=.failed reconfirmation → ∃op,s.operation? run=some op ∧ op.state=.preparing) :
    Turn s (s.ending run outcome) := by
  constructor
  · refine ⟨rfl,rfl,rfl,rfl,fun p hp => Or.inl (ending_underWay hp).1,?_,?_⟩
    · intro p hp
      rcases ending_changed h hrow hlive hout hp with hp | hp
      · exact Or.inl hp
      · exact Or.inr hp.1
    · intro p op hop
      refine ⟨afterRun run outcome op,?_,ending_games op⟩
      rw [ending_operation?,hop]
      rfl
  · constructor
    · have : (s.ending run outcome).operations.map (·.id)=s.operations.map (·.id) := by
        simp only [ending,map_map]
        apply map_congr_left
        intro o _
        exact (afterRun_same run outcome o).1
      rw [this]
      exact h.ids
    · intro row hrow
      obtain ⟨row₀,hrow₀,rfl⟩ := mem_map.mp hrow
      have := h.distinct row₀ hrow₀
      split <;> exact this
    · intro op hop
      obtain ⟨o,ho,rfl⟩ := mem_map.mp hop
      obtain ⟨row',hrow'⟩ := h.runs o ho
      rw [(afterRun_same run outcome o).2.1,ending_run?,hrow']
      exact ⟨_,rfl⟩
    · intro op hop hg
      obtain ⟨o,ho,rfl⟩ := mem_map.mp hop
      obtain ⟨hid,hr,hgame⟩ := afterRun_same run outcome o
      rw [hgame] at hg
      rw [hid,hr]
      exact h.whole o ho hg
    · exact h.slots.sublist (filter_sublist.map _)
    · intro p op' hop' hu g hg
      rw [ending_operation?,Option.map_eq_some_iff] at hop'
      obtain ⟨op,hop,rfl⟩ := hop'
      rw [ending_games] at hg
      obtain ⟨hus,hother⟩ := ending_underWay hu
      refine mem_filter.mpr ⟨h.held p op hop hus g hg,?_⟩
      rw [Bool.not_eq_true',any_eq_false]
      intro o ho hcond
      simp only [Bool.and_eq_true,decide_eq_true_eq,Option.isNone_iff_eq_none] at hcond
      have : s.operation? p=some o := (operation?_iff h.ids).mpr ⟨ho,hcond.1.1⟩
      exact hother o this hcond.1.2 hcond.2
    · intro p op' hop' hg hc
      rw [ending_operation?,Option.map_eq_some_iff] at hop'
      obtain ⟨op,hop,rfl⟩ := hop'
      rcases ending_changed h hrow hlive hout hc with hc | ⟨_,op₁,hop₁,hs⟩
      · rw [(afterRun_same run outcome op).2.2] at hg
        have hs := h.ended p op hop hg hc
        rw [afterRun_failed run outcome hs]
        exact hs
      · rw [hop] at hop₁
        cases hop₁
        exact hs
    · intro r row' hrow' hver
      rw [ending_run?,Option.map_eq_some_iff] at hrow'
      obtain ⟨row₀,hrow₀,rfl⟩ := hrow'
      rw [ending_operation?]
      by_cases hid : row₀.id=run
      · rw [if_pos hid] at hver
        obtain ⟨op,hop,_⟩ := hout (Option.some.inj hver)
        rw [run?_id hrow₀] at hid
        rw [hid,hop]
        exact ⟨_,rfl⟩
      · rw [if_neg hid] at hver
        obtain ⟨op,hop⟩ := h.verdict r row₀ hrow₀ hver
        rw [hop]
        exact ⟨_,rfl⟩

theorem endRun_turn (h : Reserved s)
    (hout : outcome=.failed reconfirmation → ∃op,s.operation? run=some op ∧ op.state=.preparing) :
    Turn s (s.endRun run outcome) := by
  rcases endRun_eq run outcome s with heq | ⟨heq,row,hrow,hlive⟩
  · rw [heq]
    exact ⟨.refl s,h⟩
  · rw [heq]
    exact ending_turn h hrow hlive hout

end

theorem failRun_turn (h : Reserved s) {run : JsString} {code : String} (ht : s.failRun run generation code=some t) : Turn s t := by
  rw [failRun] at ht
  split at ht
  · cases ht
  · rename_i hguard
    simp only [Bool.not_eq_true',Bool.not_eq_false] at hguard
    cases ht
    exact endRun_turn h fun _ => writerGuard_preparing hguard

theorem abandon_turn (h : Reserved s) (ht : s.abandon id generation=some t) : Turn s t := by
  rw [abandon] at ht
  cases hop : s.operation? id with
  | none => rw [hop] at ht; cases ht
  | some op =>
    rw [hop] at ht
    dsimp only at ht
    split at ht
    · rename_i hc
      have hup := update_turn h (abandon_update generation) id
      split at ht
      · cases ht
        refine hup.release ?_
        rintro ⟨op',hop',hs,_⟩
        rw [setOperation_operation? (abandon_update generation) hop] at hop'
        cases hop'
        simp [hc] at hs
      · cases ht
        have hcode : RunOutcome.failed "reconciliation_abandoned"≠.failed reconfirmation := by
          simp [reconfirmation]
        have hend : Turn _ (endRun op.ingestion_run_id (.failed "reconciliation_abandoned") _) :=
          endRun_turn hup.2 fun heq => absurd heq hcode
        refine ⟨hup.1.trans hend.1 ?_,hend.2⟩
        intro p hp
        have := updated_operation? (s := s) ((abandon_update generation).at id) p
        rw [hp] at this
        exact this
    · cases ht

theorem startRun_turn (h : Reserved s) {games : List JsString}
    (ht : s.startRun id games=some t) : Turn s t := by
  rw [startRun] at ht
  split at ht
  · cases ht
  · rename_i hguard
    cases ht
    have hrun : ∀{r row},s.run? r=some row → ({ s with
        runs := s.runs++[⟨id,games,none⟩] } : Store).run? r=some row := by
      intro r row hr
      rw [run?] at hr ⊢
      rw [List.find?_append,hr]
      rfl
    have hgames : ∀op∈s.operations,({ s with
        runs := s.runs++[⟨id,games,none⟩] } : Store).games op=s.games op := by
      intro op hop
      obtain ⟨row,hrow⟩ := h.runs op hop
      rw [Store.games,Store.games,hrun hrow,hrow]
    have hunder : ∀p,({ s with runs := s.runs++[⟨id,games,none⟩] } : Store).underWay p →
        s.underWay p := by
      rintro p ⟨op,hop,hs,hr⟩
      refine ⟨op,hop,hs,?_⟩
      intro hg
      obtain ⟨row',hrow',hout⟩ := hr hg
      obtain ⟨row,hrow⟩ := h.runs op (mem_of_operation? hop).1
      rw [hrun hrow] at hrow'
      cases hrow'
      exact ⟨row',hrow,hout⟩
    have hchanged : ∀p,({ s with runs := s.runs++[⟨id,games,none⟩] } : Store).changed p →
        s.changed p := by
      rintro p ⟨op,hop,hc⟩
      refine ⟨op,hop,?_⟩
      obtain ⟨row,hrow⟩ := h.runs op (mem_of_operation? hop).1
      rw [sourceChanged,hrun hrow] at hc
      rw [sourceChanged,hrow]
      exact hc
    refine ⟨⟨rfl,rfl,rfl,rfl,fun p hp => Or.inl (hunder p hp),fun p hp => Or.inl (hchanged p hp),?_⟩,
      ⟨h.ids,?_,?_,h.whole,h.slots,?_,?_,?_⟩⟩
    · exact fun p op hop => ⟨op,hop,hgames op (mem_of_operation? hop).1⟩
    · intro row hrow
      rcases mem_append.mp hrow with hrow | hrow
      · exact h.distinct row hrow
      · rw [mem_singleton.mp hrow]
        simp only [Bool.or_eq_true,not_or,Bool.not_eq_true,Bool.not_eq_false',
          decide_eq_true_eq] at hguard
        exact hguard.1.2
    · intro op hop
      obtain ⟨row,hrow⟩ := h.runs op hop
      exact ⟨row,hrun hrow⟩
    · intro p op hop hu g hg
      rw [hgames op (mem_of_operation? hop).1] at hg
      exact h.held p op hop (hunder p hu) g hg
    · exact fun p op hop hg hc => h.ended p op hop hg (hchanged p hc)
    · intro r row hrow hout
      rw [run?,List.find?_append] at hrow
      cases hr : s.runs.find? (·.id=r) with
      | none =>
        rw [hr] at hrow
        by_cases hid : id=r
        · simp [hid] at hrow
          cases hrow
          cases hout
        · simp [hid] at hrow
      | some row' =>
        rw [hr] at hrow
        cases hrow
        exact h.verdict r row hr hout

/-- A new operation that takes the free slots of its games. -/
def opened (op : Operation) (s : Store) : Store :=
  { s with
    operations := s.operations++[op]
    slots := s.slots++(s.games op).map fun game => ⟨game,op.id⟩ }

theorem opened_operation? (hnew : s.operation? op.id=none) (p : JsString) :
    (s.opened op).operation? p=if p=op.id then some op else s.operation? p := by
  change (s.operations++[op]).find? _=_
  rw [List.find?_append]
  by_cases hp : p=op.id
  · rw [if_pos hp,hp]
    change (s.operation? op.id).or _=_
    rw [hnew]
    simp
  · rw [if_neg hp]
    have : [op].find? (fun o => decide (o.id=p))=none := by simp [Ne.symm hp]
    rw [this,Option.or_none]
    rfl

theorem opened_turn (h : Reserved s) (hnew : s.operation? op.id=none)
    (hstate : op.state=.preparing) (hrun : ∃row,s.run? op.ingestion_run_id=some row)
    (hwhole : op.supported_game=none → op.id=op.ingestion_run_id)
    (hfree : ∀g∈s.games op,g∉s.slots.map (·.supported_game)) (hgames : (s.games op).Nodup) :
    Turn s (s.opened op) := by
  have hold : ∀{p o},s.operation? p=some o → (s.opened op).operation? p=some o := by
    intro p o ho
    have hne : p≠op.id := by
      intro heq
      rw [heq,hnew] at ho
      cases ho
    rw [opened_operation? hnew,if_neg hne,ho]
  have hnot : ¬(s.opened op).changed op.id := by
    rintro ⟨o,ho,hc⟩
    rw [opened_operation? hnew,if_pos rfl] at ho
    cases ho
    obtain ⟨row,hrow⟩ := hrun
    have hrow' : (s.opened op).run? op.ingestion_run_id=some row := hrow
    rw [sourceChanged,hrow'] at hc
    dsimp only at hc
    cases hg : op.supported_game with
    | some g => rw [hg] at hc; simp [hstate] at hc
    | none =>
      rw [hg] at hc
      obtain ⟨o,ho⟩ := h.verdict _ row hrow (by simpa using hc)
      rw [← hwhole hg,hnew] at ho
      cases ho
  have hunder : ∀p,(s.opened op).underWay p → p=op.id ∨ s.underWay p := by
    rintro p ⟨o,ho,hs,hr⟩
    rw [opened_operation? hnew] at ho
    by_cases hp : p=op.id
    · exact Or.inl hp
    · rw [if_neg hp] at ho
      exact Or.inr ⟨o,ho,hs,hr⟩
  have hchanged : ∀p,(s.opened op).changed p → s.changed p := by
    rintro p ⟨o,ho,hc⟩
    rw [opened_operation? hnew] at ho
    by_cases hp : p=op.id
    · refine absurd ⟨o,?_,hc⟩ hnot
      rw [opened_operation? hnew,if_pos rfl]
      rw [if_pos hp] at ho
      exact ho
    · rw [if_neg hp] at ho
      exact ⟨o,ho,hc⟩
  refine ⟨⟨rfl,rfl,rfl,rfl,?_,fun p hp => Or.inl (hchanged p hp),fun p o ho => ⟨o,hold ho,rfl⟩⟩,
    ⟨?_,h.distinct,?_,?_,?_,?_,?_,?_⟩⟩
  · intro p hp
    rcases hunder p hp with rfl | hp
    · exact Or.inr hnew
    · exact Or.inl hp
  · change ((s.operations++[op]).map (·.id)).Nodup
    rw [map_append,nodup_append']
    refine ⟨h.ids,nodup_singleton _,?_⟩
    intro id hid hop
    obtain ⟨o,ho,rfl⟩ := mem_map.mp hid
    have := (operation?_iff h.ids).mpr ⟨ho,rfl⟩
    rw [mem_map] at hop
    obtain ⟨o',ho',heq⟩ := hop
    rw [mem_singleton.mp ho'] at heq
    rw [← heq,hnew] at this
    cases this
  · intro o ho
    rcases mem_append.mp ho with ho | ho
    · exact h.runs o ho
    · rw [mem_singleton.mp ho]
      exact hrun
  · intro o ho hg
    rcases mem_append.mp ho with ho | ho
    · exact h.whole o ho hg
    · rw [mem_singleton.mp ho] at hg ⊢
      exact hwhole hg
  · change ((s.slots++(s.games op).map _).map _).Nodup
    rw [map_append,map_map,nodup_append']
    refine ⟨h.slots,?_,?_⟩
    · rw [show ((fun slot : Slot => slot.supported_game)∘fun game => ⟨game,op.id⟩)=id from rfl,
        map_id]
      exact hgames
    · intro g hg hg'
      rw [show ((fun slot : Slot => slot.supported_game)∘fun game => ⟨game,op.id⟩)=id from rfl,
        map_id] at hg'
      exact hfree g hg' hg
  · intro p o ho hu g hg
    rcases hunder p hu with rfl | hus
    · rw [opened_operation? hnew,if_pos rfl] at ho
      cases ho
      exact mem_append_right _ (mem_map.mpr ⟨g,hg,rfl⟩)
    · have hold' := hus
      obtain ⟨o',ho',_⟩ := hold'
      have := hold ho'
      rw [ho] at this
      cases this
      exact mem_append_left _ (h.held p o ho' hus g hg)
  · intro p o ho hg hc
    obtain ⟨o',ho',hc'⟩ := hchanged p hc
    have := hold ho'
    rw [ho] at this
    cases this
    exact h.ended p o ho' hg ⟨o,ho',hc'⟩
  · intro r row hrow hout
    obtain ⟨o,ho⟩ := h.verdict r row hrow hout
    exact ⟨o,hold ho⟩

theorem startPreparation_turn (h : Reserved s) {run game : JsString}
    (ht : s.startPreparation id run game=some t) : Turn s t := by
  rw [startPreparation] at ht
  cases hr : s.run? run with
  | none => rw [hr] at ht; cases ht
  | some row =>
    rw [hr] at ht
    dsimp only at ht
    split at ht
    · cases ht
    · rename_i hc
      cases ht
      simp only [Bool.or_eq_true,not_or,Bool.not_eq_true,Bool.not_eq_true'] at hc
      have hturn : Turn s (s.opened ⟨id,run,some game,.preparing,0,none⟩) := by
        apply opened_turn h (operation?_none hc.1.2) rfl ⟨row,hr⟩
        · intro hg
          cases hg
        · intro g hg hmem
          rw [mem_singleton.mp hg] at hmem
          obtain ⟨slot,hslot,heq⟩ := mem_map.mp hmem
          have := any_eq_false.mp hc.1.1.1.2 slot hslot
          exact this (by simpa using heq)
        · exact nodup_singleton _
      obtain ⟨ht,hr'⟩ := hturn
      exact ⟨⟨ht.revisions,ht.events,ht.conflicts,ht.acknowledged,ht.under,ht.changed,ht.games⟩,
        ⟨hr'.ids,hr'.distinct,hr'.runs,hr'.whole,hr'.slots,hr'.held,hr'.ended,hr'.verdict⟩⟩

theorem startReconciliation_turn (h : Reserved s) {run : JsString}
    (ht : s.startReconciliation run=some t) : Turn s t := by
  rw [startReconciliation] at ht
  cases hr : s.run? run with
  | none => rw [hr] at ht; cases ht
  | some row =>
    rw [hr] at ht
    dsimp only at ht
    split at ht
    · cases ht
      exact ⟨.refl s,h⟩
    · rename_i hnew
      split at ht
      · cases ht
      · rename_i hfree
        cases ht
        have hgames : s.games ⟨run,run,none,.preparing,0,none⟩=row.selected_games := by
          rw [games]
          dsimp only
          rw [hr]
        have hturn : Turn s (s.opened ⟨run,run,none,.preparing,0,none⟩) := by
          refine opened_turn h (operation?_none (by simpa using hnew)) rfl ⟨row,hr⟩
            (fun _ => rfl) ?_ ?_
          · intro g hg hmem
            obtain ⟨slot,hslot,heq⟩ := mem_map.mp hmem
            have hnot := any_eq_false.mp (Bool.not_eq_true _ ▸ hfree) slot hslot
            rw [hgames,← heq] at hg
            exact hnot (by simpa using hg)
          · rw [hgames]
            exact h.distinct row (List.mem_of_find?_eq_some hr)
        rw [opened,hgames] at hturn
        exact hturn

end

end Store

end CardKeepr.Curated
