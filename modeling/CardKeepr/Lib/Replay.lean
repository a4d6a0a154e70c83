import CardKeepr.Lib.Program
import Mathlib.Order.Basic
import Mathlib.Data.List.Infix

namespace CardKeepr.Lib

open List

/-- A call of a resumable program: an operation of its store, or the retention of a checkpoint. -/
inductive Durable (Op κ : Type) where
  | store (op : Op)
  | save (c : κ)

namespace Durable

variable {Op κ : Type} {Ans : Op → Type} {ε φ α β γ δ τ : Type}

@[reducible] def Answer (Ans : Op → Type) : Durable Op κ → Type
  | .store op => Ans op
  | .save _ => Unit

/-- The store of the attempts: the retained effects and every checkpoint retained so far. -/
def handle (refer : (op : Op) → τ → Ans op × τ) :
    (op : Durable Op κ) → τ × List κ → Answer Ans op × (τ × List κ)
  | .store op,s => ((refer op s.1).1,(refer op s.1).2,s.2)
  | .save c,s => ((),s.1,c::s.2)

/-- The store of the uninterrupted run, which never comes back to a checkpoint. -/
def plain (refer : (op : Op) → τ → Ans op × τ) : (op : Durable Op κ) → τ → Answer Ans op × τ
  | .store op,u => refer op u
  | .save _,u => ((),u)

/-- The program makes store calls only: it tells nothing and retains no checkpoint. -/
def Quiet : Prog (Durable Op κ) (Answer Ans) ε φ α → Prop
  | .ret _ => True
  | .fail _ => True
  | .tell _ _ => False
  | .call (.store _) k => ∀a,Quiet (k a)
  | .call (.save _) _ => False

theorem quiet_bind {p : Prog (Durable Op κ) (Answer Ans) ε φ α}
    {f : α → Prog (Durable Op κ) (Answer Ans) ε φ β} (hp : Quiet p) (hf : ∀a,Quiet (f a)) :
    Quiet (p >>= f) := by
  induction p with
  | ret a => exact hf a
  | fail e => trivial
  | tell e p ih => exact hp.elim
  | call op k ih =>
    cases op with
    | store op => exact fun a => ih a (hp a)
    | save c => exact hp.elim

theorem Quiet.alone {refer : (op : Op) → τ → Ans op × τ}
    {p : Prog (Durable Op κ) (Answer Ans) ε φ α} (hp : Quiet p) (u : τ) :
    (alone (plain refer) p u).log=[] := by
  induction p generalizing u with
  | ret a => rfl
  | fail e => rfl
  | tell e p ih => exact hp.elim
  | call op k ih =>
    cases op with
    | store op => exact ih _ (hp _) _
    | save c => exact hp.elim

theorem Quiet.alone_handle {refer : (op : Op) → τ → Ans op × τ}
    {p : Prog (Durable Op κ) (Answer Ans) ε φ α} (hp : Quiet p) (u : τ) (cs : List κ) :
    Lib.alone (handle refer) p (u,cs)=⟨(Lib.alone (plain refer) p u).log,
      (Lib.alone (plain refer) p u).result,(Lib.alone (plain refer) p u).store,cs⟩ := by
  induction p generalizing u with
  | ret a => rfl
  | fail e => rfl
  | tell e p ih => exact hp.elim
  | call op k ih =>
    cases op with
    | store op => exact ih _ (hp _) _
    | save c => exact hp.elim

/-- The program only reads. -/
def Reads (refer : (op : Op) → τ → Ans op × τ) : Prog (Durable Op κ) (Answer Ans) ε φ α → Prop
  | .ret _ => True
  | .fail _ => True
  | .tell _ _ => False
  | .call (.store op) k => (∀u,(refer op u).2=u) ∧ ∀a,Reads refer (k a)
  | .call (.save _) _ => False

theorem Reads.quiet {refer : (op : Op) → τ → Ans op × τ}
    {p : Prog (Durable Op κ) (Answer Ans) ε φ α} (hp : Reads refer p) : Quiet p := by
  induction p with
  | ret a => trivial
  | fail e => trivial
  | tell e p ih => exact hp.elim
  | call op k ih =>
    cases op with
    | store op => exact fun a => ih a (hp.2 a)
    | save c => exact hp.elim

theorem reads_bind {refer : (op : Op) → τ → Ans op × τ}
    {p : Prog (Durable Op κ) (Answer Ans) ε φ α} {f : α → Prog (Durable Op κ) (Answer Ans) ε φ β}
    (hp : Reads refer p) (hf : ∀a,Reads refer (f a)) : Reads refer (p >>= f) := by
  induction p with
  | ret a => exact hf a
  | fail e => trivial
  | tell e p ih => exact hp.elim
  | call op k ih =>
    cases op with
    | store op => exact ⟨hp.1,fun a => ih a (hp.2 a)⟩
    | save c => exact hp.elim

theorem Reads.alone {refer : (op : Op) → τ → Ans op × τ}
    {p : Prog (Durable Op κ) (Answer Ans) ε φ α} (hp : Reads refer p) (u : τ) :
    (alone (plain refer) p u).store=u := by
  induction p generalizing u with
  | ret a => rfl
  | fail e => rfl
  | tell e p ih => exact hp.elim
  | call op k ih =>
    cases op with
    | store op => exact (ih _ (hp.2 _) _).trans (hp.1 u)
    | save c => exact hp.elim

variable [PartialOrder τ]

/-- The run that all attempts are measured against: its operations only add to the store, it goes
from store `first` to `last` with the events `log`, and what is known of a checkpoint stays true. -/
structure Reference (Op κ : Type) (Ans : Op → Type) (ε τ : Type) [PartialOrder τ] where
  refer : (op : Op) → τ → Ans op × τ
  first : τ
  last : τ
  log : List ε
  Good : κ → τ → Prop
  grows : ∀op u,u ≤ (refer op u).2
  good_mono : ∀c u v,u ≤ v → Good c u → Good c v

/-- What attempts keep among themselves: they add nothing the uninterrupted run does not end
with, and tell nothing it does not tell. -/
def Reference.discipline (F : Reference Op κ Ans ε τ) :
    Discipline (Durable Op κ) (Answer Ans) ε (τ × List κ) where
  handle := handle F.refer
  le s t := s.1 ≤ t.1 ∧ ∀c∈s.2,c∈t.2
  Inv s := F.first ≤ s.1 ∧ s.1 ≤ F.last ∧ ∀c∈s.2,F.Good c s.1
  Said l _ := l <+: F.log
  refl s := ⟨le_refl s.1,fun _ h => h⟩
  trans _ _ _ h k := ⟨le_trans h.1 k.1,fun c hc => k.2 c (h.2 c hc)⟩
  stable _ _ _ _ _ h := h

/-- Results that correspond: equal errors, or values related by `R`. -/
def Corresponds (R : α → β → Prop) : Except φ α → Except φ β → Prop
  | .ok a,.ok b => R a b
  | .error e,.error e' => e=e'
  | _,_ => False

variable {F : Reference Op κ Ans ε τ}

/-- An attempt at `p` above the store `u` does what `q` does when it runs alone from `u`,
provided the run of `q` is part of the uninterrupted one. -/
def Follows (F : Reference Op κ Ans ε τ) (R : α → β → Prop)
    (p : Prog (Durable Op κ) (Answer Ans) ε φ α) (q : Prog (Durable Op κ) (Answer Ans) ε φ β)
    (u : τ) : Prop :=
  ∀l s,u ≤ s.1 → (alone (plain F.refer) q u).store ≤ F.last →
    (∀e,(alone (plain F.refer) q u).result=.error e → (alone (plain F.refer) q u).store=F.last) →
    l++(alone (plain F.refer) q u).log <+: F.log →
    Safe F.discipline (fun l' r t => l'=l++(alone (plain F.refer) q u).log ∧
      Corresponds R r (alone (plain F.refer) q u).result ∧
      (alone (plain F.refer) q u).store ≤ t.1) p l s

theorem alone_grows (q : Prog (Durable Op κ) (Answer Ans) ε φ β) (u : τ) :
    u ≤ (alone (plain F.refer) q u).store := by
  induction q generalizing u with
  | ret b => exact le_refl u
  | fail e => exact le_refl u
  | tell e q ih => exact ih u
  | call op k ih =>
    cases op with
    | store op => exact le_trans (F.grows op u) (ih _ _)
    | save c => exact ih _ u

theorem follows_ret {R : α → β → Prop} {a : α} {b : β} (h : R a b) (u : τ) :
    Follows F R (.ret a : Prog (Durable Op κ) (Answer Ans) ε φ α) (.ret b) u := by
  intro l s hu _ _ _ t ht _
  exact ⟨by simp [alone],h,le_trans hu ht.1⟩

theorem follows_fail {R : α → β → Prop} (e : φ) (u : τ) :
    Follows F R (.fail e : Prog (Durable Op κ) (Answer Ans) ε φ α) (.fail e) u := by
  intro l s hu _ _ _ t ht _
  exact ⟨by simp [alone],rfl,le_trans hu ht.1⟩

theorem follows_tell {R : α → β → Prop} (e : ε) {p : Prog (Durable Op κ) (Answer Ans) ε φ α}
    {q : Prog (Durable Op κ) (Answer Ans) ε φ β} {u : τ} (h : Follows F R p q u) :
    Follows F R (.tell e p) (.tell e q) u := by
  intro l s hu hz he hl t ht _
  have hl2 : l++[e]++(alone (plain F.refer) q u).log <+: F.log := by
    simpa [alone] using hl
  refine ⟨(prefix_append _ _).trans hl2,?_⟩
  simpa [alone] using h (l++[e]) t (le_trans hu ht.1) hz he hl2

theorem follows_bind {R : α → β → Prop} {S : γ → δ → Prop}
    {p : Prog (Durable Op κ) (Answer Ans) ε φ α} {q : Prog (Durable Op κ) (Answer Ans) ε φ β}
    {f : α → Prog (Durable Op κ) (Answer Ans) ε φ γ}
    {g : β → Prog (Durable Op κ) (Answer Ans) ε φ δ} {u : τ} (h : Follows F R p q u)
    (hk : ∀a b,R a b → (alone (plain F.refer) q u).result=.ok b →
      Follows F S (f a) (g b) (alone (plain F.refer) q u).store) :
    Follows F S (p >>= f) (q >>= g) u := by
  intro l s hu hz he hl
  rw [alone_bind] at hz he hl ⊢
  apply Safe.bind
  cases hq : (alone (plain F.refer) q u).result with
  | ok b =>
    simp only [hq] at hz he hl ⊢
    rw [←append_assoc] at hl
    have hz2 : (alone (plain F.refer) q u).store ≤ F.last := le_trans (alone_grows _ _) hz
    have hp := h l s hu hz2 (by simp [hq]) ((prefix_append _ _).trans hl)
    refine hp.imp fun l' r t hi ht => ?_
    obtain ⟨rfl,hr,hut⟩ := ht
    cases r with
    | ok a =>
      simp only [hq,Corresponds] at hr
      have hn := hk a b hr hq _ t hut hz he hl
      rw [append_assoc] at hn
      exact hn
    | error e => simp [hq,Corresponds] at hr
  | error e =>
    simp only [hq] at hz he hl ⊢
    have hp := h l s hu hz (by simpa [hq] using he) hl
    refine hp.imp fun l' r t hi ht => ?_
    obtain ⟨rfl,hr,hut⟩ := ht
    cases r with
    | ok a => simp [hq,Corresponds] at hr
    | error e' =>
      simp only [hq,Corresponds] at hr
      exact ⟨rfl,hr,hut⟩

theorem follows_congr {R : α → β → Prop} {p : Prog (Durable Op κ) (Answer Ans) ε φ α}
    {q q' : Prog (Durable Op κ) (Answer Ans) ε φ β} {u : τ} (h : Follows F R p q u)
    (e : alone (plain F.refer) q' u=alone (plain F.refer) q u) : Follows F R p q' u := by
  unfold Follows
  rw [e]
  exact h

theorem follows_calls {R : α → β → Prop} {op op' : Op}
    {k : Ans op → Prog (Durable Op κ) (Answer Ans) ε φ α}
    {k' : Ans op' → Prog (Durable Op κ) (Answer Ans) ε φ β} {u : τ}
    (h : (F.refer op' u).2 ≤ F.last → ∀v,u ≤ v → v ≤ F.last →
      (F.refer op' u).2 ≤ (F.refer op v).2 ∧ (F.refer op v).2 ≤ F.last ∧
        Follows F R (k (F.refer op v).1) (k' (F.refer op' u).1) (F.refer op' u).2) :
    Follows F R (.call (.store op) k) (.call (.store op') k') u := by
  intro l s hu hz he hl t ht hi
  have hz1 : (F.refer op' u).2 ≤ F.last :=
    le_trans (alone_grows (k' (F.refer op' u).1) _) hz
  obtain ⟨hlow,hup,hk⟩ := h hz1 t.1 (le_trans hu ht.1) hi.2.1
  refine ⟨⟨le_trans hi.1 (F.grows op t.1),hup,
      fun c hc => F.good_mono c _ _ (F.grows op t.1) (hi.2.2 c hc)⟩,
    ⟨F.grows op t.1,fun c hc => hc⟩,?_⟩
  exact hk l (handle F.refer (.store op) t).2 hlow hz he hl

theorem follows_call {R : α → β → Prop} {op : Op}
    {k : Ans op → Prog (Durable Op κ) (Answer Ans) ε φ α}
    {k' : Ans op → Prog (Durable Op κ) (Answer Ans) ε φ β} {u : τ}
    (h : (F.refer op u).2 ≤ F.last → ∀v,u ≤ v → v ≤ F.last →
      (F.refer op v).1=(F.refer op u).1 ∧ (F.refer op u).2 ≤ (F.refer op v).2 ∧
        (F.refer op v).2 ≤ F.last)
    (hk : Follows F R (k (F.refer op u).1) (k' (F.refer op u).1) (F.refer op u).2) :
    Follows F R (.call (.store op) k) (.call (.store op) k') u := by
  apply follows_calls
  intro hz v hv hv2
  obtain ⟨ha,hlow,hup⟩ := h hz v hv hv2
  exact ⟨hlow,hup,by rw [ha]; exact hk⟩

theorem follows_read {R : α → β → Prop} {op : Op}
    {k : Ans op → Prog (Durable Op κ) (Answer Ans) ε φ α}
    {q : Prog (Durable Op κ) (Answer Ans) ε φ β} {u : τ}
    (h : ∀v,u ≤ v → v ≤ F.last → (F.refer op v).2=v ∧ Follows F R (k (F.refer op v).1) q u) :
    Follows F R (.call (.store op) k) q u := by
  intro l s hu hz he hl t ht hi
  obtain ⟨hsame,hk⟩ := h t.1 (le_trans hu ht.1) hi.2.1
  have hstore : (handle F.refer (.store op) t).2=t := by
    rw [handle,hsame]
  show F.discipline.Inv (handle F.refer (.store op) t).2 ∧
    F.discipline.le t (handle F.refer (.store op) t).2 ∧
    Safe F.discipline _ (k (F.refer op t.1).1) l (handle F.refer (.store op) t).2
  rw [hstore]
  exact ⟨hi,F.discipline.refl t,hk l t (le_trans hu ht.1) hz he hl⟩

theorem follows_save {R : α → β → Prop} {c c' : κ}
    {k : Unit → Prog (Durable Op κ) (Answer Ans) ε φ α}
    {k' : Unit → Prog (Durable Op κ) (Answer Ans) ε φ β} {u : τ} (hc : F.Good c u)
    (hk : Follows F R (k ()) (k' ()) u) :
    Follows F R (.call (.save c) k) (.call (.save c') k') u := by
  intro l s hu hz he hl t ht hi
  refine ⟨⟨hi.1,hi.2.1,fun d hd => ?_⟩,⟨le_refl t.1,fun d hd => mem_cons_of_mem _ hd⟩,
    hk l _ (le_trans hu ht.1) hz he hl⟩
  rcases mem_cons.mp hd with rfl | hd
  · exact F.good_mono d u t.1 (le_trans hu ht.1) hc
  · exact hi.2.2 d hd

theorem follows_last {p : Prog (Durable Op κ) (Answer Ans) ε φ α} (hp : Reads F.refer p) :
    Follows F Eq p p F.last := by
  induction p with
  | ret a => exact follows_ret rfl _
  | fail e => exact follows_fail e _
  | tell e p ih => exact hp.elim
  | call op k ih =>
    cases op with
    | save c => exact hp.elim
    | store op =>
      apply follows_call
      · intro hz v hv hv2
        rw [le_antisymm hv2 hv]
        exact ⟨rfl,le_refl _,hz⟩
      · rw [hp.1]
        exact ih _ (hp.2 _)

theorem follows_of_returns {p : Prog (Durable Op κ) (Answer Ans) ε φ α} (hp : Reads F.refer p)
    {u : τ} (h : ∀a,(alone (plain F.refer) p u).result=.ok a → Follows F Eq p p u) :
    Follows F Eq p p u := by
  cases hr : (alone (plain F.refer) p u).result with
  | ok a => exact h a hr
  | error e =>
    intro l s hu hz he hl
    have hlast : u=F.last := by
      rw [←he e hr,hp.alone]
    subst hlast
    exact follows_last hp l s hu hz he hl

/-- Attempts start with the program itself or with the continuation of a retained checkpoint. -/
def Starts (q : Prog (Durable Op κ) (Answer Ans) ε φ α)
    (resume : κ → Thread (Durable Op κ) (Answer Ans) ε φ α) (s : τ × List κ)
    (t : Thread (Durable Op κ) (Answer Ans) ε φ α) : Prop :=
  t=⟨[],q⟩ ∨ ∃c∈s.2,t=resume c

/-- Where an attempt stands against the uninterrupted run, in whatever order attempts ran and
wherever they were cut. -/
structure Replays (F : Reference Op κ Ans ε τ) (R : α → β → Prop) (result : Except φ β)
    (w : World (Durable Op κ) (Answer Ans) ε φ α (τ × List κ))
    (t : Thread (Durable Op κ) (Answer Ans) ε φ α) : Prop where
  log : t.log <+: F.log
  store : w.store.1 ≤ F.last
  returned : ∀a,t.prog=.ret a → t.log=F.log ∧ Corresponds R (.ok a) result ∧ w.store.1=F.last
  failed : ∀e,t.prog=.fail e → t.log=F.log ∧ result=.error e ∧ w.store.1=F.last

theorem replays {R : α → β → Prop} {q : Prog (Durable Op κ) (Answer Ans) ε φ α}
    {q' : Prog (Durable Op κ) (Answer Ans) ε φ β}
    {resume : κ → Thread (Durable Op κ) (Answer Ans) ε φ α} {result : Except φ β}
    (hq : Follows F R q q' F.first)
    (hrun : alone (plain F.refer) q' F.first=⟨F.log,result,F.last⟩)
    (hres : ∀c u,F.Good c u → ∃p v,v ≤ u ∧ Follows F R (resume c).prog p v ∧
      alone (plain F.refer) p v=⟨F.log.drop (resume c).log.length,result,F.last⟩ ∧
      (resume c).log <+: F.log)
    {w : World (Durable Op κ) (Answer Ans) ε φ α (τ × List κ)}
    (hw : World.Reachable (handle F.refer) (Starts q resume) (F.first,[]) w) :
    ∀t∈w.threads,Replays F R result w t := by
  have hgrow : F.first ≤ F.last := by
    have := alone_grows (F := F) q' F.first
    rwa [hrun] at this
  have hinit : F.discipline.Inv (F.first,[]) :=
    ⟨le_refl F.first,hgrow,fun c hc => (not_mem_nil hc).elim⟩
  have hkept : w.Kept F.discipline
      (fun l r t => l=F.log ∧ Corresponds R r result ∧ F.last ≤ t.1) := by
    apply World.Reachable.kept hw hinit
    rintro s t hi (rfl | ⟨c,hc,rfl⟩)
    · refine ⟨⟨_,rfl⟩,?_⟩
      have := hq [] s hi.1 (by rw [hrun]) (fun e _ => by rw [hrun]) (by rw [hrun]; exact prefix_refl _)
      rw [hrun] at this
      exact this
    · obtain ⟨p,v,hv,hf,hrun2,hl⟩ := hres c s.1 (hi.2.2 c hc)
      refine ⟨hl,?_⟩
      have hlog : (resume c).log++F.log.drop (resume c).log.length=F.log := by
        obtain ⟨r,hr⟩ := hl
        rw [←hr]
        simp
      have := hf (resume c).log s hv (by rw [hrun2]) (fun e _ => by rw [hrun2])
        (by rw [hrun2,hlog])
      rw [hrun2,hlog] at this
      exact this
  intro t ht
  have hsafe := hkept.safe t ht
  have hle : w.store.1 ≤ F.last := hkept.inv.2.1
  refine ⟨hkept.said t ht,hle,fun a ha => ?_,fun e he => ?_⟩
  · rw [ha] at hsafe
    obtain ⟨h1,h2,h3⟩ := hsafe w.store (F.discipline.refl w.store) hkept.inv
    exact ⟨h1,h2,le_antisymm hle h3⟩
  · rw [he] at hsafe
    obtain ⟨h1,h2,h3⟩ := hsafe w.store (F.discipline.refl w.store) hkept.inv
    refine ⟨h1,?_,le_antisymm hle h3⟩
    cases hr : result with
    | ok b => rw [hr] at h2; exact h2.elim
    | error e' => rw [hr] at h2; exact congrArg _ (Eq.symm h2)

end Durable

end CardKeepr.Lib
