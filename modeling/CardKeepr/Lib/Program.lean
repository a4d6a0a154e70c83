import Mathlib.Logic.Relation

namespace CardKeepr.Lib

open List

variable {Op : Type} {Ans : Op → Type} {ε φ α β γ σ : Type}

/-- A program that reaches a shared store by atomic calls only, reports events with `tell` and
may stop with an error. -/
inductive Prog (Op : Type) (Ans : Op → Type) (ε φ α : Type) where
  | ret (a : α)
  | fail (e : φ)
  | tell (e : ε) (p : Prog Op Ans ε φ α)
  | call (op : Op) (k : Ans op → Prog Op Ans ε φ α)

namespace Prog

def bind : Prog Op Ans ε φ α → (α → Prog Op Ans ε φ β) → Prog Op Ans ε φ β
  | .ret a,f => f a
  | .fail e,_ => .fail e
  | .tell e p,f => .tell e (p.bind f)
  | .call op k,f => .call op fun a => (k a).bind f

instance : Monad (Prog Op Ans ε φ) where
  pure := .ret
  bind := bind

@[simp] theorem pure_eq (a : α) : (pure a : Prog Op Ans ε φ α)=.ret a := rfl
@[simp] theorem ret_bind (a : α) (f : α → Prog Op Ans ε φ β) : (Prog.ret a >>= f)=f a := rfl
@[simp] theorem fail_bind (e : φ) (f : α → Prog Op Ans ε φ β) : (Prog.fail e >>= f)=.fail e := rfl
@[simp] theorem tell_bind (e : ε) (p : Prog Op Ans ε φ α) (f : α → Prog Op Ans ε φ β) :
    (Prog.tell e p >>= f)=.tell e (p >>= f) := rfl
@[simp] theorem call_bind (op : Op) (k : Ans op → Prog Op Ans ε φ α)
    (f : α → Prog Op Ans ε φ β) : (Prog.call op k >>= f)=.call op fun a => k a >>= f := rfl

theorem bind_assoc (p : Prog Op Ans ε φ α) (f : α → Prog Op Ans ε φ β)
    (g : β → Prog Op Ans ε φ γ) : ((p >>= f) >>= g)=(p >>= fun a => f a >>= g) := by
  induction p with
  | ret a => rfl
  | fail e => rfl
  | tell e p ih => rw [tell_bind,tell_bind,tell_bind,ih]
  | call op k ih =>
    rw [call_bind,call_bind,call_bind]
    exact congrArg _ (funext fun a => ih a)

end Prog

/-- What a run leaves: the events told, the result and the store. -/
structure Outcome (ε φ α σ : Type) where
  log : List ε
  result : Except φ α
  store : σ

/-- The run of a program that no other program interferes with. -/
def alone (handle : (op : Op) → σ → Ans op × σ) : Prog Op Ans ε φ α → σ → Outcome ε φ α σ
  | .ret a,s => ⟨[],.ok a,s⟩
  | .fail e,s => ⟨[],.error e,s⟩
  | .tell e p,s => let r := alone handle p s; ⟨e::r.log,r.result,r.store⟩
  | .call op k,s => alone handle (k (handle op s).1) (handle op s).2

theorem alone_bind (handle : (op : Op) → σ → Ans op × σ) (p : Prog Op Ans ε φ α)
    (f : α → Prog Op Ans ε φ β) (s : σ) : alone handle (p >>= f) s=
      match (alone handle p s).result with
      | .ok a =>
        let r := alone handle (f a) (alone handle p s).store
        ⟨(alone handle p s).log++r.log,r.result,r.store⟩
      | .error e => ⟨(alone handle p s).log,.error e,(alone handle p s).store⟩ := by
  induction p generalizing s with
  | ret a => simp [alone]
  | fail e => simp [alone]
  | tell e p ih =>
    rw [Prog.tell_bind,alone,alone,ih]
    cases (alone handle p s).result with
    | ok a => rfl
    | error e => rfl
  | call op k ih =>
    rw [Prog.call_bind,alone,alone]
    exact ih _ _

/-- What follows a part of a program that ran by itself. -/
def Outcome.rest (o : Outcome ε φ α σ) (f : α → Prog Op Ans ε φ β) : Prog Op Ans ε φ β :=
  match o.result with
  | .ok a => f a
  | .error e => .fail e

/-- What concurrent programs may rely on and must keep: the store only grows along `le`, `Inv`
holds of it, and the events a program has told satisfy `Said`. -/
structure Discipline (Op : Type) (Ans : Op → Type) (ε σ : Type) where
  handle : (op : Op) → σ → Ans op × σ
  le : σ → σ → Prop
  Inv : σ → Prop
  Said : List ε → σ → Prop
  refl : ∀s,le s s
  trans : ∀s t u,le s t → le t u → le s u
  stable : ∀s t l,le s t → Inv t → Said l s → Said l t

/-- The program keeps the discipline from store `s` on, whatever grows between its calls, and
ends in `post`. -/
def Safe (D : Discipline Op Ans ε σ) (post : List ε → Except φ α → σ → Prop) :
    Prog Op Ans ε φ α → List ε → σ → Prop
  | .ret a,l,s => ∀t,D.le s t → D.Inv t → post l (.ok a) t
  | .fail e,l,s => ∀t,D.le s t → D.Inv t → post l (.error e) t
  | .tell e p,l,s => ∀t,D.le s t → D.Inv t → D.Said (l++[e]) t ∧ Safe D post p (l++[e]) t
  | .call op k,l,s => ∀t,D.le s t → D.Inv t → D.Inv (D.handle op t).2 ∧ D.le t (D.handle op t).2 ∧
      Safe D post (k (D.handle op t).1) l (D.handle op t).2

variable {D : Discipline Op Ans ε σ}

theorem Safe.mono {post : List ε → Except φ α → σ → Prop} {p : Prog Op Ans ε φ α} {l : List ε}
    {s t : σ} (h : Safe D post p l s) (ht : D.le s t) : Safe D post p l t := by
  cases p with
  | ret a => exact fun u hu => h u (D.trans s t u ht hu)
  | fail e => exact fun u hu => h u (D.trans s t u ht hu)
  | tell e p => exact fun u hu => h u (D.trans s t u ht hu)
  | call op k => exact fun u hu => h u (D.trans s t u ht hu)

theorem Safe.imp {post post' : List ε → Except φ α → σ → Prop} {p : Prog Op Ans ε φ α}
    {l : List ε} {s : σ} (h : Safe D post p l s)
    (hp : ∀l r t,D.Inv t → post l r t → post' l r t) : Safe D post' p l s := by
  induction p generalizing l s with
  | ret a => exact fun t ht hi => hp l _ t hi (h t ht hi)
  | fail e => exact fun t ht hi => hp l _ t hi (h t ht hi)
  | tell e p ih =>
    intro t ht hi
    obtain ⟨hs,hn⟩ := h t ht hi
    exact ⟨hs,ih hn⟩
  | call op k ih =>
    intro t ht hi
    obtain ⟨hi2,hle,hn⟩ := h t ht hi
    exact ⟨hi2,hle,ih _ hn⟩

theorem Safe.of_forall {post : List ε → Except φ α → σ → Prop} {p : Prog Op Ans ε φ α}
    {l : List ε} {s : σ} (h : ∀t,D.le s t → D.Inv t → Safe D post p l t) : Safe D post p l s := by
  cases p with
  | ret a => exact fun t ht hi => h t ht hi t (D.refl t) hi
  | fail e => exact fun t ht hi => h t ht hi t (D.refl t) hi
  | tell e p => exact fun t ht hi => h t ht hi t (D.refl t) hi
  | call op k => exact fun t ht hi => h t ht hi t (D.refl t) hi

theorem Safe.bind {post : List ε → Except φ β → σ → Prop} {p : Prog Op Ans ε φ α}
    {f : α → Prog Op Ans ε φ β} {l : List ε} {s : σ}
    (h : Safe D (fun l r t => match r with
      | .ok a => Safe D post (f a) l t
      | .error e => post l (.error e) t) p l s) : Safe D post (p >>= f) l s := by
  induction p generalizing l s with
  | ret a =>
    rw [Prog.ret_bind]
    exact Safe.of_forall fun t ht hi => h t ht hi
  | fail e => exact h
  | tell e p ih =>
    intro t ht hi
    obtain ⟨hs,hn⟩ := h t ht hi
    exact ⟨hs,ih hn⟩
  | call op k ih =>
    intro t ht hi
    obtain ⟨hi2,hle,hn⟩ := h t ht hi
    exact ⟨hi2,hle,ih _ hn⟩

/-- A program under way, with what it has told so far. -/
structure Thread (Op : Type) (Ans : Op → Type) (ε φ α : Type) where
  log : List ε
  prog : Prog Op Ans ε φ α

structure World (Op : Type) (Ans : Op → Type) (ε φ α σ : Type) where
  store : σ
  threads : List (Thread Op Ans ε φ α)

/-- Any thread may move next, and new ones may start as `start` allows. A thread that has been
cut off is one that never moves again. -/
inductive World.Step (handle : (op : Op) → σ → Ans op × σ)
    (start : σ → Thread Op Ans ε φ α → Prop) :
    World Op Ans ε φ α σ → World Op Ans ε φ α σ → Prop
  | spawn {s : σ} {ts : List (Thread Op Ans ε φ α)} {t : Thread Op Ans ε φ α} (h : start s t) :
    Step handle start ⟨s,ts⟩ ⟨s,ts++[t]⟩
  | tell {s : σ} {l r : List (Thread Op Ans ε φ α)} {log : List ε} {e : ε}
    {p : Prog Op Ans ε φ α} :
    Step handle start ⟨s,l++⟨log,.tell e p⟩::r⟩ ⟨s,l++⟨log++[e],p⟩::r⟩
  | call {s : σ} {l r : List (Thread Op Ans ε φ α)} {log : List ε} {op : Op}
    {k : Ans op → Prog Op Ans ε φ α} :
    Step handle start ⟨s,l++⟨log,.call op k⟩::r⟩ ⟨(handle op s).2,l++⟨log,k (handle op s).1⟩::r⟩

/-- The worlds that any number of threads can reach in any order of steps. -/
def World.Reachable (handle : (op : Op) → σ → Ans op × σ)
    (start : σ → Thread Op Ans ε φ α → Prop) (s : σ) : World Op Ans ε φ α σ → Prop :=
  Relation.ReflTransGen (World.Step handle start) ⟨s,[]⟩

/-- A thread goes through a part of its program while the others wait. -/
theorem World.Reachable.moved {handle : (op : Op) → σ → Ans op × σ}
    {start : σ → Thread Op Ans ε φ β → Prop} {s s' : σ} {ts : List (Thread Op Ans ε φ β)}
    {p : Prog Op Ans ε φ α} {f : α → Prog Op Ans ε φ β} {log : List ε}
    (h : World.Reachable handle start s ⟨s',ts++[⟨log,p >>= f⟩]⟩) :
    World.Reachable handle start s ⟨(alone handle p s').store,
      ts++[⟨log++(alone handle p s').log,(alone handle p s').rest f⟩]⟩ := by
  induction p generalizing log s' with
  | ret a =>
    rw [alone,append_nil]
    exact h
  | fail e =>
    rw [alone,append_nil]
    exact h
  | tell e p ih =>
    have hp := ih (h.tail (World.Step.tell (r := [])))
    rw [append_assoc] at hp
    exact hp
  | call op k ih => exact ih (handle op s').1 (h.tail (World.Step.call (r := [])))

/-- The store keeps its invariant and every thread is safe from here on. -/
structure World.Kept (D : Discipline Op Ans ε σ) (post : List ε → Except φ α → σ → Prop)
    (w : World Op Ans ε φ α σ) : Prop where
  inv : D.Inv w.store
  said : ∀t∈w.threads,D.Said t.log w.store
  safe : ∀t∈w.threads,Safe D post t.prog t.log w.store

theorem World.Kept.step {post : List ε → Except φ α → σ → Prop}
    {start : σ → Thread Op Ans ε φ α → Prop} {v w : World Op Ans ε φ α σ} (h : v.Kept D post)
    (hstart : ∀s t,D.Inv s → start s t → D.Said t.log s ∧ Safe D post t.prog t.log s)
    (hs : World.Step D.handle start v w) : w.Kept D post := by
  obtain ⟨hi,hsaid,hsafe⟩ := h
  cases hs with
  | spawn hst =>
    obtain ⟨hd,hf⟩ := hstart _ _ hi hst
    refine ⟨hi,fun t ht => ?_,fun t ht => ?_⟩
    · rcases mem_append.mp ht with ht | ht
      · exact hsaid t ht
      · exact mem_singleton.mp ht ▸ hd
    · rcases mem_append.mp ht with ht | ht
      · exact hsafe t ht
      · exact mem_singleton.mp ht ▸ hf
  | @tell s l r log e p =>
    obtain ⟨hd,hf⟩ := hsafe ⟨log,.tell e p⟩ (by simp) s (D.refl s) hi
    refine ⟨hi,fun t ht => ?_,fun t ht => ?_⟩
    · rcases mem_append.mp ht with ht | ht
      · exact hsaid t (mem_append_left _ ht)
      · rcases mem_cons.mp ht with rfl | ht
        · exact hd
        · exact hsaid t (mem_append_right _ (mem_cons_of_mem _ ht))
    · rcases mem_append.mp ht with ht | ht
      · exact hsafe t (mem_append_left _ ht)
      · rcases mem_cons.mp ht with rfl | ht
        · exact hf
        · exact hsafe t (mem_append_right _ (mem_cons_of_mem _ ht))
  | @call s l r log op k =>
    obtain ⟨hi2,hle,hf⟩ := hsafe ⟨log,.call op k⟩ (by simp) s (D.refl s) hi
    refine ⟨hi2,fun t ht => ?_,fun t ht => ?_⟩
    · rcases mem_append.mp ht with ht | ht
      · exact D.stable _ _ _ hle hi2 (hsaid t (mem_append_left _ ht))
      · rcases mem_cons.mp ht with rfl | ht
        · exact D.stable _ _ _ hle hi2 (hsaid ⟨log,.call op k⟩ (by simp))
        · exact D.stable _ _ _ hle hi2
            (hsaid t (mem_append_right _ (mem_cons_of_mem _ ht)))
    · rcases mem_append.mp ht with ht | ht
      · exact (hsafe t (mem_append_left _ ht)).mono hle
      · rcases mem_cons.mp ht with rfl | ht
        · exact hf
        · exact (hsafe t (mem_append_right _ (mem_cons_of_mem _ ht))).mono hle

theorem World.Reachable.kept {post : List ε → Except φ α → σ → Prop}
    {start : σ → Thread Op Ans ε φ α → Prop} {s : σ} {w : World Op Ans ε φ α σ}
    (h : World.Reachable D.handle start s w) (hi : D.Inv s)
    (hstart : ∀s t,D.Inv s → start s t → D.Said t.log s ∧ Safe D post t.prog t.log s) :
    w.Kept D post := by
  induction h with
  | refl => exact ⟨hi,fun t ht => (not_mem_nil ht).elim,fun t ht => (not_mem_nil ht).elim⟩
  | tail _ hs ih => exact ih.step hstart hs

end CardKeepr.Lib
