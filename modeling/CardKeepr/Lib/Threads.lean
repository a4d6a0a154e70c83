import CardKeepr.Lib.Program
import Mathlib.Data.List.Induction

namespace CardKeepr.Lib

variable {Op : Type} {Ans : Op → Type} {ε φ α β σ : Type}

namespace Prog

/-- The program with its failure as a result. -/
def settled : Prog Op Ans ε φ α → Prog Op Ans ε φ (Except φ α)
  | .ret a => .ret (.ok a)
  | .fail e => .ret (.error e)
  | .tell e p => .tell e (settled p)
  | .call op k => .call op fun a => settled (k a)

def inTurn : List (Prog Op Ans ε φ α) → Prog Op Ans ε φ (List (Except φ α))
  | [] => .ret []
  | p::ps => settled p >>= fun r => inTurn ps >>= fun rs => .ret (r::rs)

/-- All tasks at once: the list names which of them moves next, and what is left when it ends
moves in turn. A failing task does not stop the others. -/
def allSettled : List Nat → List (Prog Op Ans ε φ α) → Prog Op Ans ε φ (List (Except φ α))
  | [],ps => inTurn ps
  | i::is,ps => match ps[i]? with
    | some (.tell e p) => .tell e (allSettled is (ps.set i p))
    | some (.call op k) => .call op fun a => allSettled is (ps.set i (k a))
    | _ => allSettled is ps

/-- Every call the program may make satisfies `ok`. -/
def Only (ok : Op → Prop) : Prog Op Ans ε φ α → Prop
  | .ret _ => True
  | .fail _ => True
  | .tell _ p => p.Only ok
  | .call op k => ok op ∧ ∀a,(k a).Only ok

theorem Only.bind {ok : Op → Prop} {p : Prog Op Ans ε φ α} {f : α → Prog Op Ans ε φ β}
    (h : p.Only ok) (hf : ∀a,(f a).Only ok) : (p >>= f).Only ok := by
  induction p with
  | ret a => exact hf a
  | fail e => trivial
  | tell e p ih => exact ih h
  | call op k ih => exact ⟨h.1,fun a => ih a (h.2 a)⟩

theorem Only.imp {ok ok' : Op → Prop} {p : Prog Op Ans ε φ α} (h : p.Only ok)
    (hok : ∀op,ok op → ok' op) : p.Only ok' := by
  induction p with
  | ret a => trivial
  | fail e => trivial
  | tell e p ih => exact ih h
  | call op k ih => exact ⟨hok op h.1,fun a => ih a (h.2 a)⟩

theorem Only.settled {ok : Op → Prop} {p : Prog Op Ans ε φ α} (h : p.Only ok) :
    p.settled.Only ok := by
  induction p with
  | ret a => trivial
  | fail e => trivial
  | tell e p ih => exact ih h
  | call op k ih => exact ⟨h.1,fun a => ih a (h.2 a)⟩

end Prog

/-- Numbered threads over one store: what each may rely on while the others move. The number of
the calling thread is known to the store, so that a row can belong to a thread. -/
structure Protocol (Op : Type) (Ans : Op → Type) (σ : Type) where
  handle : Nat → (op : Op) → σ → Ans op × σ
  Inv : σ → Prop
  rely : Nat → σ → σ → Prop
  refl : ∀i s,rely i s s
  trans : ∀i s t u,rely i s t → rely i t u → rely i s u

/-- Thread `i` keeps the invariant and what the threads of `G` rely on, whatever it may rely on
itself does between its calls, and ends in `post`. -/
def Keeps (P : Protocol Op Ans σ) (i : Nat) (G : Nat → Prop) (post : Except φ α → σ → Prop) :
    Prog Op Ans ε φ α → σ → Prop
  | .ret a,s => ∀t,P.rely i s t → P.Inv t → post (.ok a) t
  | .fail e,s => ∀t,P.rely i s t → P.Inv t → post (.error e) t
  | .tell _ p,s => Keeps P i G post p s
  | .call op k,s => ∀t,P.rely i s t → P.Inv t → P.Inv (P.handle i op t).2 ∧
      (∀j,G j → P.rely j t (P.handle i op t).2) ∧
      Keeps P i G post (k (P.handle i op t).1) (P.handle i op t).2

/-- A result that is good, or none. -/
def OnOk (post : α → σ → Prop) : Except φ α → σ → Prop
  | .ok a,t => post a t
  | .error _,_ => True

variable {P : Protocol Op Ans σ} {i : Nat} {G : Nat → Prop}

namespace Keeps

theorem mono {post : Except φ α → σ → Prop} {p : Prog Op Ans ε φ α} {s t : σ}
    (h : Keeps P i G post p s) (ht : P.rely i s t) : Keeps P i G post p t := by
  induction p with
  | ret a => exact fun u hu => h u (P.trans i s t u ht hu)
  | fail e => exact fun u hu => h u (P.trans i s t u ht hu)
  | tell e p ih => exact ih h
  | call op k => exact fun u hu => h u (P.trans i s t u ht hu)

theorem imp {post post' : Except φ α → σ → Prop} {p : Prog Op Ans ε φ α} {s : σ}
    (h : Keeps P i G post p s) (hp : ∀r t,P.Inv t → post r t → post' r t) :
    Keeps P i G post' p s := by
  induction p generalizing s with
  | ret a => exact fun t ht hi => hp _ t hi (h t ht hi)
  | fail e => exact fun t ht hi => hp _ t hi (h t ht hi)
  | tell e p ih => exact ih h
  | call op k ih =>
    intro t ht hi
    have hc := h t ht hi
    exact ⟨hc.1,hc.2.1,ih _ hc.2.2⟩

theorem guarantee {H : Nat → Prop} {post : Except φ α → σ → Prop} {p : Prog Op Ans ε φ α} {s : σ}
    (h : Keeps P i G post p s) (hg : ∀j,H j → G j) : Keeps P i H post p s := by
  induction p generalizing s with
  | ret a => exact h
  | fail e => exact h
  | tell e p ih => exact ih h
  | call op k ih =>
    intro t ht hi
    have hc := h t ht hi
    exact ⟨hc.1,fun j hj => hc.2.1 j (hg j hj),ih _ hc.2.2⟩

theorem of_forall {post : Except φ α → σ → Prop} {p : Prog Op Ans ε φ α} {s : σ}
    (h : ∀t,P.rely i s t → P.Inv t → Keeps P i G post p t) : Keeps P i G post p s := by
  induction p generalizing s with
  | ret a => exact fun t ht hi => h t ht hi t (P.refl i t) hi
  | fail e => exact fun t ht hi => h t ht hi t (P.refl i t) hi
  | tell e p ih => exact ih fun t ht hi => h t ht hi
  | call op k => exact fun t ht hi => h t ht hi t (P.refl i t) hi

theorem bind {post : Except φ β → σ → Prop} {p : Prog Op Ans ε φ α} {f : α → Prog Op Ans ε φ β}
    {s : σ} (h : Keeps P i G (fun r t => match r with
      | .ok a => Keeps P i G post (f a) t
      | .error e => post (.error e) t) p s) : Keeps P i G post (p >>= f) s := by
  induction p generalizing s with
  | ret a =>
    rw [Prog.ret_bind]
    exact of_forall fun t ht hi => h t ht hi
  | fail e => exact h
  | tell e p ih => exact ih h
  | call op k ih =>
    intro t ht hi
    have hc := h t ht hi
    exact ⟨hc.1,hc.2.1,ih _ hc.2.2⟩

theorem seq {p : Prog Op Ans ε φ α} {f : α → Prog Op Ans ε φ β} {mid : α → σ → Prop}
    {post : β → σ → Prop} {s : σ} (h : Keeps P i G (OnOk mid) p s)
    (hf : ∀a t,P.Inv t → mid a t → Keeps P i G (OnOk post) (f a) t) :
    Keeps P i G (OnOk post) (p >>= f) s := by
  apply bind
  apply h.imp
  intro r t hi hr
  cases r with
  | ok a => exact hf a t hi hr
  | error e => trivial

theorem tracked {post : Except φ α → σ → Prop} {p : Prog Op Ans ε φ α} {s₀ s : σ} (hG : G i)
    (h : Keeps P i G post p s) (hs : P.rely i s₀ s) :
    Keeps P i G (fun r t => post r t ∧ P.rely i s₀ t) p s := by
  induction p generalizing s with
  | ret a => exact fun t ht hi => ⟨h t ht hi,P.trans i s₀ s t hs ht⟩
  | fail e => exact fun t ht hi => ⟨h t ht hi,P.trans i s₀ s t hs ht⟩
  | tell e p ih => exact ih h hs
  | call op k ih =>
    intro t ht hi
    have hc := h t ht hi
    have hn := P.trans i s₀ t _ (P.trans i s₀ s t hs ht) (hc.2.1 i hG)
    exact ⟨hc.1,hc.2.1,ih _ hc.2.2 hn⟩

theorem settled {post : Except φ α → σ → Prop} {p : Prog Op Ans ε φ α} {s : σ}
    (h : Keeps P i G post p s) : Keeps P i G (fun r t => ∃a,r=.ok a ∧ post a t) p.settled s := by
  induction p generalizing s with
  | ret a => exact fun t ht hi => ⟨_,rfl,h t ht hi⟩
  | fail e => exact fun t ht hi => ⟨_,rfl,h t ht hi⟩
  | tell e p ih => exact ih h
  | call op k ih =>
    intro t ht hi
    have hc := h t ht hi
    exact ⟨hc.1,hc.2.1,ih _ hc.2.2⟩

def Each (Q : Nat → Except φ α → σ → Prop) (r : Except φ (List (Except φ α))) (t : σ) : Prop :=
  ∃rs,r=.ok rs ∧ ∀j a,rs[j]?=some a → Q j a t

theorem inTurn {Q : Nat → Except φ α → σ → Prop} {ps : List (Prog Op Ans ε φ α)} {s : σ} (hG : G i)
    (hQ : ∀j r s t,P.rely i s t → P.Inv t → Q j r s → Q j r t)
    (h : ∀j p,ps[j]?=some p → Keeps P i G (Q j) p s) : Keeps P i G (Each Q) (Prog.inTurn ps) s := by
  induction ps generalizing Q s with
  | nil => exact fun t ht hi => ⟨[],rfl,fun j r hr => by simp at hr⟩
  | cons p ps ih =>
    have hp := (h 0 p rfl).settled.tracked hG (P.refl i s)
    apply bind
    apply hp.imp
    intro r t hi hr
    obtain ⟨⟨a,rfl,ha⟩,hst⟩ := hr
    have hrest := (ih (fun j => hQ (j+1)) fun j q hq => (h (j+1) q hq).mono hst).tracked hG
      (P.refl i t)
    apply bind
    apply hrest.imp
    intro r u hiu hr
    obtain ⟨⟨rs,rfl,hrs⟩,htu⟩ := hr
    intro w hw hiw
    refine ⟨a::rs,rfl,fun j b hb => ?_⟩
    cases j with
    | zero =>
      obtain rfl := Option.some.inj hb
      exact hQ 0 a t w (P.trans i t u w htu hw) hiw ha
    | succ j => exact hQ (j+1) b u w hw hiw (hrs j b hb)

theorem allSettled {Q : Nat → Except φ α → σ → Prop} (is : List Nat) {ps : List (Prog Op Ans ε φ α)}
    {s : σ} (hG : G i) (hQ : ∀j r s t,P.rely i s t → P.Inv t → Q j r s → Q j r t)
    (h : ∀j p,ps[j]?=some p → Keeps P i G (Q j) p s) : Keeps P i G (Each Q) (Prog.allSettled is ps)
    s := by
  induction is generalizing ps s with
  | nil => exact inTurn hG hQ h
  | cons n is ih =>
    rw [Prog.allSettled]
    cases hn : ps[n]? with
    | none => exact ih h
    | some p =>
      have hlt : n < ps.length := (List.getElem?_eq_some_iff.mp hn).1
      have hset : ∀{q t},P.rely i s t → Keeps P i G (Q n) q t →
          ∀j p,(ps.set n q)[j]?=some p → Keeps P i G (Q j) p t := by
        intro q t ht hq j p hp
        by_cases hj : n=j
        · subst hj
          rw [List.getElem?_set_self hlt] at hp
          exact Option.some.inj hp ▸ hq
        · rw [List.getElem?_set_ne hj] at hp
          exact (h j p hp).mono ht
      cases p with
      | ret a => exact ih h
      | fail e => exact ih h
      | tell e p => exact ih (hset (P.refl i s) (h n (.tell e p) hn))
      | call op k =>
        intro t ht hi
        have hc := h n _ hn t ht hi
        have hst := P.trans i s t _ ht (hc.2.1 i hG)
        exact ⟨hc.1,hc.2.1,ih (hset hst hc.2.2)⟩

end Keeps

/-- The threads under way, each with its place in the list as its number. -/
structure Pool (Op : Type) (Ans : Op → Type) (ε φ α σ : Type) where
  store : σ
  threads : List (Prog Op Ans ε φ α)

/-- Any thread may move next, and new ones may start as `start` allows. A thread that has been
cut off is one that never moves again. -/
inductive Pool.Step (handle : Nat → (op : Op) → σ → Ans op × σ)
    (start : σ → Prog Op Ans ε φ α → Prop) :
    Pool Op Ans ε φ α σ → Pool Op Ans ε φ α σ → Prop
  | spawn {s : σ} {ts : List (Prog Op Ans ε φ α)} {p : Prog Op Ans ε φ α} (h : start s p) :
    Step handle start ⟨s,ts⟩ ⟨s,ts++[p]⟩
  | tell {s : σ} {ts : List (Prog Op Ans ε φ α)} {i : Nat} {e : ε} {p : Prog Op Ans ε φ α}
    (h : ts[i]?=some (.tell e p)) : Step handle start ⟨s,ts⟩ ⟨s,ts.set i p⟩
  | call {s : σ} {ts : List (Prog Op Ans ε φ α)} {i : Nat} {op : Op}
    {k : Ans op → Prog Op Ans ε φ α} (h : ts[i]?=some (.call op k)) :
    Step handle start ⟨s,ts⟩ ⟨(handle i op s).2,ts.set i (k (handle i op s).1)⟩

/-- The pools that any number of threads can reach in any order of steps. -/
def Pool.Reachable (handle : Nat → (op : Op) → σ → Ans op × σ)
    (start : σ → Prog Op Ans ε φ α → Prop) (s : σ) : Pool Op Ans ε φ α σ → Prop :=
  Relation.ReflTransGen (Pool.Step handle start) ⟨s,[]⟩

/-- The store keeps its invariant and every thread keeps the protocol from here on. -/
structure Pool.Kept (P : Protocol Op Ans σ) (post : Except φ α → σ → Prop)
    (w : Pool Op Ans ε φ α σ) : Prop where
  inv : P.Inv w.store
  threads : ∀i p,w.threads[i]?=some p → Keeps P i (·≠i) post p w.store

theorem Pool.Kept.moved {post : Except φ α → σ → Prop} {s t : σ} {ts : List (Prog Op Ans ε φ α)}
    {n : Nat} {q : Prog Op Ans ε φ α} (h : (⟨s,ts⟩ : Pool Op Ans ε φ α σ).Kept P post)
    (hi : P.Inv t) (hr : ∀j,j≠n → P.rely j s t) (hq : Keeps P n (·≠n) post q t) :
    (⟨t,ts.set n q⟩ : Pool Op Ans ε φ α σ).Kept P post := by
  refine ⟨hi,fun j p hp => ?_⟩
  by_cases hj : n=j
  · subst hj
    have hlt := (List.getElem?_eq_some_iff.mp hp).1
    rw [List.length_set] at hlt
    rw [List.getElem?_set_self hlt] at hp
    exact Option.some.inj hp ▸ hq
  · rw [List.getElem?_set_ne hj] at hp
    exact (h.threads j p hp).mono (hr j (Ne.symm hj))

theorem Pool.Kept.step {post : Except φ α → σ → Prop} {start : σ → Prog Op Ans ε φ α → Prop}
    {v w : Pool Op Ans ε φ α σ} (h : v.Kept P post)
    (hstart : ∀s i p,P.Inv s → start s p → Keeps P i (·≠i) post p s)
    (hs : Pool.Step P.handle start v w) : w.Kept P post := by
  cases hs with
  | @spawn s ts p hst =>
    refine ⟨h.inv,fun j q hq => ?_⟩
    rw [List.getElem?_append] at hq
    split at hq
    · exact h.threads j q hq
    · rw [List.getElem?_singleton] at hq
      split at hq
      · exact Option.some.inj hq ▸ hstart s j p h.inv hst
      · cases hq
  | @tell s ts n e p hn => exact h.moved h.inv (fun j _ => P.refl j s) (h.threads n (.tell e p) hn)
  | @call s ts n op k hn =>
    have hc := h.threads n _ hn s (P.refl n s) h.inv
    exact h.moved hc.1 hc.2.1 hc.2.2

theorem Pool.Reachable.kept {post : Except φ α → σ → Prop} {start : σ → Prog Op Ans ε φ α → Prop}
    {s : σ} {w : Pool Op Ans ε φ α σ} (h : Pool.Reachable P.handle start s w) (hi : P.Inv s)
    (hstart : ∀s i p,P.Inv s → start s p → Keeps P i (·≠i) post p s) : w.Kept P post := by
  induction h with
  | refl => exact ⟨hi,fun i p hp => by simp at hp⟩
  | tail _ hs ih => exact ih.step hstart hs

theorem Pool.steps_kept {handle : Nat → (op : Op) → σ → Ans op × σ}
    {start : σ → Prog Op Ans ε φ α → Prop} {ok : Op → Prop} {Inv : σ → Prop} {R : σ → σ → Prop}
    (hstart : ∀s p,start s p → p.Only ok) (hrefl : ∀s,R s s) (htrans : ∀s t u,R s t → R t u → R s u)
    (hcall : ∀i op s,ok op → Inv s → Inv (handle i op s).2 ∧ R s (handle i op s).2)
    {v w : Pool Op Ans ε φ α σ} (h : Relation.ReflTransGen (Pool.Step handle start) v w)
    (hv : Inv v.store) (ht : ∀p∈v.threads,p.Only ok) : Inv w.store ∧ R v.store w.store ∧
    ∀p∈w.threads,p.Only ok := by
  induction h with
  | refl => exact ⟨hv,hrefl _,ht⟩
  | @tail u w _ hs ih =>
    obtain ⟨hi,hr,hts⟩ := ih
    have hset : ∀(ts : List (Prog Op Ans ε φ α)) i q,(∀p∈ts,p.Only ok) → q.Only ok →
        ∀p∈ts.set i q,p.Only ok := by
      intro ts i q hall hq p hp
      rcases List.mem_or_eq_of_mem_set hp with hp | rfl
      · exact hall p hp
      · exact hq
    cases hs with
    | @spawn s ts p hst =>
      refine ⟨hi,hr,fun q hq => ?_⟩
      rcases List.mem_append.mp hq with hq | hq
      · exact hts q hq
      · exact List.mem_singleton.mp hq ▸ hstart s p hst
    | @tell s ts i e p hp =>
      exact ⟨hi,hr,hset ts i p hts (hts (.tell e p) (List.mem_of_getElem? hp))⟩
    | @call s ts i op k hp =>
      have hok : ok op ∧ ∀a,(k a).Only ok := hts (.call op k) (List.mem_of_getElem? hp)
      have hc := hcall i op s hok.1 hi
      exact ⟨hc.1,htrans _ _ _ hr hc.2,hset ts i _ hts (hok.2 _)⟩

/-- The next move of thread `i`, if it has one. -/
def Pool.move (handle : Nat → (op : Op) → σ → Ans op × σ) (w : Pool Op Ans ε φ α σ) (i : Nat) :
    Pool Op Ans ε φ α σ :=
  match w.threads[i]? with
  | some (.tell _ p) => ⟨w.store,w.threads.set i p⟩
  | some (.call op k) => ⟨(handle i op w.store).2,w.threads.set i (k (handle i op w.store).1)⟩
  | _ => w

/-- Threads that start together and then move in a given order. -/
def Pool.play (handle : Nat → (op : Op) → σ → Ans op × σ) (s : σ)
    (ts : List (Prog Op Ans ε φ α)) (order : List Nat) : Pool Op Ans ε φ α σ :=
  order.foldl (Pool.move handle) ⟨s,ts⟩

theorem Pool.reachable_move {handle : Nat → (op : Op) → σ → Ans op × σ}
    {start : σ → Prog Op Ans ε φ α → Prop} {s : σ} {w : Pool Op Ans ε φ α σ}
    (h : Pool.Reachable handle start s w) (i : Nat) :
    Pool.Reachable handle start s (w.move handle i) := by
  rw [Pool.move]
  cases hi : w.threads[i]? with
  | none => exact h
  | some p =>
    cases p with
    | ret a => exact h
    | fail e => exact h
    | tell e p => exact h.tail (.tell hi)
    | call op k => exact h.tail (.call hi)

theorem Pool.reachable_play {handle : Nat → (op : Op) → σ → Ans op × σ}
    {start : σ → Prog Op Ans ε φ α → Prop} {s : σ} {ts : List (Prog Op Ans ε φ α)}
    (hts : ∀p∈ts,start s p) (order : List Nat) :
    Pool.Reachable handle start s (Pool.play handle s ts order) := by
  have hstart : ∀us,(∀p∈us,start s p) → Pool.Reachable handle start s ⟨s,us⟩ := by
    intro us
    induction us using List.reverseRecOn with
    | nil => exact fun _ => .refl
    | append_singleton us p ih =>
      intro hus
      exact (ih fun q hq => hus q (List.mem_append_left _ hq)).tail (.spawn (hus p (by simp)))
  have hmoves : ∀(is : List Nat) w,Pool.Reachable handle start s w →
      Pool.Reachable handle start s (is.foldl (Pool.move handle) w) := by
    intro is
    induction is with
    | nil => exact fun w hw => hw
    | cons i is ih => exact fun w hw => ih _ (reachable_move hw i)
  exact hmoves order _ (hstart ts hts)

end CardKeepr.Lib
