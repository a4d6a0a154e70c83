import CardKeepr.Lib.Threads

namespace CardKeepr.Lib

variable {Op : Type} {Ans : Op → Type} {ε φ α β σ : Type}

/-- A call with its answer. -/
structure Made (Op : Type) (Ans : Op → Type) where
  op : Op
  answer : Ans op

/-- The calls of all threads in the order in which they were made. -/
abbrev Journal (Op : Type) (Ans : Op → Type) := List (Nat × Made Op Ans)

/-- What thread `i` has called so far. -/
def Journal.history (l : Journal Op Ans) (i : Nat) : List (Made Op Ans) :=
  (l.filter fun m => decide (m.1=i)).map Prod.snd

theorem history_self (l : Journal Op Ans) (i : Nat) (m : Made Op Ans) :
    Journal.history (l++[(i,m)]) i=l.history i++[m] := by simp [Journal.history]

theorem history_ne (l : Journal Op Ans) {i j : Nat} (h : i≠j) (m : Made Op Ans) :
    Journal.history (l++[(i,m)]) j=l.history j := by simp [Journal.history,h]

/-- The store with the journal beside it. -/
def journaled (handle : Nat → (op : Op) → σ → Ans op × σ) (i : Nat) (op : Op)
    (s : σ × Journal Op Ans) : Ans op × (σ × Journal Op Ans) :=
  ((handle i op s.1).1,(handle i op s.1).2,s.2++[(i,⟨op,(handle i op s.1).1⟩)])

def Pool.plain (w : Pool Op Ans ε φ α (σ × Journal Op Ans)) : Pool Op Ans ε φ α σ :=
  ⟨w.store.1,w.threads⟩

def Pool.history (w : Pool Op Ans ε φ α (σ × Journal Op Ans)) (i : Nat) : List (Made Op Ans) :=
  w.store.2.history i

theorem Pool.Step.plain {handle : Nat → (op : Op) → σ → Ans op × σ}
    {start : σ → Prog Op Ans ε φ α → Prop} {v w : Pool Op Ans ε φ α (σ × Journal Op Ans)}
    (h : Pool.Step (journaled handle) (fun s => start s.1) v w) :
    Pool.Step handle start v.plain w.plain := by
  cases h with
  | spawn hst => exact .spawn hst
  | tell ht => exact .tell ht
  | call hc => exact .call hc

theorem Pool.Reachable.plain {handle : Nat → (op : Op) → σ → Ans op × σ}
    {start : σ → Prog Op Ans ε φ α → Prop} {s : σ} {w : Pool Op Ans ε φ α (σ × Journal Op Ans)}
    (h : Pool.Reachable (journaled handle) (fun s => start s.1) (s,[]) w) : Pool.Reachable handle
    start s w.plain := by
  induction h with
  | refl => exact .refl
  | tail _ hs ih => exact ih.tail hs.plain

/-- Every call fits the calls made before it, and the result fits all of them. -/
def Prog.Traced (ok : List (Made Op Ans) → Op → Prop)
    (post : Except φ α → List (Made Op Ans) → Prop) :
    Prog Op Ans ε φ α → List (Made Op Ans) → Prop
  | .ret a,l => post (.ok a) l
  | .fail e,l => post (.error e) l
  | .tell _ p,l => p.Traced ok post l
  | .call op k,l => ok l op ∧ ∀a,(k a).Traced ok post (l++[⟨op,a⟩])

namespace Prog.Traced

variable {ok : List (Made Op Ans) → Op → Prop} {l : List (Made Op Ans)}

theorem imp {post post' : Except φ α → List (Made Op Ans) → Prop} {p : Prog Op Ans ε φ α}
    (h : p.Traced ok post l) (hp : ∀r l,post r l → post' r l) : p.Traced ok post' l := by
  induction p generalizing l with
  | ret a => exact hp _ l h
  | fail e => exact hp _ l h
  | tell e p ih => exact ih h
  | call op k ih => exact ⟨h.1,fun a => ih a (h.2 a)⟩

theorem bind {post : Except φ β → List (Made Op Ans) → Prop} {p : Prog Op Ans ε φ α}
    {f : α → Prog Op Ans ε φ β} (h : p.Traced ok (fun r l => match r with
      | .ok a => (f a).Traced ok post l
      | .error e => post (.error e) l) l) : (p >>= f).Traced ok post l := by
  induction p generalizing l with
  | ret a => exact h
  | fail e => exact h
  | tell e p ih => exact ih h
  | call op k ih => exact ⟨h.1,fun a => ih a (h.2 a)⟩

theorem settled {post : Except φ α → List (Made Op Ans) → Prop} {p : Prog Op Ans ε φ α}
    (h : p.Traced ok post l) : p.settled.Traced ok (fun r l => ∃a,r=.ok a ∧ post a l) l := by
  induction p generalizing l with
  | ret a => exact ⟨_,rfl,h⟩
  | fail e => exact ⟨_,rfl,h⟩
  | tell e p ih => exact ih h
  | call op k ih => exact ⟨h.1,fun a => ih a (h.2 a)⟩

theorem of_only {kind : Op → Prop} {I : List (Made Op Ans) → Prop} {p : Prog Op Ans ε φ α}
    (h : p.Only kind) (hok : ∀l op,I l → kind op → ok l op)
    (hI : ∀l op a,I l → kind op → I (l++[⟨op,a⟩])) (hl : I l) :
    p.Traced ok (fun _ l' => I l' ∧ ∀m∈l,m∈l') l := by
  induction p generalizing l with
  | ret a => exact ⟨hl,fun _ hm => hm⟩
  | fail e => exact ⟨hl,fun _ hm => hm⟩
  | tell e p ih => exact ih h hl
  | call op k ih =>
    refine ⟨hok l op hl h.1,fun a => (ih a (h.2 a) (hI l op a hl h.1)).imp fun r l' hr => ?_⟩
    exact ⟨hr.1,fun m hm => hr.2 m (List.mem_append_left _ hm)⟩

end Prog.Traced

theorem Pool.Reachable.traced {handle : Nat → (op : Op) → σ → Ans op × σ}
    {start : σ × Journal Op Ans → Prog Op Ans ε φ α → Prop}
    {ok : List (Made Op Ans) → Op → Prop} {post : Except φ α → List (Made Op Ans) → Prop} {s : σ}
    {w : Pool Op Ans ε φ α (σ × Journal Op Ans)}
    (h : Pool.Reachable (journaled handle) start (s,[]) w)
    (hstart : ∀s (p : Prog Op Ans ε φ α),start s p → p.Traced ok post []) :
    (∀i (p : Prog Op Ans ε φ α),w.threads[i]?=some p → p.Traced ok post (w.history i)) ∧
      ∀i,w.threads.length ≤ i → w.history i=[] := by
  induction h with
  | refl => exact ⟨fun i p hp => by simp at hp,fun _ _ => rfl⟩
  | @tail v w _ hs ih =>
    obtain ⟨iht,ihn⟩ := ih
    cases hs with
    | @spawn s ts p hst =>
      refine ⟨fun j q hq => ?_,fun j hj => ihn j ?_⟩
      · rw [List.getElem?_append] at hq
        split at hq
        · exact iht j q hq
        · rename_i hlt
          rw [List.getElem?_singleton] at hq
          split at hq
          · have hnew : Pool.history ⟨s,ts++[p]⟩ j=[] := ihn j (Nat.le_of_not_lt hlt)
            rw [hnew]
            exact Option.some.inj hq ▸ hstart s p hst
          · cases hq
      · have hlen : ts.length+1 ≤ j := by simpa using hj
        exact Nat.le_of_succ_le hlen
    | @tell s ts n e p hn =>
      refine ⟨fun j q hq => ?_,fun j hj => ihn j (by simpa using hj)⟩
      by_cases hj : n=j
      · subst hj
        have hlt := (List.getElem?_eq_some_iff.mp hn).1
        rw [List.getElem?_set_self hlt] at hq
        exact Option.some.inj hq ▸ iht n (.tell e p) hn
      · rw [List.getElem?_set_ne hj] at hq
        exact iht j q hq
    | @call s ts n op k hn =>
      have hlt : n < ts.length := (List.getElem?_eq_some_iff.mp hn).1
      refine ⟨fun j q hq => ?_,fun j hj => ?_⟩
      · by_cases hj : n=j
        · subst hj
          rw [List.getElem?_set_self hlt] at hq
          have hk := (iht n (.call op k) hn).2 (handle n op s.1).1
          rw [show Pool.history ⟨(journaled handle n op s).2,ts.set n _⟩ n=_ from
            history_self s.2 n ⟨op,(handle n op s.1).1⟩]
          exact Option.some.inj hq ▸ hk
        · rw [List.getElem?_set_ne hj] at hq
          rw [show Pool.history ⟨(journaled handle n op s).2,ts.set n _⟩ j=_ from
            history_ne s.2 hj ⟨op,(handle n op s.1).1⟩]
          exact iht j q hq
      · have hlen : ts.length ≤ j := by simpa using hj
        have hne : n≠j := by omega
        rw [show Pool.history ⟨(journaled handle n op s).2,ts.set n _⟩ j=_ from
          history_ne s.2 hne ⟨op,(handle n op s.1).1⟩]
        exact ihn j hlen

end CardKeepr.Lib
