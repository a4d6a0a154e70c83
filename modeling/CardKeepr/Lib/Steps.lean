import Mathlib.Order.Basic

namespace CardKeepr.Lib

variable {σ ε α β γ : Type}

/-- Stateful code that returns or fails, each with the state it leaves; `none` while it still runs
when its fuel is used up. -/
def Steps (σ ε α : Type) : Type := σ → Option (Except ε α × σ)

namespace Steps

def ret (a : α) : Steps σ ε α := fun s => some (.ok a,s)

def fail (e : ε) : Steps σ ε α := fun s => some (.error e,s)

def running : Steps σ ε α := fun _ => none

def andThen (p : Steps σ ε α) (f : α → Steps σ ε β) : Steps σ ε β := fun s =>
  match p s with
  | none => none
  | some (.error e,s') => some (.error e,s')
  | some (.ok a,s') => f a s'

instance : Monad (Steps σ ε) where
  pure := ret
  bind := andThen

def get : Steps σ ε σ := fun s => some (.ok s,s)

def modify (f : σ → σ) : Steps σ ε Unit := fun s => some (.ok (),f s)

/-- Fail with `e` where the check is not met. -/
def check (ok : Bool) (e : ε) : Steps σ ε Unit := if ok then ret () else fail e

def when (c : Prop) [Decidable c] (p : Steps σ ε Unit) : Steps σ ε Unit := if c then p else ret ()

/-- A value that is already computed, or its failure. -/
def lift : Except ε α → Steps σ ε α
  | .ok a => ret a
  | .error e => fail e

/-- A loop whose body goes on with `inl` and leaves with `inr`. -/
def loop : Nat → (α → Steps σ ε (α ⊕ β)) → α → Steps σ ε β
  | 0,_,_ => running
  | fuel+1,body,a => body a >>= fun r => match r with
    | .inl a => loop fuel body a
    | .inr b => ret b

/-- The code ends from `s`; it returns with `Q` or fails with `E`. -/
def Ends (p : Steps σ ε α) (s : σ) (Q : α → σ → Prop) (E : ε → σ → Prop) : Prop :=
  match p s with
  | none => False
  | some (.ok a,s') => Q a s'
  | some (.error e,s') => E e s'

variable {p : Steps σ ε α} {s : σ} {Q Q' : α → σ → Prop} {E E' : ε → σ → Prop}

theorem Ends.mono (h : p.Ends s Q E) (hQ : ∀a s,Q a s → Q' a s) (hE : ∀e s,E e s → E' e s) :
    p.Ends s Q' E' := by
  unfold Ends at h ⊢
  cases hp : p s with
  | none =>
    rw [hp] at h
    exact h
  | some r =>
    obtain ⟨r,s'⟩ := r
    rw [hp] at h
    cases r with
    | ok a => exact hQ a s' h
    | error e => exact hE e s' h

theorem Ends.post (h : p.Ends s Q E) (hQ : ∀a s,Q a s → Q' a s) : p.Ends s Q' E :=
  h.mono hQ fun _ _ he => he

theorem Ends.bind {f : α → Steps σ ε β} {R : β → σ → Prop}
    (h : p.Ends s (fun a s => (f a).Ends s R E) E) : (p >>= f).Ends s R E := by
  unfold Ends at h ⊢
  show match andThen p f s with | none => False | some (.ok a,s') => R a s' | some (.error e,s') => E e s'
  unfold andThen
  cases hp : p s with
  | none =>
    rw [hp] at h
    exact h
  | some r =>
    obtain ⟨r,s'⟩ := r
    rw [hp] at h
    cases r with
    | ok a => exact h
    | error e => exact h

theorem ends_pure {a : α} (h : Q a s) : (pure a : Steps σ ε α).Ends s Q E := h

theorem ends_ret {a : α} (h : Q a s) : (ret a : Steps σ ε α).Ends s Q E := h

theorem ends_fail {e : ε} (h : E e s) : (fail e : Steps σ ε α).Ends s Q E := h

theorem ends_get {Q : σ → σ → Prop} (h : Q s s) : (get : Steps σ ε σ).Ends s Q E := h

theorem ends_modify {f : σ → σ} {Q : Unit → σ → Prop} (h : Q () (f s)) :
    (modify f : Steps σ ε Unit).Ends s Q E := h

theorem ends_check {ok : Bool} {e : ε} {Q : Unit → σ → Prop} (hok : ok=true → Q () s)
    (hfail : ok=false → E e s) : (check ok e : Steps σ ε Unit).Ends s Q E := by
  cases ok with
  | true => exact hok rfl
  | false => exact hfail rfl

theorem ends_lift {r : Except ε α} (hok : ∀a,r=.ok a → Q a s) (hfail : ∀e,r=.error e → E e s) :
    (lift r : Steps σ ε α).Ends s Q E := by
  cases r with
  | ok a => exact hok a rfl
  | error e => exact hfail e rfl

theorem ends_ite {c : Prop} [Decidable c] {q : Steps σ ε α} (ht : c → p.Ends s Q E)
    (hf : ¬c → q.Ends s Q E) : (if c then p else q).Ends s Q E := by
  split
  · exact ht (by assumption)
  · exact hf (by assumption)

theorem ends_when {c : Prop} [Decidable c] {p : Steps σ ε Unit} {Q : Unit → σ → Prop}
    (ht : c → p.Ends s Q E) (hf : ¬c → Q () s) : (when c p).Ends s Q E := ends_ite ht hf

theorem ends_loop (I : α → σ → Prop) (left : α → σ → Nat) {body : α → Steps σ ε (α ⊕ β)}
    {R : β → σ → Prop}
    (hbody : ∀a s,I a s → (body a).Ends s (fun r s' => match r with
      | .inl a' => I a' s' ∧ left a' s' < left a s
      | .inr b => R b s') E)
    {fuel : Nat} {a : α} {s : σ} (hI : I a s) (hfuel : left a s < fuel) :
    (loop fuel body a).Ends s R E := by
  induction fuel generalizing a s with
  | zero => omega
  | succ fuel ih =>
    refine Ends.bind ((hbody a s hI).post fun r s' hr => ?_)
    cases r with
    | inl a' => exact ih hr.1 (by omega)
    | inr b => exact hr

theorem ends_loop_witness {ω : Type} (I : ω → α → σ → Prop) (left : ω → Nat)
    {body : α → Steps σ ε (α ⊕ β)} {R : β → σ → Prop} {E : ε → σ → Prop}
    (hbody : ∀c a s,I c a s → (body a).Ends s (fun r s' => match r with
      | .inl a' => ∃c',I c' a' s' ∧ left c' < left c
      | .inr b => R b s') E)
    {fuel : Nat} {c : ω} {a : α} {s : σ} (hI : I c a s) (hfuel : left c < fuel) :
    (loop fuel body a).Ends s R E := by
  induction fuel generalizing c a s with
  | zero => omega
  | succ fuel ih =>
    refine Ends.bind ((hbody c a s hI).post fun r s' hr => ?_)
    cases r with
    | inl a' =>
      obtain ⟨c',hI',hlt⟩ := hr
      exact ih hI' (by omega)
    | inr b => exact hr

theorem Ends.returned (h : p.Ends s Q E) {a : α} {s' : σ} (hp : p s=some (.ok a,s')) : Q a s' := by
  unfold Ends at h
  rw [hp] at h
  exact h

theorem ends_of_eq {a : α} {s' : σ} (hp : p s=some (.ok a,s')) (h : Q a s') : p.Ends s Q E := by
  unfold Ends
  rw [hp]
  exact h

theorem Ends.succeeds (h : p.Ends s Q fun _ _ => False) : ∃a s',p s=some (.ok a,s') ∧ Q a s' := by
  unfold Ends at h
  cases hp : p s with
  | none =>
    rw [hp] at h
    exact h.elim
  | some r =>
    obtain ⟨r,s'⟩ := r
    rw [hp] at h
    cases r with
    | ok a => exact ⟨a,s',rfl,h⟩
    | error e => exact h.elim

theorem Ends.failed (h : p.Ends s Q E) {e : ε} {s' : σ} (hp : p s=some (.error e,s')) : E e s' := by
  unfold Ends at h
  rw [hp] at h
  exact h

def Gives (p : Steps σ ε α) (s : σ) (Q : α → σ → Prop) : Prop := ∀a s',p s=some (.ok a,s') → Q a s'

theorem Ends.gives (h : p.Ends s Q E) : p.Gives s Q := fun _ _ => h.returned

theorem Gives.mono (h : p.Gives s Q) (hQ : ∀a s,Q a s → Q' a s) : p.Gives s Q' := fun a s' hp =>
  hQ a s' (h a s' hp)

theorem bind_ok {f : α → Steps σ ε β} {a : α} {s' : σ} (h : p s=some (.ok a,s')) :
    (p >>= f) s=f a s' := by
  show andThen p f s=_
  rw [andThen,h]

theorem bind_returned {f : α → Steps σ ε β} {b : β} {s' : σ} (h : (p >>= f) s=some (.ok b,s')) :
    ∃a s₁,p s=some (.ok a,s₁) ∧ f a s₁=some (.ok b,s') := by
  have h : andThen p f s=some (.ok b,s') := h
  unfold andThen at h
  cases hp : p s with
  | none =>
    rw [hp] at h
    cases h
  | some r =>
    obtain ⟨r,s₁⟩ := r
    rw [hp] at h
    cases r with
    | ok a => exact ⟨a,s₁,rfl,h⟩
    | error e => cases h

theorem Gives.bind {f : α → Steps σ ε β} {R : β → σ → Prop}
    (h : p.Gives s fun a s => (f a).Gives s R) : (p >>= f).Gives s R := by
  intro b s' hb
  obtain ⟨a,s₁,hp,hf⟩ := bind_returned hb
  exact h a s₁ hp b s' hf

theorem gives_pure {a : α} (h : Q a s) : (pure a : Steps σ ε α).Gives s Q := by
  intro b s' hb
  cases hb
  exact h

theorem gives_get {Q : σ → σ → Prop} (h : Q s s) : (get : Steps σ ε σ).Gives s Q := gives_pure h

theorem gives_modify {f : σ → σ} {Q : Unit → σ → Prop} (h : Q () (f s)) :
    (modify f : Steps σ ε Unit).Gives s Q := by
  intro b s' hb
  cases hb
  exact h

theorem gives_fail {e : ε} : (fail e : Steps σ ε α).Gives s Q := by
  intro b s' hb
  cases hb

theorem gives_check {ok : Bool} {e : ε} {Q : Unit → σ → Prop} (h : ok=true → Q () s) :
    (check ok e : Steps σ ε Unit).Gives s Q := by
  cases ok with
  | true => exact gives_pure (h rfl)
  | false => exact gives_fail

theorem gives_ite {c : Prop} [Decidable c] {q : Steps σ ε α} (ht : c → p.Gives s Q)
    (hf : ¬c → q.Gives s Q) : (if c then p else q).Gives s Q := by
  split
  · exact ht (by assumption)
  · exact hf (by assumption)

theorem gives_when {c : Prop} [Decidable c] {p : Steps σ ε Unit} {Q : Unit → σ → Prop}
    (ht : c → p.Gives s Q) (hf : ¬c → Q () s) : (when c p).Gives s Q :=
  gives_ite ht fun h => gives_pure (hf h)

theorem gives_loop (I : α → σ → Prop) {body : α → Steps σ ε (α ⊕ β)} {R : β → σ → Prop}
    (hbody : ∀a s,I a s → (body a).Gives s fun r s' => match r with
      | .inl a' => I a' s'
      | .inr b => R b s')
    (fuel : Nat) {a : α} {s : σ} (hI : I a s) : (loop fuel body a).Gives s R := by
  induction fuel generalizing a s with
  | zero =>
    intro b s' hb
    cases hb
  | succ fuel ih =>
    refine Gives.bind ((hbody a s hI).mono fun r s' hr => ?_)
    cases r with
    | inl a' => exact ih hr
    | inr b => exact gives_pure hr

end Steps

end CardKeepr.Lib
