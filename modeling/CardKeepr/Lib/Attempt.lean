import CardKeepr.Lib.Steps

namespace CardKeepr.Lib

/-- Why an attempt does not come to its end. -/
inductive Stopped (ε : Type) where
  | cutOff
  | continuation (ordinal : Nat)
  | failed (error : ε)

/-- What an attempt works on: what is retained, its variables, and how many writes it makes before
it is cut off. -/
structure Attempt (δ ν : Type) where
  retained : δ
  vars : ν
  writes : Option Nat

variable {σ δ ν ε η α β : Type}

namespace Steps

/-- `for (const a of as) body(a)` -/
def each (body : α → Steps σ ε Unit) : List α → Steps σ ε Unit
  | [] => ret ()
  | a::as => body a >>= fun _ => each body as

variable {body : α → Steps σ ε Unit} {s : σ} {E : ε → σ → Prop}

theorem ends_each (I : List α → σ → Prop)
    (hbody : ∀a rest s,I (a::rest) s → (body a).Ends s (fun _ s' => I rest s') E) {as : List α}
    (h : I as s) : (each body as).Ends s (fun _ s' => I [] s') E := by
  induction as generalizing s with
  | nil => exact h
  | cons a as ih => exact Ends.bind ((hbody a as s h).post fun _ s' h' => ih h')

end Steps

abbrev Code (δ ν ε α : Type) : Type := Steps (Attempt δ ν) (Stopped ε) α

namespace Code

def vars : Code δ ν ε ν := fun s => some (.ok s.vars,s)

def retained : Code δ ν ε δ := fun s => some (.ok s.retained,s)

def assign (f : ν → ν) : Code δ ν ε Unit := Steps.modify fun s => { s with vars := f s.vars }

def stop (r : Stopped ε) : Code δ ν ε α := Steps.fail r

/-- A write, which may fail. -/
def write (f : δ → Except ε δ) : Code δ ν ε Unit := fun s =>
  if s.writes=some 0 then some (.error .cutOff,s)
  else match f s.retained with
    | .ok d => some (.ok (),⟨d,s.vars,s.writes.map (·-1)⟩)
    | .error e => some (.error (.failed e),s)

variable {s : Attempt δ ν} {E : Stopped ε → Attempt δ ν → Prop}

theorem ends_vars {Q : ν → Attempt δ ν → Prop} (h : Q s.vars s) :
    (vars : Code δ ν ε ν).Ends s Q E := h

theorem ends_retained {Q : δ → Attempt δ ν → Prop} (h : Q s.retained s) :
    (retained : Code δ ν ε δ).Ends s Q E := h

theorem ends_assign {f : ν → ν} {Q : Unit → Attempt δ ν → Prop}
    (h : Q () { s with vars := f s.vars }) : (assign f : Code δ ν ε Unit).Ends s Q E := h

theorem ends_stop {r : Stopped ε} {Q : α → Attempt δ ν → Prop} (h : E r s) :
    (stop r : Code δ ν ε α).Ends s Q E := h

theorem ends_write {f : δ → Except ε δ} {d : δ} {Q : Unit → Attempt δ ν → Prop}
    (hf : f s.retained=.ok d) (hcut : s.writes=some 0 → E .cutOff s)
    (hgo : s.writes≠some 0 → Q () ⟨d,s.vars,s.writes.map (·-1)⟩) :
    (write f : Code δ ν ε Unit).Ends s Q E := by
  unfold Steps.Ends write
  by_cases hw : s.writes=some 0
  · rw [if_pos hw]
    exact hcut hw
  · rw [if_neg hw,hf]
    exact hgo hw

theorem ends_write_failed {f : δ → Except ε δ} {e : ε} {Q : Unit → Attempt δ ν → Prop}
    (hf : f s.retained=.error e) (hcut : s.writes=some 0 → E .cutOff s) (he : E (.failed e) s) :
    (write f : Code δ ν ε Unit).Ends s Q E := by
  unfold Steps.Ends write
  by_cases hw : s.writes=some 0
  · rw [if_pos hw]
    exact hcut hw
  · rw [if_neg hw,hf]
    exact he

end Code

/-- What an attempt came to. -/
inductive Ending (ε α : Type) where
  | completed (a : α)
  | stopped (r : Stopped ε)
  /-- the fuel of a loop is used up -/
  | unended

/-- An attempt from what is retained, with its variables at their start. -/
def performAttempt (p : Code δ ν ε α) (v : ν) (writes : Option Nat) (d : δ) : Ending ε α×δ :=
  match p ⟨d,v,writes⟩ with
  | some (.ok a,s) => (.completed a,s.retained)
  | some (.error r,s) => (.stopped r,s.retained)
  | none => (.unended,d)

theorem Steps.Ends.performAttempt {p : Code δ ν ε α} {v : ν} {writes : Option Nat} {d : δ}
    {Q : α → Attempt δ ν → Prop} {E : Stopped ε → Attempt δ ν → Prop} {P : Ending ε α×δ → Prop}
    (h : p.Ends ⟨d,v,writes⟩ Q E) (hQ : ∀a s,Q a s → P (.completed a,s.retained))
    (hE : ∀r s,E r s → P (.stopped r,s.retained)) : P (Lib.performAttempt p v writes d) := by
  unfold Steps.Ends at h
  unfold Lib.performAttempt
  cases hp : p ⟨d,v,writes⟩ with
  | none =>
    rw [hp] at h
    exact h.elim
  | some x =>
    obtain ⟨r,s⟩ := x
    rw [hp] at h
    cases r with
    | ok a => exact hQ a s h
    | error e => exact hE e s h

/-- One attempt after the other, whatever comes of each. -/
def performAll (attempt : η → δ → Ending ε α×δ) : List η → δ → δ
  | [],d => d
  | t::ts,d => performAll attempt ts (attempt t d).2

theorem performAll_keeps {attempt : η → δ → Ending ε α×δ} {I : δ → Prop}
    (h : ∀t d,I d → I (attempt t d).2) {ts : List η} {d : δ} (hd : I d) :
    I (performAll attempt ts d) := by
  induction ts generalizing d with
  | nil => exact hd
  | cons t ts ih => exact ih (h t d hd)

end CardKeepr.Lib
