import Mathlib.Data.List.Forall2
import Mathlib.Logic.Basic

namespace CardKeepr.Lib

open List

variable {ε α β : Type}

theorem bind_ok {x : Except ε α} {f : α → Except ε β} {b : β}
    (h : (x >>= f)=.ok b) : ∃a,x=.ok a ∧ f a=.ok b := by
  cases x with
  | error e => cases h
  | ok a => exact ⟨a,rfl,h⟩

theorem ok_of_toOption {x : Except ε α} {a : α} (h : x.toOption=some a) : x=.ok a := by
  cases x with
  | error e => cases h
  | ok b =>
    cases h
    rfl

theorem ok_bind (a : α) (f : α → Except ε β) : ((.ok a : Except ε α) >>= f)=f a := rfl

theorem ok_of_isOk {x : Except ε α} (h : x.isOk=true) : ∃a,x=.ok a := by
  cases x with
  | error e => cases h
  | ok a => exact ⟨a,rfl⟩

/-- A check that stops the computation with `e` where it fails. -/
def demand (ok : Bool) (e : ε) : Except ε Unit := if ok then .ok () else .error e

theorem demand_true (e : ε) : demand true e=.ok () := rfl

theorem demand_ok {ok : Bool} {e : ε} {u : Unit} (h : demand ok e=.ok u) : ok=true := by
  rw [demand] at h
  split at h
  · assumption
  · cases h

theorem mapM_ok {f : α → Except ε β} {as : List α} {bs : List β} :
    as.mapM f=.ok bs ↔ List.Forall₂ (fun a b => f a=.ok b) as bs := by
  induction as generalizing bs with
  | nil =>
    rw [mapM_nil,forall₂_nil_left_iff]
    exact ⟨fun h => (Except.ok.inj h).symm,fun h => by rw [h]; rfl⟩
  | cons a as ih =>
    rw [mapM_cons]
    constructor
    · intro h
      obtain ⟨b,hb,h⟩ := bind_ok h
      obtain ⟨cs,hcs,h⟩ := bind_ok h
      obtain rfl := Except.ok.inj h
      exact .cons hb (ih.mp hcs)
    · intro h
      cases h with
      | cons hb hcs =>
        rw [hb,ok_bind,ih.mpr hcs]
        rfl

theorem mapM_ok_mem {f : α → Except ε β} {as : List α} {bs : List β} {b : β}
    (h : as.mapM f=.ok bs) (hb : b∈bs) : ∃a∈as,f a=.ok b := by
  induction mapM_ok.mp h with
  | nil => cases hb
  | cons ha _ ih =>
    rcases mem_cons.mp hb with rfl | hb
    · exact ⟨_,mem_cons_self,ha⟩
    · rename_i hrest _
      obtain ⟨a,hmem,hok⟩ := ih (mapM_ok.mpr hrest) hb
      exact ⟨a,mem_cons_of_mem _ hmem,hok⟩

theorem mapM_mem_ok {f : α → Except ε β} {as : List α} {bs : List β} {a : α}
    (h : as.mapM f=.ok bs) (ha : a∈as) : ∃b∈bs,f a=.ok b := by
  induction mapM_ok.mp h with
  | nil => cases ha
  | cons hb hrest ih =>
    obtain rfl | ha := mem_cons.mp ha
    · exact ⟨_,mem_cons_self,hb⟩
    · obtain ⟨b,hmem,hok⟩ := ih (mapM_ok.mpr hrest) ha
      exact ⟨b,mem_cons_of_mem _ hmem,hok⟩

theorem forM_ok {f : α → Except ε Unit} {as : List α} : as.forM f=.ok () ↔ ∀a∈as,f a=.ok () := by
  induction as with
  | nil => exact ⟨fun _ _ h => (not_mem_nil h).elim,fun _ => rfl⟩
  | cons a as ih =>
    rw [forall_mem_cons,← ih]
    change (f a >>= fun _ => as.forM f)=_ ↔ _
    constructor
    · intro h
      obtain ⟨u,hu,h⟩ := bind_ok h
      exact ⟨hu,h⟩
    · rintro ⟨ha,has⟩
      rw [ha,ok_bind,has]

theorem mapM_some {f : α → Option β} {as : List α} {bs : List β} :
    as.mapM f=some bs ↔ List.Forall₂ (fun a b => f a=some b) as bs := by
  induction as generalizing bs with
  | nil =>
    rw [mapM_nil,forall₂_nil_left_iff]
    exact ⟨fun h => (Option.some.inj h).symm,fun h => by rw [h]; rfl⟩
  | cons a as ih =>
    rw [mapM_cons]
    constructor
    · intro h
      obtain ⟨b,hb,h⟩ := Option.bind_eq_some_iff.mp h
      obtain ⟨cs,hcs,h⟩ := Option.bind_eq_some_iff.mp h
      obtain rfl := Option.some.inj h
      exact .cons hb (ih.mp hcs)
    · intro h
      cases h with
      | cons hb hcs =>
        rw [hb,ih.mpr hcs]
        rfl

theorem mapM_some_mem {f : α → Option β} {as : List α} {bs : List β} (h : as.mapM f=some bs)
    (b : β) : b∈bs ↔ ∃a∈as,f a=some b := by
  have hall := mapM_some.mp h
  clear h
  induction hall with
  | nil => simp
  | @cons a c as bs hac _ ih =>
    simp [ih,hac,eq_comm]

theorem mapM_isSome {f : α → Option β} {as : List α} :
    (as.mapM f).isSome=true ↔ ∀a∈as,(f a).isSome=true := by
  induction as with
  | nil => simp
  | cons a as ih =>
    rw [mapM_cons,forall_mem_cons,←ih]
    cases f a with
    | none => simp
    | some b =>
      cases as.mapM f with
      | none => simp
      | some bs => simp

theorem foldlM_ok {f : β → α → Except ε β} {P : List α → β → Prop} {as : List α} {s t : β}
    (h : as.foldlM f s=.ok t) (init : P [] s)
    (step : ∀done a rest s s',as=done++a::rest → P done s → f s a=.ok s' → P (done++[a]) s') :
    P as t := by
  have key : ∀done rest s,as=done++rest → P done s → rest.foldlM f s=.ok t → P as t := by
    intro done rest
    induction rest generalizing done with
    | nil =>
      intro s heq hP hs
      obtain rfl := Except.ok.inj hs
      rw [heq,append_nil]
      exact hP
    | cons a rest ih =>
      intro s heq hP hs
      rw [foldlM_cons] at hs
      obtain ⟨s',hs',hs⟩ := bind_ok hs
      exact ih (done++[a]) s' (by rw [heq,append_assoc]; rfl)
        (step done a rest s s' heq hP hs') hs
  exact key [] as s rfl init h

end CardKeepr.Lib
