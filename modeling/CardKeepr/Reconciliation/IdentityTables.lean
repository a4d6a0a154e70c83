import CardKeepr.Reconciliation.IdentityEffects
import CardKeepr.Reconciliation.IdentityLegs

namespace CardKeepr.Reconciliation.Identity

open Lib Shared List

/-- The row that an entry leaves. -/
def entryRow (e : ReducerEntry) : StateRow :=
  match e.value with
  | .str target => identityRow target
  | _ => identityRow []

def lastSet (l : List (Nat × ReducerEntry)) (space digest : JsString) : Option ReducerEntry :=
  (l.reverse.find? fun p => decide (At p.2 space digest)).map Prod.snd

theorem lastSet_skip {l t : List (Nat × ReducerEntry)} {space digest : JsString}
    (h : ∀p∈t,¬At p.2 space digest) : lastSet (l++t) space digest=lastSet l space digest := by
  have hn : t.reverse.find? (fun p => decide (At p.2 space digest))=none := by
    rw [List.find?_eq_none]
    intro p hp hc
    exact h p (mem_reverse.mp hp) (of_decide_eq_true hc)
  rw [lastSet,reverse_append,List.find?_append,hn,Option.none_or,lastSet]

theorem effects_sorted (i : Nat) (us : List AssociationStep) :
    (effects i us).Pairwise fun p q => p.1 ≤ q.1 := by
  induction us generalizing i with
  | nil => exact .nil
  | cons u us ih =>
    cases u with
    | begins size => exact ih (i+1)
    | sets size entry =>
      rw [effects,pairwise_cons]
      exact ⟨fun p hp => (effects_bounds (j := p.1) (e := p.2) hp).1,ih i⟩
    | ends sequence => exact ih i

theorem lastSet_meets {l t : List (Nat × ReducerEntry)} {space digest : JsString}
    (ht : t.Pairwise fun p q => p.1 ≤ q.1) (h : ∃p∈t,At p.2 space digest) : ∃p∈t,At p.2 space
    digest ∧ lastSet (l++t) space digest=some p.2 ∧ ∀q∈t,At q.2 space digest → q.1 ≤ p.1 := by
  cases hf : t.reverse.find? (fun p => decide (At p.2 space digest)) with
  | none =>
    obtain ⟨p,hp,hat⟩ := h
    rw [List.find?_eq_none] at hf
    exact (hf p (mem_reverse.mpr hp) (decide_eq_true hat)).elim
  | some p =>
    obtain ⟨hat,as,bs,hs,hno⟩ := List.find?_eq_some_iff_append.mp hf
    have hmem : p∈t := mem_reverse.mp (by rw [hs]; exact mem_append_right _ mem_cons_self)
    refine ⟨p,hmem,of_decide_eq_true hat,?_,?_⟩
    · rw [lastSet,reverse_append,List.find?_append,hf]
      rfl
    · intro q hq hqat
      have hrev := pairwise_reverse.mpr ht
      rw [hs] at hrev
      have hq : q∈as++p::bs := by rw [←hs]; exact mem_reverse.mpr hq
      rcases mem_append.mp hq with hq | hq
      · have := hno q hq
        simp [hqat] at this
      · rcases mem_cons.mp hq with rfl | hq
        · exact le_refl _
        · exact (pairwise_cons.mp (pairwise_append.mp hrev).2.1).1 q hq

theorem latestBelow_at {α : Type} {f : Nat → Option α} {n o : Nat} {a : α} (ho : o < n)
    (ha : f o=some a) (hk : ∀k,o < k → k < n → f k=none) : latestBelow f n=some a := by
  induction n with
  | zero => exact absurd ho (Nat.not_lt_zero o)
  | succ n ih =>
    rw [latestBelow]
    by_cases hn : o=n
    · rw [←hn,ha]
    · rw [hk n (by omega) (Nat.lt_succ_self n)]
      exact ih (by omega) fun k h1 h2 => hk k h1 (by omega)

theorem latestBelow_between {α : Type} (f : Nat → Option α) {m n : Nat} (hm : m ≤ n) :
    (latestBelow f n=latestBelow f m ∧ ∀k,m ≤ k → k < n → f k=none) ∨ ∃o a,m ≤ o ∧ o < n ∧ f o=some
    a ∧ latestBelow f n=some a ∧ ∀k,o < k → k < n → f k=none := by
  induction n with
  | zero =>
    obtain rfl := Nat.le_zero.mp hm
    exact .inl ⟨rfl,fun k _ hk => absurd hk (Nat.not_lt_zero k)⟩
  | succ n ih =>
    by_cases hmn : m=n+1
    · rw [hmn]
      exact .inl ⟨rfl,fun k h1 h2 => by omega⟩
    · cases hn : f n with
      | some a =>
        refine .inr ⟨n,a,by omega,Nat.lt_succ_self n,hn,?_,fun k h1 h2 => by omega⟩
        rw [latestBelow,hn]
      | none =>
        rw [latestBelow,hn]
        rcases ih (by omega) with ⟨he,hk⟩ | ⟨o,a,ho,hlt,hf,hl,hk⟩
        · refine .inl ⟨he,fun k h1 h2 => ?_⟩
          by_cases hkn : k=n
          · rw [hkn,hn]
          · exact hk k h1 (by omega)
        · refine .inr ⟨o,a,ho,by omega,hf,hl,fun k h1 h2 => ?_⟩
          by_cases hkn : k=n
          · rw [hkn,hn]
          · exact hk k h1 (by omega)

abbrev StateTable := JsString → JsString → Nat → Option StateRow

section
variable (all : List (Nat × ReducerEntry)) (warm : Prop)
variable {r : StateRow} {d n : JsString} {i k o size : Nat} {e e' : ReducerEntry}

/-- A row that an attempt may have left above the position of a checkpoint: at the ordinal of the
attempt that went on, or one further on if it was restarted inside a decision. -/
def Beyond (us : List AssociationStep) (g shift : Nat) (space digest : JsString) (o : Nat)
    (r : StateRow) : Prop :=
  ∃i e,At e space digest ∧ r=entryRow e ∧
    ((openSize us≠none → warm) ∧ (i,e)∈effects g (stretch 0 ((openSize us).getD 0) us) ∧ o=i+shift ∨
      ∃size,openSize us=some size ∧ (i,e)∈effects g (stretch 1 size us) ∧ o=i+shift+1)

/-- The tables at a checkpoint that leaves the steps `us` of decision `g` and later ones, at the
position that lies `shift` above the number of the decision. -/
structure Held (T : StateTable) (done : List (Nat × ReducerEntry)) (us : List AssociationStep)
    (g shift : Nat) : Prop where
  /-- a place holds what was last set there, or already what the open decision sets -/
  past : ∀space digest,latestBelow (T space digest) (g+shift+1)=
      (lastSet done space digest).map entryRow ∨
    ∃e,(g,e)∈effects g us ∧ At e space digest ∧
      latestBelow (T space digest) (g+shift+1)=some (entryRow e)
  now : ∀space digest r,T space digest (g+shift)=some r →
    ∃e,(g,e)∈all ∧ At e space digest ∧ r=entryRow e
  ahead : ∀space digest o r,g+shift < o → T space digest o=some r →
    Beyond warm us g shift space digest o r

/-- The way from a checkpoint: `t` is behind, `v` is left, and the entries of decision `i` are
set at ordinal `i+κ`. -/
structure Leg (T : StateTable) (done : List (Nat × ReducerEntry)) (us : List AssociationStep)
    (g shift κ : Nat) (t v : List AssociationStep) (work bytes : Nat) : Prop where
  split : us=t++v
  entries : all=done++effects g us
  held : Held all warm T done us g shift
  own : ∀i e,(i,e)∈effects g t → T e.space (sha256Text e.key) (i+κ)=some (entryRow e)
  kind : (κ=shift ∧ stretch 0 ((openSize us).getD 0) us=t++stretch work bytes v ∧
      (openSize us≠none → warm) ∧ ∀space digest o r,g+shift < o → T space digest o=some r →
        ∃i e,At e space digest ∧ r=entryRow e ∧
          (i,e)∈effects g (stretch 0 ((openSize us).getD 0) us) ∧ o=i+shift) ∨
    κ=shift+1 ∧ ∃size,openSize us=some size ∧ stretch 1 size us=t++stretch work bytes v

def Steady : Prop := ∀i e e',(i,e)∈all → (i,e')∈all → SamePlace e e' → e.value=e'.value

/-- No two successive decisions that an attempt takes after a checkpoint inside the first give one
place different targets. -/
def Calm (us : List AssociationStep) (g : Nat) : Prop :=
  ∀size,openSize us=some size → ∀i e e',(i,e)∈effects g (stretch 0 size us) →
    (i+1,e')∈effects g (stretch 0 size us) → SamePlace e e' → e.value=e'.value

variable {all warm}

theorem entryRow_congr (h : e.value=e'.value) : entryRow e=entryRow e' := by
  rw [entryRow,entryRow,h]

theorem At.same {space digest : JsString} (h : At e space digest)
    (h' : At e' space digest) : SamePlace e e' :=
  ⟨h.1.trans h'.1.symm,h.2.trans h'.2.symm⟩

variable {T : StateTable} {done : List (Nat × ReducerEntry)} {us t v : List AssociationStep}
  {g shift κ work bytes : Nat}

theorem Leg.mem_all (h : Leg all warm T done us g shift κ t v work bytes) (he : (i,e)∈effects g us) : (i,e)∈all := by
  rw [h.entries]
  exact mem_append_right _ he

theorem Leg.mem_next (h : Leg all warm T done us g shift κ t v work bytes) (he : (i,e)∈effects (begun g t) (stretch work bytes v)) :
    (κ=shift → (i,e)∈effects g (stretch 0 ((openSize us).getD 0) us)) ∧
      (κ=shift+1 → ∃size,openSize us=some size ∧ (i,e)∈effects g (stretch 1 size us)) := by
  rcases h.kind with ⟨hk,hs,-⟩ | ⟨hk,size,ho,hs⟩
  · refine ⟨fun _ => ?_,fun hk' => by omega⟩
    rw [hs,effects_append]
    exact mem_append_right _ he
  · refine ⟨fun hk' => by omega,fun _ => ⟨size,ho,?_⟩⟩
    rw [hs,effects_append]
    exact mem_append_right _ he

theorem stretch_sets {work bytes : Nat} {v : List AssociationStep}
    (hw : ¬8 ≤ work) : stretch work bytes (.sets size e::v)=
      .sets size e::stretch (work+1) bytes v := by rw [stretch,if_neg hw]

theorem Leg.meets (h : Leg all warm T done us g shift κ t (.sets size e::v) work bytes)
    (hw : ¬8 ≤ work) (hall : Steady all) (hcalm : warm → Calm us g)
    (hr : T e.space (sha256Text e.key) (begun g t+κ)=some r) : r=entryRow e := by
  have hnext : (begun g t,e)∈effects (begun g t) (stretch work bytes (.sets size e::v)) := by
    rw [stretch_sets hw,effects]
    exact mem_cons_self
  have hus : (begun g t,e)∈effects g us := by
    rw [h.split,effects_append,effects]
    exact mem_append_right _ mem_cons_self
  have hle := begun_le g t
  have hself : At e e.space (sha256Text e.key) := ⟨rfl,rfl⟩
  have hsteady : ∀e',(begun g t,e')∈all → At e' e.space (sha256Text e.key) →
      entryRow e'=entryRow e := by
    intro e' he' hat
    exact entryRow_congr (hall _ _ _ he' (h.mem_all hus) (hat.same hself))
  have hsub : ∀{i e' w b},(i,e')∈effects g (stretch w b us) → (i,e')∈all := by
    intro i e' w b he'
    obtain ⟨rest,hrest⟩ := stretch_prefix w b us
    refine h.mem_all ?_
    rw [hrest,effects_append]
    exact mem_append_left _ he'
  rcases h.kind with ⟨hk,hs,-,hfirst⟩ | ⟨hk,size',ho,hs⟩
  · by_cases hnow : begun g t+κ=g+shift
    · rw [hnow] at hr
      obtain ⟨e',he',hat,rfl⟩ := h.held.now _ _ _ hr
      have hg : begun g t=g := by omega
      exact hsteady e' (by rw [hg]; exact he') hat
    · obtain ⟨i,e',hat,rfl,he',ho⟩ := hfirst _ _ _ _ (by omega) hr
      have hi : i=begun g t := by omega
      subst hi
      exact hsteady e' (hsub he') hat
  · obtain ⟨i,e',hat,rfl,⟨hwarm,he',hi⟩ | ⟨size'',ho'',he',hi⟩⟩ :=
      h.held.ahead _ _ _ _ (by omega) hr
    · have hwarm := hwarm (by rw [ho]; exact Option.some_ne_none _)
      rw [ho,Option.getD_some] at he'
      have hi : i=begun g t+1 := by omega
      subst hi
      obtain ⟨size2,ho2,hn⟩ := (h.mem_next hnext).2 hk
      rw [ho] at ho2
      obtain rfl := Option.some.inj ho2
      exact entryRow_congr
        (hcalm hwarm size' ho _ _ _ (restarted_fewer ho hn) he' (hself.same hat)).symm
    · have hi : i=begun g t := by omega
      subst hi
      exact hsteady e' (hsub he') hat

def setRow (T : StateTable) (e : ReducerEntry) (o : Nat) : StateTable := fun n d k =>
  if At e n d ∧ k=o then some ((T n d k).getD (entryRow e)) else T n d k

theorem setRow_at (hat : At e n d)
    (h : ∀r,T n d o=some r → r=entryRow e) : setRow T e o n d o=some (entryRow e) := by
  rw [setRow,if_pos ⟨hat,rfl⟩]
  cases hr : T n d o with
  | none => rfl
  | some r => rw [Option.getD_some,h r hr]

theorem setRow_cases (h : ∀r,T e.space (sha256Text e.key) o=some r → r=entryRow e)
    (hr : setRow T e o n d k=some r) : T n d k=some r ∨ At e n d ∧ k=o ∧ r=entryRow e := by
  by_cases hk : At e n d ∧ k=o
  · obtain ⟨⟨rfl,rfl⟩,rfl⟩ := hk
    rw [setRow_at ⟨rfl,rfl⟩ h] at hr
    exact .inr ⟨⟨rfl,rfl⟩,rfl,(Option.some.inj hr).symm⟩
  · rw [setRow,if_neg hk] at hr
    exact .inl hr

theorem setRow_keeps (hr : T n d k=some r) : setRow T e o n d k=some r := by
  rw [setRow]
  split
  · rw [hr,Option.getD_some]
  · exact hr

/-- An association on the way. -/
theorem Leg.sets (h : Leg all warm T done us g shift κ t (.sets size e::v) work bytes)
    (hw : ¬8 ≤ work) (hall : Steady all) (hcalm : warm → Calm us g) : Leg all warm
    (setRow T e (begun g t+κ)) done us g shift κ (t++[.sets size e]) v (work+1) bytes := by
  have hmeets : ∀r,T e.space (sha256Text e.key) (begun g t+κ)=some r → r=entryRow e :=
    fun r hr => h.meets hw hall hcalm hr
  have hus : (begun g t,e)∈effects g us := by
    rw [h.split,effects_append,effects]
    exact mem_append_right _ mem_cons_self
  have hnext : (begun g t,e)∈effects (begun g t) (stretch work bytes (.sets size e::v)) := by
    rw [stretch_sets hw,effects]
    exact mem_cons_self
  have hle := begun_le g t
  obtain ⟨hn1,hn2⟩ := h.mem_next hnext
  refine ⟨?_,h.entries,⟨?_,?_,?_⟩,?_,?_⟩
  · rw [h.split,append_assoc,singleton_append]
  · intro n d
    by_cases hk : At e n d ∧ begun g t+κ=g+shift
    · obtain ⟨hat,ho⟩ := hk
      refine .inr ⟨e,?_,hat,?_⟩
      · have hg : begun g t=g := by
          rcases h.kind with ⟨hk,-⟩ | ⟨hk,-⟩ <;> omega
        rw [hg] at hus
        exact hus
      · refine latestBelow_at (o := g+shift) (Nat.lt_succ_self _) ?_ fun k h1 h2 => by omega
        rw [←ho]
        obtain ⟨rfl,rfl⟩ := hat
        exact setRow_at ⟨rfl,rfl⟩ hmeets
    · have hsame : latestBelow (setRow T e (begun g t+κ) n d) (g+shift+1)=
          latestBelow (T n d) (g+shift+1) := by
        apply latestBelow_congr
        intro o ho
        rw [setRow,if_neg]
        rintro ⟨hat,rfl⟩
        refine hk ⟨hat,?_⟩
        rcases h.kind with ⟨hk,-⟩ | ⟨hk,-⟩ <;> omega
      rw [hsame]
      exact h.held.past n d
  · intro n d r hr
    rcases setRow_cases hmeets hr with hr | ⟨hat,ho,rfl⟩
    · exact h.held.now n d r hr
    · have hg : begun g t=g := by
        rcases h.kind with ⟨hk,-⟩ | ⟨hk,-⟩ <;> omega
      refine ⟨e,h.mem_all ?_,hat,rfl⟩
      rw [hg] at hus
      exact hus
  · intro n d o r ho hr
    rcases setRow_cases hmeets hr with hr | ⟨hat,rfl,rfl⟩
    · exact h.held.ahead n d o r ho hr
    · refine ⟨begun g t,e,hat,rfl,?_⟩
      rcases h.kind with ⟨hk,-,hwarm,-⟩ | ⟨hk,-⟩
      · exact .inl ⟨hwarm,hn1 hk,by rw [hk]⟩
      · obtain ⟨size',ho',hm⟩ := hn2 hk
        exact .inr ⟨size',ho',hm,by omega⟩
  · intro i e' he'
    rw [effects_append,mem_append] at he'
    rcases he' with he' | he'
    · exact setRow_keeps (h.own i e' he')
    · rw [effects,effects,mem_singleton] at he'
      cases he'
      exact setRow_at ⟨rfl,rfl⟩ hmeets
  · rcases h.kind with ⟨hk,hs,hwarm,hfirst⟩ | ⟨hk,size',ho,hs⟩
    · refine .inl ⟨hk,?_,hwarm,fun n d o r ho hr => ?_⟩
      · rw [hs,stretch_sets hw,append_assoc,singleton_append]
      · rcases setRow_cases hmeets hr with hr | ⟨hat,rfl,rfl⟩
        · exact hfirst n d o r ho hr
        · exact ⟨begun g t,e,hat,rfl,hn1 hk,by rw [hk]⟩
    · refine .inr ⟨hk,size',ho,?_⟩
      rw [hs,stretch_sets hw,append_assoc,singleton_append]

/-- A step without an effect. -/
theorem Leg.quiet {x : AssociationStep} {work' bytes' : Nat}
    (h : Leg all warm T done us g shift κ t (x::v) work bytes) (hx : ∀i,effects i [x]=[])
    (hs : stretch work bytes (x::v)=x::stretch work' bytes' v) :
    Leg all warm T done us g shift κ (t++[x]) v work' bytes' := by
  have hl : ∀l : List AssociationStep,l=t++stretch work bytes (x::v) →
      l=t++[x]++stretch work' bytes' v := by
    rintro l rfl
    rw [hs,append_assoc,singleton_append]
  refine ⟨?_,h.entries,h.held,?_,?_⟩
  · rw [h.split,append_assoc,singleton_append]
  · intro i e he
    rw [effects_append,hx,append_nil] at he
    exact h.own i e he
  · rcases h.kind with ⟨hk,hst,hwarm,hfirst⟩ | ⟨hk,size',ho,hst⟩
    · exact .inl ⟨hk,hl _ hst,hwarm,hfirst⟩
    · exact .inr ⟨hk,size',ho,hl _ hst⟩

theorem Leg.begins (h : Leg all warm T done us g shift κ t (.begins size::v) work bytes)
    (hd : ¬(0 < work ∧ (8 ≤ work ∨ 512000 < bytes+size))) :
    Leg all warm T done us g shift κ (t++[.begins size]) v (work+1) (bytes+size) :=
  h.quiet (fun _ => rfl) (by rw [stretch,if_neg hd])

theorem Leg.ends {sequence : Nat}
    (h : Leg all warm T done us g shift κ t (.ends sequence::v) work bytes) :
    Leg all warm T done us g shift κ (t++[.ends sequence]) v work bytes :=
  h.quiet (fun _ => rfl) (by rw [stretch])

theorem Leg.above (h : Leg all warm T done us g shift κ t v work bytes)
    (hd : stretch work bytes v=[]) (ho : g+shift < o)
    (hr : T n d o=some r) : ∃i e,At e n d ∧ r=entryRow e ∧
      ((i,e)∈effects g t ∧ (o=i+κ ∨ o+1=i+κ) ∨
        i=begun g t ∧ (i,e)∈effects (begun g t) v ∧ o+1=i+κ) := by
  rcases h.kind with ⟨hk,hs,-,hfirst⟩ | ⟨hk,size,hopen,hs⟩
  · obtain ⟨i,e,hat,rfl,he,hi⟩ := hfirst n d o r ho hr
    rw [hs,hd,append_nil] at he
    exact ⟨i,e,hat,rfl,.inl ⟨he,.inl (by omega)⟩⟩
  · rw [hd,append_nil] at hs
    have hsplit := h.split
    rw [←hs] at hsplit
    obtain ⟨i,e,hat,rfl,⟨-,he,hi⟩ | ⟨size',ho',he,hi⟩⟩ := h.held.ahead n d o r ho hr
    · rw [hopen,Option.getD_some] at he
      rcases restarted_effects hopen hsplit he with he | ⟨hi',he⟩
      · rw [hs] at he
        exact ⟨i,e,hat,rfl,.inl ⟨he,.inr (by omega)⟩⟩
      · rw [hs] at hi' he
        exact ⟨i,e,hat,rfl,.inr ⟨hi',he,by omega⟩⟩
    · rw [hopen] at ho'
      obtain rfl := Option.some.inj ho'
      rw [hs] at he
      exact ⟨i,e,hat,rfl,.inl ⟨he,.inl (by omega)⟩⟩

theorem Leg.rest (h : Leg all warm T done us g shift κ t v work bytes) :
    all=done++effects g t++effects (begun g t) v := by
  rw [h.entries,h.split,effects_append,append_assoc]

theorem Leg.nothing_above (h : Leg all warm T done us g shift κ t v work bytes)
    (hd : stretch work bytes v=[]) (ho : begun g t+κ < o) : T n d o=none := by
  cases hr : T n d o with
  | none => rfl
  | some r =>
    have hle := begun_le g t
    have hlow : g+shift < o := by
      rcases h.kind with ⟨hk,-⟩ | ⟨hk,-⟩ <;> omega
    obtain ⟨i,e,-,-,⟨he,hi⟩ | ⟨hi,-,hi'⟩⟩ := h.above hd hlow hr
    · have := (effects_bounds he).2
      omega
    · omega

theorem Leg.past (h : Leg all warm T done us g shift κ t v work bytes)
    (hd : stretch work bytes v=[]) (n d : JsString) : latestBelow (T n d) (begun g t+κ+1)=
    (lastSet (done++effects g t) n d).map entryRow ∨ ∃e,(begun g t,e)∈effects (begun g t) v ∧ At e n
    d ∧ latestBelow (T n d) (begun g t+κ+1)=some (entryRow e) := by
  have hle := begun_le g t
  have hκ : shift ≤ κ := by
    rcases h.kind with ⟨hk,-⟩ | ⟨hk,-⟩ <;> omega
  by_cases hm : ∃p∈effects g t,At p.2 n d
  · obtain ⟨⟨i,e⟩,hp,hat,hlast,hmax⟩ := lastSet_meets (l := done) (effects_sorted g t) hm
    have hb := effects_bounds hp
    have hown : T n d (i+κ)=some (entryRow e) := by
      have := h.own i e hp
      rwa [hat.1,hat.2] at this
    rcases latestBelow_between (T n d) (m := i+κ+1) (n := begun g t+κ+1) (by omega) with
      ⟨he,-⟩ | ⟨o,r,ho,hlt,hr,hl,-⟩
    · refine .inl ?_
      rw [he,hlast,latestBelow,hown]
      rfl
    · obtain ⟨i',e',hat',rfl,⟨he',hi'⟩ | ⟨hi',he',-⟩⟩ := h.above hd (by omega) hr
      · have := hmax _ he' hat'
        dsimp only at this
        omega
      · subst hi'
        exact .inr ⟨e',he',hat',hl⟩
  · have hskip : lastSet (done++effects g t) n d=lastSet done n d :=
      lastSet_skip fun p hp hat => hm ⟨p,hp,hat⟩
    rcases latestBelow_between (T n d) (m := g+shift+1) (n := begun g t+κ+1) (by omega) with
      ⟨he,-⟩ | ⟨o,r,ho,hlt,hr,hl,-⟩
    · rw [he,hskip]
      rcases h.held.past n d with hp | ⟨e,he',hat,hl⟩
      · exact .inl hp
      · rw [h.split,effects_append,mem_append] at he'
        rcases he' with he' | he'
        · exact (hm ⟨_,he',hat⟩).elim
        · have hb := (effects_bounds he').1
          have hg : begun g t=g := by omega
          rw [hg] at he' ⊢
          exact .inr ⟨e,he',hat,hl⟩
    · obtain ⟨i',e',hat',rfl,⟨he',-⟩ | ⟨hi',he',-⟩⟩ := h.above hd (by omega) hr
      · exact (hm ⟨_,he',hat'⟩).elim
      · subst hi'
        exact .inr ⟨e',he',hat',hl⟩

theorem Leg.finish (h : Leg all warm T done us g shift κ t v work bytes)
    (hd : stretch work bytes v=[]) : Held all warm T (done++effects g t) v (begun g t) κ := by
  have hle := begun_le g t
  refine ⟨h.past hd,fun n d r hr => ?_,fun n d o r ho hr => ?_⟩
  · by_cases hnow : begun g t+κ=g+shift
    · rw [hnow] at hr
      have hg : begun g t=g := by
        rcases h.kind with ⟨hk,-⟩ | ⟨hk,-⟩ <;> omega
      rw [hg]
      exact h.held.now n d r hr
    · have hlow : g+shift < begun g t+κ := by
        rcases h.kind with ⟨hk,-⟩ | ⟨hk,-⟩ <;> omega
      obtain ⟨i,e,hat,rfl,⟨he,hi⟩ | ⟨hi,-,hi'⟩⟩ := h.above hd hlow hr
      · have hb := (effects_bounds he).2
        have hi : i=begun g t := by omega
        subst hi
        refine ⟨e,h.mem_all ?_,hat,rfl⟩
        rw [h.split,effects_append]
        exact mem_append_left _ he
      · omega
  · rw [h.nothing_above hd ho] at hr
    cases hr

theorem Leg.pending (h : Leg all warm T done us g shift κ t (.begins size::v) work bytes)
    (hr : T n d (begun g t+1+κ)=some r) : ∃p∈effects (begun g t+1) v,At p.2 n d := by
  have hle := begun_le g t
  have hin : ∀i e w b,begun g t < i → (i,e)∈effects g (stretch w b us) →
      (i,e)∈effects (begun g t+1) v := by
    intro i e w b hi he
    obtain ⟨rest,hrest⟩ := stretch_prefix w b us
    have hus : (i,e)∈effects g us := by
      rw [hrest,effects_append]
      exact mem_append_left _ he
    rw [h.split,effects_append,mem_append] at hus
    rcases hus with hus | hus
    · have := (effects_bounds hus).2
      omega
    · exact hus
  rcases h.kind with ⟨hk,-,-,hfirst⟩ | ⟨hk,-⟩
  · obtain ⟨i,e,hat,-,he,hi⟩ := hfirst n d _ r (by omega) hr
    exact ⟨(i,e),hin i e _ _ (by omega) he,hat⟩
  · obtain ⟨i,e,hat,-,⟨-,he,hi⟩ | ⟨size',-,he,hi⟩⟩ := h.held.ahead n d _ r (by omega) hr
    · exact ⟨(i,e),hin i e _ _ (by omega) he,hat⟩
    · exact ⟨(i,e),hin i e _ _ (by omega) he,hat⟩

theorem Held.pending (h : Held all warm T done us g shift)
    (hr : T n d (g+(shift+1))=some r) : ∃p∈effects g us,At p.2 n d := by
  obtain ⟨i,e,hat,-,⟨-,he,-⟩ | ⟨size',-,he,-⟩⟩ := h.ahead n d _ r (by omega) hr
  all_goals
    obtain ⟨rest,hrest⟩ := stretch_prefix _ _ us
    refine ⟨(i,e),?_,hat⟩
    rw [hrest,effects_append]
    exact mem_append_left _ he

theorem Leg.goesOn (h : Leg all warm T done us g shift κ t v work bytes)
    (hd : stretch work bytes v=[]) (hw : openSize v≠none → warm) :
    Leg all warm T (done++effects g t) v (begun g t) κ κ [] v 0 ((openSize v).getD 0) := by
  refine ⟨rfl,h.rest,h.finish hd,fun i e he => (not_mem_nil he).elim,
    .inl ⟨rfl,rfl,hw,fun n d o r ho hr => ?_⟩⟩
  rw [h.nothing_above hd ho] at hr
  cases hr

theorem Held.restarts (h : Held all warm T done us g shift) (ha : all=done++effects g us)
    (ho : openSize us=none) : Leg all warm T done us g shift shift [] us 0 0 := by
  refine ⟨rfl,ha,h,fun i e he => (not_mem_nil he).elim,.inl ⟨rfl,?_,fun hne => (hne ho).elim,
    fun n d o r hlt hr => ?_⟩⟩
  · rw [ho]
    rfl
  · obtain ⟨i,e,hat,he,⟨-,hm,hi⟩ | ⟨size,ho',-⟩⟩ := h.ahead n d o r hlt hr
    · exact ⟨i,e,hat,he,hm,hi⟩
    · rw [ho] at ho'
      cases ho'

theorem Held.restartsInside {size : Nat} (h : Held all warm T done us g shift)
    (ha : all=done++effects g us) (ho : openSize us=some size) :
    Leg all warm T done us g shift (shift+1) [] us 1 size :=
  ⟨rfl,ha,h,fun _ _ he => (not_mem_nil he).elim,.inr ⟨rfl,size,ho,rfl⟩⟩

end

end CardKeepr.Reconciliation.Identity
