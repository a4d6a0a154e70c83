import CardKeepr.Publication.StagingPrograms
import Mathlib.Data.List.Nodup

namespace CardKeepr.Staging

open Lib Shared List

variable {c i n : Nat} {k l : ObjectKey} {d : StagingDelete} {o : StagingObject}
  {id token preparation : JsString}

def Receipt.Matches (r : Receipt) (o : R2Object) : Prop :=
  o.content.length=r.byte_length ∧ Shared.sha256 o.content=r.sha256

def Store.Resolves (s : Store) (r : Receipt) : Prop := ∃o,s.bucket r.key=some o ∧ r.Matches o

/-- No writer was open, and no incarnation later than the one to be deleted was admitted. -/
structure Deletion.Safe (d : Deletion) : Prop where
  writers : d.openWrite=false
  current : d.current ≤ d.incarnation

/-- The row protects the object that was verified, in the incarnation it was verified in. -/
structure Reference.Guarded (r : Reference) : Prop where
  binding : r.row.binding=r.stored
  incarnation : r.seen=r.admitted

structure Sound (s : Store) : Prop where
  deleting : ∀k o,s.objects k=some o → o.state=.deleting → s.openWrite k=false
  ticket : ∀d∈s.deletes,d.completed=false →
    ∃o,s.objects d.key=some o ∧ o.state=.deleting ∧ o.incarnation=d.incarnation
  tokens : (s.deletes.map StagingDelete.token).Nodup
  /-- a delete that may still happen has its ticket open -/
  lost : ∀l∈s.lostDeletes,∃d∈s.deletes,d.token=l.token ∧ d.key=l.key ∧
    d.incarnation=l.incarnation ∧ d.completed=false
  references : ∀r∈s.references,s.free r.fenced=true
  resolves : ∀r∈s.references,r.Guarded → s.Resolves r.toReceipt
  deletions : ∀d∈s.deletions,d.Safe

/-- What every step keeps of every key: an incarnation that is free was never anything else, and
its object stays. -/
structure Progress (s t : Store) (k : ObjectKey) : Prop where
  le : s.incarnation k ≤ t.incarnation k
  free : t.incarnation k=s.incarnation k → t.free k=true → s.free k=true
  kept : t.incarnation k=s.incarnation k → t.free k=true → ∀o,s.bucket k=some o → t.bucket k=some o

theorem Progress.refl (s : Store) (k : ObjectKey) : Progress s s k :=
  ⟨le_refl _,fun _ h => h,fun _ _ _ h => h⟩

variable {s t u : Store}

theorem Progress.trans (h : Progress s t k) (g : Progress t u k) : Progress s u k := by
  have hle := h.le
  have gle := g.le
  refine ⟨by omega,fun he hf => ?_,fun he hf o ho => ?_⟩
  · exact h.free (by omega) (g.free (by omega) hf)
  · exact g.kept (by omega) hf o (h.kept (by omega) (g.free (by omega) hf) o ho)

/-- The delete tickets of thread `i` stay as they are, and none of their deletes gets lost. -/
def Owned (i : Nat) (s t : Store) : Prop :=
  ∀d∈s.deletes,d.owner=i → d∈t.deletes ∧
    ((∃l∈t.lostDeletes,l.token=d.token) → ∃l∈s.lostDeletes,l.token=d.token)

structure Relies (i : Nat) (s t : Store) : Prop where
  progress : ∀k,Progress s t k
  owned : Owned i s t

theorem Relies.refl (i : Nat) (s : Store) : Relies i s s :=
  ⟨Progress.refl s,fun _ hd _ => ⟨hd,fun h => h⟩⟩

theorem Relies.trans (h : Relies i s t) (g : Relies i t u) : Relies i s u := by
  refine ⟨fun k => (h.progress k).trans (g.progress k),fun d hd ho => ?_⟩
  have h1 := h.owned d hd ho
  have h2 := g.owned d h1.1 ho
  exact ⟨h2.1,fun hl => h1.2 (h2.2 hl)⟩

theorem owned_of_eq (hd : t.deletes=s.deletes) (hl : t.lostDeletes=s.lostDeletes)
    (i : Nat) : Owned i s t := by
  intro d hm _
  rw [hd,hl]
  exact ⟨hm,fun h => h⟩

def protocol : Protocol Op Op.Ans Store where
  handle := handle
  Inv := Sound
  rely := Relies
  refl := Relies.refl
  trans _ _ _ _ h g := h.trans g

/-- A step that every thread may see at any time. -/
structure Harmless (s t : Store) : Prop where
  sound : Sound t
  relies : ∀j,Relies j s t

theorem Harmless.refl (h : Sound s) : Harmless s s := ⟨h,fun j => Relies.refl j s⟩

theorem Harmless.trans (h : Harmless s t) (g : Harmless t u) : Harmless s u :=
  ⟨g.sound,fun j => (h.relies j).trans (g.relies j)⟩

theorem incarnation_eq (h : t.objects=s.objects) (k : ObjectKey) :
    t.incarnation k=s.incarnation k := by
  rw [Store.incarnation,Store.incarnation,h]

theorem free_eq (h : t.objects=s.objects) (k : ObjectKey) : t.free k=s.free k := by
  rw [Store.free,Store.free,h]

theorem progress_of_eq (ho : t.objects=s.objects) (hb : t.bucket=s.bucket)
    (k : ObjectKey) : Progress s t k := by
  refine ⟨by rw [incarnation_eq ho],fun _ hf => ?_,fun _ _ o hk => by rw [hb]; exact hk⟩
  rwa [free_eq ho] at hf

theorem Sound.frame (h : Sound s) (ho : t.objects=s.objects) (hd : t.deletes=s.deletes)
    (hl : t.lostDeletes=s.lostDeletes) (hr : t.references=s.references)
    (hx : t.deletions=s.deletions) (hw : ∀k,s.openWrite k=false → t.openWrite k=false)
    (hb : ∀k o,s.bucket k=some o → t.bucket k=some o) : Harmless s t := by
  refine ⟨⟨?_,?_,?_,?_,?_,?_,?_⟩,fun j => ⟨fun k => ⟨?_,?_,?_⟩,owned_of_eq hd hl j⟩⟩
  · intro k o hk hs
    rw [ho] at hk
    exact hw k (h.deleting k o hk hs)
  · rw [hd,ho]
    exact h.ticket
  · rw [hd]
    exact h.tokens
  · rw [hd,hl]
    exact h.lost
  · rw [hr]
    intro r hm
    rw [free_eq ho]
    exact h.references r hm
  · rw [hr]
    intro r hm hg
    obtain ⟨o,hk,hmatch⟩ := h.resolves r hm hg
    exact ⟨o,hb _ o hk,hmatch⟩
  · rw [hx]
    exact h.deletions
  · rw [incarnation_eq ho]
  · intro _ hf
    rwa [free_eq ho] at hf
  · exact fun _ _ => hb k

theorem openWrite_map {f : StagingWrite → StagingWrite}
    (ht : t.writes=s.writes.map f) (hf : ∀w,(f w).key=w.key ∧ (w.completed=true → (f w).completed=true))
    (k : ObjectKey) (h : s.openWrite k=false) : t.openWrite k=false := by
  rw [Store.openWrite,any_eq_false] at h ⊢
  rw [ht]
  intro w hw hc
  obtain ⟨v,hv,rfl⟩ := mem_map.mp hw
  have hv2 := h v hv
  rw [(hf v).1] at hc
  cases hvc : v.completed with
  | true => simp [(hf v).2 hvc] at hc
  | false => simp [hvc] at hv2 hc; exact hv2 hc.1

theorem finishWrites_harmless (h : Sound s) (tokens : List JsString) :
    Harmless s (s.finishStagingWrites tokens) := by
  refine h.frame rfl rfl rfl rfl rfl ?_ ?_
  · apply openWrite_map rfl
    intro w
    split <;> simp
  · exact fun _ _ hk => hk

theorem finishObserved_harmless (h : Sound s) (k : ObjectKey) (token : JsString) :
    Harmless s (s.finishObservedStagingWrite k token) := by
  refine h.frame rfl rfl rfl rfl rfl ?_ ?_
  · apply openWrite_map rfl
    intro w
    split <;> simp
  · exact fun _ _ hk => hk

theorem put_kept (s : Store) (k : ObjectKey) (o : R2Object) (l : ObjectKey) (p : R2Object)
    (hl : s.bucket l=some p) : (s.put k o).2.bucket l=some p := by
  rw [Store.put]
  cases hk : s.bucket k with
  | some q => exact hl
  | none =>
    change (if l=k then some o else s.bucket l)=some p
    split
    · rename_i he
      rw [he,hk] at hl
      cases hl
    · exact hl

theorem put_harmless (h : Sound s) (k : ObjectKey) (o : R2Object) : Harmless s (s.put k o).2 := by
  have hput := put_kept s k o
  rw [Store.put] at hput ⊢
  cases hk : s.bucket k with
  | some q => exact .refl h
  | none =>
    rw [hk] at hput
    exact h.frame rfl rfl rfl rfl rfl (fun _ hw => hw) hput

theorem setObject_same (s : Store) (k : ObjectKey) (o : StagingObject) :
    (s.setObject k o).objects k=some o := if_pos rfl

theorem setObject_other (s : Store) (o : StagingObject) (h : l≠k) :
    (s.setObject k o).objects l=s.objects l := if_neg h

theorem incarnation_some (h : s.objects k=some o) :
    s.incarnation k=o.incarnation := by rw [Store.incarnation,h]; rfl

theorem free_some (h : s.objects k=some o) :
    s.free k=decide (o.state=.available) := by rw [Store.free,h]; rfl

theorem free_none (h : s.objects k=none) : s.free k=true := by
  rw [Store.free,h]; rfl

theorem Sound.row (h : Sound s)
    (ht : t.objects k=some o) (hne : ∀l,l≠k → t.objects l=s.objects l) (hb : t.bucket=s.bucket)
    (hd : t.deletes=s.deletes) (hl : t.lostDeletes=s.lostDeletes) (hr : t.references=s.references)
    (hx : t.deletions=s.deletions) (hw : ∀l,l≠k → t.openWrite l=s.openWrite l)
    (hdel : o.state=.deleting → t.openWrite k=false)
    (htick : ∀d∈s.deletes,d.key=k → d.completed=false →
      o.state=.deleting ∧ o.incarnation=d.incarnation)
    (href : ∀r∈s.references,r.fenced=k → o.state=.available)
    (hle : s.incarnation k ≤ o.incarnation)
    (hfree : o.incarnation=s.incarnation k → o.state=.available → s.free k=true) :
    Harmless s t := by
  have hfr : ∀l,l≠k → t.free l=s.free l := by
    intro l hne'
    rw [Store.free,Store.free,hne l hne']
  have hin : ∀l,l≠k → t.incarnation l=s.incarnation l := by
    intro l hne'
    rw [Store.incarnation,Store.incarnation,hne l hne']
  have hsound : Sound t := by
    refine ⟨?_,?_,?_,?_,?_,?_,?_⟩
    · intro l p hp hs
      by_cases hlk : l=k
      · subst hlk
        rw [ht] at hp
        exact hdel (Option.some.inj hp ▸ hs)
      · rw [hw l hlk]
        exact h.deleting l p (hne l hlk ▸ hp) hs
    · rw [hd]
      intro d hm hc
      by_cases hdk : d.key=k
      · exact ⟨o,by rw [hdk]; exact ht,htick d hm hdk hc⟩
      · rw [hne d.key hdk]
        exact h.ticket d hm hc
    · rw [hd]
      exact h.tokens
    · rw [hd,hl]
      exact h.lost
    · rw [hr]
      intro r hm
      by_cases hrk : r.fenced=k
      · rw [hrk,free_some ht]
        exact decide_eq_true (href r hm hrk)
      · rw [hfr r.fenced hrk]
        exact h.references r hm
    · rw [hr]
      intro r hm hg
      have hres := h.resolves r hm hg
      rw [Store.Resolves,← hb] at hres
      exact hres
    · rw [hx]
      exact h.deletions
  refine ⟨hsound,fun j => ⟨fun l => ?_,owned_of_eq hd hl j⟩⟩
  by_cases hlk : l=k
  · subst hlk
    have hi := incarnation_some ht
    refine ⟨by omega,fun he hf => ?_,fun _ _ p hp => by rw [hb]; exact hp⟩
    rw [free_some ht] at hf
    exact hfree (by omega) (of_decide_eq_true hf)
  · refine ⟨by rw [hin l hlk],fun _ hf => ?_,fun _ _ p hp => by rw [hb]; exact hp⟩
    rwa [hfr l hlk] at hf

theorem beginWrite_ok (h : s.beginStagingWrite preparation k token=.ok t) :
    (s.admitted k).state=.available ∧ t={ s.setObject k (s.admitted k) with
      writes := s.writes++[⟨token,s.ownerOf preparation,k,(s.admitted k).incarnation,false⟩] } := by
  rw [Store.beginStagingWrite] at h
  obtain ⟨_,-,h⟩ := bind_ok h
  obtain ⟨_,ha,h⟩ := bind_ok h
  obtain ⟨_,-,h⟩ := bind_ok h
  have hd := demand_ok ha
  rw [Bool.and_eq_true,Bool.and_eq_true] at hd
  exact ⟨of_decide_eq_true hd.1.1,(Except.ok.inj h).symm⟩

theorem openWrite_append {w : StagingWrite} (ht : t.writes=s.writes++[w]) (h : l≠w.key) : t.openWrite l=s.openWrite l := by
  rw [Store.openWrite,Store.openWrite,ht,any_append]
  have hw : decide (w.key=l)=false := decide_eq_false fun he => h he.symm
  simp [hw]

theorem admitted_deleting
    (hk : s.objects k=some o) (hs : o.state=.deleting) : (s.admitted k).state≠.available := by
  rw [Store.admitted,hk]
  simp [hs]

theorem beginWrite_harmless
    (h : Sound s) (hok : s.beginStagingWrite preparation k token=.ok t) : Harmless s t := by
  obtain ⟨hs,rfl⟩ := beginWrite_ok hok
  refine h.row (setObject_same s k _) (fun l hl => setObject_other s _ hl) rfl rfl rfl rfl rfl
    (fun l hl => openWrite_append rfl hl) ?_ ?_ ?_ ?_ ?_
  · intro hd
    rw [hs] at hd
    cases hd
  · intro d hm hk hc
    obtain ⟨o,ho,hd,-⟩ := h.ticket d hm hc
    rw [hk] at ho
    exact absurd hs (admitted_deleting ho hd)
  · exact fun _ _ _ => hs
  · rw [Store.incarnation,Store.admitted]
    cases s.objects k with
    | none => exact le_refl _
    | some o =>
      dsimp only [Option.elim]
      split
      · exact Nat.le_succ _
      · exact le_refl _
  · intro he _
    cases hk : s.objects k with
    | none => exact free_none hk
    | some o =>
      rw [incarnation_some hk] at he
      rw [Store.admitted,hk] at he hs
      dsimp only at he hs
      split at he
      · exact absurd he (Nat.succ_ne_self _)
      · rename_i hn
        rw [if_neg hn] at hs
        rw [free_some hk]
        exact decide_eq_true hs

theorem beginWrites_harmless (preparation : JsString) {ws : List (ObjectKey × JsString)} :
    ∀{s t : Store},Sound s → s.beginStagingWrites preparation ws=.ok t → Harmless s t := by
  induction ws with
  | nil =>
    intro s t h hok
    obtain rfl := Except.ok.inj hok
    exact .refl h
  | cons w ws ih =>
    intro s t h hok
    obtain ⟨u,h1,h2⟩ := bind_ok hok
    have hu := beginWrite_harmless h h1
    exact hu.trans (ih hu.sound h2)

theorem reserve_harmless {at' : Nat} (h : Sound s)
    (hok : s.reserveStagingObject id k n at'=.ok t) : Harmless s t := by
  rw [Store.reserveStagingObject] at hok
  cases hk : s.objects k with
  | none =>
    rw [hk] at hok
    exact Except.ok.inj hok ▸ .refl h
  | some o =>
    rw [hk] at hok
    dsimp only at hok
    split at hok
    · rename_i hc
      split at hok
      · cases hok
      · rename_i hb
        obtain rfl := Except.ok.inj hok
        have hret : s.isRetained k=false := by
          rw [Bool.not_eq_true,Store.reservationBlocked] at hb
          simp only [Bool.or_eq_false_iff] at hb
          exact hb.1.2
        refine h.row (setObject_same s k _) (fun l hl => setObject_other s _ hl) rfl rfl rfl rfl
          rfl (fun _ _ => rfl) ?_ ?_ ?_ ?_ ?_
        · intro hd
          cases hd
        · intro d hm hdk hcomp
          obtain ⟨p,hp,hd,-⟩ := h.ticket d hm hcomp
          rw [hdk,hk] at hp
          obtain rfl := Option.some.inj hp
          rw [hc.2] at hd
          cases hd
        · intro r hm hrk
          rw [Store.isRetained,Bool.or_eq_false_iff,any_eq_false] at hret
          exact absurd (decide_eq_true hrk) (hret.1 r hm)
        · rw [incarnation_some hk]
        · intro _ hs
          cases hs
    · exact Except.ok.inj hok ▸ .refl h

theorem promote_harmless (h : Sound s)
    (hok : s.promoteStagingDelete id k n=.ok t) : Harmless s t := by
  rw [Store.promoteStagingDelete] at hok
  cases hk : s.objects k with
  | none =>
    rw [hk] at hok
    exact Except.ok.inj hok ▸ .refl h
  | some o =>
    rw [hk] at hok
    dsimp only at hok
    split at hok
    · rename_i hc
      split at hok
      · cases hok
      · rename_i hb
        obtain rfl := Except.ok.inj hok
        rw [Bool.not_eq_true,Bool.or_eq_false_iff,Bool.or_eq_false_iff] at hb
        refine h.row (setObject_same s k _) (fun l hl => setObject_other s _ hl) rfl rfl rfl rfl
          rfl (fun _ _ => rfl) (fun _ => hb.1.2) ?_ ?_ ?_ ?_
        · intro d hm hdk hcomp
          obtain ⟨p,hp,-,hi⟩ := h.ticket d hm hcomp
          rw [hdk,hk] at hp
          obtain rfl := Option.some.inj hp
          exact ⟨rfl,hi⟩
        · intro r hm hrk
          have hfree := h.references r hm
          rw [hrk,free_some hk,hc.2.2] at hfree
          cases hfree
        · rw [incarnation_some hk]
        · intro _ hs
          cases hs
    · exact Except.ok.inj hok ▸ .refl h

/-- Thread `i` has the ticket, and its delete is not one that may still happen. -/
structure Holds (i : Nat) (s : Store) (d : StagingDelete) : Prop where
  mem : d∈s.deletes
  owner : d.owner=i
  pending : d.completed=false
  here : ∀l∈s.lostDeletes,l.token≠d.token

theorem Holds.mono {i : Nat} {s t : Store} {d : StagingDelete} (h : Holds i s d)
    (hr : Relies i s t) : Holds i t d := by
  have ho := hr.owned d h.mem h.owner
  refine ⟨ho.1,h.owner,h.pending,fun l hl he => ?_⟩
  obtain ⟨m,hm,hme⟩ := ho.2 ⟨l,hl,he⟩
  exact h.here m hm hme

theorem ticket_unique (h : Sound s) {e : StagingDelete} (hd : d∈s.deletes)
    (he : e∈s.deletes) (ht : d.token=e.token) : d=e :=
  inj_on_of_nodup_map h.tokens hd he ht

theorem beginDelete_ok (h : s.beginStagingDelete i id k n token=.ok (c,t)) : (c=0 ∧ t=s) ∨
      (c=1 ∧ (∃o,s.objects k=some o ∧ o.state=.deleting ∧ o.incarnation=n) ∧
        (∀d∈s.deletes,d.token≠token) ∧
        t={ s with deletes := s.deletes++[⟨token,k,n,id,false,i⟩] }) := by
  rw [Store.beginStagingDelete] at h
  cases hk : s.objects k with
  | none =>
    rw [hk] at h
    cases h
    exact .inl ⟨rfl,rfl⟩
  | some o =>
    rw [hk] at h
    dsimp only at h
    split at h
    · rename_i hc
      obtain ⟨_,hd,h⟩ := bind_ok h
      have hfresh := demand_ok hd
      rw [Bool.not_eq_true',any_eq_false] at hfresh
      cases h
      exact .inr ⟨rfl,⟨o,rfl,hc.2.2,hc.1⟩,fun d hm he => hfresh d hm (decide_eq_true he),rfl⟩
    · cases h
      exact .inl ⟨rfl,rfl⟩

theorem beginDelete_kept (h : Sound s) (hok : s.beginStagingDelete i id k n token=.ok (c,t)) :
    Harmless s t ∧ (c≠0 → Holds i t ⟨token,k,n,id,false,i⟩) := by
  obtain ⟨rfl,rfl⟩ | ⟨rfl,hobj,hfresh,rfl⟩ := beginDelete_ok hok
  · exact ⟨.refl h,fun hc => absurd rfl hc⟩
  · have hlost : ∀l∈s.lostDeletes,l.token≠token := by
      intro l hl he
      obtain ⟨d,hd,hdt,-⟩ := h.lost l hl
      exact hfresh d hd (hdt.trans he)
    refine ⟨⟨⟨h.deleting,?_,?_,?_,h.references,h.resolves,h.deletions⟩,fun j =>
      ⟨progress_of_eq rfl rfl,fun d hd _ => ⟨mem_append_left _ hd,fun hl => hl⟩⟩⟩,
      fun _ => ⟨mem_append_right _ (mem_singleton.mpr rfl),rfl,rfl,hlost⟩⟩
    · intro d hd hc
      rcases mem_append.mp hd with hd | hd
      · exact h.ticket d hd hc
      · obtain rfl := mem_singleton.mp hd
        exact hobj
    · change (List.map _ (s.deletes++_)).Nodup
      rw [map_append,nodup_append]
      refine ⟨h.tokens,nodup_singleton _,fun a ha b hb => ?_⟩
      obtain ⟨d,hd,rfl⟩ := mem_map.mp ha
      rw [map_singleton,mem_singleton] at hb
      rw [hb]
      exact hfresh d hd
    · intro l hl
      obtain ⟨d,hd,hrest⟩ := h.lost l hl
      exact ⟨d,mem_append_left _ hd,hrest⟩

theorem delete_harmless (h : Sound s) (hd : d∈s.deletes)
    (hc : d.completed=false) : Harmless s (s.delete d.key d.incarnation) := by
  obtain ⟨o,ho,hs,hi⟩ := h.ticket d hd hc
  have hbusy : s.free d.key=false := by
    rw [free_some ho,hs]
    rfl
  have hkept : ∀k,s.free k=true → (s.delete d.key d.incarnation).bucket k=s.bucket k := by
    intro k hk
    change (if k=d.key then none else s.bucket k)=_
    split
    · rename_i he
      rw [he,hbusy] at hk
      cases hk
    · rfl
  refine ⟨⟨h.deleting,h.ticket,h.tokens,h.lost,h.references,?_,?_⟩,fun j =>
    ⟨fun k => ⟨le_refl _,fun _ hf => hf,fun _ hf p hp => ?_⟩,owned_of_eq rfl rfl j⟩⟩
  · intro r hr hg
    obtain ⟨p,hp,hm⟩ := h.resolves r hr hg
    have hsame : r.key=r.fenced := by rw [Receipt.key,Receipt.fenced,hg.binding]
    have hfree := h.references r hr
    rw [← hsame] at hfree
    exact ⟨p,(hkept _ hfree).trans hp,hm⟩
  · intro x hx
    rcases mem_append.mp hx with hx | hx
    · exact h.deletions x hx
    · obtain rfl := mem_singleton.mp hx
      have hcur := incarnation_some ho
      exact ⟨h.deleting _ o ho hs,show s.incarnation d.key ≤ d.incarnation by omega⟩
  · exact (hkept k hf).trans hp

theorem lose_kept (h : Sound s) (hd : Holds i s d) :
    Sound { s with lostDeletes := s.lostDeletes++[⟨d.key,d.incarnation,d.token⟩] } ∧
      ∀j,j≠i → Relies j s { s with lostDeletes := s.lostDeletes++[⟨d.key,d.incarnation,d.token⟩] } := by
  refine ⟨⟨h.deleting,h.ticket,h.tokens,?_,h.references,h.resolves,h.deletions⟩,fun j hj =>
    ⟨progress_of_eq rfl rfl,fun e he ho => ⟨he,fun hl => ?_⟩⟩⟩
  · intro l hl
    rcases mem_append.mp hl with hl | hl
    · exact h.lost l hl
    · obtain rfl := mem_singleton.mp hl
      exact ⟨d,hd.mem,rfl,rfl,rfl,hd.pending⟩
  · obtain ⟨l,hl,het⟩ := hl
    rcases mem_append.mp hl with hl | hl
    · exact ⟨l,hl,het⟩
    · obtain rfl := mem_singleton.mp hl
      have hde := ticket_unique h hd.mem he het
      rw [← hde,hd.owner] at ho
      exact absurd ho.symm hj

theorem landDelete_harmless {l : LostDelete} (h : Sound s)
    (hl : s.lostDeletes[n]?=some l) : Harmless s
      (({ s with lostDeletes := s.lostDeletes.eraseIdx n } : Store).delete l.key l.incarnation) := by
  have hsub : ∀x∈s.lostDeletes.eraseIdx n,x∈s.lostDeletes := fun x hx => mem_of_mem_eraseIdx hx
  have herase : Harmless s { s with lostDeletes := s.lostDeletes.eraseIdx n } := by
    refine ⟨⟨h.deleting,h.ticket,h.tokens,fun x hx => h.lost x (hsub x hx),h.references,h.resolves,
      h.deletions⟩,fun j => ⟨progress_of_eq rfl rfl,fun d hd _ => ⟨hd,fun hx => ?_⟩⟩⟩
    obtain ⟨x,hx,he⟩ := hx
    exact ⟨x,hsub x hx,he⟩
  obtain ⟨d,hd,-,hk,hi,hc⟩ := h.lost l (List.mem_of_getElem? hl)
  have hdel := delete_harmless herase.sound hd hc
  rw [hk,hi] at hdel
  exact herase.trans hdel

theorem completeDelete_mem (h : d∈(s.completeDelete token).deletes) (hc : d.completed=false) :
    d∈s.deletes ∧ d.token≠token := by
  obtain ⟨e,he,hd⟩ := mem_map.mp h
  split at hd
  · rw [← hd] at hc
    cases hc
  · rename_i hne
    rw [← hd]
    exact ⟨he,hne⟩

theorem completeDelete_other (h : d∈s.deletes)
    (ht : d.token≠token) : d∈(s.completeDelete token).deletes :=
  mem_map.mpr ⟨d,h,if_neg ht⟩

theorem completeDelete_kept (h : Sound s) (hd : Holds i s d) : Sound (s.completeDelete d.token) ∧
      ∀j,j≠i → Relies j s (s.completeDelete d.token) := by
  refine ⟨⟨h.deleting,fun e he hc => h.ticket e (completeDelete_mem he hc).1 hc,?_,?_,h.references,
    h.resolves,h.deletions⟩,fun j hj => ⟨progress_of_eq rfl rfl,fun e he ho => ⟨?_,fun hl => hl⟩⟩⟩
  · change (List.map _ (List.map _ s.deletes)).Nodup
    rw [map_map]
    have hsame : (StagingDelete.token ∘ fun e : StagingDelete =>
        if e.token=d.token then { e with completed := true } else e)=StagingDelete.token := by
      funext e
      simp only [Function.comp_apply]
      split <;> rfl
    rw [hsame]
    exact h.tokens
  · intro l hl
    obtain ⟨e,he,ht,hrest⟩ := h.lost l hl
    exact ⟨e,completeDelete_other he fun h2 => hd.here l hl (ht.symm.trans h2),ht,hrest⟩
  · apply completeDelete_other he
    intro ht
    rw [ticket_unique h he hd.mem ht,hd.owner] at ho
    exact hj ho.symm

theorem markDeleted_harmless (h : Sound s) (hok : s.markDeleted k n=.ok t) : Harmless s t := by
  rw [Store.markDeleted] at hok
  cases hk : s.objects k with
  | none =>
    rw [hk] at hok
    exact Except.ok.inj hok ▸ .refl h
  | some o =>
    rw [hk] at hok
    dsimp only at hok
    split at hok
    · rename_i hc
      obtain ⟨_,hd,hok⟩ := bind_ok hok
      have hnone := demand_ok hd
      rw [Bool.not_eq_true',Store.openDelete,any_eq_false] at hnone
      obtain rfl := Except.ok.inj hok
      refine h.row (setObject_same s k _) (fun l hl => setObject_other s _ hl) rfl rfl rfl rfl rfl
        (fun _ _ => rfl) ?_ ?_ ?_ ?_ ?_
      · intro hs
        cases hs
      · intro d hm hdk hcomp
        have hcontra := hnone d hm
        rw [hdk,hcomp] at hcontra
        simp at hcontra
      · intro r hm hrk
        have hfree := h.references r hm
        rw [hrk,free_some hk,hc.2.1] at hfree
        cases hfree
      · rw [incarnation_some hk]
      · intro _ hs
        cases hs
    · exact Except.ok.inj hok ▸ .refl h

/-- What a receipt says of the store: its object is there as long as the incarnation is. -/
structure Verified (s : Store) (r : Receipt) : Prop where
  le : r.seen ≤ s.incarnation r.key
  object : s.incarnation r.key=r.seen → s.free r.key=true → s.Resolves r

theorem Verified.mono {i : Nat} {s t : Store} {r : Receipt} (h : Verified s r)
    (hr : Relies i s t) : Verified t r := by
  have hp := hr.progress r.key
  have h1 := h.le
  have h2 := hp.le
  refine ⟨by omega,fun he hf => ?_⟩
  have hsame : t.incarnation r.key=s.incarnation r.key := by omega
  obtain ⟨o,ho,hm⟩ := h.object (by omega) (hp.free hsame hf)
  exact ⟨o,hp.kept hsame hf o ho,hm⟩

theorem commit_harmless {candidate : JsString} {rs : List Receipt} (h : Sound s)
    (hv : ∀r∈rs,Verified s r) (hok : s.commitReceipts candidate rs=.ok t) : Harmless s t := by
  rw [Store.commitReceipts] at hok
  obtain ⟨_,hd,hok⟩ := bind_ok hok
  have hfree := demand_ok hd
  rw [all_eq_true] at hfree
  obtain rfl := Except.ok.inj hok
  refine ⟨⟨h.deleting,h.ticket,h.tokens,h.lost,?_,?_,h.deletions⟩,fun j =>
    ⟨progress_of_eq rfl rfl,owned_of_eq rfl rfl j⟩⟩
  · intro r hr
    rcases mem_append.mp hr with hr | hr
    · exact h.references r hr
    · obtain ⟨q,hq,rfl⟩ := mem_map.mp hr
      exact hfree q hq
  · intro r hr hg
    rcases mem_append.mp hr with hr | hr
    · exact h.resolves r hr hg
    · obtain ⟨q,hq,rfl⟩ := mem_map.mp hr
      have hbinding : q.row.binding=q.stored := hg.binding
      have hsame : q.fenced=q.key := by rw [Receipt.key,Receipt.fenced,hbinding]
      have hseen : q.seen=s.incarnation q.key := hg.incarnation
      exact (hv q hq).object hseen.symm (hsame ▸ hfree q hq)

end CardKeepr.Staging
