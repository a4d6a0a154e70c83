import CardKeepr.Shared.JsonPointer

namespace CardKeepr.Shared.JsonPointer

open List

variable {n : Nat} {k : JsString} {p q r : Path} {K L : Set Path} {a o t v t' nothing : Value}

-- A list of writes taken back by putting at each path, in the order of the writes, what the
-- document had there. One value of the document may stand for "nothing": it is deleted instead.

/-- The path `q` leads to an end above the end of `p`. -/
def above (q p : Path) : Bool := q.isPrefixOf p && q≠p

theorem above_iff : above q p=true ↔ ∃r,r≠[] ∧ p=q++r := by
  rw [above,Bool.and_eq_true, isPrefixOf_iff_prefix,decide_eq_true_eq]
  constructor
  · rintro ⟨⟨r,rfl⟩,hne⟩
    exact ⟨r,fun hr => hne (by rw [hr,append_nil]),rfl⟩
  · rintro ⟨r,hr,rfl⟩
    exact ⟨prefix_append q r,fun heq => hr (by simpa using heq)⟩

theorem above_concat : above q (p++[k])=true ↔ q<+:p := by
  rw [above_iff]
  constructor
  · rintro ⟨r,hr,heq⟩
    rcases eq_nil_or_concat r with rfl | ⟨r,j,rfl⟩
    · exact absurd rfl hr
    · rw [concat_eq_append,← append_assoc] at heq
      exact ⟨r,(append_inj' heq rfl).1.symm⟩
  · rintro ⟨r,rfl⟩
    exact ⟨r++[k],by simp,by rw [append_assoc]⟩

theorem opens_append (hr : r≠[]) : opens (q++r) t=((valueAt q t).map (opens r)).getD false := by
  induction q generalizing t with
  | nil => rfl
  | cons k q ih =>
    have hne : q++r≠[] := by simp [hr]
    cases hqr : q++r with
    | nil => exact absurd hqr hne
    | cons k' p =>
      cases t with
      | own κ ms =>
        rw [cons_append,hqr,opens,valueAt]
        cases lookupMember k ms with
        | none => rfl
        | some c =>
          dsimp only
          rw [← hqr]
          exact ih
      | scalar s => rw [cons_append,hqr]; rfl

theorem opens_concat : opens (p++[k]) t=true ↔ ∃κ ms,valueAt p t=some (.own κ ms) := by
  rw [opens_append (by simp)]
  cases valueAt p t with
  | none => simp
  | some v => cases v <;> simp [opens]

theorem valueAt_deleteAt_self {p : Path} {t : Value} (hp : p≠[]) : valueAt p (deleteAt p t)=none := by
  induction p generalizing t with
  | nil => exact absurd rfl hp
  | cons k p ih =>
    cases t with
    | own κ ms =>
      cases p with
      | nil =>
        have hnot : k∉(removeMember k ms).map Prod.fst := by
          intro hmem
          obtain ⟨m,hm,hk⟩ := mem_map.mp hmem
          have := (mem_filter.mp hm).2
          simp [hk] at this
        simp only [deleteAt,valueAt,lookupMember_none.mpr hnot]
      | cons k' p =>
        simp only [deleteAt]
        cases hl : lookupMember k ms with
        | none => simp only [valueAt,hl]
        | some c =>
          rw [valueAt,lookupMember_setMember_self]
          exact ih (by simp)
    | _ => cases p <;> rfl

theorem valueAt_deleteAt_none (h : valueAt p t=none) : valueAt p (deleteAt q t)=none := by
  induction q generalizing p t with
  | nil => cases t <;> exact h
  | cons k q ih =>
    cases t with
    | own κ ms =>
      cases p with
      | nil => cases h
      | cons j p =>
        cases q with
        | nil =>
          simp only [deleteAt,valueAt] at h ⊢
          by_cases hjk : j=k
          · have := @valueAt_deleteAt_self [k] (.own κ ms) (by simp)
            simp only [deleteAt,valueAt] at this
            rw [hjk]
            cases hl : lookupMember k (removeMember k ms) with
            | none => rfl
            | some c => simp [hl] at this
          · rw [lookupMember_removeMember_ne ms hjk]
            exact h
        | cons k' q =>
          simp only [deleteAt]
          cases hl : lookupMember k ms with
          | none => exact h
          | some c =>
            simp only [valueAt] at h ⊢
            by_cases hjk : j=k
            · subst hjk
              rw [hl] at h
              rw [lookupMember_setMember_self]
              exact ih h
            · rw [lookupMember_setMember_ne _ ms hjk]
              exact h
    | _ => cases q <;> exact h

theorem opens_setAt_above (h : setAt q v t=some t') (hr : r≠[]) : opens (q++r) t'=opens r v := by
  rw [opens_append hr,valueAt_setAt_self h]
  rfl

theorem opens_deleteAt_above (hq : q≠[]) (hr : r≠[]) : opens (q++r) (deleteAt q t)=false := by
  rw [opens_append hr,valueAt_deleteAt_self hq]
  rfl

theorem ne_nil_of_setAt (h : setAt p v t=some t') : p≠[] := by
  rintro rfl
  simp [setAt] at h

theorem opens_setAt_other (h : setAt q v t=some t')
    (hqp : above q p=false) : opens p t'=opens p t := by
  rcases eq_nil_or_concat p with rfl | ⟨p,k,rfl⟩
  · rfl
  rw [concat_eq_append] at hqp ⊢
  have hq : ¬q<+:p := by
    rw [← above_concat (k := k),hqp]
    simp
  rw [Bool.eq_iff_iff,opens_concat,opens_concat]
  by_cases hpq : p<+:q
  · -- the write goes on below the last parent, which has members before and after it
    obtain ⟨r,rfl⟩ := hpq
    have hr : r≠[] := fun hr => hq (by simp [hr])
    have hobject : ∀d,opens (p++r) d=true → ∃κ ms,valueAt p d=some (.own κ ms) := by
      intro d hd
      rw [opens_append hr] at hd
      cases hv : valueAt p d with
      | none => rw [hv] at hd; cases hd
      | some c =>
        rw [hv] at hd
        cases c with
        | own κ ms => exact ⟨κ,ms,rfl⟩
        | scalar s => cases r with
          | nil => exact absurd rfl hr
          | cons j r => cases r <;> simp [opens] at hd
    have hold := hobject t (opens_of_setAt h)
    have hnew := hobject t' (opens_of_valueAt (valueAt_setAt_self h) (ne_nil_of_setAt h))
    exact ⟨fun _ => hold,fun _ => hnew⟩
  · rw [valueAt_setAt_other h hq hpq]

theorem opens_deleteAt_other (hq : above q p=false) : opens p (deleteAt q t)=opens p t := by
  induction q generalizing p t with
  | nil => cases t <;> rfl
  | cons k q ih =>
    cases t with
    | own κ ms =>
      cases p with
      | nil => cases q with
        | nil => rfl
        | cons k' q => simp only [deleteAt]; split <;> rfl
      | cons j p =>
        cases p with
        | nil => cases q with
          | nil => rfl
          | cons k' q => simp only [deleteAt]; split <;> rfl
        | cons j' p =>
          cases q with
          | nil =>
            have hjk : j≠k := by
              rintro rfl
              have : above [j] (j::j'::p)=true := above_iff.mpr ⟨j'::p,by simp,rfl⟩
              rw [this] at hq
              cases hq
            simp only [deleteAt,opens,lookupMember_removeMember_ne ms hjk]
          | cons k' q =>
            simp only [deleteAt]
            cases hl : lookupMember k ms with
            | none => rfl
            | some c =>
              simp only [opens]
              by_cases hjk : j=k
              · subst hjk
                have hrest : above (k'::q) (j'::p)=false := by
                  rw [Bool.eq_false_iff,Ne,above_iff] at hq ⊢
                  rintro ⟨r,hr,heq⟩
                  exact hq ⟨r,hr,by rw [heq]; rfl⟩
                rw [lookupMember_setMember_self,hl]
                exact ih hrest
              · rw [lookupMember_setMember_ne _ ms hjk]
    | _ => cases q <;> rfl

def writes (ws : List (Path × Value)) (t : Value) : Option Value :=
  ws.foldlM (fun t w => setAt w.1 w.2 t) t

/-- What stood at a path, put back: a value, or nothing. -/
def putBack (p : Path) (o : Option Value) (t : Value) : Option Value :=
  match o with
  | some o => setAt p o t
  | none => some (deleteAt p t)

/-- The value of `a` at a path, unless it is the one that stands for nothing. -/
def kept (nothing a : Value) (p : Path) : Option Value :=
  (valueAt p a).filter fun o => o≠nothing

/-- Each path of the list put back as `a` has it, in the order of the list. -/
def restores (nothing a : Value) (ws : List (Path × Value)) (t : Value) : Option Value :=
  ws.foldlM (fun t w => putBack w.1 (kept nothing a w.1) t) t

def lastAbove (p : Path) (ws : List (Path × Value)) : Option (Path × Value) :=
  (ws.filter fun w => above w.1 p).getLast?

theorem lastAbove_concat (p : Path) (ws : List (Path × Value)) (w : Path × Value) :
    lastAbove p (ws++[w])=if above w.1 p then some w else lastAbove p ws := by
  rw [lastAbove,filter_append]
  by_cases h : above w.1 p=true
  · simp [h]
  · simp [h,lastAbove]

theorem lastAbove_append_cons (p : Path) (pre post : List (Path × Value)) (w : Path × Value) :
    lastAbove p (pre++w::post)=(lastAbove p post).or (lastAbove p (pre++[w])) := by
  have hsplit : pre++w::post=(pre++[w])++post := by simp
  rw [hsplit,lastAbove,filter_append,List.getLast?_append]
  rfl

theorem writes_concat {ws : List (Path × Value)} {w : Path × Value}
    (h : writes (ws++[w]) a=some t) : ∃s,writes ws a=some s ∧ setAt w.1 w.2 s=some t := by
  simp only [writes,foldlM_append,foldlM_cons,foldlM_nil,Option.bind_eq_bind,
    Option.bind_eq_some_iff] at h
  obtain ⟨s,hs,t',ht,hpure⟩ := h
  cases hpure
  exact ⟨s,hs,ht⟩

theorem restores_concat {ws : List (Path × Value)} {w : Path × Value} : restores nothing a (ws++[w])
    t=some t' ↔ ∃s,restores nothing a ws t=some s ∧ putBack w.1 (kept nothing a w.1) s=some t' := by
  simp only [restores,foldlM_append,foldlM_cons,foldlM_nil,Option.bind_eq_bind,
    Option.bind_eq_some_iff]
  constructor
  · rintro ⟨s,hs,u,hu,hpure⟩
    cases hpure
    exact ⟨s,hs,hu⟩
  · rintro ⟨s,hs,hu⟩
    exact ⟨s,hs,t',hu,rfl⟩

theorem writes_ne_nil {ws : List (Path × Value)} (h : writes ws a=some t) : ∀w∈ws,w.1≠[] := by
  induction ws using List.reverseRecOn generalizing t with
  | nil => simp
  | append_singleton ws w ih =>
    obtain ⟨s,hs,ht⟩ := writes_concat h
    intro w' hw'
    rcases mem_append.mp hw' with hw' | hw'
    · exact ih hs w' hw'
    · rw [mem_singleton.mp hw']
      exact ne_nil_of_setAt ht

theorem opens_writes {ws : List (Path × Value)} (h : writes ws a=some t) (p : Path) :
    opens p t=match lastAbove p ws with
      | some w => opens (p.drop w.1.length) w.2
      | none => opens p a := by
  induction ws using List.reverseRecOn generalizing t with
  | nil =>
    cases h
    rfl
  | append_singleton ws w ih =>
    obtain ⟨s,hs,ht⟩ := writes_concat h
    rw [lastAbove_concat]
    by_cases hw : above w.1 p=true
    · obtain ⟨r,hr,rfl⟩ := above_iff.mp hw
      rw [if_pos hw]
      dsimp only
      rw [drop_left,opens_setAt_above ht hr]
    · rw [if_neg hw,opens_setAt_other ht (by simpa using hw)]
      exact ih hs

theorem opens_restores {ws : List (Path × Value)}
    (h : restores nothing a ws t=some t') (hne : ∀w∈ws,w.1≠[])
    (hp : valueAt p a=some o) : opens p t'=match lastAbove p ws with
      | some w => decide (valueAt w.1 a≠some nothing)
      | none => opens p t := by
  induction ws using List.reverseRecOn generalizing t' with
  | nil =>
    cases h
    rfl
  | append_singleton ws w ih =>
    obtain ⟨s,hs,ht⟩ := restores_concat.mp h
    have hrest := ih hs fun w' hw' => hne w' (mem_append_left _ hw')
    rw [lastAbove_concat]
    by_cases hw : above w.1 p=true
    · obtain ⟨r,hr,rfl⟩ := above_iff.mp hw
      rw [if_pos hw]
      rw [valueAt_append] at hp
      obtain ⟨b,hb,hr'⟩ := Option.bind_eq_some_iff.mp hp
      dsimp only
      rw [kept,hb] at ht
      by_cases hbn : b=nothing
      · rw [Option.filter_some,if_neg (by simpa using hbn)] at ht
        cases ht
        rw [opens_deleteAt_above (hne w (by simp)) hr,hb,hbn]
        simp
      · rw [Option.filter_some,if_pos (by simpa using hbn)] at ht
        rw [opens_setAt_above ht hr,opens_of_valueAt hr' hr,hb]
        simpa using hbn
    · rw [if_neg hw,← hrest]
      rw [Bool.not_eq_true] at hw
      cases hk : kept nothing a w.1 with
      | none =>
        rw [hk] at ht
        cases ht
        exact opens_deleteAt_other hw
      | some b =>
        rw [hk] at ht
        exact opens_setAt_other ht hw

theorem putBack_some_iff {o : Option Value} :
    (∃t',putBack p o t=some t') ↔ (o.isSome=true → opens p t=true) := by
  cases o with
  | none => exact ⟨fun _ h => absurd h (by simp),fun _ => ⟨_,rfl⟩⟩
  | some o => exact ⟨fun ⟨_,h⟩ _ => opens_of_setAt h,fun h => setAt_of_opens o (h rfl)⟩

/-- A path can be put back: nothing is, or the parents on the way are objects when its turn comes. -/
def Ready (nothing a t : Value) (pre : List (Path × Value)) (p : Path) : Prop :=
  (kept nothing a p).isSome=true → match lastAbove p pre with
    | some w => valueAt w.1 a≠some nothing
    | none => opens p t=true

theorem restores_some_iff {ws : List (Path × Value)} (hne : ∀w∈ws,w.1≠[]) :
    (∃t',restores nothing a ws t=some t') ↔
      ∀pre w post,ws=pre++w::post → Ready nothing a t pre w.1 := by
  induction ws using List.reverseRecOn with
  | nil => exact ⟨fun _ pre w post h => by simp at h,fun _ => ⟨t,rfl⟩⟩
  | append_singleton ws w ih =>
    have ih := ih fun w' hw' => hne w' (mem_append_left _ hw')
    -- the last path is ready when it is open after the others
    have hlast : ∀s,restores nothing a ws t=some s →
        ((∃t',putBack w.1 (kept nothing a w.1) s=some t') ↔ Ready nothing a t ws w.1) := by
      intro s hs
      rw [putBack_some_iff,Ready]
      apply imp_congr_right
      intro hkept
      obtain ⟨o,ho⟩ := Option.isSome_iff_exists.mp hkept
      have hp := (Option.filter_eq_some_iff.mp ho).1
      rw [opens_restores hs (fun w' hw' => hne w' (mem_append_left _ hw')) hp]
      cases lastAbove w.1 ws with
      | none => exact Iff.rfl
      | some w' => exact decide_eq_true_iff
    constructor
    · rintro ⟨t',h⟩ pre w' post heq
      obtain ⟨s,hs,ht⟩ := restores_concat.mp h
      rcases eq_nil_or_concat post with rfl | ⟨post',x,rfl⟩
      · obtain ⟨hpre,hw⟩ := append_inj' heq rfl
        obtain rfl := singleton_inj.mp hw
        rw [← hpre]
        exact (hlast s hs).mp ⟨t',ht⟩
      · rw [concat_eq_append,← cons_append,← append_assoc] at heq
        obtain ⟨hpre,_⟩ := append_inj' heq rfl
        exact ih.mp ⟨s,hs⟩ pre w' post' hpre
    · intro h
      obtain ⟨s,hs⟩ := ih.mpr fun pre w' post heq =>
        h pre w' (post++[w]) (by rw [heq,append_assoc]; rfl)
      obtain ⟨t',ht⟩ := (hlast s hs).mpr (h ws w [] rfl)
      exact ⟨t',restores_concat.mpr ⟨s,hs,ht⟩⟩

theorem Over.writes {ws : List (Path × Value)} (h : Over K L a t) (hw : writes ws t=some t') :
    Over (K∪{ p | p∈ws.map Prod.fst }) (L∪{ q | ∃w∈ws,q∈grows w.1 a }) a t' := by
  induction ws generalizing K L t with
  | nil =>
    cases hw
    exact h.mono Set.subset_union_left Set.subset_union_left
  | cons w ws ih =>
    simp only [JsonPointer.writes,foldlM_cons,Option.bind_eq_bind,Option.bind_eq_some_iff] at hw
    obtain ⟨s,hs,hw⟩ := hw
    refine (ih (h.set hs) hw).mono ?_ ?_
    · rintro q ((rfl | hq) | hq)
      · exact Or.inr (by simp)
      · exact Or.inl hq
      · exact Or.inr (mem_cons_of_mem _ hq)
    · rintro q ((hq | hq) | ⟨w',hw',hq⟩)
      · exact Or.inl hq
      · exact Or.inr ⟨w,mem_cons_self,hq⟩
      · exact Or.inr ⟨w',mem_cons_of_mem _ hw',hq⟩

theorem mem_of_lookup {c : Value} {ms : List (JsString × Value)}
    (h : lookupMember k ms=some c) : k∈ms.map Prod.fst := by
  by_contra hn
  rw [lookupMember_none.mpr hn] at h
  cases h

/-- Where the document has something, nothing gets longer. -/
theorem grows_found (h : valueAt p a=some o) : grows p a=∅ := by
  apply Set.eq_empty_of_forall_notMem
  rintro q ⟨k,κ,ms,rfl,hv,hne⟩
  rw [valueAt_append,hv,Option.bind_some,valueAt] at h
  cases hl : lookupMember k ms with
  | none =>
    rw [hl] at h
    cases h
  | some c => exact hne (Kind.grown_mem (mem_of_lookup hl))

theorem deleteAt_concat {p : Path} {k : JsString} {t : Value} (hp : p≠[]) :
    deleteAt (p++[k]) t=t ∨ ∃v,setAt p v t=some (deleteAt (p++[k]) t) := by
  induction p generalizing t with
  | nil => exact absurd rfl hp
  | cons j p ih =>
    cases t with
    | own κ ms =>
      cases p with
      | nil =>
        simp only [cons_append,nil_append,deleteAt]
        cases hl : lookupMember j ms with
        | none => exact .inl rfl
        | some c =>
          refine .inr ⟨deleteAt [k] c,?_⟩
          rw [setAt,Kind.grown_mem (mem_of_lookup hl)]
      | cons j' p =>
        simp only [cons_append,deleteAt,setAt]
        cases hl : lookupMember j ms with
        | none => exact .inl rfl
        | some c =>
          rcases @ih c (by simp) with heq | ⟨v,hv⟩
          · left
            rw [cons_append] at heq
            dsimp only
            rw [heq,setMember_of_lookup hl]
          · right
            refine ⟨v,?_⟩
            dsimp only
            rw [hv]
            rfl
    | scalar s => left; cases p <;> rfl

theorem Over.delete_member (h : Over K L a t)
    (hp : p≠[]) (hv : valueAt p a=some o) : Over (insert p.dropLast K) L a (deleteAt p t) := by
  rcases eq_nil_or_concat p with rfl | ⟨p,k,rfl⟩
  · exact absurd rfl hp
  rw [concat_eq_append] at hv
  rw [concat_eq_append,dropLast_concat]
  by_cases hnil : p=[]
  · exact .touched _ _ (by simp [hnil])
  · rcases @deleteAt_concat p k t hnil with heq | ⟨v,hset⟩
    · rw [heq]
      exact h.mono (Set.subset_insert _ _) subset_rfl
    · have hover := h.set hset
      rw [valueAt_append] at hv
      obtain ⟨b,hb,-⟩ := Option.bind_eq_some_iff.mp hv
      rwa [grows_found hb,Set.union_empty] at hover

/-- The paths that may still differ after paths have been put back. -/
def remaining (nothing a : Value) : List (Path × Value) → Set Path → Set Path
  | [],K => K
  | w::ws,K => remaining nothing a ws
      (if valueAt w.1 a=some nothing then insert w.1.dropLast K else without K w.1)

/-- The arrays whose lengths may still differ. -/
def longer (nothing a : Value) : List (Path × Value) → Set Path → Set Path
  | [],L => L
  | w::ws,L => longer nothing a ws (if valueAt w.1 a=some nothing then L else without L w.1)

theorem Over.restores {ws : List (Path × Value)}
    (h : Over K L a t) (hne : ∀w∈ws,w.1≠[]) (hw : restores nothing a ws t=some t') :
    Over (remaining nothing a ws K) (longer nothing a ws L) a t' := by
  induction ws generalizing K L t with
  | nil =>
    cases hw
    exact h
  | cons w ws ih =>
    simp only [JsonPointer.restores,foldlM_cons,Option.bind_eq_bind,Option.bind_eq_some_iff] at hw
    obtain ⟨s,hs,hw⟩ := hw
    have hone : Over (if valueAt w.1 a=some nothing then insert w.1.dropLast K
        else without K w.1) (if valueAt w.1 a=some nothing then L else without L w.1) a s := by
      rw [kept] at hs
      cases hv : valueAt w.1 a with
      | none =>
        rw [hv] at hs
        cases hs
        rw [if_neg (by simp),if_neg (by simp)]
        exact h.delete hv
      | some o =>
        rw [hv,Option.filter_some] at hs
        by_cases ho : o=nothing
        · rw [if_neg (by simpa using ho)] at hs
          cases hs
          rw [if_pos (by rw [ho]),if_pos (by rw [ho])]
          exact h.delete_member (hne w mem_cons_self) hv
        · rw [if_pos (by simpa using ho)] at hs
          rw [if_neg (by simpa using ho),if_neg (by simpa using ho)]
          exact h.restore hv hs
    exact ih hone (fun w' hw' => hne w' (mem_cons_of_mem _ hw')) hw

theorem remaining_empty (hn : ∀r,r≠[] → valueAt r nothing≠some nothing)
    {ws : List (Path × Value)} (hne : ∀w∈ws,w.1≠[])
    (hmark : ∀pre w post,ws=pre++w::post → valueAt w.1 a=some nothing →
      ∃w'∈post,above w'.1 w.1=true)
    (hK : ∀q∈K,∃w∈ws,valueAt w.1 a≠some nothing ∧ w.1<+:q) : remaining nothing a ws K=∅ := by
  induction ws generalizing K with
  | nil =>
    apply Set.eq_empty_of_forall_notMem
    intro q hq
    obtain ⟨w,hw,_⟩ := hK q hq
    cases hw
  | cons w ws ih =>
    rw [remaining]
    apply ih (fun w' hw' => hne w' (mem_cons_of_mem _ hw'))
    · intro pre w' post heq hv
      exact hmark (w::pre) w' post (by rw [heq]; rfl) hv
    · intro q hq
      split at hq
      · rename_i hv
        rcases hq with rfl | hq
        · obtain ⟨w',hw',habove⟩ := hmark [] w ws rfl hv
          refine ⟨w',hw',?_,?_⟩
          · -- nothing is not inside itself
            intro hv'
            obtain ⟨r,hr,heq⟩ := above_iff.mp habove
            rw [heq,valueAt_append,hv'] at hv
            exact hn r hr hv
          · have hcut : w.1.dropLast++[w.1.getLast (hne w mem_cons_self)]=w.1 :=
              dropLast_append_getLast _
            rw [← hcut] at habove
            exact above_concat.mp habove
        · obtain ⟨w',hw',hplain,hpre⟩ := hK q hq
          rcases mem_cons.mp hw' with rfl | hw'
          · exact absurd hv hplain
          · exact ⟨w',hw',hplain,hpre⟩
      · obtain ⟨w',hw',hplain,hpre⟩ := hK q hq.1
        rcases mem_cons.mp hw' with rfl | hw'
        · exact absurd hpre hq.2
        · exact ⟨w',hw',hplain,hpre⟩

theorem longer_empty {ws : List (Path × Value)}
    (hL : ∀q∈L,∃w∈ws,valueAt w.1 a≠some nothing ∧ w.1<+:q) : longer nothing a ws L=∅ := by
  induction ws generalizing L with
  | nil =>
    apply Set.eq_empty_of_forall_notMem
    intro q hq
    obtain ⟨w,hw,_⟩ := hL q hq
    cases hw
  | cons w ws ih =>
    rw [longer]
    apply ih
    intro q hq
    split at hq
    · rename_i hv
      obtain ⟨w',hw',hplain,hpre⟩ := hL q hq
      rcases mem_cons.mp hw' with rfl | hw'
      · exact absurd hv hplain
      · exact ⟨w',hw',hplain,hpre⟩
    · obtain ⟨w',hw',hplain,hpre⟩ := hL q hq.1
      rcases mem_cons.mp hw' with rfl | hw'
      · exact absurd hpre hq.2
      · exact ⟨w',hw',hplain,hpre⟩

theorem restores_none {ws : List (Path × Value)}
    (h : restores nothing a ws t=some t') (hp : valueAt p a=some nothing)
    (hws : ∀w∈ws,above w.1 p=false) (ht : valueAt p t=none) : valueAt p t'=none := by
  induction ws using List.reverseRecOn generalizing t' with
  | nil =>
    cases h
    exact ht
  | append_singleton ws w ih =>
    obtain ⟨s,hs,hput⟩ := restores_concat.mp h
    have hnone := ih hs fun w' hw' => hws w' (mem_append_left _ hw')
    cases hk : kept nothing a w.1 with
    | none =>
      rw [hk] at hput
      cases hput
      exact valueAt_deleteAt_none hnone
    | some o =>
      rw [hk] at hput
      obtain ⟨ho,hplain⟩ := Option.filter_eq_some_iff.mp hk
      have hwp : ¬w.1<+:p := by
        rintro ⟨r,rfl⟩
        by_cases hr : r=[]
        · rw [hr,append_nil,ho] at hp
          cases hp
          simp at hplain
        · have habove : above w.1 (w.1++r)=true := above_iff.mpr ⟨r,hr,rfl⟩
          rw [hws w (by simp)] at habove
          cases habove
      have hpw : ¬p<+:w.1 := by
        rintro ⟨r,hr⟩
        have hne : r≠[] := by
          rintro rfl
          exact hwp (by simp [← hr])
        have hopen := opens_of_setAt hput
        rw [← hr,opens_append hne,hnone] at hopen
        cases hopen
      rw [valueAt_setAt_other hput hwp hpw]
      exact hnone

/-- The writes that putting back undoes. At each path the document has something: if it is the
value that stands for nothing, a later path of the list is above it; else the nearest step that
closed or opened the way to it, an earlier path of the list or the last later write above it,
has has left objects or arrays there. -/
def Restorable (nothing a : Value) (ws : List (Path × Value)) : Prop :=
  ∀pre w post,ws=pre++w::post → ∀o,valueAt w.1 a=some o →
    if o=nothing then ∃w'∈post,above w'.1 w.1=true
    else match lastAbove w.1 pre with
      | some w' => valueAt w'.1 a≠some nothing
      | none => match lastAbove w.1 post with
        | some w' => opens (w.1.drop w'.1.length) w'.2=true
        | none => True

theorem opens_writes_split {pre post : List (Path × Value)} {w : Path × Value}
    (hw : writes (pre++w::post) a=some t) (ho : valueAt w.1 a=some o) (hne : w.1≠[])
    (hpre : lastAbove w.1 pre=none) : opens w.1 t=true ↔ match lastAbove w.1 post with
      | some w' => opens (w.1.drop w'.1.length) w'.2=true
      | none => True := by
  have hself : above w.1 w.1=false := by simp [above]
  rw [opens_writes hw,lastAbove_append_cons,lastAbove_concat,hself,hpre]
  cases lastAbove w.1 post with
  | none =>
    have hopen := opens_of_valueAt ho hne
    simpa using hopen
  | some w' => exact Iff.rfl

theorem valueAt_set_array {ms : List (JsString × Value)} (h : setAt p v t=some t')
    (hq : valueAt q t=some (.own (.array n) ms)) (hpq : ¬p<+:q) : ∃m ns,valueAt q t'=some
    (.own (.array m) ns) ∧ n ≤ m ∧ ∀k,p=q++[k] → Kind.grown (.array n) k ms=.array m := by
  induction p generalizing q t t' with
  | nil => simp [setAt] at h
  | cons k p ih =>
    cases t with
    | scalar s => cases p <;> simp [setAt] at h
    | own κ ts =>
      cases q with
      | nil =>
        obtain ⟨rfl,rfl⟩ := Value.own.inj (Option.some.inj hq)
        cases p with
        | nil =>
          cases h
          obtain ⟨m,hm,hle⟩ : ∃m,Kind.grown (.array n) k ts=.array m ∧ n ≤ m := by
            unfold Kind.grown
            dsimp only
            split
            · exact ⟨n,rfl,le_rfl⟩
            · split
              · exact ⟨_,rfl,le_max_left _ _⟩
              · exact ⟨n,rfl,le_rfl⟩
          refine ⟨m,setMember k v ts,by rw [valueAt,hm],hle,?_⟩
          intro j hj
          obtain rfl := (List.cons.inj hj).1
          exact hm
        | cons k' p =>
          simp only [setAt] at h
          cases hl : lookupMember k ts with
          | none => rw [hl] at h; cases h
          | some c =>
            rw [hl] at h
            obtain ⟨c',-,rfl⟩ := Option.map_eq_some_iff.mp h
            refine ⟨n,_,rfl,le_rfl,?_⟩
            intro j hj
            cases hj
      | cons j q =>
        by_cases hjk : j=k
        · subst hjk
          have hpq' : ¬p<+:q := fun hp => hpq (cons_prefix_cons.mpr ⟨rfl,hp⟩)
          cases p with
          | nil => exact absurd nil_prefix hpq'
          | cons k' p =>
            simp only [setAt] at h
            cases hl : lookupMember j ts with
            | none => rw [hl] at h; cases h
            | some c =>
              rw [hl] at h
              obtain ⟨c',hc',rfl⟩ := Option.map_eq_some_iff.mp h
              simp only [valueAt,hl] at hq
              obtain ⟨m,ns,hv,hle,hgrown⟩ := ih hc' hq hpq'
              refine ⟨m,ns,?_,hle,fun i hi => hgrown i (List.cons.inj hi).2⟩
              simp only [valueAt,lookupMember_setMember_self]
              exact hv
        · obtain ⟨_,c,rfl⟩ := setAt_own h
          refine ⟨n,ms,?_,le_rfl,fun i hi => absurd (List.cons.inj hi).1.symm hjk⟩
          simpa only [valueAt,lookupMember_setMember_ne c ts hjk] using hq

theorem valueAt_delete_own {κ : Kind} {ms : List (JsString × Value)}
    (hq : valueAt q t=some (.own κ ms)) (hpq : ¬p<+:q) :
    ∃ns,valueAt q (deleteAt p t)=some (.own κ ns) := by
  induction p generalizing q t with
  | nil => exact absurd nil_prefix hpq
  | cons k p ih =>
    cases t with
    | scalar s => cases p <;> exact ⟨ms,hq⟩
    | own κ' ts =>
      cases q with
      | nil =>
        obtain ⟨rfl,rfl⟩ := Value.own.inj (Option.some.inj hq)
        cases p with
        | nil => exact ⟨_,rfl⟩
        | cons k' p =>
          simp only [deleteAt]
          split
          · exact ⟨_,rfl⟩
          · exact ⟨_,rfl⟩
      | cons j q =>
        cases p with
        | nil =>
          have hjk : j≠k := by
            rintro rfl
            exact hpq (cons_prefix_cons.mpr ⟨rfl, nil_prefix⟩)
          refine ⟨ms,?_⟩
          simpa only [deleteAt,valueAt,lookupMember_removeMember_ne ts hjk] using hq
        | cons k' p =>
          simp only [deleteAt]
          cases hl : lookupMember k ts with
          | none => exact ⟨ms,hq⟩
          | some c =>
            by_cases hjk : j=k
            · subst hjk
              simp only [valueAt,hl] at hq
              obtain ⟨ns,hns⟩ := ih hq fun hp => hpq (cons_prefix_cons.mpr ⟨rfl,hp⟩)
              refine ⟨ns,?_⟩
              simp only [valueAt,lookupMember_setMember_self]
              exact hns
            · refine ⟨ms,?_⟩
              simpa only [valueAt,lookupMember_setMember_ne _ ts hjk] using hq

/-- At least `n` is the length of the array at `q`. -/
def Long (q : Path) (n : Nat) (t : Value) : Prop :=
  ∃m ms,valueAt q t=some (.own (.array m) ms) ∧ n ≤ m

theorem Long.set (h : Long q n t) (hs : setAt p v t=some t') (hpq : ¬p<+:q) : Long q n t' := by
  obtain ⟨m,ms,hv,hle⟩ := h
  obtain ⟨m',ns,hv',hle',-⟩ := valueAt_set_array hs hv hpq
  exact ⟨m',ns,hv',hle.trans hle'⟩

theorem Long.writes {ws : List (Path × Value)} (h : Long q n t)
    (hw : writes ws t=some t') (hws : ∀w∈ws,¬w.1<+:q) : Long q n t' := by
  induction ws generalizing t with
  | nil =>
    cases hw
    exact h
  | cons w ws ih =>
    simp only [JsonPointer.writes,foldlM_cons,Option.bind_eq_bind,Option.bind_eq_some_iff] at hw
    obtain ⟨s,hs,hw⟩ := hw
    exact ih (h.set hs (hws w mem_cons_self)) hw fun w' hw' => hws w' (mem_cons_of_mem _ hw')

theorem Long.restores {ws : List (Path × Value)} (h : Long q n t)
    (hw : restores nothing a ws t=some t') (hws : ∀w∈ws,¬w.1<+:q) : Long q n t' := by
  induction ws generalizing t with
  | nil =>
    cases hw
    exact h
  | cons w ws ih =>
    simp only [JsonPointer.restores,foldlM_cons,Option.bind_eq_bind,Option.bind_eq_some_iff] at hw
    obtain ⟨s,hs,hw⟩ := hw
    refine ih ?_ hw fun w' hw' => hws w' (mem_cons_of_mem _ hw')
    cases hk : kept nothing a w.1 with
    | some o =>
      rw [hk] at hs
      exact h.set hs (hws w mem_cons_self)
    | none =>
      rw [hk] at hs
      obtain rfl := Option.some.inj hs
      obtain ⟨m,ms,hv,hle⟩ := h
      obtain ⟨ns,hns⟩ := valueAt_delete_own hv (hws w mem_cons_self)
      exact ⟨m,ns,hns,hle⟩

theorem valueAt_set_none (h : setAt p v t=some t')
    (hq : valueAt q t=none) (hpq : ¬p<+:q) : valueAt q t'=none := by
  by_cases hqp : q<+:p
  · obtain ⟨r,rfl⟩ := hqp
    have hr : r≠[] := by
      rintro rfl
      exact hpq ⟨[],by rw [append_nil,append_nil]⟩
    have hopen := opens_of_setAt h
    rw [opens_append hr,hq] at hopen
    cases hopen
  · rw [valueAt_setAt_other h hpq hqp,hq]

/-- The first write behind an array's end makes it longer. -/
theorem Long.of_write {i : Nat} {ws : List (Path × Value)} (hi : arrayIndex k=some i) (hq : Long q n t) (hnone : valueAt (q++[k]) t=none)
    (hw : JsonPointer.writes ws t=some t') (hws : ∀w∈ws,¬w.1<+:q) (hmem : ∃w∈ws,w.1=q++[k]) :
    Long q (i+1) t' := by
  induction ws generalizing t with
  | nil =>
    obtain ⟨w,hw',-⟩ := hmem
    cases hw'
  | cons w ws ih =>
    simp only [JsonPointer.writes,foldlM_cons,Option.bind_eq_bind,Option.bind_eq_some_iff] at hw
    obtain ⟨s,hs,hw⟩ := hw
    have hfree := hws w mem_cons_self
    have hrest := fun w' hw' => hws w' (mem_cons_of_mem w hw')
    by_cases hwk : w.1=q++[k]
    · obtain ⟨m,ms,hv,-⟩ := hq
      obtain ⟨m',ns,hv',-,hgrown⟩ := valueAt_set_array hs hv hfree
      have hout : k∉ms.map Prod.fst := by
        rw [valueAt_append,hv] at hnone
        cases hl : lookupMember k ms with
        | none => exact lookupMember_none.mp hl
        | some c => simp [valueAt,hl] at hnone
      have hkind := hgrown k hwk
      rw [Kind.grown,lookupMember_isSome,decide_eq_false hout,if_neg Bool.false_ne_true,hi] at hkind
      have hm : max m (i+1)=m' := Kind.array.inj hkind
      have hlong : Long q (i+1) s := ⟨m',ns,hv',by omega⟩
      exact hlong.writes hw hrest
    · have hpre : ¬w.1<+:q++[k] := by
        rw [prefix_concat_iff]
        rintro (h | h)
        · exact hwk h
        · exact hfree h
      obtain ⟨w',hw',hk⟩ := hmem
      obtain rfl | hw' := mem_cons.mp hw'
      · exact absurd hk hwk
      · exact ih (hq.set hs hfree) (valueAt_set_none hs hnone hpre) hw hrest ⟨w',hw',hk⟩

/-- An array that a write makes longer is put back itself, or with what holds it. -/
def Relengthened (a : Value) (ws : List (Path × Value)) : Prop :=
  ∀w∈ws,∀q∈grows w.1 a,∃w'∈ws,w'.1<+:q

theorem relengthened_of_restores {ws : List (Path × Value)}
    (hw : writes ws a=some t) (h : restores nothing a ws t=some a) : Relengthened a ws := by
  rintro w hmem q ⟨k,κ,ms,hk,hv,hne⟩
  by_contra hno
  have hfree : ∀w'∈ws,¬w'.1<+:q := fun w' hw' hpre => hno ⟨w',hw',hpre⟩
  cases κ with
  | object => exact hne rfl
  | array n =>
    rw [Kind.grown,lookupMember_isSome] at hne
    have hout : k∉ms.map Prod.fst := by
      intro hin
      rw [decide_eq_true hin,if_pos rfl] at hne
      exact hne rfl
    rw [decide_eq_false hout,if_neg Bool.false_ne_true] at hne
    cases hi : arrayIndex k with
    | none =>
      rw [hi] at hne
      exact hne rfl
    | some i =>
      rw [hi] at hne
      have hlt : n < i+1 := by
        by_contra hle
        exact hne (congrArg Kind.array (max_eq_left (by omega)))
      have hnone : valueAt (q++[k]) a=none := by
        rw [valueAt_append,hv,Option.bind_some,valueAt,lookupMember_none.mpr hout]
      have hlong : Long q (i+1) t :=
        Long.of_write hi ⟨n,ms,hv,le_rfl⟩ hnone hw hfree ⟨w,hmem,hk⟩
      obtain ⟨m,ns,hm,hle⟩ := hlong.restores h hfree
      rw [hv] at hm
      obtain ⟨hkind,-⟩ := Value.own.inj (Option.some.inj hm)
      have hlen := Kind.array.inj hkind
      omega

theorem restorable_of_restores {ws : List (Path × Value)}
    (hw : writes ws a=some t) (h : restores nothing a ws t=some a) : Restorable nothing a ws := by
  have hne := writes_ne_nil hw
  rintro pre w post rfl o ho
  have hw0 : w.1≠[] := hne w (by simp)
  split
  · rename_i hnothing
    by_contra hno
    have hfree : ∀w'∈post,above w'.1 w.1=false := by
      intro w' hw'
      rw [Bool.eq_false_iff]
      exact fun habove => hno ⟨w',hw',habove⟩
    have hsplit : pre++w::post=pre++[w]++post := by simp
    rw [hsplit,restores,foldlM_append] at h
    obtain ⟨s,hs,h⟩ := Option.bind_eq_some_iff.mp h
    obtain ⟨s₀,_,hput⟩ := restores_concat.mp hs
    have hnone : valueAt w.1 s=none := by
      have hk : kept nothing a w.1=none := by simp [kept,ho,hnothing]
      rw [hk] at hput
      cases hput
      exact valueAt_deleteAt_self hw0
    rw [hnothing] at ho
    rw [restores_none h ho hfree hnone] at ho
    cases ho
  · rename_i hplain
    have hready := (restores_some_iff hne).mp ⟨a,h⟩ pre w post rfl
    have hk : (kept nothing a w.1).isSome=true := by simp [kept,ho,hplain]
    have hready := hready hk
    cases hpre : lastAbove w.1 pre with
    | some w' =>
      rw [hpre] at hready
      exact hready
    | none =>
      rw [hpre] at hready
      exact (opens_writes_split hw ho hw0 hpre).mp hready

/-- Putting back undoes the writes exactly when each path can be put back and each array gets its
length again. -/
theorem restores_writes_iff {ws : List (Path × Value)}
    (hn : ∀r,r≠[] → valueAt r nothing≠some nothing)
    (hplain : ∀r κ ms,valueAt r nothing=some (.own κ ms) → κ=.object) (hw : writes ws a=some t) :
    restores nothing a ws t=some a ↔ Restorable nothing a ws ∧ Relengthened a ws := by
  have hne := writes_ne_nil hw
  constructor
  · exact fun h => ⟨restorable_of_restores hw h,relengthened_of_restores hw h⟩
  · rintro ⟨h,hlengths⟩
    have hsome : ∃t',restores nothing a ws t=some t' := by
      rw [restores_some_iff hne]
      rintro pre w post rfl hk
      obtain ⟨o,hk⟩ := Option.isSome_iff_exists.mp hk
      obtain ⟨ho,hplain⟩ := Option.filter_eq_some_iff.mp hk
      have hcond := h pre w post rfl o ho
      rw [if_neg (by simpa using hplain)] at hcond
      cases hpre : lastAbove w.1 pre with
      | some w' =>
        rw [hpre] at hcond
        exact hcond
      | none =>
        rw [hpre] at hcond
        exact (opens_writes_split hw ho (hne w (by simp)) hpre).mpr hcond
    obtain ⟨t',ht'⟩ := hsome
    have hmark : ∀pre w post,ws=pre++w::post → valueAt w.1 a=some nothing →
        ∃w'∈post,above w'.1 w.1=true := by
      intro pre w post heq hv
      have hcond := h pre w post heq nothing hv
      rw [if_pos rfl] at hcond
      exact hcond
    have hover := (Over.same ∅ ∅ a).writes hw
    have hempty : remaining nothing a ws (∅∪{ p | p∈ws.map Prod.fst })=∅ := by
      apply remaining_empty hn hne hmark
      rintro q (hq | hq)
      · exact absurd hq (Set.notMem_empty q)
      · obtain ⟨w,hmem,rfl⟩ := mem_map.mp hq
        by_cases hv : valueAt w.1 a=some nothing
        · obtain ⟨pre,post,heq⟩ := append_of_mem hmem
          obtain ⟨w',hw',habove⟩ := hmark pre w post heq hv
          obtain ⟨r,hr,heq'⟩ := above_iff.mp habove
          refine ⟨w',by rw [heq]; simp [hw'],?_,⟨r,heq'.symm⟩⟩
          intro hv'
          rw [heq',valueAt_append,hv'] at hv
          exact hn r hr hv
        · exact ⟨w,hmem,hv,prefix_refl _⟩
    have hlonger : longer nothing a ws (∅∪{ q | ∃w∈ws,q∈grows w.1 a })=∅ := by
      apply longer_empty
      rintro q (hq | ⟨w,hmem,hq⟩)
      · exact absurd hq (Set.notMem_empty q)
      · obtain ⟨w',hmem',r,hr⟩ := hlengths w hmem q hq
        refine ⟨w',hmem',?_,r,hr⟩
        -- what stands for nothing has no array inside
        intro hv'
        obtain ⟨k,κ,ms,-,hv,hne'⟩ := hq
        rw [← hr,valueAt_append,hv',Option.bind_some] at hv
        rw [hplain r κ ms hv] at hne'
        exact hne' rfl
    have heq : a=t' := (hover.restores hne ht').eq hempty hlonger
    rw [ht',heq]

end CardKeepr.Shared.JsonPointer
