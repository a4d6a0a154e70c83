import CardKeepr.Lib.Rearranged
import CardKeepr.Reconciliation.PrintingFilling

namespace CardKeepr.Reconciliation.Printings
open Shared Lib List

section
variable {nfc : Nfc}
variable {c e v w facts prior : Json} {later taken observed : List Json}

theorem join_comm {m n : Node} (h : ¬(m.known ∧ n.known ∧ m≠n)) : m.join n=n.join m := by
  cases m <;> cases n <;> first
    | rfl
    | exact by_contra fun hne => h ⟨trivial,trivial,fun he => hne (by rw [he])⟩

theorem equivalent_ok (hv : v.Regular) (hw : w.Regular) : printingFactsFormattingEquivalent nfc
    (.value v) (.value w)= .ok ((form nfc v).print==(form nfc w).print) := by
  rw [printingFactsFormattingEquivalent,formattedText_value hv,formattedText_value hw]
  rfl

theorem fill_value (hv : v.Regular) (hw : w.Regular) (h : ¬Uneven nfc v w) :
    ∃c,fillAuthorityGaps v (some w)=.value c ∧ c.Regular := by
  obtain ⟨c,hc⟩ := (fill_some v w).resolve_right fun hh => h ((fill_holed_iff hv hw).mp hh)
  exact ⟨c,hc,fill_regular hv hw hc⟩

theorem fill_symmetric_iff {d : Json} (hv : v.Regular) (hw : w.Regular)
    (hc : fillAuthorityGaps v (some w)=.value c) (hd : fillAuthorityGaps w (some v)=.value d) :
    form nfc c=form nfc d ↔ ¬Differ nfc v w := by
  rw [form_eq_iff (fill_regular hv hw hc) (fill_regular hw hv hd)]
  constructor
  · rintro h ⟨p,hdiff⟩
    have hback : DifferAt nfc p w v := ⟨hdiff.2.1,hdiff.1,Ne.symm hdiff.2.2⟩
    have he := h p
    rw [node_fill_differ hc hdiff,node_fill_differ hd hback] at he
    exact hdiff.2.2 he
  · intro h p
    have hno (q : List JsString) : ¬DifferAt nfc q v w := fun hq => h ⟨q,hq⟩
    have hno' (q : List JsString) : ¬DifferAt nfc q w v := fun hq =>
      h ⟨q,hq.2.1,hq.1,Ne.symm hq.2.2⟩
    rw [node_fill hc hno,node_fill hd hno']
    exact join_comm (hno p)

theorem observe_agreeing {a : Accepted} (ha : a.facts=some prior)
    (hp : prior.Regular) (he : e.Regular) (h2 : ¬Uneven nfc e prior) (hd : ¬Differ nfc prior e)
    (hc : fillAuthorityGaps prior (some e)=.value c) :
    a.observe nfc e=.ok { a with facts := some c } := by
  obtain ⟨d,hd',hdr⟩ := fill_value he hp h2
  have hcr := fill_regular hp he hc
  have heq : ((form nfc c).print==(form nfc d).print)=true :=
    beq_iff_eq.mpr ((formattedText_eq hcr hdr).mpr ((fill_symmetric_iff hp he hc hd').mpr hd))
  rw [Accepted.observe,ha]
  simp only [hc,hd',equivalent_ok hcr hdr,ok_bind,heq,if_true]
  rfl

theorem observe_differing {a : Accepted} (ha : a.facts=some prior)
    (hp : prior.Regular) (he : e.Regular) (h1 : ¬Uneven nfc prior e) (h2 : ¬Uneven nfc e prior)
    (hd : Differ nfc prior e) :
    a.observe nfc e=.ok { a with contradictions := a.contradictions++[contradictory] } := by
  obtain ⟨c,hc,hcr⟩ := fill_value hp he h1
  obtain ⟨d,hd',hdr⟩ := fill_value he hp h2
  have hne : ((form nfc c).print==(form nfc d).print)=false := by
    rw [beq_eq_false_iff_ne]
    exact fun h => (fill_symmetric_iff hp he hc hd').mp ((formattedText_eq hcr hdr).mp h) hd
  have hne' : ((form nfc prior).print==(form nfc e).print)=false := by
    rw [beq_eq_false_iff_ne]
    intro h
    obtain ⟨p,-,-,hdiff⟩ := hd
    exact hdiff ((form_eq_iff hp he).mp ((formattedText_eq hp he).mp h) p)
  rw [Accepted.observe,ha]
  simp only [hc,hd',equivalent_ok hcr hdr,equivalent_ok hp he,ok_bind,hne,hne',Bool.false_eq_true,
    if_false]
  rfl

/-- Facts in which a set of observations is joined: what is known at a path is known from one of
them, and `null` stands where one of them has it. -/
structure Joined (nfc : Nfc) (taken : List Json) (facts : Json) : Prop where
  regular : facts.Regular
  known : ∀v∈taken,∀p,(node nfc p v).known → node nfc p facts=node nfc p v
  source : ∀p,(node nfc p facts).known → ∃v∈taken,node nfc p facts=node nfc p v
  unknown : ∀v∈taken,∀p,node nfc p v=.unknown → node nfc p facts≠.absent
  unsaid : ∀p,node nfc p facts=.unknown → ∃v∈taken,node nfc p v=.unknown

theorem Joined.first (h : v.Regular) : Joined nfc [v] v := by
  refine ⟨h,fun w hw p _ => ?_,fun p _ => ⟨v,by simp,rfl⟩,fun w hw p hu => ?_,
    fun p hu => ⟨v,by simp,hu⟩⟩
  · rw [mem_singleton.mp hw]
  · rw [mem_singleton.mp hw] at hu
    rw [hu]
    simp

theorem Joined.next {taken : List Json} {facts e c : Json} (h : Joined nfc taken facts)
    (he : e.Regular) (hd : ¬Differ nfc facts e)
    (hc : fillAuthorityGaps facts (some e)=.value c) : Joined nfc (taken++[e]) c := by
  have hno (q : List JsString) : ¬DifferAt nfc q facts e := fun hq => hd ⟨q,hq⟩
  have hnode := node_fill hc hno
  have same (p : List JsString) (h1 : (node nfc p facts).known) (h2 : (node nfc p e).known) :
      node nfc p facts=node nfc p e := by_contra fun hne => hno p ⟨h1,h2,hne⟩
  refine ⟨fill_regular h.regular he hc,fun v hv p hk => ?_,fun p hk => ?_,fun v hv p hu => ?_,
    fun p hu => ?_⟩
  · rw [hnode p]
    rcases mem_append.mp hv with hv | hv
    · rw [h.known v hv p hk]
      cases hn : node nfc p v <;> rw [hn] at hk <;> first
        | rfl
        | cases hk
    · rw [mem_singleton.mp hv] at hk ⊢
      cases hf : node nfc p facts with
      | absent => rfl
      | unknown => cases hn : node nfc p e <;> rw [hn] at hk <;> first
          | rfl
          | cases hk
      | object =>
        have hs := same p (by rw [hf]; trivial) hk
        rw [hf] at hs
        exact hs
      | value f =>
        have hs := same p (by rw [hf]; trivial) hk
        rw [hf] at hs
        exact hs
  · rw [hnode p] at hk ⊢
    cases hf : node nfc p facts with
    | absent => exact ⟨e,by simp,rfl⟩
    | unknown =>
      rw [hf] at hk
      cases hn : node nfc p e <;> rw [hn] at hk <;> first
        | exact ⟨e,by simp,by rw [hn]; rfl⟩
        | cases hk
    | object =>
      obtain ⟨v,hv,hvn⟩ := h.source p (by rw [hf]; trivial)
      exact ⟨v,by simp [hv],by rw [←hvn,hf]; rfl⟩
    | value f =>
      obtain ⟨v,hv,hvn⟩ := h.source p (by rw [hf]; trivial)
      exact ⟨v,by simp [hv],by rw [←hvn,hf]; rfl⟩
  · rw [hnode p]
    rcases mem_append.mp hv with hv | hv
    · have hne := h.unknown v hv p hu
      cases hf : node nfc p facts with
      | absent => exact absurd hf hne
      | unknown => cases node nfc p e <;> simp [Node.join]
      | _ => simp [Node.join]
    · rw [mem_singleton.mp hv] at hu
      rw [hu]
      cases node nfc p facts <;> simp [Node.join]
  · rw [hnode p] at hu
    cases hf : node nfc p facts with
    | absent =>
      rw [hf] at hu
      exact ⟨e,by simp,hu⟩
    | unknown =>
      obtain ⟨v,hv,hvn⟩ := h.unsaid p hf
      exact ⟨v,by simp [hv],hvn⟩
    | _ =>
      rw [hf] at hu
      cases hu

theorem Joined.differ_iff (h : Joined nfc taken facts) :
    Differ nfc facts e ↔ ∃v∈taken,Differ nfc v e := by
  constructor
  · rintro ⟨p,hf,he,hne⟩
    obtain ⟨v,hv,hvn⟩ := h.source p hf
    exact ⟨v,hv,p,hvn ▸ hf,he,hvn ▸ hne⟩
  · rintro ⟨v,hv,p,hk,he,hne⟩
    have hn := h.known v hv p hk
    exact ⟨p,hn ▸ hk,he,hn ▸ hne⟩

theorem node_parent {p : List JsString} {k : JsString}
    (h : node nfc (p++[k]) v≠.absent) : node nfc p v=.object := by
  induction p generalizing v with
  | nil =>
    obtain ⟨ms,u,rfl,-,-⟩ := node_cons h
    rfl
  | cons l p ih =>
    obtain ⟨ms,u,rfl,hm,hu⟩ := node_cons h
    rw [node_lookup hm]
    exact ih fun hn => h (hu.symm.trans hn)

theorem Joined.uneven (h : Joined nfc taken facts) :
    (Uneven nfc facts e → ∃v∈taken,Uneven nfc v e) ∧
      (Uneven nfc e facts → ∃v∈taken,Uneven nfc e v) := by
  constructor
  · rintro ⟨p,k,-,he,hu,ha⟩
    obtain ⟨v,hv,hvu⟩ := h.unsaid _ hu
    exact ⟨v,hv,p,k,node_parent (by rw [hvu]; simp),he,hvu,ha⟩
  · rintro ⟨p,k,he,hf,hu,ha⟩
    obtain ⟨v,hv,hvo⟩ := h.source p (by rw [hf]; trivial)
    refine ⟨v,hv,p,k,he,hvo ▸ hf,hu,?_⟩
    have hknown : ¬(node nfc (p++[k]) v).known := fun hk => by
      rw [←h.known v hv _ hk,ha] at hk
      exact hk
    cases hn : node nfc (p++[k]) v with
    | absent => rfl
    | unknown => exact absurd ha (h.unknown v hv _ hn)
    | _ =>
      rw [hn] at hknown
      exact absurd trivial hknown

theorem Joined.absent {p : List JsString} (h : Joined nfc taken facts) (hv : v∈taken)
    (ha : node nfc p facts=.absent) : node nfc p v=.absent := by
  cases hn : node nfc p v with
  | absent => rfl
  | unknown => exact absurd ha (h.unknown v hv p hn)
  | _ =>
    have hk := h.known v hv p (by rw [hn]; trivial)
    rw [hn,ha] at hk
    cases hk

theorem Joined.unique {taken' : List Json} {facts' : Json}
    (h : Joined nfc taken facts) (h' : Joined nfc taken' facts') (hsub : taken'⊆taken)
    (hsub' : taken⊆taken') (p : List JsString) : node nfc p facts=node nfc p facts' := by
  have known {as bs : List Json} {f g : Json} (hf : Joined nfc as f) (hg : Joined nfc bs g)
      (hs : as⊆bs) (hk : (node nfc p f).known) : node nfc p f=node nfc p g := by
    obtain ⟨v,hv,hvn⟩ := hf.source p hk
    exact hvn.trans (hg.known v (hs hv) p (hvn ▸ hk)).symm
  cases hf : node nfc p facts with
  | object => exact hf ▸ known h h' hsub' (by rw [hf]; trivial)
  | value f => exact hf ▸ known h h' hsub' (by rw [hf]; trivial)
  | unknown =>
    obtain ⟨v,hv,hvn⟩ := h.unsaid p hf
    cases hg : node nfc p facts' with
    | unknown => rfl
    | absent => exact absurd hg (h'.unknown v (hsub' hv) p hvn)
    | _ =>
      have hk := known h' h hsub (by rw [hg]; trivial)
      rw [hf,hg] at hk
      cases hk
  | absent =>
    cases hg : node nfc p facts' with
    | absent => rfl
    | unknown =>
      obtain ⟨v,hv,hvn⟩ := h'.unsaid p hg
      rw [h.absent (hsub hv) hf] at hvn
      cases hvn
    | _ =>
      have hk := known h' h hsub (by rw [hg]; trivial)
      rw [hf,hg] at hk
      cases hk

/-- What stands accepted after a list of observations. -/
structure Outcome (nfc : Nfc) (observed : List Json) (a : Accepted) : Prop where
  empty : a.facts=none ↔ observed=[]
  facts : ∀facts,a.facts=some facts → ∃taken,taken⊆observed ∧ Joined nfc taken facts ∧
    (a.contradictions=[] → observed⊆taken)
  contradictions : a.contradictions≠[] ↔ SomeDiffer nfc observed

theorem differ_comm : Differ nfc v w ↔ Differ nfc w v := by
  constructor <;> exact fun ⟨p,h1,h2,hne⟩ => ⟨p,h2,h1,hne.symm⟩

theorem differ_irrefl (v : Json) : ¬Differ nfc v v := fun ⟨_,_,_,hne⟩ => hne rfl

theorem someDiffer_append :
    SomeDiffer nfc (observed++[e]) ↔ SomeDiffer nfc observed ∨ ∃v∈observed,Differ nfc v e := by
  constructor
  · rintro ⟨v,hv,w,hw,hd⟩
    rcases mem_append.mp hv with hv | hv <;> rcases mem_append.mp hw with hw | hw
    · exact .inl ⟨v,hv,w,hw,hd⟩
    · exact .inr ⟨v,hv,mem_singleton.mp hw ▸ hd⟩
    · exact .inr ⟨w,hw,differ_comm.mp (mem_singleton.mp hv ▸ hd)⟩
    · rw [mem_singleton.mp hv,mem_singleton.mp hw] at hd
      exact absurd hd (differ_irrefl e)
  · rintro (⟨v,hv,w,hw,hd⟩ | ⟨v,hv,hd⟩)
    · exact ⟨v,by simp [hv],w,by simp [hw],hd⟩
    · exact ⟨v,by simp [hv],e,by simp,hd⟩

theorem Outcome.next {observed : List Json} {a : Accepted} {e : Json} (h : Outcome nfc observed a)
    (he : e.Regular) (heven : ∀v∈observed,¬Uneven nfc v e ∧ ¬Uneven nfc e v) : ∃b,a.observe nfc
    e=.ok b ∧ Outcome nfc (observed++[e]) b := by
  have hnonempty {f : Json} : some f=none ↔ observed++[e]=[] := by simp
  cases hfacts : a.facts with
  | none =>
    obtain rfl := h.empty.mp hfacts
    refine ⟨{ a with facts := some e },by rw [Accepted.observe,hfacts],hnonempty,?_,?_⟩
    · intro facts hf
      obtain rfl := Option.some.inj hf
      exact ⟨[e],fun _ hv => hv,Joined.first he,fun _ _ hv => hv⟩
    · rw [someDiffer_append]
      refine h.contradictions.trans ⟨.inl,fun hd => hd.resolve_right ?_⟩
      rintro ⟨v,hv,-⟩
      cases hv
  | some facts =>
    obtain ⟨taken,hsub,hj,hall⟩ := h.facts facts hfacts
    have h1 : ¬Uneven nfc facts e := fun hu =>
      let ⟨v,hv,hu⟩ := hj.uneven.1 hu
      (heven v (hsub hv)).1 hu
    have h2 : ¬Uneven nfc e facts := fun hu =>
      let ⟨v,hv,hu⟩ := hj.uneven.2 hu
      (heven v (hsub hv)).2 hu
    by_cases hd : Differ nfc facts e
    · obtain ⟨v,hv,hve⟩ := hj.differ_iff.mp hd
      refine ⟨_,observe_differing hfacts hj.regular he h1 h2 hd,?_,?_,
        fun _ => someDiffer_append.mpr (.inr ⟨v,hsub hv,hve⟩),fun _ => by simp⟩
      · exact hfacts ▸ hnonempty
      · intro f hf
        obtain rfl := Option.some.inj (hfacts.symm.trans hf)
        exact ⟨taken,fun v hv => by simp [hsub hv],hj,fun hc => by simp at hc⟩
    · obtain ⟨c,hc,-⟩ := fill_value hj.regular he h1
      refine ⟨_,observe_agreeing hfacts hj.regular he h2 hd hc,hnonempty,?_,?_⟩
      · intro f hf
        obtain rfl := Option.some.inj hf
        refine ⟨taken++[e],fun v hv => ?_,hj.next he hd hc,fun hcon v hv => ?_⟩
        · rcases mem_append.mp hv with hv | hv
          · exact mem_append_left _ (hsub hv)
          · exact mem_append_right _ hv
        · rcases mem_append.mp hv with hv | hv
          · exact mem_append_left _ (hall hcon hv)
          · exact mem_append_right _ hv
      · rw [someDiffer_append]
        refine ⟨fun hcon => .inl (h.contradictions.mp hcon),fun hsome hcon => ?_⟩
        rcases hsome with hsome | ⟨v,hv,hve⟩
        · exact h.contradictions.mpr hsome hcon
        · exact hd (hj.differ_iff.mpr ⟨v,hall hcon hv,hve⟩)

theorem acceptedFacts_outcome (hr : ∀v∈observed,v.Regular)
    (heven : ∀v∈observed,∀w∈observed,¬Uneven nfc v w) :
    ∃a,acceptedFacts nfc observed=.ok a ∧ Outcome nfc observed a := by
  induction observed using List.reverseRecOn with
  | nil =>
    refine ⟨⟨none,[]⟩,rfl,⟨fun _ => rfl,fun _ => rfl⟩,fun f hf => (by cases hf),
      fun h => absurd rfl h,?_⟩
    rintro ⟨v,hv,-⟩
    cases hv
  | append_singleton observed e ih =>
    have hin {v : Json} (hv : v∈observed) : v∈observed++[e] := mem_append_left _ hv
    have hlast : e∈observed++[e] := by simp
    obtain ⟨a,ha,ho⟩ := ih (fun v hv => hr v (hin hv)) fun v hv w hw =>
      heven v (hin hv) w (hin hw)
    obtain ⟨b,hb,hob⟩ := ho.next (hr e hlast) fun v hv =>
      ⟨heven v (hin hv) e hlast,heven e hlast v (hin hv)⟩
    refine ⟨b,?_,hob⟩
    rw [acceptedFacts] at ha ⊢
    rw [foldlM_append,ha,ok_bind,foldlM_cons,hb,ok_bind]
    rfl

theorem someDiffer_perm (h : later.Perm observed) :
    SomeDiffer nfc later ↔ SomeDiffer nfc observed := by
  constructor <;> rintro ⟨v,hv,w,hw,hd⟩
  · exact ⟨v,h.subset hv,w,h.subset hw,hd⟩
  · exact ⟨v,h.symm.subset hv,w,h.symm.subset hw,hd⟩

theorem Outcome.same_facts {a b : Accepted} (ha : Outcome nfc observed a) (hb : Outcome nfc later b)
    (h : later.Perm observed) (hac : a.contradictions=[]) (hbc : b.contradictions=[]) : a.facts.map
    (form nfc)=b.facts.map (form nfc) := by
  have hnone : a.facts=none ↔ b.facts=none := by
    rw [ha.empty,hb.empty]
    exact ⟨fun he => (he ▸ h).eq_nil,fun he => (he ▸ h.symm).eq_nil⟩
  cases hf : a.facts with
  | none => rw [hnone.mp hf]
  | some f =>
    cases hg : b.facts with
    | none =>
      rw [hnone.mpr hg] at hf
      cases hf
    | some g =>
      obtain ⟨taken,hsub,hj,hall⟩ := ha.facts f hf
      obtain ⟨taken',hsub',hj',hall'⟩ := hb.facts g hg
      have hform : form nfc f=form nfc g := (form_eq_iff hj.regular hj'.regular).mpr
        (hj.unique hj' (fun v hv => hall hac (h.subset (hsub' hv))) fun v hv =>
          hall' hbc (h.symm.subset (hsub hv)))
      rw [Option.map_some,Option.map_some,hform]

/-- No field is `null` in one observation and missing from the same object of another. -/
def Even (nfc : Nfc) (observed : List Json) : Prop :=
  ¬∃v∈observed,∃w∈observed,Uneven nfc v w

theorem even_independent (hr : ∀v∈observed,v.Regular)
    (heven : Even nfc observed) : OrderIndependent nfc observed := by
  intro later hp
  have hpair : ∀v∈observed,∀w∈observed,¬Uneven nfc v w := fun v hv w hw hu =>
    heven ⟨v,hv,w,hw,hu⟩
  obtain ⟨a,ha,hoa⟩ := acceptedFacts_outcome hr hpair
  obtain ⟨b,hb,hob⟩ := acceptedFacts_outcome (fun v hv => hr v (hp.subset hv))
    fun v hv w hw => hpair v (hp.subset hv) w (hp.subset hw)
  refine ⟨a,b,ha,hb,hob.contradictions.trans (someDiffer_perm hp),fun hbc => ?_⟩
  refine hoa.same_facts hob hp ?_ hbc
  by_contra hac
  exact hob.contradictions.mpr ((someDiffer_perm hp).mpr (hoa.contradictions.mp hac)) hbc

end

end CardKeepr.Reconciliation.Printings
