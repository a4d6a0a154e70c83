import CardKeepr.Ingestion.Administration
import CardKeepr.Lib.Fallible

namespace CardKeepr.Administration

open Lib List

variable {legacy : String → Option LegacyRun} {s t : Tables} {c : IdempotencyContext}
  {o : IdempotencyClaimOwner} {x : Input} {k : String}
variable {w : State} {r : Result}

@[simp] theorem setClaim_claims (key : String) (claim : Option Claim) :
    (s.setClaim key claim).claims k=if k=key then claim else s.claims k := rfl

@[simp] theorem setClaim_outcomes (key : String) (claim : Option Claim) :
    (s.setClaim key claim).outcomes=s.outcomes := rfl

theorem acquireClaim_some (h : s.acquireClaim c x.token=some t) :
    s.claims c.key=none ∧ s.outcomes c.key=none ∧
      t={ s.setClaim c.key (some ⟨c.operation,c.requestJson,c.observedAt,x.token,1,
        c.observedAt+publicationLeaseMilliseconds⟩) with tokens := x.token::s.tokens } := by
  rw [Tables.acquireClaim] at h
  split at h
  · cases h
  · rename_i hn
    simp only [Bool.or_eq_true,not_or,Option.isSome_iff_ne_none,not_not] at hn
    exact ⟨hn.1,hn.2,(Option.some.inj h).symm⟩

theorem takeOverClaim_some {prior : Claim} (h : s.takeOverClaim c x.token prior=some (t,o)) :
    ∃cl,s.claims c.key=some cl ∧ cl.isOf c=true ∧ o=⟨x.token,cl.claim_version+1⟩ ∧
      t={ s.setClaim c.key (some { cl with
          claimed_at := c.observedAt
          owner_token := x.token
          claim_version := cl.claim_version+1
          claim_expires_at := c.observedAt+publicationLeaseMilliseconds }) with
        superseded := cl.owner_token::s.superseded
        tokens := x.token::s.tokens } := by
  rw [Tables.takeOverClaim] at h
  cases hc : s.claims c.key with
  | none => rw [hc] at h; cases h
  | some cl =>
    rw [hc] at h
    dsimp only at h
    split at h
    · rename_i hp
      obtain ⟨rfl,rfl⟩ := Prod.mk.inj (Option.some.inj h)
      exact ⟨cl,rfl,hp.1,rfl,rfl⟩
    · cases h

theorem releaseClaim_cases (s : Tables) (c : IdempotencyContext) (o : IdempotencyClaimOwner) :
    (∃cl,s.claims c.key=some cl ∧ cl.isOf c=true ∧ cl.isHeldBy o=true ∧
      s.releaseClaim c o=s.setClaim c.key none) ∨ s.releaseClaim c o=s := by
  rw [Tables.releaseClaim]
  cases hc : s.claims c.key with
  | none => exact .inr rfl
  | some cl =>
    dsimp only
    split
    · rename_i h
      rw [Bool.and_eq_true] at h
      exact .inl ⟨cl,rfl,h.1,h.2,rfl⟩
    · exact .inr rfl

theorem completion_ok (h : s.completion c o r=.ok t) : s.outcomes c.key=none ∧
      (∀cl,s.claims c.key=some cl → cl.isOf c=true ∧ cl.isHeldBy o=true) ∧
      t.outcomes=(fun k => if k=c.key then some ⟨c.operation,c.requestJson,r,o⟩
        else s.outcomes k) ∧
      t.claims=(fun k => if k=c.key then none else s.claims k) ∧
      t.batches=s.batches ∧ t.superseded=s.superseded ∧ t.tokens=s.tokens := by
  rw [Tables.completion,Tables.insertOutcome] at h
  split at h
  · cases h
  · rename_i hown
    split at h
    · cases h
    · rename_i hnone
      obtain rfl := Except.ok.inj h
      have hclaim : ∀cl,s.claims c.key=some cl → cl.isOf c=true ∧ cl.isHeldBy o=true := by
        intro cl hcl
        rw [hcl] at hown
        simpa using hown
      refine ⟨by simpa using hnone,hclaim,?_⟩
      have hrel : ∀u : Tables,u.claims=s.claims → u.releaseClaim c o=
          { u with claims := fun k => if k=c.key then none else s.claims k } := by
        intro u hu
        rw [Tables.releaseClaim,hu]
        cases hc : s.claims c.key with
        | none =>
          have hsame : (fun k => if k=c.key then none else s.claims k)=u.claims := by
            funext k
            by_cases hk : k=c.key
            · rw [if_pos hk,hu,hk,hc]
            · rw [if_neg hk,hu]
          rw [hsame]
        | some cl =>
          dsimp only
          rw [(hclaim cl hc).1,(hclaim cl hc).2,Bool.and_self,if_pos rfl,Tables.setClaim,hu]
      dsimp only
      rw [hrel]
      · exact ⟨rfl,rfl,rfl,rfl,rfl⟩
      · rfl

/-- What one step of a call can do. -/
inductive Acts (s : Tables) (c : IdempotencyContext) (x : Input) (ph : Phase) :
    Tables → Phase → Prop
  | still (ph' : Phase) : Acts s c x ph s ph'
  | acquired {t : Tables} (hph : ph=.claiming) (h : s.acquireClaim c x.token=some t) :
    Acts s c x ph t (.owning ⟨x.token,1⟩)
  | tookOver {t : Tables} {o : IdempotencyClaimOwner} {prior : Claim} (hph : ph=.takingOver prior)
    (h : s.takeOverClaim c x.token prior=some (t,o)) : Acts s c x ph t (.owning o)
  | recorded {t : Tables} {o : IdempotencyClaimOwner} {p : Problem} (hph : ph=.recording o p)
    (h : s.completion c o (.problem p)=.ok t) : Acts s c x ph t (.ended (.final (.problem p)))
  | committed {t : Tables} {o : IdempotencyClaimOwner} {document : String}
    (hph : ph=.executing o) (hx : x.choice=.commit document true)
    (h : s.completion c o (.success document)=.ok t) :
    Acts s c x ph { t with batches := (c.key,o.ownerToken)::t.batches }
      (.ended (.final (.success document)))
  | released {o : IdempotencyClaimOwner} {p : Problem} (hph : ph=.releasing o p) :
    Acts s c x ph (s.releaseClaim c o) (.ended (.unpersisted p))

theorem advance_acts (ph : Phase) : Acts s c x ph (advance legacy s c x ph).1
    (advance legacy s c x ph).2 := by
  cases ph with
  | claiming =>
    simp only [advance]
    cases h : s.acquireClaim c x.token with
    | none => exact .still _
    | some t => exact .acquired rfl h
  | takingOver prior =>
    simp only [advance]
    cases h : s.takeOverClaim c x.token prior with
    | none => exact .still _
    | some r => exact .tookOver rfl h
  | executing o =>
    simp only [advance,execute]
    cases hx : x.choice with
    | commit document guarded =>
      cases guarded with
      | false => exact .still _
      | true =>
        simp only [if_pos]
        cases h : s.commit c o document with
        | error e => exact .still _
        | ok t =>
          rw [Tables.commit] at h
          cases hc : s.completion c o (.success document) with
          | error e => rw [hc] at h; cases h
          | ok u =>
            rw [hc] at h
            obtain rfl := Except.ok.inj h
            exact .committed rfl hx hc
    | fails p persistOutcome =>
      cases persistOutcome with
      | true => exact .still _
      | false => exact .still _
    | _ => exact .still _
  | recording o p =>
    simp only [advance]
    cases h : s.completion c o (.problem p) with
    | error e => exact .still _
    | ok t => exact .recorded rfl h
  | releasing o p => exact .released rfl
  | _ => exact .still _

/-- Keys with an outcome have no claim, tokens belong to one owner, no owner that was superseded
wrote an outcome, and a domain batch stands beside the outcome of its key. -/
structure Consistent (s : Tables) : Prop where
  exclusive : ∀k,(s.outcomes k).isSome=true → s.claims k=none
  claimed : ∀k cl,s.claims k=some cl → cl.owner_token∈s.tokens ∧ cl.owner_token∉s.superseded
  written : ∀k o,s.outcomes k=some o →
    o.owner.ownerToken∈s.tokens ∧ o.owner.ownerToken∉s.superseded
  apart : ∀k k' cl o,s.claims k=some cl → s.outcomes k'=some o → cl.owner_token≠o.owner.ownerToken
  distinct : ∀k k' cl cl',s.claims k=some cl → s.claims k'=some cl' →
    cl.owner_token=cl'.owner_token → k=k'
  superseded : ∀token∈s.superseded,token∈s.tokens
  nodup : (s.batches.map Prod.fst).Nodup
  batch : ∀b∈s.batches,∃o,s.outcomes b.1=some o ∧ o.owner.ownerToken=b.2

/-- A key that is claimed or answered. -/
def Covered (s : Tables) (k : String) : Prop := (s.claims k).isSome=true ∨ (s.outcomes k).isSome=true

/-- A claim is written under a new token; only the owner it had is superseded by it. -/
theorem Consistent.claim {key : String} {cl₁ : Claim} {more : List String} (h : Consistent s)
    (hx : cl₁.owner_token∉s.tokens) (ho : s.outcomes key=none)
    (hmore : ∀token∈more,∃cl,s.claims key=some cl ∧ cl.owner_token=token) :
    Consistent { s.setClaim key (some cl₁) with
      superseded := more++s.superseded
      tokens := cl₁.owner_token::s.tokens } := by
  have hclaims : ∀k cl,(if k=key then some cl₁ else s.claims k)=some cl →
      (k=key ∧ cl=cl₁) ∨ (k≠key ∧ s.claims k=some cl) := by
    intro k cl hcl
    by_cases hk : k=key
    · rw [if_pos hk] at hcl
      exact .inl ⟨hk,(Option.some.inj hcl).symm⟩
    · rw [if_neg hk] at hcl
      exact .inr ⟨hk,hcl⟩
  have hnew : ∀k cl,s.claims k=some cl → cl.owner_token≠cl₁.owner_token := by
    intro k cl hcl he
    exact hx (he ▸ (h.claimed k cl hcl).1)
  have hold : ∀token∈more,token∈s.tokens := by
    intro token ht
    obtain ⟨cl,hcl,rfl⟩ := hmore token ht
    exact (h.claimed key cl hcl).1
  refine ⟨?_,?_,?_,?_,?_,?_,h.nodup,h.batch⟩
  · intro k hk
    have hne : k≠key := by
      rintro rfl
      rw [show (s.setClaim k (some cl₁)).outcomes k=none from ho] at hk
      cases hk
    simpa [hne] using h.exclusive k hk
  · intro k cl hcl
    rcases hclaims k cl hcl with ⟨-,rfl⟩ | ⟨hk,hcl⟩
    · refine ⟨mem_cons_self,fun hs => hx ?_⟩
      rcases mem_append.mp hs with hs | hs
      · exact hold _ hs
      · exact h.superseded _ hs
    · refine ⟨mem_cons_of_mem _ (h.claimed k cl hcl).1,fun hs => ?_⟩
      rcases mem_append.mp hs with hs | hs
      · obtain ⟨cl',hcl',he⟩ := hmore _ hs
        exact hk (h.distinct k key cl cl' hcl hcl' he.symm)
      · exact (h.claimed k cl hcl).2 hs
  · intro k o hko
    refine ⟨mem_cons_of_mem _ (h.written k o hko).1,fun hs => ?_⟩
    rcases mem_append.mp hs with hs | hs
    · obtain ⟨cl,hcl,he⟩ := hmore _ hs
      exact h.apart key k cl o hcl hko he
    · exact (h.written k o hko).2 hs
  · intro k k' cl o hcl hko
    rcases hclaims k cl hcl with ⟨-,rfl⟩ | ⟨-,hcl⟩
    · intro he
      rw [he] at hx
      exact hx (h.written k' o hko).1
    · exact h.apart k k' cl o hcl hko
  · intro k k' cl cl' hcl hcl' he
    rcases hclaims k cl hcl with ⟨hk,hcl⟩ | ⟨-,hcl⟩
    · rcases hclaims k' cl' hcl' with ⟨hk',-⟩ | ⟨-,hcl'⟩
      · rw [hk,hk']
      · exact absurd (he.symm.trans (congrArg _ hcl)) (hnew k' cl' hcl')
    · rcases hclaims k' cl' hcl' with ⟨-,hcl'⟩ | ⟨-,hcl'⟩
      · exact absurd (he.trans (congrArg _ hcl')) (hnew k cl hcl)
      · exact h.distinct k k' cl cl' hcl hcl' he
  · intro token ht
    rcases mem_append.mp ht with ht | ht
    · exact mem_cons_of_mem _ (hold token ht)
    · exact mem_cons_of_mem _ (h.superseded token ht)

theorem Consistent.unclaimed {key : String} (h : Consistent s) :
    Consistent (s.setClaim key none) := by
  have hclaims : ∀k cl,(if k=key then none else s.claims k)=some cl → s.claims k=some cl := by
    intro k cl hcl
    split at hcl
    · cases hcl
    · exact hcl
  refine ⟨?_,fun k cl hcl => h.claimed k cl (hclaims k cl hcl),h.written,
    fun k k' cl o hcl => h.apart k k' cl o (hclaims k cl hcl),
    fun k k' cl cl' hcl hcl' => h.distinct k k' cl cl' (hclaims k cl hcl) (hclaims k' cl' hcl'),
    h.superseded,h.nodup,h.batch⟩
  intro k hk
  rw [setClaim_claims]
  split
  · rfl
  · exact h.exclusive k hk

/-- An outcome is written by the owner of the claim, which ends with it. -/
theorem Consistent.completed (h : Consistent s) (hcov : Covered s c.key)
    (ht : s.completion c o r=.ok t) : Consistent t := by
  obtain ⟨hnone,hown,hout,hcl,hb,hs,htok⟩ := completion_ok ht
  obtain ⟨cl₀,hcl₀⟩ : ∃cl,s.claims c.key=some cl := by
    rcases hcov with hc | hc
    · exact Option.isSome_iff_exists.mp hc
    · rw [hnone] at hc
      cases hc
  have htoken : cl₀.owner_token=o.ownerToken := by
    have := (hown cl₀ hcl₀).2
    rw [Claim.isHeldBy,decide_eq_true_eq] at this
    exact this.1
  have hclaims : ∀k cl,t.claims k=some cl → k≠c.key ∧ s.claims k=some cl := by
    intro k cl hk
    rw [hcl] at hk
    dsimp only at hk
    split at hk
    · cases hk
    · exact ⟨‹_›,hk⟩
  have houtcomes : ∀k o',t.outcomes k=some o' →
      (k=c.key ∧ o'.owner=o) ∨ s.outcomes k=some o' := by
    intro k o' hk
    rw [hout] at hk
    dsimp only at hk
    split at hk
    · obtain rfl := Option.some.inj hk
      exact .inl ⟨‹_›,rfl⟩
    · exact .inr hk
  refine ⟨?_,?_,?_,?_,?_,?_,?_,?_⟩
  · intro k hk
    rw [hcl]
    dsimp only
    split
    · rfl
    · rename_i hne
      rw [hout] at hk
      simp only [hne,if_false] at hk
      exact h.exclusive k hk
  · intro k cl hk
    rw [htok,hs]
    exact h.claimed k cl (hclaims k cl hk).2
  · intro k o' hk
    rw [htok,hs]
    rcases houtcomes k o' hk with ⟨-,he⟩ | hk
    · rw [he,← htoken]
      exact h.claimed c.key cl₀ hcl₀
    · exact h.written k o' hk
  · intro k k' cl o' hk hk'
    obtain ⟨hne,hk⟩ := hclaims k cl hk
    rcases houtcomes k' o' hk' with ⟨-,he⟩ | hk'
    · rw [he,← htoken]
      exact fun heq => hne (h.distinct k c.key cl cl₀ hk hcl₀ heq)
    · exact h.apart k k' cl o' hk hk'
  · exact fun k k' cl cl' hk hk' =>
      h.distinct k k' cl cl' (hclaims k cl hk).2 (hclaims k' cl' hk').2
  · rw [hs,htok]
    exact h.superseded
  · rw [hb]
    exact h.nodup
  · intro b hbm
    rw [hb] at hbm
    obtain ⟨o',ho',he⟩ := h.batch b hbm
    have hne : b.1≠c.key := by
      intro hk
      rw [hk,hnone] at ho'
      cases ho'
    refine ⟨o',?_,he⟩
    rw [hout]
    simpa only [hne,if_false] using ho'

theorem Consistent.committed {document : String} (h : Consistent s) (hcov : Covered s c.key)
    (ht : s.completion c o (.success document)=.ok t) :
    Consistent { t with batches := (c.key,o.ownerToken)::t.batches } := by
  have h' := h.completed hcov ht
  obtain ⟨hnone,-,hout,-,hb,-,-⟩ := completion_ok ht
  refine ⟨h'.exclusive,h'.claimed,h'.written,h'.apart,h'.distinct,h'.superseded,?_,?_⟩
  · refine nodup_cons.mpr ⟨?_,h'.nodup⟩
    intro hmem
    obtain ⟨b,hbm,hk⟩ := mem_map.mp hmem
    rw [hb] at hbm
    obtain ⟨o',ho',-⟩ := h.batch b hbm
    rw [hk,hnone] at ho'
    cases ho'
  · intro b hbm
    rcases mem_cons.mp hbm with rfl | hbm
    · refine ⟨⟨c.operation,c.requestJson,.success document,o⟩,?_,rfl⟩
      rw [hout]
      exact if_pos rfl
    · exact h'.batch b hbm

variable {ph ph' : Phase}

theorem Consistent.acts (h : Consistent s) (ha : Acts s c x ph t ph')
    (hx : x.fresh s ph=true) (hfind : findsClaim s x ⟨c,ph⟩=true) : Consistent t := by
  cases ha with
  | still => exact h
  | acquired hph ht =>
    subst hph
    obtain ⟨-,ho,rfl⟩ := acquireClaim_some ht
    have hx' : x.token∉s.tokens := by simpa [Input.fresh] using hx
    exact @Consistent.claim s c.key _ [] h hx' ho (fun token ht => by cases ht)
  | @tookOver t o prior hph ht =>
    subst hph
    obtain ⟨cl,hcl,-,-,rfl⟩ := takeOverClaim_some ht
    have ho : s.outcomes c.key=none := by
      by_contra hne
      have := h.exclusive c.key (Option.isSome_iff_ne_none.mpr hne)
      rw [hcl] at this
      cases this
    have hx' : x.token∉s.tokens := by simpa [Input.fresh] using hx
    refine @Consistent.claim s c.key _ [cl.owner_token] h hx' ho (fun token ht => ?_)
    exact ⟨cl,hcl,(mem_singleton.mp ht).symm⟩
  | recorded hph ht =>
    refine h.completed ?_ ht
    simpa [findsClaim,hph,Covered] using hfind
  | committed hph hx ht =>
    refine h.committed ?_ ht
    simpa [findsClaim,hph,hx,Covered] using hfind
  | @released o p hph =>
    rcases releaseClaim_cases s c o with ⟨cl,-,-,-,he⟩ | he
    · rw [he]
      exact h.unclaimed
    · rw [he]
      exact h

theorem acts_outcomes {k : String} {o : Outcome} (ha : Acts s c x ph t ph')
    (hk : s.outcomes k=some o) : t.outcomes k=some o := by
  cases ha with
  | still => exact hk
  | acquired _ ht =>
    obtain ⟨-,-,rfl⟩ := acquireClaim_some ht
    exact hk
  | tookOver _ ht =>
    obtain ⟨_,-,-,-,rfl⟩ := takeOverClaim_some ht
    exact hk
  | recorded _ ht | committed _ _ ht =>
    obtain ⟨hnone,-,hout,-⟩ := completion_ok ht
    have hne : k≠c.key := by
      rintro rfl
      rw [hnone] at hk
      cases hk
    simp only [hout,hne,if_false]
    exact hk
  | @released o p hph =>
    rcases releaseClaim_cases s c o with ⟨cl,-,-,-,he⟩ | he
    · rw [he]
      exact hk
    · rw [he]
      exact hk

/-- The result of a request: its outcome, or what a run of before outcomes retains of it. -/
def Answered (legacy : String → Option LegacyRun) (s : Tables) (c : IdempotencyContext)
    (r : Result) : Prop :=
  (∃o,s.outcomes c.key=some o ∧ o.operation=c.operation ∧ o.request_json=c.requestJson ∧
    o.result=r) ∨ replayLegacyAdministration legacy c=.found r

theorem replay_found {b : Bool} (h : replayAdministration legacy s c b=.found r) :
    Answered legacy s c r := by
  rw [replayAdministration] at h
  cases ho : s.outcomes c.key with
  | none =>
    rw [ho] at h
    exact .inr h
  | some o =>
    rw [ho] at h
    dsimp only at h
    split at h
    · cases h
    · rename_i hsame
      rw [not_or,not_not,not_not] at hsame
      refine .inl ⟨o,ho,hsame.1,hsame.2,?_⟩
      cases hr : o.result with
      | problem p =>
        rw [hr] at h
        exact Replay.found.inj h
      | success d =>
        rw [hr] at h
        dsimp only at h
        split at h
        · exact Replay.found.inj h
        · cases h

theorem replay_none {b : Bool} (h : replayAdministration legacy s c b=.none) :
    s.outcomes c.key=none ∧ replayLegacyAdministration legacy c=.none := by
  rw [replayAdministration] at h
  cases ho : s.outcomes c.key with
  | none =>
    rw [ho] at h
    exact ⟨rfl,h⟩
  | some o =>
    rw [ho] at h
    dsimp only at h
    split at h
    · cases h
    · split at h
      · cases h
      · split at h <;> cases h

theorem orElse_final {r : Replay} {next : Phase} {res : Result}
    (h : r.orElse next=.ended (.final res)) :
    r=.found res ∨ (r=.none ∧ next=.ended (.final res)) := by
  cases r with
  | none => exact .inr ⟨rfl,h⟩
  | found r =>
    left
    rw [Ended.final.inj (Phase.ended.inj h)]
  | reused => cases h
  | unreadable => cases h

/-- A call whose request is not answered by a run of before outcomes, and has not ended. -/
def Phase.inner : Phase → Bool
  | .starting | .ended _ => false
  | _ => true

structure CallKept (legacy : String → Option LegacyRun) (s : Tables) (call : Call) : Prop where
  inner : call.phase.inner=true → replayLegacyAdministration legacy call.context=.none
  taken : ∀p,call.phase=.unrecorded p false → (s.outcomes call.context.key).isSome=true
  final : ∀r,call.phase=.ended (.final r) → Answered legacy s call.context r

theorem advance_inner (h : ph.inner=true → replayLegacyAdministration legacy c=.none)
    (h' : (advance legacy s c x ph).2.inner=true) : replayLegacyAdministration legacy c=.none := by
  cases ph with
  | starting =>
    simp only [advance] at h'
    cases hr : replayAdministration legacy s c x.readable with
    | none => exact (replay_none hr).2
    | found r => rw [hr] at h'; cases h'
    | reused => rw [hr] at h'; cases h'
    | unreadable => rw [hr] at h'; cases h'
  | ended e => cases h'
  | _ => exact h rfl

theorem advance_taken {p : Problem} (h : (advance legacy s c x ph).2=.unrecorded p false) :
    (∃p',ph=.unrecorded p' false) ∨
      ((advance legacy s c x ph).1=s ∧ (s.outcomes c.key).isSome=true) := by
  have horElse : ∀{r : Replay} {next : Phase},r.orElse next=.unrecorded p false →
      next=.unrecorded p false := by
    intro r next hn
    cases r with
    | none => exact hn
    | _ => cases hn
  cases ph with
  | starting => cases horElse h
  | claiming => simp only [advance] at h; split at h <;> cases h
  | refused =>
    simp only [advance] at h
    split at h
    · cases h
    · split at h
      · cases h
      · split at h <;> cases h
  | vanished =>
    simp only [advance] at h
    split at h
    · cases h
    · cases h
    · cases horElse h
  | takingOver prior => simp only [advance] at h; split at h <;> cases h
  | outrun => simp only [advance] at h; split at h <;> cases h
  | waiting => cases horElse h
  | owning o =>
    have := horElse h
    split at this <;> cases this
  | executing o =>
    simp only [advance,execute] at h
    split at h
    · dsimp only at h
      split at h <;> cases h
    · split at h
      · split at h <;> cases h
      · cases h
    · cases h
    · cases h
    · cases h
    · cases h
  | recording o q =>
    simp only [advance] at h ⊢
    cases hc : s.completion c o (.problem q) with
    | ok t => rw [hc] at h; cases h
    | error e =>
      rw [hc] at h
      have he : e=.key_taken := by
        cases e with
        | owner_changed => cases (Phase.unrecorded.inj h).2
        | key_taken => rfl
      refine .inr ⟨rfl,?_⟩
      subst he
      rw [Tables.completion,Tables.insertOutcome] at hc
      split at hc
      · cases hc
      · split at hc
        · assumption
        · cases hc
  | unrecorded q b =>
    have := horElse h
    split at this <;> cases this
  | searching q =>
    simp only [advance] at h
    split at h
    · split at h <;> cases h
    · cases h
  | releasing o q => cases h
  | ended e => cases h

theorem completion_answered (h : s.completion c o r=.ok t) : Answered legacy t c r := by
  obtain ⟨-,-,hout,-⟩ := completion_ok h
  refine .inl ⟨⟨c.operation,c.requestJson,r,o⟩,?_,rfl,rfl,rfl⟩
  rw [hout]
  exact if_pos rfl

/-- A call that ends with a result ends with the retained one. -/
theorem advance_final (hk : CallKept legacy s ⟨c,ph⟩) (hfind : findsClaim s x ⟨c,ph⟩=true)
    (h : (advance legacy s c x ph).2=.ended (.final r)) :
    Answered legacy (advance legacy s c x ph).1 c r := by
  cases ph with
  | starting =>
    rcases orElse_final h with hr | ⟨-,hn⟩
    · exact replay_found hr
    · cases hn
  | claiming => simp only [advance] at h; split at h <;> cases h
  | refused =>
    simp only [advance] at h
    split at h
    · cases h
    · split at h
      · cases h
      · split at h <;> cases h
  | vanished =>
    simp only [advance] at h ⊢
    cases hr : replayAdministration legacy s c x.readable with
    | none => rw [hr] at h; cases h
    | found res =>
      rw [hr] at h
      cases res with
      | success d => cases h
      | problem p =>
        obtain rfl := Ended.final.inj (Phase.ended.inj h)
        exact replay_found hr
    | reused => rw [hr] at h; cases h
    | unreadable => rw [hr] at h; cases h
  | takingOver prior => simp only [advance] at h; split at h <;> cases h
  | outrun => simp only [advance] at h; split at h <;> cases h
  | waiting =>
    rcases orElse_final h with hr | ⟨-,hn⟩
    · exact replay_found hr
    · cases hn
  | owning o =>
    rcases orElse_final h with hr | ⟨-,hn⟩
    · exact replay_found hr
    · split at hn <;> cases hn
  | executing o =>
    simp only [advance,execute] at h ⊢
    cases hx : x.choice with
    | look =>
      rw [hx] at h
      dsimp only at h ⊢
      cases hr : replayAdministration legacy s c x.readable with
      | none => rw [hr] at h; cases h
      | found res =>
        rw [hr] at h
        cases res with
        | success d =>
          obtain rfl := Ended.final.inj (Phase.ended.inj h)
          exact replay_found hr
        | problem p => cases h
      | reused => rw [hr] at h; cases h
      | unreadable => rw [hr] at h; cases h
    | commit document guarded =>
      rw [hx] at h
      dsimp only at h ⊢
      cases guarded with
      | false => cases h
      | true =>
        cases hc : s.commit c o document with
        | error e => rw [hc] at h; cases h
        | ok u =>
          rw [hc] at h
          obtain rfl := Ended.final.inj (Phase.ended.inj h)
          rw [Tables.commit] at hc
          cases hcc : s.completion c o (.success document) with
          | error e => rw [hcc] at hc; cases hc
          | ok v =>
            rw [hcc] at hc
            obtain rfl := Except.ok.inj hc
            have hans : Answered legacy v c (.success document) := completion_answered hcc
            exact hans
    | inProgress => rw [hx] at h; cases h
    | fails p persistOutcome =>
      rw [hx] at h
      cases persistOutcome <;> cases h
    | throws => rw [hx] at h; cases h
  | recording o p =>
    simp only [advance] at h ⊢
    cases hc : s.completion c o (.problem p) with
    | error e => rw [hc] at h; cases h
    | ok u =>
      rw [hc] at h
      obtain rfl := Ended.final.inj (Phase.ended.inj h)
      exact completion_answered hc
  | unrecorded p ownerChanged =>
    rcases orElse_final h with hr | ⟨hr,hn⟩
    · exact replay_found hr
    · cases ownerChanged with
      | true => cases hn
      | false =>
        have hsome := hk.taken p rfl
        rw [(replay_none hr).1] at hsome
        cases hsome
  | searching p =>
    obtain ⟨cl,hcl,hof⟩ := (Option.any_eq_true ..).mp hfind
    simp only [advance,hcl,hof,if_pos] at h
    cases h
  | releasing o p => cases h
  | ended e => exact hk.final r h

def OpenClaims (legacy : String → Option LegacyRun) (s : Tables) : Prop :=
  ∀c cl,s.claims c.key=some cl → cl.isOf c=true → replayLegacyAdministration legacy c=.none

theorem replayLegacy_congr {c c' : IdempotencyContext} (hk : c.key=c'.key)
    (ho : c.operation=c'.operation) (hr : c.requestJson=c'.requestJson) :
    replayLegacyAdministration legacy c=replayLegacyAdministration legacy c' := by
  rw [replayLegacyAdministration,replayLegacyAdministration,hk,ho,hr]

theorem OpenClaims.acts (h : OpenClaims legacy s) (ha : Acts s c x ph t ph')
    (hi : ph.inner=true → replayLegacyAdministration legacy c=.none) : OpenClaims legacy t := by
  intro c' cl hcl hof
  have hold : s.claims c'.key=some cl → replayLegacyAdministration legacy c'=.none :=
    fun hs => h c' cl hs hof
  rw [Claim.isOf,decide_eq_true_eq] at hof
  cases ha with
  | still => exact hold hcl
  | acquired hph ht =>
    obtain ⟨-,-,rfl⟩ := acquireClaim_some ht
    rw [setClaim_claims] at hcl
    split at hcl
    · rename_i hk
      obtain rfl := Option.some.inj hcl
      rw [replayLegacy_congr hk hof.1.symm hof.2.symm]
      exact hi (by rw [hph]; rfl)
    · exact hold hcl
  | tookOver hph ht =>
    obtain ⟨cl₀,-,hof₀,-,rfl⟩ := takeOverClaim_some ht
    rw [Claim.isOf,decide_eq_true_eq] at hof₀
    rw [setClaim_claims] at hcl
    split at hcl
    · rename_i hk
      obtain rfl := Option.some.inj hcl
      rw [replayLegacy_congr hk (hof.1.symm.trans hof₀.1) (hof.2.symm.trans hof₀.2)]
      exact hi (by rw [hph]; rfl)
    · exact hold hcl
  | recorded _ ht | committed _ _ ht =>
    obtain ⟨-,-,-,hclaims,-⟩ := completion_ok ht
    simp only [hclaims] at hcl
    split at hcl
    · cases hcl
    · exact hold hcl
  | @released o p hph =>
    rcases releaseClaim_cases s c o with ⟨_,-,-,-,he⟩ | he
    · rw [he,setClaim_claims] at hcl
      split at hcl
      · cases hcl
      · exact hold hcl
    · rw [he] at hcl
      exact hold hcl

structure Kept (legacy : String → Option LegacyRun) (s : State) : Prop where
  tables : Consistent s.tables
  claims : OpenClaims legacy s.tables
  calls : ∀(i : Nat) (call : Call),s.calls[i]?=some call → CallKept legacy s.tables call

theorem Answered.acts {c' : IdempotencyContext}
    (h : Answered legacy s c' r) (ha : Acts s c x ph t ph') : Answered legacy t c' r := by
  rcases h with ⟨o,ho,hrest⟩ | h
  · exact .inl ⟨o,acts_outcomes ha ho,hrest⟩
  · exact .inr h

theorem CallKept.own (h : CallKept legacy s ⟨c,ph⟩) (hfind : findsClaim s x ⟨c,ph⟩=true) :
    CallKept legacy (advance legacy s c x ph).1 ⟨c,(advance legacy s c x ph).2⟩ := by
  have ha := @advance_acts legacy s c x ph
  refine ⟨advance_inner h.inner,fun p hp => ?_,fun r hr => advance_final h hfind hr⟩
  rcases advance_taken hp with ⟨p',rfl⟩ | ⟨he,hs⟩
  · obtain ⟨o,ho⟩ := Option.isSome_iff_exists.mp (h.taken p' rfl)
    exact Option.isSome_iff_exists.mpr ⟨o,acts_outcomes ha ho⟩
  · rw [he]
    exact hs

theorem CallKept.other {call : Call} (h : CallKept legacy s call)
    (ha : Acts s c x ph t ph') : CallKept legacy t call := by
  refine ⟨h.inner,fun p hp => ?_,fun r hr => (h.final r hr).acts ha⟩
  obtain ⟨o,ho⟩ := Option.isSome_iff_exists.mp (h.taken p hp)
  exact Option.isSome_iff_exists.mpr ⟨o,acts_outcomes ha ho⟩

theorem Kept.step (h : Kept legacy w) (i : Nat) (call : Call)
    (hi : w.calls[i]?=some call) (hfresh : x.fresh w.tables call.phase=true)
    (hfind : findsClaim w.tables x call=true) : Kept legacy (w.next legacy (.step i x)) := by
  have hc := h.calls i call hi
  have ha := @advance_acts legacy w.tables call.context x call.phase
  rw [State.next,hi]
  refine ⟨h.tables.acts ha hfresh hfind,h.claims.acts ha hc.inner,?_⟩
  intro j other hj
  by_cases hji : i=j
  · subst hji
    have hlt := (List.getElem?_eq_some_iff.mp hi).1
    rw [List.getElem?_set_self hlt] at hj
    obtain rfl := Option.some.inj hj
    exact hc.own hfind
  · rw [List.getElem?_set_ne hji] at hj
    exact (h.calls j other hj).other ha

theorem Kept.start (h : Kept legacy w) (c : IdempotencyContext) :
    Kept legacy (w.next legacy (.start c)) := by
  refine ⟨h.tables,h.claims,fun i call hi => ?_⟩
  rw [State.next,List.getElem?_append] at hi
  split at hi
  · exact h.calls i call hi
  · rw [List.getElem?_singleton] at hi
    split at hi
    · obtain rfl := Option.some.inj hi
      refine ⟨?_,?_,?_⟩
      · intro hin
        cases hin
      · intro p hp
        cases hp
      · intro r hr
        cases hr
    · cases hi

theorem along_cons {ok : State → Nat → Input → Call → Bool} {m : Move}
    {ms : List Move} (h : w.along legacy ok (m::ms)=true) :
    (∀i x call,m=.step i x → w.calls[i]?=some call → ok w i x call=true) ∧
      (w.next legacy m).along legacy ok ms=true := by
  simp only [State.along,Bool.and_eq_true] at h
  refine ⟨?_,h.2⟩
  rintro i x call rfl hi
  have hok := h.1
  simp only [hi,Option.all_some] at hok
  exact hok

theorem Kept.next {w : State} {m : Move} {ms : List Move} (h : Kept legacy w)
    (hf : w.freshly legacy (m::ms)=true) (hs : w.soundly legacy (m::ms)=true) :
    Kept legacy (w.next legacy m) := by
  cases m with
  | start c => exact h.start c
  | step i x =>
    cases hi : w.calls[i]? with
    | none =>
      rw [State.next,hi]
      exact h
    | some call =>
      have hx := (along_cons hf).1 i x call rfl hi
      have hok := (along_cons hs).1 i x call rfl hi
      exact h.step i call hi hx hok

theorem Kept.run {moves : List Move} (h : Kept legacy w) (hf : w.freshly legacy moves=true)
    (hs : w.soundly legacy moves=true) : Kept legacy (w.run legacy moves) := by
  induction moves generalizing w with
  | nil => exact h
  | cons m ms ih => exact ih (h.next hf hs) (along_cons hf).2 (along_cons hs).2

theorem Consistent.empty : Consistent emptyTables := by
  refine ⟨?_,?_,?_,?_,?_,?_,nodup_nil,?_⟩
  · intro k hk
    cases hk
  · intro k cl hcl
    cases hcl
  · intro k o ho
    cases ho
  · intro k k' cl o hcl
    cases hcl
  · intro k k' cl cl' hcl
    cases hcl
  · intro token ht
    cases ht
  · intro b hb
    cases hb

theorem Kept.empty : Kept legacy ⟨emptyTables,[]⟩ := by
  refine ⟨Consistent.empty,?_,?_⟩
  · intro c cl hcl
    cases hcl
  · intro i call hi
    cases hi

end CardKeepr.Administration
