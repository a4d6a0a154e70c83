import CardKeepr.Lib.Fallible
import CardKeepr.Lib.Rearranged
import CardKeepr.Shared.CanonicalJson

namespace CardKeepr.Reconciliation.Digimon
open Shared Lib List

/-- The facts of an observed card that the authority reads. -/
structure CardFacts where
  game : JsString
  identityKind : JsString
  identityValue : Option JsString
  name : JsString
  effective_rules_text : Option JsString
  profile : JsString
  attributes : List (JsString × Json)
  integral : (Json.obj attributes).Integral

structure DigimonCardAuthority where
  card : CardFacts
  hasBaseRecord : Bool

inductive RulesTextAuthority
  | source_consensus
  | official_errata
  deriving DecidableEq

inductive Resolution
  | accepted (authority : DigimonCardAuthority)
  | conflict (detail : String)

def nullable : Option JsString → Json
  | some s => .str s
  | none => .null

def rulesRelevantFacts (card : CardFacts) (authority : RulesTextAuthority) : Json :=
  let nonTextAttributes := card.attributes.filter fun m => m.1 != js "text_sections".toList
  .obj [(js "game".toList,.str card.game),
    (js "official_identity".toList,.obj [(js "kind".toList,.str card.identityKind),
      (js "value".toList,nullable card.identityValue)]),
    (js "effective_rules_text".toList,nullable card.effective_rules_text),
    (js "game_data".toList,.obj [(js "profile".toList,.str card.profile),
      (js "attributes".toList,.obj
        (if authority=.official_errata then nonTextAttributes else card.attributes))])]

def notUnanimous : String :=
  "Digimon Printing records without a base record do not unanimously agree on the Card name."

section
variable (nfc : Nfc) (authority : RulesTextAuthority)

def reconcileDigimonCardAuthority (current : DigimonCardAuthority) (proposed : CardFacts)
    (proposedIsBaseRecord : Bool) : Except JsString Resolution := do
  let standing ← canonicalJson nfc (rulesRelevantFacts current.card authority)
  let offered ← canonicalJson nfc (rulesRelevantFacts proposed authority)
  return if standing≠offered then
      .conflict "Retained Digimon Printings disagree on rules-relevant Card facts."
    else if current.hasBaseRecord && proposedIsBaseRecord then
      if current.card.name=proposed.name then .accepted current
      else .conflict "Retained Digimon base records disagree on the Card name."
    else if current.hasBaseRecord then .accepted current
    else if proposedIsBaseRecord then .accepted ⟨proposed,true⟩
    else if current.card.name=proposed.name then .accepted ⟨proposed,false⟩
    else .conflict notUnanimous

/-- An observation of a card and whether it is a base record. -/
structure Observed where
  card : CardFacts
  base : Bool

/-- The authority kept for a card, and the conflicts reported so far. -/
structure Standing where
  authority : Option DigimonCardAuthority
  conflicts : List String

def Standing.observe (s : Standing) (o : Observed) : Except JsString Standing :=
  match s.authority with
  | none => .ok { s with authority := some ⟨o.card,o.base⟩ }
  | some priorAuthority => do
    match ←reconcileDigimonCardAuthority nfc authority priorAuthority o.card o.base with
    | .conflict detail => return { s with conflicts := s.conflicts++[detail] }
    | .accepted next => return { s with authority := some next }

def foldAuthority (obs : List Observed) : Except JsString Standing :=
  obs.foldlM (Standing.observe nfc authority) ⟨none,[]⟩

def rulesText (card : CardFacts) : JsString :=
  ((rulesRelevantFacts card authority).canonical nfc).print

def ConflictReported (obs : List Observed) : Prop :=
  ∃s,foldAuthority nfc authority obs=.ok s ∧ s.conflicts≠[]

def AcceptedName (obs : List Observed) (name : Option JsString) : Prop :=
  ∃s,foldAuthority nfc authority obs=.ok s ∧ s.authority.map (fun a => a.card.name)=name

def NamesAgree (obs : List Observed) : Prop := AllSame (fun o => o.card.name) obs

def RulesAgree (obs : List Observed) : Prop := AllSame (fun o => rulesText nfc authority o.card) obs

def bases (obs : List Observed) : List Observed := obs.filter fun o => o.base
def nonBases (obs : List Observed) : List Observed := obs.filter fun o => !o.base

/-- Two observations differ in rules-relevant facts, or two base records in name, or there is no
base record and two names differ. -/
def Disagree (obs : List Observed) : Prop :=
  ¬RulesAgree nfc authority obs ∨ ¬NamesAgree (bases obs) ∨ (bases obs=[] ∧ ¬NamesAgree obs)

/-- A conflict tells of a disagreement, and neither it nor the accepted name depends on the order
of the observations. -/
def OrderIndependent (obs : List Observed) : Prop :=
  (ConflictReported nfc authority obs ↔ Disagree nfc authority obs) ∧
    ∀later,later.Perm obs →
      (ConflictReported nfc authority later ↔ ConflictReported nfc authority obs) ∧
      (¬ConflictReported nfc authority obs →
        ∀name,AcceptedName nfc authority later name ↔ AcceptedName nfc authority obs name)
end

section
variable {nfc : Nfc} {authority : RulesTextAuthority}

theorem rules_integral (card : CardFacts) : (rulesRelevantFacts card authority).Integral := by
  have hnull (o : Option JsString) : (nullable o).Integral := by cases o <;> trivial
  have hattributes : (Json.obj (if authority=.official_errata
      then card.attributes.filter fun m => m.1 != js "text_sections".toList
      else card.attributes)).Integral := by
    have h := card.integral
    rw [Json.Integral,all_obj] at h ⊢
    refine ⟨trivial,fun m hm => h.2 m ?_⟩
    split at hm
    · exact (mem_filter.mp hm).1
    · exact hm
  simp only [rulesRelevantFacts,Json.Integral,all_obj] at hattributes hnull ⊢
  simp only [mem_cons,not_mem_nil,or_false,forall_eq_or_imp,forall_eq,true_and,all_obj]
  exact ⟨trivial,⟨trivial,hnull _⟩,hnull _,trivial,hattributes.2⟩

theorem rules_canonical (card : CardFacts) :
    canonicalJson nfc (rulesRelevantFacts card authority)=.ok (rulesText nfc authority card) :=
  canonicalJsonAt_eq nfc (rules_integral card) _

variable {s : Standing}

theorem observe_first (h : s.authority=none) (o : Observed) :
    s.observe nfc authority o=.ok { s with authority := some ⟨o.card,o.base⟩ } := by
  rw [Standing.observe,h]

/-- Whether an observation is taken beside the authority that stands. -/
def Fits (nfc : Nfc) (authority : RulesTextAuthority) (current : DigimonCardAuthority)
    (o : Observed) : Prop :=
  rulesText nfc authority current.card=rulesText nfc authority o.card ∧
    (current.hasBaseRecord=o.base → current.card.name=o.card.name)

def keptBeside (current : DigimonCardAuthority) (o : Observed) : DigimonCardAuthority :=
  if current.hasBaseRecord then current else ⟨o.card,o.base⟩

variable {o : Observed} {a current : DigimonCardAuthority}

theorem observe_fits (h : s.authority=some current) (hf : Fits nfc authority current o) :
    s.observe nfc authority o=.ok { s with authority := some (keptBeside current o) } := by
  obtain ⟨card,hasBase⟩ := current
  obtain ⟨hr,hn⟩ := hf
  rw [Standing.observe,h]
  simp only [reconcileDigimonCardAuthority,rules_canonical,ok_bind,hr]
  cases hasBase <;> cases hb : o.base <;> simp_all [keptBeside,pure,Except.pure,ok_bind]

theorem observe_conflict (h : s.authority=some current) (hf : ¬Fits nfc authority current o) :
    ∃detail,s.observe nfc authority o=.ok { s with conflicts := s.conflicts++[detail] } := by
  obtain ⟨card,hasBase⟩ := current
  rw [Standing.observe,h]
  simp only [reconcileDigimonCardAuthority,rules_canonical,ok_bind]
  by_cases hr : rulesText nfc authority card=rulesText nfc authority o.card
  · obtain ⟨rfl,hn⟩ : hasBase=o.base ∧ ¬card.name=o.card.name := by
      by_contra hc
      exact hf ⟨hr,fun he => by_contra fun hne => hc ⟨he,hne⟩⟩
    simp only [hr,ne_eq,not_true,if_false,Bool.and_self,hn]
    cases o.base
    · exact ⟨_,rfl⟩
    · exact ⟨_,rfl⟩
  · exact ⟨_,by simp only [ne_eq,hr,not_false_eq_true,if_true]; rfl⟩

def beforeBase (obs : List Observed) : List Observed := obs.takeWhile fun o => !o.base

def Quiet (nfc : Nfc) (authority : RulesTextAuthority) (obs : List Observed) : Prop :=
  RulesAgree nfc authority obs ∧ NamesAgree (bases obs) ∧ NamesAgree (beforeBase obs)

theorem bases_append (obs : List Observed) (o : Observed) :
    bases (obs++[o])=bases obs++if o.base then [o] else [] := by
  rw [bases,filter_append,List.filter_singleton,Bool.cond_eq_ite]
  rfl

variable {obs later : List Observed}

theorem bases_nil : bases obs=[] ↔ ∀o∈obs,o.base=false := by
  rw [bases,filter_eq_nil_iff]
  simp

theorem beforeBase_all (h : bases obs=[]) : beforeBase obs=obs := by
  rw [beforeBase,takeWhile_eq_self_iff]
  exact fun o ho => by rw [bases_nil.mp h o ho]; rfl

theorem beforeBase_append (obs : List Observed) (o : Observed) : beforeBase (obs++[o])=
      if bases obs=[] then obs++(if o.base then [] else [o]) else beforeBase obs := by
  split_ifs with h ho
  · rw [beforeBase,takeWhile_append_of_pos fun a ha => by rw [bases_nil.mp h a ha]; rfl]
    simp [ho]
  · rw [beforeBase,takeWhile_append_of_pos fun a ha => by rw [bases_nil.mp h a ha]; rfl]
    simp [ho]
  · obtain ⟨a,ha⟩ := exists_mem_of_ne_nil _ h
    obtain ⟨ha,hb⟩ := mem_filter.mp ha
    rw [beforeBase,takeWhile_append,if_neg]
    · rfl
    · intro hlen
      have hall : obs.takeWhile (fun o => !o.base)=obs :=
        ( takeWhile_prefix _).eq_of_length hlen
      have := takeWhile_eq_self_iff.mp hall a ha
      rw [hb] at this
      cases this

/-- What stands after a sequence of observations without a conflict. -/
structure Stands (nfc : Nfc) (authority : RulesTextAuthority) (obs : List Observed)
    (a : DigimonCardAuthority) : Prop where
  rules : ∀o∈obs,rulesText nfc authority o.card=rulesText nfc authority a.card
  base : a.hasBaseRecord=true ↔ bases obs≠[]
  name : ∀o∈obs,o.base=true ∨ bases obs=[] → o.card.name=a.card.name
  kept : ∃o∈obs,a.card=o.card

theorem Stands.rules_iff (h : Stands nfc authority obs a) (o : Observed) :
    rulesText nfc authority a.card=rulesText nfc authority o.card ↔
      ∀b∈obs,rulesText nfc authority b.card=rulesText nfc authority o.card := by
  obtain ⟨k,hk,hcard⟩ := h.kept
  exact ⟨fun he b hb => (h.rules b hb).trans he,fun hall => hcard ▸ hall k hk⟩

theorem Stands.fits_iff (h : Stands nfc authority obs a) (hq : Quiet nfc authority obs)
    (o : Observed) : Fits nfc authority a o ↔ Quiet nfc authority (obs++[o]) := by
  obtain ⟨hrules,hbases,hbefore⟩ := hq
  have hnames : (a.hasBaseRecord=o.base → a.card.name=o.card.name) ↔
      NamesAgree (bases (obs++[o])) ∧ NamesAgree (beforeBase (obs++[o])) := by
    rw [bases_append,beforeBase_append]
    cases hb : o.base with
    | true =>
      have hbefore' : NamesAgree (if bases obs=[] then obs++[] else beforeBase obs) := by
        split_ifs with hn
        · rw [append_nil,←beforeBase_all hn]
          exact hbefore
        · exact hbefore
      simp only [if_true,NamesAgree,allSame_append]
      constructor
      · intro hname
        refine ⟨⟨hbases,fun b hm => ?_⟩,hbefore'⟩
        have hbase : b.base=true := (mem_filter.mp hm).2
        rw [h.name b (mem_filter.mp hm).1 (.inl hbase)]
        exact hname (h.base.mpr (ne_nil_of_mem hm))
      · rintro ⟨⟨-,hall⟩,-⟩ hbase
        obtain ⟨b,hm⟩ := exists_mem_of_ne_nil _ (h.base.mp hbase)
        rw [←h.name b (mem_filter.mp hm).1 (.inl (mem_filter.mp hm).2)]
        exact hall b hm
    | false =>
      simp only [Bool.false_eq_true,if_false,append_nil]
      by_cases hn : bases obs=[]
      · rw [if_pos hn,NamesAgree,NamesAgree,allSame_append]
        obtain ⟨k,hk,hcard⟩ := h.kept
        constructor
        · intro hname
          refine ⟨hbases,beforeBase_all hn ▸ hbefore,fun b hm => ?_⟩
          rw [h.name b hm (.inr hn)]
          exact hname (Bool.eq_false_iff.mpr fun he => h.base.mp he hn)
        · rintro ⟨-,-,hall⟩ -
          rw [←h.name k hk (.inr hn)]
          exact hall k hk
      · rw [if_neg hn,h.base.mpr hn]
        exact ⟨fun _ => ⟨hbases,hbefore⟩,fun _ he => by cases he⟩
  rw [Fits,Quiet,RulesAgree,allSame_append,h.rules_iff,hnames]
  exact ⟨fun hf => ⟨⟨hrules,hf.1⟩,hf.2⟩,fun hf => ⟨hf.1.2,hf.2⟩⟩

theorem Stands.next {obs : List Observed} {a : DigimonCardAuthority} {o : Observed}
    (h : Stands nfc authority obs a) (hf : Fits nfc authority a o) :
    Stands nfc authority (obs++[o]) (keptBeside a o) := by
  obtain ⟨hr,hn⟩ := hf
  rw [keptBeside]
  by_cases hbase : a.hasBaseRecord=true
  · have hne : bases obs≠[] := h.base.mp hbase
    rw [if_pos hbase]
    refine ⟨fun b hb => ?_,?_,fun b hb hor => ?_,?_⟩
    · rcases mem_append.mp hb with hb | hb
      · exact h.rules b hb
      · rw [mem_singleton.mp hb,hr]
    · rw [bases_append]
      simp [hbase,hne]
    · have hb' : b.base=true := hor.resolve_right (by rw [bases_append]; simp [hne])
      rcases mem_append.mp hb with hb | hb
      · exact h.name b hb (.inl hb')
      · rw [mem_singleton.mp hb] at hb' ⊢
        exact (hn (hbase.trans hb'.symm)).symm
    · obtain ⟨k,hk,hcard⟩ := h.kept
      exact ⟨k,by simp [hk],hcard⟩
  · have hnil : bases obs=[] := by
      by_contra hne
      exact hbase (h.base.mpr hne)
    rw [if_neg hbase]
    refine ⟨fun b hb => ?_,?_,fun b hb hor => ?_,o,by simp,rfl⟩
    · rcases mem_append.mp hb with hb | hb
      · exact (h.rules b hb).trans hr
      · rw [mem_singleton.mp hb]
    · rw [bases_append,hnil]
      cases o.base <;> simp
    · rcases mem_append.mp hb with hm | hm
      · have hbf := bases_nil.mp hnil b hm
        have hof : o.base=false := by
          rcases hor with hor | hor
          · rw [hbf] at hor
            cases hor
          · exact bases_nil.mp hor o (by simp)
        rw [h.name b hm (.inr hnil)]
        exact hn ((Bool.eq_false_iff.mpr hbase).trans hof.symm)
      · rw [mem_singleton.mp hm]

theorem Quiet.init (h : Quiet nfc authority (obs++[o])) : Quiet nfc authority obs := by
  obtain ⟨hr,hb,hn⟩ := h
  refine ⟨((allSame_append obs o).mp hr).1,?_,?_⟩
  · rw [bases_append] at hb
    exact hb.subset fun a ha => by simp [ha]
  · rw [beforeBase_append] at hn
    by_cases hnil : bases obs=[]
    · rw [if_pos hnil] at hn
      rw [beforeBase_all hnil]
      exact AllSame.subset hn fun a ha => by simp [ha]
    · rwa [if_neg hnil] at hn

/-- What holds of the fold behind any sequence of observations. -/
structure Folded (nfc : Nfc) (authority : RulesTextAuthority) (obs : List Observed)
    (s : Standing) : Prop where
  result : foldAuthority nfc authority obs=.ok s
  started : obs≠[] → s.authority≠none
  quiet : s.conflicts=[] ↔ Quiet nfc authority obs
  stands : obs≠[] → Quiet nfc authority obs → ∃a,s.authority=some a ∧ Stands nfc authority obs a

theorem foldAuthority_append {t : Standing} (hs : foldAuthority nfc authority obs=.ok s)
    (ho : s.observe nfc authority o=.ok t) : foldAuthority nfc authority (obs++[o])=.ok t := by
  rw [foldAuthority] at hs
  rw [foldAuthority,foldlM_append,hs,ok_bind,foldlM_cons,ho,ok_bind]
  rfl

theorem folded (nfc : Nfc) (authority : RulesTextAuthority) (obs : List Observed) :
    ∃s,Folded nfc authority obs s := by
  induction obs using List.reverseRecOn with
  | nil =>
    have hq : Quiet nfc authority [] := by
      refine ⟨?_,?_,?_⟩ <;> intro a ha <;> cases ha
    exact ⟨⟨none,[]⟩,rfl,fun h => absurd rfl h,⟨fun _ => hq,fun _ => rfl⟩,fun h => absurd rfl h⟩
  | append_singleton obs o ih =>
    obtain ⟨s,hs⟩ := ih
    have hne : obs++[o]≠[] := by simp
    by_cases hobs : obs=[]
    · subst hobs
      obtain rfl : s=⟨none,[]⟩ := (Except.ok.inj hs.result).symm
      have hq : Quiet nfc authority [o] := by
        refine ⟨?_,?_,?_⟩
        · intro a ha b hb
          rw [mem_singleton.mp ha,mem_singleton.mp hb]
        · intro a ha b hb
          rw [mem_singleton.mp (mem_filter.mp ha).1,mem_singleton.mp (mem_filter.mp hb).1]
        · intro a ha b hb
          rw [mem_singleton.mp (( takeWhile_prefix _).subset ha),
            mem_singleton.mp (( takeWhile_prefix _).subset hb)]
      refine ⟨_,foldAuthority_append hs.result (observe_first rfl o),fun _ => by simp,
        ⟨fun _ => hq,fun _ => rfl⟩,fun _ _ => ⟨_,rfl,?_⟩⟩
      refine ⟨fun b hb => by rw [mem_singleton.mp hb],?_,
        fun b hb _ => by rw [mem_singleton.mp hb],o,by simp,rfl⟩
      cases hb : o.base <;> simp [bases,hb]
    obtain ⟨current,hcurrent⟩ := Option.ne_none_iff_exists'.mp (hs.started hobs)
    by_cases hq : Quiet nfc authority obs
    · obtain ⟨a,ha,hstands⟩ := hs.stands hobs hq
      obtain rfl : current=a := Option.some.inj (hcurrent.symm.trans ha)
      by_cases hf : Fits nfc authority current o
      · have hquiet := (hstands.fits_iff hq o).mp hf
        exact ⟨_,foldAuthority_append hs.result (observe_fits hcurrent hf),fun _ => by simp,
          ⟨fun _ => hquiet,fun _ => hs.quiet.mpr hq⟩,fun _ _ => ⟨_,rfl,hstands.next hf⟩⟩
      · have hquiet := mt (hstands.fits_iff hq o).mpr hf
        obtain ⟨detail,hd⟩ := observe_conflict hcurrent hf
        exact ⟨_,foldAuthority_append hs.result hd,fun _ => hs.started hobs,
          ⟨fun hc => absurd hc (by simp),fun h => absurd h hquiet⟩,fun _ h => absurd h hquiet⟩
    · have hquiet : ¬Quiet nfc authority (obs++[o]) := mt Quiet.init hq
      have hconf : s.conflicts≠[] := mt hs.quiet.mp hq
      by_cases hf : Fits nfc authority current o
      · exact ⟨_,foldAuthority_append hs.result (observe_fits hcurrent hf),fun _ => by simp,
          ⟨fun hc => absurd hc hconf,fun h => absurd h hquiet⟩,fun _ h => absurd h hquiet⟩
      · obtain ⟨detail,hd⟩ := observe_conflict hcurrent hf
        exact ⟨_,foldAuthority_append hs.result hd,fun _ => hs.started hobs,
          ⟨fun hc => absurd hc (by simp),fun h => absurd h hquiet⟩,fun _ h => absurd h hquiet⟩

theorem reported_iff (obs : List Observed) :
    ConflictReported nfc authority obs ↔ ¬Quiet nfc authority obs := by
  obtain ⟨s,hs⟩ := folded nfc authority obs
  rw [←not_iff_not.mpr hs.quiet]
  constructor
  · rintro ⟨t,ht,hc⟩
    obtain rfl := Except.ok.inj (hs.result.symm.trans ht)
    exact hc
  · exact fun hc => ⟨s,hs.result,hc⟩

theorem disagree_perm (h : later.Perm obs)
    (hd : Disagree nfc authority obs) : Disagree nfc authority later := by
  have hb : (bases later).Perm (bases obs) := h.filter _
  rcases hd with hr | hn | ⟨hnil,hn⟩
  · exact .inl fun hr' => hr (AllSame.subset hr' h.symm.subset)
  · exact .inr (.inl fun hn' => hn (AllSame.subset hn' hb.symm.subset))
  · refine .inr (.inr ⟨?_,fun hn' => hn (AllSame.subset hn' h.symm.subset)⟩)
    exact (hnil ▸ hb).eq_nil

theorem disagree_reported (h : Disagree nfc authority obs) :
    ConflictReported nfc authority obs := by
  rw [reported_iff]
  rintro ⟨hr,hb,hn⟩
  rcases h with h | h | ⟨hnil,h⟩
  · exact h hr
  · exact h hb
  · rw [beforeBase_all hnil] at hn
    exact h hn

theorem quiet_of_nonBases (h : ¬Disagree nfc authority obs)
    (hn : bases obs=[] ∨ NamesAgree (nonBases obs)) : Quiet nfc authority obs := by
  simp only [Disagree,not_or,not_not,not_and] at h
  refine ⟨h.1,h.2.1,?_⟩
  rcases hn with hnil | hn
  · rw [beforeBase_all hnil]
    exact h.2.2 hnil
  · refine hn.subset fun a ha => mem_filter.mpr ⟨( takeWhile_prefix _).subset ha,?_⟩
    exact mem_takeWhile_imp (p := fun o : Observed => !o.base) ha

theorem Stands.name_perm {b : DigimonCardAuthority} (ha : Stands nfc authority obs a)
    (hb : Stands nfc authority later b) (h : later.Perm obs) : b.card.name=a.card.name := by
  have hbases : (bases later).Perm (bases obs) := h.filter _
  by_cases hnil : bases obs=[]
  · obtain ⟨o,ho,hcard⟩ := ha.kept
    rw [hcard]
    exact (hb.name o (h.symm.subset ho) (.inr (hnil ▸ hbases).eq_nil)).symm
  · obtain ⟨o,ho⟩ := exists_mem_of_ne_nil _ hnil
    obtain ⟨ho,hbase⟩ := mem_filter.mp ho
    rw [←ha.name o ho (.inl hbase),←hb.name o (h.symm.subset ho) (.inl hbase)]

theorem acceptedName_perm (h : later.Perm obs)
    (hq : Quiet nfc authority obs) (hl : Quiet nfc authority later) (name : Option JsString) :
    AcceptedName nfc authority later name ↔ AcceptedName nfc authority obs name := by
  by_cases hne : obs=[]
  · rw [hne] at h ⊢
    rw [h.eq_nil]
  have hne' : later≠[] := by
    rintro rfl
    exact hne h.nil_eq.symm
  obtain ⟨s,hs⟩ := folded nfc authority obs
  obtain ⟨t,ht⟩ := folded nfc authority later
  obtain ⟨a,ha,hsa⟩ := hs.stands hne hq
  obtain ⟨b,hb,htb⟩ := ht.stands hne' hl
  have hname : t.authority.map (fun a => a.card.name)=s.authority.map (fun a => a.card.name) := by
    rw [ha,hb,Option.map_some,Option.map_some,hsa.name_perm htb h]
  constructor
  · rintro ⟨u,hu,hn⟩
    obtain rfl := Except.ok.inj (ht.result.symm.trans hu)
    exact ⟨s,hs.result,hname.symm.trans hn⟩
  · rintro ⟨u,hu,hn⟩
    obtain rfl := Except.ok.inj (hs.result.symm.trans hu)
    exact ⟨t,ht.result,hname.trans hn⟩

theorem mixed_dependent (hd : ¬Disagree nfc authority obs)
    (hn : ¬NamesAgree (nonBases obs)) : ¬OrderIndependent nfc authority obs := by
  rintro ⟨hverdict,hperm⟩
  obtain ⟨x,hx,y,hy,hname⟩ : ∃x∈nonBases obs,∃y∈nonBases obs,x.card.name≠y.card.name := by
    by_contra hall
    exact hn fun x hx y hy => by_contra fun hxy => hall ⟨x,hx,y,hy,hxy⟩
  obtain ⟨hx,hxb⟩ := mem_filter.mp hx
  obtain ⟨hy,hyb⟩ := mem_filter.mp hy
  obtain ⟨rest,hrest⟩ := two_in_front hx hy fun h => hname (congrArg (·.card.name) h)
  have hreported : ConflictReported nfc authority (x::y::rest) := by
    rw [reported_iff]
    rintro ⟨-,-,hbefore⟩
    have hfront : beforeBase (x::y::rest)=x::y::beforeBase rest := by
      simp only [beforeBase,takeWhile_cons,hxb,hyb,if_true]
    rw [hfront] at hbefore
    exact hname (hbefore x (by simp) y (by simp))
  exact hd (hverdict.mp ((hperm _ hrest).1.mp hreported))

/-- The order of the observations does not matter exactly when they disagree in every order, or
there is no base record, or the other records agree on the name. -/
theorem orderIndependent_iff (nfc : Nfc) (authority : RulesTextAuthority) (obs : List Observed) :
    OrderIndependent nfc authority obs ↔
      Disagree nfc authority obs ∨ bases obs=[] ∨ NamesAgree (nonBases obs) := by
  constructor
  · intro h
    by_contra hno
    exact mixed_dependent (fun hd => hno (.inl hd)) (fun hn => hno (.inr (.inr hn))) h
  · intro h
    have verdict (later : List Observed) (hp : later.Perm obs) :
        ConflictReported nfc authority later ↔ Disagree nfc authority obs := by
      constructor
      · intro hr
        by_contra hd
        have hd' : ¬Disagree nfc authority later := fun h => hd (disagree_perm hp.symm h)
        refine (reported_iff later).mp hr (quiet_of_nonBases hd' ?_)
        rcases h.resolve_left hd with hb | hn
        · have hbases : (bases later).Perm (bases obs) := hp.filter _
          exact .inl (hb ▸ hbases).eq_nil
        · exact .inr (hn.subset (hp.filter _).subset)
      · exact fun hd => disagree_reported (disagree_perm hp hd)
    have hobs := verdict obs (.refl _)
    refine ⟨hobs,fun later hp => ⟨(verdict later hp).trans hobs.symm,fun hr name => ?_⟩⟩
    refine acceptedName_perm hp ?_ ?_ name
    · exact by_contra fun hq => hr ((reported_iff obs).mpr hq)
    · exact by_contra fun hq => hr (hobs.mpr ((verdict later hp).mp ((reported_iff later).mpr hq)))
end

def asWritten : Nfc := .asWritten

def namedCard (name : JsString) : CardFacts where
  game := js "digimon".toList
  identityKind := js "card_number".toList
  identityValue := some (js "BT1-010".toList)
  name := name
  effective_rules_text := none
  profile := js "digimon@1".toList
  attributes := []
  integral := (all_obj []).mpr ⟨trivial,fun _ h => by cases h⟩

def reprintsFirst : List Observed :=
  [⟨namedCard (js "Agumon".toList),false⟩,⟨namedCard (js "Agumon (Reprint)".toList),false⟩,
    ⟨namedCard (js "Agumon".toList),true⟩]

theorem reprintsFirst_dependent : ¬OrderIndependent asWritten .source_consensus reprintsFirst := by
  refine mixed_dependent (fun hd => ?_) fun hn => ?_
  · have hrules : RulesAgree asWritten .source_consensus reprintsFirst := by
      intro a ha b hb
      simp only [reprintsFirst,mem_cons,not_mem_nil,or_false] at ha hb
      rcases ha with rfl | rfl | rfl <;> rcases hb with rfl | rfl | rfl <;> rfl
    rcases hd with h | h | ⟨h,-⟩
    · exact h hrules
    · refine h fun a ha b hb => ?_
      rw [mem_singleton.mp ha,mem_singleton.mp hb]
    · cases h
  · have := hn ⟨namedCard (js "Agumon".toList),false⟩ (by simp [nonBases,reprintsFirst])
      ⟨namedCard (js "Agumon (Reprint)".toList),false⟩ (by simp [nonBases,reprintsFirst])
    exact absurd this (by decide)

end CardKeepr.Reconciliation.Digimon
