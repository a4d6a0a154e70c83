import CardKeepr.Adapters.FlightPayload
import CardKeepr.Ingestion.EventPayloads

namespace CardKeepr.Adapters
open Shared Lib Lib.References List
open Reconciliation.Printings (isWhiteSpace trim)

variable {s : JsString} {c u v : UInt16}

theorem unescape_plain {e : UInt16} (h : unescape e=some v) : isLineTerminator e=false := by
  unfold unescape at h
  split_ifs at h with h1 h2 h3 h4 h5 h6 h7 h8
  all_goals
    subst e
    rfl

theorem hexValue_plain {n : Nat} (h : hexValue u=some n) : u≠34 ∧ u≠92 := by
  have hquote : hexValue 34=none := by decide
  have hslash : hexValue 92=none := by decide
  constructor
  · rintro rfl
    rw [hquote] at h
    cases h
  · rintro rfl
    rw [hslash] at h
    cases h

theorem unhex_plain {a b d : UInt16} (h : unhex a b c d=some v) :
    (a≠34 ∧ a≠92) ∧ (b≠34 ∧ b≠92) ∧ (c≠34 ∧ c≠92) ∧ d≠34 ∧ d≠92 := by
  rw [unhex] at h
  obtain ⟨a',ha,h⟩ := Option.bind_eq_some_iff.mp h
  obtain ⟨b',hb,h⟩ := Option.bind_eq_some_iff.mp h
  obtain ⟨c',hc,h⟩ := Option.bind_eq_some_iff.mp h
  obtain ⟨d',hd,-⟩ := Option.bind_eq_some_iff.mp h
  exact ⟨hexValue_plain ha,hexValue_plain hb,hexValue_plain hc,hexValue_plain hd⟩

theorem bodyEnd_plain (h : u≠34 ∧ u≠92) : bodyEnd (u::s)=(bodyEnd s).map fun n => n+1 := by
  rw [bodyEnd.eq_def]
  simp [h.1,h.2]

theorem bodyEnd_escape (h : isLineTerminator c=false) :
    bodyEnd (92::c::s)=(bodyEnd s).map fun n => n+2 := by
  rw [bodyEnd.eq_def]
  simp [h]

theorem bodyEnd_quote (s : JsString) : bodyEnd (34::s)=some 0 := by
  rw [bodyEnd.eq_def]
  simp

theorem bodyEnd_literal {l piece : JsString} (h : StringText l piece) :
    ∃body,l=body++[34] ∧ ∀rest,bodyEnd (body++34::rest)=some body.length := by
  induction h with
  | done => exact ⟨[],rfl,fun rest => bodyEnd_quote rest⟩
  | @hex a b c d v t s hx _ ih =>
    obtain ⟨body,rfl,hb⟩ := ih
    obtain ⟨ha,hb',hc,hd⟩ := unhex_plain hx
    refine ⟨92::117::a::b::c::d::body,rfl,fun rest => ?_⟩
    simp only [cons_append]
    rw [bodyEnd_escape (by decide),bodyEnd_plain ha,bodyEnd_plain hb',bodyEnd_plain hc,
      bodyEnd_plain hd,hb]
    simp
  | @escape e v t s hx _ ih =>
    obtain ⟨body,rfl,hb⟩ := ih
    refine ⟨92::e::body,rfl,fun rest => ?_⟩
    simp only [cons_append]
    rw [bodyEnd_escape (unescape_plain hx),hb]
    simp
  | @unit u t s h34 h92 _ _ ih =>
    obtain ⟨body,rfl,hb⟩ := ih
    refine ⟨u::body,rfl,fun rest => ?_⟩
    rw [cons_append,bodyEnd_plain ⟨h34,h92⟩,hb]
    simp

theorem pushAt_script (p : PushScript) (rest : JsString) : pushAt
    ((pushOpen++(p.literal++pushClose))++rest)= some (pushOpen++(p.literal++pushClose)).length := by
  obtain ⟨body,hbody,hend⟩ := bodyEnd_literal p.denotes
  obtain rfl := append_cancel_right hbody
  have hclose : p.literal++pushClose++rest=p.literal++34::([93,41]++rest) := by
    simp [pushClose,js]
  have hopen : pushOpen.isPrefixOf ((pushOpen++(p.literal++pushClose))++rest)=true := by
    rw [ isPrefixOf_iff_prefix,append_assoc]
    exact prefix_append _ _
  have hdrop : ((pushOpen++(p.literal++pushClose))++rest).drop pushOpen.length=
      p.literal++pushClose++rest := by simp
  have hends : pushClose.isPrefixOf ((p.literal++pushClose++rest).drop p.literal.length)=true := by
    rw [ isPrefixOf_iff_prefix,append_assoc,drop_left]
    exact prefix_append _ _
  rw [pushAt,if_pos hopen,hdrop]
  rw [show bodyEnd (p.literal++pushClose++rest)=some p.literal.length by rw [hclose,hend]]
  simp only [hends,if_true]
  simp [Nat.add_assoc]

theorem captured_script (p : PushScript) :
    captured (pushOpen++(p.literal++pushClose))=p.literal := by
  rw [captured,drop_left]
  have hlen : (pushOpen++(p.literal++pushClose)).length-pushOpen.length-pushClose.length=
      p.literal.length := by
    simp only [length_append]
    omega
  rw [hlen,take_left]

theorem pushOpen_border : ∀k < 23,k≠0 → pushOpen.drop k≠pushOpen.take (23-k) := by decide

theorem not_prefix_before {v rest : JsString} (hv : v≠[]) (hplain : ¬pushOpen <:+: v) :
    ¬pushOpen <+: v++(pushOpen++rest) := by
  intro h
  have hlen : pushOpen.length=23 := by decide
  by_cases hk : 23 ≤ v.length
  · exact hplain ((prefix_of_prefix_length_le h (prefix_append v _)
      (by omega)).isInfix)
  · have hpos := length_pos_iff.mpr hv
    obtain ⟨t,ht⟩ := h
    have hdrop : pushOpen.drop v.length++t=pushOpen++rest := by
      have hd := congrArg (List.drop v.length) ht
      rw [drop_append_of_le_length (by omega),drop_left] at hd
      exact hd
    have htake : pushOpen.drop v.length=pushOpen.take (23-v.length) := by
      have ht' := congrArg (List.take (23-v.length)) hdrop
      rw [take_append_of_le_length (by rw [length_drop]; omega),
        take_append_of_le_length (by omega),take_of_length_le (by rw [length_drop]; omega)] at ht'
      exact ht'
    exact pushOpen_border v.length (by omega) (by omega) htake

theorem pushAt_none (h : ¬pushOpen <+: s) : pushAt s=none := by
  rw [pushAt,if_neg]
  rw [ isPrefixOf_iff_prefix]
  exact h

theorem pushes_page (page : FlightPage) : pushes page.html=page.scripts.map PushScript.literal := by
  obtain ⟨scripts,rest,hplain⟩ := page
  rw [pushes,FlightPage.html]
  dsimp only
  induction scripts with
  | nil =>
    have hnone : parts pushAt (rest++[])=rest.map .kept++parts pushAt [] := by
      apply parts_plain
      intro u v hw hv
      rw [append_nil]
      apply pushAt_none
      intro hp
      apply hplain
      rw [hw]
      exact hp.isInfix.trans (suffix_append u v).isInfix
    rw [append_nil] at hnone
    rw [flatMap_nil,nil_append,hnone,parts_nil,append_nil,found_kept]
    rfl
  | cons p ps ih =>
    have hsplit : (p::ps).flatMap PushScript.html++rest=
        p.before++((pushOpen++(p.literal++pushClose))++(ps.flatMap PushScript.html++rest)) := by
      simp [PushScript.html]
    have hbefore : parts pushAt (p.before++((pushOpen++(p.literal++pushClose))++
        (ps.flatMap PushScript.html++rest)))=p.before.map .kept++
          parts pushAt ((pushOpen++(p.literal++pushClose))++(ps.flatMap PushScript.html++rest)) := by
      apply parts_plain
      intro u v hw hv
      apply pushAt_none
      rw [append_assoc]
      apply not_prefix_before hv
      intro hin
      apply p.plain
      rw [hw]
      exact hin.trans (suffix_append u v).isInfix
    have hne : pushOpen++(p.literal++pushClose)≠[] := by
      intro h
      have hlen := congrArg List.length h
      rw [length_append] at hlen
      exact absurd hlen (by simp [pushOpen,js])
    have hfound : (Fragment.found (pushOpen++(p.literal++pushClose))).found?=
        some (pushOpen++(p.literal++pushClose)) := rfl
    rw [hsplit,hbefore,parts_found hne (pushAt_script p _),filterMap_append,found_kept,
      nil_append,filterMap_cons_some hfound,map_cons,map_cons,ih,captured_script]

end CardKeepr.Adapters
