import CardKeepr.Reconciliation.IdentityPins
import CardKeepr.Reconciliation.ReducerSteps
import CardKeepr.Reconciliation.TextSlices

namespace CardKeepr.Reconciliation.Identity

open Lib Shared Durable

def envelopeHead : JsString :=
  key "\x7b\"contract\":\"card-keepr-partitioned-record@1\",\"text_parts\":[],\"value\":"

def identityContent (target : JsString) : JsString := envelopeHead++quote target++[125]

def identityRow (target : JsString) : StateRow :=
  ⟨identityContent target,sha256Text (identityContent target)⟩

def At (e : ReducerEntry) (space digest : JsString) : Prop :=
  e.space=space ∧ sha256Text e.key=digest

instance (e : ReducerEntry) (space digest : JsString) : Decidable (At e space digest) :=
  inferInstanceAs (Decidable (_ ∧ _))

/-- An identity in normal form that is kept in its row whole. -/
structure IsIdentity (nfc : Nfc) (target : JsString) : Prop where
  normal : nfc.normalize target=target
  short : target.length ≤ 32768

variable {nfc : Nfc} {target : JsString}

theorem envelope_identity (h : IsIdentity nfc target) :
    envelope nfc (.str target)=⟨.str target,[]⟩ := by
  have hs : ¬target.length > 32768 := Nat.not_lt.mpr h.short
  simp [envelope,visit,hs]

theorem integral_identity (target : JsString) : (Json.str target).Integral := trivial

theorem canonicalJson_identity (h : IsIdentity nfc target) :
    canonicalJson nfc (RecordEnvelope.json ⟨.str target,[]⟩)=.ok (identityContent target) := by
  have hv : (Json.str target).canonical nfc=.str target := by
    simp [Json.canonical,Json.normalized,Json.sortKeys,h.normal]
  rw [canonicalJson_envelope nfc (integral_identity target),hv]
  congr 1

theorem identityContent_wellFormed (h : IsIdentity nfc target) :
    wellFormed (identityContent target)=true := by
  have he := canonicalJson_identity h
  rw [canonicalJson_envelope nfc (integral_identity target)] at he
  rw [←Except.ok.inj he]
  exact print_wellFormed _

theorem identityContent_bytes (h : IsIdentity nfc target) :
    byteLength (identityContent target) ≤ 524288 := by
  have hq := quote_bytes target
  have hs := h.short
  have hhead : wellFormed envelopeHead=true := by decide
  have hlen : (utf8 envelopeHead).length ≤ 100 := by decide
  have htail : (utf8 [125]).length=1 := by decide
  rw [byteLength,identityContent,List.append_assoc,utf8_append hhead,
    utf8_append (quote_wellFormed target),List.length_append,List.length_append,htail]
  omega

/-- What `set` binds for an identity. -/
def identityWrite (x : IndexState) (e : ReducerEntry) (target : JsString) : PreparedWrite :=
  ⟨e.space,sha256Text e.key,x.ordinal,identityContent target,sha256Text (identityContent target),
    true⟩

theorem prepareWrite_identity (h : IsIdentity nfc target) (x : IndexState) {e : ReducerEntry}
    (he : e.value=.str target) : prepareWrite nfc x e=.ret (identityWrite x e target) := by
  have hown : e.value.own=.str target := by rw [he]; rfl
  have hchunks : recordChunks nfc (.str target)=[] := by
    have hs : ¬target.length > 32768 := Nat.not_lt.mpr h.short
    simp [recordChunks,visit,hs]
  have hb : ¬byteLength (identityContent target) > 524288 :=
    Nat.not_lt.mpr (identityContent_bytes h)
  rw [prepareWrite,hown,retainPartitionedRecord,hchunks]
  show boundWrite nfc x e (envelope nfc (.str target))=_
  rw [boundWrite,envelope_identity h,canonicalJson_identity h]
  simp only [if_neg hb]
  rfl

theorem identityWrite_stored (h : IsIdentity nfc target) (x : IndexState) (e : ReducerEntry) :
    (identityWrite x e target).stored=identityRow target := by
  rw [PreparedWrite.stored,identityWrite,storedText_wellFormed (identityContent_wellFormed h)]
  rfl

theorem commitWrite_alone_eq {w : PreparedWrite} (h0 : w.ordinal≠0) (u : ReducerStore) : alone
    (plain ReducerStore.refer) (commitWrite w) u= alone (plain ReducerStore.refer)
    (verdict (retainReducerState u w).2 [w]) (retainReducerState u w).2 := by
  have he : alone (plain ReducerStore.refer) (commitWrite w) u=
      alone (plain ReducerStore.refer)
        (finishWrite w (ReducerStore.refer (.retainStates [w]) u).1)
        (ReducerStore.refer (.retainStates [w]) u).2 := rfl
  rw [he,retainStates_refer,if_neg (by simpa using h0)]
  exact finishWrite_alone (retainReducerStates_answered [w] u)

theorem set_identity (h : IsIdentity nfc target) {xs : Indexes} {e : ReducerEntry}
    (he : e.value=.str target) (h0 : (xs e.space).ordinal≠0) (u : ReducerStore) :
    let w := identityWrite (xs e.space) e target
    let r := alone (plain ReducerStore.refer) (set nfc xs e) u
    r.store=(retainReducerState u w).2 ∧
      ((u.at w=none ∨ u.at w=some (identityRow target)) → r.result=.ok (xs.accept w)) ∧
      ∀row,u.at w=some row → row≠identityRow target → r.result=.error reducerReplayChanged := by
  intro w r
  have hr : r=if (retainReducerState u w).2.at w=some w.row then
      ⟨[],.ok (xs.accept w),(retainReducerState u w).2⟩
      else ⟨[],.error reducerReplayChanged,(retainReducerState u w).2⟩ := by
    show alone _ (set nfc xs e) u=_
    rw [set,prepareWrite_identity h _ he,Prog.ret_bind,alone_bind,commitWrite_alone_eq h0,verdict]
    simp only [List.mem_singleton,forall_eq]
    by_cases hw : (retainReducerState u w).2.at w=some w.row
    · rw [if_pos hw,if_pos hw]
      rfl
    · rw [if_neg hw,if_neg hw]
      rfl
  have hat := retainReducerState_at u w
  have hst : w.stored=identityRow target := identityWrite_stored h _ _
  have hrow : w.row=identityRow target := rfl
  rw [hr]
  refine ⟨?_,fun hu => ?_,fun row hu hne => ?_⟩
  · split
    · rfl
    · rfl
  · have hin : (retainReducerState u w).2.at w=some w.row := by
      rw [hat,hrow]
      rcases hu with hu | hu
      · rw [hu,Option.getD_none,hst]
      · rw [hu,Option.getD_some]
    rw [if_pos hin]
  · have hin : (retainReducerState u w).2.at w≠some w.row := by
      rw [hat,hu,Option.getD_some,hrow]
      exact fun hc => hne (Option.some.inj hc)
    rw [if_neg hin]

theorem retainReducerState_state (h : IsIdentity nfc target) (u : ReducerStore) (x : IndexState)
    (e : ReducerEntry) (n d : JsString) (o : Nat) :
    (retainReducerState u (identityWrite x e target)).2.state n d o=
      if At e n d ∧ o=x.ordinal then some ((u.state n d o).getD (identityRow target))
      else u.state n d o := by
  obtain ⟨-,-,hother⟩ := retainReducerState_spec u (identityWrite x e target)
  have hat := retainReducerState_at u (identityWrite x e target)
  rw [identityWrite_stored h] at hat
  split
  · rename_i hk
    obtain ⟨⟨rfl,rfl⟩,rfl⟩ := hk
    exact hat
  · rename_i hk
    refine hother n d o fun ⟨h1,h2,h3⟩ => hk ⟨⟨h1.symm,h2.symm⟩,h3⟩

theorem identityContent_parse (h : IsIdentity nfc target) :
    ∃j,jsonParse (identityContent target)=some j ∧
      Json.member (js "value".toList) j=some (.str target) ∧
      RecordEnvelope.of j=some ⟨.str target,[]⟩ := by
  have hstr : ((Json.str target).canonical nfc).own=.str target := by
    rw [Json.canonical,Json.normalized,Json.sortKeys,h.normal]
    rfl
  have hr := envelope_reads nfc (canonicalJson_identity h) rfl
  rw [hstr] at hr
  exact hr

theorem restoreRow_identity (h : IsIdentity nfc target) :
    restoreRow (some (identityRow target))=pure (some (.str target)) := by
  obtain ⟨j,hj,hm,he⟩ := identityContent_parse h
  have hp : jsonParse (identityRow target).content=some j := hj
  rw [restoreRow,if_neg (by simp [identityRow]),hp]
  simp only [Option.bind_some,he]
  rw [restore_whole]
  rfl

theorem identityRow_inj {a b : JsString} (ha : IsIdentity nfc a) (hb : IsIdentity nfc b)
    (h : identityRow a=identityRow b) : a=b := by
  obtain ⟨j,hj,hm,-⟩ := identityContent_parse ha
  obtain ⟨k,hk,hn,-⟩ := identityContent_parse hb
  have hc : identityContent a=identityContent b := congrArg StateRow.content h
  rw [hc,hk] at hj
  obtain rfl := Option.some.inj hj
  rw [hm] at hn
  exact Json.str.inj (Option.some.inj hn)

end CardKeepr.Reconciliation.Identity
