import CardKeepr.Publication.ExportComponents

namespace CardKeepr.Publication.Export

open Lib Shared List

/-- What the reader relies on in a component. -/
structure Sound (games : JsString → SupportedGame) (e : Component) : Prop where
  named : e.descriptor.name=componentName (games e.candidate_id) e.ordinal
  lower : 18 ≤ e.ref.byte_length
  upper : e.ref.byte_length ≤ maximumBytes
  safe : e.ordinal < 2^53

/-- The rows name their components, and no key is there twice. -/
structure Kept (db : Database) : Prop where
  components : ∀e∈db.components,Sound db.game_candidates e
  keys : db.components.Pairwise fun a b => ¬(a.candidate_id=b.candidate_id ∧ a.ordinal=b.ordinal)
  preparations : (db.preparations.map Preparation.candidate_id).Nodup
  games : db.composition.Pairwise fun a b => ¬(a.catalogue_revision_id=b.catalogue_revision_id ∧
    db.game_candidates a.candidate_id=db.game_candidates b.candidate_id)

theorem gzip_length (gzip : Compressor) (data : Bytes) :
    18 ≤ (gzip.deterministicGzip data).length := by
  obtain ⟨header,blocks,trailer,h,h10,h8⟩ := gzip.member data
  rw [h,length_append,length_append]
  omega

theorem verify_size {bucket : Bucket} {ref : Reference} {u : Unit} (h : verify bucket ref=.ok u) :
    ref.byte_length ≤ maximumBytes := by
  obtain ⟨_,hd,-⟩ := bind_ok h
  exact of_decide_eq_true (demand_ok hd)

theorem stage_size {w : Weather} {pending pending' : Pending} {bytes : Bytes} {ref : Reference}
    (h : stage w pending bytes=.ok (ref,pending')) :
    ref.byte_length=bytes.length ∧ bytes.length ≤ maximumBytes := by
  obtain ⟨_,hd,h⟩ := bind_ok h
  refine ⟨?_,of_decide_eq_true (demand_ok hd)⟩
  split at h
  all_goals
    obtain ⟨later,-,h⟩ := bind_ok h
    injection h with h
    injection h with h _
    rw [← h]

section
variable {nfc : Nfc} {gzip : Compressor} {db : Database} {owner : Owner} {w : Weather}
  {s s' : Progress}

theorem seal_size {source : Source} {ref : Reference} {descriptor : Descriptor} {pending : Pending}
    (h : sealComponent nfc gzip w source s=.ok (some (ref,descriptor,pending))) :
    18 ≤ ref.byte_length ∧ ref.byte_length ≤ maximumBytes := by
  rw [sealComponent] at h
  cases hr : w.rendered with
  | invalid =>
    rw [hr] at h
    cases h
  | raised =>
    rw [hr] at h
    cases h
  | record value =>
    rw [hr] at h
    obtain ⟨text,-,h⟩ := bind_ok h
    obtain ⟨_,-,h⟩ := bind_ok h
    split at h
    · cases h
    · obtain ⟨⟨r,p⟩,hs,h⟩ := bind_ok h
      injection h with h
      injection h with h
      injection h with h _
      obtain ⟨hlen,hmax⟩ := stage_size hs
      rw [← h,hlen]
      exact ⟨gzip_length gzip _,hmax⟩

theorem prepareRecord_rows (hdb : ∀e∈db.components,Sound db.game_candidates e)
    (hgame : owner.supported_game=db.game_candidates owner.candidate_id) {go : Bool}
    (h : prepareRecord nfc gzip db owner w s=.ok (go,s')) : s'.statements=s.statements ∨
    ∃e,s'.statements=s.statements++[e] ∧ Sound db.game_candidates e := by
  have hrow : ∀(source : Source) input ref (descriptor : Descriptor),18 ≤ ref.byte_length →
      ref.byte_length ≤ maximumBytes → Sound db.game_candidates
        ⟨owner.candidate_id,source.ordinal,source.kind,source.entity_id,input,ref,
          { descriptor with name := componentName owner.supported_game source.ordinal }⟩ := by
    intro source input ref descriptor hl hu
    exact ⟨by rw [hgame],hl,hu,source.safe⟩
  rw [prepareRecord] at h
  split at h
  · injection h with h
    injection h with _ h
    exact .inl (by rw [← h])
  · next source hsource =>
    obtain ⟨_,-,h⟩ := bind_ok h
    dsimp only at h
    generalize (if source.kind=js "printings".toList then source.dependencies
      else [])=dependencies at h
    obtain ⟨_,-,h⟩ := bind_ok h
    split at h
    · injection h with h
      injection h with _ h
      exact .inl (by rw [← h])
    · obtain ⟨input,-,h⟩ := bind_ok h
      split at h
      · next prior hprior =>
        obtain ⟨_,-,h⟩ := bind_ok h
        split at h
        · injection h with h
          injection h with _ h
          exact .inl (by rw [← h])
        · obtain ⟨_,hv,h⟩ := bind_ok h
          injection h with h
          injection h with _ h
          have hsound := hdb prior (List.mem_of_find?_eq_some hprior)
          refine .inr ⟨_,by rw [← h]; rfl,hrow source input prior.ref prior.descriptor hsound.lower
            (verify_size hv)⟩
      · obtain ⟨o,ho,h⟩ := bind_ok h
        cases o with
        | none =>
          injection h with h
          injection h with _ h
          exact .inl (by rw [← h])
        | some o =>
          obtain ⟨ref,descriptor,pending⟩ := o
          injection h with h
          injection h with _ h
          obtain ⟨hl,hu⟩ := seal_size ho
          exact .inr ⟨_,by rw [← h]; rfl,hrow source input ref descriptor hl hu⟩

theorem prepareUnits_rows (hdb : ∀e∈db.components,Sound db.game_candidates e)
    (hgame : owner.supported_game=db.game_candidates owner.candidate_id) {ws : List Weather}
    (h : prepareUnits nfc gzip db owner ws s=.ok s')
    (hs : ∀e∈s.statements,Sound db.game_candidates e) :
    ∀e∈s'.statements,Sound db.game_candidates e := by
  induction ws generalizing s with
  | nil =>
    injection h with h
    rwa [← h]
  | cons w ws ih =>
    obtain ⟨⟨go,mid⟩,hmid,h⟩ := bind_ok h
    have hnext : ∀e∈mid.statements,Sound db.game_candidates e := by
      obtain heq | ⟨row,heq,hrow⟩ := prepareRecord_rows hdb hgame hmid
      · rwa [heq]
      · rw [heq]
        intro e he
        obtain he | he := mem_append.mp he
        · exact hs e he
        · rw [mem_singleton.mp he]
          exact hrow
    dsimp only at h
    split at h
    · injection h with h
      rwa [← h]
    · exact ih h hnext

end

theorem insertAll_rows {rows components components' : List Component}
    (h : insertAll rows components=some components')
    (hk : components.Pairwise fun a b => ¬(a.candidate_id=b.candidate_id ∧ a.ordinal=b.ordinal)) :
    components'=components++rows ∧
      components'.Pairwise fun a b => ¬(a.candidate_id=b.candidate_id ∧ a.ordinal=b.ordinal) := by
  induction rows generalizing components with
  | nil =>
    injection h with h
    rw [← h,append_nil]
    exact ⟨rfl,hk⟩
  | cons r rows ih =>
    rw [insertAll] at h
    split at h
    · cases h
    · next hnone =>
      have hfresh : ∀a∈components,¬(a.candidate_id=r.candidate_id ∧ a.ordinal=r.ordinal) := by
        intro a ha hsame
        exact hnone (any_eq_true.mpr ⟨a,ha,decide_eq_true ⟨hsame.1,.inl hsame.2⟩⟩)
      have hmore := pairwise_append.mpr ⟨hk,pairwise_singleton _ r,fun a ha b hb => by
        rw [mem_singleton.mp hb]
        exact hfresh a ha⟩
      obtain ⟨heq,hkeys⟩ := ih h hmore
      rw [heq,append_assoc,singleton_append] at hkeys ⊢
      exact ⟨rfl,hkeys⟩

theorem setPreparation_single {p : Preparation} {ps ps' : List Preparation}
    (h : setPreparation p ps=some ps') (hn : (ps.map Preparation.candidate_id).Nodup) :
    (ps'.map Preparation.candidate_id).Nodup := by
  rw [setPreparation] at h
  split at h
  · injection h with h
    rw [← h,map_map]
    have hsame : Preparation.candidate_id ∘ (fun q : Preparation =>
        if q.publication_operation_id=p.publication_operation_id then
          { p with candidate_id := q.candidate_id } else q)=Preparation.candidate_id := by
      funext q
      simp only [Function.comp_apply]
      split <;> rfl
    rwa [hsame]
  · split at h
    · cases h
    · next hnone =>
      injection h with h
      rw [← h,map_append,map_singleton,nodup_append]
      refine ⟨hn,nodup_singleton _,?_⟩
      intro c hc d hd hcd
      obtain ⟨q,hq,rfl⟩ := mem_map.mp hc
      rw [mem_singleton.mp hd] at hcd
      exact hnone (any_eq_true.mpr ⟨q,hq,decide_eq_true hcd⟩)

theorem insertComposition_kept {rows : List CompositionGame} {db db' : Database}
    (h : insertComposition rows db=some db') (hk : Kept db) : Kept db' := by
  induction rows generalizing db with
  | nil =>
    injection h with h
    rwa [← h]
  | cons r rows ih =>
    rw [insertComposition] at h
    split at h
    · cases h
    · next hnone =>
      refine ih h ⟨hk.components,hk.keys,hk.preparations,?_⟩
      refine pairwise_append.mpr ⟨hk.games,pairwise_singleton _ r,?_⟩
      intro a ha b hb hsame
      rw [mem_singleton.mp hb] at hsame
      exact hnone (any_eq_true.mpr ⟨a,ha,decide_eq_true hsame⟩)

section
variable {nfc : Nfc} {gzip : Compressor} {db db' : Database}

theorem retainUnit_kept {rows : List Component} {after : Preparation}
    (h : retainUnit rows after db=some db') (hrows : ∀e∈rows,Sound db.game_candidates e)
    (hk : Kept db) : Kept db' := by
  obtain ⟨components,hc,h⟩ := Option.bind_eq_some_iff.mp h
  obtain ⟨preparations,hp,h⟩ := Option.bind_eq_some_iff.mp h
  injection h with h
  obtain ⟨heq,hkeys⟩ := insertAll_rows hc hk.keys
  rw [← h]
  refine ⟨?_,hkeys,setPreparation_single hp hk.preparations,hk.games⟩
  intro e he
  rw [heq] at he
  obtain he | he := mem_append.mp he
  · exact hk.components e he
  · exact hrows e he

theorem advanceUnit_kept {owner : Owner} {ws : List Weather} {sealing : Sealing} {last : Weather}
    {current : Preparation} (hgame : owner.supported_game=db.game_candidates owner.candidate_id)
    (h : advanceUnit nfc gzip db owner ws sealing last current=some db') (hk : Kept db) :
    Kept db' := by
  have hnone : ∀e∈([] : List Component),Sound db.game_candidates e := fun e he => by cases he
  rw [advanceUnit.eq_def] at h
  split at h
  · exact retainUnit_kept h hnone hk
  · exact retainUnit_kept h hnone hk
  · exact retainUnit_kept h hnone hk
  · split at h
    · cases h
    · exact retainUnit_kept h hnone hk
    · next s hs =>
      obtain ⟨s1,hs1,hs⟩ := bind_ok hs
      obtain ⟨_,-,hs⟩ := bind_ok hs
      injection hs with hs
      subst hs
      exact retainUnit_kept h (prepareUnits_rows hk.components hgame hs1 hnone) hk

theorem advance_kept {id : JsString} {ws : List Weather} {sealing : Sealing} {last : Weather}
    (h : advancePublicationExports nfc gzip id ws sealing last db=some db') (hk : Kept db) :
    Kept db' := by
  rw [advancePublicationExports] at h
  split at h
  · injection h with h
    rwa [← h]
  · exact advanceUnit_kept rfl h hk

theorem step_kept (h : Step nfc gzip db db') (hk : Kept db) : Kept db' := by
  cases h with
  | advance id ws sealing last h => exact advance_kept h hk
  | compose rows h => exact insertComposition_kept h hk
  | project entities => exact ⟨hk.components,hk.keys,hk.preparations,hk.games⟩

theorem Written.kept (h : Written nfc gzip db) : Kept db := by
  obtain ⟨games,operations,h⟩ := h
  induction h with
  | refl => exact ⟨fun e he => (not_mem_nil he).elim,List.Pairwise.nil,nodup_nil,
    List.Pairwise.nil⟩
  | tail _ hstep ih => exact step_kept hstep ih

end

end CardKeepr.Publication.Export
