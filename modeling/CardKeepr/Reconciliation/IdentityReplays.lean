import CardKeepr.Reconciliation.IdentityTables

namespace CardKeepr.Reconciliation.Identity

open Lib Shared List Durable

/-- The two tables as an index over the retained rows reads them: under the digest of every key
the target that the decisions set last. -/
def Tables (nfc : Nfc) (rows : List CorrectionRow) (xs : Indexes) (s : ResolverStore) : Prop :=
  ∀name,(alone (plain ReducerStore.refer)
      (get correctionMerges (xs correctionMerges) name) s.reducer).result=
        .ok (((associationsOf nfc rows).merges.find? fun e =>
          decide (sha256Text e.1=sha256Text name)).map fun e => .str e.2) ∧
    (alone (plain ReducerStore.refer)
      (get correctionAssignments (xs correctionAssignments) name) s.reducer).result=
        .ok (((associationsOf nfc rows).assignments.find? fun e =>
          decide (sha256Text e.1=sha256Text name)).map fun e => .str e.2)

section
variable {nfc : Nfc}
variable {space : JsString} {rows : List CorrectionRow}

theorem associationsOf_append (rows : List CorrectionRow) (m : Associations) :
    rows.foldl (fun m r => m.read nfc r.request) m=
      ⟨(rows.flatMap fun r => mergeAssociations r.request).reverse++m.merges,
        (rows.flatMap fun r => printingAssociations nfc r.request).reverse++m.assignments⟩ := by
  induction rows generalizing m with
  | nil => rfl
  | cons r rows ih =>
    rw [foldl_cons,ih,Associations.read]
    simp only [flatMap_cons,reverse_append,append_assoc]

theorem effects_entries (size i : Nat) (entries : List ReducerEntry) (us : List AssociationStep) :
    effects i (entries.map (.sets size)++us)=entries.map (fun e => (i,e))++effects i us := by
  induction entries with
  | nil => rfl
  | cons e entries ih => rw [map_cons,cons_append,effects,ih,map_cons,cons_append]

theorem effects_row (r : CorrectionRow) (i : Nat) (us : List AssociationStep) : effects i
    (r.steps nfc++us)= (r.associations nfc).map (fun e => (i+1,e))++effects (i+1) us := by
  rw [CorrectionRow.steps,cons_append,effects,CorrectionRow.inner,drop_zero,
    append_assoc,effects_entries]
  rfl

theorem effects_rows (rows : List CorrectionRow) (i : Nat) :
    (effects i (stepsOf nfc rows)).map Prod.snd=rows.flatMap (·.associations nfc) := by
  induction rows generalizing i with
  | nil => rfl
  | cons r rows ih =>
    have hs : stepsOf nfc (r::rows)=r.steps nfc++stepsOf nfc rows := rfl
    rw [hs,effects_row,map_append,map_map,ih,flatMap_cons]
    congr 1
    exact map_id _

theorem mem_effects_rows {i j : Nat} {e : ReducerEntry}
    (h : (j,e)∈effects i (stepsOf nfc rows)) : i < j ∧ ∃r∈rows,e∈r.associations nfc := by
  induction rows generalizing i with
  | nil => cases h
  | cons r rows ih =>
    have hs : stepsOf nfc (r::rows)=r.steps nfc++stepsOf nfc rows := rfl
    rw [hs,effects_row,mem_append] at h
    rcases h with h | h
    · obtain ⟨e',he,heq⟩ := mem_map.mp h
      cases heq
      exact ⟨Nat.lt_succ_self i,r,mem_cons_self,he⟩
    · obtain ⟨hlt,q,hq,he⟩ := ih h
      exact ⟨by omega,q,mem_cons_of_mem _ hq,he⟩

theorem steady_rows
    (h : ∀r∈rows,∀e∈r.associations nfc,∀e'∈r.associations nfc,SamePlace e e' → e.value=e'.value)
    (i : Nat) : Steady (effects i (stepsOf nfc rows)) := by
  induction rows generalizing i with
  | nil => exact fun _ _ _ he => (not_mem_nil he).elim
  | cons r rows ih =>
    intro j e e' he he' hp
    have hs : stepsOf nfc (r::rows)=r.steps nfc++stepsOf nfc rows := rfl
    rw [hs,effects_row,mem_append] at he he'
    rcases he with he | he
    · obtain ⟨e1,h1,heq⟩ := mem_map.mp he
      cases heq
      rcases he' with he' | he'
      · obtain ⟨e2,h2,heq⟩ := mem_map.mp he'
        cases heq
        exact h r mem_cons_self e h1 e' h2 hp
      · have := (mem_effects_rows he').1
        omega
    · rcases he' with he' | he'
      · obtain ⟨e2,h2,heq⟩ := mem_map.mp he'
        cases heq
        have := (mem_effects_rows he).1
        omega
      · exact ih (fun r hr => h r (mem_cons_of_mem _ hr)) (i+1) j e e' he he' hp

theorem find_reverse_map {α : Type} (l : List α) (f : α → ReducerEntry) (space digest : JsString) :
    ((l.map f).reverse.find? fun e => decide (At e space digest))=
      (l.reverse.find? fun a => decide (At (f a) space digest)).map f := by
  rw [←map_reverse,List.find?_map]
  rfl

theorem lastSet_all (rows : List CorrectionRow) (space digest : JsString) :
    lastSet (effects 0 (stepsOf nfc rows)) space digest=
      (rows.flatMap (·.associations nfc)).reverse.find? fun e => decide (At e space digest) := by
  rw [←effects_rows rows 0,←map_reverse,List.find?_map]
  rfl

theorem merges_ne : correctionMerges≠correctionAssignments := by decide

theorem lastSet_table (rows : List CorrectionRow) (digest : JsString) :
    ((rows.flatMap (·.associations nfc)).reverse.find? fun e =>
        decide (At e correctionMerges digest))=
      ((rows.flatMap fun r => mergeAssociations r.request).reverse.find? fun e =>
        decide (sha256Text e.1=digest)).map (fun e => ⟨correctionMerges,e.1,.str e.2⟩) ∧
    ((rows.flatMap (·.associations nfc)).reverse.find? fun e =>
        decide (At e correctionAssignments digest))=
      ((rows.flatMap fun r => printingAssociations nfc r.request).reverse.find? fun e =>
        decide (sha256Text e.1=digest)).map (fun e => ⟨correctionAssignments,e.1,.str e.2⟩) := by
  induction rows with
  | nil => exact ⟨rfl,rfl⟩
  | cons r rows ih =>
    have hr : r.associations nfc=
        (mergeAssociations r.request).map (fun e => ⟨correctionMerges,e.1,.str e.2⟩)++
          (printingAssociations nfc r.request).map fun e =>
            ⟨correctionAssignments,e.1,.str e.2⟩ := rfl
    simp only [flatMap_cons,reverse_append,List.find?_append]
    constructor
    · rw [ih.1,hr,reverse_append,List.find?_append,find_reverse_map,find_reverse_map]
      have hno : (printingAssociations nfc r.request).reverse.find? (fun e =>
          decide (At ⟨correctionAssignments,e.1,.str e.2⟩ correctionMerges digest))=none :=
        List.find?_eq_none.mpr fun e _ hc => merges_ne (of_decide_eq_true hc).1.symm
      have hyes : (fun e : JsString × JsString =>
          decide (At ⟨correctionMerges,e.1,.str e.2⟩ correctionMerges digest))=
          fun e => decide (sha256Text e.1=digest) := by
        funext e
        simp [At]
      rw [hno,hyes,Option.map_none,Option.none_or,Option.map_or]
    · rw [ih.2,hr,reverse_append,List.find?_append,find_reverse_map,find_reverse_map]
      have hno : (mergeAssociations r.request).reverse.find? (fun e =>
          decide (At ⟨correctionMerges,e.1,.str e.2⟩ correctionAssignments digest))=none :=
        List.find?_eq_none.mpr fun e _ hc => merges_ne (of_decide_eq_true hc).1
      have hyes : (fun e : JsString × JsString =>
          decide (At ⟨correctionAssignments,e.1,.str e.2⟩ correctionAssignments digest))=
          fun e => decide (sha256Text e.1=digest) := by
        funext e
        simp [At]
      rw [hno,hyes,Option.map_none,Option.or_none,Option.map_or]

/-- What an index knows of the rows at its own ordinal: it has written them, or they are those of
entries that are yet to be set. -/
structure View (T : StateTable) (space : JsString) (x : IndexState) (o : Nat)
    (pending : List (Nat × ReducerEntry)) : Prop where
  ordinal : x.ordinal=o
  seen : x.completedPrefix=true ∨ ∀d r,T space d o=some r →
    d∈x.written ∨ ∃p∈pending,At p.2 space d
  last : ∀l,x.lastWrite=some l → T space l.digest o=some ⟨l.content,sha256Text l.content⟩

theorem view_reopened (T : StateTable) (space : JsString) (o : Nat)
    (pending : List (Nat × ReducerEntry)) : View T space (.resumeAt o) o pending :=
  ⟨rfl,.inl rfl,fun l hl => by cases hl⟩

theorem view_begun {T : StateTable} {x : IndexState} {o : Nat} {pending : List (Nat × ReducerEntry)}
    (ho : x.ordinal+1=o) (h : ∀d r,T space d o=some r → ∃p∈pending,At p.2 space d) : View T space
    x.beginObservation o pending :=
  ⟨ho,.inr fun d r hr => .inr (h d r hr),fun l hl => by cases hl⟩

theorem View.sets {T : StateTable} {xs : Indexes} {o i : Nat} {e : ReducerEntry} {target : JsString}
    {pending : List (Nat × ReducerEntry)} (h : View T space (xs space) o ((i,e)::pending))
    (he : e.value=.str target) (hm : ∀r,T e.space (sha256Text e.key) o=some r → r=entryRow e) : View
    (setRow T e o) space (xs.accept (identityWrite (xs e.space) e target) space) o pending := by
  have hrow : entryRow e=identityRow target := by rw [entryRow,he]
  have hacc := accept_accepted xs (w := identityWrite (xs e.space) e target) rfl space
  have hold : ∀d,(d∈(xs space).written ∨ ∃p∈(i,e)::pending,At p.2 space d) →
      d∈(xs.accept (identityWrite (xs e.space) e target) space).written ∨
        ∃p∈pending,At p.2 space d := by
    rintro d (hd | ⟨p,hp,hat⟩)
    · exact .inl ((hacc.written d).mpr (.inl hd))
    · rcases mem_cons.mp hp with rfl | hp
      · exact .inl ((hacc.written d).mpr (.inr ⟨_,mem_singleton.mpr rfl,hat.1,hat.2⟩))
      · exact .inr ⟨p,hp,hat⟩
  refine ⟨hacc.ordinal.trans h.ordinal,?_,fun l hl => ?_⟩
  · rcases h.seen with hp | hseen
    · exact .inl (hacc.running.trans hp)
    · refine .inr fun d r hr => ?_
      rcases setRow_cases hm hr with hr | ⟨hat,-,-⟩
      · exact hold d (hseen d r hr)
      · exact hold d (.inr ⟨(i,e),mem_cons_self,hat⟩)
  · rcases hacc.last l hl with hl | ⟨w,hw,hs,-,rfl⟩
    · exact setRow_keeps (h.last l hl)
    · obtain rfl := mem_singleton.mp hw
      have hr := setRow_at ⟨hs,rfl⟩ fun r hr => hm r (by rw [show e.space=space from hs]; exact hr)
      rw [hrow] at hr
      exact hr

/-- Reading a table at its last ordinal, where every row is one of an identity. -/
theorem get_view {s : ReducerStore} {x : IndexState} {o : Nat}
    {last : Option ReducerEntry} (name : JsString) (hv : View s.state space x o [])
    (hl : latestBelow (s.state space (sha256Text name)) (o+1)=last.map entryRow)
    (h0 : o=0 → latestBelow (s.state space (sha256Text name)) (o+1)=none)
    (hid : ∀e,last=some e → ∃target,e.value=.str target ∧ IsIdentity nfc target) :
    (alone (plain ReducerStore.refer) (get space x name) s).result=
      .ok (last.map ReducerEntry.value) := by
  have hrestore : restoreRow (last.map entryRow)=pure (last.map ReducerEntry.value) := by
    cases last with
    | none => rfl
    | some e =>
      obtain ⟨target,he,hi⟩ := hid e rfl
      have hrow : entryRow e=identityRow target := by rw [entryRow,he]
      rw [Option.map_some,Option.map_some,hrow,restoreRow_identity hi,he]
  rw [get,readRequest]
  by_cases hx : x.ordinal=0
  · rw [if_pos hx]
    have hnone := h0 (hv.ordinal.symm.trans hx)
    rw [hl] at hnone
    have hlast : last=none := Option.map_eq_none_iff.mp hnone
    rw [hlast]
    rfl
  · rw [if_neg hx]
    dsimp only
    split
    · rename_i value hval
      split at hval
      · rename_i w hw
        cases hval
        obtain ⟨hlw,hd⟩ := Option.filter_eq_some_iff.mp hw
        have hd : w.digest=sha256Text name := of_decide_eq_true hd
        have hrow := hv.last w hlw
        rw [hd] at hrow
        rw [latestBelow,hrow] at hl
        cases hlast : last with
        | none =>
          rw [hlast] at hl
          cases hl
        | some e =>
          rw [hlast] at hl
          obtain ⟨target,he,hi⟩ := hid e hlast
          have hcontent : w.content=identityContent target := by
            have hc := congrArg StateRow.content (Option.some.inj hl)
            rw [entryRow,he] at hc
            exact hc
          obtain ⟨j,hj,hm,-⟩ := identityContent_parse hi
          rw [hcontent,hj,Option.bind_some,hm,Option.map_some,he]
          rfl
      · cases hval
    · rename_i digest before hval
      split at hval
      · cases hval
      · cases hval
        have hbefore : latestBelow (s.state space (sha256Text name)) (x.before (sha256Text name))=
            last.map entryRow := by
          rw [IndexState.before,hv.ordinal]
          by_cases hin : x.completedPrefix=true ∨ sha256Text name∈x.written
          · rw [if_pos hin,hl]
          · rw [if_neg hin,Nat.add_zero,←hl,latestBelow]
            cases hr : s.state space (sha256Text name) o with
            | none => rfl
            | some r =>
              rcases hv.seen with hp | hs
              · exact (hin (.inl hp)).elim
              · rcases hs _ r hr with hw | ⟨p,hp,-⟩
                · exact (hin (.inr hw)).elim
                · exact (not_mem_nil hp).elim
        show (alone (plain ReducerStore.refer) (restoreRow (latestBelow
          (s.state space (sha256Text name)) (x.before (sha256Text name)))) s).result=_
        rw [hbefore,hrestore]
        rfl

end

end CardKeepr.Reconciliation.Identity
