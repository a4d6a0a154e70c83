import CardKeepr.Shared.JsonlDecomposition

namespace CardKeepr.Shared

open Lib OpenBlock List

variable {limits : SourceArchiveLimits} {blockBytes blockRecords : Nat}

namespace JsonlBlockAssembler

variable {o : OpenBlock} {s : JsonlBlockAssembler}

/-- The assembler's buffer holds the open block, then its partial record, at its front. -/
structure Rep (limits : SourceArchiveLimits) (blockBytes : Nat) (s : JsonlBlockAssembler)
    (o : OpenBlock) : Prop where
  ordinal : s.ordinal=o.ordinal
  offset : s.offset=o.offset
  firstRecord : s.firstRecord=o.firstRecord
  records : s.records=o.firstRecord+o.count
  count : s.blockRecordCount=o.count
  blockLength : s.blockLength=o.bytes.length
  partialLength : s.partialLength=o.tail.length
  pending : s.pending.take (o.bytes.length+o.tail.length)=o.bytes++o.tail
  capacity : s.pending.length=blockBytes+limits.recordBytes

theorem Rep.block (r : Rep limits blockBytes s o) : s.pending.take o.bytes.length=o.bytes := by
  have h := congrArg (List.take o.bytes.length) r.pending
  rwa [take_take,Nat.min_eq_left (by omega),take_left] at h

theorem Rep.close {s : JsonlBlockAssembler} {o : OpenBlock} (r : Rep limits blockBytes s o) :
    s.close.1=o.block := by
  simp [JsonlBlockAssembler.close,OpenBlock.block,r.ordinal,r.offset,r.firstRecord,r.count,
    r.blockLength,r.block]

/-- Two outcomes that agree up to the representation of their states. -/
def Agree {β σ τ : Type} (R : σ → τ → Prop) :
    Except ArchiveFailure (β × σ) → Except ArchiveFailure (β × τ) → Prop
  | .error f,.error g => f=g
  | .ok (b,s),.ok (c,o) => b=c ∧ R s o
  | _,_ => False

theorem completeRecord_rep
    (r : Rep limits blockBytes s o) (ho : Fits limits blockBytes blockRecords o) :
    Agree (Rep limits blockBytes) (completeRecord limits blockBytes blockRecords s)
      (complete limits blockBytes blockRecords o) := by
  have hcap : o.bytes.length+o.tail.length ≤ s.pending.length := by
    have := ho.bytes
    have := ho.tail
    rw [r.capacity]
    omega
  unfold completeRecord complete
  simp only [r.records,r.count,r.blockLength,r.partialLength]
  by_cases hr : limits.records ≤ o.firstRecord+o.count
  · simp [hr,Agree]
  · rw [if_neg hr,if_neg hr]
    by_cases hc : o.closes blockBytes blockRecords
    · rw [if_pos hc,if_pos (show o.count≠0 ∧ _ from hc)]
      have hb : (s.pending.take o.bytes.length).length=o.bytes.length := by rw [r.block]
      refine ⟨congrArg some r.close,?_⟩
      simp only [JsonlBlockAssembler.close,r.blockLength,hb]
      refine ⟨by simp [afterClose,r.ordinal],by simp [afterClose,r.offset],
        by simp [afterClose,r.firstRecord,r.count],by simp [afterClose,r.records],rfl,
        by simp [afterClose],rfl,?_,?_⟩
      · -- the partial record moves to the front; the copied range is exactly the tail
        have h := copyToFront_take s.pending o.bytes.length _ hcap
        rw [Nat.add_sub_cancel_left,r.pending,drop_left] at h
        simpa [afterClose] using h
      · rw [copyToFront_length _ _ _ hcap,r.capacity]
    · rw [if_neg hc,if_neg (show ¬(o.count≠0 ∧ _) from hc)]
      refine ⟨rfl,?_⟩
      exact ⟨r.ordinal,r.offset,r.firstRecord,by simp [extend,Nat.add_assoc],
        by simp [extend],by simp [extend],by simp [extend],
        by simpa [extend] using r.pending,r.capacity⟩

theorem Rep.part {p : List UInt8}
    (r : Rep limits blockBytes s o) (ho : Fits limits blockBytes blockRecords o)
    (hp : o.tail.length+p.length ≤ limits.recordBytes) :
    Rep limits blockBytes
      {s with pending := setAt s.pending p (s.blockLength+s.partialLength),
              partialLength := s.partialLength+p.length}
      {o with tail := o.tail++p} := by
  have hb := ho.bytes
  have hcap : o.bytes.length+o.tail.length+p.length ≤ s.pending.length := by
    rw [r.capacity]
    omega
  refine ⟨r.ordinal,r.offset,r.firstRecord,r.records,r.count,r.blockLength,
    by simp [r.partialLength],?_,?_⟩
  · have h := setAt_take s.pending p (o.bytes.length+o.tail.length) (by omega)
    rw [r.pending] at h
    simpa [r.blockLength,r.partialLength,Nat.add_assoc] using h
  · simp only [r.blockLength,r.partialLength]
    rw [setAt_length _ _ _ hcap,r.capacity]

theorem pushPart_rep (p : List UInt8)
    (r : Rep limits blockBytes s o) (ho : Fits limits blockBytes blockRecords o) :
    Agree (Rep limits blockBytes) (pushPart limits blockBytes blockRecords p s)
      (OpenBlock.part limits blockBytes blockRecords p o) := by
  unfold pushPart OpenBlock.part
  by_cases hp : limits.recordBytes < o.tail.length+p.length
  · rw [if_pos (by rw [r.partialLength]; exact hp),if_pos hp]
    rfl
  · rw [if_neg (by rw [r.partialLength]; exact hp),if_neg hp]
    have hp' : o.tail.length+p.length ≤ limits.recordBytes := by omega
    cases hc : closed newline p
    · exact ⟨rfl,r.part ho hp'⟩
    · exact completeRecord_rep (r.part ho hp') (fits_tail ho hp')

theorem pushParts_rep (hrb : limits.recordBytes ≤ blockBytes) (hbr : 1 ≤ blockRecords) (m : Nat)
    (ps : List (List UInt8)) (s : JsonlBlockAssembler) (o : OpenBlock)
    (r : Rep limits blockBytes s o) (ho : Fits limits blockBytes blockRecords o) :
    match pushParts limits blockBytes blockRecords m ps s with
    | .error f => run limits blockBytes blockRecords ps o=.error f
    | .ok (bs,consumed,s') => ∃qs rest o',ps=qs++rest ∧ consumed=qs.flatten.length ∧
        run limits blockBytes blockRecords qs o=.ok (bs,o') ∧ Rep limits blockBytes s' o' ∧
        Fits limits blockBytes blockRecords o' ∧ bs.length ≤ m ∧ (bs.length < m → rest=[]) ∧
        (0 < m → ps≠[] → qs≠[]) := by
  induction ps generalizing m s o with
  | nil => cases m <;> exact ⟨[],[],o,rfl,rfl,rfl,r,ho,by simp,by simp,by simp⟩
  | cons p ps ih =>
    cases m with
    | zero => exact ⟨[],p::ps,o,rfl,rfl,rfl,r,ho,by simp,by simp,by simp⟩
    | succ m =>
      rw [pushParts]
      have hpart := pushPart_rep p r ho
      cases hq : OpenBlock.part limits blockBytes blockRecords p o with
      | error g =>
        rw [hq] at hpart
        cases hc : pushPart limits blockBytes blockRecords p s with
        | error f => rw [hc] at hpart; cases hpart; simp [run,hq]
        | ok x => rw [hc] at hpart; exact hpart.elim
      | ok x =>
        obtain ⟨b,o1⟩ := x
        rw [hq] at hpart
        cases hc : pushPart limits blockBytes blockRecords p s with
        | error f => rw [hc] at hpart; exact hpart.elim
        | ok y =>
          obtain ⟨b',s1⟩ := y
          rw [hc] at hpart
          obtain ⟨rfl,r1⟩ := hpart
          have hb : b'.toList.length ≤ 1 := by cases b' <;> simp
          have h := ih (m+1-b'.toList.length) s1 o1 r1 (part_spec hrb hbr ho hq).1
          dsimp only
          cases hn : pushParts limits blockBytes blockRecords (m+1-b'.toList.length) ps s1 with
          | error f =>
            rw [hn] at h
            simp only [run,hq,h]
          | ok z =>
            obtain ⟨bs,k,s2⟩ := z
            rw [hn] at h
            obtain ⟨qs,rest,o2,hps,hk,hrun,r2,f2,hm,hlt,-⟩ := h
            refine ⟨p::qs,rest,o2,by simp [hps],by simp [hk],by simp [run,hq,hrun],r2,f2,?_,?_,
              by simp⟩
            · rw [length_append]
              omega
            · rw [length_append]
              exact fun h => hlt (by omega)

theorem push_rep (hrb : limits.recordBytes ≤ blockBytes) (hbr : 1 ≤ blockRecords) (m : Nat)
    (bytes : List UInt8) (s : JsonlBlockAssembler) (o : OpenBlock)
    (r : Rep limits blockBytes s o) (ho : Fits limits blockBytes blockRecords o) :
    match push limits blockBytes blockRecords s bytes m with
    | .error f => feed limits blockBytes blockRecords bytes o=.error f
    | .ok (bs,consumed,s') => consumed ≤ bytes.length ∧
        ∃o',feed limits blockBytes blockRecords (bytes.take consumed) o=.ok (bs,o') ∧
        Rep limits blockBytes s' o' ∧ Fits limits blockBytes blockRecords o' ∧ bs.length ≤ m ∧
        (bs.length < m → consumed=bytes.length) ∧ (0 < m → bytes≠[] → 0 < consumed) := by
  have h := pushParts_rep hrb hbr m (parts bytes) s o r ho
  unfold push
  cases hn : pushParts limits blockBytes blockRecords m (parts bytes) s with
  | error f =>
    rw [hn] at h
    rw [←run_parts]
    exact h
  | ok z =>
    obtain ⟨bs,k,s2⟩ := z
    rw [hn] at h
    obtain ⟨qs,rest,o2,hps,hk,hrun,r2,f2,hm,hlt,hpos⟩ := h
    have hbytes : bytes=qs.flatten++rest.flatten := by
      rw [←flatten_append,←hps]
      simp [parts]
    have hpiece : ∀q∈qs,Piece newline q := fun q hq =>
      parts_piece bytes q (by simp [hps,hq])
    have hne : bytes≠[] → parts bytes≠[] := by
      intro hb h0
      apply hb
      have := splitAfter_flatten newline bytes
      rw [show splitAfter newline bytes=[] from h0] at this
      simpa using this.symm
    refine ⟨by simp [hbytes,hk],o2,?_,r2,f2,hm,?_,?_⟩
    · rw [hbytes,hk,take_left,←run_pieces _ _ _ qs hpiece]
      exact hrun
    · intro hl
      simp [hbytes,hlt hl,hk]
    · intro h0 hb
      have := hpos h0 (hne hb)
      rw [hk]
      cases qs with
      | nil => exact absurd rfl this
      | cons q qs =>
        have := (hpiece q (by simp)).1
        have := length_pos_iff.mpr this
        simp only [flatten_cons,length_append]
        omega

theorem finish_rep (r : Rep limits blockBytes s o) (ho : Fits limits blockBytes blockRecords o) :
    (finish limits blockBytes blockRecords s).map (·.1)=
      OpenBlock.finish limits blockBytes blockRecords o := by
  have last : ∀(b : Option JsonlBlock) (s : JsonlBlockAssembler) (o : OpenBlock),
      Rep limits blockBytes s o →
      Except.map (·.1) (if s.blockRecordCount≠0 then
          (.ok (b.toList++[s.close.1],s.close.2) :
            Except ArchiveFailure (List JsonlBlock × JsonlBlockAssembler))
        else .ok (b.toList,s))=
      .ok (b.toList++if o.count=0 then [] else [o.block]) := by
    intro b s o r
    rw [r.count]
    by_cases h0 : o.count=0
    · simp [h0,Except.map]
    · simp [h0,Except.map,r.close]
  unfold finish OpenBlock.finish
  have ht : (s.partialLength≠0)=(o.tail≠[]) := by
    rw [r.partialLength]
    simp [length_eq_zero_iff]
  by_cases h : o.tail=[]
  · rw [if_neg (by rw [ht]; simp [h]),if_pos h]
    exact last none s o r
  · rw [if_pos (by rw [ht]; exact h),if_neg h]
    have hc := completeRecord_rep r ho
    cases hq : complete limits blockBytes blockRecords o with
    | error g =>
      rw [hq] at hc
      cases hn : completeRecord limits blockBytes blockRecords s with
      | error f => rw [hn] at hc; cases hc; rfl
      | ok x => rw [hn] at hc; exact hc.elim
    | ok x =>
      obtain ⟨b,o1⟩ := x
      rw [hq] at hc
      cases hn : completeRecord limits blockBytes blockRecords s with
      | error f => rw [hn] at hc; exact hc.elim
      | ok y =>
        obtain ⟨b',s1⟩ := y
        rw [hn] at hc
        obtain ⟨rfl,r1⟩ := hc
        exact last b' s1 o1 r1

theorem rebuild_rep (hl : blockLimits limits blockBytes blockRecords=true)
    (hd : limits.decompressedBytes ≤ maxSafeInteger) (hr : limits.records ≤ maxSafeInteger)
    (r : Rep limits blockBytes s o) (ho : Fits limits blockBytes blockRecords o)
    (hpos : o.position ≤ limits.decompressedBytes) : ∃s',newAssembler limits blockBytes blockRecords
    (some s.cursor.1) (some s.cursor.2)=.ok s' ∧ Rep limits blockBytes s' o := by
  simp only [blockLimits,decide_eq_true_eq] at hl
  obtain ⟨hb,hrb,hbr,h1⟩ := hl
  have ho1 := ho.bytes
  have ho2 := ho.tail
  have ho3 := ho.count
  have ho4 := ho.records
  have ho5 := ho.ordinal
  simp only [position] at hpos
  have hlen : (s.pending.take (s.blockLength+s.partialLength)).length=
      o.bytes.length+o.tail.length := by
    rw [r.blockLength,r.partialLength,r.pending,length_append]
  have hzero : decide (o.count=0)=decide (o.bytes.length=0) := by
    rw [decide_eq_decide,ho.empty,length_eq_zero_iff]
  refine ⟨⟨setAt (List.replicate (blockBytes+limits.recordBytes) 0)
    (s.pending.take (s.blockLength+s.partialLength)) 0,o.ordinal,o.offset,o.firstRecord,
    o.firstRecord+o.count,o.count,o.bytes.length,o.tail.length⟩,?_,?_⟩
  · have hn (v m : Nat) (h1 : v ≤ maxSafeInteger) (h2 : v ≤ m) : cursorNumber v m=.ok v := by
      simp [cursorNumber,h1,h2]
    unfold newAssembler
    simp only [blockLimits,hb,hrb,hbr,h1,and_self,decide_true,Bool.not_true,Bool.false_eq_true,
      if_false,JsonlBlockAssembler.cursor,r.ordinal,r.offset,r.firstRecord,r.records,r.count]
    rw [hlen]
    simp only [r.blockLength,r.partialLength]
    rw [hn o.ordinal _ (by omega) (by omega),hn o.offset _ (by omega) (by omega),
      hn o.firstRecord _ (by omega) (by omega),hn (o.firstRecord+o.count) _ (by omega) (by omega),
      hn o.count _ (by omega) (by omega),hn o.bytes.length _ (by omega) (by omega),
      hn o.tail.length _ (by omega) (by omega)]
    simp [bind,Except.bind,hzero]
  · refine ⟨rfl,rfl,rfl,rfl,rfl,rfl,rfl,?_,?_⟩
    · have h := setAt_take (List.replicate (blockBytes+limits.recordBytes) (0:UInt8))
        (s.pending.take (s.blockLength+s.partialLength)) 0 (Nat.zero_le _)
      rw [hlen] at h
      simpa [r.blockLength,r.partialLength,r.pending] using h
    · rw [setAt_length]
      · simp
      · rw [hlen]
        simp only [length_replicate]
        omega

end JsonlBlockAssembler

end CardKeepr.Shared
