import CardKeepr.Shared.StreamedText

namespace CardKeepr.Shared

open List

variable {r : MemberReader} {i m n offset : Nat}

theorem skipSpace_length (s : JsString) : (skipSpace s).length ≤ s.length :=
  (dropWhile_suffix _).length_le

theorem tail_shorter {s : JsString} {u : UInt16} (h : (skipSpace s).head?=some u) :
    (skipSpace s).tail.length < s.length := by
  have hl := skipSpace_length s
  have hn := head_ne_nil h
  have hp := length_pos_iff.mpr hn
  rw [length_tail]
  omega

theorem jsonParse_nil : jsonParse []=none := by decide

theorem textValue_shorter {text rest : JsString} {v : Json} (h : textValue text=.ok (v,rest)) :
    rest.length < text.length := by
  rw [textValue] at h
  split at h
  · cases h
  · split at h
    · cases h
    · rename_i hz w hp
      cases h
      have hl := skipSpace_length text
      have ha := congrArg List.length (scan_append {} (skipSpace text))
      have hne : (scan {} (skipSpace text)).1≠[] := by
        intro e
        rw [e,jsonParse_nil] at hp
        cases hp
      have hp := length_pos_iff.mpr hne
      rw [length_append] at ha
      omega

/-- The text left after a step, if the generator goes on, is below `n`. -/
def TextStep.Below (n : Nat) : TextStep → Prop
  | .finish => True
  | .throw _ => True
  | .silent y => y.text.length < n
  | .emit _ y => y.text.length < n

theorem textClosing_below (n : Nat) (text : JsString) : (textClosing text).Below n := by
  unfold textClosing
  split <;> trivial

theorem textMember_below {text : JsString} (h : text.length ≤ n)
    (keys : List JsString) (key : JsString) : (textMember text keys key).Below n := by
  unfold textMember
  split
  · trivial
  · rename_i hc
    have ht := tail_shorter (not_not.mp hc)
    have hs := skipSpace_length (skipSpace text).tail
    dsimp only
    split
    · simp only [TextStep.Below,length_tail]
      omega
    · split
      · trivial
      · rename_i hv
        have := textValue_shorter hv
        simp only [TextStep.Below]
        omega

/-- Every step of the generator reads some of the text. -/
theorem step_below (x : TextReader) : x.step.Below x.text.length := by
  have hs := skipSpace_length x.text
  unfold TextReader.step
  cases x.state with
  | start =>
    simp only [TextReader.start]
    split
    · trivial
    · rename_i hc
      have ht := tail_shorter (not_not.mp hc)
      split
      · exact textClosing_below _ _
      · have := skipSpace_length (skipSpace x.text).tail
        simp only [TextStep.Below]
        omega
  | key =>
    simp only [TextReader.member]
    split
    · trivial
    · split
      · trivial
      · rename_i hv
        have := textValue_shorter hv
        split
        · trivial
        · exact textMember_below (by omega) _ _
      · trivial
  | arrayValue =>
    simp only [TextReader.item]
    split
    · rename_i hc
      exact tail_shorter hc
    · split
      · trivial
      · rename_i hv
        have := textValue_shorter hv
        simp only [TextStep.Below]
        omega
  | arraySeparator =>
    simp only [TextReader.itemEnd]
    split
    · rename_i hc
      exact tail_shorter hc
    · split
      · trivial
      · rename_i hc
        have ht := tail_shorter (not_not.mp hc)
        split
        · trivial
        · have := skipSpace_length (skipSpace (skipSpace x.text)).tail
          simp only [TextStep.Below]
          omega
  | objectSeparator =>
    simp only [TextReader.memberEnd]
    split
    · exact textClosing_below _ _
    · split
      · trivial
      · rename_i hc
        have ht := tail_shorter (not_not.mp hc)
        simp only [TextStep.Below]
        omega

variable {chunks : List JsString}

theorem run_stable {x : TextReader} (h : Follows chunks r x) (hn : x.text.length < n)
    (hm : x.text.length < m) : r.run {} n=r.run {} m ∧ (r.run {} n).2≠.running := by
  induction n generalizing r x m with
  | zero => omega
  | succ n ih =>
    obtain ⟨m,rfl⟩ : ∃k,m=k+1 := ⟨m-1,by omega⟩
    have hs := step_follows h
    have hb := step_below x
    rw [MemberReader.run,MemberReader.run]
    cases hr : r.step {} <;> cases hx : x.step <;>
      simp only [hr,hx,StepFollows,TextStep.Below] at hs hb ⊢
    · exact ⟨trivial,by simp⟩
    · exact ⟨trivial,by simp⟩
    · exact ih hs.1 (by omega) (by omega)
    · obtain ⟨he,ho⟩ := ih hs.2.1 (by omega) (show _ < m by omega)
      exact ⟨by rw [he],ho⟩

theorem available_reopened (hi : i ≤ chunks.length)
    (ho : offset ≤ (chunkBefore chunks (i+1)).length) :
    (JsonChunks.new (chunks.drop i) i offset).available=(place chunks (i+1) offset).available := by
  have hc : (JsonChunks.new (chunks.drop i) i offset).offset=
      (JsonChunks.new (chunks.drop i) i offset).chunk.length ∧
      (JsonChunks.new (chunks.drop i) i offset).ended=false := ⟨rfl,rfl⟩
  rw [JsonChunks.available,if_pos hc]
  simp only [JsonChunks.new]
  cases hd : chunks.drop i with
  | nil =>
    have hl : i=chunks.length := by
      have := drop_eq_nil_iff.mp hd
      omega
    have hb : chunkBefore chunks (i+1)=[] := by simp [chunkBefore,hl]
    have h0 : offset=0 := by simpa [hb] using ho
    have he : chunks.drop (i+1)=[] := drop_eq_nil_of_le (by omega)
    have hend : chunks.length < i+1 := by omega
    simp [fill,h0,JsonChunks.available,place,hb,he,hend]
  | cons c cs =>
    obtain ⟨hlt,hcs,hb⟩ := drop_cons hd
    rw [hb] at ho
    have hend : ¬chunks.length < i+1 := by omega
    by_cases he : offset=c.length
    · simp [fill,he,JsonChunks.available,place,hb,hcs,hend]
    · simp [fill,he,JsonChunks.available,place,hb,hcs,hend,not_lt.mpr ho]

theorem peek_reopened (hi : i ≤ chunks.length) (ho : offset ≤ (chunkBefore chunks (i+1)).length) :
    (JsonChunks.new (chunks.drop i) i offset).peek=(place chunks (i+1) offset).peek := by
  have hp : Placed chunks (place chunks (i+1) offset) := ⟨i+1,offset,rfl,by omega,ho⟩
  have hf := (peekLoop_spec ((place chunks (i+1) offset).remaining.length+1) hp (by omega))
  obtain ⟨-,-,-,-,-,hm⟩ := hf
  have hle : (place chunks (i+1) offset).remaining.length ≤
      (JsonChunks.new (chunks.drop i) i offset).remaining.length := by
    simp only [JsonChunks.remaining,JsonChunks.new,place,length_append,length_drop,
      drop_nil,length_nil]
    cases hd : chunks.drop i with
    | nil =>
      have hl := drop_eq_nil_iff.mp hd
      have hb : chunkBefore chunks (i+1)=[] := by simp [chunkBefore,hl]
      have he : chunks.drop (i+1)=[] := drop_eq_nil_of_le (by omega)
      simp [hb,he]
    | cons c cs =>
      obtain ⟨hlt,hcs,hb⟩ := drop_cons hd
      rw [hb,hcs,flatten_cons,length_append]
      omega
  rw [JsonChunks.peek,JsonChunks.peek,←hm _ (Nat.lt_succ_of_le hle),peekLoop,peekLoop,
    available_reopened hi ho]

theorem step_reopened (h : Loaded chunks r.input) (hs : r.state≠.start) :
    (MemberReader.new chunks (some r.cursor)).step {}=r.step {} := by
  obtain ⟨input,keys,key,state⟩ := r
  obtain ⟨i,offset,he,hi,ho⟩ := h
  subst he
  have hp := peek_reopened hi ho
  have hn : MemberReader.new chunks (some (MemberReader.cursor ⟨place chunks (i+1) offset,keys,key,state⟩))=
      ⟨.new (chunks.drop i) i offset,keys,key,state⟩ := by
    simp [MemberReader.new,MemberReader.cursor,place]
  rw [hn]
  cases state with
  | start => exact absurd rfl hs
  | key => simp only [MemberReader.step,keyStep,hp]
  | arrayValue => simp only [MemberReader.step,arrayValueStep,hp]
  | arraySeparator => simp only [MemberReader.step,arraySeparatorStep,hp]
  | objectSeparator => simp only [MemberReader.step,objectSeparatorStep,hp]

theorem run_reopened {x : TextReader} (h : Follows chunks r x)
    (hn : x.text.length < n) (hm : x.text.length < m) {pre post : List MemberEntry}
    {e : MemberEntry} (he : (r.run {} n).1=pre++e::post) :
    (MemberReader.new chunks (some e.cursor)).run {} m=(post,(r.run {} n).2) := by
  induction n generalizing r x pre with
  | zero => omega
  | succ n ih =>
    have hs := step_follows h
    have hb := step_below x
    rw [MemberReader.run] at he ⊢
    cases hr : r.step {} <;> cases hx : x.step <;>
      simp only [hr,hx,StepFollows,TextStep.Below] at hs hb he ⊢
    · simp at he
    · simp at he
    · exact ih hs.1 (by omega) (by omega) he
    · obtain ⟨-,hf,hl,hst⟩ := hs
      cases pre with
      | nil =>
        obtain ⟨rfl,rfl⟩ := List.cons.inj he
        obtain ⟨m,rfl⟩ : ∃k,m=k+1 := ⟨m-1,by omega⟩
        rename_i _ r' _ y
        have hrun : (MemberReader.new chunks (some r'.cursor)).run {} (m+1)=r'.run {} (m+1) := by
          rw [MemberReader.run,MemberReader.run,step_reopened hl hst]
        rw [hrun,(run_stable hf (show _ < n by omega) (show _ < m+1 by omega)).1]
      | cons a pre =>
        obtain ⟨-,he⟩ := List.cons.inj he
        exact ih hf (by omega) (by omega) he

end CardKeepr.Shared
