import CardKeepr.Shared.StreamedReader

namespace CardKeepr.Shared

variable {s : JsonChunks} {r : MemberReader}

/-- The generator over a text in one piece. -/
structure TextReader where
  text : JsString
  keys : List JsString
  key : JsString
  state : CursorState

inductive TextStep where
  | finish
  | throw (failure : MemberFailure)
  | silent (next : TextReader)
  | emit (member : ObjectMember) (next : TextReader)

/-- `JSON.parse` of the next token, and the text behind it. -/
def textValue (text : JsString) : Except MemberFailure (Json × JsString) :=
  if skipSpace text=[] then .error .incomplete
  else match jsonParse (scan {} (skipSpace text)).1 with
  | none => .error .syntaxError
  | some v => .ok (v,(scan {} (skipSpace text)).2)

def textClosing (text : JsString) : TextStep :=
  if skipSpace text=[] then .finish else .throw .trailingData

def TextReader.start (r : TextReader) : TextStep :=
  if (skipSpace r.text).head?≠some 123 then .throw (.requires 123)
  else
    let text := skipSpace (skipSpace r.text).tail
    if text.head?=some 125 then textClosing text.tail
    else .silent { r with text := text, state := .key }

def textMember (text : JsString) (keys : List JsString) (key : JsString) : TextStep :=
  if (skipSpace text).head?≠some 58 then .throw (.requires 58)
  else
    let text := skipSpace (skipSpace text).tail
    if text.head?=some 91 then .emit (.array key) ⟨text.tail,keys,key,.arrayValue⟩
    else
      match textValue text with
      | .error f => .throw f
      | .ok (v,text) => .emit (.value key false v) ⟨text,keys,key,.objectSeparator⟩

def TextReader.member (r : TextReader) : TextStep :=
  if (skipSpace r.text).head?≠some 34 then .throw .keyRequired
  else
    match textValue (skipSpace r.text) with
    | .error f => .throw f
    | .ok (.str key,text) =>
      if key ∈ r.keys then .throw .duplicateKey else textMember text (r.keys++[key]) key
    | .ok (_,_) => .throw .duplicateKey

def TextReader.item (r : TextReader) : TextStep :=
  if (skipSpace r.text).head?=some 93 then
    .silent { r with text := (skipSpace r.text).tail, state := .objectSeparator }
  else
    match textValue (skipSpace r.text) with
    | .error f => .throw f
    | .ok (v,text) => .emit (.value r.key true v) { r with text := text, state := .arraySeparator }

def TextReader.itemEnd (r : TextReader) : TextStep :=
  let text := skipSpace r.text
  if text.head?=some 93 then .silent { r with text := text.tail, state := .objectSeparator }
  else if (skipSpace text).head?≠some 44 then .throw (.requires 44)
  else
    let text := skipSpace (skipSpace text).tail
    if text.head?=some 93 then .throw .trailingComma
    else .silent { r with text := text, state := .arrayValue }

def TextReader.memberEnd (r : TextReader) : TextStep :=
  let text := skipSpace r.text
  if text.head?=some 125 then textClosing text.tail
  else if (skipSpace text).head?≠some 44 then .throw (.requires 44)
  else .silent { r with text := (skipSpace text).tail, state := .key }

def TextReader.step (r : TextReader) : TextStep :=
  match r.state with
  | .start => r.start
  | .key => r.member
  | .arrayValue => r.item
  | .arraySeparator => r.itemEnd
  | .objectSeparator => r.memberEnd

def TextReader.run : Nat → TextReader → List ObjectMember × MemberOutcome
  | 0,_ => ([],.running)
  | n+1,r =>
    match r.step with
    | .finish => ([],.accepted)
    | .throw f => ([],.rejected f)
    | .silent r => r.run n
    | .emit m r => (m::(r.run n).1,(r.run n).2)

/-- The chunked generator stands where the whole-text generator stands. -/
structure Follows (chunks : List JsString) (r : MemberReader) (x : TextReader) : Prop where
  placed : Placed chunks r.input
  text : r.input.remaining=x.text
  keys : r.keys=x.keys
  key : r.key=x.key
  state : r.state=x.state

/-- After a step the reader is loaded, as a cursor needs it. -/
def StepFollows (chunks : List JsString) : MemberStep → TextStep → Prop
  | .finish,.finish => True
  | .throw f,.throw g => f=g
  | .silent r,.silent x => Follows chunks r x ∧ Loaded chunks r.input
  | .emit m r,.emit n x => m=n ∧ Follows chunks r x ∧ Loaded chunks r.input ∧ r.state≠.start
  | _,_ => False

variable {chunks : List JsString}

theorem value_spec (h : Placed chunks s) :
    (∃f,textValue s.remaining=.error f ∧ s.value {}=.error f) ∨ ∃v text t,textValue s.remaining=.ok
    (v,text) ∧ s.value {}=.ok (v,t) ∧ Loaded chunks t ∧ t.remaining=text := by
  rw [textValue,JsonChunks.value]
  rcases token_spec h with ⟨hz,ht⟩|⟨hz,t,ht,hl,hr⟩
  · exact .inl ⟨.incomplete,by rw [if_pos hz],by rw [ht]⟩
  · rw [if_neg hz,ht]
    cases hp : jsonParse (scan {} (skipSpace s.remaining)).1 with
    | none => exact .inl ⟨.syntaxError,by simp only,by simp only [hp]⟩
    | some v => exact .inr ⟨v,_,t,by simp only,by simp only [hp],hl,hr⟩

theorem closing_follows {text : JsString} (h : Loaded chunks s) (hlt : s.offset < s.chunk.length)
    (hr : s.remaining.tail=text) : StepFollows chunks (closing s) (textClosing text) := by
  obtain ⟨hal,har,-⟩ := advance_spec h hlt
  obtain ⟨t,ht,-⟩ := peek_spec hal.placed
  rw [har,hr] at ht
  rw [closing,textClosing,ht]
  cases hs : skipSpace text with
  | nil => trivial
  | cons u us => rfl

theorem head_ne_nil {s : JsString} {u : UInt16} (h : s.head?=some u) : s≠[] := by
  intro e
  simp [e] at h

variable {x : TextReader}

theorem start_follows (h : Follows chunks r x) : StepFollows chunks (startStep r) x.start := by
  unfold startStep TextReader.start
  rcases require_spec h.placed 123 with ⟨hne,hq⟩|⟨he,s,hq,hl,hr⟩
  · rw [h.text] at hne
    simp only [hq,if_pos hne]
    rfl
  · rw [h.text] at he hr
    obtain ⟨t,ht,htl,htr,htlt⟩ := peek_spec hl.placed
    rw [hr] at ht htr htlt
    simp only [hq,ht,ne_eq,he,not_true,if_false]
    split
    · rename_i hc
      exact closing_follows htl (htlt (head_ne_nil hc)) (by rw [htr])
    · exact ⟨⟨htl.placed,htr,h.keys,h.key,rfl⟩,htl⟩

theorem memberValue_follows (h : Placed chunks s) (keys : List JsString) (key : JsString) :
    StepFollows chunks (memberValue {} s keys key) (textMember s.remaining keys key) := by
  unfold memberValue textMember
  rcases require_spec h 58 with ⟨hne,hq⟩|⟨he,t,hq,hl,hr⟩
  · simp only [hq,if_pos hne]
    rfl
  · obtain ⟨p,hp,hpl,hpr,hplt⟩ := peek_spec hl.placed
    rw [hr] at hp hpr hplt
    simp only [hq,hp,ne_eq,he,not_true,if_false]
    split
    · rename_i hc
      obtain ⟨hal,har,-⟩ := advance_spec hpl (hplt (head_ne_nil hc))
      exact ⟨rfl,⟨hal.placed,by rw [har,hpr],rfl,rfl,rfl⟩,hal,by simp⟩
    · rcases value_spec hpl.placed with ⟨f,ht,hv⟩|⟨v,text,w,ht,hv,hwl,hwr⟩
      · rw [hpr] at ht
        simp only [hv,ht]
        rfl
      · rw [hpr] at ht
        simp only [hv,ht]
        exact ⟨rfl,⟨hwl.placed,hwr,rfl,rfl,rfl⟩,hwl,by simp⟩

theorem key_follows (h : Follows chunks r x) : StepFollows chunks (keyStep {} r) x.member := by
  unfold keyStep TextReader.member
  obtain ⟨t,ht,htl,htr,-⟩ := peek_spec h.placed
  rw [h.text] at ht htr
  simp only [ht]
  split
  · rfl
  · rcases value_spec htl.placed with ⟨f,hx,hv⟩|⟨v,text,w,hx,hv,hwl,hwr⟩
    · rw [htr] at hx
      simp only [hv,hx]
      rfl
    · rw [htr] at hx
      simp only [hv,hx]
      cases v with
      | str key =>
        simp only [h.keys]
        split
        · rfl
        · rw [←hwr]
          exact memberValue_follows hwl.placed _ _
      | _ => rfl

theorem arrayValue_follows (h : Follows chunks r x) :
    StepFollows chunks (arrayValueStep {} r) x.item := by
  unfold arrayValueStep TextReader.item
  obtain ⟨t,ht,htl,htr,htlt⟩ := peek_spec h.placed
  rw [h.text] at ht htr htlt
  simp only [ht]
  split
  · rename_i hc
    obtain ⟨hal,har,-⟩ := advance_spec htl (htlt (head_ne_nil hc))
    exact ⟨⟨hal.placed,by rw [har,htr],h.keys,h.key,rfl⟩,hal⟩
  · rcases value_spec htl.placed with ⟨f,hx,hv⟩|⟨v,text,w,hx,hv,hwl,hwr⟩
    · rw [htr] at hx
      simp only [hv,hx]
      rfl
    · rw [htr] at hx
      simp only [hv,hx,h.key]
      exact ⟨rfl,⟨hwl.placed,hwr,h.keys,rfl,rfl⟩,hwl,by simp⟩

theorem arraySeparator_follows (h : Follows chunks r x) :
    StepFollows chunks (arraySeparatorStep r) x.itemEnd := by
  unfold arraySeparatorStep TextReader.itemEnd
  obtain ⟨t,ht,htl,htr,htlt⟩ := peek_spec h.placed
  rw [h.text] at ht htr htlt
  simp only [ht]
  split
  · rename_i hc
    obtain ⟨hal,har,-⟩ := advance_spec htl (htlt (head_ne_nil hc))
    exact ⟨⟨hal.placed,by rw [har,htr],h.keys,h.key,rfl⟩,hal⟩
  · rcases require_spec htl.placed 44 with ⟨hne,hq⟩|⟨he,s,hq,hl,hr⟩
    · rw [htr] at hne
      simp only [hq,if_pos hne]
      rfl
    · rw [htr] at he hr
      obtain ⟨p,hp,hpl,hpr,-⟩ := peek_spec hl.placed
      rw [hr] at hp hpr
      simp only [hq,hp,ne_eq,he,not_true,if_false]
      split
      · rfl
      · exact ⟨⟨hpl.placed,hpr,h.keys,h.key,rfl⟩,hpl⟩

theorem objectSeparator_follows (h : Follows chunks r x) :
    StepFollows chunks (objectSeparatorStep r) x.memberEnd := by
  unfold objectSeparatorStep TextReader.memberEnd
  obtain ⟨t,ht,htl,htr,htlt⟩ := peek_spec h.placed
  rw [h.text] at ht htr htlt
  simp only [ht]
  split
  · rename_i hc
    exact closing_follows htl (htlt (head_ne_nil hc)) (by rw [htr])
  · rcases require_spec htl.placed 44 with ⟨hne,hq⟩|⟨he,s,hq,hl,hr⟩
    · rw [htr] at hne
      simp only [hq,if_pos hne]
      rfl
    · rw [htr] at he hr
      simp only [hq,ne_eq,he,not_true,if_false]
      exact ⟨⟨hl.placed,hr,h.keys,h.key,rfl⟩,hl⟩

theorem step_follows (h : Follows chunks r x) : StepFollows chunks (r.step {}) x.step := by
  unfold MemberReader.step TextReader.step
  rw [h.state]
  cases x.state with
  | start => exact start_follows h
  | key => exact key_follows h
  | arrayValue => exact arrayValue_follows h
  | arraySeparator => exact arraySeparator_follows h
  | objectSeparator => exact objectSeparator_follows h

theorem run_follows (n : Nat) (h : Follows chunks r x) :
    (r.run {} n).1.map MemberEntry.member=(x.run n).1 ∧ (r.run {} n).2=(x.run n).2 := by
  induction n generalizing r x with
  | zero => exact ⟨rfl,rfl⟩
  | succ n ih =>
    have hs := step_follows h
    rw [MemberReader.run,TextReader.run]
    cases hr : r.step {} <;> cases hx : x.step <;> simp only [hr,hx,StepFollows] at hs ⊢
    · exact ⟨rfl,trivial⟩
    · exact ⟨rfl,by rw [hs]⟩
    · exact ih hs.1
    · obtain ⟨rfl,hf,-⟩ := hs
      obtain ⟨hm,ho⟩ := ih hf
      exact ⟨by rw [List.map_cons,hm],ho⟩

end CardKeepr.Shared
