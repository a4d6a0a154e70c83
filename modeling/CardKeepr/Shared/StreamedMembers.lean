import CardKeepr.Shared.JsonParse

namespace CardKeepr.Shared

/-- `ObjectMemberParseFailure`, and the `SyntaxError` of `JSON.parse` on one token. -/
inductive MemberFailure where
  | cursorExceedsChunk
  | requires (character : UInt16)
  | incomplete
  | characterBudget
  | byteBudget
  | structuralBudget
  | depthBudget
  | trailingData
  | keyRequired
  | duplicateKey
  | trailingComma
  | syntaxError
  deriving DecidableEq

/-- Configured token limits; `none` is `Number.POSITIVE_INFINITY`. -/
structure TokenLimits where
  maximumTokenCharacters : Option Nat := none
  maximumStructuralTokens : Option Nat := none
  maximumDepth : Option Nat := none
  maximumTokenBytes : Option Nat := none

def exceeds (limit : Option Nat) (n : Nat) : Bool :=
  match limit with
  | none => false
  | some m => decide (m < n)

structure JsonChunks where
  /-- What the source iterator has not delivered yet. -/
  source : List JsString
  chunk : JsString
  offset : Nat
  ended : Bool
  chunkIndex : Int
  initialOffset : Nat

def JsonChunks.new (source : List JsString) (chunkIndex : Int) (offset : Nat) : JsonChunks :=
  ⟨source,[],0,false,chunkIndex-1,offset⟩

/-- The loop of `available` from the next `source.next()`, up to a chunk with text left. -/
def fill : List JsString → Int → Nat → Except MemberFailure JsonChunks
  | [],index,initial =>
    if 0 < initial then .error .cursorExceedsChunk else .ok ⟨[],[],initial,true,index+1,0⟩
  | c::cs,index,initial =>
    if c.length < initial then .error .cursorExceedsChunk
    else if initial=c.length then fill cs (index+1) 0
    else .ok ⟨cs,c,initial,false,index+1,0⟩

def JsonChunks.available (s : JsonChunks) : Except MemberFailure (Bool × JsonChunks) :=
  if s.offset=s.chunk.length ∧ s.ended=false then
    match fill s.source s.chunkIndex s.initialOffset with
    | .error f => .error f
    | .ok s => .ok (decide (s.offset < s.chunk.length),s)
  else .ok (decide (s.offset < s.chunk.length),s)

def JsonChunks.remaining (s : JsonChunks) : JsString := s.chunk.drop s.offset++s.source.flatten

/-- `this.chunk.charAt(this.offset)`. -/
def JsonChunks.character (s : JsonChunks) : Option UInt16 := (s.chunk.drop s.offset).head?

def JsonChunks.advance (s : JsonChunks) : JsonChunks := { s with offset := s.offset+1 }

/-- One iteration of `peek` for each unit of fuel. -/
def peekLoop : Nat → JsonChunks → Except MemberFailure (Option UInt16 × JsonChunks)
  | 0,s => .ok (none,s)
  | n+1,s =>
    match s.available with
    | .error f => .error f
    | .ok (false,s) => .ok (none,s)
    | .ok (true,s) =>
      match s.character with
      | none => .ok (none,s)
      | some u => if isSpace u then peekLoop n s.advance else .ok (some u,s)

def JsonChunks.peek (s : JsonChunks) : Except MemberFailure (Option UInt16 × JsonChunks) :=
  peekLoop (s.remaining.length+1) s

def JsonChunks.require (s : JsonChunks) (character : UInt16) : Except MemberFailure JsonChunks :=
  match s.peek with
  | .error f => .error f
  | .ok (u,s) => if u≠some character then .error (.requires character) else .ok s.advance

structure TokenScan where
  depth : Nat := 0
  structuralTokens : Nat := 0
  quoted : Bool := false
  escaped : Bool := false

inductive TokenAction where
  | stop
  | last
  | more (scan : TokenScan)

/-- `",:]} \t\r\n".includes(character)`. -/
def isDelimiter (u : UInt16) : Bool := u==44 || u==58 || u==93 || u==125 || isSpace u

/-- `"[]{}:,".includes(character)`. -/
def isStructural (u : UInt16) : Bool := u==91 || u==93 || u==123 || u==125 || u==58 || u==44

/-- What one character does to the scan, budgets apart. -/
def TokenScan.unit (t : TokenScan) (u : UInt16) : TokenAction :=
  if !t.quoted && t.depth==0 && isDelimiter u then .stop
  else
    let t := if !t.quoted && isStructural u then
      { t with structuralTokens := t.structuralTokens+1 } else t
    if t.quoted then
      if t.escaped then .more { t with escaped := false }
      else if u=92 then .more { t with escaped := true }
      else if u=34 then if t.depth=0 then .last else .more { t with quoted := false }
      else .more t
    else if u=34 then .more { t with quoted := true }
    else if u=91 ∨ u=123 then .more { t with depth := t.depth+1 }
    else if u=93 ∨ u=125 then
      if t.depth=1 then .last else .more { t with depth := t.depth-1 }
    else .more t

/-- The budgets checked for a consumed character, in the order of the source. -/
def TokenScan.overBudget (limits : TokenLimits) (t : TokenScan) (u : UInt16) :
    Option MemberFailure :=
  if !t.quoted && isStructural u && exceeds limits.maximumStructuralTokens (t.structuralTokens+1)
  then some .structuralBudget
  else if !t.quoted && (u==91 || u==123) && exceeds limits.maximumDepth (t.depth+1)
  then some .depthBudget
  else none

/-- The inner loop of `token` over the rest of one chunk: how far it got, and the scan if the
token is still open. -/
def tokenPart (limits : TokenLimits) : TokenScan → JsString →
    Except MemberFailure (Nat × Option TokenScan)
  | t,[] => .ok (0,some t)
  | t,u::us =>
    match t.unit u with
    | .stop => .ok (0,none)
    | .last =>
      match t.overBudget limits u with
      | some f => .error f
      | none => .ok (1,none)
    | .more t' =>
      match t.overBudget limits u with
      | some f => .error f
      | none =>
        match tokenPart limits t' us with
        | .error f => .error f
        | .ok (n,t) => .ok (n+1,t)

structure TokenText where
  text : JsString := []
  characters : Nat := 0
  bytes : Nat := 0

def TokenText.append (limits : TokenLimits) (t : TokenText) (value : JsString) :
    Except MemberFailure TokenText :=
  let characters := t.characters+value.length
  if exceeds limits.maximumTokenCharacters characters then .error .characterBudget
  else
    let bytes := match limits.maximumTokenBytes with
      | none => t.bytes
      | some _ => t.bytes+(utf8 value).length
    if exceeds limits.maximumTokenBytes bytes then .error .byteBudget
    else .ok ⟨t.text++value,characters,bytes⟩

/-- The outer loop of `token`, one chunk for each unit of fuel. -/
def tokenLoop (limits : TokenLimits) : Nat → TokenScan → TokenText → JsonChunks →
    Except MemberFailure (JsString × JsonChunks)
  | 0,_,t,s => .ok (t.text,s)
  | n+1,scan,t,s =>
    match s.available with
    | .error f => .error f
    | .ok (false,s) => .ok (t.text,s)
    | .ok (true,s) =>
      match tokenPart limits scan (s.chunk.drop s.offset) with
      | .error f => .error f
      | .ok (k,scan) =>
        match t.append limits ((s.chunk.drop s.offset).take k) with
        | .error f => .error f
        | .ok t =>
          match scan with
          | none => .ok (t.text,{ s with offset := s.offset+k })
          | some scan => tokenLoop limits n scan t { s with offset := s.offset+k }

def JsonChunks.token (limits : TokenLimits) (s : JsonChunks) :
    Except MemberFailure (JsString × JsonChunks) :=
  match s.peek with
  | .error f => .error f
  | .ok (none,_) => .error .incomplete
  | .ok (some _,s) => tokenLoop limits (s.remaining.length+1) {} {} s

inductive ObjectMember where
  | array (key : JsString)
  | value (key : JsString) (array : Bool) (value : Json)

inductive CursorState where
  | start
  | key
  | arrayValue
  | arraySeparator
  | objectSeparator

structure ObjectMemberCursor where
  chunkIndex : Int
  offset : Nat
  keys : List JsString
  key : JsString
  state : CursorState

/-- The generator between two of its steps. -/
structure MemberReader where
  input : JsonChunks
  keys : List JsString
  key : JsString
  state : CursorState

def MemberReader.cursor (r : MemberReader) : ObjectMemberCursor :=
  ⟨r.input.chunkIndex,r.input.offset,r.keys,r.key,r.state⟩

/-- What one step of the generator does. -/
inductive MemberStep where
  | finish
  | throw (failure : MemberFailure)
  | silent (next : MemberReader)
  | emit (member : ObjectMember) (next : MemberReader)

/-- `JSON.parse(await input.token())`. -/
def JsonChunks.value (limits : TokenLimits) (s : JsonChunks) :
    Except MemberFailure (Json × JsonChunks) :=
  match s.token limits with
  | .error f => .error f
  | .ok (t,s) =>
    match jsonParse t with
    | none => .error .syntaxError
    | some v => .ok (v,s)

/-- After the closing brace only space may follow. -/
def closing (s : JsonChunks) : MemberStep :=
  match s.advance.peek with
  | .error f => .throw f
  | .ok (none,_) => .finish
  | .ok (some _,_) => .throw .trailingData

def startStep (r : MemberReader) : MemberStep :=
  match r.input.require 123 with
  | .error f => .throw f
  | .ok s =>
    match s.peek with
    | .error f => .throw f
    | .ok (u,s) =>
      if u=some 125 then closing s else .silent { r with input := s, state := .key }

/-- The member behind a key: an array is opened, any other value is read whole. -/
def memberValue (limits : TokenLimits) (s : JsonChunks) (keys : List JsString)
    (key : JsString) : MemberStep :=
  match s.require 58 with
  | .error f => .throw f
  | .ok s =>
    match s.peek with
    | .error f => .throw f
    | .ok (u,s) =>
      if u=some 91 then .emit (.array key) ⟨s.advance,keys,key,.arrayValue⟩
      else
        match s.value limits with
        | .error f => .throw f
        | .ok (v,s) => .emit (.value key false v) ⟨s,keys,key,.objectSeparator⟩

def keyStep (limits : TokenLimits) (r : MemberReader) : MemberStep :=
  match r.input.peek with
  | .error f => .throw f
  | .ok (u,s) =>
    if u≠some 34 then .throw .keyRequired
    else
      match s.value limits with
      | .error f => .throw f
      | .ok (.str key,s) =>
        if key ∈ r.keys then .throw .duplicateKey
        else memberValue limits s (r.keys++[key]) key
      | .ok (_,_) => .throw .duplicateKey

def arrayValueStep (limits : TokenLimits) (r : MemberReader) : MemberStep :=
  match r.input.peek with
  | .error f => .throw f
  | .ok (u,s) =>
    if u=some 93 then .silent { r with input := s.advance, state := .objectSeparator }
    else
      match s.value limits with
      | .error f => .throw f
      | .ok (v,s) => .emit (.value r.key true v) { r with input := s, state := .arraySeparator }

def arraySeparatorStep (r : MemberReader) : MemberStep :=
  match r.input.peek with
  | .error f => .throw f
  | .ok (u,s) =>
    if u=some 93 then .silent { r with input := s.advance, state := .objectSeparator }
    else
      match s.require 44 with
      | .error f => .throw f
      | .ok s =>
        match s.peek with
        | .error f => .throw f
        | .ok (u,s) =>
          -- a trailing comma cannot be accepted as an empty suffix
          if u=some 93 then .throw .trailingComma
          else .silent { r with input := s, state := .arrayValue }

def objectSeparatorStep (r : MemberReader) : MemberStep :=
  match r.input.peek with
  | .error f => .throw f
  | .ok (u,s) =>
    if u=some 125 then closing s
    else
      match s.require 44 with
      | .error f => .throw f
      | .ok s => .silent { r with input := s, state := .key }

def MemberReader.step (limits : TokenLimits) (r : MemberReader) : MemberStep :=
  match r.state with
  | .start => startStep r
  | .key => keyStep limits r
  | .arrayValue => arrayValueStep limits r
  | .arraySeparator => arraySeparatorStep r
  | .objectSeparator => objectSeparatorStep r

inductive MemberOutcome where
  | accepted
  | rejected (failure : MemberFailure)
  | running
  deriving DecidableEq

structure MemberEntry where
  member : ObjectMember
  cursor : ObjectMemberCursor

/-- The entries yielded within `fuel` steps and how the generator then stands. -/
def MemberReader.run (limits : TokenLimits) :
    Nat → MemberReader → List MemberEntry × MemberOutcome
  | 0,_ => ([],.running)
  | n+1,r =>
    match r.step limits with
    | .finish => ([],.accepted)
    | .throw f => ([],.rejected f)
    | .silent r => r.run limits n
    | .emit m r => (⟨m,r.cursor⟩::(r.run limits n).1,(r.run limits n).2)

/-- The generator's state on its first call; `source(chunkIndex)` serves the chunks from there on. -/
def MemberReader.new (chunks : List JsString) (after : Option ObjectMemberCursor) : MemberReader :=
  match after with
  | none => ⟨.new chunks 0 0,[],[],.start⟩
  | some c => ⟨.new (chunks.drop c.chunkIndex.toNat) c.chunkIndex c.offset,c.keys,c.key,c.state⟩

/-- Every step but the first reads at least one character of the text. -/
def resumableObjectMembers (chunks : List JsString) (after : Option ObjectMemberCursor)
    (limits : TokenLimits) : List MemberEntry × MemberOutcome :=
  (MemberReader.new chunks after).run limits (chunks.flatten.length+2)

end CardKeepr.Shared
