import CardKeepr.Adapters.FlightRows

namespace CardKeepr.Adapters
open Shared Lib Lib.References List
open Reconciliation.Printings (isWhiteSpace trim)

variable (m : JsString → JsString)
variable {s id rest text : JsString}

theorem findIdx_fresh {l r : JsString} {u : UInt16} (h : u∉l) :
    (l++u::r).findIdx? (· == u)=some l.length := by
  have hl : l.findIdx? (· == u)=none := by
    rw [List.findIdx?_eq_none_iff]
    intro v hv
    rw [beq_eq_false_iff_ne]
    rintro rfl
    exact h hv
  rw [List.findIdx?_append,hl,List.findIdx?_cons]
  simp

/-- What a turn does behind an identifier. -/
def bodyTurn (id body : JsString) (chunks : FlightChunks) :
    Except Thrown (JsString × FlightChunks) :=
  let lineEnd := body.findIdx? (· == 10)
  let line := body.take (lineEnd.getD body.length)
  let next := body.drop ((lineEnd.map (· + 1)).getD body.length)
  if body.head?=some 84 then do
    let (text,rest) ← textChunk body.tail
    .ok (if rest.head?=some 10 then rest.tail else rest,mapSet chunks id (.str text))
  else if body.head?=some 73 ∨ body.head?=some 72 then .ok (next,mapSet chunks id (moduleValue line))
  else do
    let value ← withAdapterParseFailure (parseJson m line)
    .ok (next,mapSet chunks id value)

theorem id_units (h : isChunkId id=true) : 58∉id ∧ 10∉id ∧ id.isEmpty=false := by
  rw [isChunkId,Bool.and_eq_true,Bool.not_eq_true'] at h
  have hunit : ∀v : UInt16,v∈id → (isDigit v || decide (97 ≤ v.toNat ∧ v.toNat ≤ 102))=true :=
    fun v hv => all_eq_true.mp h.2 v hv
  exact ⟨fun hmem => absurd (hunit 58 hmem) (by decide),
    fun hmem => absurd (hunit 10 hmem) (by decide),h.1⟩

/-- A turn on an identifier with its body. -/
theorem flightTurn_row {body : JsString} {chunks : FlightChunks} (hid : isChunkId id=true)
    (hbound : chunks.length < maximumChunks) :
    flightTurn m (id++58::body) chunks=bodyTurn m id body chunks := by
  obtain ⟨hcolon,hline,hne⟩ := id_units hid
  have hseparator := findIdx_fresh (r := body) hcolon
  have hline' : id.findIdx? (· == 10)=none := by
    rw [List.findIdx?_eq_none_iff]
    intro v hv
    rw [beq_eq_false_iff_ne]
    rintro rfl
    exact hline hv
  have hend : (id++58::body).findIdx? (· == 10)=
      (body.findIdx? (· == 10)).map fun e => e+(id.length+1) := by
    have hother : ((58:UInt16) == 10)=false := by decide
    rw [List.findIdx?_append,hline',List.findIdx?_cons,Option.none_or,hother]
    simp only [Bool.false_eq_true,if_false,Option.map_map]
    congr 1
    funext e
    simp only [Function.comp_apply]
    omega
  have hafter : ((body.findIdx? (· == 10)).map fun e => e+(id.length+1)).any
      (fun e => decide (e < id.length))=false := by
    cases body.findIdx? (· == 10) with
    | none => rfl
    | some e =>
      simp only [Option.map_some,Option.any_some,decide_eq_false_iff_not]
      omega
  have hbody : (id++58::body).drop (id.length+1)=body := by
    rw [drop_append,drop_of_length_le (by omega)]
    simp
  have htail : (id++58::body).drop (id.length+2)=body.tail := by
    rw [show id.length+2=(id.length+1)+1 from rfl,←drop_drop,hbody,drop_one]
  rw [flightTurn]
  simp only [hseparator,hend,hafter,if_false,take_left,hne,hid,hbody,htail,Bool.not_true,
    Bool.false_eq_true]
  rw [if_neg (by omega),bodyTurn]
  have hlength : (id++58::body).length=id.length+1+body.length := by
    rw [length_append,length_cons]
    omega
  have htake : ((id++58::body).take (((body.findIdx? (· == 10)).map
      fun e => e+(id.length+1)).getD (id++58::body).length)).drop (id.length+1)=
        body.take ((body.findIdx? (· == 10)).getD body.length) := by
    rw [drop_take,hbody]
    congr 1
    cases body.findIdx? (· == 10) with
    | none =>
      rw [Option.map_none,Option.getD_none,Option.getD_none,hlength]
      omega
    | some e =>
      rw [Option.map_some,Option.getD_some,Option.getD_some]
      omega
  have hnext : (id++58::body).drop ((((body.findIdx? (· == 10)).map
      fun e => e+(id.length+1)).map (· + 1)).getD (id++58::body).length)=
        body.drop (((body.findIdx? (· == 10)).map (· + 1)).getD body.length) := by
    have hdrop : ∀k,(id++58::body).drop (id.length+1+k)=body.drop k := by
      intro k
      rw [←drop_drop,hbody]
    cases body.findIdx? (· == 10) with
    | none =>
      simp only [Option.map_none,Option.getD_none]
      rw [hlength,hdrop]
    | some e =>
      simp only [Option.map_some,Option.getD_some]
      rw [←hdrop (e+1)]
      congr 1
      omega
  rw [htake,hnext]

theorem json_head {v : Json} (h : jsonParse text=some v) :
    text.head?≠some 84 ∧ ¬(text.head?=some 73 ∨ text.head?=some 72) := by
  have hnone : ∀u us,u=84 ∨ u=73 ∨ u=72 → jsonSyntax (u::us)=none := by
    intro u us hu
    rcases hu with rfl | rfl | rfl
    all_goals simp [jsonSyntax,skipSpace,isSpace,parseValue,parseNumber,unsignedNumber,integerPart,isDigit]
  rw [jsonParse] at h
  cases text with
  | nil => simp
  | cons u us =>
    have hu : ∀c : UInt16,c=84 ∨ c=73 ∨ c=72 → u≠c := by
      rintro c hc rfl
      rw [hnone u us hc] at h
      cases h
    simp [hu 84 (by simp),hu 73 (by simp),hu 72 (by simp)]

def RowEnd (rest : JsString) : Prop := ∀u∈rest.head?,isLow u=false ∧ u≠10

theorem textChunk_row (t : JsString) (hrest : RowEnd rest) (hbytes : (utf8 t).length < 2^53) :
    textChunk (hexadecimal (utf8 t).length++44::(t++rest))=.ok (t,rest) := by
  obtain ⟨-,hall,-⟩ := hexadecimal_spells (utf8 t).length
  have hcomma : (44:UInt16)∉hexadecimal (utf8 t).length := by
    intro hmem
    exact (hexValue_unit (hall 44 hmem)).2.2.2.1 rfl
  have happart : Ingestion.Apart t rest := by
    intro u _ v hv
    rw [isPair,(hrest v hv).1,Bool.and_false]
  have htext := textLoop_text happart 0 (utf8 t).length (by omega)
  have hdrop : (hexadecimal (utf8 t).length++44::(t++rest)).drop
      ((hexadecimal (utf8 t).length).length+1)=t++rest := by
    rw [←drop_drop,drop_left]
    rfl
  rw [textChunk,findIdx_fresh hcomma]
  simp only [take_left,parseHex_hexadecimal,Int.natAbs_natCast,hdrop,Int.toNat_natCast]
  rw [if_neg (by omega),textByByteLength,htext]
  exact if_neg (by simp)

theorem line_take {line rest : JsString} (h : 10∉line) :
    (line++10::rest).take (((line++10::rest).findIdx? (· == 10)).getD (line++10::rest).length)=line ∧
      (line++10::rest).drop ((((line++10::rest).findIdx? (· == 10)).map (· + 1)).getD
        (line++10::rest).length)=rest := by
  rw [findIdx_fresh h,Option.getD_some,Option.map_some,Option.getD_some,take_left,
    ←drop_drop,drop_left]
  exact ⟨rfl,rfl⟩

theorem bodyTurn_row (id : JsString) (row : FlightRow) (hrest : RowEnd rest)
    (chunks : FlightChunks) (hbytes : row.written.length < 2^51) :
    bodyTurn m id (row.written++rest) chunks=.ok (rest,mapSet chunks id row.value) := by
  cases row with
  | json v line parses plain =>
    obtain ⟨hhead,hmodule⟩ := json_head parses
    obtain ⟨htake,hdrop⟩ := @line_take _ rest plain
    have hhead' : (line++10::rest).head?=some 84 → line.head?=some 84 := by
      cases line with
      | nil => simp
      | cons u us => exact fun h => h
    have hmodule' : (line++10::rest).head?=some 73 ∨ (line++10::rest).head?=some 72 →
        line.head?=some 73 ∨ line.head?=some 72 := by
      cases line with
      | nil => simp
      | cons u us => exact fun h => h
    rw [FlightRow.written,append_assoc,singleton_append,bodyTurn]
    simp only [htake,hdrop]
    rw [if_neg (mt hhead' hhead),if_neg (mt hmodule' hmodule),parseJson,parses]
    rfl
  | module kind tail named plain =>
    have hplain : 10∉kind::tail := by
      rw [mem_cons]
      rintro (rfl | hmem)
      · exact absurd named (by decide)
      · exact plain hmem
    obtain ⟨htake,hdrop⟩ := @line_take _ rest hplain
    have hkind : ((kind::tail)++10::rest).head?=some kind := rfl
    have htext : kind≠84 := by
      rintro rfl
      exact absurd named (by decide)
    rw [FlightRow.written,show kind::(tail++[10])++rest=(kind::tail)++10::rest by simp,bodyTurn]
    simp only [htake,hdrop,hkind,Option.some.injEq]
    rw [if_neg htext,if_pos named]
    rfl
  | text t =>
    have hlength := Ingestion.utf8_length_le t
    have hshort : t.length ≤ (FlightRow.text t).written.length := by
      simp only [FlightRow.written,length_cons,length_append]
      omega
    have hchunk := textChunk_row t hrest (by omega)
    have hnext : (if rest.head?=some 10 then rest.tail else rest)=rest := by
      rw [if_neg]
      intro h
      exact (hrest 10 h).2 rfl
    rw [FlightRow.written,cons_append,append_assoc,cons_append,bodyTurn]
    simp only [List.head?_cons,if_true,tail_cons,hchunk,ok_bind,hnext]
    rfl

theorem rows_cons (r : JsString × FlightRow) (rs : List (JsString × FlightRow)) :
    writtenRows (r::rs)=r.1++58::(r.2.written++writtenRows rs) := by
  simp [writtenRows]

theorem row_end {rs : List (JsString × FlightRow)} (h : ∀r∈rs,isChunkId r.1=true) :
    RowEnd (writtenRows rs) := by
  intro u hu
  cases rs with
  | nil => cases hu
  | cons r rs =>
    have hid := h r mem_cons_self
    rw [isChunkId,Bool.and_eq_true,Bool.not_eq_true'] at hid
    obtain ⟨hne,hall⟩ := hid
    have hmem : u∈r.1 := by
      rw [rows_cons] at hu
      cases hr : r.1 with
      | nil =>
        rw [hr] at hne
        cases hne
      | cons v vs =>
        rw [hr] at hu
        obtain rfl := Option.some.inj hu
        exact mem_cons_self
    have hunit := all_eq_true.mp hall u hmem
    simp only [isDigit,Bool.or_eq_true,decide_eq_true_eq] at hunit
    constructor
    · simp only [isLow,decide_eq_false_iff_not]
      omega
    · rintro rfl
      exact absurd hunit (by decide)

theorem mapSet_fresh {chunks : FlightChunks} (v : Json)
    (h : id∉chunks.map Prod.fst) : mapSet chunks id v=chunks++[(id,v)] := by
  rw [mapSet,if_neg h]

theorem rows_length (rows : List (JsString × FlightRow)) : rows.length ≤ (writtenRows rows).length := by
  induction rows with
  | nil => exact Nat.zero_le 0
  | cons r rs ih =>
    rw [rows_cons]
    simp only [length_cons,length_append]
    omega

/-- The map of rows. -/
def rowValues (rows : List (JsString × FlightRow)) : FlightChunks :=
  rows.map fun r => (r.1,r.2.value)

theorem flightLoop_rows {rows : List (JsString × FlightRow)} (hhex : ∀r∈rows,isChunkId r.1=true)
    (chunks : FlightChunks) (hdistinct : ((chunks++rowValues rows).map Prod.fst).Nodup)
    (hbound : chunks.length+rows.length ≤ maximumChunks)
    (hlength : (writtenRows rows).length < 2^51) {n : Nat} (hfuel : rows.length ≤ n) :
    flightLoop m n (writtenRows rows) chunks=some (.ok (chunks++rowValues rows)) := by
  induction rows generalizing chunks n with
  | nil =>
    rw [rowValues,map_nil,append_nil]
    cases n <;> rfl
  | cons r rs ih =>
    obtain ⟨n,rfl⟩ : ∃k,n=k+1 := ⟨n-1,by rw [length_cons] at hfuel; omega⟩
    have hid := hhex r mem_cons_self
    have hrs : ∀r∈rs,isChunkId r.1=true := fun x hx => hhex x (mem_cons_of_mem _ hx)
    rw [rows_cons] at hlength ⊢
    simp only [length_append,length_cons] at hlength hbound hfuel
    have hfresh : r.1∉chunks.map Prod.fst := by
      rw [map_append] at hdistinct
      intro hmem
      exact disjoint_of_nodup_append hdistinct hmem mem_cons_self
    have hturn : flightTurn m (r.1++58::(r.2.written++writtenRows rs)) chunks=
        .ok (writtenRows rs,chunks++[(r.1,r.2.value)]) := by
      rw [flightTurn_row m hid (by omega),bodyTurn_row m r.1 r.2 (row_end hrs) chunks (by omega),
        mapSet_fresh _ hfresh]
    have hvalues : chunks++rowValues (r::rs)=chunks++[(r.1,r.2.value)]++rowValues rs := by
      simp [rowValues]
    rw [hvalues] at hdistinct ⊢
    have hrest := ih hrs (chunks++[(r.1,r.2.value)]) hdistinct
      (by rw [length_append,length_singleton]; omega) (by omega)
      (n := n) (by omega)
    cases hs : r.1++58::(r.2.written++writtenRows rs) with
    | nil => simp at hs
    | cons u s =>
      rw [hs] at hturn
      rw [flightLoop,hturn]
      exact hrest

theorem settled_ok {α : Type} (a : α) : Settled (.ok a : Except Thrown α) := .inl ⟨a,rfl⟩

theorem settled_failure {α : Type} (message : String) :
    Settled (parseFailure message : Except Thrown α) := .inr ⟨_,rfl⟩

theorem settled_bind {α β : Type} {x : Except Thrown α} {f : α → Except Thrown β}
    (hx : Settled x) (hf : ∀a,x=.ok a → Settled (f a)) : Settled (x >>= f) := by
  rcases hx with ⟨a,rfl⟩ | ⟨message,rfl⟩
  · exact hf a rfl
  · exact .inr ⟨message,rfl⟩

theorem settled_parse (text : JsString) : Settled (withAdapterParseFailure (parseJson m text)) := by
  rw [parseJson]
  cases jsonParse text with
  | none => exact .inr ⟨_,rfl⟩
  | some v => exact settled_ok v

theorem textLoop_shorter (bytes consumed : Nat) (s : JsString) :
    (textLoop bytes consumed s).2.2.length ≤ s.length := by
  induction s using codePoints.induct generalizing consumed with
  | case1 => simp [textLoop]
  | case2 u =>
    rw [textLoop]
    split <;> simp
  | case3 u v us hp ih =>
    have hrest := ih (consumed+4)
    rw [textLoop,length_cons,length_cons]
    split
    · dsimp only
      omega
    · simp
  | case4 u v us hp ih =>
    have hrest := ih (consumed+unitBytes u)
    rw [textLoop]
    split
    · simp only [length_cons] at hrest ⊢
      omega
    · simp

theorem textChunk_settled (s : JsString) : Settled (textChunk s) := by
  rw [textChunk]
  split
  · exact settled_failure _
  · split
    · exact settled_failure _
    · split
      · exact settled_failure _
      · rw [textByByteLength]
        split
        · exact settled_failure _
        · exact settled_ok _

theorem textChunk_shorter (h : textChunk s=.ok (text,rest)) : rest.length ≤ s.length := by
  rw [textChunk] at h
  split at h
  · cases h
  · rename_i comma _
    split at h
    · cases h
    · rename_i length _
      split at h
      · cases h
      · rw [textByByteLength] at h
        split at h
        · cases h
        · have hrest := congrArg Prod.snd (Except.ok.inj h)
          have hloop := textLoop_shorter length.toNat 0 (s.drop (comma+1))
          rw [hrest,length_drop] at hloop
          dsimp only at hloop
          omega

theorem next_shorter (hne : s≠[]) (lineEnd : Option Nat) :
    (s.drop ((lineEnd.map (· + 1)).getD s.length)).length < s.length := by
  have hpos := length_pos_iff.mpr hne
  rw [length_drop]
  cases lineEnd with
  | none =>
    rw [Option.map_none,Option.getD_none]
    omega
  | some e =>
    rw [Option.map_some,Option.getD_some]
    omega

def Shortens (s : JsString) (r : Except Thrown (JsString × FlightChunks)) : Prop :=
  Settled r ∧ ∀rest chunks,r=.ok (rest,chunks) → rest.length < s.length

theorem shortens_failure (s : JsString) (message : String) : Shortens s (parseFailure message) :=
  ⟨settled_failure message,fun _ _ h => by cases h⟩

theorem shortens_next (hne : s≠[]) (lineEnd : Option Nat) (chunks : FlightChunks) :
    Shortens s (.ok (s.drop ((lineEnd.map (· + 1)).getD s.length),chunks)) := by
  refine ⟨settled_ok _,fun rest _ h => ?_⟩
  obtain ⟨rfl,-⟩ := Prod.mk.inj (Except.ok.inj h)
  exact next_shorter hne lineEnd

theorem flightTurn_shortens (hne : s≠[]) (chunks : FlightChunks) :
    Shortens s (flightTurn m s chunks) := by
  have hunidentified : Shortens s
      (if (trim (s.take ((s.findIdx? (· == 10)).getD s.length))).isEmpty then
        .ok (s.drop (((s.findIdx? (· == 10)).map (· + 1)).getD s.length),chunks)
      else parseFailure "Next.js flight line has no chunk identifier.") := by
    split
    · exact shortens_next hne _ chunks
    · exact shortens_failure s _
  rw [flightTurn]
  dsimp only
  split
  · exact hunidentified
  · rename_i separator _
    split
    · exact hunidentified
    · split
      · exact shortens_next hne _ chunks
      · split
        · exact shortens_failure s _
        · split
          · exact shortens_failure s _
          · split
            · have hpos := length_pos_iff.mpr hne
              constructor
              · apply settled_bind (textChunk_settled _)
                intro r _
                exact settled_ok _
              · intro rest chunks' h
                obtain ⟨⟨text,behind⟩,htext,hrest⟩ := bind_ok h
                have hshorter := textChunk_shorter htext
                have hnext : rest.length ≤ behind.length := by
                  obtain ⟨rfl,-⟩ := Prod.mk.inj (Except.ok.inj hrest)
                  dsimp only
                  split
                  · rw [length_tail]
                    omega
                  · exact le_rfl
                rw [length_drop] at hshorter
                omega
            · split
              · exact shortens_next hne _ _
              · constructor
                · apply settled_bind (settled_parse m _)
                  intro v _
                  exact settled_ok _
                · intro rest chunks' h
                  obtain ⟨v,-,hrest⟩ := bind_ok h
                  exact (shortens_next hne _ _).2 rest chunks' hrest

theorem flightLoop_settled {n : Nat} (h : s.length ≤ n) (chunks : FlightChunks) :
    ∃r,flightLoop m n s chunks=some r ∧ Settled r := by
  induction n generalizing s chunks with
  | zero =>
    obtain rfl := length_eq_zero_iff.mp (Nat.le_zero.mp h)
    exact ⟨_,rfl,settled_ok chunks⟩
  | succ n ih =>
    cases s with
    | nil => exact ⟨_,rfl,settled_ok chunks⟩
    | cons u s =>
      obtain ⟨hsettled,hshorter⟩ := flightTurn_shortens m (cons_ne_nil u s) chunks
      rw [flightLoop]
      rcases hsettled with ⟨⟨rest,chunks'⟩,hr⟩ | ⟨message,hr⟩
      · have hlt := hshorter rest chunks' hr
        rw [hr]
        exact ih (by omega) chunks'
      · rw [hr]
        exact ⟨_,rfl,.inr ⟨message,rfl⟩⟩

theorem parse_quoted {t : JsString} {v : Json} (h : jsonParse (34::t)=some v) : ∃s,v=.str s := by
  obtain ⟨w,hw,hown⟩ := Option.map_eq_some_iff.mp h
  have hquote : isSpace 34=false := by decide
  rw [jsonSyntax,skipSpace_cons hquote,parseValue] at hw
  simp only [if_true] at hw
  cases hbody : stringBody t with
  | none =>
    rw [hbody] at hw
    cases hw
  | some r =>
    rw [hbody] at hw
    simp only [Option.map_some] at hw
    split at hw
    · obtain rfl := Option.some.inj hw
      exact ⟨r.1,hown.symm⟩
    · cases hw

theorem appendPush_settled (flight group : JsString) : Settled (appendPush m flight group) := by
  apply settled_bind (settled_parse m _)
  intro v hv
  obtain ⟨s,rfl⟩ : ∃s,v=.str s := by
    rw [parseJson] at hv
    cases hp : jsonParse (34::(group++[34])) with
    | none =>
      rw [hp] at hv
      cases hv
    | some w =>
      rw [hp] at hv
      obtain rfl := Except.ok.inj hv
      exact parse_quoted hp
  dsimp only
  split
  · exact settled_failure _
  · exact settled_ok _

theorem flightText_settled (groups : List JsString) : Settled (flightText m groups) := by
  have hfrom : ∀flight,Settled (groups.foldlM (appendPush m) flight) := by
    induction groups with
    | nil => exact settled_ok
    | cons g gs ih =>
      intro flight
      rw [foldlM_cons]
      exact settled_bind (appendPush_settled m flight g) fun s _ => ih s
  exact hfrom []

theorem decodeFlightPayload_settled (html : JsString) :
    ∃r,decodeFlightPayload m html=some r ∧ Settled r := by
  rw [decodeFlightPayload]
  rcases flightText_settled m (pushes html) with ⟨flight,hflight⟩ | ⟨message,hflight⟩
  · rw [hflight]
    dsimp only
    split
    · exact ⟨_,rfl,settled_failure _⟩
    · exact flightLoop_settled m le_rfl []
  · rw [hflight]
    exact ⟨_,rfl,.inr ⟨message,rfl⟩⟩

/-- Written rows in the push scripts of a page give their values in order, and every page settles. -/
theorem flight_decoding :
    (∀(rows : FlightRows) (page : FlightPage),rows.rows≠[] → page.flight=writtenRows rows.rows →
      page.flight.length ≤ maximumFlightCharacters → rows.rows.length ≤ maximumChunks →
      decodeFlightPayload m page.html=some (.ok (rowValues rows.rows))) ∧
    ∀html,∃r,decodeFlightPayload m html=some r ∧ Settled r := by
  refine ⟨?_,decodeFlightPayload_settled m⟩
  intro rows page hne hflight hlength hbound
  have hempty : page.flight.isEmpty=false := by
    obtain ⟨r,rs,hr⟩ := exists_cons_of_ne_nil hne
    rw [hflight,hr,rows_cons]
    simp
  have hfuel : rows.rows.length ≤ page.flight.length := by
    rw [hflight]
    exact rows_length rows.rows
  have hloop := flightLoop_rows m rows.hex [] (by simpa [rowValues,Function.comp_def] using rows.distinct)
    (by simpa using hbound) (by rw [←hflight]; unfold maximumFlightCharacters at hlength; omega) hfuel
  rw [decodeFlightPayload,flightText_page m page hlength]
  simp only [hempty,Bool.false_eq_true,if_false]
  rw [hflight] at hloop ⊢
  exact hloop

section Example

/-- A text row with U+1F600 and an end of line. -/
def smileRows : FlightRows where
  rows := [([49],.text [0xd83d,0xde00,10])]
  hex := by decide
  distinct := by decide

/-- The row in two scripts that part the pair. -/
def smilePage : FlightPage where
  scripts := [
    { before := [60]
      literal := [49,58,84,53,44,0xd83d]
      piece := [49,58,84,53,44,0xd83d]
      plain := by decide
      denotes := by
        repeat' first
          | exact .done
          | refine .unit (by decide) (by decide) (by decide) ?_ },
    { before := []
      literal := [0xde00,92,110]
      piece := [0xde00,10]
      plain := by decide
      denotes := .unit (by decide) (by decide) (by decide) (.escape (by decide) .done) }]
  rest := []
  plain := by decide

theorem flight_decoding_smile : decodeFlightPayload (fun t => t) smilePage.html=
      some (.ok [([49],.str [0xd83d,0xde00,10])]) :=
  (flight_decoding fun t => t).1 smileRows smilePage (by decide) (by decide) (by decide) (by decide)

def emptyRows : FlightRows where
  rows := []
  hex := by simp
  distinct := nodup_nil

/-- A page with one script for no rows. -/
def emptyPage : FlightPage where
  scripts := [{ before := [], literal := [], piece := [], plain := by decide, denotes := .done }]
  rest := []
  plain := by decide

/-- No rows are refused as no payload. -/
theorem flight_decoding_empty : emptyPage.flight=writtenRows emptyRows.rows ∧
    decodeFlightPayload (fun t => t) emptyPage.html≠some (.ok (rowValues emptyRows.rows)) := by
  have htext := flightText_page (fun t => t) emptyPage (by decide)
  refine ⟨rfl,?_⟩
  rw [decodeFlightPayload,htext]
  intro h
  cases h

end Example
end CardKeepr.Adapters
