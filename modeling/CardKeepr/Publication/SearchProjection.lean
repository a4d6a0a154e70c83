import CardKeepr.Read.CardSearch
import CardKeepr.Lib.Fallible

namespace CardKeepr.Publication.Preparation
open Shared Read Lib

/-- The codes of a `PublicationIntegrityError`. -/
inductive Failure
  | publication_text_corrupt
  | publication_capacity_exceeded

/-- A text field of a card record: in the record's value, or as a text part whose rows are the
`first` and `more`. -/
inductive CardField
  | inline (value : Option JsString)
  | part (first : JsString) (more : List JsString)

/-- The values at `paths`. -/
structure PreparedCard where
  official_identity : CardField
  name : CardField
  effective_rules_text : CardField

def PreparedCard.fields (card : PreparedCard) : List CardField :=
  [card.official_identity,card.name,card.effective_rules_text]

structure Cursor where
  text : Nat
  chunk : Nat
  search_offset : Option Nat
  search_ordinal : Option Nat

def Cursor.start : Cursor := ⟨0,0,none,none⟩

def orCorrupt : Option JsString → Except Failure JsString
  | none => .error .publication_text_corrupt
  | some text => .ok text

/-- `[...prior.content].slice(-maximumNormalizedSearchQueryCodePoints).join("")` -/
def overlap (prior : JsString) : JsString :=
  ((points prior).drop ((points prior).length-maximumNormalizedSearchQueryCodePoints)).flatten

def CardField.sourceText : CardField → Nat → Except Failure JsString
  | .inline value,_ => .ok (value.getD [])
  | .part first more,chunk => do
    let source ← orCorrupt (first::more)[chunk]?
    if chunk > 0 then
      let prior ← orCorrupt (first::more)[chunk-1]?
      .ok (overlap prior++source)
    else .ok source

/-- `!part || chunk === part.chunks` -/
def CardField.finished : CardField → Nat → Bool
  | .inline _,_ => true
  | .part first more,chunk => chunk==(first::more).length

/-- One unit of the search projection; `none` once the three fields are done. -/
def searchUnit (normalize : JsString → JsString) (card : PreparedCard) (cursor : Cursor) :
    Except Failure (Option (CardSearchChunk×Cursor)) :=
  match card.fields[cursor.text]? with
  | none => .ok none
  | some field => do
    let text ← field.sourceText cursor.chunk
    let points := points (normalize text)
    if points.length > 768000 then .error .publication_capacity_exceeded
    else
      let offset := cursor.search_offset.getD 0
      let ordinal := cursor.search_ordinal.getD 0
      let row := ⟨cursor.text,ordinal,((points.drop offset).take maximumSearchChunkCodePoints).flatten⟩
      .ok (some (row,
        if offset+maximumSearchChunkCodePoints ≥ points.length then
          if field.finished (cursor.chunk+1) then ⟨cursor.text+1,0,some 0,some 0⟩
          else ⟨cursor.text,cursor.chunk+1,some 0,some (ordinal+1)⟩
        else ⟨cursor.text,cursor.chunk,some (offset+searchChunkStride),some (ordinal+1)⟩))

/-- `n` units in a row: the rows they retain and the cursor they leave. -/
def searchUnits (normalize : JsString → JsString) (card : PreparedCard) :
    Nat → Cursor → Except Failure (List CardSearchChunk×Cursor)
  | 0,cursor => .ok ([],cursor)
  | n+1,cursor => do
    match ← searchUnit normalize card cursor with
    | none => .ok ([],cursor)
    | some (row,next) =>
      let (rows,last) ← searchUnits normalize card n next
      .ok (row::rows,last)

def CardField.whole : CardField → JsString
  | .inline value => value.getD []
  | .part first more => (first::more).flatten

def overlapped : JsString → List JsString → List JsString
  | _,[] => []
  | prior,source::more => (overlap prior++source)::overlapped source more

/-- The texts of a field that are normalized each on its own. -/
def CardField.views : CardField → List JsString
  | .inline value => [value.getD []]
  | .part first more => first::overlapped first more

/-- The rows of one view. -/
def windows (field : Nat) (ps : List JsString) (offset ordinal : Nat) : List CardSearchChunk :=
  if offset+maximumSearchChunkCodePoints ≥ ps.length then
    [⟨field,ordinal,((ps.drop offset).take maximumSearchChunkCodePoints).flatten⟩]
  else
    ⟨field,ordinal,((ps.drop offset).take maximumSearchChunkCodePoints).flatten⟩::
      windows field ps (offset+searchChunkStride) (ordinal+1)
  termination_by ps.length-offset
  decreasing_by
    have hs : searchChunkStride ≤ maximumSearchChunkCodePoints ∧ 0 < searchChunkStride := by decide
    omega

def viewRows (normalize : JsString → JsString) (field : Nat) :
    List JsString → Nat → List CardSearchChunk
  | [],_ => []
  | view::views,ordinal =>
    windows field (points (normalize view)) 0 ordinal++viewRows normalize field views
      (ordinal+(windows field (points (normalize view)) 0 ordinal).length)

/-- What the units of a field retain. -/
def fieldRows (normalize : JsString → JsString) (field : CardField) (f : Nat) :
    List CardSearchChunk :=
  viewRows normalize f field.views 0

/-- The rows of a card, field by field. -/
def cardRows (normalize : JsString → JsString) (card : PreparedCard) : List CardSearchChunk :=
  fieldRows normalize card.official_identity 0++(fieldRows normalize card.name 1++
    fieldRows normalize card.effective_rules_text 2)

/-- Every view stays within the limit of one field. -/
def Fits (normalize : JsString → JsString) (field : CardField) : Prop :=
  ∀view∈field.views,(points (normalize view)).length ≤ 768000

/-- A query of the search interface: normalized, of 1 to 9216 code points. -/
structure Query (normalize : JsString → JsString) (query : JsString) : Prop where
  normalized : normalize query=query
  nonempty : 1 ≤ (points query).length
  bounded : (points query).length ≤ maximumNormalizedSearchQueryCodePoints

/-- Behind the row, each further one normalizes by itself: neither the start of an overlap nor the
edge behind it separates what normalizes together, and no overlap shrinks. -/
def Chained (normalize : JsString → JsString) : JsString → List JsString → Prop
  | _,[] => True
  | prior,source::more =>
    points (normalize (overlap prior)) <:+ points (normalize prior) ∧
    points (normalize (overlap prior++source))=
      points (normalize (overlap prior))++points (normalize source) ∧
    maximumNormalizedSearchQueryCodePoints ≤ (points (normalize (overlap prior))).length+1 ∧
    Chained normalize source more

/-- The rows of the field normalize one by one. -/
def RowByRow (normalize : JsString → JsString) : CardField → Prop
  | .inline _ => True
  | .part first more =>
    points (normalize (first::more).flatten)=
      ((first::more).map fun row => points (normalize row)).flatten ∧
    Chained normalize first more

/-- The units come to an end, with the rows as they should be. -/
def Covered (normalize : JsString → JsString) (card : PreparedCard) : Prop :=
  ∃n rows last,searchUnits normalize card n .start=.ok (rows,last) ∧
    searchUnit normalize card last=.ok none ∧
    ∀f field,card.fields[f]?=some field →
      (∃count,(rows.filter fun r => r.field==f).map CardSearchChunk.ordinal=List.range count) ∧
      (∀r∈rows,(points r.text).length ≤ maximumSearchChunkCodePoints) ∧
      ∀query,Query normalize query →
        (query <:+: normalize field.whole ↔ ∃r∈rows,r.field=f ∧ query <:+: r.text)

end CardKeepr.Publication.Preparation
