import CardKeepr.Shared.JsString

namespace CardKeepr.Lib

variable {σ α β : Type} (step : σ → α → σ×Option β)

def scan (s : σ) : List α → σ×Option β
  | [] => (s,none)
  | a::as =>
    match step s a with
    | (t,some b) => (t,some b)
    | (t,none) => scan t as

variable {step} {s t : σ} {a : α} {b : β} {as bs : List α}

theorem scan_next (h : step s a=(t,none)) : scan step s (a::as)=scan step t as := by
  rw [scan,h]

theorem scan_found (h : step s a=(t,some b)) : scan step s (a::as)=(t,some b) := by
  rw [scan,h]

theorem scan_append_none (h : scan step s as=(t,none)) : scan step s (as++bs)=scan step t bs := by
  induction as generalizing s with
  | nil =>
    obtain ⟨rfl,-⟩ := Prod.mk.inj h
    rfl
  | cons a as ih =>
    rcases hs : step s a with ⟨u,_ | r⟩
    · rw [scan_next hs] at h
      rw [List.cons_append,scan_next hs,ih h]
    · rw [scan_found hs] at h
      cases h

theorem scan_append_some (h : scan step s as=(t,some b)) : scan step s (as++bs)=(t,some b) := by
  induction as generalizing s with
  | nil => cases h
  | cons a as ih =>
    rcases hs : step s a with ⟨u,_ | r⟩
    · rw [scan_next hs] at h
      rw [List.cons_append,scan_next hs,ih h]
    · rw [scan_found hs] at h
      rw [List.cons_append,scan_found hs,h]

theorem scan_rest (h : ∀a,step s a=(s,none)) : scan step s as=(s,none) := by
  induction as with
  | nil => rfl
  | cons a as ih => rw [scan_next (h a),ih]

end CardKeepr.Lib

namespace CardKeepr.Reconciliation
open Shared Lib

structure Dimensions where
  width : Nat
  height : Nat
  deriving DecidableEq

def byteAt (bytes : List UInt8) (offset : Nat) : Nat := (bytes.getD offset 0).toNat

def getUint16 (bytes : List UInt8) (offset : Nat) : Nat :=
  byteAt bytes offset*0x100+byteAt bytes (offset+1)

def getUint16le (bytes : List UInt8) (offset : Nat) : Nat :=
  byteAt bytes (offset+1)*0x100+byteAt bytes offset

def getUint32 (bytes : List UInt8) (offset : Nat) : Nat :=
  getUint16 bytes offset*0x10000+getUint16 bytes (offset+2)

def getUint32le (bytes : List UInt8) (offset : Nat) : Nat :=
  getUint16le bytes (offset+2)*0x10000+getUint16le bytes offset

def uint24le (bytes : List UInt8) (offset : Nat) : Nat :=
  byteAt bytes offset ||| byteAt bytes (offset+1)<<<8 ||| byteAt bytes (offset+2)<<<16

/-- `text(bytes, start, end) === value`. -/
def textIs (bytes : List UInt8) (start : Nat) (value : List Char) : Bool :=
  ((bytes.drop start).take value.length).map UInt8.toNat==value.map Char.toNat

/-- `jpegDimensions()`, with the part of `header` that is used. -/
structure JpegReader where
  header : List UInt8
  initial : Bool
  skip : Nat
  invalid : Bool
  frame : Bool
  deriving DecidableEq

def jpegDimensions : JpegReader := ⟨[],true,0,false,false⟩

def isFrame (marker : UInt8) : Bool :=
  decide (0xc0 ≤ marker.toNat ∧ marker.toNat ≤ 0xcf) && marker != 0xc4 && marker != 0xc8 &&
    marker != 0xcc

/-- What the loop does with a byte that is not skipped. -/
def JpegReader.take (j : JpegReader) (byte : UInt8) : JpegReader×Option Dimensions :=
  if !j.initial && decide (j.header.length=0) && byte != 0xff then (j,none)
  else
    let header := j.header++[byte]
    if j.initial && decide (header.length=2) then
      if header.getD 0 0≠0xff ∨ header.getD 1 0≠0xd8
      then ({ j with header := header, invalid := true },none)
      else ({ j with header := [], initial := false },none)
    else if !j.initial && decide (header.length=4) then
      let marker := header.getD 1 0
      if isFrame marker then ({ j with header := header, frame := true },none)
      else
        let length := byteAt header 2<<<8 ||| byteAt header 3
        if length < 2 then ({ j with header := header, frame := false, invalid := true },none)
        else ({ j with header := [], frame := false, skip := length-2 },none)
    else if j.frame && decide (header.length=9) then
      ({ j with header := header },some ⟨getUint16 header 7,getUint16 header 5⟩)
    else ({ j with header := header },none)

/-- The loop over the bytes of a chunk, which jumps over what it skips. -/
def JpegReader.loop (j : JpegReader) (bytes : List UInt8) : JpegReader×Option Dimensions :=
  match bytes with
  | [] => (j,none)
  | byte::bs =>
    if 0 < j.skip then
      let skipped := min j.skip (byte::bs).length
      JpegReader.loop { j with skip := j.skip-skipped } ((byte::bs).drop skipped)
    else
      match j.take byte with
      | (j,some dimensions) => (j,some dimensions)
      | (j,none) => if j.invalid then (j,none) else JpegReader.loop j bs
  termination_by bytes.length
  decreasing_by
  · simp only [List.length_drop,List.length_cons]
    omega
  · simp

def JpegReader.write (j : JpegReader) (bytes : List UInt8) : JpegReader×Option Dimensions :=
  if j.invalid then (j,none) else j.loop bytes

/-- `avifDimensions()`. -/
structure AvifReader where
  window : List UInt8
  seen : Nat

def avifDimensions : AvifReader := ⟨List.replicate 16 0,0⟩

def AvifReader.at (v : AvifReader) (offset : Nat) : Nat := byteAt v.window ((v.seen+offset)%16)

def AvifReader.uint32 (v : AvifReader) (offset : Nat) : Nat :=
  v.at offset<<<24 ||| v.at (offset+1)<<<16 ||| v.at (offset+2)<<<8 ||| v.at (offset+3)

def AvifReader.take (v : AvifReader) (byte : UInt8) : AvifReader×Option Dimensions :=
  let v : AvifReader := ⟨v.window.set (v.seen%16) byte,v.seen+1⟩
  if 20 ≤ v.seen ∧ v.at 0=0x69 ∧ v.at 1=0x73 ∧ v.at 2=0x70 ∧ v.at 3=0x65
  then (v,some ⟨v.uint32 8,v.uint32 12⟩) else (v,none)

def AvifReader.write (v : AvifReader) (bytes : List UInt8) : AvifReader×Option Dimensions :=
  scan AvifReader.take v bytes

/-- `printingImageDimensions(mediaType)`, with the part of `header` that is used. -/
structure ImageReader where
  header : List UInt8
  dimensions : Option Dimensions
  jpeg : JpegReader
  avif : AvifReader

def printingImageDimensions : ImageReader := ⟨[],none,jpegDimensions,avifDimensions⟩

def isJpeg (mediaType : JsString) : Bool :=
  mediaType==js "image/jpeg".toList || mediaType==js "image/jpg".toList

/-- What the header window tells of a PNG, a GIF and a WebP image. -/
def headerDimensions (mediaType : JsString) (header : List UInt8) : Option Dimensions :=
  if mediaType=js "image/png".toList ∧ 24 ≤ header.length ∧ byteAt header 0=0x89 ∧
      byteAt header 1=0x50 ∧ byteAt header 2=0x4e ∧ byteAt header 3=0x47
  then some ⟨getUint32 header 16,getUint32 header 20⟩
  else if mediaType=js "image/gif".toList ∧ 10 ≤ header.length ∧ textIs header 0 "GIF".toList
  then some ⟨getUint16le header 6,getUint16le header 8⟩
  else if mediaType=js "image/webp".toList ∧ 30 ≤ header.length ∧ textIs header 0 "RIFF".toList ∧
      textIs header 8 "WEBP".toList
  then
    if textIs header 12 "VP8X".toList then some ⟨1+uint24le header 24,1+uint24le header 27⟩
    else if textIs header 12 "VP8 ".toList
    then some ⟨getUint16le header 26 &&& 0x3fff,getUint16le header 28 &&& 0x3fff⟩
    else if textIs header 12 "VP8L".toList ∧ byteAt header 20=0x2f
    then some ⟨1+(getUint32le header 21 &&& 0x3fff),1+(getUint32le header 21>>>14 &&& 0x3fff)⟩
    else none
  else none

def ImageReader.write (mediaType : JsString) (r : ImageReader) (bytes : List UInt8) :
    ImageReader :=
  if r.dimensions.isSome then r
  else
    let header := r.header++bytes.take (30-r.header.length)
    let jpeg := if isJpeg mediaType then r.jpeg.write bytes else (r.jpeg,none)
    let avif :=
      if mediaType=js "image/avif".toList then r.avif.write bytes else (r.avif,jpeg.2)
    ⟨header,(headerDimensions mediaType header).or avif.2,jpeg.1,avif.1⟩

def ImageReader.read (r : ImageReader) : Except String Dimensions :=
  match r.dimensions with
  | some dimensions => .ok dimensions
  | none => .error "Retained Printing Image dimensions are unsupported."

/-- The chunks of an image written one after the other, and then the dimensions read. -/
def imageDimensions (mediaType : JsString) (chunks : List (List UInt8)) :
    Except String Dimensions :=
  (chunks.foldl (ImageReader.write mediaType) printingImageDimensions).read

end CardKeepr.Reconciliation
