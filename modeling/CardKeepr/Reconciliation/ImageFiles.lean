import CardKeepr.Reconciliation.ImageExactness

namespace CardKeepr.Reconciliation
open Shared Lib List

def be16 (n : UInt16) : List UInt8 := [UInt8.ofNat (n.toNat/0x100),UInt8.ofNat (n.toNat%0x100)]

def be32 (n : UInt32) : List UInt8 :=
  [UInt8.ofNat (n.toNat/0x1000000),UInt8.ofNat (n.toNat/0x10000%0x100),
    UInt8.ofNat (n.toNat/0x100%0x100),UInt8.ofNat (n.toNat%0x100)]

/-- The signature, the length and type of `IHDR` and its first two fields, before the rest. -/
structure PngFile where
  width : UInt32
  height : UInt32
  rest : List UInt8

def PngFile.bytes (p : PngFile) : List UInt8 :=
  [0x89,0x50,0x4e,0x47,0x0d,0x0a,0x1a,0x0a,0,0,0,13,0x49,0x48,0x44,0x52]++be32 p.width++
    be32 p.height++p.rest

def markerBytes (fill : Nat) (marker : UInt8) : List UInt8 :=
  List.replicate fill 0xff++[0xff,marker]

/-- The markers that carry a length and may stand before the frame: neither a frame nor a marker
that stands alone nor the start of a scan. -/
def isSkipped (marker : UInt8) : Bool :=
  decide (0xc0 ≤ marker.toNat ∧ marker.toNat < 0xff) && !isFrame marker &&
    !decide (0xd0 ≤ marker.toNat ∧ marker.toNat ≤ 0xda)

structure Segment where
  fill : Nat
  marker : UInt8
  data : List UInt8
  skipped : isSkipped marker=true
  short : data.length+2 < 0x10000

def Segment.bytes (s : Segment) : List UInt8 :=
  markerBytes s.fill s.marker++be16 (UInt16.ofNat (s.data.length+2))++s.data

/-- A JPEG file up to the dimensions of its first frame, before the rest. -/
structure JpegFile where
  fill : Nat
  segments : List Segment
  frameFill : Nat
  frameMarker : UInt8
  frame : isFrame frameMarker=true
  frameLength : UInt16
  precision : UInt8
  height : UInt16
  width : UInt16
  rest : List UInt8

def JpegFile.frameBytes (f : JpegFile) : List UInt8 :=
  markerBytes f.frameFill f.frameMarker++be16 f.frameLength++[f.precision]++be16 f.height++
    be16 f.width++f.rest

def JpegFile.bytes (f : JpegFile) : List UInt8 :=
  markerBytes f.fill 0xd8++f.segments.flatMap Segment.bytes++f.frameBytes

/-- No marker up to the frame has a fill byte before it. -/
def JpegFile.NoFill (f : JpegFile) : Prop :=
  f.fill=0 ∧ (∀s∈f.segments,s.fill=0) ∧ f.frameFill=0

theorem ofNat_toNat {n : Nat} (h : n < 0x100) : (UInt8.ofNat n).toNat=n := by
  rw [UInt8.toNat_ofNat']
  omega

def unsupported : Except String Dimensions :=
  .error "Retained Printing Image dimensions are unsupported."

theorem png_exact (p : PngFile) :
    imageDimensions (js "image/png".toList) [p.bytes]=.ok ⟨p.width.toNat,p.height.toNat⟩ := by
  have hw := p.width.toNat_lt
  have hh := p.height.toNat_lt
  have hheader : ∃more,p.bytes.take 30=([0x89,0x50,0x4e,0x47,0x0d,0x0a,0x1a,0x0a,0,0,0,13,0x49,
      0x48,0x44,0x52]++be32 p.width++be32 p.height)++more := ⟨p.rest.take 6,rfl⟩
  obtain ⟨more,hmore⟩ := hheader
  have hd : headerDimensions (js "image/png".toList) (p.bytes.take 30)=
      some ⟨p.width.toNat,p.height.toNat⟩ := by
    rw [hmore]
    apply headerDimensions_mono
    rw [headerDimensions,if_pos ⟨rfl,by simp [be32],rfl,rfl,rfl,rfl⟩]
    congr 2
    · simp only [getUint32,getUint16,byteAt,be32,cons_append,nil_append,
        getD_cons_succ,getD_cons_zero]
      rw [ofNat_toNat (by omega),ofNat_toNat (by omega),ofNat_toNat (by omega),
        ofNat_toNat (by omega)]
      omega
    · simp only [getUint32,getUint16,byteAt,be32,cons_append,nil_append,
        getD_cons_succ,getD_cons_zero]
      rw [ofNat_toNat (by omega),ofNat_toNat (by omega),ofNat_toNat (by omega),
        ofNat_toNat (by omega)]
      omega
  have hwrite : (printingImageDimensions.write (js "image/png".toList) p.bytes).dimensions=
      some ⟨p.width.toNat,p.height.toNat⟩ := by
    rw [ImageReader.write,if_neg (by simp [printingImageDimensions])]
    dsimp only [printingImageDimensions]
    rw [nil_append,length_nil,hd,Option.some_or]
  rw [imageDimensions,foldl_cons,foldl_nil,ImageReader.read,hwrite]

def ready : JpegReader := ⟨[],false,0,false,false⟩

theorem jpeg_read {mediaType : JsString} (h : isJpeg mediaType=true) (bytes : List UInt8) :
    imageDimensions mediaType [bytes]=match (scan JpegReader.step jpegDimensions bytes).2 with
      | some d => .ok d
      | none => unsupported := by
  have ha : ¬mediaType=js "image/avif".toList := by
    rintro rfl
    exact absurd h (by decide)
  rw [imageDimensions,foldl_cons,foldl_nil,ImageReader.read,ImageReader.write,
    if_neg (by simp [printingImageDimensions])]
  cases hd : (scan JpegReader.step jpegDimensions bytes).2 <;>
    simp only [h,if_true,ha,if_false,headerDimensions_other (.inl h),Option.none_or,jpeg_write,
      printingImageDimensions,unsupported,hd]

section
variable {rest : List UInt8}
variable {m : UInt8}

theorem scan_start : scan JpegReader.step jpegDimensions (0xff::0xd8::rest)=
    scan JpegReader.step ready rest := by
  rw [scan_next (t := ⟨[0xff],true,0,false,false⟩) (by decide),scan_next (t := ready) (by decide)]

theorem scan_start_filled : scan JpegReader.step jpegDimensions (0xff::0xff::rest)=
    (⟨[0xff,0xff],true,0,true,false⟩,none) := by
  rw [scan_next (t := ⟨[0xff],true,0,false,false⟩) (by decide),
    scan_next (t := ⟨[0xff,0xff],true,0,true,false⟩) (by decide),jpeg_invalid rfl]

theorem two_bytes (x y : UInt8) : (x.toNat<<<8 ||| y.toNat)=x.toNat*0x100+y.toNat := by
  have hy : y.toNat < 2^8 := y.toNat_lt
  rw [←Nat.shiftLeft_add_eq_or_of_lt hy,Nat.shiftLeft_eq]

theorem step_ready {header : List UInt8} {frame : Bool} (byte : UInt8) :
    JpegReader.step ⟨header,false,0,false,frame⟩ byte=
      JpegReader.take ⟨header,false,0,false,frame⟩ byte := rfl

theorem scan_marker (m x : UInt8) : scan JpegReader.step ready (0xff::m::x::rest)=
    scan JpegReader.step ⟨[0xff,m,x],false,0,false,false⟩ rest := by
  have h1 : ready.step 0xff=(⟨[0xff],false,0,false,false⟩,none) := rfl
  have h2 : JpegReader.step ⟨[0xff],false,0,false,false⟩ m=
      (⟨[0xff,m],false,0,false,false⟩,none) := rfl
  have h3 : JpegReader.step ⟨[0xff,m],false,0,false,false⟩ x=
      (⟨[0xff,m,x],false,0,false,false⟩,none) := rfl
  rw [scan_next h1,scan_next h2,scan_next h3]

theorem scan_length {x y : UInt8} (hm : isFrame m=false) (h : 2 ≤ x.toNat*0x100+y.toNat) :
    scan JpegReader.step ready (0xff::m::x::y::rest)=
      scan JpegReader.step ⟨[],false,x.toNat*0x100+y.toNat-2,false,false⟩ rest := by
  rw [scan_marker,scan_next]
  rw [step_ready,JpegReader.take,if_neg (by simp)]
  simp only [Bool.false_and,Bool.false_eq_true,if_false,Bool.not_false,Bool.true_and,
    cons_append,nil_append,length_cons,length_nil,decide_true,if_true,
    getD_cons_succ,getD_cons_zero,hm,byteAt,two_bytes]
  rw [if_neg (by omega)]

theorem scan_frame {a b c d e f g : UInt8} (hm : isFrame m=true) :
    (scan JpegReader.step ready (0xff::m::a::b::c::d::e::f::g::rest)).2=
      some ⟨f.toNat*0x100+g.toNat,d.toNat*0x100+e.toNat⟩ := by
  have h4 : JpegReader.step ⟨[0xff,m,a],false,0,false,false⟩ b=
      (⟨[0xff,m,a,b],false,0,false,true⟩,none) := by
    rw [step_ready,JpegReader.take,if_neg (by simp)]
    simp only [Bool.false_and,Bool.false_eq_true,if_false,Bool.not_false,Bool.true_and,
      cons_append,nil_append,length_cons,length_nil,decide_true,if_true,
      getD_cons_succ,getD_cons_zero,hm]
  have h5 : JpegReader.step ⟨[0xff,m,a,b],false,0,false,true⟩ c=
      (⟨[0xff,m,a,b,c],false,0,false,true⟩,none) := rfl
  have h6 : JpegReader.step ⟨[0xff,m,a,b,c],false,0,false,true⟩ d=
      (⟨[0xff,m,a,b,c,d],false,0,false,true⟩,none) := rfl
  have h7 : JpegReader.step ⟨[0xff,m,a,b,c,d],false,0,false,true⟩ e=
      (⟨[0xff,m,a,b,c,d,e],false,0,false,true⟩,none) := rfl
  have h8 : JpegReader.step ⟨[0xff,m,a,b,c,d,e],false,0,false,true⟩ f=
      (⟨[0xff,m,a,b,c,d,e,f],false,0,false,true⟩,none) := rfl
  have h9 : JpegReader.step ⟨[0xff,m,a,b,c,d,e,f],false,0,false,true⟩ g=
      (⟨[0xff,m,a,b,c,d,e,f,g],false,0,false,true⟩,
        some ⟨f.toNat*0x100+g.toNat,d.toNat*0x100+e.toNat⟩) := rfl
  rw [scan_marker,scan_next h4,scan_next h5,scan_next h6,scan_next h7,scan_next h8,scan_found h9]

theorem scan_all_skipped {j : JpegReader} (hi : j.invalid=false) (h : rest.length ≤ j.skip) :
    (scan JpegReader.step j rest).2=none := by
  rw [jpeg_skip hi h (Nat.le_refl _),drop_length]
  rfl

theorem scan_filled (h : ∀x∈rest.head?,0xc0 ≤ x.toNat) (hlen : rest.length ≤ 0xc000) :
    (scan JpegReader.step ready (0xff::0xff::rest)).2=none := by
  match rest,h,hlen with
  | [],_,_ => rfl
  | [x],_,_ => rw [scan_marker]; rfl
  | x::y::rest,h,hlen =>
    have hx := h x rfl
    rw [scan_length (by decide) (by omega)]
    apply scan_all_skipped rfl
    simp only [length_cons] at hlen ⊢
    omega

theorem skipped_marker (h : isSkipped m=true) : 0xc0 ≤ m.toNat ∧ isFrame m=false := by
  simp only [isSkipped,Bool.and_eq_true,decide_eq_true_eq,Bool.not_eq_true'] at h
  exact ⟨h.1.1.1,h.1.2⟩

theorem frame_marker (h : isFrame m=true) : 0xc0 ≤ m.toNat := by
  simp only [isFrame,Bool.and_eq_true,decide_eq_true_eq] at h
  exact h.1.1.1.1

theorem scan_segment {s : Segment} (h : s.fill=0) :
    scan JpegReader.step ready (s.bytes++rest)=scan JpegReader.step ready rest := by
  have hshort := s.short
  have hn : (UInt16.ofNat (s.data.length+2)).toNat=s.data.length+2 := by
    rw [UInt16.toNat_ofNat']
    omega
  have hlen : (UInt8.ofNat ((s.data.length+2)/0x100)).toNat*0x100+
      (UInt8.ofNat ((s.data.length+2)%0x100)).toNat=s.data.length+2 := by
    rw [ofNat_toNat (by omega),ofNat_toNat (by omega)]
    omega
  simp only [Segment.bytes,markerBytes,be16,h,hn,replicate_zero,nil_append,cons_append]
  rw [scan_length (skipped_marker s.skipped).2 (by omega),hlen,Nat.add_sub_cancel]
  rw [jpeg_skip (n := s.data.length) rfl (Nat.le_refl _) (by simp),drop_left]
  simp only [Nat.sub_self]
  rfl

theorem frame_read {f : JpegFile} (h : f.frameFill=0) :
    (scan JpegReader.step ready f.frameBytes).2=some ⟨f.width.toNat,f.height.toNat⟩ := by
  have hw := f.width.toNat_lt
  have hh := f.height.toNat_lt
  simp only [JpegFile.frameBytes,markerBytes,be16,h,replicate_zero,nil_append,cons_append]
  rw [scan_frame f.frame,ofNat_toNat (by omega),ofNat_toNat (by omega),ofNat_toNat (by omega),
    ofNat_toNat (by omega)]
  congr 2 <;> omega

theorem segments_read {segments : List Segment} (h : ∀s∈segments,s.fill=0) : scan JpegReader.step
    ready (segments.flatMap Segment.bytes++rest)= scan JpegReader.step ready rest := by
  induction segments with
  | nil => rfl
  | cons s segments ih =>
    rw [flatMap_cons,append_assoc,scan_segment (h s (by simp)),
      ih fun t ht => h t (by simp [ht])]

theorem marker_filled {fill : Nat} (hm : 0xc0 ≤ m.toNat)
    (hlen : (markerBytes (fill+1) m++rest).length ≤ 0xc000) :
    (scan JpegReader.step ready (markerBytes (fill+1) m++rest)).2=none := by
  have hbytes : markerBytes (fill+1) m++rest=0xff::(List.replicate fill 0xff++0xff::m::rest) := by
    simp [markerBytes,replicate_succ]
  rw [hbytes] at hlen ⊢
  cases fill with
  | zero =>
    simp only [replicate_zero,nil_append,length_cons] at hlen ⊢
    exact scan_filled (by simpa using hm) (by simp only [length_cons]; omega)
  | succ fill =>
    simp only [replicate_succ,cons_append,length_cons] at hlen ⊢
    refine scan_filled ?_ (by omega)
    cases fill <;> simp [replicate_succ]

theorem segments_filled {segments : List Segment} {f : JpegFile}
    (h : ¬((∀s∈segments,s.fill=0) ∧ f.frameFill=0))
    (hlen : (segments.flatMap Segment.bytes++f.frameBytes).length ≤ 0xc000) :
    (scan JpegReader.step ready (segments.flatMap Segment.bytes++f.frameBytes)).2=none := by
  induction segments with
  | nil =>
    obtain ⟨fill,hfill⟩ : ∃fill,f.frameFill=fill+1 :=
      Nat.exists_eq_add_one_of_ne_zero fun h0 => h ⟨by simp,h0⟩
    simp only [flatMap_nil,nil_append,JpegFile.frameBytes,hfill,append_assoc]
      at hlen ⊢
    exact marker_filled (frame_marker f.frame) hlen
  | cons s segments ih =>
    rw [flatMap_cons,append_assoc] at hlen ⊢
    by_cases hs : s.fill=0
    · rw [scan_segment hs]
      apply ih
      · rintro ⟨hall,hf⟩
        exact h ⟨forall_mem_cons.mpr ⟨hs,hall⟩,hf⟩
      · rw [length_append] at hlen
        omega
    · obtain ⟨fill,hfill⟩ := Nat.exists_eq_add_one_of_ne_zero hs
      simp only [Segment.bytes,hfill,append_assoc] at hlen ⊢
      exact marker_filled (skipped_marker s.skipped).1 hlen
end

theorem jpeg_exact {f : JpegFile} (h : f.NoFill) :
    (scan JpegReader.step jpegDimensions f.bytes).2=some ⟨f.width.toNat,f.height.toNat⟩ := by
  obtain ⟨h0,hs,hf⟩ := h
  have hbytes : f.bytes=0xff::0xd8::(f.segments.flatMap Segment.bytes++f.frameBytes) := by
    simp [JpegFile.bytes,markerBytes,h0]
  rw [hbytes,scan_start,segments_read hs,frame_read hf]

theorem jpeg_filled {f : JpegFile} (h : ¬f.NoFill) (hlen : f.bytes.length ≤ 0xc000) :
    (scan JpegReader.step jpegDimensions f.bytes).2=none := by
  by_cases h0 : f.fill=0
  · have hbytes : f.bytes=0xff::0xd8::(f.segments.flatMap Segment.bytes++f.frameBytes) := by
      simp [JpegFile.bytes,markerBytes,h0]
    rw [hbytes] at hlen ⊢
    simp only [length_cons] at hlen
    rw [scan_start]
    exact segments_filled (fun hc => h ⟨h0,hc⟩) (by omega)
  · obtain ⟨fill,hfill⟩ := Nat.exists_eq_add_one_of_ne_zero h0
    have hbytes : ∃rest,f.bytes=0xff::0xff::rest := by
      simp only [JpegFile.bytes,markerBytes,hfill,replicate_succ,cons_append]
      cases fill with
      | zero => exact ⟨_,rfl⟩
      | succ fill => exact ⟨_,rfl⟩
    obtain ⟨rest,hrest⟩ := hbytes
    rw [hrest,scan_start_filled]

/-- However an image is cut, the same dimensions are read. They are those of a PNG, and of a JPEG
whose markers have no fill bytes; a fill byte in a JPEG of up to 48 KiB hides its dimensions. -/
theorem imageDimensions_exact (mediaType : JsString) (chunks : List (List UInt8)) :
    imageDimensions mediaType chunks=imageDimensions mediaType [chunks.flatten] ∧
    (∀p : PngFile,chunks.flatten=p.bytes →
      imageDimensions (js "image/png".toList) chunks=.ok ⟨p.width.toNat,p.height.toNat⟩) ∧
    ∀f : JpegFile,isJpeg mediaType=true → chunks.flatten=f.bytes →
      (f.NoFill → imageDimensions mediaType chunks=.ok ⟨f.width.toNat,f.height.toNat⟩) ∧
      (f.bytes.length ≤ 0xc000 →
        (imageDimensions mediaType chunks=.ok ⟨f.width.toNat,f.height.toNat⟩ ↔ f.NoFill)) := by
  refine ⟨imageDimensions_flatten mediaType chunks,fun p hp => ?_,fun f hm hf => ?_⟩
  · rw [imageDimensions_flatten,hp,png_exact]
  · have hright (h : f.NoFill) :
        imageDimensions mediaType chunks=.ok ⟨f.width.toNat,f.height.toNat⟩ := by
      rw [imageDimensions_flatten,hf,jpeg_read hm,jpeg_exact h]
    refine ⟨hright,fun hlen => ⟨fun h => ?_,hright⟩⟩
    by_contra hfill
    rw [imageDimensions_flatten,hf,jpeg_read hm,jpeg_filled hfill hlen] at h
    cases h

/-- The components, two Huffman tables, the scan and the end of the image. -/
def onePixelRest : List UInt8 :=
  [1,1,0x11,0]++
    ([0xff,0xc4,0,20,0,1]++List.replicate 15 0++[0])++
    ([0xff,0xc4,0,20,0x10,1]++List.replicate 15 0++[0])++
    [0xff,0xda,0,8,1,1,0,0,0x3f,0,0x3f,0xff,0xd9]

def onePixel (frameFill : Nat) : JpegFile where
  fill := 0
  segments := [⟨0,0xdb,0::List.replicate 64 1,by decide,by decide⟩]
  frameFill := frameFill
  frameMarker := 0xc0
  frame := by decide
  frameLength := 11
  precision := 8
  height := 1
  width := 1
  rest := onePixelRest

theorem onePixel_read :
    imageDimensions (js "image/jpeg".toList) [[0xff],(onePixel 0).bytes.tail]=.ok ⟨1,1⟩ :=
  ((imageDimensions_exact (js "image/jpeg".toList) [[0xff],(onePixel 0).bytes.tail]).2.2 (onePixel 0)
    (by decide) (by decide)).1 ⟨rfl,by decide,rfl⟩

theorem filled_onePixel_unread :
    imageDimensions (js "image/jpeg".toList) [(onePixel 1).bytes]≠
      .ok ⟨(onePixel 1).width.toNat,(onePixel 1).height.toNat⟩ := by
  have hfilled : ¬(onePixel 1).NoFill := fun h => absurd h.2.2 (by decide)
  have hlen : (onePixel 1).bytes.length=142 := by decide +kernel
  rw [jpeg_read (by decide),jpeg_filled hfilled (by omega)]
  simp [unsupported]

end CardKeepr.Reconciliation
