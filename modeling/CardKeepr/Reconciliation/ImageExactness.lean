import CardKeepr.Reconciliation.ImageDimensions
import Mathlib.Data.List.Induction

namespace CardKeepr.Reconciliation
open Shared Lib List

/-- The loop of a JPEG reader, one byte at a time. -/
def JpegReader.step (j : JpegReader) (byte : UInt8) : JpegReader×Option Dimensions :=
  if j.invalid then (j,none)
  else if 0 < j.skip then ({ j with skip := j.skip-1 },none)
  else j.take byte

variable {j : JpegReader}

theorem jpeg_invalid (h : j.invalid=true) (bytes : List UInt8) :
    scan JpegReader.step j bytes=(j,none) :=
  scan_rest fun byte => by rw [JpegReader.step,if_pos h]

theorem jpeg_skip {n : Nat} (hi : j.invalid=false) (hs : n ≤ j.skip)
    {bytes : List UInt8} (hb : n ≤ bytes.length) :
    scan JpegReader.step j bytes=
      scan JpegReader.step { j with skip := j.skip-n } (bytes.drop n) := by
  induction n generalizing j bytes with
  | zero => rfl
  | succ n ih =>
    obtain ⟨byte,bs,rfl⟩ := exists_cons_of_length_pos (by omega : 0 < bytes.length)
    have hstep : j.step byte=({ j with skip := j.skip-1 },none) := by
      rw [JpegReader.step,hi,if_neg (by simp),if_pos (by omega)]
    simp only [length_cons] at hb
    have hrest := ih (j := { j with skip := j.skip-1 }) hi (Nat.le_sub_one_of_lt hs)
      (show n ≤ bs.length by omega)
    rw [scan_next hstep,hrest,drop_succ_cons]
    simp only [Nat.sub_sub,Nat.add_comm 1]

theorem loop_scan (hi : j.invalid=false) (bytes : List UInt8) :
    j.loop bytes=scan JpegReader.step j bytes := by
  induction hn : bytes.length using Nat.strong_induction_on generalizing j bytes with
  | h n ih =>
    cases bytes with
    | nil => rw [JpegReader.loop]; rfl
    | cons byte bs =>
      rw [JpegReader.loop]
      split_ifs with hs
      · rw [jpeg_skip (n := min j.skip (byte::bs).length) hi (Nat.min_le_left _ _)
          (Nat.min_le_right _ _)]
        have hlt : ((byte::bs).drop (min j.skip (byte::bs).length)).length < n := by
          rw [length_drop]
          simp only [length_cons] at hn ⊢
          omega
        exact ih _ hlt (j := { j with skip := j.skip-min j.skip (byte::bs).length }) hi _ rfl
      · have hstep : j.step byte=j.take byte := by
          rw [JpegReader.step,hi,if_neg (by simp),if_neg hs]
        rcases ht : j.take byte with ⟨k,_ | d⟩
        · rw [scan_next (hstep.trans ht)]
          simp only
          split_ifs with hk
          · rw [jpeg_invalid hk]
          · exact ih _ (by rw [←hn]; simp) (by simpa using hk) bs rfl
        · rw [scan_found (hstep.trans ht)]

theorem jpeg_write (j : JpegReader) (bytes : List UInt8) :
    j.write bytes=scan JpegReader.step j bytes := by
  rw [JpegReader.write]
  split_ifs with hi
  · rw [jpeg_invalid hi]
  · exact loop_scan (by simpa using hi) bytes

section
variable {mediaType : JsString} {header more : List UInt8}
variable {p q r : ImageReader}

theorem byteAt_append {i : Nat} (h : i < header.length) :
    byteAt (header++more) i=byteAt header i := by
  rw [byteAt,byteAt,List.getD_eq_getElem?_getD,List.getD_eq_getElem?_getD,
    List.getElem?_append_left h]

theorem textIs_append {start : Nat} {value : List Char} (h : start+value.length ≤ header.length) :
    textIs (header++more) start value=textIs header start value := by
  rw [textIs,textIs,drop_append_of_le_length (by omega),
    take_append_of_le_length (by rw [length_drop]; omega)]

theorem headerDimensions_mono {d : Dimensions} (h : headerDimensions mediaType header=some d)
    (more : List UInt8) : headerDimensions mediaType (header++more)=some d := by
  have hlen : (header++more).length=header.length+more.length := length_append
  rw [headerDimensions] at h ⊢
  split_ifs at h with hp hg hw h1 h2 h3
  · obtain ⟨hm,hn,hrest⟩ := hp
    rw [if_pos]
    · simpa (disch := omega) only [getUint32,getUint16,byteAt_append] using h
    · refine ⟨hm,by omega,?_⟩
      simpa (disch := omega) only [byteAt_append] using hrest
  · obtain ⟨hm,hn,hrest⟩ := hg
    rw [if_neg,if_pos]
    · simpa (disch := omega) only [getUint16le,byteAt_append] using h
    · refine ⟨hm,by omega,?_⟩
      rwa [textIs_append (by simp; omega)]
    · rintro ⟨hpng,-⟩
      exact absurd (hm.symm.trans hpng) (by decide)
  all_goals
    obtain ⟨hm,hn,hr,hwebp⟩ := hw
    have htext {start : Nat} {value : List Char} (hs : start+value.length ≤ 30) :
        textIs (header++more) start value=textIs header start value := textIs_append (by omega)
    have hbyte {i : Nat} (hi : i < 30) : byteAt (header++more) i=byteAt header i :=
      byteAt_append (by omega)
    have hpng : ¬mediaType=js "image/png".toList := fun he => absurd (hm.symm.trans he) (by decide)
    have hgif : ¬mediaType=js "image/gif".toList := fun he => absurd (hm.symm.trans he) (by decide)
    rw [if_neg fun hc => hpng hc.1,if_neg fun hc => hgif hc.1,
      if_pos ⟨hm,by omega,by rwa [htext (by decide)],by rwa [htext (by decide)]⟩,
      htext (by decide)]
  · rw [if_pos h1]
    simpa (disch := decide) only [uint24le,hbyte] using h
  · rw [if_neg h1,htext (by decide),if_pos h2]
    simpa (disch := decide) only [getUint16le,hbyte] using h
  · rw [if_neg h1,htext (by decide),if_neg h2,htext (by decide),hbyte (by decide),if_pos h3]
    simpa (disch := decide) only [getUint32le,getUint16le,hbyte] using h

theorem headerDimensions_other (h : isJpeg mediaType=true ∨ mediaType=js "image/avif".toList) :
    headerDimensions mediaType header=none := by
  have hne : mediaType≠js "image/png".toList ∧ mediaType≠js "image/gif".toList ∧
      mediaType≠js "image/webp".toList := by
    simp only [isJpeg,Bool.or_eq_true,beq_iff_eq] at h
    rcases h with (rfl | rfl) | rfl <;> decide
  rw [headerDimensions,if_neg fun hc => hne.1 hc.1,if_neg fun hc => hne.2.1 hc.1,
    if_neg fun hc => hne.2.2 hc.1]

def Alike (p q : ImageReader) : Prop :=
  p.dimensions=q.dimensions ∧ (p.dimensions=none → p=q)

theorem Alike.trans (h : Alike p q) (g : Alike q r) : Alike p r :=
  ⟨h.1.trans g.1,fun hn => (h.2 hn).trans (g.2 (h.1 ▸ hn))⟩

theorem write_some {d : Dimensions} (h : r.dimensions=some d)
    (bytes : List UInt8) : r.write mediaType bytes=r := by
  rw [ImageReader.write,h,if_pos (by rfl)]

theorem Alike.write (h : Alike p q) (bytes : List UInt8) :
    Alike (p.write mediaType bytes) (q.write mediaType bytes) := by
  rcases hp : p.dimensions with _ | d
  · rw [h.2 hp]
    exact ⟨rfl,fun _ => rfl⟩
  · rw [write_some hp,write_some (h.1.symm.trans hp)]
    exact h

theorem write_append (r : ImageReader) (a b : List UInt8) :
    Alike ((r.write mediaType a).write mediaType b) (r.write mediaType (a++b)) := by
  rcases hr : r.dimensions with _ | d
  swap
  · rw [write_some hr,write_some hr,write_some hr]
    exact ⟨rfl,fun _ => rfl⟩
  obtain ⟨header,dimensions,jpeg,avif⟩ := r
  obtain rfl : dimensions=none := hr
  have hheader : header++(a++b).take (30-header.length)=
      (header++a.take (30-header.length))++
        b.take (30-(header++a.take (30-header.length)).length) := by
    rw [take_append,append_assoc]
    congr 3
    rw [length_append,length_take]
    omega
  by_cases hother : isJpeg mediaType=true ∨ mediaType=js "image/avif".toList
  · have hnone (header : List UInt8) : headerDimensions mediaType header=none :=
      headerDimensions_other hother
    by_cases hj : isJpeg mediaType=true
    · have ha : ¬mediaType=js "image/avif".toList := by
        rintro rfl
        exact absurd hj (by decide)
      simp only [ImageReader.write,Option.isSome_none,Bool.false_eq_true,if_false,hj,if_true,ha,
        hnone,Option.none_or,jpeg_write]
      rcases hs : scan JpegReader.step jpeg a with ⟨jpeg,_ | d⟩
      · simp only [Option.isSome_none,Bool.false_eq_true,if_false,hheader,scan_append_none hs]
        exact ⟨rfl,fun _ => rfl⟩
      · simp only [Option.isSome_some,if_true,scan_append_some hs]
        exact ⟨rfl,fun hn => by cases hn⟩
    · have ha : mediaType=js "image/avif".toList := hother.resolve_left hj
      simp only [ImageReader.write,Option.isSome_none,Bool.false_eq_true,if_false,ha,if_true,
        ha ▸ hnone,Option.none_or,AvifReader.write]
      rcases hs : scan AvifReader.take avif a with ⟨avif,_ | d⟩
      · simp only [Option.isSome_none,Bool.false_eq_true,if_false,hheader,scan_append_none hs]
        exact ⟨rfl,fun _ => rfl⟩
      · simp only [Option.isSome_some,if_true,scan_append_some hs]
        exact ⟨rfl,fun hn => by cases hn⟩
  · obtain ⟨hj,ha⟩ := not_or.mp hother
    simp only [ImageReader.write,Option.isSome_none,Bool.false_eq_true,if_false,hj,ha,
      Option.or_none]
    rcases hd : headerDimensions mediaType (header++a.take (30-header.length)) with _ | d
    · simp only [Option.isSome_none,Bool.false_eq_true,if_false,hheader]
      exact ⟨rfl,fun _ => rfl⟩
    · have hmono := headerDimensions_mono hd
        (b.take (30-(header++a.take (30-header.length)).length))
      simp only [Option.isSome_some,if_true]
      refine ⟨?_,fun hn => by cases hn⟩
      rw [hheader,hmono]

theorem write_chunks (chunks : List (List UInt8)) :
    Alike (chunks.foldl (ImageReader.write mediaType) printingImageDimensions)
      (printingImageDimensions.write mediaType chunks.flatten) := by
  induction chunks using List.reverseRecOn with
  | nil =>
    have hnone : headerDimensions mediaType []=none := by
      rw [headerDimensions,if_neg,if_neg,if_neg]
      all_goals simp
    have hj : jpegDimensions.write []=(jpegDimensions,none) := by rw [jpeg_write]; rfl
    have hwrite : printingImageDimensions.write mediaType []=printingImageDimensions := by
      simp only [ImageReader.write,printingImageDimensions,Option.isSome_none,Bool.false_eq_true,
        hj,AvifReader.write,scan,ite_self,take_nil,append_nil,hnone,Option.none_or]
    rw [foldl_nil,flatten_nil,hwrite]
    exact ⟨rfl,fun _ => rfl⟩
  | append_singleton chunks c ih =>
    rw [foldl_append,foldl_cons,foldl_nil,flatten_append,flatten_cons,flatten_nil,append_nil]
    exact (ih.write c).trans (write_append _ _ _)

theorem imageDimensions_flatten (mediaType : JsString) (chunks : List (List UInt8)) :
    imageDimensions mediaType chunks=imageDimensions mediaType [chunks.flatten] := by
  rw [imageDimensions,imageDimensions,ImageReader.read,ImageReader.read,(write_chunks chunks).1]
  rfl
end

end CardKeepr.Reconciliation
