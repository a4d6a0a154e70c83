import CardKeepr.Reconciliation.TextReplay
import CardKeepr.Shared.WellFormed
import Mathlib.Algebra.Order.BigOperators.Group.List

namespace CardKeepr.Reconciliation

open Lib Shared List

variable {s : JsString}

theorem storedText_wellFormed (h : wellFormed s=true) : storedText s=s := by
  refine wellFormed_induct (P := fun s => storedText s=s) rfl
    (fun u s hu _ ih => ?_) (fun u v s hp _ ih => ?_) h
  · cases s with
    | nil => simp [storedText,hu]
    | cons v s => simp [storedText,not_pair_of_unit hu,hu,ih]
  · rw [storedText,if_pos hp,ih]

theorem sliceEnd_pos (h : s≠[]) : 0 < sliceEnd s := by
  have := length_pos_iff.mpr h
  rw [sliceEnd]
  split <;> omega

theorem sliceEnd_le (s : JsString) : sliceEnd s ≤ s.length ∧ sliceEnd s ≤ 32768 := by
  rw [sliceEnd]
  split <;> omega

theorem slices_flatten {n : Nat} (h : s.length ≤ n) : (slices n s).flatten=s := by
  induction n generalizing s with
  | zero => rw [length_eq_zero_iff.mp (Nat.le_zero.mp h)]; rfl
  | succ n ih =>
    rw [slices]
    split
    · rename_i hs
      rw [hs]
      rfl
    · rename_i hs
      have := sliceEnd_pos hs
      rw [flatten_cons,ih (by rw [length_drop]; omega),take_append_drop]

theorem textSlices_flatten (s : JsString) : (textSlices s).flatten=s := slices_flatten (le_refl _)

theorem textSlices_ne_nil (h : s≠[]) : textSlices s≠[] := by
  intro he
  have := textSlices_flatten s
  rw [he] at this
  exact h this.symm

theorem slices_length {n : Nat} {c : JsString} (h : c∈slices n s) : c.length ≤ 32768 := by
  induction n generalizing s with
  | zero => exact (not_mem_nil h).elim
  | succ n ih =>
    rw [slices] at h
    split at h
    · exact (not_mem_nil h).elim
    · rcases mem_cons.mp h with rfl | h
      · rw [length_take]
        have := (sliceEnd_le s).2
        omega
      · exact ih h

/-- The table has every chunk of the text. -/
def LongText.Holds (t : LongText) (text : TextTable) : Prop :=
  ∀o c,(textSlices t.normalized)[o]?=some c → text (sha256Text t.normalized) o=some c

theorem LongText.Holds.mono {t : LongText} {a b : TextTable} (h : t.Holds a) (hab : a.Le b) :
    t.Holds b := fun o c hc => hab _ _ _ (h o c hc)

theorem holds_of_chunks {t : LongText} {text : TextTable}
    (h : ∀c∈t.chunks,text c.sha256 c.ordinal=some c.content) : t.Holds text := by
  intro o c hc
  apply h ⟨sha256Text t.normalized,o,c⟩
  refine mem_map.mpr ⟨(c,o),?_,rfl⟩
  rw [List.mem_zipIdx_iff_getElem?]
  exact hc

theorem byteLength_enclosed {parts : List JsString} {u v : UInt16}
    (h : ∀t∈parts,wellFormed t=true) (hu : isAscii [u]=true) (hv : isAscii [v]=true) :
    byteLength (u::(commas parts++[v]))=2+(parts.map byteLength).sum+(parts.length-1) := by
  have hcommas := utf8_commas h
  have hopen := utf8_append (wellFormed_ascii hu) (commas parts++[v])
  have hclose := utf8_append (commas_wellFormed h) [v]
  have hmap : (parts.map byteLength)=parts.map fun t => (utf8 t).length := rfl
  have hfirst := utf8_length_ascii hu
  have hlast := utf8_length_ascii hv
  rw [singleton_append] at hopen
  rw [byteLength,hopen,hclose,length_append,length_append,hcommas,hmap,hfirst,hlast]
  simp only [length_singleton]
  omega

theorem byteLength_arr (vs : List Json) : byteLength (Json.arr vs).print=
    2+(vs.map fun v => byteLength v.print).sum+(vs.length-1) := by
  have hwell : ∀t∈vs.map Json.print,wellFormed t=true := fun t ht => by
    obtain ⟨v,-,rfl⟩ := mem_map.mp ht
    exact print_wellFormed v
  have hlen := byteLength_enclosed (u := 91) (v := 93) hwell (by decide) (by decide)
  rw [map_map,length_map] at hlen
  rw [Json.print,printItems_map]
  exact hlen

theorem byteLength_obj (ms : List (JsString×Json)) : byteLength (Json.obj ms).print=
    2+(ms.map fun m => byteLength (quote m.1)+1+byteLength m.2.print).sum+(ms.length-1) := by
  have hwell : ∀t∈ms.map fun m => quote m.1++58::m.2.print,wellFormed t=true := fun t ht => by
    obtain ⟨n,-,rfl⟩ := mem_map.mp ht
    rw [wellFormed_append (quote_wellFormed n.1),wellFormed_unit (by decide)]
    exact print_wellFormed n.2
  have hlen := byteLength_enclosed (u := 123) (v := 125) hwell (by decide) (by decide)
  have htext : ∀m : JsString×Json,byteLength (quote m.1++58::m.2.print)=
      byteLength (quote m.1)+1+byteLength m.2.print := by
    intro m
    have h58 : (utf8Point (58 : UInt16).toNat).length=1 := by decide
    rw [byteLength,byteLength,byteLength,utf8_append (quote_wellFormed m.1),utf8_unit (by decide),
      length_append,length_append,h58]
    omega
  rw [map_map,length_map] at hlen
  rw [Json.print,printMembers_map]
  rw [hlen,show byteLength ∘ (fun m : JsString×Json => quote m.1++58::m.2.print)=_ from funext htext]

section
variable (nfc : Nfc)

theorem canonical_obj_bytes (ms : List (JsString×Json)) :
    byteLength ((Json.obj ms).canonical nfc).print=2+(ms.map fun m =>
      byteLength (quote (nfc.normalize m.1))+1+byteLength (m.2.canonical nfc).print).sum+
        (ms.length-1) := by
  have hperm := sortedMembers_perm nfc ms
  rw [canonical_obj,byteLength_obj,hperm.length_eq,length_map,
    (hperm.map fun m : JsString×Json => byteLength (quote m.1)+1+byteLength m.2.print).sum_eq,
    map_map]
  rfl

theorem canonical_arr_bytes (vs : List Json) : byteLength ((Json.arr vs).canonical nfc).print=
    2+(vs.map fun v => byteLength (v.canonical nfc).print).sum+(vs.length-1) := by
  rw [canonical_arr,byteLength_arr,map_map,length_map]
  rfl

end

end CardKeepr.Reconciliation
