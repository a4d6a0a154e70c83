import CardKeepr.Reconciliation.PrintingFacts

namespace CardKeepr.Reconciliation.Printings
open Shared Lib

theorem formattedItems_map (vs : List Json) : formattedItems vs=vs.map normalizedFormatting := by
  induction vs with
  | nil => rfl
  | cons v vs ih => rw [formattedItems,ih,List.map_cons]

theorem formattedMembers_map (ms : List (JsString×Json)) :
    formattedMembers ms=ms.map fun m => (m.1,normalizedFormatting m.2) := by
  induction ms with
  | nil => rfl
  | cons m ms ih => rw [formattedMembers,ih,List.map_cons]

theorem formatted_regular {v : Json} (h : v.Regular) : (normalizedFormatting v).Regular := by
  induction v using Json.induct with
  | null => exact h
  | bool b => exact h
  | num q => exact h
  | str s => trivial
  | arr vs ih =>
    rw [normalizedFormatting,formattedItems_map]
    refine (all_arr _).mpr fun w hw => ?_
    obtain ⟨v,hv,rfl⟩ := List.mem_map.mp hw
    exact ih v hv ((all_arr _).mp h v hv)
  | obj ms ih =>
    obtain ⟨hk,hm⟩ := (all_obj _).mp h
    rw [normalizedFormatting,formattedMembers_map]
    refine (all_obj _).mpr ⟨?_,fun n hn => ?_⟩
    · rwa [List.map_map]
    · obtain ⟨m,hm',rfl⟩ := List.mem_map.mp hn
      exact ih m hm' (hm m hm')

section
variable {nfc : Nfc}
variable {v w : Json}

theorem formattedText_value (h : v.Regular) : formattedText nfc (.value v)=.ok (form nfc v).print :=
  canonicalJsonAt_eq nfc (formatted_regular h).integral _

theorem formattedText_eq (hv : v.Regular) (hw : w.Regular) :
    (form nfc v).print=(form nfc w).print ↔ form nfc v=form nfc w := by
  refine ⟨print_inj ?_ ?_,congrArg _⟩
  · exact canonical_integral nfc (formatted_regular hv).integral
  · exact canonical_integral nfc (formatted_regular hw).integral

theorem form_obj_iff {ms ns : List (JsString×Json)} (hm : (Json.obj ms).Regular)
    (hn : (Json.obj ns).Regular) : form nfc (.obj ms)=form nfc (.obj ns) ↔
      ∀k,(ms.lookup k).map (form nfc)=(ns.lookup k).map (form nfc) := by
  have hlookup (l : List (JsString×Json)) (k : JsString) :
      ((l.map fun m => (m.1,normalizedFormatting m.2)).lookup k).map (Json.canonical nfc)=
        (l.lookup k).map (form nfc) := by
    rw [lookup_map_values,Option.map_map]
    rfl
  have hk {l : List (JsString×Json)} (h : (Json.obj l).Regular) :
      ((l.map fun m => (m.1,normalizedFormatting m.2)).map Prod.fst).all isAscii=true ∧
        ((l.map fun m => (m.1,normalizedFormatting m.2)).map Prod.fst).Nodup := by
    rw [List.map_map]
    exact h.keys
  rw [form,form,normalizedFormatting,normalizedFormatting,formattedMembers_map,
    formattedMembers_map,canonical_obj_iff nfc (hk hm) (hk hn)]
  simp only [hlookup]

theorem node_field (k : JsString) (p : List JsString) (ms : List (JsString×Json)) :
    node nfc (k::p) (.obj ms)=match ms.lookup k with
      | some v => node nfc p v
      | none => .absent := rfl

theorem node_root_ne (v : Json) : node nfc [] v≠.absent := by
  cases v <;> intro h <;> cases h

theorem node_scalar (h : ∀ms,v≠.obj ms) (k : JsString) (p : List JsString) :
    node nfc (k::p) v=.absent := by
  cases v with
  | obj ms => exact absurd rfl (h ms)
  | _ => rfl

theorem node_root_eq (h : form nfc v=form nfc w) : node nfc [] v=node nfc [] w := by
  cases v <;> cases w <;> first
    | rfl
    | exact congrArg Node.value h
    | cases h

theorem root_object (h : node nfc [] v=.object) : ∃ms,v=.obj ms := by
  cases v <;> first
    | exact ⟨_,rfl⟩
    | cases h

theorem root_unknown (h : node nfc [] v=.unknown) : v=.null := by
  cases v <;> first
    | rfl
    | cases h

theorem form_eq_iff (hv : v.Regular) (hw : w.Regular) :
    form nfc v=form nfc w ↔ ∀p,node nfc p v=node nfc p w := by
  constructor
  · intro h p
    induction p generalizing v w with
    | nil => exact node_root_eq h
    | cons k p ih =>
      by_cases ho : node nfc [] v=.object
      · obtain ⟨ms,rfl⟩ := root_object ho
        obtain ⟨ns,rfl⟩ := root_object ((node_root_eq h).symm.trans ho)
        have hk := (form_obj_iff hv hw).mp h k
        rw [node_field,node_field]
        cases hm : ms.lookup k with
        | none =>
          rw [hm] at hk
          cases hn : ns.lookup k with
          | none => rfl
          | some w => rw [hn] at hk; cases hk
        | some v =>
          rw [hm] at hk
          cases hn : ns.lookup k with
          | none => rw [hn] at hk; cases hk
          | some w =>
            rw [hn] at hk
            exact ih (hv.member hm) (hw.member hn) (Option.some.inj hk)
      · have hvs : ∀ms,v≠.obj ms := by
          rintro ms rfl
          exact ho rfl
        have hws : ∀ms,w≠.obj ms := by
          rintro ms rfl
          exact ho (node_root_eq h)
        rw [node_scalar hvs,node_scalar hws]
  · intro h
    induction v using Json.induct generalizing w with
    | null =>
      rw [root_unknown (h []).symm]
    | obj ms ih =>
      obtain ⟨ns,rfl⟩ := root_object (h []).symm
      refine (form_obj_iff hv hw).mpr fun k => ?_
      have hroot := h [k]
      rw [node_field,node_field] at hroot
      cases hm : ms.lookup k with
      | none =>
        rw [hm] at hroot
        cases hn : ns.lookup k with
        | none => rfl
        | some w =>
          rw [hn] at hroot
          exact absurd hroot.symm (node_root_ne w)
      | some v =>
        rw [hm] at hroot
        cases hn : ns.lookup k with
        | none =>
          rw [hn] at hroot
          exact absurd hroot (node_root_ne v)
        | some w =>
          refine congrArg some (ih (k,v) ((lookup_iff_mem hv.keys.2).mp hm) (hv.member hm)
            (hw.member hn) fun p => ?_)
          have hp := h (k::p)
          rwa [node_field,node_field,hm,hn] at hp
    | _ =>
      have hroot := h []
      cases w <;> first
        | exact Node.value.inj hroot
        | cases hroot
end

end CardKeepr.Reconciliation.Printings
