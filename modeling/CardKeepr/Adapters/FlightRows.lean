import CardKeepr.Adapters.FlightScripts

namespace CardKeepr.Adapters
open Shared Lib Lib.References List
open Reconciliation.Printings (isWhiteSpace trim)

variable (m : JsString → JsString)
variable {u v : UInt16}

theorem parse_literal {l piece : JsString} (h : StringText l piece) :
    parseJson m (34::l)=.ok (.str piece) := by
  have hgrammar : jsonSyntax (34::l)=some (.str piece) :=
    (jsonSyntax_iff _ _).mpr ⟨[],34::l,[],by simp,spaces_nil,spaces_nil,.string h⟩
  have hparse : jsonParse (34::l)=some (.str piece) := by
    rw [jsonParse,hgrammar]
    rfl
  rw [parseJson,hparse]

theorem flightText_from (scripts : List PushScript) (acc : JsString)
    (h : (acc++scripts.flatMap PushScript.piece).length ≤ maximumFlightCharacters) :
    (scripts.map PushScript.literal).foldlM (appendPush m) acc=
      .ok (acc++scripts.flatMap PushScript.piece) := by
  induction scripts generalizing acc with
  | nil =>
    rw [flatMap_nil,append_nil]
    rfl
  | cons p ps ih =>
    rw [flatMap_cons,←append_assoc] at h ⊢
    have hpiece : (acc++p.piece).length ≤ maximumFlightCharacters := by
      rw [length_append] at h
      omega
    have hstep : appendPush m acc p.literal=.ok (acc++p.piece) := by
      rw [appendPush,parse_literal m p.denotes]
      exact if_neg (by omega)
    rw [map_cons,foldlM_cons,hstep,ok_bind]
    exact ih (acc++p.piece) h

theorem flightText_page (page : FlightPage) (h : page.flight.length ≤ maximumFlightCharacters) :
    flightText m (pushes page.html)=.ok page.flight := by
  rw [pushes_page,flightText]
  exact flightText_from m page.scripts [] h

theorem hexadecimal_step {n : Nat} (h : 16 ≤ n) :
    hexadecimal n=hexadecimal (n/16)++hexadecimal (n%16) := by
  rw [hexadecimal,Nat.toDigits_of_base_le (by decide) h,hexadecimal,hexadecimal,
    Nat.toDigits_of_lt_base (Nat.mod_lt n (by decide))]
  simp [js]

theorem hexadecimal_small {n : Nat} (h : n < 16) : ∃u,hexadecimal n=[u] ∧ hexValue u=some n := by
  interval_cases n
  all_goals exact ⟨_,rfl,by decide⟩

def hexNumber (text : JsString) : Nat := text.foldl (fun n u => 16*n+(hexValue u).getD 0) 0

theorem hexadecimal_spells (n : Nat) : hexadecimal n≠[] ∧
    (∀u∈hexadecimal n,(hexValue u).isSome=true) ∧ hexNumber (hexadecimal n)=n := by
  induction n using Nat.strongRecOn with
  | ind n ih =>
    by_cases h : n < 16
    · obtain ⟨u,hu,hv⟩ := hexadecimal_small h
      rw [hu]
      refine ⟨by simp,?_,by simp [hexNumber,hv]⟩
      intro v hmem
      rw [mem_singleton.mp hmem,hv]
      rfl
    · obtain ⟨u,hu,hv⟩ := hexadecimal_small (Nat.mod_lt n (by decide : 0 < 16))
      obtain ⟨hne,hall,hnumber⟩ := ih (n/16) (by omega)
      rw [hexadecimal_step (by omega),hu]
      refine ⟨by simp,?_,?_⟩
      · intro v hmem
        rcases mem_append.mp hmem with hmem | hmem
        · exact hall v hmem
        · rw [mem_singleton.mp hmem,hv]
          rfl
      · rw [hexNumber,foldl_append]
        rw [hexNumber] at hnumber
        rw [hnumber]
        simp only [foldl_cons,foldl_nil,hv,Option.getD_some]
        omega

theorem hexValue_cases (h : (hexValue u).isSome=true) :
    isDigit u=true ∨ 97 ≤ u.toNat ∧ u.toNat ≤ 102 ∨ 65 ≤ u.toNat ∧ u.toNat ≤ 70 := by
  rw [hexValue] at h
  split_ifs at h with h1 h2 h3
  · exact .inl h1
  · exact .inr (.inl h2)
  · exact .inr (.inr h3)
  · cases h

theorem hexValue_range (h : (hexValue u).isSome=true) : 48 ≤ u.toNat ∧ u.toNat ≤ 102 := by
  have hcases := hexValue_cases h
  simp only [isDigit,decide_eq_true_eq] at hcases
  omega

theorem white_far : [9,10,11,12,13,32,160,0x1680,0x2028,0x2029,0x202f,0x205f,0x3000,0xfeff].all
    (fun v : UInt16 => decide (v.toNat < 48 ∨ 102 < v.toNat))=true := by decide

theorem hexValue_unit (h : (hexValue u).isSome=true) :
    isWhiteSpace u=false ∧ u≠43 ∧ u≠45 ∧ u≠44 ∧ u≠120 ∧ u≠88 := by
  have hrange := hexValue_range h
  have hcases := hexValue_cases h
  have hdiff : ∀v : UInt16,(hexValue v).isSome=false → u≠v := by
    rintro v hv rfl
    rw [hv] at h
    cases h
  refine ⟨?_,hdiff 43 (by decide),hdiff 45 (by decide),hdiff 44 (by decide),hdiff 120 (by decide),
    hdiff 88 (by decide)⟩
  rw [Bool.eq_false_iff]
  intro hspace
  rw [isWhiteSpace,Bool.or_eq_true,decide_eq_true_eq,contains_iff_mem] at hspace
  rcases hspace with hmem | hlate
  · have hfar := all_eq_true.mp white_far u hmem
    rw [decide_eq_true_eq] at hfar
    omega
  · omega

theorem withoutHexPrefix_digits {text : JsString} (hall : ∀u∈text,(hexValue u).isSome=true) :
    withoutHexPrefix text=text := by
  unfold withoutHexPrefix
  split
  · rename_i x rest
    obtain ⟨-,-,-,-,h120,h88⟩ := hexValue_unit (hall x (by simp))
    simp [h120,h88]
  · rfl

theorem parseHex_digits {text : JsString} (hne : text≠[])
    (hall : ∀u∈text,(hexValue u).isSome=true) : parseHex text=some (hexNumber text:Int) := by
  obtain ⟨u,us,rfl⟩ := exists_cons_of_ne_nil hne
  obtain ⟨hspace,hplus,hminus,-⟩ := hexValue_unit (hall u mem_cons_self)
  have hdrop : (u::us).dropWhile isWhiteSpace=u::us := by
    rw [dropWhile_cons_of_neg]
    rw [hspace]
    exact Bool.false_ne_true
  have htake : (u::us).takeWhile (fun v => (hexValue v).isSome)=u::us :=
    takeWhile_eq_self_iff.mpr hall
  rw [parseHex]
  simp only [hdrop,List.head?_cons,Option.some.injEq,hminus,hplus,or_self,if_false,
    withoutHexPrefix_digits hall,htake]
  rfl

theorem parseHex_hexadecimal (n : Nat) : parseHex (hexadecimal n)=some (n:Int) := by
  obtain ⟨hne,hall,hnumber⟩ := hexadecimal_spells n
  rw [parseHex_digits hne hall,hnumber]

theorem textLoop_done (bytes : Nat) (s : JsString) : textLoop bytes bytes s=(bytes,[],s) := by
  match s with
  | [] => rfl
  | [u] => simp [textLoop]
  | u::v::s => simp [textLoop]

theorem unitBytes_pos (u : UInt16) : 0 < unitBytes u := (Ingestion.utf8Point_length _).1

theorem utf8_unit (u : UInt16) : (utf8 [u]).length=unitBytes u := by
  simp [utf8,codePoints,unitBytes]

theorem utf8_pair (s : JsString) (h : isPair u v=true) :
    (utf8 (u::v::s)).length=4+(utf8 s).length := by
  rw [utf8,codePoints.eq_3,if_pos h,flatMap_cons,length_append,utf8]
  rw [utf8Point,if_neg (by omega),if_neg (by omega),if_neg (by omega)]
  rfl

theorem utf8_single (s : JsString) (h : ¬isPair u v=true) :
    (utf8 (u::v::s)).length=unitBytes u+(utf8 (v::s)).length := by
  rw [utf8,codePoints.eq_3,if_neg h,flatMap_cons,length_append,utf8,unitBytes]

theorem textLoop_text {t rest : JsString} (h : Ingestion.Apart t rest) (consumed bytes : Nat)
    (hbytes : bytes=consumed+(utf8 t).length) :
    textLoop bytes consumed (t++rest)=(bytes,t,rest) := by
  induction t using codePoints.induct generalizing consumed with
  | case1 =>
    obtain rfl : bytes=consumed := hbytes
    exact textLoop_done bytes rest
  | case2 u =>
    rw [utf8_unit] at hbytes
    have hpos := unitBytes_pos u
    cases rest with
    | nil =>
      rw [append_nil,textLoop,if_pos (by omega),hbytes]
    | cons v rest =>
      have hp : ¬isPair u v=true := by
        rw [h u rfl v rfl]
        exact Bool.false_ne_true
      rw [singleton_append,textLoop.eq_3,if_pos (by omega),if_neg hp,←hbytes,textLoop_done]
  | case3 u v us hp ih =>
    rw [utf8_pair us hp] at hbytes
    have hus : Ingestion.Apart us rest := by
      intro a ha b hb
      apply h a _ b hb
      cases us with
      | nil => cases ha
      | cons w ws => exact ha
    rw [cons_append,cons_append,textLoop.eq_3,if_pos (by omega),if_pos hp,
      ih hus (consumed+4) (by omega)]
  | case4 u v us hp ih =>
    rw [utf8_single us hp] at hbytes
    have hpos := unitBytes_pos u
    have hus : Ingestion.Apart (v::us) rest := fun a ha b hb => h a ha b hb
    have hrest := ih hus (consumed+unitBytes u) (by omega)
    rw [cons_append] at hrest
    rw [cons_append,cons_append,textLoop.eq_3,if_pos (by omega),if_neg hp,hrest]

end CardKeepr.Adapters
