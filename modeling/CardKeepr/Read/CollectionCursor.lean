import CardKeepr.Lib.Base64
import CardKeepr.Shared.TextDecoder

namespace CardKeepr.Read
open Shared Lib List

variable {n : Nat} {ns : List Nat}

/-- The base64 letter of six bits. -/
def base64Unit (n : Nat) : UInt16 :=
  UInt16.ofNat (if n < 26 then 65+n else if n < 52 then 71+n else if n < 62 then n-4
    else if n=62 then 43 else 47)

def fromBase64Unit (u : UInt16) : Option Nat :=
  let n := u.toNat
  if 65 ≤ n ∧ n ≤ 90 then some (n-65)
  else if 97 ≤ n ∧ n ≤ 122 then some (n-71)
  else if 48 ≤ n ∧ n ≤ 57 then some (n+4)
  else if n=43 then some 62
  else if n=47 then some 63
  else none

def btoa (bytes : List UInt8) : JsString :=
  (sextets bytes).map base64Unit++List.replicate ((3-bytes.length%3)%3) 61

/-- `replace(/=+$/u, "")`. -/
def withoutPadding (s : JsString) : JsString := (s.reverse.dropWhile (·==61)).reverse

/-- Of a text without white space. -/
def atob (s : JsString) : Option (List UInt8) :=
  let data := if s.length%4=0 then
    (if s.getLast?=some 61 then (if s.dropLast.getLast?=some 61 then s.dropLast.dropLast
      else s.dropLast) else s) else s
  (data.mapM fromBase64Unit).bind ofSextets

def replaceAll (u v : UInt16) (s : JsString) : JsString := s.map fun x => if x=u then v else x

def encodeCursor (value : Json) : JsString :=
  withoutPadding (replaceAll 47 95 (replaceAll 43 45 (btoa (utf8 value.print))))

def isCursorUnit (u : UInt16) : Bool := u==45 || u==95 || (fromBase64Unit u).isSome

/-- `/^[A-Za-z0-9+/_-]+={0,2}$/u`. -/
def isEncoded (s : JsString) : Bool :=
  !(withoutPadding s).isEmpty && (withoutPadding s).all isCursorUnit &&
    decide (s.length ≤ (withoutPadding s).length+2)

def maximumCursorLength : Nat := 16384

/-- The object a cursor encodes; `none` is an invalid cursor. -/
def decodeCursor (value : JsString) : Option (List (JsString×Json)) :=
  if maximumCursorLength < value.length ∨ ¬isEncoded value=true then none
  else do
    let bytes ← atob (replaceAll 95 47 (replaceAll 45 43 value))
    let text ← decodeFatal bytes
    match ← jsonParse text with
    | .obj ms => some ms
    | _ => none

theorem base64Unit_lt (h : n < 64) : (base64Unit n).toNat=
    if n < 26 then 65+n else if n < 52 then 71+n else if n < 62 then n-4
      else if n=62 then 43 else 47 := by
  rw [base64Unit]
  exact toNat_unit (by split_ifs <;> omega)

theorem fromBase64Unit_unit (h : n < 64) : fromBase64Unit (base64Unit n)=some n := by
  have hu := base64Unit_lt h
  rw [fromBase64Unit,hu]
  split_ifs <;> first
    | omega
    | (congr 1; omega)

theorem base64Unit_ne (h : n < 64) {u : UInt16} (hu : u=45 ∨ u=95 ∨ u=61) : base64Unit n≠u := by
  have hn := base64Unit_lt h
  rintro rfl
  have hv : (base64Unit n).toNat=45 ∨ (base64Unit n).toNat=95 ∨ (base64Unit n).toNat=61 := by
    rcases hu with hu | hu | hu <;> rw [hu]
    · exact .inl rfl
    · exact .inr (.inl rfl)
    · exact .inr (.inr rfl)
  split_ifs at hn <;> omega

def urlUnit (n : Nat) : UInt16 :=
  if base64Unit n=43 then 45 else if base64Unit n=47 then 95 else base64Unit n

theorem urlUnit_ne (h : n < 64) : urlUnit n≠61 := by
  rw [urlUnit]
  split_ifs with h1 h2
  · decide
  · decide
  · exact base64Unit_ne h (.inr (.inr rfl))

theorem isCursorUnit_url (h : n < 64) : isCursorUnit (urlUnit n)=true := by
  rw [urlUnit]
  split_ifs with h1 h2
  · rfl
  · rfl
  · rw [isCursorUnit,fromBase64Unit_unit h]
    simp

theorem withoutPadding_append {s : JsString} {k : Nat} (h : ∀u∈s,u≠61) :
    withoutPadding (s++List.replicate k 61)=s := by
  have hdrop : (List.replicate k (61 : UInt16)++s.reverse).dropWhile (·==61)=s.reverse := by
    induction k with
    | zero =>
      rw [replicate_zero,nil_append]
      cases hr : s.reverse with
      | nil => rfl
      | cons u r =>
        have hu : u∈s := mem_reverse.mp (hr ▸ mem_cons_self)
        rw [dropWhile_cons_of_neg (by simpa using h u hu)]
    | succ k ih =>
      rw [replicate_succ,cons_append,dropWhile_cons_of_pos (by rfl)]
      exact ih
  rw [withoutPadding,reverse_append,reverse_replicate,hdrop,reverse_reverse]

theorem encodeCursor_eq (v : Json) : encodeCursor v=(sextets (utf8 v.print)).map urlUnit := by
  have hpad (k : Nat) : replaceAll 47 95 (replaceAll 43 45 (List.replicate k 61))=
      List.replicate k 61 := by
    simp [replaceAll]
  have hbody : replaceAll 47 95 (replaceAll 43 45 ((sextets (utf8 v.print)).map base64Unit))=
      (sextets (utf8 v.print)).map urlUnit := by
    rw [replaceAll,replaceAll,map_map,map_map]
    refine map_congr_left fun n hn => ?_
    have h2 : base64Unit n=43 → base64Unit n≠47 := by
      intro h
      rw [h]
      decide
    simp only [Function.comp_apply,urlUnit]
    split_ifs <;> simp_all
  have hsplit (s t : JsString) : replaceAll 47 95 (replaceAll 43 45 (s++t))=
      replaceAll 47 95 (replaceAll 43 45 s)++replaceAll 47 95 (replaceAll 43 45 t) := by
    simp [replaceAll]
  rw [encodeCursor,btoa,hsplit,hbody,hpad]
  refine withoutPadding_append fun u hu => ?_
  obtain ⟨n,hn,rfl⟩ := mem_map.mp hu
  exact urlUnit_ne (sextets_lt n hn)

theorem encodeCursor_length (v : Json) : (encodeCursor v).length=(4*(utf8 v.print).length+2)/3 := by
  rw [encodeCursor_eq,length_map,sextets_length]

theorem replaceAll_url (h : n < 64) :
    (if (if urlUnit n=45 then (43 : UInt16) else urlUnit n)=95 then (47 : UInt16)
      else if urlUnit n=45 then 43 else urlUnit n)=base64Unit n := by
  have h45 := base64Unit_ne h (u := 45) (.inl rfl)
  have h95 := base64Unit_ne h (u := 95) (.inr (.inl rfl))
  rw [urlUnit]
  split_ifs <;> simp_all

theorem fromPoints_codePoints {s : JsString} (h : wellFormed s=true) :
    fromPoints (codePoints s)=s := by
  refine wellFormed_induct (P := fun s => fromPoints (codePoints s)=s) rfl
    (fun u s hu _ ih => ?_) (fun u v s hp _ ih => ?_) h
  · have hlt : u.toNat < 0x10000 := u.toNat_lt
    rw [codePoints_unit hu,fromPoints,flatMap_cons,fromPoint,if_pos hlt,UInt16.ofNat_toNat]
    exact congrArg (u::·) ih
  · rw [codePoints,if_pos hp,fromPoints,flatMap_cons,fromPoint]
    rw [isPair,isHigh,isLow,Bool.and_eq_true,decide_eq_true_iff,decide_eq_true_iff] at hp
    have hu : 0xd800+(0x10000+(u.toNat-0xd800)*0x400+(v.toNat-0xdc00)-0x10000)/0x400=u.toNat := by
      omega
    have hv : 0xdc00+(0x10000+(u.toNat-0xd800)*0x400+(v.toNat-0xdc00)-0x10000)%0x400=v.toNat := by
      omega
    have hlarge : ¬0x10000+(u.toNat-0xd800)*0x400+(v.toNat-0xdc00) < 0x10000 := by omega
    rw [if_neg hlarge,hu,hv,UInt16.ofNat_toNat,UInt16.ofNat_toNat]
    exact congrArg (fun t => u::v::t) ih

theorem decodeFatal_object {t : JsString} (h : wellFormed (123::t)=true) :
    decodeFatal (utf8 (123::t))=some (123::t) := by
  have hc : codePoints (123::t)=123::codePoints t := codePoints_unit rfl t
  have hmark : dropMark (codePoints (123::t))=codePoints (123::t) := by
    rw [hc]
    rfl
  rw [decodeFatal,utf8_bytesOf,decodePoints_bytesOf (codePoints_scalar _),Option.map_some,hmark,
    fromPoints_codePoints h]

theorem ofUrlUnits (h : ∀n∈ns,n < 64) :
    (replaceAll 95 47 (replaceAll 45 43 (ns.map urlUnit)))=ns.map base64Unit := by
  rw [replaceAll,replaceAll,map_map,map_map]
  exact map_congr_left fun n hn => replaceAll_url (h n hn)

theorem mapM_units (h : ∀n∈ns,n < 64) : (ns.map base64Unit).mapM fromBase64Unit=some ns := by
  induction ns with
  | nil => rfl
  | cons n ns ih =>
    rw [map_cons,mapM_cons,fromBase64Unit_unit (h n mem_cons_self),
      ih fun m hm => h m (mem_cons_of_mem _ hm)]
    rfl

theorem atob_units {bs : List UInt8} : atob ((sextets bs).map base64Unit)=some bs := by
  have hlast : ((sextets bs).map base64Unit).getLast?≠some 61 := by
    intro h
    obtain ⟨n,hn,hu⟩ := mem_map.mp (List.mem_of_getLast? h)
    exact base64Unit_ne (sextets_lt n hn) (.inr (.inr rfl)) hu
  have hdata (s : JsString) (h : s.getLast?≠some 61) : (if s.length%4=0 then
      (if s.getLast?=some 61 then (if s.dropLast.getLast?=some 61 then s.dropLast.dropLast
        else s.dropLast) else s) else s)=s := by
    rw [if_neg h,ite_self]
  rw [atob]
  rw [hdata _ hlast,mapM_units sextets_lt]
  exact ofSextets_sextets bs

theorem isEncoded_cursor (h : ∀n∈ns,n < 64) (hne : ns≠[]) : isEncoded (ns.map urlUnit)=true := by
  have hpad : withoutPadding (ns.map urlUnit)=ns.map urlUnit := by
    have hp := withoutPadding_append (s := ns.map urlUnit) (k := 0) fun u hu => by
      obtain ⟨n,hn,rfl⟩ := mem_map.mp hu
      exact urlUnit_ne (h n hn)
    rwa [replicate_zero,append_nil] at hp
  have hall : (ns.map urlUnit).all isCursorUnit=true := by
    rw [all_map,all_eq_true]
    exact fun n hn => isCursorUnit_url (h n hn)
  rw [isEncoded,hpad,hall]
  cases ns with
  | nil => exact absurd rfl hne
  | cons n ns => simp

theorem decodeCursor_encode {ms : List (JsString×Json)} (hi : (Json.obj ms).Integral)
    (ho : (Json.obj ms).Own) : decodeCursor (encodeCursor (.obj ms))=
      if (encodeCursor (.obj ms)).length ≤ maximumCursorLength then some ms else none := by
  rw [decodeCursor]
  by_cases hlen : (encodeCursor (.obj ms)).length ≤ maximumCursorLength
  · have hne : sextets (utf8 (Json.obj ms).print)≠[] := by
      have hlength := sextets_length (utf8 (Json.obj ms).print)
      have hpos : 0 < (utf8 (Json.obj ms).print).length := by
        rw [Json.print,utf8_unit (by decide)]
        simp [utf8Point]
      intro h
      rw [h,length_nil] at hlength
      omega
    have henc : isEncoded (encodeCursor (.obj ms))=true := by
      rw [encodeCursor_eq]
      exact isEncoded_cursor sextets_lt hne
    have htext : decodeFatal (utf8 (Json.obj ms).print)=some (Json.obj ms).print := by
      have hw := print_wellFormed (.obj ms)
      rw [Json.print] at hw ⊢
      exact decodeFatal_object hw
    have hparse : jsonParse (Json.obj ms).print=some (.obj ms) := by
      rw [jsonParse,jsonSyntax_print hi,Option.map_some,ho.own_eq]
    rw [if_neg (by simp [hlen,henc]),if_pos hlen,encodeCursor_eq,ofUrlUnits sextets_lt,atob_units]
    simp only [Option.bind_eq_bind,Option.bind_some,htext,hparse]
  · rw [if_pos (.inl (by omega)),if_neg hlen]

end CardKeepr.Read
