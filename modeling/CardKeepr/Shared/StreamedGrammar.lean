import CardKeepr.Shared.StreamedTokens

namespace CardKeepr.Shared

open List

variable {v : Json} {k r s t w x tail : JsString}

def arrayMembers (key : JsString) (vs : List Json) : List ObjectMember :=
  vs.map fun v => .value key true v.own

def memberOf (key : JsString) : Json → List ObjectMember
  | .arr vs => .array key::arrayMembers key vs
  | v => [.value key false v.own]

def membersOf (ms : List (JsString × Json)) : List ObjectMember :=
  ms.flatMap fun m => memberOf m.1 m.2

/-- The text of an object behind one of its values. -/
inductive TailText : List (JsString × Json) → JsString → Prop
  | close {w x : JsString} : Spaces w → Spaces x → TailText [] (w++125::x)
  | next {ms : List (JsString × Json)} {w r x : JsString} : Spaces w → Spaces x →
      Text (.members ms) r → TailText ms (w++44::(r++x))

/-- The elements of an array behind its bracket, or behind one of its elements. -/
inductive ItemsText : List Json → JsString → Prop
  | empty {w : JsString} : Spaces w → ItemsText [] (w++[93])
  | some {vs : List Json} {t : JsString} : Text (.items vs) t → ItemsText vs t

inductive ItemsTail : List Json → JsString → Prop
  | close {w : JsString} : Spaces w → ItemsTail [] (w++[93])
  | next {vs : List Json} {w t : JsString} : Spaces w → Text (.items vs) t →
      ItemsTail vs (w++44::t)

/-- Keys that are new and pairwise distinct. -/
def Fresh (keys : List JsString) (ms : List (JsString × Json)) : Prop :=
  (ms.map Prod.fst).Nodup ∧ ∀k ∈ ms.map Prod.fst,k ∉ keys

theorem fresh_cons {keys : List JsString} {ms : List (JsString × Json)} :
    Fresh keys ((k,v)::ms) ↔ k ∉ keys ∧ Fresh (keys++[k]) ms := by
  simp only [Fresh,map_cons,nodup_cons,mem_cons,mem_append,not_mem_nil,
    or_false,not_or,forall_eq_or_imp]
  constructor
  · rintro ⟨⟨hk,hn⟩,hkk,hall⟩
    refine ⟨hkk,hn,fun l hl => ⟨hall l hl,?_⟩⟩
    rintro rfl
    exact hk hl
  · rintro ⟨hkk,hn,hall⟩
    exact ⟨⟨fun hk => (hall k hk).2 rfl,hn⟩,hkk,fun l hl => (hall l hl).1⟩

/-- The texts the generator accepts from each of its states, and what it then yields. -/
def Language (x : TextReader) (out : List ObjectMember) : Prop :=
  match x.state with
  | .start => ∃ms w t sp,x.text=w++(t++sp) ∧ Spaces w ∧ Spaces sp ∧
      Text (.value (.obj ms)) t ∧ Fresh x.keys ms ∧ out=membersOf ms
  | .key => ∃ms r sp,x.text=r++sp ∧ Spaces sp ∧ Text (.members ms) r ∧ Fresh x.keys ms ∧
      out=membersOf ms
  | .arrayValue => ∃vs ms t rest,x.text=t++rest ∧ ItemsText vs t ∧ TailText ms rest ∧
      Fresh x.keys ms ∧ out=arrayMembers x.key vs++membersOf ms
  | .arraySeparator => ∃vs ms t rest,x.text=t++rest ∧ ItemsTail vs t ∧ TailText ms rest ∧
      Fresh x.keys ms ∧ out=arrayMembers x.key vs++membersOf ms
  | .objectSeparator => ∃ms,TailText ms x.text ∧ Fresh x.keys ms ∧ out=membersOf ms

theorem members_split {ms : List (JsString × Json)} {sp : JsString} (h : Text (.members ms) r)
    (hsp : Spaces sp) : ∃k v ns w kt x y t tail,ms=(k,v)::ns ∧
      r++sp=w++34::(kt++(x++58::(y++(t++tail)))) ∧ Spaces w ∧ Spaces x ∧ Spaces y ∧
      StringText kt k ∧ Text (.value v) t ∧ TailText ns tail := by
  cases h with
  | @lastMember k v w x y z kt t hw hx hy hz hk ht =>
    exact ⟨k,v,[],w,kt,x,y,t,z++125::sp,rfl,by simp,hw,hx,hy,hk,ht,.close hz hsp⟩
  | @member k v ns w x y z kt t r hw hx hy hz hk ht hr =>
    exact ⟨k,v,ns,w,kt,x,y,t,z++44::(r++sp),rfl,by simp,hw,hx,hy,hk,ht,.next hz hsp hr⟩

theorem members_join {ns : List (JsString × Json)} {kt y : JsString} (hw : Spaces w) (hx : Spaces x)
    (hy : Spaces y) (hk : StringText kt k) (ht : Text (.value v) t) (hn : TailText ns tail) : ∃r
    sp,w++34::(kt++(x++58::(y++(t++tail))))=r++sp ∧ Spaces sp ∧ Text (.members ((k,v)::ns)) r := by
  cases hn with
  | @close z sp hz hsp =>
    exact ⟨_,sp,by simp,hsp,.lastMember hw hx hy hz hk ht⟩
  | @next ns z r sp hz hsp hr =>
    exact ⟨_,sp,by simp,hsp,.member hw hx hy hz hk ht hr⟩

theorem items_split {vs : List Json} (h : Text (.items vs) r) : ∃v ws w t tail,vs=v::ws ∧
    r=w++(t++tail) ∧ Spaces w ∧ Text (.value v) t ∧ ItemsTail ws tail := by
  cases h with
  | @lastItem v w x t hw hx ht => exact ⟨v,[],w,t,x++[93],rfl,rfl,hw,ht,.close hx⟩
  | @item v vs w x t r hw hx ht hr => exact ⟨v,vs,w,t,x++44::r,rfl,rfl,hw,ht,.next hx hr⟩

theorem items_join {ws : List Json} (hw : Spaces w)
    (ht : Text (.value v) t) (hn : ItemsTail ws tail) : Text (.items (v::ws)) (w++(t++tail)) := by
  cases hn with
  | close hx => exact .lastItem hw hx ht
  | next hx hr => exact .item hw hx ht hr

theorem space_delimiter {u : UInt16} (h : isSpace u=true) : isDelimiter u=true := by
  simp [isDelimiter,h]

theorem stops_spaces (hx : Spaces x) {u : UInt16} (hu : isDelimiter u=true)
    (r : JsString) : Stops (x++u::r) := by
  intro y hy
  cases x with
  | nil => cases hy; exact hu
  | cons a x => cases hy; exact space_delimiter (hx _ (by simp))

theorem TailText.stops {ms : List (JsString × Json)} (h : TailText ms s) : Stops s := by
  cases h with
  | close hw _ => exact stops_spaces hw (by decide) _
  | next hw _ _ => exact stops_spaces hw (by decide) _

theorem ItemsTail.stops {vs : List Json} (h : ItemsTail vs t) (s : JsString) : Stops (t++s) := by
  cases h with
  | close hw =>
    rw [append_assoc]
    exact stops_spaces hw (by decide) _
  | next hw _ =>
    rw [append_assoc]
    exact stops_spaces hw (by decide) _

theorem textValue_complete (hw : Spaces w) (ht : Text (.value v) t)
    (hs : Stops s) : textValue (w++(t++s))=.ok (v.own,s) := by
  have hsk := skipSpace_text hw ht s
  obtain ⟨u,us,e,-⟩ := ht.head
  have hne : t++s≠[] := by simp [e]
  rw [textValue,hsk,if_neg hne,scan_value ht hs,jsonParse_text ht]

theorem textValue_sound {rest : JsString} (h : textValue s=.ok (v,rest)) :
    ∃w t x u,s=w++(t++(x++rest)) ∧ Spaces w ∧ Spaces x ∧ Text (.value u) t ∧ v=u.own := by
  rw [textValue] at h
  split at h
  · cases h
  · split at h
    · cases h
    · rename_i hp
      cases h
      obtain ⟨u,hu,rfl⟩ := Option.map_eq_some_iff.mp hp
      obtain ⟨w,t,x,e,hw,hx,ht⟩ := (jsonSyntax_iff _ u).mp hu
      obtain ⟨w0,hw0,e0⟩ := skipSpace_sound s
      have ha := scan_append {} (skipSpace s)
      refine ⟨w0++w,t,x,u,?_,?_,hx,ht,rfl⟩
      · calc s
          _ = w0++skipSpace s := e0
          _ = w0++(w++(t++x)++(scan {} (skipSpace s)).2) := by rw [←e,ha]
          _ = w0++w++(t++(x++(scan {} (skipSpace s)).2)) := by simp
      · intro y hy
        obtain hy|hy := mem_append.mp hy
        · exact hw0 y hy
        · exact hw y hy

theorem text_array (h : Text (.value v) t) : (t++s).head?=some 91 ↔ ∃vs,v=.arr vs := by
  cases h with
  | null => simp [js]
  | yes => simp [js]
  | no => simp [js]
  | number hn =>
    obtain ⟨u,us,e,hu⟩ := hn.head s
    have h91 : u≠91 := by
      rintro rfl
      exact absurd hu (by decide)
    simp [e,h91]
  | string _ => simp
  | emptyArray _ => simp
  | array _ => simp
  | emptyObject _ => simp
  | object _ => simp

end CardKeepr.Shared
