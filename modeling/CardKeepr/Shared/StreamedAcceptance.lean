import CardKeepr.Shared.StreamedGrammar

namespace CardKeepr.Shared

open List

variable {vs : List Json} {r s w : JsString}

/-- One step towards acceptance. -/
def Moves (x : TextReader) (out : List ObjectMember) : Prop :=
  x.step=.finish ∧ out=[] ∨ (∃y,x.step=.silent y ∧ Language y out) ∨
    ∃m y rest,x.step=.emit m y ∧ out=m::rest ∧ Language y rest

theorem skipSpace_spaces (h : Spaces w) : skipSpace w=[] := by
  have := skipSpace_append h []
  rwa [append_nil] at this

theorem spaces_of_skip (h : skipSpace s=[]) : Spaces s := by
  obtain ⟨w,hw,e⟩ := skipSpace_sound s
  rw [h,append_nil] at e
  rwa [e]

theorem head_split {u : UInt16} (h : (skipSpace s).head?=some u) :
    ∃w r,Spaces w ∧ s=w++u::r ∧ skipSpace s=u::r := by
  obtain ⟨w,hw,e⟩ := skipSpace_sound s
  rw [head_tail h] at e
  exact ⟨w,_,hw,e,head_tail h⟩

theorem skipSpace_idem (s : JsString) : skipSpace (skipSpace s)=skipSpace s := by
  obtain ⟨w,hw,e⟩ := skipSpace_sound s
  nth_rewrite 2 [e]
  rw [skipSpace_append hw]

theorem members_trim {ms : List (JsString × Json)} (h : Text (.members ms) r)
    (s : JsString) : ∃r',skipSpace (r++s)=r'++s ∧ Text (.members ms) r' := by
  have hq : isSpace 34=false := by decide
  cases h with
  | lastMember hw hx hy hz hk ht =>
    refine ⟨_,?_,.lastMember spaces_nil hx hy hz hk ht⟩
    rw [append_assoc,cons_append,skipSpace_delimiter hw hq]
    simp
  | member hw hx hy hz hk ht hr =>
    refine ⟨_,?_,.member spaces_nil hx hy hz hk ht hr⟩
    rw [append_assoc,cons_append,skipSpace_delimiter hw hq]
    simp

theorem spaces_append {x : JsString} (hw : Spaces w) (hx : Spaces x) : Spaces (w++x) := by
  intro u hu
  obtain hu|hu := mem_append.mp hu
  · exact hw u hu
  · exact hx u hu

theorem members_pad {ms : List (JsString × Json)} (h : Text (.members ms) r)
    (hw : Spaces w) : Text (.members ms) (w++r) := by
  cases h with
  | lastMember hw' hx hy hz hk ht =>
    rw [←append_assoc]
    exact .lastMember (spaces_append hw hw') hx hy hz hk ht
  | member hw' hx hy hz hk ht hr =>
    rw [←append_assoc]
    exact .member (spaces_append hw hw') hx hy hz hk ht hr

theorem items_pad (h : Text (.items vs) r) (hw : Spaces w) : Text (.items vs) (w++r) := by
  cases h with
  | lastItem hw' hx ht =>
    rw [←append_assoc]
    exact .lastItem (spaces_append hw hw') hx ht
  | item hw' hx ht hr =>
    rw [←append_assoc]
    exact .item (spaces_append hw hw') hx ht hr

section Start

variable {text : JsString} {keys : List JsString} {key : JsString} {out : List ObjectMember}

theorem start_moves (h : Language ⟨text,keys,key,.start⟩ out) :
    Moves ⟨text,keys,key,.start⟩ out := by
  obtain ⟨ms,w,t,sp,rfl,hw,hsp,ht,hf,rfl⟩ := h
  have hb : isSpace 123=false := by decide
  cases ht with
  | emptyObject hx =>
    left
    refine ⟨?_,rfl⟩
    have hc : isSpace 125=false := by decide
    simp [TextReader.step,TextReader.start,skipSpace_delimiter hw hb,skipSpace_delimiter hx hc,
      textClosing,skipSpace_spaces hsp]
  | @object ms r hr =>
    right
    left
    have hne := hr.inner_head sp
    obtain ⟨r',e,hr'⟩ := members_trim hr sp
    refine ⟨⟨skipSpace (r++sp),keys,key,.key⟩,?_,ms,r',sp,e,hsp,hr',hf,rfl⟩
    simp [TextReader.step,TextReader.start,skipSpace_delimiter hw hb,hne]

theorem moves_start (h : Moves ⟨text,keys,key,.start⟩ out) :
    Language ⟨text,keys,key,.start⟩ out := by
  simp only [Moves,TextReader.step,TextReader.start] at h
  split at h
  · simp at h
  · rename_i hc
    obtain ⟨w,r,hw,rfl,hs⟩ := head_split (not_not.mp hc)
    rw [hs,tail_cons] at h
    split at h
    · rename_i hc2
      obtain ⟨w2,r2,hw2,rfl,hs2⟩ := head_split hc2
      rw [hs2,tail_cons] at h
      simp only [textClosing] at h
      split at h
      · rename_i hsp
        have hout : out=[] := by simpa using h
        refine ⟨[],w,123::(w2++[125]),r2,by simp,hw,spaces_of_skip hsp,.emptyObject hw2,?_,hout⟩
        exact ⟨by simp,by simp⟩
      · simp at h
    · simp only [TextStep.silent.injEq,reduceCtorEq,false_and,false_or,exists_false,or_false] at h
      obtain ⟨y,rfl,ms,t,sp,et,hsp,ht,hf,hout⟩ := h
      obtain ⟨w2,hw2,e2⟩ := skipSpace_sound r
      have et : skipSpace r=t++sp := et
      rw [et] at e2
      exact ⟨ms,w,123::(w2++t),sp,by simp [e2],hw,hsp,.object (members_pad ht hw2),hf,hout⟩

end Start

theorem TailText.pad {ms : List (JsString × Json)} (h : TailText ms s)
    (hw : Spaces w) : TailText ms (w++s) := by
  cases h with
  | close hw' hx =>
    rw [←append_assoc]
    exact .close (spaces_append hw hw') hx
  | next hw' hx hr =>
    rw [←append_assoc]
    exact .next (spaces_append hw hw') hx hr

theorem ItemsTail.pad (h : ItemsTail vs s) (hw : Spaces w) : ItemsTail vs (w++s) := by
  cases h with
  | close hw' =>
    rw [←append_assoc]
    exact .close (spaces_append hw hw')
  | next hw' hr =>
    rw [←append_assoc]
    exact .next (spaces_append hw hw') hr

theorem ItemsText.array {t : JsString} (h : ItemsText vs t) : Text (.value (.arr vs)) (91::t) := by
  cases h with
  | empty hw => exact .emptyArray hw
  | some h => exact .array h

theorem memberOf_value {k : JsString} {v : Json} (h : ∀vs,v≠.arr vs) :
    memberOf k v=[.value k false v.own] := by
  cases v with
  | arr vs => exact absurd rfl (h vs)
  | _ => rfl

section Key

variable {text : JsString} {keys : List JsString} {key k : JsString} {out : List ObjectMember}

theorem textMember_complete {v : Json} {ns : List (JsString × Json)} {x y t tail : JsString}
    (hx : Spaces x) (hy : Spaces y) (ht : Text (.value v) t) (hn : TailText ns tail)
    (hf : Fresh keys ns) : ∃m z rest,textMember (x++58::(y++(t++tail))) keys k=.emit m z ∧ memberOf
    k v++membersOf ns=m::rest ∧ Language z rest := by
  have hc : isSpace 58=false := by decide
  simp only [textMember,skipSpace_delimiter hx hc,List.head?_cons,ne_eq,not_true,if_false,
    tail_cons,skipSpace_text hy ht]
  by_cases ha : (t++tail).head?=some 91
  · obtain ⟨vs,rfl⟩ := (text_array ht).mp ha
    simp only [if_pos ha]
    refine ⟨_,_,_,rfl,rfl,?_⟩
    cases ht with
    | emptyArray hw => exact ⟨[],ns,_,tail,rfl,.empty hw,hn,hf,rfl⟩
    | array hi => exact ⟨vs,ns,_,tail,rfl,.some hi,hn,hf,rfl⟩
  · have hna : ∀vs,v≠.arr vs := fun vs e => ha ((text_array ht).mpr ⟨vs,e⟩)
    have hv := textValue_complete spaces_nil ht hn.stops
    rw [nil_append] at hv
    simp only [if_neg ha,hv]
    exact ⟨_,_,membersOf ns,rfl,by rw [memberOf_value hna]; rfl,ns,hn,hf,rfl⟩

theorem textMember_sound {m : ObjectMember} {z : TextReader} (h : textMember text keys k=.emit m z)
    (hl : Language z out) : ∃v ns x y t tail,text=x++58::(y++(t++tail)) ∧ Spaces x ∧ Spaces y ∧ Text
    (.value v) t ∧ TailText ns tail ∧ Fresh keys ns ∧ m::out=memberOf k v++membersOf ns := by
  simp only [textMember] at h
  split at h
  · cases h
  · rename_i hc
    obtain ⟨x,r,hx,rfl,hs⟩ := head_split (not_not.mp hc)
    rw [hs,tail_cons] at h
    obtain ⟨y,hy,ey⟩ := skipSpace_sound r
    split at h
    · rename_i ha
      cases h
      obtain ⟨vs,ns,t,rest,et,hi,hn,hf,rfl⟩ := hl
      have et : (skipSpace r).tail=t++rest := et
      have er : skipSpace r=91::(t++rest) := by rw [head_tail ha,et]
      rw [er] at ey
      exact ⟨.arr vs,ns,x,y,91::t,rest,by rw [ey]; rfl,hx,hy,hi.array,hn,hf,rfl⟩
    · rename_i ha
      split at h
      · cases h
      · rename_i v rest hv
        cases h
        obtain ⟨ns,hn,hf,rfl⟩ := hl
        obtain ⟨w,t,x2,u,e,hw,hx2,ht,rfl⟩ := textValue_sound hv
        have er : skipSpace r=t++(x2++rest) := by
          rw [←skipSpace_idem,e,skipSpace_text hw ht]
        rw [er] at ey ha
        have hna : ∀vs,u≠.arr vs := fun vs e => ha ((text_array ht).mpr ⟨vs,e⟩)
        exact ⟨u,ns,x,y,t,x2++rest,by rw [ey],hx,hy,ht,hn.pad hx2,hf,by
          rw [memberOf_value hna]; rfl⟩

theorem key_moves (h : Language ⟨text,keys,key,.key⟩ out) : Moves ⟨text,keys,key,.key⟩ out := by
  obtain ⟨ms,r,sp,e,hsp,hr,hf,rfl⟩ := h
  obtain ⟨k,v,ns,w,kt,x,y,t,tail,rfl,e2,hw,hx,hy,hk,ht,hn⟩ := members_split hr hsp
  obtain ⟨hnew,hf⟩ := fresh_cons.mp hf
  have e : text=w++34::(kt++(x++58::(y++(t++tail)))) := e.trans e2
  subst e
  right
  right
  obtain ⟨m,z,rest,hm,hout,hl⟩ := textMember_complete (k := k) hx hy ht hn hf
  have hv := textValue_complete spaces_nil (.string hk)
    (stops_spaces hx (show isDelimiter 58=true by decide) (y++(t++tail)))
  rw [nil_append,cons_append] at hv
  refine ⟨m,z,rest,?_,hout,hl⟩
  have hq : isSpace 34=false := by decide
  simp only [TextReader.step,TextReader.member,skipSpace_delimiter hw hq,List.head?_cons,ne_eq,
    not_true,if_false,hv,Json.own,if_neg hnew]
  exact hm

theorem moves_key (h : Moves ⟨text,keys,key,.key⟩ out) : Language ⟨text,keys,key,.key⟩ out := by
  simp only [Moves,TextReader.step,TextReader.member] at h
  split at h
  · simp at h
  · rename_i hc
    obtain ⟨w,r,hw,rfl,hs⟩ := head_split (not_not.mp hc)
    split at h
    · simp at h
    · rename_i k rest hv
      split at h
      · simp at h
      · rename_i hnew
        have h : ∃m y rest',textMember rest (keys++[k]) k=.emit m y ∧ out=m::rest' ∧
            Language y rest' := by
          rcases h with ⟨h,-⟩|⟨y,h,-⟩|h
          · exfalso
            simp only [textMember] at h
            split_ifs at h
            split at h <;> cases h
          · exfalso
            simp only [textMember] at h
            split_ifs at h
            split at h <;> cases h
          · exact h
        obtain ⟨m,z,rest',hm,rfl,hl⟩ := h
        obtain ⟨v,ns,x,y,t,tail,rfl,hx,hy,ht,hn,hf,hout⟩ := textMember_sound hm hl
        obtain ⟨w2,kt,x2,u,e,hw2,hx2,hkt,hu⟩ := textValue_sound hv
        have hu : u=.str k := by
          cases u <;> simp_all [Json.own]
        subst hu
        cases hkt with
        | @string _ kt hk =>
          have e2 := congrArg skipSpace e
          rw [skipSpace_idem,hs,cons_append,skipSpace_delimiter hw2 (by decide)] at e2
          obtain ⟨-,rfl⟩ := List.cons.inj e2
          obtain ⟨t',sp,et,hsp,ht'⟩ := members_join hw (spaces_append hx2 hx) hy hk ht hn
          refine ⟨(k,v)::ns,t',sp,?_,hsp,ht',fresh_cons.mpr ⟨hnew,hf⟩,hout⟩
          rw [←et]
          simp
    · simp at h

end Key

section Array

variable {text : JsString} {keys : List JsString} {key : JsString} {out : List ObjectMember}

theorem arrayValue_moves (h : Language ⟨text,keys,key,.arrayValue⟩ out) :
    Moves ⟨text,keys,key,.arrayValue⟩ out := by
  obtain ⟨vs,ms,t,rest,e,hi,hn,hf,rfl⟩ := h
  have e : text=t++rest := e
  subst e
  right
  cases hi with
  | empty hw =>
    have hc : isSpace 93=false := by decide
    refine .inl ⟨⟨rest,keys,key,.objectSeparator⟩,?_,ms,hn,hf,rfl⟩
    simp [TextReader.step,TextReader.item,skipSpace_delimiter hw hc]
  | some hi =>
    obtain ⟨v,ws,w,t,tail,rfl,rfl,hw,ht,hs⟩ := items_split hi
    have hv := textValue_complete spaces_nil ht (hs.stops rest)
    have hsk := skipSpace_text hw ht (tail++rest)
    obtain ⟨u,us,e,-,hu,-⟩ := ht.head
    have hne : (t++(tail++rest)).head?≠Option.some 93 := by
      rw [e]
      simpa using hu
    refine .inr ⟨.value key true v.own,⟨tail++rest,keys,key,.arraySeparator⟩,
      arrayMembers key ws++membersOf ms,?_,rfl,ws,ms,tail,rest,rfl,hs,hn,hf,rfl⟩
    rw [nil_append] at hv
    simp only [TextReader.step,TextReader.item,append_assoc,hsk,if_neg hne,hv]

theorem moves_arrayValue (h : Moves ⟨text,keys,key,.arrayValue⟩ out) :
    Language ⟨text,keys,key,.arrayValue⟩ out := by
  simp only [Moves,TextReader.step,TextReader.item] at h
  split at h
  · rename_i hc
    obtain ⟨w,r,hw,rfl,hs⟩ := head_split hc
    simp only [hs,tail_cons,TextStep.silent.injEq,reduceCtorEq,false_and,false_or,
      exists_false,or_false] at h
    obtain ⟨y,rfl,ms,hn,hf,rfl⟩ := h
    exact ⟨[],ms,w++[93],r,by simp,.empty hw,hn,hf,rfl⟩
  · split at h
    · simp at h
    · rename_i v rest hv
      simp only [TextStep.emit.injEq,reduceCtorEq,false_and,false_or,exists_false] at h
      obtain ⟨m,y,out',⟨rfl,rfl⟩,rfl,ws,ms,t,tail,e,hs,hn,hf,rfl⟩ := h
      have e : rest=t++tail := e
      subst e
      obtain ⟨w,t',x,u,e,hw,hx,ht,rfl⟩ := textValue_sound hv
      obtain ⟨w0,hw0,e0⟩ := skipSpace_sound text
      rw [e] at e0
      have hi := items_join (spaces_append hw0 hw) ht (hs.pad hx)
      exact ⟨u::ws,ms,_,tail,by simp [e0],.some hi,hn,hf,rfl⟩

theorem arraySeparator_moves (h : Language ⟨text,keys,key,.arraySeparator⟩ out) :
    Moves ⟨text,keys,key,.arraySeparator⟩ out := by
  obtain ⟨vs,ms,t,rest,e,hi,hn,hf,rfl⟩ := h
  have e : text=t++rest := e
  subst e
  right
  left
  have h93 : isSpace 93=false := by decide
  have h44 : isSpace 44=false := by decide
  cases hi with
  | close hw =>
    refine ⟨⟨rest,keys,key,.objectSeparator⟩,?_,ms,hn,hf,rfl⟩
    simp [TextReader.step,TextReader.itemEnd,skipSpace_delimiter hw h93]
  | @next _ w t hw hi =>
    have hne := hi.inner_head rest
    obtain ⟨v,ws,w2,t2,tail,rfl,rfl,hw2,ht2,hs⟩ := items_split hi
    have hsk := skipSpace_text hw2 ht2 (tail++rest)
    refine ⟨⟨t2++(tail++rest),keys,key,.arrayValue⟩,?_,v::ws,ms,t2++tail,rest,by simp,
      .some (items_join spaces_nil ht2 hs),hn,hf,rfl⟩
    have hne : (t2++(tail++rest)).head?≠some 93 := by
      have hne : (skipSpace (w2++(t2++tail)++rest)).head?≠some 93 := hne
      rwa [append_assoc,append_assoc,hsk] at hne
    simp [TextReader.step,TextReader.itemEnd,skipSpace_delimiter hw h44,skipSpace_cons h44,hsk]
    simpa using hne

theorem moves_arraySeparator (h : Moves ⟨text,keys,key,.arraySeparator⟩ out) :
    Language ⟨text,keys,key,.arraySeparator⟩ out := by
  simp only [Moves,TextReader.step,TextReader.itemEnd] at h
  split at h
  · rename_i hc
    obtain ⟨w,r,hw,rfl,hs⟩ := head_split hc
    simp only [hs,tail_cons,TextStep.silent.injEq,reduceCtorEq,false_and,false_or,
      exists_false,or_false] at h
    obtain ⟨y,rfl,ms,hn,hf,rfl⟩ := h
    exact ⟨[],ms,w++[93],r,by simp,.close hw,hn,hf,rfl⟩
  · split at h
    · simp at h
    · rename_i hc
      rw [skipSpace_idem] at hc h
      obtain ⟨w,r,hw,rfl,hs⟩ := head_split (not_not.mp hc)
      rw [hs,tail_cons] at h
      split at h
      · simp at h
      · rename_i hne
        simp only [TextStep.silent.injEq,reduceCtorEq,false_and,false_or,exists_false,or_false] at h
        obtain ⟨y,rfl,vs,ms,t,rest,e,hi,hn,hf,rfl⟩ := h
        have e : skipSpace r=t++rest := e
        obtain ⟨w2,hw2,e2⟩ := skipSpace_sound r
        cases hi with
        | empty hw3 =>
          -- the source has excluded a closing bracket behind the comma
          exfalso
          have e3 := congrArg skipSpace e
          rw [skipSpace_idem,append_assoc,singleton_append,
            skipSpace_delimiter hw3 (by decide)] at e3
          rw [e3] at hne
          exact hne rfl
        | some hi =>
          rw [e] at e2
          exact ⟨vs,ms,w++44::(w2++t),rest,by simp [e2],.next hw (items_pad hi hw2),hn,hf,rfl⟩

theorem objectSeparator_moves (h : Language ⟨text,keys,key,.objectSeparator⟩ out) :
    Moves ⟨text,keys,key,.objectSeparator⟩ out := by
  obtain ⟨ms,hn,hf,rfl⟩ := h
  have h125 : isSpace 125=false := by decide
  have h44 : isSpace 44=false := by decide
  have hn : TailText ms text := hn
  cases hn with
  | close hw hx =>
    refine .inl ⟨?_,rfl⟩
    simp [TextReader.step,TextReader.memberEnd,skipSpace_delimiter hw h125,textClosing,
      skipSpace_spaces hx]
  | @next _ w r x hw hx hr =>
    refine .inr (.inl ⟨⟨r++x,keys,key,.key⟩,?_,ms,r,x,rfl,hx,hr,hf,rfl⟩)
    simp [TextReader.step,TextReader.memberEnd,skipSpace_delimiter hw h44,skipSpace_cons h44]

theorem moves_objectSeparator (h : Moves ⟨text,keys,key,.objectSeparator⟩ out) :
    Language ⟨text,keys,key,.objectSeparator⟩ out := by
  simp only [Moves,TextReader.step,TextReader.memberEnd] at h
  split at h
  · rename_i hc
    obtain ⟨w,r,hw,rfl,hs⟩ := head_split hc
    rw [hs,tail_cons] at h
    simp only [textClosing] at h
    split at h
    · rename_i hsp
      have hout : out=[] := by simpa using h
      exact ⟨[],.close hw (spaces_of_skip hsp),⟨by simp,by simp⟩,hout⟩
    · simp at h
  · split at h
    · simp at h
    · rename_i hc
      rw [skipSpace_idem] at hc h
      obtain ⟨w,r,hw,rfl,hs⟩ := head_split (not_not.mp hc)
      simp only [hs,tail_cons,TextStep.silent.injEq,reduceCtorEq,false_and,false_or,
        exists_false,or_false] at h
      obtain ⟨y,rfl,ms,t,sp,e,hsp,ht,hf,rfl⟩ := h
      have e : r=t++sp := e
      subst e
      exact ⟨ms,.next hw hsp ht,hf,rfl⟩

end Array

theorem language_iff_moves (x : TextReader) (out : List ObjectMember) :
    Language x out ↔ Moves x out := by
  obtain ⟨text,keys,key,state⟩ := x
  cases state with
  | start => exact ⟨start_moves,moves_start⟩
  | key => exact ⟨key_moves,moves_key⟩
  | arrayValue => exact ⟨arrayValue_moves,moves_arrayValue⟩
  | arraySeparator => exact ⟨arraySeparator_moves,moves_arraySeparator⟩
  | objectSeparator => exact ⟨objectSeparator_moves,moves_objectSeparator⟩

theorem run_accepts_iff {n : Nat} {x : TextReader} (hn : x.text.length < n)
    (out : List ObjectMember) : x.run n=(out,.accepted) ↔ Language x out := by
  induction n generalizing x out with
  | zero => omega
  | succ n ih =>
    rw [language_iff_moves,TextReader.run,Moves]
    have hb := step_below x
    cases hx : x.step with
    | finish => simp [eq_comm]
    | throw f => simp
    | silent y =>
      simp only [hx,TextStep.Below] at hb
      rw [ih (by omega)]
      simp
    | emit m y =>
      simp only [hx,TextStep.Below] at hb
      have ih := fun out => ih (x := y) (by omega) out
      simp only [Prod.mk.injEq,reduceCtorEq,false_and,false_or,exists_false,TextStep.emit.injEq]
      constructor
      · rintro ⟨rfl,ho⟩
        exact ⟨m,y,(y.run n).1,⟨rfl,rfl⟩,rfl,(ih _).mp (Prod.ext rfl ho)⟩
      · rintro ⟨m',y',rest,⟨rfl,rfl⟩,rfl,hl⟩
        have hr := (ih rest).mpr hl
        exact ⟨by rw [hr],by rw [hr]⟩

end CardKeepr.Shared
