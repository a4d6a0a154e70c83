import CardKeepr.Shared.StreamedAcceptance

namespace CardKeepr.Shared

open List

variable {k : JsString}

/-- `(result[key] as unknown[]).push(value)`. -/
def pushItem (k : JsString) (v : Json) : List (JsString × Json) → List (JsString × Json)
  | [] => []
  | (l,w)::ms =>
    if l=k then
      match w with
      | .arr vs => (l,.arr (vs++[v]))::ms
      | w => (l,w)::ms
    else (l,w)::pushItem k v ms

/-- How a consumer folds the entries back into an object. -/
def foldMember (acc : List (JsString × Json)) : ObjectMember → List (JsString × Json)
  | .array k => assign k (.arr []) acc
  | .value k true v => pushItem k v acc
  | .value k false v => assign k v acc

def rebuild (members : List ObjectMember) : Json :=
  .obj ((members.foldl foldMember []).insertionSort fun a b => keyOrder a.1 ≤ keyOrder b.1)

theorem pushItem_last {acc : List (JsString × Json)} (h : k ∉ acc.map Prod.fst) (v : Json)
    (vs : List Json) : pushItem k v (acc++[(k,.arr vs)])=acc++[(k,.arr (vs++[v]))] := by
  induction acc with
  | nil => simp [pushItem]
  | cons m acc ih =>
    simp only [map_cons,mem_cons,not_or] at h
    simp [pushItem,Ne.symm h.1,ih h.2]

theorem foldMember_array {acc : List (JsString × Json)} (h : k ∉ acc.map Prod.fst)
    (vs us : List Json) : (arrayMembers k vs).foldl foldMember (acc++[(k,.arr us)])=
    acc++[(k,.arr (us++vs.map Json.own))] := by
  induction vs generalizing us with
  | nil => simp [arrayMembers]
  | cons v vs ih =>
    have ih := ih (us++[v.own])
    simp only [arrayMembers,map_cons,foldl_cons,foldMember] at ih ⊢
    rw [pushItem_last h,ih,append_assoc]
    rfl

theorem foldMember_member {acc : List (JsString × Json)} (h : k ∉ acc.map Prod.fst) (v : Json) :
    (memberOf k v).foldl foldMember acc=acc++[(k,v.own)] := by
  by_cases ha : ∃vs,v=.arr vs
  · obtain ⟨vs,rfl⟩ := ha
    rw [memberOf,foldl_cons,foldMember,assign_new h,foldMember_array h,Json.own,ownItems_map]
    rfl
  · rw [memberOf_value fun vs e => ha ⟨vs,e⟩,foldl_cons,foldl_nil,foldMember,
      assign_new h]

theorem foldMember_members {ms acc : List (JsString × Json)} (h : ((acc++ms).map Prod.fst).Nodup) :
    (membersOf ms).foldl foldMember acc=acc++ms.map fun m => (m.1,m.2.own) := by
  induction ms generalizing acc with
  | nil => simp [membersOf]
  | cons m ms ih =>
    have hm : m.1 ∉ acc.map Prod.fst := by
      intro hm
      rw [map_append,nodup_append] at h
      exact h.2.2 m.1 hm m.1 (by simp) rfl
    have ih := @ih (acc++[(m.1,m.2.own)]) (by simpa using h)
    simp only [membersOf,flatMap_cons,foldl_append] at ih ⊢
    rw [foldMember_member hm,ih]
    simp

theorem rebuild_membersOf {ms : List (JsString × Json)} (h : (ms.map Prod.fst).Nodup) :
    rebuild (membersOf ms)=(Json.obj ms).own := by
  have hn : ((ms.map fun m => (m.1,m.2.own)).map Prod.fst).Nodup := by
    rw [map_map]
    exact h
  rw [rebuild,foldMember_members (by simpa using h),Json.own,ownValues_map,ownMembers,
    assignAll_of_nodup hn,nil_append]

theorem new_follows (chunks : List JsString) :
    Follows chunks (MemberReader.new chunks none) ⟨chunks.flatten,[],[],.start⟩ := by
  refine ⟨?_,?_,rfl,rfl,rfl⟩
  · exact ⟨0,0,new_place chunks,by omega,le_refl _⟩
  · simp [MemberReader.new,JsonChunks.new,JsonChunks.remaining]

theorem fresh_nil (ms : List (JsString × Json)) : Fresh [] ms ↔ (ms.map Prod.fst).Nodup := by
  simp [Fresh]

theorem language_start (text key : JsString) (out : List ObjectMember) :
    Language ⟨text,[],key,.start⟩ out ↔ ∃ms,jsonSyntax text=some (.obj ms) ∧
      (ms.map Prod.fst).Nodup ∧ out=membersOf ms := by
  constructor
  · rintro ⟨ms,w,t,sp,e,hw,hsp,ht,hf,hout⟩
    exact ⟨ms,(jsonSyntax_iff _ _).mpr ⟨w,t,sp,e,hw,hsp,ht⟩,(fresh_nil ms).mp hf,hout⟩
  · rintro ⟨ms,hs,hn,hout⟩
    obtain ⟨w,t,sp,e,hw,hsp,ht⟩ := (jsonSyntax_iff _ _).mp hs
    exact ⟨ms,w,t,sp,e,hw,hsp,ht,(fresh_nil ms).mpr hn,hout⟩

theorem resumableObjectMembers_accepts (chunks : List JsString) (out : List ObjectMember) :
    (resumableObjectMembers chunks none {}).1.map MemberEntry.member=out ∧
    (resumableObjectMembers chunks none {}).2=.accepted ↔ ∃ms,jsonSyntax chunks.flatten=some
    (.obj ms) ∧ (ms.map Prod.fst).Nodup ∧ out=membersOf ms := by
  obtain ⟨hm,ho⟩ := run_follows (chunks.flatten.length+2) (new_follows chunks)
  rw [resumableObjectMembers,hm,ho,←language_start _ [],
    ←run_accepts_iff (n := chunks.flatten.length+2) (by simp)]
  exact ⟨fun ⟨h,k⟩ => Prod.ext h k,fun h => by rw [h]; exact ⟨rfl,rfl⟩⟩

/-- Without limits the generator accepts exactly the objects with distinct keys; its entries
rebuild `JSON.parse`, and every cursor resumes it. -/
theorem resumableObjectMembers_correct (chunks : List JsString) :
    ((resumableObjectMembers chunks none {}).2=.accepted ↔
      ∃ms,jsonSyntax chunks.flatten=some (.obj ms) ∧ (ms.map Prod.fst).Nodup) ∧
    ((resumableObjectMembers chunks none {}).2=.accepted → jsonParse chunks.flatten=some (rebuild
        ((resumableObjectMembers chunks none {}).1.map MemberEntry.member))) ∧
    (resumableObjectMembers chunks none {}).2≠.running ∧
    ∀pre e post,(resumableObjectMembers chunks none {}).1=pre++e::post →
      resumableObjectMembers chunks (some e.cursor) {}=
        (post,(resumableObjectMembers chunks none {}).2) := by
  have hf := new_follows chunks
  have hlen : (⟨chunks.flatten,[],[],.start⟩ : TextReader).text.length <
      chunks.flatten.length+2 := by simp
  refine ⟨⟨fun ha => ?_,?_⟩,fun ha => ?_,(run_stable hf hlen hlen).2,fun pre e post he => ?_⟩
  · obtain ⟨ms,hs,hn,-⟩ := (resumableObjectMembers_accepts chunks _).mp ⟨rfl,ha⟩
    exact ⟨ms,hs,hn⟩
  · rintro ⟨ms,hs,hn⟩
    exact ((resumableObjectMembers_accepts chunks _).mpr ⟨ms,hs,hn,rfl⟩).2
  · obtain ⟨ms,hs,hn,e⟩ := (resumableObjectMembers_accepts chunks _).mp ⟨rfl,ha⟩
    rw [e,rebuild_membersOf hn,jsonParse,hs]
    rfl
  · exact run_reopened hf hlen hlen he

example : (resumableObjectMembers [js ['{','"','a','"',':','[','t'],[],js ['r','u','e',']','}']]
    none {}).2=.accepted := by decide

example : (resumableObjectMembers [js ['{','"','a','"',':','[',']'],js [',','}']] none {}).2=
    .rejected .keyRequired := by decide

end CardKeepr.Shared
