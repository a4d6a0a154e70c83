import CardKeepr.Shared.StreamedMembers

namespace CardKeepr.Shared

open List

variable {s : JsonChunks} {chunks : List JsString}

/-- The chunk before number `j`, which the reader holds when the source stands at `j`. -/
def chunkBefore (chunks : List JsString) : Nat → JsString
  | 0 => []
  | j+1 => chunks.getD j []

/-- The only reader that has taken `j` items from the source and stands at `offset`. -/
def place (chunks : List JsString) (j offset : Nat) : JsonChunks :=
  ⟨chunks.drop j,chunkBefore chunks j,offset,decide (chunks.length < j),(j:Int)-1,0⟩

def Placed (chunks : List JsString) (s : JsonChunks) : Prop :=
  ∃j offset,s=place chunks j offset ∧ j ≤ chunks.length+1 ∧ offset ≤ (chunkBefore chunks j).length

/-- Placed after at least one item was taken. -/
def Loaded (chunks : List JsString) (s : JsonChunks) : Prop :=
  ∃i offset,s=place chunks (i+1) offset ∧ i ≤ chunks.length ∧
    offset ≤ (chunkBefore chunks (i+1)).length

theorem Loaded.placed (h : Loaded chunks s) : Placed chunks s := by
  obtain ⟨i,offset,e,hi,ho⟩ := h
  exact ⟨i+1,offset,e,by omega,ho⟩

theorem new_place (chunks : List JsString) : JsonChunks.new chunks 0 0=place chunks 0 0 := by
  simp [JsonChunks.new,place,chunkBefore]

theorem drop_cons {j : Nat} {c : JsString} {cs : List JsString} (h : chunks.drop j=c::cs) :
    j < chunks.length ∧ chunks.drop (j+1)=cs ∧ chunkBefore chunks (j+1)=c := by
  have hj : j < chunks.length := by
    by_contra hn
    rw [drop_eq_nil_of_le (by omega)] at h
    cases h
  rw [drop_eq_getElem_cons hj] at h
  obtain ⟨hc,hcs⟩ := List.cons.inj h
  exact ⟨hj,hcs,by simp [chunkBefore,hj,hc]⟩

theorem remaining_ne_nil (h : s.offset < s.chunk.length) : s.remaining≠[] := by
  intro e
  have hd := (append_eq_nil_iff.mp e).1
  rw [drop_eq_nil_iff] at hd
  omega

theorem fill_spec (chunks : List JsString) (j : Nat) (hj : j ≤ chunks.length) : ∃s,fill
    (chunks.drop j) ((j:Int)-1) 0=.ok s ∧ Loaded chunks s ∧ s.remaining=(chunks.drop j).flatten ∧
    (s.remaining=[] ∧ s.offset=s.chunk.length ∨ s.offset < s.chunk.length) := by
  generalize hd : chunks.drop j=cs
  induction cs generalizing j with
  | nil =>
    have hl : chunks.length ≤ j := drop_eq_nil_iff.mp hd
    have hb : chunkBefore chunks (j+1)=[] := by simp [chunkBefore,hl]
    have he : chunks.drop (j+1)=[] := drop_eq_nil_of_le (by omega)
    refine ⟨place chunks (j+1) 0,?_,⟨j,0,rfl,hj,by simp⟩,?_⟩
    · simp [fill,place,hb,he]
      omega
    · simp [JsonChunks.remaining,place,hb,he]
  | cons c cs ih =>
    obtain ⟨hlt,hcs,hc⟩ := drop_cons hd
    by_cases h0 : c=[]
    · subst h0
      obtain ⟨s,hs,hl,hr⟩ := ih (j+1) hlt hcs
      refine ⟨s,?_,hl,by simpa using hr⟩
      rw [←hs]
      simp [fill]
    · have hne : 0≠c.length := fun h => h0 (length_eq_zero_iff.mp h.symm)
      refine ⟨place chunks (j+1) 0,?_,⟨j,0,rfl,hj,by simp⟩,?_,?_⟩
      · simp [fill,hne,place,hcs,hc]
        omega
      · simp [JsonChunks.remaining,place,hcs,hc]
      · right
        simp only [place,hc]
        omega

theorem available_spec (h : Placed chunks s) : ∃t,Loaded chunks t ∧ t.remaining=s.remaining ∧
      (s.remaining=[] ∧ s.available=.ok (false,t) ∨
        t.offset < t.chunk.length ∧ s.available=.ok (true,t)) := by
  obtain ⟨j,offset,rfl,hj,ho⟩ := h
  by_cases hend : offset=(chunkBefore chunks j).length ∧ j ≤ chunks.length
  · obtain ⟨he,hj⟩ := hend
    obtain ⟨t,ht,hl,hr,hp⟩ := fill_spec chunks j hj
    have hrem : (place chunks j offset).remaining=t.remaining := by
      simp [JsonChunks.remaining,place,he] at hr ⊢
      rw [hr]
    have hc : (place chunks j offset).offset=(place chunks j offset).chunk.length ∧
        (place chunks j offset).ended=false := by
      simp [place,he,hj]
    have hav : (place chunks j offset).available=.ok (decide (t.offset < t.chunk.length),t) := by
      have ht : fill (place chunks j offset).source (place chunks j offset).chunkIndex
        (place chunks j offset).initialOffset=.ok t := ht
      rw [JsonChunks.available,if_pos hc,ht]
    refine ⟨t,hl,hrem.symm,?_⟩
    rcases hp with ⟨hz,he⟩|hlt
    · exact .inl ⟨hrem.trans hz,by rw [hav,he]; simp⟩
    · exact .inr ⟨hlt,by rw [hav,decide_eq_true hlt]⟩
  · have hc : ¬((place chunks j offset).offset=(place chunks j offset).chunk.length ∧
        (place chunks j offset).ended=false) := by
      simp only [place,decide_eq_false_iff_not,not_lt]
      exact hend
    have hpos : 0 < j := by
      by_contra h0
      obtain rfl : j=0 := by omega
      simp [chunkBefore] at ho hend
      exact hend ho
    obtain ⟨i,rfl⟩ : ∃i,j=i+1 := ⟨j-1,by omega⟩
    refine ⟨_,⟨i,offset,rfl,by omega,ho⟩,rfl,?_⟩
    rw [JsonChunks.available,if_neg hc]
    by_cases hlt : offset < (chunkBefore chunks (i+1)).length
    · exact .inr ⟨hlt,by simp [place,hlt]⟩
    · -- the source has ended
      have hi : i=chunks.length := by omega
      have hb : chunkBefore chunks (i+1)=[] := by simp [chunkBefore,hi]
      have he : chunks.drop (i+1)=[] := drop_eq_nil_of_le (by omega)
      refine .inl ⟨?_,by simp [place,hlt]⟩
      simp only [JsonChunks.remaining,place,hb,he]
      simp

theorem advance_spec (h : Loaded chunks s) (hlt : s.offset < s.chunk.length) : Loaded chunks
    s.advance ∧ s.advance.remaining=s.remaining.tail ∧ s.character=s.remaining.head? := by
  obtain ⟨i,offset,rfl,hi,ho⟩ := h
  refine ⟨⟨i,offset+1,rfl,hi,hlt⟩,?_⟩
  have hlt : offset < (chunkBefore chunks (i+1)).length := hlt
  have hd := drop_eq_getElem_cons hlt
  constructor
  · simp only [JsonChunks.remaining,JsonChunks.advance,place]
    rw [hd]
    rfl
  · simp only [JsonChunks.remaining,JsonChunks.character,place]
    rw [hd]
    rfl

theorem peekLoop_spec (n : Nat) (h : Placed chunks s) (hn : s.remaining.length < n) : ∃t,peekLoop n
    s=.ok ((skipSpace s.remaining).head?,t) ∧ Loaded chunks t ∧ t.remaining=skipSpace s.remaining ∧
    (skipSpace s.remaining≠[] → t.offset < t.chunk.length) ∧ ∀m,s.remaining.length < m → peekLoop m
    s=peekLoop n s := by
  induction n generalizing s with
  | zero => omega
  | succ n ih =>
    obtain ⟨t,hl,hr,⟨hz,ha⟩|⟨hlt,ha⟩⟩ := available_spec h
    · have hs : skipSpace ([] : JsString)=[] := rfl
      refine ⟨t,?_,hl,by rw [hr,hz,hs],by simp [hz,hs],?_⟩
      · rw [peekLoop,ha,hz,hs]
        rfl
      · intro m hm
        obtain ⟨m,rfl⟩ : ∃k,m=k+1 := ⟨m-1,by omega⟩
        rw [peekLoop,peekLoop,ha]
    · obtain ⟨hal,har,hch⟩ := advance_spec hl hlt
      obtain ⟨u,us,hus⟩ := exists_cons_of_ne_nil (remaining_ne_nil hlt)
      rw [hus] at hch har
      have hch : t.character=some u := hch
      have hs : s.remaining=u::us := by rw [←hr,hus]
      by_cases hu : isSpace u=true
      · have hsk : skipSpace (u::us)=skipSpace us := by simp [skipSpace,hu]
        obtain ⟨v,hv,hvl,hvr,hvlt,hvm⟩ := ih hal.placed (by rw [har,tail_cons]; simp [hs] at hn; omega)
        rw [har,tail_cons] at hv hvr hvlt hvm
        refine ⟨v,?_,hvl,by rw [hs,hsk,hvr],by rw [hs,hsk]; exact hvlt,?_⟩
        · rw [peekLoop,ha,hs,hsk]
          simp only [hch,if_pos hu]
          exact hv
        · intro m hm
          obtain ⟨m,rfl⟩ : ∃k,m=k+1 := ⟨m-1,by omega⟩
          rw [peekLoop,peekLoop,ha]
          simp only [hch,if_pos hu]
          exact hvm m (by simp [hs] at hm; omega)
      · have hsk : skipSpace (u::us)=u::us := skipSpace_cons (by simpa using hu) us
        refine ⟨t,?_,hl,by rw [hr,hs,hsk],fun _ => hlt,?_⟩
        · rw [peekLoop,ha,hs,hsk]
          simp only [hch,if_neg hu]
          rfl
        · intro m hm
          obtain ⟨m,rfl⟩ : ∃k,m=k+1 := ⟨m-1,by omega⟩
          rw [peekLoop,peekLoop,ha]
          simp only [hch,if_neg hu]

theorem peek_spec (h : Placed chunks s) : ∃t,s.peek=.ok ((skipSpace s.remaining).head?,t) ∧ Loaded
    chunks t ∧ t.remaining=skipSpace s.remaining ∧
    (skipSpace s.remaining≠[] → t.offset < t.chunk.length) := by
  obtain ⟨t,ht,hl,hr,hlt,-⟩ := peekLoop_spec (s.remaining.length+1) h (by omega)
  exact ⟨t,ht,hl,hr,hlt⟩

theorem require_spec (h : Placed chunks s) (character : UInt16) :
    (skipSpace s.remaining).head?≠some character ∧ s.require character=.error (.requires character) ∨
    (skipSpace s.remaining).head?=some character ∧ ∃t,s.require character=.ok t ∧
      Loaded chunks t ∧ t.remaining=(skipSpace s.remaining).tail := by
  obtain ⟨t,ht,hl,hr,hlt⟩ := peek_spec h
  rw [JsonChunks.require,ht]
  by_cases hc : (skipSpace s.remaining).head?=some character
  · right
    have hne : skipSpace s.remaining≠[] := by
      intro e
      simp [e] at hc
    obtain ⟨hal,har,-⟩ := advance_spec hl (hlt hne)
    exact ⟨hc,t.advance,by simp [hc],hal,by rw [har,hr]⟩
  · exact .inl ⟨hc,by simp [hc]⟩

/-- The token scan over a text in one piece: the token and what follows it. -/
def scan : TokenScan → JsString → JsString × JsString
  | _,[] => ([],[])
  | t,u::us =>
    match t.unit u with
    | .stop => ([],u::us)
    | .last => ([u],us)
    | .more t => (u::(scan t us).1,(scan t us).2)

theorem scan_append (t : TokenScan) (s : JsString) : (scan t s).1++(scan t s).2=s := by
  induction s generalizing t with
  | nil => rfl
  | cons u us ih =>
    rw [scan]
    split
    · rfl
    · rfl
    · rename_i t' _
      simp [ih t']

theorem overBudget_unlimited (t : TokenScan) (u : UInt16) : t.overBudget {} u=none := by
  simp [TokenScan.overBudget,exceeds]

theorem tokenPart_spec (t : TokenScan) (part rest : JsString) :
    ∃k o,tokenPart {} t part=.ok (k,o) ∧ k ≤ part.length ∧
      match o with
      | none => scan t (part++rest)=(part.take k,part.drop k++rest)
      | some t' => k=part.length ∧
        scan t (part++rest)=(part++(scan t' rest).1,(scan t' rest).2) := by
  induction part generalizing t with
  | nil => exact ⟨0,some t,rfl,le_refl _,rfl,rfl⟩
  | cons u us ih =>
    cases hu : t.unit u with
    | stop => exact ⟨0,none,by simp [tokenPart,hu],by simp,by simp [scan,hu]⟩
    | last =>
      exact ⟨1,none,by simp [tokenPart,hu,overBudget_unlimited],by simp,by simp [scan,hu]⟩
    | more t' =>
      obtain ⟨k,o,hk,hle,ho⟩ := ih t'
      refine ⟨k+1,o,by simp [tokenPart,hu,overBudget_unlimited,hk],by simpa using hle,?_⟩
      cases o with
      | none => 
        have ho : scan t' (us++rest)=_ := ho
        simp [scan,hu,ho]
      | some t'' =>
        obtain ⟨rfl,ho⟩ := ho
        exact ⟨by simp,by simp [scan,hu,ho]⟩

theorem append_unlimited (t : TokenText) (value : JsString) :
    ∃t',t.append {} value=.ok t' ∧ t'.text=t.text++value := by
  refine ⟨⟨t.text++value,t.characters+value.length,t.bytes⟩,?_,rfl⟩
  simp [TokenText.append,exceeds]

theorem tokenLoop_spec (n : Nat) (h : Placed chunks s)
    (hn : s.remaining.length < n) (sc : TokenScan) (t : TokenText) :
    ∃s',tokenLoop {} n sc t s=.ok (t.text++(scan sc s.remaining).1,s') ∧ Loaded chunks s' ∧
      s'.remaining=(scan sc s.remaining).2 := by
  induction n generalizing s sc t with
  | zero => omega
  | succ n ih =>
    obtain ⟨r,hl,hr,⟨hz,ha⟩|⟨hlt,ha⟩⟩ := available_spec h
    · refine ⟨r,?_,hl,?_⟩
      · simp [tokenLoop,ha,hz,scan]
      · rw [hr,hz]
        rfl
    · obtain ⟨i,offset,rfl,hi,ho⟩ := hl
      have hlt : offset < (chunkBefore chunks (i+1)).length := hlt
      obtain ⟨k,o,hk,hle,hscan⟩ := tokenPart_spec sc ((chunkBefore chunks (i+1)).drop offset)
        (chunks.drop (i+1)).flatten
      obtain ⟨t',ht',htext⟩ := append_unlimited t (((chunkBefore chunks (i+1)).drop offset).take k)
      have hrem : s.remaining=(chunkBefore chunks (i+1)).drop offset++
        (chunks.drop (i+1)).flatten := hr.symm
      have hmove : Loaded chunks (place chunks (i+1) (offset+k)) ∧
          (place chunks (i+1) (offset+k)).remaining=
            ((chunkBefore chunks (i+1)).drop offset).drop k++(chunks.drop (i+1)).flatten := by
        rw [length_drop] at hle
        refine ⟨⟨i,offset+k,rfl,hi,by omega⟩,?_⟩
        rw [drop_drop]
        rfl
      obtain ⟨hml,hmr⟩ := hmove
      rw [tokenLoop,ha,hrem]
      cases o with
      | none =>
        have hscan : scan _ _=_ := hscan
        refine ⟨place chunks (i+1) (offset+k),?_,hml,by rw [hmr,hscan]⟩
        simp only [place] at hk ht' ⊢
        simp only [hk,ht',hscan,htext]
      | some sc' =>
        obtain ⟨hkl,hscan⟩ := hscan
        have hmr : (place chunks (i+1) (offset+k)).remaining=(chunks.drop (i+1)).flatten := by
          rw [hmr,hkl,drop_length,nil_append]
        have hshort : (place chunks (i+1) (offset+k)).remaining.length < n := by
          rw [hrem,length_append,length_drop] at hn
          rw [hmr]
          omega
        obtain ⟨s',hs',hl',hr'⟩ := ih hml.placed hshort sc' t'
        have hall : ((chunkBefore chunks (i+1)).drop offset).take k=
          (chunkBefore chunks (i+1)).drop offset := by rw [hkl,take_length]
        rw [hmr,htext,hall] at hs'
        refine ⟨s',?_,hl',by rw [hr',hmr,hscan]⟩
        rw [hscan]
        simp only [place] at hk ht' hs' ⊢
        rw [←append_assoc,←hs']
        simp only [hk,ht']

theorem token_spec (h : Placed chunks s) :
    skipSpace s.remaining=[] ∧ s.token {}=.error .incomplete ∨
    skipSpace s.remaining≠[] ∧ ∃t,s.token {}=.ok ((scan {} (skipSpace s.remaining)).1,t) ∧
      Loaded chunks t ∧ t.remaining=(scan {} (skipSpace s.remaining)).2 := by
  obtain ⟨r,hr,hl,hrem,-⟩ := peek_spec h
  rw [JsonChunks.token,hr]
  cases hs : skipSpace s.remaining with
  | nil => exact .inl ⟨rfl,rfl⟩
  | cons u us =>
    rw [hs] at hrem
    obtain ⟨t,ht,hlt,hrt⟩ := tokenLoop_spec (r.remaining.length+1) hl.placed (by omega) {} {}
    refine .inr ⟨by simp,t,?_,hlt,by rw [hrt,hrem]⟩
    simp only [List.head?_cons]
    rw [ht,hrem]
    rfl

end CardKeepr.Shared
