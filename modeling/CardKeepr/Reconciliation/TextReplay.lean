import CardKeepr.Reconciliation.Text

namespace CardKeepr.Reconciliation

open Lib Shared List

variable {readers : List TextReader}

/-- Every chunk of the first table is in the second. -/
def TextTable.Le (a b : TextTable) : Prop := ∀h o c,a h o=some c → b h o=some c

variable {a b z kept text : TextTable}

theorem TextTable.Le.trans {c : TextTable} (h : a.Le b) (k : b.Le c) : a.Le c :=
  fun s o r e => k s o r (h s o r e)

theorem retainTextChunk_grows (a : TextTable) (c : TextChunk) : a.Le (retainTextChunk a c) := by
  intro h o r e
  rw [retainTextChunk]
  split
  · rw [e]
    rfl
  · exact e

theorem retainTextBatch_grows (cs : List TextChunk) (a : TextTable) :
    a.Le (retainTextBatch cs a).2 := by
  induction cs generalizing a with
  | nil => exact fun _ _ _ e => e
  | cons c cs ih => exact (retainTextChunk_grows a c).trans (ih _)

theorem retainTextChunk_self (a : TextTable) (c : TextChunk) : retainTextChunk a c c.sha256
    c.ordinal= some ((a c.sha256 c.ordinal).getD (storedText c.content)) := by
  simp [retainTextChunk]

theorem retainTextChunk_agree {c : TextChunk} (hab : a.Le b) (hbz : b.Le z)
    (hz : (retainTextChunk a c).Le z) : (retainTextChunk a c).Le (retainTextChunk b c) ∧
      (retainTextChunk b c).Le z ∧
      retainTextChunk b c c.sha256 c.ordinal=retainTextChunk a c c.sha256 c.ordinal := by
  have hself : retainTextChunk b c c.sha256 c.ordinal=retainTextChunk a c c.sha256 c.ordinal := by
    have hzc := hz _ _ _ (retainTextChunk_self a c)
    rw [retainTextChunk_self,retainTextChunk_self]
    cases ha : a c.sha256 c.ordinal with
    | some r => rw [hab _ _ _ ha]
    | none =>
      cases hb : b c.sha256 c.ordinal with
      | none => rfl
      | some r =>
        rw [ha,hbz _ _ _ hb] at hzc
        exact hzc
  refine ⟨?_,?_,hself⟩
  · intro h o r e
    by_cases hk : h=c.sha256 ∧ o=c.ordinal
    · obtain ⟨rfl,rfl⟩ := hk
      rw [hself,e]
    · rw [retainTextChunk,if_neg hk] at e ⊢
      exact hab h o r e
  · intro h o r e
    by_cases hk : h=c.sha256 ∧ o=c.ordinal
    · obtain ⟨rfl,rfl⟩ := hk
      rw [hself] at e
      exact hz _ _ _ e
    · rw [retainTextChunk,if_neg hk] at e
      exact hbz h o r e

variable {cs batch : List TextChunk}

theorem retainTextBatch_agree (hab : a.Le b) (hbz : b.Le z) (hz : (retainTextBatch cs a).2.Le z) :
    (retainTextBatch cs b).1=(retainTextBatch cs a).1 ∧
      (retainTextBatch cs a).2.Le (retainTextBatch cs b).2 ∧ (retainTextBatch cs b).2.Le z := by
  induction cs generalizing a b with
  | nil => exact ⟨rfl,hab,hbz⟩
  | cons c cs ih =>
    have hz1 : (retainTextChunk a c).Le z := (retainTextBatch_grows cs _).trans hz
    obtain ⟨h1,h2,h3⟩ := retainTextChunk_agree hab hbz hz1
    obtain ⟨k1,k2,k3⟩ := ih h1 h2 hz
    refine ⟨?_,k2,k3⟩
    simp only [retainTextBatch,h3,k1]

theorem bounded_mem {α : Type} {size : α → Nat} {limit sum : Nat} {as : List α} {a : α}
    (h : a∈bounded size limit sum as) : a∈as := by
  induction as generalizing sum with
  | nil => exact h
  | cons b as ih =>
    rw [bounded] at h
    split at h
    · rcases mem_cons.mp h with rfl | h
      · exact mem_cons_self
      · exact mem_cons_of_mem _ (ih h)
    · exact (not_mem_nil h).elim

theorem textPage_mem {sha256 : JsString} {ordinal count : Nat} {row : Nat × JsString}
    (h : row∈textPage text sha256 ordinal count) : text sha256 row.1=some row.2 := by
  obtain ⟨o,-,ho⟩ := mem_filterMap.mp (mem_of_mem_take (bounded_mem h))
  obtain ⟨content,hc,rfl⟩ := Option.map_eq_some_iff.mp ho
  exact hc

/-- Every chunk from `ordinal` on is retained. -/
def Present (text : TextTable) (sha256 : JsString) (ordinal count : Nat) : Prop :=
  ∀o,ordinal ≤ o → o < count → ∃c,text sha256 o=some c

theorem textPage_agree {sha256 : JsString} {ordinal count : Nat} (hab : a.Le b)
    (h : Present a sha256 ordinal count) :
    textPage b sha256 ordinal count=textPage a sha256 ordinal count := by
  have hrows : ∀o∈List.range' ordinal (count-ordinal),
      (b sha256 o).map (fun content => (o,content))=
        (a sha256 o).map fun content => (o,content) := by
    intro o ho
    obtain ⟨h1,h2⟩ := mem_range'_1.mp ho
    obtain ⟨c,hc⟩ := h o h1 (by omega)
    rw [hc,hab _ _ _ hc]
  rw [textPage,textPage,filterMap_congr hrows]

theorem takeRows_spec {reader reader' : TextReader} {rows : List (Nat × JsString)}
    (h : takeRows reader rows=some reader') : reader'.part=reader.part ∧
      reader'.ordinal=reader.ordinal+rows.length ∧
      ∀o,reader.ordinal ≤ o → o < reader'.ordinal → ∃row∈rows,row.1=o := by
  induction rows generalizing reader with
  | nil =>
    obtain rfl : reader=reader' := Option.some.inj h
    exact ⟨rfl,rfl,fun o h1 h2 => by omega⟩
  | cons row rows ih =>
    rw [takeRows] at h
    split at h
    · rename_i hrow
      obtain ⟨h1,h2,h3⟩ := ih h
      refine ⟨h1,?_,fun o ho ho2 => ?_⟩
      · rw [h2,length_cons]
        show reader.ordinal+1+rows.length=_
        omega
      · by_cases he : o=reader.ordinal
        · exact ⟨row,mem_cons_self,by rw [hrow,he]⟩
        · obtain ⟨r,hr,hro⟩ := h3 o (show reader.ordinal+1 ≤ o by omega) ho2
          exact ⟨r,mem_cons_of_mem _ hr,hro⟩
    · cases h

theorem takePages_spec {readers' : List TextReader}
    (h : takePages readers (readers.map fun r => textPage text r.part.sha256 r.ordinal
      r.part.chunks)=some readers') : ∀r∈readers,∃r'∈readers',r'.part=r.part ∧
        r.ordinal < r'.ordinal ∧ Present text r.part.sha256 r.ordinal r'.ordinal := by
  induction readers generalizing readers' with
  | nil => exact fun r hr => (not_mem_nil hr).elim
  | cons s readers ih =>
    rw [map_cons,takePages] at h
    obtain ⟨s',hs,h⟩ := Option.bind_eq_some_iff.mp h
    obtain ⟨rest,hrest,h⟩ := Option.bind_eq_some_iff.mp h
    obtain rfl : s'::rest=readers' := Option.some.inj h
    intro r hr
    rcases mem_cons.mp hr with rfl | hr
    · rw [takePage] at hs
      split at hs
      · cases hs
      · rename_i hne
        obtain ⟨h1,h2,h3⟩ := takeRows_spec hs
        refine ⟨s',mem_cons_self,h1,?_,fun o ho ho2 => ?_⟩
        · have := length_pos_iff.mpr hne
          omega
        · obtain ⟨row,hrow,rfl⟩ := h3 o ho ho2
          exact ⟨row.2,textPage_mem hrow⟩
    · obtain ⟨r',hr',h'⟩ := ih hrest r hr
      exact ⟨r',mem_cons_of_mem _ hr',h'⟩

theorem settle_spec {value : Json} {r : Json × List TextReader}
    (h : settle readers value=.ok r) : ∀t∈readers,t∈r.2 ∨ t.part.chunks ≤ t.ordinal := by
  induction readers generalizing r with
  | nil => exact fun t ht => (not_mem_nil ht).elim
  | cons s readers ih =>
    rw [settle] at h
    cases hs : settle readers value with
    | error e => rw [hs] at h; cases h
    | ok q =>
      rw [hs] at h
      change (if s.ordinal < s.part.chunks then Except.ok (q.1,s::q.2) else _)=Except.ok r at h
      intro t ht
      split at h
      · obtain rfl := Except.ok.inj h
        rcases mem_cons.mp ht with rfl | ht
        · exact .inl mem_cons_self
        · exact (ih hs t ht).imp_left (mem_cons_of_mem _)
      · rename_i hge
        have hq : r.2=q.2 := by
          change (if _ then Except.error textDamaged else _)=Except.ok r at h
          split at h
          · cases h
          · split at h
            · obtain rfl := Except.ok.inj h
              rfl
            · cases h
        rw [hq]
        rcases mem_cons.mp ht with rfl | ht
        · exact .inr (by omega)
        · exact ih hs t ht

theorem mem_openReaders {parts : List TextPart} {r : TextReader}
    (h : r∈readers) : r∈(openReaders readers parts).1 := mem_append_left _ h

/-- `kept` has the chunk, and its text is stored as it is. -/
def TextChunk.Settled (kept : TextTable) (h : TextChunk) : Prop :=
  kept h.sha256 h.ordinal=some h.content ∧ storedText h.content=h.content

theorem retainTextChunk_settled {h : TextChunk} (ht : text.Le kept)
    (hh : TextChunk.Settled kept h) : retainTextChunk text h h.sha256 h.ordinal=some h.content ∧
      (retainTextChunk text h).Le kept := by
  have hself : retainTextChunk text h h.sha256 h.ordinal=some h.content := by
    rw [retainTextChunk_self]
    cases hr : text h.sha256 h.ordinal with
    | none => rw [Option.getD_none,hh.2]
    | some r => rw [Option.getD_some,←ht _ _ _ hr,hh.1]
  refine ⟨hself,fun k o r hr => ?_⟩
  by_cases hk : k=h.sha256 ∧ o=h.ordinal
  · obtain ⟨rfl,rfl⟩ := hk
    rw [hh.1,←hr,hself]
  · rw [retainTextChunk,if_neg hk] at hr
    exact ht k o r hr

theorem retainTextBatch_settled (ht : text.Le kept) (hb : ∀h∈batch,TextChunk.Settled kept h) :
    (retainTextBatch batch text).1=batch.map (fun h => some h.content) ∧
      (retainTextBatch batch text).2.Le kept := by
  induction batch generalizing text with
  | nil => exact ⟨rfl,ht⟩
  | cons h batch ih =>
    obtain ⟨hself,hle⟩ := retainTextChunk_settled ht (hb h mem_cons_self)
    obtain ⟨hrest,hall⟩ := ih hle fun k hk => hb k (mem_cons_of_mem _ hk)
    refine ⟨?_,hall⟩
    rw [retainTextBatch,map_cons]
    dsimp only
    rw [hself,hrest]

theorem flushes_flatten (pending : List TextChunk) (bytes : Nat) (cs : List TextChunk) :
    (flushes pending bytes cs).flatten=pending++cs := by
  induction cs generalizing pending bytes with
  | nil =>
    rw [flushes]
    split
    · simp_all
    · simp
  | cons c cs ih =>
    rw [flushes]
    split
    · split
      · rename_i hp
        rw [ih,hp]
        rfl
      · rw [flatten_cons,ih]
        rfl
    · rw [ih]
      simp

theorem flushes_mem {h : TextChunk} (hb : batch∈flushes [] 0 cs) (hh : h∈batch) : h∈cs := by
  have hmem := mem_flatten_of_mem hb hh
  rwa [flushes_flatten,nil_append] at hmem

end CardKeepr.Reconciliation
