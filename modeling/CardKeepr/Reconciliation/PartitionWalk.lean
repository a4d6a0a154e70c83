import CardKeepr.Reconciliation.PartitionRuns

namespace CardKeepr.Reconciliation.Partitions

open Lib Shared List Steps Code

section
variable {nfc : Nfc} {cs : List (JsString×RecordSource)} {initial : JsString} {kept : TextTable}
  {limit : Nat} {uncut : Prop} {yieldAtCheckpoint : Bool} {s : Attempt Retained Variables}
  {before after : List (JsString×RecordSource)} {c : JsString×RecordSource}
  {flushed rest : List (JsString×Json)} {f : Filling (JsString×Json)}
  {left : List (List (JsString×Json))} {e : JsString×Json}

theorem Walking.moved {s' : Attempt Retained Variables}
    (h : Walking nfc cs initial kept limit uncut before c after flushed f rest left s)
    (hr : Running nfc cs initial kept limit uncut s') (hv : s'.vars=s.vars) :
    Walking nfc cs initial kept limit uncut before c after flushed f rest left s' :=
  ⟨hr,h.collections,h.entries,h.before_fit,h.fit,h.counted,hv ▸ h.parts,hv ▸ h.bytes,
    hv ▸ h.workBytes,hv ▸ h.place⟩

theorem flush_ends
    (h : Walking nfc cs initial kept limit uncut before c after flushed f rest left s)
    (hleft : f.parts≠[] → left=f.parts::(Filling.empty (room nfc)).cut (room nfc) rest)
    {Q : Unit → Attempt Retained Variables → Prop}
    (hgo : ∀s',Walking nfc cs initial kept limit uncut before c after (flushed++f.parts)
      (.empty (room nfc)) rest ((Filling.empty (room nfc)).cut (room nfc) rest) s' → Q () s')
    (hskip : f.parts=[] → Q () s) :
    (flush nfc yieldAtCheckpoint c.1).Ends s Q
      (Halts nfc cs initial kept yieldAtCheckpoint limit uncut) := by
  have hparts : s.vars.parts=[] ↔ f.parts=[] := by rw [h.parts,map_eq_nil_iff]
  refine Steps.Ends.bind (ends_vars ?_)
  refine ends_when (fun hne => ?_) fun he => ?_
  · have hne : f.parts≠[] := fun he => hne (hparts.mpr he)
    rw [hleft hne] at h
    exact flushParts_ends h hgo
  · exact hskip (hparts.mp (not_not.mp he))

theorem retainChunks_ends (h : Running nfc cs initial kept limit uncut s) {batch : List TextChunk}
    (hb : Retainable nfc cs initial kept → ∀h∈batch,TextChunk.Settled kept h)
    {Q : Unit → Attempt Retained Variables → Prop}
    (hQ : ∀s',Running nfc cs initial kept limit uncut s' → s'.vars=s.vars → Q () s') :
    (retainChunks batch).Ends s Q (Halts nfc cs initial kept yieldAtCheckpoint limit uncut) := by
  obtain ⟨n,hk,hle⟩ := h.kept
  have hsettled : Retainable nfc cs initial kept →
      (retainTextBatch batch s.retained.texts).1=batch.map (fun h => some h.content) ∧
      (retainTextBatch batch s.retained.texts).2.Le kept := fun hr =>
    retainTextBatch_settled (hk.texts hr) (hb hr)
  have hnext : Running nfc cs initial kept limit uncut
      ⟨{ s.retained with texts := (retainTextBatch batch s.retained.texts).2 },s.vars,
        s.writes.map (·-1)⟩ :=
    ⟨⟨n,⟨hk.partitions,hk.bound,fun hr => (hsettled hr).2,hk.place,hk.ordinal⟩,hle⟩,h.number,
      h.forward,fun hu => h.lessened hu⟩
  refine Steps.Ends.bind (ends_retained ?_)
  refine Steps.Ends.bind (ends_write rfl h.cut fun _ => ?_)
  refine ends_check (fun _ => hQ _ hnext rfl) fun hno => ⟨hnext.rests,fun hr => ?_⟩
  exact of_decide_eq_false hno (hsettled hr).1

theorem canonical_ends {v : Json} {Q : JsString → Attempt Retained Variables → Prop}
    (hr : Rests nfc cs initial kept s.retained)
    (hfit : Retainable nfc cs initial kept → ∃t,canonicalJson nfc v=.ok t)
    (hQ : ∀t,canonicalJson nfc v=.ok t → Q t s) :
    (canonical nfc v).Ends s Q (Halts nfc cs initial kept yieldAtCheckpoint limit uncut) := by
  rw [canonical]
  cases hv : canonicalJson nfc v with
  | ok t => exact hQ t hv
  | error err =>
    refine ⟨hr,fun hre => ?_⟩
    obtain ⟨t,ht⟩ := hfit hre
    rw [hv] at ht
    cases ht

theorem encode_ends (h : Running nfc cs initial kept limit uncut s) (hc : c∈cs) (he : e∈c.2.entries)
    {Q : JsString → Attempt Retained Variables → Prop}
    (hQ : ∀s',Running nfc cs initial kept limit uncut s' → s'.vars=s.vars →
      canonicalJson nfc (envelope nfc e.2).json=.ok (encoding nfc e.2) → Q (encoding nfc e.2) s') :
    (encode nfc e.2).Ends s Q (Halts nfc cs initial kept yieldAtCheckpoint limit uncut) := by
  refine Steps.Ends.bind ((ends_each (fun left s' =>
    (∀batch∈left,batch∈flushes [] 0 (recordChunks nfc e.2)) ∧
      Running nfc cs initial kept limit uncut s' ∧ s'.vars=s.vars) ?_
    ⟨fun _ hb => hb,h,rfl⟩).post ?_)
  · intro batch left s' hI
    obtain ⟨hmem,hr,hv⟩ := hI
    refine retainChunks_ends hr (fun hre k hk => ?_) fun s'' hr' hv' =>
      ⟨fun b hb => hmem b (mem_cons_of_mem _ hb),hr',hv'.trans hv⟩
    exact (hre.records c hc e he).2 k (flushes_mem (hmem batch mem_cons_self) hk)
  · rintro - s' ⟨-,hr,hv⟩
    refine canonical_ends hr.rests (fun hre => ⟨_,(hre.records c hc e he).1.encoded⟩) fun t ht => ?_
    have hte : t=encoding nfc e.2 := by
      rw [encoding,ht]
      rfl
    subst hte
    exact hQ s' hr hv ht

/-- The collection is walked up to `rest`, and the partitions to come are those of the rest. -/
def Walked (nfc : Nfc) (cs : List (JsString×RecordSource)) (initial : JsString)
    (kept : TextTable) (limit : Nat) (uncut : Prop) (before : List (JsString×RecordSource))
    (c : JsString×RecordSource) (after : List (JsString×RecordSource))
    (rest : List (JsString×Json)) (s : Attempt Retained Variables) : Prop :=
  ∃flushed f,Walking nfc cs initial kept limit uncut before c after flushed f rest
    (f.cut (room nfc) rest) s

theorem Walking.key
    (h : Walking nfc cs initial kept limit uncut before c after flushed f (e::rest) left s) :
    LeadsOn nfc cs initial kept c e.1 rest := by
  have hc : c∈cs := by
    rw [h.collections]
    exact mem_append_right _ mem_cons_self
  have he : e∈c.2.entries := by
    rw [h.entries]
    exact mem_append_right _ mem_cons_self
  exact ⟨fun read hr => ⟨c.2.behind read hr .asWritten _ e rest h.entries,
    c.2.behind read hr nfc _ e rest h.entries⟩,fun hre => hre.keys c hc e he⟩

theorem pushPart_ends
    (h : Walking nfc cs initial kept limit uncut before c after flushed f (e::rest)
      (f.cut (room nfc) (e::rest)) s)
    (hroom : ¬f.Crowded (room nfc) e) (hfit : Fits nfc e.2)
    {Q : Unit → Attempt Retained Variables → Prop}
    (hQ : ∀s',Walking nfc cs initial kept limit uncut before c after flushed
      (f.add (room nfc) e) rest (if (f.add (room nfc) e).Full (room nfc) then
        (f.add (room nfc) e).parts::(Filling.empty (room nfc)).cut (room nfc) rest
        else (f.add (room nfc) e).cut (room nfc) rest) s' → Q () s') :
    (pushPart e.1 (encoding nfc e.2) (byteLength (recordText nfc e.2))).Ends s Q
      (Halts nfc cs initial kept yieldAtCheckpoint limit uncut) := by
  have hkey := h.key
  obtain ⟨done,key,hpieces,-,hcursor⟩ := h.place
  rw [Filling.cut_add hroom] at hpieces
  have hempty : s.vars.parts=[] ↔ f.parts=[] := by rw [h.parts,map_eq_nil_iff]
  have hall : flushed++(f.add (room nfc) e).parts=flushed++f.parts++[e] := by
    rw [Filling.add_parts,append_assoc]
  refine ends_assign (hQ _ ⟨h.running.assign rfl rfl (Nat.le_refl _),h.collections,?_,
    h.before_fit,?_,Filling.add_counted h.counted,?_,?_,?_,done,e.1,hpieces,hkey,?_⟩)
  · rw [hall,h.entries,append_assoc (flushed++f.parts)]
    rfl
  · rw [hall]
    intro x hx
    rcases mem_append.mp hx with hx | hx
    · exact h.fit x hx
    · rw [mem_singleton.mp hx]
      exact hfit
  · show s.vars.parts++[encoding nfc e.2]=_
    rw [h.parts,Filling.add_parts,map_append]
    rfl
  · show s.vars.bytes+(byteLength (encoding nfc e.2)+if s.vars.parts=[] then 0 else 1)=_
    rw [h.bytes]
    simp only [hempty]
    rfl
  · show s.vars.workBytes+_=_
    rw [h.workBytes]
    rfl
  · show { s.vars.cursor with after := e.1 }=_
    rw [hcursor]

theorem takeEntry_ends (h : Walked nfc cs initial kept limit uncut before c after (e::rest) s)
    {Q : Unit → Attempt Retained Variables → Prop}
    (hQ : ∀s',Walked nfc cs initial kept limit uncut before c after rest s' → Q () s') :
    (takeEntry nfc yieldAtCheckpoint c.1 e).Ends s Q
      (Halts nfc cs initial kept yieldAtCheckpoint limit uncut) := by
  obtain ⟨flushed,f,h⟩ := h
  have hc : c∈cs := by
    rw [h.collections]
    exact mem_append_right _ mem_cons_self
  have he : e∈c.2.entries := by
    rw [h.entries]
    exact mem_append_right _ mem_cons_self
  refine Steps.Ends.bind (encode_ends h.running hc he fun s₁ hr₁ hv₁ hencoded => ?_)
  replace h := h.moved hr₁ hv₁
  refine Steps.Ends.bind (ends_check (fun hsize => ?_) fun hno => ⟨hr₁.rests,fun hre =>
    of_decide_eq_false hno (hre.records c hc e he).1.size⟩)
  have hsize := of_decide_eq_true hsize
  refine Steps.Ends.bind (ends_vars ?_)
  -- the partition is closed where the record does not fit into it any more
  have hcrowded : (s₁.vars.parts≠[] ∧ 524288 < s₁.vars.bytes+byteLength (encoding nfc e.2)+1) ↔
      f.Crowded (room nfc) e := by
    have hempty : s₁.vars.parts=[] ↔ f.parts=[] := by rw [h.parts,map_eq_nil_iff]
    rw [h.bytes,ne_eq,hempty]
    rfl
  have hclosed : ∀{R : Unit → Attempt Retained Variables → Prop},
      (∀s' flushed' g,Walking nfc cs initial kept limit uncut before c after flushed' g (e::rest)
        (g.cut (room nfc) (e::rest)) s' → ¬g.Crowded (room nfc) e → R () s') →
      (Steps.when (s₁.vars.parts≠[] ∧ 524288 < s₁.vars.bytes+byteLength (encoding nfc e.2)+1)
        (flush nfc yieldAtCheckpoint c.1)).Ends s₁ R
        (Halts nfc cs initial kept yieldAtCheckpoint limit uncut) := by
    intro R hR
    refine ends_when (fun hcr => ?_) fun hcr => ?_
    · have hcr := hcrowded.mp hcr
      refine flush_ends h (fun _ => Filling.cut_crowded hcr) (fun s' hw => ?_) fun hnil => ?_
      · exact hR s' _ _ hw Filling.empty_roomy
      · exact absurd hnil hcr.1
    · exact hR s₁ _ _ h fun hc => hcr (hcrowded.mpr hc)
  refine Steps.Ends.bind (hclosed fun s₂ flushed' g hw hroom => ?_)
  refine Steps.Ends.bind (canonical_ends hw.running.rests
    (fun hre => ⟨_,(hre.records c hc e he).1.plain⟩) fun t ht => ?_)
  have hte : t=recordText nfc e.2 := by
    rw [recordText,ht]
    rfl
  subst hte
  refine Steps.Ends.bind (pushPart_ends hw hroom ⟨hencoded,hsize,ht⟩ fun s₃ h₃ => ?_)
  refine Steps.Ends.bind (ends_vars ?_)
  have hfull : (s₃.vars.parts.length=128 ∨ 512000 ≤ s₃.vars.workBytes) ↔
      (g.add (room nfc) e).Full (room nfc) := by
    rw [h₃.parts,h₃.workBytes,length_map]
    rfl
  refine ends_when (fun hf => ?_) fun hf => ?_
  · rw [if_pos (hfull.mp hf)] at h₃
    refine flush_ends h₃ (fun _ => rfl) (fun s' h' => hQ s' ⟨_,_,h'⟩) fun hnil => ?_
    exact absurd hnil (by simp)
  · rw [if_neg fun hc => hf (hfull.mpr hc)] at h₃
    exact hQ s₃ ⟨_,_,h₃⟩

theorem Place.next {left : List (JsString×RecordSource)}
    {done : List (JsString×List (JsString×Json))} (hcs : cs=before++left)
    (hpieces : pieces nfc cs=done++pieces nfc left) (hfit : ∀b∈before,AllFit nfc b.2.entries) :
    Place nfc cs initial kept ⟨before.length,[],done.length,
      manifestDigest nfc initial (manifest nfc done),false⟩ := by
  cases left with
  | nil =>
    have hall : before=cs := by rw [hcs,append_nil]
    have hdone : done=pieces nfc cs := by
      rw [hpieces]
      exact (append_nil done).symm
    rw [hall] at hfit ⊢
    rw [hdone]
    exact .ended false hfit
  | cons c after =>
    have hkey : LeadsOn nfc cs initial kept c [] c.2.entries := by
      refine ⟨fun read hr => ?_,fun hre => hre.start⟩
      rw [nfc.ascii [] rfl]
      exact ⟨c.2.first read hr,c.2.first read hr⟩
    exact .within before c after [] c.2.entries done [] hcs hkey rfl
      (by rw [hpieces]; rfl) hfit fun e he => by cases he

theorem Place.first : Place nfc cs initial kept (firstCursor initial) := by
  have hnone : ∀b∈([] : List (JsString×RecordSource)),AllFit nfc b.2.entries := fun b hb => by
    cases hb
  exact @Place.next nfc cs initial kept [] cs [] rfl rfl hnone

/-- Between two collections; `left` are still to be persisted. -/
structure Standing (nfc : Nfc) (cs : List (JsString×RecordSource)) (initial : JsString)
    (kept : TextTable) (limit : Nat) (uncut : Prop) (left : List (JsString×RecordSource))
    (s : Attempt Retained Variables) : Prop where
  running : Running nfc cs initial kept limit uncut s
  place : Place nfc cs initial kept s.vars.cursor
  open_ : s.vars.cursor.complete=false
  collections : ∃before,cs=before++left ∧ s.vars.cursor.kind=before.length

theorem Standing.enter (h : Standing nfc cs initial kept limit uncut (c::after) s)
    {read : JsString → List (JsString×Json)} (hread : c.2.canonicalEntries=some read) :
    ∃before,Walked nfc cs initial kept limit uncut before c after (read s.vars.cursor.after)
      { s with vars := { s.vars with parts := [], bytes := 2, workBytes := 0 } } := by
  obtain ⟨before,hcs,hkind⟩ := h.collections
  have hrun := h.running.assign
    (v := { s.vars with parts := [], bytes := 2, workBytes := 0 }) rfl rfl (Nat.le_refl _)
  generalize hcursor : s.vars.cursor=cursor
  have hp := h.place
  rw [hcursor] at hp hkind
  cases hp with
  | ended complete hfit =>
    have hlen := congrArg List.length hcs
    rw [length_append,length_cons] at hlen
    change cs.length=before.length at hkind
    omega
  | within before' c' after' flushed rest done key hcs' hkey hentries hpieces hbefore hfit =>
    change before'.length=before.length at hkind
    obtain ⟨hb,hca⟩ := append_inj (hcs'.symm.trans hcs) hkind
    obtain ⟨rfl,rfl⟩ := List.cons.inj hca
    have hnil : flushed++(Filling.empty (room nfc)).parts=flushed := append_nil _
    refine ⟨before',flushed,.empty (room nfc),?_⟩
    dsimp only
    rw [(hkey.reads read hread).1]
    exact ⟨hrun,hcs',by rw [hnil,hentries],hbefore,by rw [hnil]; exact hfit,
      Filling.empty_counted,rfl,rfl,rfl,done,key,hpieces,hkey,hcursor⟩

theorem persistCollection_ends (h : Standing nfc cs initial kept limit uncut (c::after) s)
    {Q : Unit → Attempt Retained Variables → Prop}
    (hQ : ∀s',Standing nfc cs initial kept limit uncut after s' → Q () s') :
    (persistCollection nfc yieldAtCheckpoint c).Ends s Q
      (Halts nfc cs initial kept yieldAtCheckpoint limit uncut) := by
  refine Steps.Ends.bind (ends_assign ?_)
  refine Steps.Ends.bind (ends_vars ?_)
  rcases hread : c.2.canonicalEntries with _ | read
  · obtain ⟨before,hcs,-⟩ := h.collections
    rw [partitionRecords,hread]
    refine Steps.Ends.bind (ends_stop ⟨h.running.rests,fun hre => ?_⟩)
    refine hre.resumable c ?_ hread
    rw [hcs]
    exact mem_append_right _ mem_cons_self
  obtain ⟨before,hwalked⟩ := h.enter hread
  rw [partitionRecords,hread]
  refine Steps.Ends.bind ((ends_each
    (Walked nfc cs initial kept limit uncut before c after) (fun e rest s' hw =>
      takeEntry_ends hw fun _ hw' => hw') hwalked).post fun _ s₁ hw₁ => ?_)
  obtain ⟨flushed,f,hw₁⟩ := hw₁
  -- what is left in the filling becomes the last partition of the collection
  have hlast : ∀{R : Unit → Attempt Retained Variables → Prop},
      (∀s' flushed' g,Walking nfc cs initial kept limit uncut before c after flushed' g [] [] s' →
        R () s') → (flush nfc yieldAtCheckpoint c.1).Ends s₁ R
        (Halts nfc cs initial kept yieldAtCheckpoint limit uncut) := by
    intro R hR
    refine flush_ends hw₁ (fun hne => Filling.cut_end hne)
      (fun s' hw => hR s' _ _ hw) fun hnil => ?_
    have hcut : f.cut (room nfc) []=[] := by rw [Filling.cut,if_pos hnil]
    rw [hcut] at hw₁
    exact hR s₁ _ _ hw₁
  refine Steps.Ends.bind (hlast fun s₂ flushed' g hw₂ => ?_)
  obtain ⟨done,key,hpieces,-,hcursor⟩ := hw₂.place
  have hentries := hw₂.entries
  rw [append_nil] at hentries
  have hcs : cs=(before++[c])++after := by
    rw [hw₂.collections,append_assoc]
    rfl
  have hfit : ∀b∈before++[c],AllFit nfc b.2.entries := by
    intro b hb
    rcases mem_append.mp hb with hb | hb
    · exact hw₂.before_fit b hb
    · rw [mem_singleton.mp hb,hentries]
      exact hw₂.fit
  have hplace : Place nfc cs initial kept ⟨(before++[c]).length,[],done.length,
    manifestDigest nfc initial (manifest nfc done),false⟩ := Place.next hcs hpieces hfit
  have hlen : (before++[c]).length=before.length+1 := by simp
  rw [hlen] at hplace
  let next : Cursor := ⟨before.length+1,[],done.length,
    manifestDigest nfc initial (manifest nfc done),false⟩
  have hnext : { s₂.vars.cursor with kind := s₂.vars.cursor.kind+1, after := [] }=next := by
    rw [hcursor]
  have hfewer : toGo nfc cs next < toGo nfc cs s₂.vars.cursor := by
    have hl := congrArg List.length hcs
    rw [length_append,hlen] at hl
    rw [hcursor]
    show cs.length-(before.length+1)+((pieces nfc cs).length-done.length)+1 <
      cs.length-before.length+((pieces nfc cs).length-done.length)+1
    omega
  refine Steps.Ends.bind (ends_assign ?_)
  rw [hnext]
  have hrun := hw₂.running.assign (v := { s₂.vars with cursor := next })
    (by rw [hcursor]) rfl (Nat.le_of_lt hfewer)
  refine save_ends hrun hplace (Nat.lt_of_lt_of_le hfewer hw₂.running.forward)
    fun s' hr hc _ _ _ _ => hQ s' ⟨hr,?_,?_,before++[c],hcs,?_⟩
  · rw [hc]
    exact hplace
  · rw [hc]
  · rw [hc,hlen]

/-- All partitions are there, and the cursor says so. -/
structure Whole (nfc : Nfc) (cs : List (JsString×RecordSource)) (initial : JsString)
    (d : Retained) : Prop where
  partitions : d.partitions=manifest nfc (pieces nfc cs)
  fit : ∀c∈cs,AllFit nfc c.2.entries
  cursor : d.cursor initial=⟨cs.length,[],(pieces nfc cs).length,
    manifestDigest nfc initial (manifest nfc (pieces nfc cs)),true⟩

theorem Kept.whole {n : Nat} {d : Retained} (h : Kept nfc cs initial kept n d)
    (hc : (d.cursor initial).complete=true) : Whole nfc cs initial d := by
  have hp := h.place
  have hle := h.ordinal
  generalize hcursor : d.cursor initial=cursor
  rw [hcursor] at hp hc hle
  cases hp with
  | within => cases hc
  | ended complete hfit =>
    obtain rfl : complete=true := hc
    refine ⟨?_,hfit,hcursor⟩
    rw [h.partitions]
    exact take_of_length_le (by rw [manifest_length]; exact hle)

theorem Place.kind_le {cursor : Cursor} (h : Place nfc cs initial kept cursor) :
    cursor.kind ≤ cs.length := by
  cases h with
  | within before c after flushed rest done key hcs =>
    rw [hcs,length_append]
    exact Nat.le_add_right _ _
  | ended => exact Nat.le_refl _

theorem Standing.finished (h : Standing nfc cs initial kept limit uncut [] s) :
    s.vars.cursor=⟨cs.length,[],(pieces nfc cs).length,
      manifestDigest nfc initial (manifest nfc (pieces nfc cs)),false⟩ ∧
      ∀c∈cs,AllFit nfc c.2.entries := by
  obtain ⟨before,hcs,hkind⟩ := h.collections
  have hp := h.place
  have hopen := h.open_
  generalize s.vars.cursor=cursor at hp hopen hkind ⊢
  cases hp with
  | within before' c after flushed rest done key hcs' =>
    have hl := congrArg List.length (hcs'.symm.trans hcs)
    change before'.length=before.length at hkind
    rw [length_append,length_append,length_cons,length_nil] at hl
    omega
  | ended complete hfit =>
    obtain rfl : complete=false := hopen
    exact ⟨rfl,hfit⟩

def outcome (nfc : Nfc) (cs : List (JsString×RecordSource)) (initial : JsString) : JsString×Nat :=
  (manifestDigest nfc initial (manifest nfc (pieces nfc cs)),(pieces nfc cs).length)

theorem attempt_ends {draft : Draft} {t : Bool×Option Nat} {d : Retained}
    (h : Rests nfc draft.collections initial kept d)
    (hl : limit=toGo nfc draft.collections (d.cursor initial)) (hu : uncut → t.2=none) :
    (persistCandidatePartitions nfc t.1 draft).Ends
      ⟨d,⟨d.cursor initial,d.checkpoints.length,[],2,0⟩,t.2⟩
      (fun r s => Rests nfc draft.collections initial kept s.retained ∧
        Whole nfc draft.collections initial s.retained ∧
        r=outcome nfc draft.collections initial)
      (Halts nfc draft.collections initial kept t.1 limit uncut) := by
  obtain ⟨n,hk⟩ := h
  let s : Attempt Retained Variables := ⟨d,⟨d.cursor initial,d.checkpoints.length,[],2,0⟩,t.2⟩
  have hrun : Running nfc draft.collections initial kept limit uncut s :=
    ⟨⟨n,hk,hk.ordinal⟩,rfl,hl ▸ Nat.le_refl _,hu⟩
  refine Steps.Ends.bind (ends_vars ?_)
  refine ends_ite (fun hc => ?_) fun hc => ?_
  · have hwhole := hk.whole hc
    refine ends_pure ⟨⟨n,hk⟩,hwhole,?_⟩
    show ((d.cursor initial).digest,(d.cursor initial).ordinal)=_
    rw [hwhole.cursor]
    rfl
  · have hopen : (d.cursor initial).complete=false := Bool.eq_false_iff.mpr hc
    have hstart : Standing nfc draft.collections initial kept limit uncut
        (draft.collections.drop (d.cursor initial).kind) s :=
      ⟨hrun,hk.place,hopen,draft.collections.take (d.cursor initial).kind,
        (take_append_drop _ _).symm,(length_take_of_le hk.place.kind_le).symm⟩
    refine Steps.Ends.bind ((ends_each (Standing nfc draft.collections initial kept limit uncut)
      (fun c after s' hs => persistCollection_ends hs fun _ hs' => hs') hstart).post
      fun _ s₁ hs₁ => ?_)
    have hcursor := hs₁.finished
    let last : Cursor := { s₁.vars.cursor with complete := true }
    have hlast : last=⟨draft.collections.length,[],(outcome nfc draft.collections initial).2,
        (outcome nfc draft.collections initial).1,true⟩ := by
      show { s₁.vars.cursor with complete := true }=_
      rw [hcursor.1]
      rfl
    have hfewer : toGo nfc draft.collections last < toGo nfc draft.collections s₁.vars.cursor := by
      rw [hlast,hcursor.1]
      exact Nat.lt_succ_self _
    have hplace : Place nfc draft.collections initial kept last := by
      rw [hlast]
      exact .ended true hcursor.2
    have hrun₂ := hs₁.running.assign (v := { s₁.vars with cursor := last }) rfl rfl
      (Nat.le_of_lt hfewer)
    refine Steps.Ends.bind (ends_assign ?_)
    refine Steps.Ends.bind (save_ends hrun₂ hplace
      (Nat.lt_of_lt_of_le hfewer hs₁.running.forward) fun s₂ hr₂ hv₂ _ _ _ hc₂ => ?_)
    obtain ⟨m,hm,-⟩ := hr₂.kept
    have hv₂ : s₂.vars.cursor=last := hv₂
    have hwhole := hm.whole (hc₂ ▸ rfl)
    refine Steps.Ends.bind (ends_vars (ends_pure ⟨⟨m,hm⟩,hwhole,?_⟩))
    rw [hv₂,hlast]

end

end CardKeepr.Reconciliation.Partitions
