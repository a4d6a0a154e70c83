import CardKeepr.Reconciliation.TextRestoring
import CardKeepr.Reconciliation.ReducerReplay

namespace CardKeepr.Reconciliation

open Lib Shared List Durable ReducerStore

section
variable {nfc : Nfc} {v : Json} {u : ReducerStore}
variable {content : JsString}

abbrev atStore (u : ReducerStore) {α : Type} (p : ReducerProg α) :=
  alone (plain refer) p u

/-- The chunks that are still to be read. -/
def unread (rs : List (LongText × Nat)) (ts : List LongText) : Nat :=
  (rs.map fun r => (textSlices r.1.normalized).length-r.2).sum+
    (ts.map fun t => (textSlices t.normalized).length).sum

theorem unread_less {rs rs' : List (LongText × Nat)} (h : List.Forall₂
      (fun r r' : LongText × Nat => r'.1=r.1 ∧ r.2 < r'.2 ∧
        r'.2 ≤ (textSlices r.1.normalized).length) rs rs') (ts : List LongText) :
    unread (rs'.filter fun r => r.2 < (textSlices r.1.normalized).length) ts+rs.length ≤
      unread rs ts := by
  induction h with
  | nil => exact le_refl _
  | cons hr _ ih =>
    rename_i r r' rs rs' hall
    obtain ⟨he,hlt,hle⟩ := hr
    rw [unread] at ih ⊢
    rw [unread] at ih ⊢
    rw [filter_cons]
    split
    · simp only [map_cons,sum_cons,length_cons,he] at ih ⊢
      omega
    · simp only [map_cons,sum_cons,length_cons] at ih ⊢
      omega

theorem unread_split (rs : List (LongText × Nat)) (ts : List LongText) (k : Nat) :
    unread (rs++(ts.take k).map fun t => (t,0)) (ts.drop k)=unread rs ts := by
  have hsplit : (ts.map fun t => (textSlices t.normalized).length).sum=
      ((ts.take k).map fun t => (textSlices t.normalized).length).sum+
        ((ts.drop k).map fun t => (textSlices t.normalized).length).sum := by
    rw [←sum_append,←map_append,take_append_drop]
  rw [unread,unread,hsplit,map_append,sum_append,map_map]
  simp only [Function.comp_def,Nat.sub_zero]
  omega

/-- The texts of the readers that are admitted next. -/
def admitted (rs : List (LongText × Nat)) (ts : List LongText) : List (LongText × Nat) :=
  rs++(ts.take (2-rs.length)).map fun t => (t,0)

theorem openReaders_texts (rs : List (LongText × Nat)) (ts : List LongText) :
    openReaders (rs.map fun r => r.1.reader nfc r.2) (ts.map (LongText.placed nfc))=
      ((admitted rs ts).map fun r => r.1.reader nfc r.2,
        (ts.drop (2-rs.length)).map (LongText.placed nfc)) := by
  rw [admitted,openReaders,length_map,map_append,map_map,←map_take,←map_drop,map_map]
  rfl

theorem forall₂_left {α β : Type} {R : α → β → Prop} {as : List α} {bs : List β}
    (h : List.Forall₂ R as bs) {a : α} (ha : a∈as) : ∃b∈bs,R a b := by
  induction h with
  | nil => exact (not_mem_nil ha).elim
  | cons hr _ ih =>
    rcases mem_cons.mp ha with rfl | ha
    · exact ⟨_,mem_cons_self,hr⟩
    · obtain ⟨b,hb,hab⟩ := ih ha
      exact ⟨b,mem_cons_of_mem _ hb,hab⟩

/-- The pages asked for are those of the store, which stays as it is. -/
theorem pages_read {α : Type} (requests : List (JsString × Nat × Nat))
    (k : List (List (Nat × JsString)) → ReducerProg α) :
    atStore u (ask (.textPages requests) >>= k)=
      atStore u (k (requests.map fun q => textPage u.text q.1 q.2.1 q.2.2)) := rfl

/-- The rounds end with the record and all its texts. -/
theorem restoreRounds_held (hs : v.Separated nfc) (hheld : ∀t∈(visit nfc [] v).2,t.Holds u.text)
    (hsome : ∀t∈(visit nfc [] v).2,t.normalized≠[]) {n : Nat} {rs : List (LongText × Nat)}
    {ts : List LongText} {kept : List PathKey → Bool}
    (hrs : ∀r∈rs,r.1∈(visit nfc [] v).2 ∧ r.2 < (textSlices r.1.normalized).length)
    (hts : ∀t∈ts,t∈(visit nfc [] v).2)
    (hcover : ∀t∈(visit nfc [] v).2,kept (t.path.map (PathKey.normalized nfc))=true ∨
      (∃o,(t,o)∈rs) ∨ t∈ts) (hn : unread rs ts < n) :
    atStore u (restoreRounds (fun requests => ask (.textPages requests)) n
      (readBack nfc (blank nfc kept [] v)) (rs.map fun r => r.1.reader nfc r.2)
      (ts.map (LongText.placed nfc)))=⟨[],.ok (readBack nfc v),u⟩ := by
  induction n generalizing rs ts kept with
  | zero => omega
  | succ n ih =>
    rw [restoreRounds,openReaders_texts]
    dsimp only
    set as := admitted rs ts with has
    have hin : ∀r∈as,r.1∈(visit nfc [] v).2 ∧ r.2 < (textSlices r.1.normalized).length := by
      intro r hr
      rw [has,admitted] at hr
      rcases mem_append.mp hr with hr | hr
      · exact hrs r hr
      · obtain ⟨t,ht,rfl⟩ := mem_map.mp hr
        have htv := hts t (mem_of_mem_take ht)
        exact ⟨htv,length_pos_iff.mpr (textSlices_ne_nil (hsome t htv))⟩
    by_cases hempty : as=[]
    · -- nothing is left: every long string has been put back
      have hnone : rs++(ts.take (2-rs.length)).map (fun t => (t,0))=[] := hempty
      obtain ⟨hrs0,hts0⟩ := append_eq_nil_iff.mp hnone
      have hts' : ts=[] := by
        rw [map_eq_nil_iff,take_eq_nil_iff,hrs0] at hts0
        exact hts0.resolve_left (by decide)
      have hwhole : blank nfc kept [] v=v := by
        refine @blank_whole nfc _ v [] [] rfl fun t ht => ?_
        rcases hcover t ht with h | ⟨o,h⟩ | h
        · exact h
        · rw [hrs0] at h
          exact (not_mem_nil h).elim
        · rw [hts'] at h
          exact (not_mem_nil h).elim
      rw [hempty,map_nil,if_pos rfl,hwhole]
      rfl
    · have hne : as.map (fun r => r.1.reader nfc r.2)≠[] := fun he =>
        hempty (map_eq_nil_iff.mp he)
      obtain ⟨rs',htake,hall⟩ := @takePages_held nfc _ _ (fun r hr => hheld r.1 (hin r hr).1)
        fun r hr => (hin r hr).2
      have hback : ∀r'∈rs',∃r∈as,r'.1=r.1 ∧ r.2 < r'.2 ∧
          r'.2 ≤ (textSlices r.1.normalized).length := fun r' hr' =>
        forall₂_left (List.Forall₂.flip hall) hr'
      have hin' : ∀r'∈rs',r'.1∈(visit nfc [] v).2 ∧
          r'.2 ≤ (textSlices r'.1.normalized).length := by
        intro r' hr'
        obtain ⟨r,hr,he,-,hle⟩ := hback r' hr'
        rw [he]
        exact ⟨(hin r hr).1,hle⟩
      obtain ⟨kept',hsettle,hmono,hdone⟩ := settle_held hs (fun r hr => (hin' r hr).1)
        (fun r hr => (hin' r hr).2) kept
      rw [if_neg hne]
      have hpages : as.map (fun r => textPage u.text (sha256Text r.1.normalized) r.2
          (textSlices r.1.normalized).length)=((as.map fun r => r.1.reader nfc r.2).map fun r =>
            (r.part.sha256,r.ordinal,r.part.chunks)).map fun q =>
              textPage u.text q.1 q.2.1 q.2.2 := by
        rw [map_map,map_map]
        rfl
      rw [hpages] at htake
      rw [pages_read,htake]
      dsimp only
      rw [hsettle]
      refine ih (fun r hr => ?_) (fun t ht => hts t (mem_of_mem_drop ht)) (fun t ht => ?_) ?_
      · obtain ⟨hr,hlt⟩ := mem_filter.mp hr
        exact ⟨(hin' r hr).1,of_decide_eq_true hlt⟩
      · have hgoes : ∀o,(t,o)∈as → kept' (t.path.map (PathKey.normalized nfc))=true ∨
            (∃o,(t,o)∈rs'.filter fun r => r.2 < (textSlices r.1.normalized).length) ∨
              t∈ts.drop (2-rs.length) := by
          intro o ho
          obtain ⟨⟨t',o'⟩,hr',he,-,hle⟩ := forall₂_left hall ho
          obtain rfl : t'=t := he
          rcases Nat.lt_or_ge o' (textSlices t'.normalized).length with hlt | hge
          · exact .inr (.inl ⟨o',mem_filter.mpr ⟨hr',decide_eq_true hlt⟩⟩)
          · exact .inl (hdone (t',o') hr' (le_antisymm hle hge))
        rcases hcover t ht with h | ⟨o,h⟩ | h
        · exact .inl (hmono _ h)
        · exact hgoes o (mem_append_left _ h)
        · rw [←take_append_drop (2-rs.length) ts] at h
          rcases mem_append.mp h with h | h
          · exact hgoes 0 (mem_append_right _ (mem_map.mpr ⟨t,h,rfl⟩))
          · exact .inr (.inr h)
      · have hless := unread_less hall (ts.drop (2-rs.length))
        have hpos := length_pos_iff.mpr hempty
        have hsame : unread as (ts.drop (2-rs.length))=unread rs ts := unread_split rs ts _
        omega

theorem restorePartitionedRecord_held (hs : v.Separated nfc)
    (hheld : ∀t∈(visit nfc [] v).2,t.Holds u.text)
    (hsome : ∀t∈(visit nfc [] v).2,t.normalized≠[]) :
    atStore u (restorePartitionedRecord (fun requests => ask (.textPages requests))
      ⟨readBack nfc (visit nfc [] v).1,(visit nfc [] v).2.map (LongText.placed nfc)⟩)=
      ⟨[],.ok (readBack nfc v),u⟩ := by
  have hfuel : unread [] (visit nfc [] v).2 <
      (((visit nfc [] v).2.map (LongText.placed nfc)).map fun part => part.chunks+1).sum+1 := by
    rw [unread,map_map]
    have hle : ∀ts : List LongText,(ts.map fun t => (textSlices t.normalized).length).sum ≤
        (ts.map ((fun part => part.chunks+1) ∘ LongText.placed nfc)).sum := by
      intro ts
      induction ts with
      | nil => exact le_refl _
      | cons t ts ih =>
        rw [map_cons,map_cons,sum_cons,sum_cons]
        exact Nat.add_le_add (Nat.le_succ _) ih
    have := hle (visit nfc [] v).2
    simp only [map_nil,sum_nil]
    omega
  rw [restorePartitionedRecord]
  dsimp only
  rw [visit_blank v [] []]
  have h := @restoreRounds_held nfc v u hs hheld hsome _ [] (visit nfc [] v).2 (fun _ => false)
    (fun r hr => (not_mem_nil hr).elim) (fun t ht => ht) (fun t ht => .inr (.inr ht)) hfuel
  exact h

theorem retainTextBatch_kept {cs : List TextChunk} {text : TextTable}
    (h : (retainTextBatch cs text).1=cs.map fun c => some c.content) :
    ∀c∈cs,(retainTextBatch cs text).2 c.sha256 c.ordinal=some c.content := by
  induction cs generalizing text with
  | nil => exact fun c hc => (not_mem_nil hc).elim
  | cons c cs ih =>
    rw [retainTextBatch] at h ⊢
    obtain ⟨hfirst,hrest⟩ := List.cons.inj h
    intro d hd
    rcases mem_cons.mp hd with rfl | hd
    · exact retainTextBatch_grows cs _ _ _ _ hfirst
    · exact ih hrest d hd

theorem retainBatches_kept {batches : List (List TextChunk)}
    (h : (atStore u (retainBatches (fun chunks => ask (.retainText chunks)) batches)).result=
      .ok ()) : u.text.Le (atStore u
        (retainBatches (fun chunks => ask (.retainText chunks)) batches)).store.text ∧
      ∀batch∈batches,∀c∈batch,(atStore u (retainBatches (fun chunks => ask (.retainText chunks))
        batches)).store.text c.sha256 c.ordinal=some c.content := by
  induction batches generalizing u with
  | nil => exact ⟨fun _ _ _ h => h,fun _ hb => (not_mem_nil hb).elim⟩
  | cons batch batches ih =>
    have he : atStore u (retainBatches (fun chunks => ask (.retainText chunks)) (batch::batches))=
        if (retainTextBatch batch u.text).1=batch.map (fun c => some c.content) then
          atStore { u with text := (retainTextBatch batch u.text).2 }
            (retainBatches (fun chunks => ask (.retainText chunks)) batches)
        else ⟨[],.error textReplayChanged,{ u with text := (retainTextBatch batch u.text).2 }⟩ := by
      show atStore _ (if (retainTextBatch batch u.text).1=batch.map (fun c => some c.content) then
        retainBatches (fun chunks => ask (.retainText chunks)) batches else _)=_
      split
      · rfl
      · rfl
    rw [he] at h ⊢
    split at h
    · rename_i hkept
      obtain ⟨hle,hall⟩ := ih h
      rw [if_pos hkept]
      refine ⟨(retainTextBatch_grows batch u.text).trans hle,fun b hb c hc => ?_⟩
      rcases mem_cons.mp hb with rfl | hb
      · exact hle _ _ _ (retainTextBatch_kept hkept c hc)
      · exact hall b hb c hc
    · cases h

theorem natural_cast (n : Nat) : natural (.num n)=some n := by
  rw [natural,if_pos ⟨Rat.den_natCast n,by simp⟩]
  simp

theorem sha_normalized (nfc : Nfc) (s : JsString) :
    nfc.normalize (sha256Text s)=sha256Text s := nfc.ascii _ (sha256_ascii _)

theorem mapM_each {α β γ : Type} {f : β → Option γ} {g : α → β} {h : α → γ}
    (hall : ∀a,f (g a)=some (h a)) (as : List α) : (as.map g).mapM f=some (as.map h) := by
  induction as with
  | nil => rfl
  | cons a as ih =>
    rw [map_cons,mapM_cons,hall,ih]
    rfl

theorem path_reads (nfc : Nfc) (path : List PathKey) :
    ((path.map PathKey.json).map fun k => (k.canonical nfc).own).mapM PathKey.of=
      some (path.map (PathKey.normalized nfc)) := by
  rw [map_map]
  refine mapM_each (fun k => ?_) path
  cases k with
  | name k => rfl
  | index n =>
    show (natural (.num n)).map PathKey.index=_
    rw [natural_cast]
    rfl

theorem part_reads (nfc : Nfc) (t : LongText) :
    TextPart.of ((t.part.json.canonical nfc).own)=some (t.placed nfc) := by
  have hn1 : nfc.normalize (js "path".toList)=js "path".toList := nfc.ascii _ (by decide)
  have hn2 : nfc.normalize (js "sha256".toList)=js "sha256".toList := nfc.ascii _ (by decide)
  have hn3 : nfc.normalize (js "chunks".toList)=js "chunks".toList := nfc.ascii _ (by decide)
  have hn4 : nfc.normalize (js "byte_length".toList)=js "byte_length".toList :=
    nfc.ascii _ (by decide)
  have hkeys : ([(js "path".toList,Json.arr (t.part.path.map PathKey.json)),
      (js "sha256".toList,.str t.part.sha256),(js "chunks".toList,.num t.part.chunks),
      (js "byte_length".toList,.num t.part.byte_length)].map
        fun m : JsString × Json => nfc.normalize m.1).Nodup := by
    simp only [map_cons,map_nil,hn1,hn2,hn3,hn4]
    decide
  have hpath := member_canonical_own nfc hkeys mem_cons_self
  have hsha := member_canonical_own nfc hkeys (mem_cons_of_mem _ mem_cons_self)
  have hchunks := member_canonical_own nfc hkeys
    (mem_cons_of_mem _ (mem_cons_of_mem _ mem_cons_self))
  have hbytes := member_canonical_own nfc hkeys
    (mem_cons_of_mem _ (mem_cons_of_mem _ (mem_cons_of_mem _ mem_cons_self)))
  rw [hn1] at hpath
  rw [hn2] at hsha
  rw [hn3] at hchunks
  rw [hn4] at hbytes
  have harr : ((Json.arr (t.part.path.map PathKey.json)).canonical nfc).own=
      .arr ((t.part.path.map PathKey.json).map fun k => (k.canonical nfc).own) :=
    readBack_arr _
  have hstr : ((Json.str t.part.sha256).canonical nfc).own=.str t.part.sha256 :=
    congrArg Json.str (sha_normalized nfc t.normalized)
  have hnum : ∀n : Nat,((Json.num n).canonical nfc).own=.num n := fun _ => rfl
  rw [harr] at hpath
  rw [hstr] at hsha
  rw [hnum] at hchunks hbytes
  rw [TextPart.of,TextPart.json]
  simp only [hpath,hsha,hchunks,hbytes,Option.bind_eq_bind,Option.bind_some,path_reads,natural_cast]
  rfl

def storedEnvelope (nfc : Nfc) (v : Json) : RecordEnvelope :=
  ⟨readBack nfc (visit nfc [] v).1,(visit nfc [] v).2.map (LongText.placed nfc)⟩

theorem envelope_of (nfc : Nfc) (record : Json) : RecordEnvelope.of
    ((envelope nfc record).json.canonical nfc).own=some (storedEnvelope nfc record) := by
  set e := envelope nfc record with he
  obtain ⟨hvalue,hparts⟩ := envelope_members nfc e
  have harr : ((Json.arr (e.text_parts.map TextPart.json)).canonical nfc).own=
      .arr ((e.text_parts.map TextPart.json).map fun p => (p.canonical nfc).own) := readBack_arr _
  have hof : ((e.text_parts.map TextPart.json).map fun p => (p.canonical nfc).own).mapM
      TextPart.of=some ((visit nfc [] record).2.map (LongText.placed nfc)) := by
    rw [he,envelope,map_map,map_map]
    exact mapM_each (part_reads nfc) _
  rw [harr] at hparts
  rw [RecordEnvelope.of]
  simp only [hparts,hvalue,Option.bind_eq_bind,Option.bind_some,hof]
  rfl

theorem envelope_restored (nfc : Nfc) {record : Json}
    (h : canonicalJson nfc (envelope nfc record).json=.ok content) :
    (jsonParse content).bind RecordEnvelope.of=some (storedEnvelope nfc record) := by
  have hi := integral_of_canonicalJsonAt nfc h
  rw [canonicalJson,canonicalJsonAt_eq nfc hi] at h
  obtain rfl := Except.ok.inj h
  rw [jsonParse_canonical nfc hi,Option.bind_some,envelope_of]

theorem retained_held (nfc : Nfc) {record : Json} {e : RecordEnvelope}
    (h : (atStore u (retainPartitionedRecord nfc (fun chunks => ask (.retainText chunks))
      record)).result=.ok e) : e=envelope nfc record ∧
      ∀t∈(visit nfc [] record).2,t.Holds (atStore u (retainPartitionedRecord nfc
        (fun chunks => ask (.retainText chunks)) record)).store.text := by
  refine ⟨(retainPartitionedRecord_alone nfc record u).2 e h,fun t ht => ?_⟩
  have he : atStore u (retainPartitionedRecord nfc (fun chunks => ask (.retainText chunks)) record)=
      atStore u (retainBatches (fun chunks => ask (.retainText chunks))
        (flushes [] 0 (recordChunks nfc record)) >>= fun _ => pure (envelope nfc record)) := rfl
  rw [he] at h ⊢
  rw [atStore,alone_bind] at h ⊢
  cases hr : (alone (plain refer) (retainBatches (fun chunks =>
      ask (.retainText chunks)) (flushes [] 0 (recordChunks nfc record)) :
        ReducerProg Unit) u).result with
  | error e =>
    rw [hr] at h
    cases h
  | ok a =>
    have hkept := (retainBatches_kept hr).2
    refine holds_of_chunks fun c hc => ?_
    have hin : c∈(flushes [] 0 (recordChunks nfc record)).flatten := by
      rw [flushes_flatten,nil_append]
      exact mem_flatMap.mpr ⟨t,ht,hc⟩
    obtain ⟨batch,hb,hcb⟩ := mem_flatten.mp hin
    exact hkept batch hb c hcb

theorem accept_after {xs : Indexes} (w : PreparedWrite) (s : ReducerStore) : alone (plain refer)
    ((pure w : ReducerProg PreparedWrite) >>= fun w => commitWrite w >>= fun _ =>
      (pure (xs.accept w) : ReducerProg Indexes)) s=
    alone (plain refer) (commitWrite w >>= fun _ =>
      (pure (xs.accept w) : ReducerProg Indexes)) s := rfl

theorem set_leaves (nfc : Nfc) {xs ys : Indexes} {entry : ReducerEntry}
    (h : (atStore u (set nfc xs entry)).result=.ok ys) : ∃content,
      canonicalJson nfc (envelope nfc entry.value.own).json=.ok content ∧
      (xs entry.space).ordinal≠0 ∧
      ys entry.space=accept (xs entry.space) ⟨entry.space,sha256Text entry.key,
        (xs entry.space).ordinal,content,sha256Text content,
        (envelope nfc entry.value.own).text_parts=[]⟩ ∧
      (atStore u (set nfc xs entry)).store.state entry.space (sha256Text entry.key)
        (xs entry.space).ordinal=some ⟨content,sha256Text content⟩ ∧
      ∀t∈(visit nfc [] entry.value.own).2,t.Holds (atStore u (set nfc xs entry)).store.text := by
  set retain : ReducerProg RecordEnvelope := retainPartitionedRecord nfc
    (fun chunks => ask (.retainText chunks)) entry.value.own with hretain
  have hset : set nfc xs entry=(retain >>= boundWrite nfc (xs entry.space) entry) >>=
      fun w => commitWrite w >>= fun _ => pure (xs.accept w) := rfl
  rw [hset,Prog.bind_assoc] at h ⊢
  rw [atStore,alone_bind] at h ⊢
  cases hr : (alone (plain refer) retain u).result with
  | error e =>
    rw [hr] at h
    cases h
  | ok e =>
    obtain ⟨rfl,hheld⟩ := retained_held nfc (hretain ▸ hr)
    rw [hr] at h
    dsimp only at h ⊢
    set z := (alone (plain refer) retain u).store with hz
    rw [boundWrite] at h ⊢
    cases hc : canonicalJson nfc (envelope nfc entry.value.own).json with
    | error m =>
      rw [hc] at h
      cases h
    | ok content =>
      rw [hc] at h
      dsimp only at h ⊢
      by_cases hbig : byteLength content > 524288
      · rw [if_pos hbig] at h
        cases h
      · rw [if_neg hbig] at h ⊢
        set w : PreparedWrite := ⟨entry.space,sha256Text entry.key,(xs entry.space).ordinal,content,
          sha256Text content,(envelope nfc entry.value.own).text_parts=[]⟩ with hw
        rw [accept_after,alone_bind] at h ⊢
        have hcommit := commitWrite_alone w z
        have hgrows := alone_grows
          (F := reducerReference z [] (fun _ _ => True) fun _ _ _ _ h => h) (commitWrite w) z
        cases hv : (alone (plain refer) (commitWrite w) z).result with
        | error m =>
          rw [hv] at h
          cases h
        | ok a =>
          rw [hv] at h
          obtain ⟨hordinal,hrow⟩ := hcommit.accepted a hv
          obtain rfl : xs.accept w=ys := Except.ok.inj h
          refine ⟨content,rfl,hordinal w mem_cons_self,Function.update_self _ _ _,
            hrow w mem_cons_self,fun t ht => (hheld t ht).mono ?_⟩
          exact hgrows.2

theorem visit_long (v : Json) {raw : List PathKey} {t : LongText} (ht : t∈(visit nfc raw v).2) :
    ∃s : JsString,32768 < s.length ∧ t.normalized=nfc.normalize s := by
  induction v using Json.induct generalizing raw with
  | null => exact (not_mem_nil ht).elim
  | bool b => exact (not_mem_nil ht).elim
  | num q => exact (not_mem_nil ht).elim
  | str s =>
    rw [visit] at ht
    split at ht
    · rename_i hlong
      obtain rfl := mem_singleton.mp ht
      exact ⟨s,hlong,rfl⟩
    · exact (not_mem_nil ht).elim
  | arr vs ih =>
    rw [visit,visitItems_map] at ht
    obtain ⟨⟨w,i⟩,hw,htw⟩ := mem_flatMap.mp ht
    exact ih w (fst_mem_of_mem_zipIdx hw) htw
  | obj ms ih =>
    rw [visit,visitMembers_map] at ht
    obtain ⟨m,hm,htm⟩ := mem_flatMap.mp ht
    exact ih m hm htm

theorem restoreRow_held (hs : v.Separated nfc)
    (hc : canonicalJson nfc (envelope nfc v).json=.ok content)
    (hheld : ∀t∈(visit nfc [] v).2,t.Holds u.text) (hsome : ∀t∈(visit nfc [] v).2,t.normalized≠[]) :
    atStore u (restoreRow (some ⟨content,sha256Text content⟩))=
    ⟨[],.ok (some (readBack nfc v)),u⟩ := by
  have hrestore := restorePartitionedRecord_held hs hheld hsome
  rw [restoreRow,if_neg (by simp),envelope_restored nfc hc]
  show alone _ (restorePartitionedRecord (fun requests => ask (.textPages requests))
    ⟨readBack nfc (visit nfc [] v).1,(visit nfc [] v).2.map (LongText.placed nfc)⟩ >>= fun value =>
      pure (some value)) u=_
  rw [alone_bind]
  rw [atStore] at hrestore
  simp only [hrestore]
  rfl

theorem whole_reads (nfc : Nfc) (hc : canonicalJson nfc (envelope nfc v).json=.ok content)
    (hp : (envelope nfc v).text_parts=[]) :
    (jsonParse content).bind (Json.member (js "value".toList))=some (readBack nfc v) := by
  obtain ⟨j,hj,hm,-⟩ := envelope_reads nfc hc hp
  have hnone : (visit nfc [] v).2=[] := map_eq_nil_iff.mp hp
  have hwhole : (envelope nfc v).value=v := by
    show (visit nfc [] v).1=v
    rw [visit_blank v [] []]
    refine @blank_whole nfc _ v [] [] rfl fun t ht => ?_
    rw [hnone] at ht
    exact (not_mem_nil ht).elim
  rw [hj,Option.bind_some,hm,hwhole]
  rfl

/-- What `set` has retained, `get` reads back: through the same index, or through an index that is
reopened there, and in every store that has only grown since. -/
theorem set_reads_back (nfc : Nfc) (hempty : ∀s,nfc.normalize s=[] → s=[]) {xs ys : Indexes}
    {entry : ReducerEntry} {u v : ReducerStore} (hs : entry.value.own.Separated nfc)
    (hset : (atStore u (set nfc xs entry)).result=.ok ys)
    (hv : (atStore u (set nfc xs entry)).store ≤ v) :
    ∀x∈[ys entry.space,.resumeAt (xs entry.space).ordinal], atStore v (get entry.space x entry.key)=
    ⟨[],.ok (some (readBack nfc entry.value.own)),v⟩ := by
  obtain ⟨content,hc,hordinal,hys,hrow,hheld⟩ := set_leaves nfc hset
  have hsome : ∀t∈(visit nfc [] entry.value.own).2,t.normalized≠[] := by
    intro t ht he
    obtain ⟨s,hlong,hts⟩ := visit_long entry.value.own ht
    rw [hts] at he
    rw [hempty s he] at hlong
    cases hlong
  have hread := restoreRow_held hs hc (fun t ht => (hheld t ht).mono hv.2) hsome
  -- both indexes see the row of their own ordinal
  have hlatest : latestBelow (v.state entry.space (sha256Text entry.key))
      ((xs entry.space).ordinal+1)=some ⟨content,sha256Text content⟩ := by
    rw [latestBelow,hv.1 _ _ _ _ hrow]
  have hstatement : ∀x : IndexState,readRequest x entry.key=
      .statement (sha256Text entry.key) ((xs entry.space).ordinal+1) →
      atStore v (get entry.space x entry.key)=
        ⟨[],.ok (some (readBack nfc entry.value.own)),v⟩ := by
    intro x hx
    rw [get,hx]
    show alone _ (restoreRow ([latestBelow (v.state entry.space (sha256Text entry.key))
      ((xs entry.space).ordinal+1)].headD none)) v=_
    rw [hlatest]
    exact hread
  intro x hx
  simp only [mem_cons,not_mem_nil,or_false] at hx
  rcases hx with rfl | rfl
  · rw [hys,accept,if_pos rfl]
    by_cases hsmall : decide ((envelope nfc entry.value.own).text_parts=[])=true ∧
        byteLength content ≤ 32768
    · have hcached : readRequest { xs entry.space with
          written := sha256Text entry.key::(xs entry.space).written,
          lastWrite := some ⟨sha256Text entry.key,content⟩ } entry.key=
          .cached (some (readBack nfc entry.value.own)) := by
        rw [readRequest,if_neg hordinal]
        simp only [Option.filter,decide_true,if_true]
        rw [whole_reads nfc hc (of_decide_eq_true hsmall.1)]
      rw [if_pos hsmall,get,hcached]
      rfl
    · refine hstatement _ ?_
      rw [if_neg hsmall,readRequest,if_neg hordinal]
      simp [IndexState.before]
  · refine hstatement _ ?_
    have h0 : (IndexState.resumeAt (xs entry.space).ordinal).ordinal≠0 := hordinal
    rw [readRequest,if_neg h0]
    simp [IndexState.resumeAt,IndexState.before]

end

/-- An index at its first observation. -/
def atFirst : Indexes := fun _ => IndexState.fresh.beginObservation

theorem acute_keeps (s : JsString) (h : acute.normalize s=[]) : s=[] := by
  have h : composeAcute s=[] := h
  unfold composeAcute at h
  split at h
  · cases h
  · cases h
  · rfl

theorem natural_integral (n : Nat) : (Json.num n).Integral := Rat.den_natCast n

theorem RecordEnvelope.integral {e : RecordEnvelope} (h : e.value.Integral) : e.json.Integral := by
  have hpart : ∀p : TextPart,p.json.Integral := by
    intro p
    rw [TextPart.json,Json.Integral,all_obj]
    refine ⟨trivial,fun m hm => ?_⟩
    simp only [mem_cons,not_mem_nil,or_false] at hm
    rcases hm with rfl | rfl | rfl | rfl
    · rw [all_arr]
      intro k hk
      obtain ⟨k,-,rfl⟩ := mem_map.mp hk
      cases k with
      | name k => trivial
      | index n => exact natural_integral n
    · trivial
    · exact natural_integral _
    · exact natural_integral _
  rw [RecordEnvelope.json,Json.Integral,all_obj]
  refine ⟨trivial,fun m hm => ?_⟩
  simp only [mem_cons,not_mem_nil,or_false] at hm
  rcases hm with rfl | rfl | rfl
  · trivial
  · exact h
  · rw [all_arr]
    intro p hp
    obtain ⟨p,-,rfl⟩ := mem_map.mp hp
    exact hpart p

section
variable {nfc : Nfc} {xs : Indexes} {entry : ReducerEntry} {u : ReducerStore} {kept : TextTable}

theorem retainBatches_settled {batches : List (List TextChunk)} (hu : TextTable.Le u.text kept)
    (hb : ∀batch∈batches,∀c∈batch,TextChunk.Settled kept c) :
    (atStore u (retainBatches (fun chunks => ask (.retainText chunks)) batches)).result=
      .ok () := by
  induction batches generalizing u with
  | nil => rfl
  | cons batch batches ih =>
    obtain ⟨hfound,hle⟩ := retainTextBatch_settled hu (hb batch mem_cons_self)
    show (alone _ (if (retainTextBatch batch u.text).1=batch.map (fun c => some c.content) then
      retainBatches (fun chunks => ask (.retainText chunks)) batches
      else .fail textReplayChanged : ReducerProg Unit) _).result=_
    rw [if_pos hfound]
    exact ih hle fun b hb' => hb b (mem_cons_of_mem _ hb')

theorem commitWrite_free {w : PreparedWrite} (h0 : w.ordinal≠0) (hfree : u.at w=none)
    (hw : wellFormed w.content=true) : (atStore u (commitWrite w)).result=.ok () := by
  have hat := retainReducerState_at u w
  rw [hfree,Option.getD_none] at hat
  have hrow : w.stored=w.row := by
    rw [PreparedWrite.stored,storedText_wellFormed hw]
    rfl
  rw [atStore,commitWrite_verdict h0,verdict,if_pos]
  · rfl
  · intro w' hw'
    rw [mem_singleton.mp hw',hat,hrow]

/-- A value is retained at a free place when its chunks can be and its envelope is small. -/
theorem set_succeeds (hu : u.text.Le kept)
    (hchunks : ∀c∈recordChunks nfc entry.value.own,TextChunk.Settled kept c)
    (hi : (envelope nfc entry.value.own).json.Integral)
    (hsmall : byteLength ((envelope nfc entry.value.own).json.canonical nfc).print ≤ 524288)
    (h0 : (xs entry.space).ordinal≠0)
    (hfree : u.state entry.space (sha256Text entry.key) (xs entry.space).ordinal=none) :
    ∃ys,(atStore u (set nfc xs entry)).result=.ok ys := by
  set retain : ReducerProg RecordEnvelope := retainPartitionedRecord nfc
    (fun chunks => ask (.retainText chunks)) entry.value.own with hretain
  have hset : set nfc xs entry=(retain >>= boundWrite nfc (xs entry.space) entry) >>=
      fun w => commitWrite w >>= fun _ => pure (xs.accept w) := rfl
  have hkept : (atStore u (retainBatches (fun chunks => ask (.retainText chunks))
      (flushes [] 0 (recordChunks nfc entry.value.own)))).result=.ok () :=
    retainBatches_settled hu fun batch hb c hc => hchunks c (flushes_mem hb hc)
  have hok : (alone (plain refer) retain u).result=
      .ok (envelope nfc entry.value.own) := by
    have he : retain=(retainBatches (fun chunks => ask (.retainText chunks))
      (flushes [] 0 (recordChunks nfc entry.value.own)) >>= fun _ =>
        pure (envelope nfc entry.value.own)) := rfl
    rw [he,alone_bind]
    rw [atStore] at hkept
    rw [hkept]
    rfl
  have hstate := (retainPartitionedRecord_alone nfc entry.value.own u).1
  rw [←hretain] at hstate
  set content := ((envelope nfc entry.value.own).json.canonical nfc).print with hcontent
  have hc : canonicalJson nfc (envelope nfc entry.value.own).json=.ok content :=
    canonicalJsonAt_eq nfc hi _
  set w : PreparedWrite := ⟨entry.space,sha256Text entry.key,(xs entry.space).ordinal,content,
    sha256Text content,(envelope nfc entry.value.own).text_parts=[]⟩ with hw
  set z := (alone (plain refer) retain u).store with hz
  have hcommit : (atStore z (commitWrite w)).result=.ok () := by
    refine commitWrite_free h0 ?_ (print_wellFormed _)
    show z.state _ _ _=none
    rw [hstate]
    exact hfree
  refine ⟨xs.accept w,?_⟩
  rw [hset,Prog.bind_assoc,atStore,alone_bind,hok]
  dsimp only
  rw [boundWrite,hc]
  dsimp only
  rw [if_neg (Nat.not_lt.mpr hsmall)]
  rw [accept_after,alone_bind]
  rw [atStore] at hcommit
  rw [hcommit]
  rfl

end

/-- A text of two chunks. -/
def longWord : JsString := List.replicate 40000 97

theorem longWord_ascii : isAscii longWord=true := by
  rw [longWord,isAscii,all_replicate]
  decide

theorem slices_replicate {n m : Nat} (hm : 32768 < m) :
    slices (n+1) (List.replicate m (97 : UInt16))=
      List.replicate 32768 97::slices n (List.replicate (m-32768) 97) := by
  have hend : sliceEnd (List.replicate m (97 : UInt16))=32768 := by
    rw [sliceEnd,length_replicate,Nat.min_eq_left (Nat.le_of_lt hm),if_neg]
    rintro ⟨-,hhigh⟩
    rw [List.getD_eq_getElem?_getD,List.getElem?_replicate_of_lt (by omega)] at hhigh
    exact absurd hhigh (by decide)
  rw [slices,if_neg (by rw [replicate_eq_nil_iff]; omega),hend,take_replicate,
    drop_replicate,Nat.min_eq_left (Nat.le_of_lt hm)]

theorem slices_last {n m : Nat} (h0 : m≠0) (hm : m ≤ 32768) :
    slices (n+2) (List.replicate m (97 : UInt16))=[List.replicate m 97] := by
  have hend : sliceEnd (List.replicate m (97 : UInt16))=m := by
    rw [sliceEnd,length_replicate,Nat.min_eq_right hm,if_neg]
    rintro ⟨hlt,-⟩
    omega
  rw [slices,if_neg (by rwa [replicate_eq_nil_iff]),hend,take_replicate,
    drop_replicate,Nat.min_self,Nat.sub_self]
  rfl

theorem longWord_slices : textSlices longWord=[List.replicate 32768 97,List.replicate 7232 97] := by
  rw [textSlices,longWord,length_replicate]
  rw [show (40000 : Nat)=39999+1 from rfl,slices_replicate (by omega)]
  exact congrArg _ (@slices_last 39997 7232 (by omega) (by omega))

def notedValue : Json :=
  .obj [([101,769],.str [101,769]),(js ['t'],.str longWord),(js ['n'],.arr [.num 1,.null])]

theorem notedValue_own : notedValue.own=notedValue := by
  rw [notedValue]
  rfl

theorem notedValue_visit : visit acute [] notedValue=
    (.obj [([101,769],.str [101,769]),(js ['t'],.null),(js ['n'],.arr [.num 1,.null])],
      [⟨[.name (js ['t'])],longWord⟩]) := by
  have hlong : longWord.length > 32768 := by
    rw [longWord,length_replicate]
    omega
  have hsame : acute.normalize longWord=longWord := acute.ascii _ longWord_ascii
  have htext : ∀path,visit acute path (.str longWord)=(.null,[⟨path,longWord⟩]) := by
    intro path
    rw [visit,if_pos hlong,hsame]
  rw [notedValue,visit,visitMembers,visitMembers,htext]
  rfl

/-- The table with the chunks of the text and no others. -/
def wordTable : TextTable := fun h o =>
  if h=sha256Text longWord then (textSlices longWord)[o]? else none

theorem slice_ascii {c : JsString} (h : c∈textSlices longWord) : isAscii c=true := by
  have hflat := textSlices_flatten longWord
  refine all_eq_true.mpr fun u hu => ?_
  have hword := all_eq_true.mp longWord_ascii
  exact hword u (hflat ▸ mem_flatten_of_mem h hu)

theorem word_settled {t : LongText} (ht : t.normalized=longWord) {c : TextChunk}
    (hc : c∈t.chunks) : TextChunk.Settled wordTable c := by
  rw [LongText.chunks,ht] at hc
  obtain ⟨⟨s,o⟩,hs,rfl⟩ := mem_map.mp hc
  have hat := List.mem_zipIdx_iff_getElem?.mp hs
  refine ⟨?_,storedText_wellFormed (wellFormed_ascii (slice_ascii (List.mem_of_getElem? hat)))⟩
  show (if sha256Text longWord=sha256Text longWord then (textSlices longWord)[o]? else none)=_
  rw [if_pos rfl]
  exact hat

def wordPart (path : List PathKey) : TextPart := ⟨path,sha256Text longWord,2,40000⟩

theorem word_part (path : List PathKey) : (LongText.mk path longWord).part=wordPart path := by
  have hbytes : byteLength longWord=40000 := by
    rw [byteLength,utf8_length_ascii longWord_ascii,longWord,length_replicate]
  rw [LongText.part,longWord_slices,hbytes]
  rfl

theorem sha_bytes (nfc : Nfc) (s : JsString) :
    byteLength ((Json.str (sha256Text s)).canonical nfc).print ≤ 386 := by
  have hsame : nfc.normalize (sha256Text s)=sha256Text s := nfc.ascii _ (sha256_ascii _)
  have hquote := quote_bytes (sha256Text s)
  have hlen : (sha256Text s).length=64 := sha256_length _
  have hprint : ((Json.str (sha256Text s)).canonical nfc).print=quote (sha256Text s) :=
    congrArg quote hsame
  rw [hlen] at hquote
  rw [hprint]
  exact hquote

/-- The envelope of a record with one text apart. -/
theorem envelope_bytes (value : Json) (p : TextPart)
    (hvalue : byteLength (value.canonical acute).print ≤ 200)
    (hpath : byteLength ((Json.arr (p.path.map PathKey.json)).canonical acute).print ≤ 200)
    (hsha : byteLength ((Json.str p.sha256).canonical acute).print ≤ 400)
    (hchunks : byteLength ((Json.num p.chunks).canonical acute).print ≤ 20)
    (hbytes : byteLength ((Json.num p.byte_length).canonical acute).print ≤ 20) :
    byteLength ((RecordEnvelope.mk value [p]).json.canonical acute).print ≤ 2000 := by
  have hkey : ∀k : JsString,k.length ≤ 11 → isAscii k=true →
      byteLength (quote (acute.normalize k)) ≤ 68 := by
    intro k hk ha
    have hquote := quote_bytes k
    rw [acute.ascii k ha]
    exact hquote.trans (by omega)
  have hcontract : byteLength ((Json.str (js "card-keepr-partitioned-record@1".toList)).canonical
    acute).print ≤ 40 := by decide +kernel
  have hk1 := hkey (js "contract".toList) (by decide) (by decide)
  have hk2 := hkey (js "value".toList) (by decide) (by decide)
  have hk3 := hkey (js "text_parts".toList) (by decide) (by decide)
  have hk4 := hkey (js "path".toList) (by decide) (by decide)
  have hk5 := hkey (js "sha256".toList) (by decide) (by decide)
  have hk6 := hkey (js "chunks".toList) (by decide) (by decide)
  have hk7 := hkey (js "byte_length".toList) (by decide) (by decide)
  rw [RecordEnvelope.json,canonical_obj_bytes]
  simp only [map_cons,map_nil,sum_cons,sum_nil,length_cons,length_nil]
  rw [canonical_arr_bytes _ [p.json],map_singleton,sum_singleton,TextPart.json,canonical_obj_bytes]
  simp only [map_cons,map_nil,sum_cons,sum_nil,length_cons,length_nil]
  omega

theorem num_bytes {n : Nat} (h : byteLength (integerText n) ≤ 20) :
    byteLength ((Json.num n).canonical acute).print ≤ 20 := by
  have hnum : ((Json.num n).canonical acute).print=integerText n := by
    show integerText (n : ℚ).num=_
    rw [Rat.num_natCast]
  rw [hnum]
  exact h

theorem worded_bytes (value : Json) (path : List PathKey)
    (h : byteLength (value.canonical acute).print ≤ 200)
    (hpath : byteLength ((Json.arr (path.map PathKey.json)).canonical acute).print ≤ 200) :
    byteLength ((RecordEnvelope.mk value [wordPart path]).json.canonical acute).print ≤ 2000 :=
  envelope_bytes value (wordPart path) h hpath ((sha_bytes acute longWord).trans (by omega))
    (num_bytes (n := 2) (by decide +kernel)) (num_bytes (n := 40000) (by decide +kernel))

def noted : ReducerEntry := ⟨js ['n'],js ['k'],notedValue⟩

theorem noted_envelope : envelope acute notedValue=
    ⟨.obj [([101,769],.str [101,769]),(js ['t'],.null),(js ['n'],.arr [.num 1,.null])],
      [wordPart [.name (js ['t'])]]⟩ := by
  rw [envelope,notedValue_visit]
  show (⟨_,[(LongText.mk _ longWord).part]⟩ : RecordEnvelope)=_
  rw [word_part]

theorem noted_integral : (envelope acute notedValue).json.Integral := by
  refine RecordEnvelope.integral ?_
  rw [noted_envelope]
  exact ⟨trivial,trivial,trivial,⟨rfl,trivial,trivial⟩,trivial⟩

theorem noted_small :
    byteLength ((envelope acute notedValue).json.canonical acute).print ≤ 524288 := by
  rw [noted_envelope]
  exact (worded_bytes _ _ (by decide +kernel) (by decide +kernel)).trans (by omega)

theorem noted_chunks : ∀c∈recordChunks acute notedValue,TextChunk.Settled wordTable c := by
  intro c hc
  rw [recordChunks,notedValue_visit] at hc
  obtain ⟨t,ht,hc⟩ := mem_flatMap.mp hc
  rw [mem_singleton.mp ht] at hc
  exact word_settled rfl hc

theorem noted_separated : notedValue.Separated acute :=
  ⟨by decide +kernel,trivial,trivial,⟨trivial,trivial,trivial⟩,trivial⟩

theorem atStore_grows {α : Type} (p : ReducerProg α) (u : ReducerStore) : u ≤ (atStore u p).store :=
  alone_grows (F := reducerReference u [] (fun _ _ => True) fun _ _ _ _ h => h) p u

theorem noted_readBack (w : JsString) : readBack acute
    (.obj [([101,769],.str [101,769]),(js ['t'],.str w),(js ['n'],.arr [.num 1,.null])])= .obj
    [(js ['n'],.arr [.num 1,.null]),(js ['t'],.str (acute.normalize w)), ([233],.str [233])] := by
  have harrange : arrange acute
      [([101,769],.str [101,769]),(js ['t'],.str w),(js ['n'],.arr [.num 1,.null])]=
      [(js ['n'],.arr [.num 1,.null]),(js ['t'],.str w),([101,769],.str [101,769])] := by
    with_unfolding_all rfl
  have hkeys : ([[101,769],js ['t'],js ['n']].map acute.normalize).Nodup := by decide +kernel
  refine Eq.trans (readBack_obj ?_) ?_
  · exact hkeys
  rw [harrange]
  simp only [map_cons,map_nil,readBack_arr]
  rfl

/-- The value is read back from a store to which another index has added since. -/
theorem noted_reads_back : ∃ys,(atStore .empty (set acute atFirst noted)).result=.ok ys ∧
    ∀x∈[ys (js ['n']),.resumeAt 1],
      let u := (atStore .empty (set acute atFirst noted)).store
      let v := (atStore u (set acute ys ⟨js ['m'],js ['k'],.num 2⟩)).store
      (atStore v (get (js ['n']) x (js ['k']))).result=.ok (some (.obj
        [(js ['n'],.arr [.num 1,.null]),(js ['t'],.str longWord),([233],.str [233])])) := by
  have hown : noted.value.own=notedValue := notedValue_own
  obtain ⟨ys,hys⟩ := @set_succeeds acute atFirst noted .empty wordTable (fun _ _ _ h => by cases h)
    (hown ▸ noted_chunks) (hown ▸ noted_integral) (hown ▸ noted_small) (by decide) rfl
  refine ⟨ys,hys,fun x hx => ?_⟩
  have hread := @set_reads_back acute acute_keeps atFirst ys noted .empty _
    (hown ▸ noted_separated) hys (atStore_grows (set acute ys ⟨js ['m'],js ['k'],.num 2⟩) _) x hx
  refine (congrArg Outcome.result hread).trans ?_
  rw [hown,notedValue,noted_readBack,acute.ascii _ longWord_ascii]

end CardKeepr.Reconciliation
