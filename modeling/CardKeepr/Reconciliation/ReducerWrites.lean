import CardKeepr.Reconciliation.ReducerViews

namespace CardKeepr.Reconciliation

open Lib Shared Durable ReducerStore

section
variable {z : ReducerStore} {L : List ReducerEvent}
  {Good : ReducerCheckpoint → ReducerStore → Prop} {mono : ∀c u v,u ≤ v → Good c u → Good c v}

theorem retainBatches_follows (batches : List (List TextChunk)) (u : ReducerStore) :
    Durable.Follows (reducerReference z L Good mono) Eq
      (retainBatches (fun chunks => ask (.retainText chunks)) batches : ReducerProg Unit)
      (retainBatches (fun chunks => ask (.retainText chunks)) batches) u := by
  induction batches generalizing u with
  | nil => exact follows_ret rfl u
  | cons batch batches ih =>
    apply follows_call
    · intro hz v huv hvz
      obtain ⟨h1,h2,h3⟩ := retainTextBatch_agree huv.2 hvz.2 hz.2
      exact ⟨h1,⟨huv.1,h2⟩,hvz.1,h3⟩
    · show Durable.Follows _ Eq (if _ then _ else _) (if _ then _ else _) _
      split
      · exact ih _
      · exact follows_fail _ _

theorem prepareWrite_follows (nfc : Nfc) (x : IndexState) (entry : ReducerEntry)
    (u : ReducerStore) : Durable.Follows (reducerReference z L Good mono) Eq
      (prepareWrite nfc x entry) (prepareWrite nfc x entry) u := by
  refine follows_bind (follows_bind (retainBatches_follows _ u)
    fun _ _ _ _ => follows_ret rfl _) fun a b hab _ => ?_
  subst hab
  rw [boundWrite]
  split
  · exact follows_fail _ _
  · split
    · exact follows_fail _ _
    · exact follows_ret rfl _

theorem prepareWrite_congr (nfc : Nfc) {x y : IndexState} (h : x.ordinal=y.ordinal)
    (entry : ReducerEntry) : prepareWrite nfc x entry=prepareWrite nfc y entry := by
  simp [prepareWrite,boundWrite,h]

end

/-- What a prepared write says of itself. -/
structure PreparedWrite.Sound (w : PreparedWrite) : Prop where
  sha256 : w.sha256=sha256Text w.content
  whole : w.whole=true → ∃j value,jsonParse w.content=some j ∧
    Json.member (js "value".toList) j=some value ∧ RecordEnvelope.of j=some ⟨value,[]⟩

theorem envelope_members (nfc : Nfc) (e : RecordEnvelope) :
    Json.member (js "value".toList) (e.json.canonical nfc).own=some (e.value.canonical nfc).own ∧
      Json.member (js "text_parts".toList) (e.json.canonical nfc).own=
        some ((Json.arr (e.text_parts.map TextPart.json)).canonical nfc).own := by
  have hn1 : nfc.normalize (js "contract".toList)=js "contract".toList := nfc.ascii _ (by decide)
  have hn2 : nfc.normalize (js "value".toList)=js "value".toList := nfc.ascii _ (by decide)
  have hn3 : nfc.normalize (js "text_parts".toList)=js "text_parts".toList :=
    nfc.ascii _ (by decide)
  have hkeys : ([(js "contract".toList,.str (js "card-keepr-partitioned-record@1".toList)),
      (js "value".toList,e.value),(js "text_parts".toList,.arr (e.text_parts.map TextPart.json))].map
        fun m : JsString × Json => nfc.normalize m.1).Nodup := by
    simp only [List.map_cons,List.map_nil,hn1,hn2,hn3]
    decide
  have hvalue := member_canonical_own nfc hkeys (List.mem_cons_of_mem _ List.mem_cons_self)
  have hparts := member_canonical_own nfc hkeys
    (List.mem_cons_of_mem _ (List.mem_cons_of_mem _ List.mem_cons_self))
  rw [hn2] at hvalue
  rw [hn3] at hparts
  exact ⟨hvalue,hparts⟩

theorem envelope_reads (nfc : Nfc) {e : RecordEnvelope} {content : JsString}
    (h : canonicalJson nfc e.json=.ok content) (hp : e.text_parts=[]) :
    ∃j,jsonParse content=some j ∧
      Json.member (js "value".toList) j=some (e.value.canonical nfc).own ∧
      RecordEnvelope.of j=some ⟨(e.value.canonical nfc).own,[]⟩ := by
  have hi := integral_of_canonicalJsonAt nfc h
  rw [canonicalJson,canonicalJsonAt_eq nfc hi] at h
  obtain rfl := Except.ok.inj h
  obtain ⟨hvalue,hparts⟩ := envelope_members nfc e
  rw [hp] at hparts
  refine ⟨_,jsonParse_canonical nfc hi,hvalue,?_⟩
  have hempty : ((Json.arr (List.map TextPart.json [])).canonical nfc).own=.arr [] := by
    rw [canonical_arr]
    rfl
  rw [hempty] at hparts
  simp only [RecordEnvelope.of,RecordEnvelope.json,hp] at hparts hvalue ⊢
  rw [hparts,hvalue]
  rfl

theorem envelope_whole (nfc : Nfc) {e : RecordEnvelope} {content : JsString}
    (h : canonicalJson nfc e.json=.ok content) (hp : e.text_parts=[]) :
    ∃j value,jsonParse content=some j ∧ Json.member (js "value".toList) j=some value ∧
      RecordEnvelope.of j=some ⟨value,[]⟩ := by
  obtain ⟨j,hj,hm,he⟩ := envelope_reads nfc h hp
  exact ⟨j,_,hj,hm,he⟩

theorem retainBatches_state (batches : List (List TextChunk)) (u : ReducerStore) :
    (alone (plain refer) (retainBatches (fun chunks =>
      ask (.retainText chunks)) batches : ReducerProg Unit) u).store.state=u.state := by
  induction batches generalizing u with
  | nil => rfl
  | cons batch batches ih =>
    show (alone (plain refer) (if _ then _ else _) _).store.state=u.state
    split
    · exact ih _
    · rfl

theorem retainPartitionedRecord_alone (nfc : Nfc) (record : Json) (u : ReducerStore) :
    let r := alone (plain refer) (retainPartitionedRecord nfc
      (fun chunks => ask (.retainText chunks)) record : ReducerProg RecordEnvelope) u
    r.store.state=u.state ∧ ∀e,r.result=.ok e → e=envelope nfc record := by
  have hb := retainBatches_state (flushes [] 0 (recordChunks nfc record)) u
  intro r
  change (alone (plain refer) (retainBatches _ _ >>= _) u).store.state=_ ∧
    ∀e,(alone (plain refer) (retainBatches _ _ >>= _) u).result=_ → _
  rw [alone_bind]
  cases hr : (alone (plain refer) (retainBatches (fun chunks =>
      ask (.retainText chunks)) (flushes [] 0 (recordChunks nfc record)) :
        ReducerProg Unit) u).result with
  | error e => exact ⟨hb,fun e h => by cases h⟩
  | ok a => exact ⟨hb,fun e h => (Except.ok.inj h).symm⟩

theorem boundWrite_alone (nfc : Nfc) (x : IndexState) (entry : ReducerEntry) (e : RecordEnvelope)
    (u : ReducerStore) :
    let r := alone (plain refer) (boundWrite nfc x entry e) u
    r.store=u ∧ ∀w,r.result=.ok w → w.space=entry.space ∧ w.ordinal=x.ordinal ∧ w.Sound := by
  intro r
  change (alone _ (boundWrite nfc x entry e) u).store=u ∧
    ∀w,(alone _ (boundWrite nfc x entry e) u).result=_ → _
  rw [boundWrite]
  split
  · exact ⟨rfl,fun w h => by cases h⟩
  · rename_i content hc
    split
    · exact ⟨rfl,fun w h => by cases h⟩
    · refine ⟨rfl,fun w h => ?_⟩
      obtain rfl := Except.ok.inj h
      exact ⟨rfl,rfl,rfl,fun hw => envelope_whole nfc hc (of_decide_eq_true hw)⟩

theorem prepareWrite_alone (nfc : Nfc) (x : IndexState) (entry : ReducerEntry) (u : ReducerStore) :
    let r := alone (plain refer) (prepareWrite nfc x entry) u
    r.store.state=u.state ∧
      ∀w,r.result=.ok w → w.space=entry.space ∧ w.ordinal=x.ordinal ∧ w.Sound := by
  obtain ⟨hs,he⟩ := retainPartitionedRecord_alone nfc entry.value.own u
  intro r
  change (alone _ (retainPartitionedRecord _ _ _ >>= boundWrite nfc x entry) u).store.state=_ ∧
    ∀w,(alone _ (retainPartitionedRecord _ _ _ >>= boundWrite nfc x entry) u).result=_ → _
  rw [alone_bind]
  cases hr : (alone (plain refer) (retainPartitionedRecord nfc
      (fun chunks => ask (.retainText chunks)) entry.value.own : ReducerProg RecordEnvelope)
        u).result with
  | error e => exact ⟨hs,fun w h => by cases h⟩
  | ok e =>
    obtain ⟨h1,h2⟩ := boundWrite_alone nfc x entry e (alone (plain refer)
      (retainPartitionedRecord nfc (fun chunks => ask (.retainText chunks)) entry.value.own :
        ReducerProg RecordEnvelope) u).store
    dsimp only at h1 h2 ⊢
    rw [h1]
    exact ⟨hs,h2⟩

end CardKeepr.Reconciliation
