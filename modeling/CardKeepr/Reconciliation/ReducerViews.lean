import CardKeepr.Reconciliation.ReducerReads

namespace CardKeepr.Reconciliation

open Lib Shared List Durable ReducerStore

theorem latestBelow_congr {α : Type} {f g : Nat → Option α} {n : Nat} (h : ∀o < n,f o=g o) :
    latestBelow f n=latestBelow g n := by
  induction n with
  | zero => rfl
  | succ n ih =>
    rw [latestBelow,latestBelow,h n (Nat.lt_succ_self n),ih fun o ho => h o (by omega)]

/-- The row a read of the key sees. -/
def visible (u : ReducerStore) (space : JsString) (x : IndexState) (key : JsString) :
    Option StateRow :=
  if x.ordinal=0 then none
  else reducerStateStatement u space (sha256Text key) (x.before (sha256Text key))

/-- What an index of the uninterrupted run knows of its rows: none is ahead of it, those of its
own ordinal are the ones it has written, and its last write is one of them. -/
structure IndexState.Kept (u : ReducerStore) (space : JsString) (y : IndexState) : Prop where
  running : y.completedPrefix=false
  later : ∀d o,y.ordinal < o → u.state space d o=none
  now : ∀d,d∈y.written ↔ ∃r,u.state space d y.ordinal=some r
  last : ∀w,y.lastWrite=some w →
    u.state space w.digest y.ordinal=some ⟨w.content,sha256Text w.content⟩ ∧
    ∃j value,jsonParse w.content=some j ∧ Json.member (js "value".toList) j=some value ∧
      RecordEnvelope.of j=some ⟨value,[]⟩

def Frozen (u z : ReducerStore) (space : JsString) (ordinal : Nat) : Prop :=
  ∀d o r,o < ordinal → z.state space d o=some r → u.state space d o=some r

def Reopened (u z : ReducerStore) (space : JsString) (x y : IndexState) : Prop :=
  x=y ∨ x=.resumeAt y.ordinal ∧ Frozen u z space (y.ordinal+1)

theorem Reopened.ordinal {u z : ReducerStore} {space : JsString} {x y : IndexState}
    (h : Reopened u z space x y) : x.ordinal=y.ordinal := by
  rcases h with rfl | ⟨rfl,-⟩
  · rfl
  · rfl

theorem before_running {y : IndexState} (h : y.completedPrefix=false) (d : JsString) :
    y.before d=y.ordinal+if d∈y.written then 1 else 0 := by
  simp [IndexState.before,h]

section
variable {u v z : ReducerStore} {space : JsString} {x y : IndexState} {key : JsString}

theorem row_between {d : JsString} {o : Nat} (huv : u ≤ v) (hvz : v ≤ z)
    (h : ∀r,z.state space d o=some r → u.state space d o=some r) :
    v.state space d o=u.state space d o := by
  apply Option.ext
  intro r
  exact ⟨fun e => h r (hvz.1 _ _ _ _ e),fun e => huv.1 _ _ _ _ e⟩

theorem visible_eq (hk : y.Kept u space) (hf : Frozen u z space y.ordinal)
    (hx : Reopened u z space x y) (huv : u ≤ v) (hvz : v ≤ z) :
    visible v space x key=visible u space y key := by
  rw [visible,visible,hx.ordinal]
  split
  · rfl
  · rw [reducerStateStatement,reducerStateStatement,before_running hk.running]
    generalize sha256Text key=d
    rcases hx with rfl | ⟨rfl,hf2⟩
    · rw [before_running hk.running]
      apply latestBelow_congr
      intro o ho
      by_cases hlt : o < x.ordinal
      · exact row_between huv hvz fun r e => hf d o r hlt e
      · split at ho
        · rename_i hw
          obtain rfl : o=x.ordinal := by omega
          obtain ⟨r,hr⟩ := (hk.now d).mp hw
          rw [hr,huv.1 _ _ _ _ hr]
        · omega
    · have hb : (IndexState.resumeAt y.ordinal).before d=y.ordinal+1 := by
        simp [IndexState.before,IndexState.resumeAt]
      rw [hb,latestBelow_congr fun o ho => row_between huv hvz fun r e => hf2 d o r ho e]
      split
      · rfl
      · rename_i hw
        have hnone : u.state space d y.ordinal=none := by
          cases hr : u.state space d y.ordinal with
          | none => rfl
          | some r => exact (hw ((hk.now d).mpr ⟨r,hr⟩)).elim
        rw [latestBelow,hnone,Nat.add_zero]

theorem restore_whole (value : Json) : (restorePartitionedRecord
    (fun requests => ask (.textPages requests)) ⟨value,[]⟩ : ReducerProg Json)=pure value := by
  simp [restorePartitionedRecord,restoreRounds,openReaders]

theorem cached_visible {val : Option Json} (hk : y.Kept u space)
    (h : readRequest y key=.cached val) : restoreRow (visible u space y key)=pure val := by
  rw [readRequest] at h
  rw [visible]
  split at h
  · rename_i h0
    rw [if_pos h0]
    injection h with hval
    rw [←hval]
    rfl
  · rename_i h0
    rw [if_neg h0]
    dsimp only at h
    split at h
    · rename_i w hw
      obtain ⟨hlast,hd⟩ := Option.filter_eq_some_iff.mp hw
      have hd : w.digest=sha256Text key := of_decide_eq_true hd
      obtain ⟨hrow,j,value,hj,hm,he⟩ := hk.last w hlast
      rw [hd] at hrow
      have hin : sha256Text key∈y.written := (hk.now _).mpr ⟨_,hrow⟩
      injection h with hval
      rw [reducerStateStatement,before_running hk.running,if_pos hin,latestBelow,hrow,restoreRow,
        ←hval,hj]
      simp only [ne_eq,not_true,if_false,Option.bind_some,he,hm,restore_whole]
      rfl
    · cases h

theorem statement_visible {d : JsString} {b : Nat} (h : readRequest x key=.statement d b) :
    reducerStateStatement v space d b=visible v space x key := by
  rw [readRequest] at h
  rw [visible]
  split at h
  · cases h
  · rename_i h0
    rw [if_neg h0]
    dsimp only at h
    split at h
    · cases h
    · injection h with h1 h2
      rw [←h1,←h2]

theorem cached_reopened {val : Option Json} (hk : y.Kept u space) (hx : Reopened u z space x y)
    (h : readRequest x key=.cached val) : restoreRow (visible u space y key)=pure val := by
  rcases hx with rfl | ⟨rfl,-⟩
  · exact cached_visible hk h
  · rw [visible]
    rw [readRequest] at h
    split at h
    · rename_i h0
      have h0 : y.ordinal=0 := h0
      rw [if_pos h0]
      injection h with hval
      rw [←hval]
      rfl
    · cases h

end

section
variable {z : ReducerStore} {L : List ReducerEvent}
  {Good : ReducerCheckpoint → ReducerStore → Prop} {mono : ∀c u v,u ≤ v → Good c u → Good c v}
variable {u : ReducerStore} {space other : JsString} {x y x' y' : IndexState}

theorem finishRead_eq {key : JsString} {row : Option StateRow} (hk : y.Kept u space)
    (hx : Reopened u z space x y) (hrow : (∃d b,readRequest x key=.statement d b) →
      row=visible u space y key) :
    finishRead (readRequest x key) row=restoreRow (visible u space y key) := by
  cases hr : readRequest x key with
  | cached val => exact (cached_reopened hk hx hr).symm
  | statement d b =>
    rw [finishRead,hrow ⟨d,b,hr⟩]

theorem get_follows (hk : y.Kept u space) (hf : Frozen u z space y.ordinal)
    (hx : Reopened u z space x y) (key : JsString) :
    Durable.Follows (reducerReference z L Good mono) Eq (get space x key)
      (restoreRow (visible u space y key)) u := by
  rw [get]
  cases hr : readRequest x key with
  | cached val =>
    rw [cached_reopened hk hx hr]
    exact follows_ret rfl u
  | statement d b =>
    apply follows_read
    intro v hv hv2
    refine ⟨rfl,?_⟩
    show Durable.Follows _ Eq (restoreRow (reducerStateStatement v space d b)) _ u
    rw [statement_visible hr,visible_eq hk hf hx hv hv2]
    exact restoreRow_follows _ u

theorem get_alone (hk : y.Kept u space) (key : JsString) : alone (plain refer) (get space y key) u=
      alone (plain refer) (restoreRow (visible u space y key)) u := by
  rw [get]
  cases hr : readRequest y key with
  | cached val => rw [cached_visible hk hr]
  | statement d b =>
    show alone _ (restoreRow (reducerStateStatement u space d b)) u=_
    rw [statement_visible hr]

/-- Two reads in one transaction, as two restorations. -/
def restorePair (left right : Option StateRow) : ReducerProg (Option Json × Option Json) := do
  let first ← restoreRow left
  let second ← restoreRow right
  return (first,second)

theorem restorePair_follows (left right : Option StateRow) (u : ReducerStore) : Durable.Follows
    (reducerReference z L Good mono) Eq (restorePair left right) (restorePair left right) u := by
  refine follows_bind (restoreRow_follows left u) fun a b hab _ => ?_
  subst hab
  refine follows_bind (restoreRow_follows right _) fun c d hcd _ => ?_
  subst hcd
  exact follows_ret rfl _

/-- What `getAlongside` does with the rows of its transaction. -/
def finishReads (left right : ReadRequest) (rows : List (Option StateRow)) :
    ReducerProg (Option Json × Option Json) := do
  let first ← finishRead left (rows.headD none)
  let second ← finishRead right (rows.getLastD none)
  return (first,second)

theorem getAlongside_eq (space : JsString) (x : IndexState) (key other : JsString)
    (x' : IndexState) (key' : JsString) : getAlongside space x key other x' key'=
      let statements := (readRequest x key).statements space++(readRequest x' key').statements other
      if statements=[] then finishReads (readRequest x key) (readRequest x' key') []
      else .call (.store (.states statements))
        (finishReads (readRequest x key) (readRequest x' key')) := by
  rw [getAlongside]
  dsimp only
  split
  · rfl
  · rfl

theorem finishReads_visible {v : ReducerStore} {key key' : JsString} (hk : y.Kept u space)
    (hf : Frozen u z space y.ordinal) (hx : Reopened u z space x y) (hk' : y'.Kept u other)
    (hf' : Frozen u z other y'.ordinal) (hx' : Reopened u z other x' y') (huv : u ≤ v)
    (hvz : v ≤ z) : finishReads (readRequest x key) (readRequest x' key')
      (((readRequest x key).statements space++(readRequest x' key').statements other).map
        fun q => reducerStateStatement v q.1 q.2.1 q.2.2)=
      restorePair (visible u space y key) (visible u other y' key') := by
  rw [finishReads,restorePair]
  rw [finishRead_eq hk hx,finishRead_eq hk' hx']
  · rintro ⟨d,b,hr⟩
    rw [hr,ReadRequest.statements,map_append,List.getLastD_eq_getLast?,List.getLast?_append]
    rw [←visible_eq hk' hf' hx' huv hvz,←statement_visible hr]
    rfl
  · rintro ⟨d,b,hr⟩
    rw [hr,←visible_eq hk hf hx huv hvz,←statement_visible hr]
    rfl

theorem getAlongside_follows (hk : y.Kept u space) (hf : Frozen u z space y.ordinal)
    (hx : Reopened u z space x y) (hk' : y'.Kept u other) (hf' : Frozen u z other y'.ordinal)
    (hx' : Reopened u z other x' y') (huz : u ≤ z) (key key' : JsString) :
    Durable.Follows (reducerReference z L Good mono) Eq (getAlongside space x key other x' key')
      (restorePair (visible u space y key) (visible u other y' key')) u := by
  have hrows : ∀v,u ≤ v → v ≤ z → finishReads (readRequest x key) (readRequest x' key') _=_ :=
    fun v hv hv2 => finishReads_visible hk hf hx hk' hf' hx' hv hv2
  have hpair : Durable.Follows (reducerReference z L Good mono) Eq
      (restorePair (visible u space y key) (visible u other y' key'))
      (restorePair (visible u space y key) (visible u other y' key')) u :=
    restorePair_follows _ _ u
  rw [getAlongside_eq]
  dsimp only
  split
  · rename_i hnone
    have hu := hrows u (le_refl u) huz
    rw [hnone] at hu
    rw [←hu] at hpair ⊢
    exact hpair
  · apply follows_read
    intro v hv hv2
    refine ⟨rfl,?_⟩
    rw [←hrows v hv hv2] at hpair ⊢
    exact hpair

theorem frozen_self (u : ReducerStore) (space : JsString) (n : Nat) : Frozen u u space n :=
  fun _ _ _ _ e => e

theorem getAlongside_alone (hk : y.Kept u space) (hk' : y'.Kept u other) (key key' : JsString) :
    alone (plain refer) (getAlongside space y key other y' key') u= alone (plain refer)
    (restorePair (visible u space y key) (visible u other y' key')) u := by
  have hrows : finishReads (readRequest y key) (readRequest y' key') _=_ :=
    finishReads_visible hk (frozen_self u space _) (.inl rfl) hk' (frozen_self u other _) (.inl rfl)
      (le_refl u) (le_refl u)
  rw [getAlongside_eq,←hrows]
  dsimp only
  split
  · rename_i hnone
    rw [hnone]
    rfl
  · rfl

theorem restoreRows_reads (rows : List (JsString × Option StateRow)) :
    Durable.Reads refer (restoreRows rows) := by
  induction rows with
  | nil => trivial
  | cons row rows ih =>
    exact reads_bind (restoreRow_reads _) fun _ => reads_bind ih fun _ => trivial

theorem restoreRows_follows (rows : List (JsString × Option StateRow)) (u : ReducerStore) :
    Durable.Follows (reducerReference z L Good mono) Eq (restoreRows rows) (restoreRows rows) u := by
  induction rows generalizing u with
  | nil => exact follows_ret rfl u
  | cons row rows ih =>
    refine follows_bind (restoreRow_follows row.2 u) fun a b hab _ => ?_
    subst hab
    refine follows_bind (ih _) fun c d hcd _ => ?_
    subst hcd
    exact follows_ret rfl _

/-- What `getMany` does with its page. -/
def finishPage (unique : List JsString) (page : List (Option StateRow)) :
    ReducerProg (Option (List (JsString × Option Json))) :=
  if page.length≠unique.length then pure none
  else do
    let values ← restoreRows (unique.zip page)
    return some values

theorem finishPage_follows (unique : List JsString) (page : List (Option StateRow))
    (u : ReducerStore) : Durable.Follows (reducerReference z L Good mono) Eq
      (finishPage unique page) (finishPage unique page) u := by
  rw [finishPage]
  split
  · exact follows_ret rfl u
  · refine follows_bind (restoreRows_follows _ u) fun a b hab _ => ?_
    subst hab
    exact follows_ret rfl _

/-- `getMany` on the rows in sight. -/
def readPage (u : ReducerStore) (space : JsString) (y : IndexState) (keys : List JsString) :
    ReducerProg (Option (List (JsString × Option Json))) :=
  let unique := keys.eraseDups
  if unique.length > 16 then .fail lookupWindow
  else if y.ordinal=0 ∨ unique=[] then pure (some (unique.map fun key => (key,none)))
  else finishPage unique
    (bounded (fun row => (row.map fun r => byteLength r.content).getD 0) 131072 0
      (unique.map fun key => visible u space y key))

theorem lookup_visible {v : ReducerStore} (h0 : x.ordinal≠0) (unique : List JsString) :
    reducerStateLookupPage v space (unique.map fun key =>
      (sha256Text key,x.before (sha256Text key)))=
      bounded (fun row => (row.map fun r => byteLength r.content).getD 0) 131072 0
        (unique.map fun key => visible v space x key) := by
  simp [reducerStateLookupPage,visible,h0,Function.comp_def]

theorem getMany_eq (space : JsString) (x : IndexState) (keys : List JsString) :
    getMany space x keys=
      if keys.eraseDups.length > 16 then .fail lookupWindow
      else if x.ordinal=0 ∨ keys.eraseDups=[] then
        pure (some (keys.eraseDups.map fun key => (key,none)))
      else .call (.store (.lookup space (keys.eraseDups.map fun key =>
        (sha256Text key,x.before (sha256Text key))))) (finishPage keys.eraseDups) := by
  rw [getMany]
  split
  · rfl
  · split
    · rfl
    · rfl

theorem getMany_follows (hk : y.Kept u space) (hf : Frozen u z space y.ordinal)
    (hx : Reopened u z space x y) (keys : List JsString) : Durable.Follows
    (reducerReference z L Good mono) Eq (getMany space x keys) (readPage u space y keys) u := by
  rw [getMany_eq,readPage,hx.ordinal]
  split
  · exact follows_fail _ u
  · split
    · exact follows_ret rfl u
    · rename_i h0
      apply follows_read
      intro v hv hv2
      refine ⟨rfl,?_⟩
      show Durable.Follows _ Eq (finishPage keys.eraseDups (reducerStateLookupPage v space _)) _ u
      rw [lookup_visible (by rw [hx.ordinal]; tauto)]
      simp only [visible_eq hk hf hx hv hv2]
      exact finishPage_follows _ _ u

theorem getMany_alone (keys : List JsString) : alone (plain refer) (getMany space y keys) u=
      alone (plain refer) (readPage u space y keys) u := by
  rw [getMany_eq,readPage]
  split
  · rfl
  · split
    · rfl
    · rename_i h0
      show alone _ (finishPage keys.eraseDups (reducerStateLookupPage u space _)) u=_
      rw [lookup_visible (by tauto)]

theorem restoreRows_values {keys : List JsString} {row : JsString → Option StateRow}
    {values : List (JsString × Option Json)} (h : (alone (plain refer)
      (restoreRows (keys.map fun key => (key,row key))) u).result=.ok values) :
    values.map Prod.fst=keys ∧ ∀p∈values,(alone (plain refer)
      (restoreRow (row p.1)) u).result=.ok p.2 := by
  induction keys generalizing values with
  | nil =>
    obtain rfl := Except.ok.inj h
    exact ⟨rfl,fun p hp => (not_mem_nil hp).elim⟩
  | cons key keys ih =>
    rw [map_cons,restoreRows,alone_bind] at h
    cases hr : (alone (plain refer) (restoreRow (row key)) u).result with
    | error e =>
      simp only [hr] at h
      cases h
    | ok v =>
      simp only [hr,(restoreRow_reads (row key)).alone] at h
      rw [alone_bind] at h
      cases hs : (alone (plain refer)
          (restoreRows (keys.map fun key => (key,row key))) u).result with
      | error e =>
        simp only [hs] at h
        cases h
      | ok vs =>
        simp only [hs] at h
        obtain rfl := Except.ok.inj h
        obtain ⟨hk,hall⟩ := ih hs
        refine ⟨by rw [map_cons,hk],fun p hp => ?_⟩
        rcases mem_cons.mp hp with rfl | hp
        · exact hr
        · exact hall p hp

theorem bounded_all {α : Type} {size : α → Nat} {limit sum : Nat} {as : List α}
    (h : (bounded size limit sum as).length=as.length) : bounded size limit sum as=as := by
  induction as generalizing sum with
  | nil => rfl
  | cons a as ih =>
    rw [bounded] at h ⊢
    split at h
    · rename_i hle
      rw [if_pos hle,ih (Nat.succ.inj h)]
    · cases h

theorem getMany_agrees (hk : y.Kept u space) {keys : List JsString}
    {m : List (JsString × Option Json)} (h : (alone (plain refer)
      (getMany space y keys) u).result=.ok (some m)) {key : JsString} (hkey : key∈keys) :
    ∃v,(alone (plain refer) (get space y key) u).result=.ok v ∧
      m.lookup key=some v := by
  have hin : key∈keys.eraseDups := by simpa using hkey
  rw [get_alone hk]
  rw [getMany_alone,readPage] at h
  split at h
  · cases h
  · split at h
    · rename_i h0
      obtain rfl := Option.some.inj (Except.ok.inj h)
      have h0 : y.ordinal=0 := h0.resolve_right (ne_nil_of_mem hin)
      obtain ⟨v,hv,hm⟩ := lookup_of_mem
        (show key∈(keys.eraseDups.map fun key => (key,(none : Option Json))).map Prod.fst by
          simpa using hkey)
      obtain ⟨k,-,hkv⟩ := mem_map.mp hm
      injection hkv with h1 h2
      refine ⟨none,?_,by rw [hv,h2]⟩
      rw [visible,if_pos h0]
      rfl
    · rw [finishPage] at h
      split at h
      · cases h
      · rename_i hlen
        rw [bounded_all (by simpa using hlen),alone_bind] at h
        cases hr : (alone (plain refer) (restoreRows (keys.eraseDups.zip
            (keys.eraseDups.map fun key => visible u space y key))) u).result with
        | error e =>
          simp only [hr] at h
          cases h
        | ok values =>
          simp only [hr] at h
          obtain rfl := Option.some.inj (Except.ok.inj h)
          rw [←map_prod_left_eq_zip] at hr
          obtain ⟨hfst,hall⟩ := restoreRows_values hr
          obtain ⟨v,hv,hm⟩ := lookup_of_mem (show key∈values.map Prod.fst by rw [hfst]; exact hin)
          exact ⟨v,hall (key,v) hm,hv⟩

theorem getAlongside_agrees (hk : y.Kept u space) (hk' : y'.Kept u other) {key key' : JsString}
    {a b : Option Json} (h : (alone (plain refer)
      (getAlongside space y key other y' key') u).result=.ok (a,b)) :
    (alone (plain refer) (get space y key) u).result=.ok a ∧
      (alone (plain refer) (get other y' key') u).result=.ok b := by
  rw [getAlongside_alone hk hk',restorePair,alone_bind] at h
  rw [get_alone hk,get_alone hk']
  cases hr : (alone (plain refer) (restoreRow (visible u space y key)) u).result with
  | error e =>
    simp only [hr] at h
    cases h
  | ok v =>
    simp only [hr,(restoreRow_reads _).alone] at h
    rw [alone_bind] at h
    cases hs : (alone (plain refer) (restoreRow (visible u other y' key')) u).result with
    | error e =>
      simp only [hs] at h
      cases h
    | ok w =>
      simp only [hs] at h
      injection Except.ok.inj h with h1 h2
      exact ⟨congrArg _ h1,congrArg _ h2⟩

end

end CardKeepr.Reconciliation
