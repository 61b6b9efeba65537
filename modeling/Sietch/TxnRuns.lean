import Sietch.Txn

/-! Interleaved transactions over whole runs. Every step of the store is a step that the
ledger of snapshot isolation allows, as long as the counter is above every newest version
when a transaction begins. -/
namespace Sietch
open ByteString Isolation Transition

abbrev TxnCall := Event Nat Bytes Bytes

abbrev TxnReply := Reply Bytes Bytes

abbrev TxnLedger := Ledger Nat Bytes Bytes

def writeCall (id : Nat) (key : Bytes) : Option Bytes → TxnCall
  | some value => .put id key value
  | none => .delete id key

structure TxnWorld where
  dir : StoreDir
  store : Store
  txns : SortedMap Nat Transaction

namespace TxnWorld

/-- One call on an open transaction, with its answer; appends succeed. -/
def exec (crc32 : Checksum) (w : TxnWorld) : TxnCall → Option (TxnReply × TxnWorld)
  | .begin id =>
      match w.txns.get? id with
      | some _ => none
      | none =>
          let (t, store) := TransactionalStore.begin w.store
          some (.done, { w with store, txns := w.txns.insert id t })
  | .get id key => (w.txns.get? id).map (fun t => (.value (t.get w.store key), w))
  | .put id key value => (w.txns.get? id).map (fun t =>
      (.done, { w with txns := w.txns.insert id (t.put key value) }))
  | .delete id key => (w.txns.get? id).map (fun t =>
      (.done, { w with txns := w.txns.insert id (t.delete key) }))
  | .commit id => (w.txns.get? id).bind (fun t =>
      match t.commit crc32 .done w.dir w.store with
      | (.ok (), store, dir) => some (.done, ⟨dir, store, w.txns.erase id⟩)
      | (.err (.conflict key), store, dir) =>
          some (.conflict key, ⟨dir, store, w.txns.erase id⟩)
      | _ => none)
  | .abort id => (w.txns.get? id).map (fun t =>
      (.done, { w with store := t.abort w.store, txns := w.txns.erase id }))

def CallStep (crc32 : Checksum) (w : TxnWorld) (e : TxnCall × TxnReply) (w' : TxnWorld) : Prop :=
  w.exec crc32 e.1 = some (e.2, w')

/-- What an answered call has done. -/
inductive Effect (crc32 : Checksum) (w : TxnWorld) : TxnCall × TxnReply → TxnWorld → Prop
  | began {id} : w.txns.get? id = none →
      Effect crc32 w (.begin id, .done) ⟨w.dir, w.store.holdSnapshot.2,
        w.txns.insert id ⟨w.store.snapshot, SortedMap.empty⟩⟩
  | read {id key t} : w.txns.get? id = some t →
      Effect crc32 w (.get id key, .value (t.get w.store key)) w
  | buffered {id t} (key : Bytes) (value : Option Bytes) : w.txns.get? id = some t →
      Effect crc32 w (writeCall id key value, .done)
        { w with txns := w.txns.insert id { t with writes := t.writes.insert key value } }
  | committed {id t store dir} : w.txns.get? id = some t →
      t.commit crc32 .done w.dir w.store = (.ok (), store, dir) →
      Effect crc32 w (.commit id, .done) ⟨dir, store, w.txns.erase id⟩
  | refused {id key t} : w.txns.get? id = some t → t.conflict? w.store = some key →
      Effect crc32 w (.commit id, .conflict key)
        ⟨w.dir, w.store.dropGuard t.snapshot, w.txns.erase id⟩
  | aborted {id t} : w.txns.get? id = some t →
      Effect crc32 w (.abort id, .done) ⟨w.dir, w.store.dropGuard t.snapshot, w.txns.erase id⟩

theorem CallStep.effect {crc32 : Checksum} {w w' : TxnWorld} {e : TxnCall × TxnReply}
    (hs : w.CallStep crc32 e w') : w.Effect crc32 e w' := by
  obtain ⟨e, r⟩ := e
  have hexec : w.exec crc32 e = some (r, w') := hs
  cases e with
  | begin id =>
      simp only [exec] at hexec
      split at hexec
      · cases hexec
      · rename_i hnone
        cases hexec
        exact .began hnone
  | get id key =>
      obtain ⟨t, ht, hpair⟩ := Option.map_eq_some_iff.mp hexec
      cases hpair
      exact .read ht
  | put id key value =>
      obtain ⟨t, ht, hpair⟩ := Option.map_eq_some_iff.mp hexec
      cases hpair
      exact .buffered key (some value) ht
  | delete id key =>
      obtain ⟨t, ht, hpair⟩ := Option.map_eq_some_iff.mp hexec
      cases hpair
      exact .buffered key none ht
  | commit id =>
      obtain ⟨t, ht, hpair⟩ := Option.bind_eq_some_iff.mp hexec
      split at hpair
      · rename_i store dir hc
        cases hpair
        exact .committed ht hc
      · rename_i key store dir hc
        obtain ⟨hkey, rfl, rfl⟩ := Transaction.commit_conflict hc
        cases hpair
        exact .refused ht hkey
      · cases hpair
  | abort id =>
      obtain ⟨t, ht, hpair⟩ := Option.map_eq_some_iff.mp hexec
      cases hpair
      exact .aborted ht

/-- The world after a call that is answered so, if it is. -/
def answer (crc32 : Checksum) (w : TxnWorld) (e : TxnCall × TxnReply) : Option TxnWorld :=
  (w.exec crc32 e.1).bind (fun r => if r.1 = e.2 then some r.2 else none)

theorem answer_eq_some {crc32 : Checksum} {w w' : TxnWorld} {e : TxnCall × TxnReply} :
    w.answer crc32 e = some w' ↔ w.CallStep crc32 e w' := by
  rw [answer, Option.bind_eq_some_iff, CallStep]
  constructor
  · rintro ⟨⟨r, w₁⟩, hexec, hr⟩
    split at hr
    · rename_i hreply
      cases hr
      rw [hexec, ← hreply]
    · cases hr
  · intro h
    exact ⟨(e.2, w'), h, if_pos rfl⟩

theorem run_of_answers {crc32 : Checksum} {w w' : TxnWorld} {hist : List (TxnCall × TxnReply)}
    (h : hist.foldlM (answer crc32) w = some w') : Run (CallStep crc32) w hist w' :=
  (Run.of_foldlM (fun _ _ => trivial) h).mono (fun _ _ _ hs => answer_eq_some.mp hs.2)

end TxnWorld

/-- The newest version of every key is below the counter. -/
def Store.NewestBelow (s : Store) : Prop :=
  ∀ key newest, (s.index.versions key).getLast? = some newest → newest.seq < s.log.nextSeq

structure TxnTracks (s : Store) (committed : List (Txn Bytes Bytes)) (t : Transaction)
    (u : Txn Bytes Bytes) : Prop where
  writes : u.writes = t.writes.get?
  began : u.began ≤ committed.length
  reads : ∀ key, s.getAt key t.snapshot = stateAfter (committed.take u.began) key
  overwritten : ∀ key, t.overwritten s key = true ↔ u.Overwritten committed key
  counter : t.snapshot.asOfSeq ≤ s.log.nextSeq

structure Tracks (w : TxnWorld) (L : TxnLedger) : Prop where
  state : w.store.get = stateAfter L.committed
  active : ∀ id, Option.Rel (TxnTracks w.store L.committed) (w.txns.get? id) (L.active id)

theorem Transaction.overwritten_iff {t : Transaction} {s : Store} {key : Bytes} :
    t.overwritten s key = true ↔ ∃ newest, (s.index.versions key).getLast? = some newest ∧
      t.snapshot.asOfSeq ≤ newest.seq := by
  rw [Transaction.overwritten, Store.latestSeq_eq]
  cases (s.index.versions key).getLast? with
  | none => simp
  | some newest => simp

namespace TxnTracks
variable {s s' : Store} {committed : List (Txn Bytes Bytes)} {t : Transaction}
  {u : Txn Bytes Bytes}

theorem of_index (h : TxnTracks s committed t u) (hindex : s'.index = s.index)
    (hcounter : t.snapshot.asOfSeq ≤ s'.log.nextSeq) : TxnTracks s' committed t u := by
  refine ⟨h.writes, h.began, fun key => ?_, fun key => ?_, hcounter⟩
  · rw [← h.reads key, Store.getAt_eq, Store.getAt_eq, hindex]
  · rw [← h.overwritten key, Transaction.overwritten_iff, Transaction.overwritten_iff, hindex]

/-- A commit of another transaction: its versions are at or above the snapshot, so the
reads stay and exactly its keys become overwritten. -/
theorem commit (h : TxnTracks s committed t u) {c : Transaction} {v : Txn Bytes Bytes}
    (hv : v.writes = c.writes.get?)
    (hindex : s'.index = s.index.pushAll (Log.numberRecords s.log.nextSeq c.ops))
    (hcounter : s'.log.nextSeq = s.log.nextSeq + c.ops.length) :
    TxnTracks s' (committed ++ [v]) t u := by
  have hge : ∀ key, ∀ x ∈ Index.added (Log.numberRecords s.log.nextSeq c.ops) key,
      t.snapshot.asOfSeq ≤ x.seq := fun key x hx => h.counter.trans (Index.added_seq hx).1
  refine ⟨h.writes, ?_, ?_, ?_, ?_⟩
  · rw [List.length_append]
    exact h.began.trans (Nat.le_add_right _ _)
  · intro key
    rw [List.take_append_of_le_length h.began, ← h.reads key, Store.getAt_eq, Store.getAt_eq,
      hindex, Index.versions_pushAll, find_reverse_append (hge key)]
  · intro key
    have hdrop : (committed ++ [v]).drop u.began = committed.drop u.began ++ [v] :=
      List.drop_append_of_le_length h.began
    rw [Transaction.overwritten_iff, hindex, Index.versions_pushAll, Txn.Overwritten, hdrop]
    by_cases hkey : (c.writes.get? key).isSome
    · -- The key is written: its newest version is one of the batch.
      obtain ⟨op, hop, hopkey⟩ := Transaction.mem_ops_key.mpr hkey
      have hne : Index.added (Log.numberRecords s.log.nextSeq c.ops) key ≠ [] :=
        fun hnil => Index.added_numberRecords.mp hnil op hop hopkey
      have hlast := List.getLast?_eq_some_getLast hne
      constructor
      · intro _
        refine ⟨v, by simp, ?_⟩
        rw [hv]
        exact hkey
      · intro _
        refine ⟨_, ?_, hge key _ (List.getLast_mem hne)⟩
        rw [List.getLast?_append, hlast, Option.some_or]
    · have hnil : Index.added (Log.numberRecords s.log.nextSeq c.ops) key = [] :=
        Index.added_numberRecords.mpr (fun op hop hopkey =>
          hkey (Transaction.mem_ops_key.mp ⟨op, hop, hopkey⟩))
      rw [hnil, List.append_nil, ← Transaction.overwritten_iff, h.overwritten key]
      constructor
      · rintro ⟨x, hx, hw⟩
        exact ⟨x, List.mem_append_left _ hx, hw⟩
      · rintro ⟨x, hx, hw⟩
        rcases List.mem_append.mp hx with hx | hx
        · exact ⟨x, hx, hw⟩
        · rw [List.mem_singleton.mp hx, hv] at hw
          exact absurd hw hkey
  · rw [hcounter]
    exact h.counter.trans (Nat.le_add_right _ _)

theorem begin (hbelow : s.NewestBelow) (hstate : s.get = stateAfter committed)
    (hindex : s'.index = s.index) (hcounter : s'.log.nextSeq = s.log.nextSeq) :
    TxnTracks s' committed ⟨s.snapshot, SortedMap.empty⟩ ⟨committed.length, fun _ => none⟩ := by
  refine ⟨rfl, le_rfl, ?_, ?_, ?_⟩
  · intro key
    rw [List.take_length, ← hstate, Store.getAt_eq, Store.get_eq, hindex]
    exact congrArg (Option.bind · VersionEntry.value) (find_reverse_newest (hbelow key))
  · intro key
    rw [Transaction.overwritten_iff, hindex, Txn.Overwritten, List.drop_length]
    constructor
    · rintro ⟨newest, hnewest, hle⟩
      exact absurd (hbelow key newest hnewest) (not_lt.mpr hle)
    · rintro ⟨c, hc, -⟩
      cases hc
  · rw [hcounter]
    exact le_rfl

theorem get (h : TxnTracks s committed t u) (key : Bytes) : t.get s key = u.view committed key := by
  rw [Transaction.get, Txn.view, overlay, h.writes, h.reads key]
  cases t.writes.get? key with
  | none => rfl
  | some buffered => rfl

theorem insert (h : TxnTracks s committed t u) (key : Bytes) (value : Option Bytes) :
    TxnTracks s committed { t with writes := t.writes.insert key value }
      { u with writes := Function.update u.writes key (some value) } := by
  refine ⟨?_, h.began, h.reads, h.overwritten, h.counter⟩
  funext other
  by_cases hother : other = key
  · simp [hother]
  · simp [hother, h.writes]

end TxnTracks

namespace Tracks
variable {crc32 : Checksum} {w w' : TxnWorld} {L : TxnLedger}

theorem opened (h : Tracks w L) {id : Nat} {t : Transaction} (ht : w.txns.get? id = some t) :
    ∃ u, L.active id = some u ∧ TxnTracks w.store L.committed t u := by
  have hid := h.active id
  rw [ht] at hid
  cases hu : L.active id with
  | none =>
      rw [hu] at hid
      cases hid
  | some u =>
      rw [hu] at hid
      cases hid
      exact ⟨u, rfl, ‹_›⟩

theorem entry (h : Tracks w L) {id : Nat} {u : Txn Bytes Bytes} (hu : L.active id = some u) :
    ∃ t, w.txns.get? id = some t ∧ TxnTracks w.store L.committed t u := by
  have hid := h.active id
  rw [hu] at hid
  cases ht : w.txns.get? id with
  | none =>
      rw [ht] at hid
      cases hid
  | some t =>
      rw [ht] at hid
      cases hid
      exact ⟨t, rfl, ‹_›⟩

theorem closed (h : Tracks w L) {id : Nat} (ht : w.txns.get? id = none) : L.active id = none := by
  have hid := h.active id
  rw [ht] at hid
  cases hu : L.active id with
  | none => rfl
  | some u =>
      rw [hu] at hid
      cases hid

theorem write (h : Tracks w L) {id : Nat} {t : Transaction} (ht : w.txns.get? id = some t)
    (key : Bytes) (value : Option Bytes) :
    Tracks { w with txns := w.txns.insert id { t with writes := t.writes.insert key value } }
      (L.write id key value) := by
  obtain ⟨u, hu, htu⟩ := h.opened ht
  refine ⟨h.state, SortedMap.rel_update h.active (fun _ _ hx => hx) (SortedMap.get?_insert _ _ _) ?_⟩
  rw [hu]
  exact .some (htu.insert key value)

theorem close (h : Tracks w L) (id : Nat) (snapshot : Snapshot) :
    Tracks ⟨w.dir, w.store.dropGuard snapshot, w.txns.erase id⟩ (L.close id) := by
  obtain ⟨hindex, hlog⟩ := dropGuard_index w.store snapshot
  refine ⟨?_, SortedMap.rel_update h.active ?_ (SortedMap.get?_erase _ _) .none⟩
  · have hget : (w.store.dropGuard snapshot).get = w.store.get := by
      rw [Store.get_live, Store.get_live, hindex]
    exact hget.trans h.state
  · intro t u htu
    exact htu.of_index hindex (by rw [hlog]; exact htu.counter)

theorem begin (h : Tracks w L) (hbelow : w.store.NewestBelow) (id : Nat) :
    Tracks ⟨w.dir, w.store.holdSnapshot.2, w.txns.insert id ⟨w.store.snapshot, SortedMap.empty⟩⟩
      (L.start id) := by
  refine ⟨h.state, SortedMap.rel_update h.active ?_ (SortedMap.get?_insert _ _ _) ?_⟩
  · intro t u htu
    exact htu.of_index rfl htu.counter
  · exact .some (TxnTracks.begin hbelow h.state rfl rfl)

theorem commit (h : Tracks w L) {id : Nat} {t : Transaction} (ht : w.txns.get? id = some t)
    {store : Store} {dir : StoreDir}
    (hc : t.commit crc32 .done w.dir w.store = (.ok (), store, dir)) :
    L.Permits (.commit id, .done) ∧
      Tracks ⟨dir, store, w.txns.erase id⟩ (L.note (.commit id, .done)) := by
  obtain ⟨u, hu, htu⟩ := h.opened ht
  obtain ⟨hindex, hcounter⟩ := Transaction.commit_index hc
  constructor
  · refine ⟨u, hu, ?_⟩
    rintro key ⟨hkey, hover⟩
    rw [htu.writes] at hkey
    have hfalse := Transaction.conflict?_none (Transaction.commit_ok hc).1 hkey
    rw [(htu.overwritten key).mpr hover] at hfalse
    cases hfalse
  · have hnote : L.note (.commit id, .done) = ⟨L.committed ++ [u], (L.close id).active⟩ := by
      simp only [Ledger.note, hu, Option.toList_some]
    rw [hnote]
    refine ⟨?_, SortedMap.rel_update h.active ?_ (SortedMap.get?_erase _ _) .none⟩
    · have hlive : store.get = KeyState.applyAll w.store.get t.ops := by
        rw [Store.get_live, Store.get_live, hindex, Index.live_pushAll]
      rw [hlive, Transaction.applyAll_ops, h.state, stateAfter_snoc, htu.writes]
    · intro t' u' htu'
      exact htu'.commit htu.writes hindex hcounter

theorem conflict (h : Tracks w L) {id : Nat} {t : Transaction} (ht : w.txns.get? id = some t)
    {key : Bytes} (hkey : t.conflict? w.store = some key) :
    L.Permits (.commit id, .conflict key) := by
  obtain ⟨u, hu, htu⟩ := h.opened ht
  obtain ⟨hwritten, hover, hleast⟩ := Transaction.conflict?_some hkey
  refine ⟨u, hu, ⟨?_, (htu.overwritten key).mp hover⟩, ?_⟩
  · rw [htu.writes]
    exact hwritten
  · rintro other hlt ⟨hother, hover'⟩
    rw [htu.writes] at hother
    have hfalse := hleast other hlt hother
    rw [(htu.overwritten other).mpr hover'] at hfalse
    cases hfalse

/-- Every answered call is one that snapshot isolation allows. -/
theorem step (h : Tracks w L) {e : TxnCall} {r : TxnReply} (hs : w.CallStep crc32 (e, r) w')
    (hbelow : ∀ id, e = .begin id → w.store.NewestBelow) :
    L.Permits (e, r) ∧ Tracks w' (L.note (e, r)) := by
  cases hs.effect with
  | began hnone => exact ⟨h.closed hnone, h.begin (hbelow _ rfl) _⟩
  | read ht =>
      obtain ⟨u, hu, htu⟩ := h.opened ht
      exact ⟨⟨u, hu, htu.get _⟩, h⟩
  | buffered key value ht =>
      obtain ⟨u, hu, -⟩ := h.opened ht
      cases value with
      | some value => exact ⟨⟨u, hu⟩, h.write ht key (some value)⟩
      | none => exact ⟨⟨u, hu⟩, h.write ht key none⟩
  | committed ht hc => exact h.commit ht hc
  | refused ht hkey => exact ⟨h.conflict ht hkey, h.close _ _⟩
  | aborted ht =>
      obtain ⟨u, hu, -⟩ := h.opened ht
      exact ⟨⟨u, hu⟩, h.close _ _⟩

theorem commits (h : Tracks w L) {id : Nat} {r : TxnReply} (hpermits : L.Permits (.commit id, r))
    (hroom : ∀ t, r = .done → w.txns.get? id = some t →
      w.store.log.nextSeq + t.ops.length < 2 ^ 64) (crc32 : Checksum) :
    ∃ r' w', w.exec crc32 (.commit id) = some (r', w') := by
  obtain ⟨u, hu⟩ : ∃ u, L.active id = some u := by
    cases r with
    | done => exact hpermits.imp (fun _ h => h.1)
    | conflict key => exact hpermits.imp (fun _ h => h.1)
    | value v => exact hpermits.elim
  obtain ⟨t, ht, htu⟩ := h.entry hu
  have hspace : t.conflict? w.store = none → w.store.log.nextSeq + t.ops.length < 2 ^ 64 := by
    intro hnone
    cases r with
    | done => exact hroom t rfl ht
    | conflict key =>
        obtain ⟨u', hu', ⟨hkey, hover⟩, -⟩ := hpermits
        rw [hu] at hu'
        cases hu'
        rw [htu.writes] at hkey
        have hfalse := Transaction.conflict?_none hnone hkey
        rw [(htu.overwritten key).mpr hover] at hfalse
        cases hfalse
    | value v => exact hpermits.elim
  obtain ⟨s', dir', hok | ⟨key, hkey⟩⟩ := Transaction.commit_answers crc32 w.dir hspace
  · simp only [TxnWorld.exec, ht, Option.bind_some, hok]
    exact ⟨_, _, rfl⟩
  · simp only [TxnWorld.exec, ht, Option.bind_some, hkey]
    exact ⟨_, _, rfl⟩

/-- The store answers every call that the ledger allows, and as it does. -/
theorem answers (h : Tracks w L) {e : TxnCall} {r : TxnReply} (hpermits : L.Permits (e, r))
    (hroom : ∀ id t, (e, r) = (.commit id, .done) → w.txns.get? id = some t →
      w.store.log.nextSeq + t.ops.length < 2 ^ 64)
    (hbelow : ∀ id, e = .begin id → w.store.NewestBelow) (crc32 : Checksum) :
    ∃ w', w.CallStep crc32 (e, r) w' := by
  suffices hanswer : ∃ r' w', w.exec crc32 e = some (r', w') by
    obtain ⟨r', w', hexec⟩ := hanswer
    have hcall : w.CallStep crc32 (e, r') w' := hexec
    obtain rfl := hpermits.unique (h.step hcall hbelow).1
    exact ⟨w', hcall⟩
  have mapped : ∀ {id} (f : Transaction → TxnReply × TxnWorld), (∃ u, L.active id = some u) →
      ∃ r' w', (w.txns.get? id).map f = some (r', w') := by
    rintro id f ⟨u, hu⟩
    obtain ⟨t, ht, -⟩ := h.entry hu
    rw [ht]
    exact ⟨_, _, rfl⟩
  cases e with
  | begin id =>
      cases ht : w.txns.get? id with
      | none =>
          simp only [TxnWorld.exec, ht]
          exact ⟨_, _, rfl⟩
      | some t =>
          obtain ⟨u, hu, -⟩ := h.opened ht
          cases r with
          | done =>
              rw [show L.active id = none from hpermits] at hu
              cases hu
          | value v => exact hpermits.elim
          | conflict key => exact hpermits.elim
  | get id key =>
      cases r with
      | value v => exact mapped _ (hpermits.imp (fun _ h => h.1))
      | done => exact hpermits.elim
      | conflict key => exact hpermits.elim
  | commit id => exact h.commits hpermits (fun t hr => hroom id t (by rw [hr])) crc32
  | put id key value =>
      cases r with
      | done => exact mapped _ hpermits
      | value v => exact hpermits.elim
      | conflict key => exact hpermits.elim
  | delete id key =>
      cases r with
      | done => exact mapped _ hpermits
      | value v => exact hpermits.elim
      | conflict key => exact hpermits.elim
  | abort id =>
      cases r with
      | done => exact mapped _ hpermits
      | value v => exact hpermits.elim
      | conflict key => exact hpermits.elim

end Tracks

/-- What a call does to the store's versions and counter: nothing, or it appends the
writes of a transaction that is open. -/
theorem TxnWorld.CallStep.index {crc32 : Checksum} {w w' : TxnWorld} {e : TxnCall × TxnReply}
    (hs : w.CallStep crc32 e w') :
    (w'.store.index = w.store.index ∧ w'.store.log.nextSeq = w.store.log.nextSeq) ∨
      ∃ id t, w.txns.get? id = some t ∧ w'.txns = w.txns.erase id ∧
        w'.store.index = w.store.index.pushAll (Log.numberRecords w.store.log.nextSeq t.ops) ∧
        w'.store.log.nextSeq = w.store.log.nextSeq + t.ops.length := by
  cases hs.effect with
  | began => exact .inl ⟨rfl, rfl⟩
  | read => exact .inl ⟨rfl, rfl⟩
  | buffered => exact .inl ⟨rfl, rfl⟩
  | committed ht hc => exact .inr ⟨_, _, ht, rfl, Transaction.commit_index hc⟩
  | @refused _ _ t | @aborted _ t =>
      obtain ⟨hindex, hlog⟩ := dropGuard_index w.store t.snapshot
      exact .inl ⟨hindex, congrArg Log.nextSeq hlog⟩

def CallFits : TxnCall → Prop
  | .put _ key value => (LogOp.put key value).Fits
  | .delete _ key => (LogOp.delete key).Fits
  | _ => True

/-- A transaction that is open after a call was open before it, has just begun, or has just
buffered a write. -/
theorem TxnWorld.CallStep.opened {crc32 : Checksum} {w w' : TxnWorld} {e : TxnCall × TxnReply}
    (hs : w.CallStep crc32 e w') {id : Nat} {t : Transaction} (ht : w'.txns.get? id = some t) :
    w.txns.get? id = some t ∨ e.1 = .begin id ∧ t = ⟨w.store.snapshot, SortedMap.empty⟩ ∨
      ∃ t₀ key value, w.txns.get? id = some t₀ ∧ e.1 = writeCall id key value ∧
        t = { t₀ with writes := t₀.writes.insert key value } := by
  have hinsert : ∀ {i : Nat} {t₁ : Transaction}, (w.txns.insert i t₁).get? id = some t →
      i = id ∧ t₁ = t ∨ w.txns.get? id = some t := by
    intro i t₁ hi
    rw [SortedMap.get?_insert] at hi
    split at hi
    · rename_i hid
      cases hi
      exact .inl ⟨hid.symm, rfl⟩
    · exact .inr hi
  have herase : ∀ {i : Nat}, (w.txns.erase i).get? id = some t → w.txns.get? id = some t := by
    intro i hi
    rw [SortedMap.get?_erase] at hi
    split at hi
    · cases hi
    · exact hi
  cases hs.effect with
  | began =>
      rcases hinsert ht with ⟨rfl, rfl⟩ | hold
      · exact .inr (.inl ⟨rfl, rfl⟩)
      · exact .inl hold
  | read => exact .inl ht
  | buffered key value ht₀ =>
      rcases hinsert ht with ⟨rfl, rfl⟩ | hold
      · exact .inr (.inr ⟨_, _, _, ht₀, rfl, rfl⟩)
      · exact .inl hold
  | committed => exact .inl (herase ht)
  | refused => exact .inl (herase ht)
  | aborted => exact .inl (herase ht)

theorem TxnWorld.CallStep.fits {crc32 : Checksum} {w w' : TxnWorld} {e : TxnCall × TxnReply}
    (hs : w.CallStep crc32 e w') (hcall : CallFits e.1)
    (h : ∀ id t, w.txns.get? id = some t → t.Fits) (id : Nat) (t : Transaction)
    (ht : w'.txns.get? id = some t) : t.Fits := by
  rcases hs.opened ht with hold | ⟨-, rfl⟩ | ⟨t₀, key, value, ht₀, he, rfl⟩
  · exact h id t hold
  · intro op hop
    cases hop
  · rw [he] at hcall
    cases value with
    | some value => exact (h id t₀ ht₀).insert hcall
    | none => exact (h id t₀ ht₀).insert hcall

theorem Store.NewestBelow.step {crc32 : Checksum} {w w' : TxnWorld} {e : TxnCall × TxnReply}
    (h : w.store.NewestBelow) (hs : w.CallStep crc32 e w') : w'.store.NewestBelow := by
  intro key newest hnewest
  rcases hs.index with ⟨hindex, hcounter⟩ | ⟨id, t, -, -, hindex, hcounter⟩
  · rw [hindex] at hnewest
    rw [hcounter]
    exact h key newest hnewest
  · rw [hindex, Index.versions_pushAll, List.getLast?_append] at hnewest
    rw [hcounter]
    cases hlast : (Index.added (Log.numberRecords w.store.log.nextSeq t.ops) key).getLast? with
    | none =>
        rw [hlast] at hnewest
        exact (h key newest hnewest).trans_le (Nat.le_add_right _ _)
    | some v =>
        rw [hlast] at hnewest
        cases hnewest
        exact (Index.added_seq (List.mem_of_getLast? hlast)).2

/-- Clients of a counter: each transaction writes the counter once, with the increment of
what it reads, and commits. -/
def TxnWorld.Increments (counter : Bytes) (inc : Option Bytes → Bytes) (w : TxnWorld) :
    TxnCall × TxnReply → Prop
  | (.put id key value, _) => key = counter ∧ ∀ t, w.txns.get? id = some t →
      t.writes.get? counter = none ∧ value = inc (t.get w.store counter)
  | (.delete _ _, _) => False
  | (.commit id, _) => ∀ t, w.txns.get? id = some t → (t.writes.get? counter).isSome
  | _ => True

theorem Tracks.increments {w : TxnWorld} {L : TxnLedger} (h : Tracks w L) {counter : Bytes}
    {inc : Option Bytes → Bytes} {e : TxnCall × TxnReply} (hc : w.Increments counter inc e) :
    L.Increments counter inc e := by
  obtain ⟨e, r⟩ := e
  cases e with
  | put id key value =>
      refine ⟨hc.1, fun u hu => ?_⟩
      obtain ⟨t, ht, htu⟩ := h.entry hu
      obtain ⟨hnew, hvalue⟩ := hc.2 t ht
      rw [htu.writes, ← htu.get counter]
      exact ⟨hnew, hvalue⟩
  | delete id key => exact hc.elim
  | commit id =>
      intro u hu
      obtain ⟨t, ht, htu⟩ := h.entry hu
      rw [htu.writes]
      exact hc t ht
  | _ => trivial

/-- Without compactions the store is in step with the ledger and its counter is ahead. -/
def InStep (w : TxnWorld) (L : TxnLedger) : Prop := Tracks w L ∧ w.store.NewestBelow

theorem callStep_simulates (crc32 : Checksum) :
    Simulates (TxnWorld.CallStep crc32) Ledger.Step some InStep := by
  rintro w L e w' ⟨hL, hbelow⟩ hs
  obtain ⟨hpermits, hL'⟩ := hL.step hs (fun _ _ => hbelow)
  exact .inl ⟨e, L.note e, rfl, ⟨hpermits, rfl⟩, hL', hbelow.step hs⟩

theorem increments_simulates (crc32 : Checksum) (counter : Bytes) (inc : Option Bytes → Bytes) :
    Simulates (Under (TxnWorld.Increments counter inc) (TxnWorld.CallStep crc32))
      (Under (Ledger.Increments counter inc) Ledger.Step) some InStep := by
  rintro w L e w' ⟨hL, hbelow⟩ ⟨hc, hs⟩
  obtain ⟨hpermits, hL'⟩ := hL.step hs (fun _ _ => hbelow)
  exact .inl ⟨e, L.note e, rfl, ⟨hL.increments hc, hpermits, rfl⟩, hL', hbelow.step hs⟩

theorem newestBelow_replay {s : Store} {records : List Record}
    (hindex : s.index = Index.replay records) (hnext : s.log.nextSeq = nextSeqOf records) :
    s.NewestBelow := by
  intro key newest hnewest
  rw [hindex, Index.versions_replay] at hnewest
  obtain ⟨r, hr, -, rfl⟩ := Index.mem_added.mp (List.mem_of_getLast? hnewest)
  rw [Record.version_seq, hnext]
  exact seq_lt_nextSeqOf hr

def TxnWorld.start : TxnWorld := ⟨StoreWorld.start.dir, StoreWorld.start.store, SortedMap.empty⟩

theorem start_inStep : InStep TxnWorld.start Ledger.empty := by
  refine ⟨⟨rfl, fun _ => .none⟩, ?_⟩
  intro key newest hnewest
  cases hnewest

/-- Snapshot isolation. With the ledger of the run: every get returns the transaction's
own last write or the value left by the transactions committed before its begin; the
store holds the fold of the committed write sets; committed transactions that wrote a
common key do not overlap; and clients that read, increment and commit a counter raise it
by the number of their successful commits. -/
theorem transactions_snapshot_isolated {crc32 : Checksum} {l : Listing} {store : Store}
    {dir : StoreDir} (hopen : Store.openStore crc32 l StoreDir.empty = (.ok store, dir))
    {hist : List (TxnCall × TxnReply)} {w : TxnWorld}
    (hrun : Run (TxnWorld.CallStep crc32) ⟨dir, store, SortedMap.empty⟩ hist w) :
    let ledger : TxnLedger := hist.foldl Ledger.note Ledger.empty
    (∀ id key reply w', w.CallStep crc32 (.get id key, reply) w' →
      ∃ t, ledger.active id = some t ∧ reply = .value (t.view ledger.committed key)) ∧
    w.store.get = stateAfter ledger.committed ∧
    (∀ (i j : Nat) t u key, i < j → ledger.committed[i]? = some t →
      ledger.committed[j]? = some u → (t.writes key).isSome → (u.writes key).isSome →
      i < u.began) ∧
    ∀ (counter : Bytes) (inc : Option Bytes → Bytes) (count : Option Bytes → Nat),
      (∀ v, count (some (inc v)) = count v + 1) → w.txns = SortedMap.empty →
      ∀ more w', Run (Under (TxnWorld.Increments counter inc) (TxnWorld.CallStep crc32)) w more w' →
        count (w'.store.get counter) = count (w.store.get counter) + more.countP Ledger.commits := by
  rw [openStore_empty, Prod.mk.injEq, Outcome.ok.injEq] at hopen
  obtain ⟨rfl, rfl⟩ := hopen
  obtain ⟨L, hspec, hL, hbelow⟩ := (callStep_simulates crc32).run hrun start_inStep
  rw [List.filterMap_some] at hspec
  intro ledger
  have hledger : L = ledger := Ledger.Step.run_note hspec
  rw [← hledger]
  refine ⟨?_, hL.state, (Ledger.ordered_run hspec).disjoint, ?_⟩
  · intro id key reply w' hs
    have hpermits := (hL.step hs (fun _ _ => hbelow)).1
    cases reply with
    | value v =>
        obtain ⟨t, ht, rfl⟩ := hpermits
        exact ⟨t, ht, rfl⟩
    | done => exact hpermits.elim
    | conflict key => exact hpermits.elim
  · intro counter inc count hinc hidle more w' hmore
    obtain ⟨L', hspec', hL', -⟩ :=
      (increments_simulates crc32 counter inc).run hmore ⟨hL, hbelow⟩
    rw [List.filterMap_some] at hspec'
    rw [hL.state, hL'.state]
    refine Ledger.increments_counted hinc (fun id => ?_) hspec'
    apply hL.closed
    rw [hidle]
    rfl

/-- Two clients read and write one key; the second to commit fails. -/
def twoClients : List (TxnCall × TxnReply) :=
  [(.begin 0, .done), (.begin 1, .done), (.get 1 [1], .value none), (.put 0 [1] [5], .done),
    (.put 1 [1] [9], .done), (.commit 0, .done), (.commit 1, .conflict [1]), (.begin 1, .done),
    (.get 1 [1], .value (some [5]))]

theorem twoClients_isolated :
    ∃ w, Run (TxnWorld.CallStep crc32Ieee) TxnWorld.start twoClients w ∧
      w.store.get = stateAfter (twoClients.foldl Ledger.note Ledger.empty).committed := by
  obtain ⟨w, hw⟩ : ∃ w, twoClients.foldlM (TxnWorld.answer crc32Ieee) TxnWorld.start = some w :=
    Option.isSome_iff_exists.mp (by decide +kernel)
  have hrun := TxnWorld.run_of_answers hw
  have hall := transactions_snapshot_isolated (openStore_empty crc32Ieee .ascending) hrun
  exact ⟨w, hrun, hall.2.1⟩

end Sietch
