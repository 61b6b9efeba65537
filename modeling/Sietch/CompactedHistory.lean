import Sietch.SeqOrder

/-! What a compaction keeps of a history without earlier compactions: every record the
store was given is remembered next to it, and the records of the new log are compared
with those. -/
namespace Sietch
open ByteString Transition

/-- A store with its live guards and the records it replayed or acknowledged so far. -/
structure History where
  dir : StoreDir
  store : Store
  guards : List Snapshot
  records : List Record

inductive HistoryEvent where
  | write (call : Call) (io : Io)
  | holdSnapshot
  | dropGuard (i : Nat)

/-- A write that fails adds no record; a panic ends the history. -/
def History.exec (crc32 : Checksum) (w : History) : HistoryEvent → Option History
  | .write call io =>
      match w.store.write crc32 io w.dir call with
      | (.ok (), store, dir) =>
          let records := w.records ++ Log.numberRecords w.store.log.nextSeq call.ops
          some { w with store, dir, records }
      | (.err _, store, dir) => some { w with store, dir }
      | (.panic, _, _) => none
  | .holdSnapshot =>
      let (snapshot, store) := w.store.holdSnapshot
      some { w with store, guards := w.guards ++ [snapshot] }
  | .dropGuard i =>
      w.guards[i]?.map (fun snapshot =>
        { w with store := w.store.dropGuard snapshot, guards := w.guards.eraseIdx i })

def HistoryStep (crc32 : Checksum) : History → HistoryEvent → History → Prop :=
  Computed (fun _ => True) (History.exec crc32)

def HistoryEvent.Fits : HistoryEvent → Prop
  | .write call _ => ∀ op ∈ call.ops, op.Fits
  | _ => True

/-- What a compaction asks for: no leftovers of another one, and versions that fit their
records. The log may hold the bytes of failed writes. -/
structure History.Compactable (w : History) : Prop where
  clean : w.dir.Clean
  fits : ∀ key, ∀ v ∈ w.store.index.versions key, (v.record key).Fits ∧ v.seq + 1 < 2 ^ 64

/-- The index replays the remembered records, which count up to the counter. -/
structure History.Inv (w : History) : Prop where
  index : ∀ key, w.store.index.versions key = Index.added w.records key
  increasing : w.records.Pairwise (fun a b => a.seq < b.seq)
  below : ∀ r ∈ w.records, r.seq < w.store.log.nextSeq
  registry : Registry w.store.heldSnapshots (w.guards.map Snapshot.asOfSeq)

section Steps
variable {crc32 : Checksum} {w w' : History}

theorem History.Inv.wrote (h : w.Inv) {ops : List LogOp} {dir' : StoreDir} {store' : Store}
    (hw : Store.Wrote ops w.dir w.store dir' store') :
    History.Inv ⟨dir', store', w.guards,
      w.records ++ Log.numberRecords w.store.log.nextSeq ops⟩ where
  index := by
    intro key
    rw [hw.index, Index.versions_pushAll, h.index, Index.added_append]
  increasing := by
    rw [List.pairwise_append]
    refine ⟨h.increasing, Log.numberRecords_pairwise _ _, ?_⟩
    intro a ha b hb
    exact (h.below a ha).trans_le (Log.numberRecords_bounds hb).1
  below := by
    intro r hr
    rw [hw.nextSeq]
    rcases List.mem_append.mp hr with hr | hr
    · exact (h.below r hr).trans_le (Nat.le_add_right _ _)
    · exact (Log.numberRecords_bounds hr).2
  registry := by
    rw [hw.held]
    exact h.registry

theorem HistoryStep.inv {e : HistoryEvent} (h : w.Inv) (hs : HistoryStep crc32 w e w') :
    w'.Inv := by
  have hexec := hs.2
  cases e with
  | write call io =>
      simp only [History.exec] at hexec
      split at hexec
      · rename_i store dir hw
        cases hexec
        exact h.wrote (Store.write_append_io hw).2
      · rename_i store dir hw
        cases hexec
        obtain ⟨hindex, hseq, hheld, -⟩ := Store.write_err hw
        constructor
        · intro key
          rw [hindex]
          exact h.index key
        · exact h.increasing
        · intro r hr
          rw [hseq]
          exact h.below r hr
        · rw [hheld]
          exact h.registry
      · cases hexec
  | holdSnapshot =>
      cases hexec
      refine ⟨h.index, h.increasing, h.below, ?_⟩
      rw [List.map_append]
      exact h.registry.hold _
  | dropGuard i =>
      obtain ⟨snapshot, hg, rfl⟩ := Option.map_eq_some_iff.mp hexec
      obtain ⟨hi, rfl⟩ := List.getElem?_eq_some_iff.mp hg
      obtain ⟨hindex, hlog⟩ := dropGuard_index w.store w.guards[i]
      constructor
      · intro key
        rw [hindex]
        exact h.index key
      · exact h.increasing
      · intro r hr
        rw [hlog]
        exact h.below r hr
      · exact h.registry.drop
          ((List.getElem_cons_eraseIdx_perm hi).symm.map Snapshot.asOfSeq)

theorem HistoryStep.compactable {e : HistoryEvent} (h : w.Compactable) (hfit : e.Fits)
    (hs : HistoryStep crc32 w e w') : w'.Compactable := by
  have hexec := hs.2
  cases e with
  | write call io =>
      simp only [History.exec] at hexec
      split at hexec
      · rename_i store dir hwrite
        cases hexec
        have hw := (Store.write_append_io hwrite).2
        constructor
        · rw [hw.scratch]
          exact h.clean
        · intro key v hv
          rw [hw.index, Index.versions_pushAll] at hv
          rcases List.mem_append.mp hv with hv | hv
          · exact h.fits key v hv
          · exact added_fits hfit hw.bound hv
      · rename_i store dir hwrite
        cases hexec
        obtain ⟨hindex, -, -, hscratch⟩ := Store.write_err hwrite
        constructor
        · rw [hscratch]
          exact h.clean
        · rw [hindex]
          exact h.fits
      · cases hexec
  | holdSnapshot =>
      cases hexec
      exact ⟨h.clean, h.fits⟩
  | dropGuard i =>
      obtain ⟨snapshot, -, rfl⟩ := Option.map_eq_some_iff.mp hexec
      refine ⟨h.clean, ?_⟩
      rw [(dropGuard_index w.store snapshot).1]
      exact h.fits

/-- The compaction returns, its log reads back as the retained records, and a store opened on
the directory replays them. -/
theorem History.Compactable.compacts (h : w.Compactable) {l : Listing} (hl : l.Fair)
    {written : List Record}
    (hwritten : written = compactedRecords w.store.index w.store.oldestHeldSnapshotSeq) :
    ∃ report store' dir' log, w.store.compact crc32 l w.dir = (.ok report, store', dir') ∧
      Log.openDefault crc32 dir'.main = (.ok (log, ⟨written, false⟩), dir'.main) ∧
      ∀ l', Store.openStore crc32 l' dir' =
        (.ok ⟨log, Index.replay written, false, SortedMap.empty⟩, dir') := by
  obtain ⟨hfit, hnext⟩ := compacted_fits w.store.oldestHeldSnapshotSeq h.fits
  obtain ⟨report, log, dir', hcompact, hclean, hrunning⟩ :=
    Store.compact_ok crc32 hl h.clean hfit hnext
  rw [← hwritten] at hrunning
  obtain ⟨log', hopen, -⟩ := hrunning.disk.opens
  refine ⟨report, _, dir', log', hcompact, hopen, ?_⟩
  intro l'
  simp only [Store.openStore, settle_clean hclean, hopen]
  rfl

end Steps

namespace History.Inv
variable {w : History} (h : w.Inv)
include h

theorem versions_increasing (key : Bytes) :
    (w.store.index.versions key).Pairwise (fun a b => a.seq < b.seq) := by
  rw [h.index]
  exact Index.added_pairwise h.increasing key

theorem seqInv : w.store.SeqInv where
  increasing := h.versions_increasing
  apart := by
    intro j k u v hu hv heq
    rw [h.index] at hu hv
    exact added_apart h.increasing hu hv heq
  below := by
    intro key v hv
    rw [h.index] at hv
    obtain ⟨r, hr, -, rfl⟩ := Index.mem_added.mp hv
    rw [Record.version_seq]
    exact h.below r hr

theorem added_compacted (retainFrom : Option Nat) (key : Bytes) :
    Index.added (compactedRecords w.store.index retainFrom) key =
      retained retainFrom (w.store.index.versions key) := by
  rw [Sietch.added_compacted, retained_sorted (h.versions_increasing key)]

theorem replayed_get {replayed : Store} (hindex : replayed.index =
      Index.replay (compactedRecords w.store.index w.store.oldestHeldSnapshotSeq)) (key : Bytes) :
    replayed.get key = w.store.get key := by
  rw [Store.get_eq, hindex, Index.versions_replay]
  exact live_compacted
    (fun threshold _ key => increasing_unovertaken (h.versions_increasing key) threshold) key

theorem replayed_getAt {replayed : Store} (hindex : replayed.index =
      Index.replay (compactedRecords w.store.index w.store.oldestHeldSnapshotSeq))
    {guard snapshot : Snapshot} (hguard : guard ∈ w.guards)
    (hle : guard.asOfSeq ≤ snapshot.asOfSeq) (key : Bytes) :
    replayed.getAt key snapshot = w.store.getAt key snapshot := by
  have hmem := List.mem_map_of_mem (f := Snapshot.asOfSeq) hguard
  rw [Store.getAt_eq, Store.getAt_eq, hindex, Index.versions_replay, h.added_compacted]
  cases ho : w.store.oldestHeldSnapshotSeq with
  | none =>
      rw [h.registry.unheld.mp ho] at hmem
      cases hmem
  | some threshold =>
      have hold := (h.registry.oldest ho).2 _ hmem
      rw [retained_find (h.versions_increasing key) (hold.trans hle)]

theorem compacted_increasing (retainFrom : Option Nat) :
    (compactedRecords w.store.index retainFrom).Pairwise (fun a b => a.seq < b.seq) := by
  have hversions : ∀ e ∈ w.store.index.entries, w.store.index.versions e.1 = e.2 := by
    intro e he
    rw [Index.versions, SortedMap.mem_entries.mp he, Option.getD_some]
  have hnodup : ((w.store.index.entries.flatMap (fun e =>
      (retained retainFrom e.2).map (VersionEntry.record e.1))).map Record.seq).Nodup := by
    refine h.seqInv.sequenced.distinct.sublist ?_
    rw [List.map_flatMap]
    refine List.Sublist.flatMap_right _ (fun e he => ?_)
    have hinc := h.versions_increasing e.1
    rw [hversions e he] at hinc
    have hmap : ((retained retainFrom e.2).map (VersionEntry.record e.1)).map Record.seq =
        (retained retainFrom e.2).map VersionEntry.seq := by
      rw [List.map_map]
      refine List.map_congr_left (fun v _ => ?_)
      exact VersionEntry.record_seq e.1 v
    rw [hmap]
    exact (retained_sublist hinc retainFrom).map _
  have hperm := List.perm_insertionSort (fun a b : Record => a.seq ≤ b.seq)
    (w.store.index.entries.flatMap (fun e =>
      (retained retainFrom e.2).map (VersionEntry.record e.1)))
  have hdistinct := (hperm.map Record.seq).nodup_iff.mpr hnodup
  rw [List.Nodup, List.pairwise_map] at hdistinct
  refine (List.pairwise_insertionSort (fun a b : Record => a.seq ≤ b.seq) _).and hdistinct |>.imp ?_
  intro a b hab
  exact lt_of_le_of_ne hab.1 hab.2

theorem compacted_original {retainFrom : Option Nat} {r : Record}
    (hr : r ∈ compactedRecords w.store.index retainFrom) :
    ∃ t ∈ w.records, t.key = r.key ∧ t.version = r.version := by
  obtain ⟨v, hv, hrec⟩ := mem_compactedRecords.mp hr
  have hmem := mem_of_mem_retained hv
  rw [h.index] at hmem
  obtain ⟨t, ht, hkey, hversion⟩ := Index.mem_added.mp hmem
  refine ⟨t, ht, hkey, ?_⟩
  rw [hversion, hrec, VersionEntry.version_record]

end History.Inv

section Unguarded
variable {index : Index}

theorem mem_compacted_none {r : Record} :
    r ∈ compactedRecords index none ↔
      ∃ seq value, (index.versions r.key).getLast? = some ⟨seq, some value⟩ ∧
        r = Record.put seq r.key value := by
  rw [mem_compactedRecords]
  constructor
  · rintro ⟨⟨seq, value⟩, hv, hr⟩
    obtain ⟨hlast, hsome⟩ := mem_retained_none.mp hv
    obtain ⟨value, rfl⟩ := Option.ne_none_iff_exists'.mp hsome
    exact ⟨seq, value, hlast, hr⟩
  · rintro ⟨seq, value, hlast, hr⟩
    exact ⟨⟨seq, some value⟩, mem_retained_none.mpr ⟨hlast, by simp⟩, hr⟩

theorem compacted_none_keys (index : Index) :
    ((compactedRecords index none).map Record.key).Nodup := by
  rw [List.nodup_iff_count_le_one]
  intro key
  have hle : (Index.added (compactedRecords index none) key).length ≤ 1 := by
    rw [added_compacted, List.length_insertionSort, retained]
    refine (List.length_filter_le _ _).trans ?_
    cases (index.versions key).getLast? <;> simp
  rw [Index.added, List.length_map, ← List.countP_eq_length_filter] at hle
  rw [List.count, List.countP_map]
  refine le_trans (le_of_eq (List.countP_congr ?_)) hle
  intro r _
  simp

theorem compacted_none_live {s : Store} {r : Record} (hr : r ∈ compactedRecords s.index none) :
    r.recordType = .put ∧ s.get r.key = some r.value := by
  obtain ⟨seq, value, hlast, hrec⟩ := mem_compacted_none.mp hr
  rw [Store.get_eq, hlast, hrec]
  exact ⟨rfl, rfl⟩

theorem live_compacted_none {s : Store} {key value : Bytes} (hvalue : s.get key = some value) :
    ∃ r ∈ compactedRecords s.index none, r.key = key := by
  rw [Store.get_eq] at hvalue
  obtain ⟨⟨seq, v⟩, hlast, rfl⟩ := Option.bind_eq_some_iff.mp hvalue
  exact ⟨Record.put seq key value, mem_compacted_none.mpr ⟨seq, value, hlast, rfl⟩, rfl⟩

end Unguarded

theorem Store.Inv.history {crc32 : Checksum} {records : List Record} {dir : StoreDir}
    {store : Store} (h : Store.Inv crc32 records dir store [])
    (hindex : store.index = Index.replay records)
    (hinc : records.Pairwise (fun a b => a.seq < b.seq)) :
    History.Inv ⟨dir, store, [], records⟩ where
  index key := by rw [hindex, Index.versions_replay]
  increasing := hinc
  below r hr := by
    rw [h.disk.nextSeq]
    exact seq_lt_nextSeqOf hr
  registry := h.registry

/-- The records a compaction writes after a history of writes and guards are those that a
later open reads back: replayed they give the same reads now and at every sequence number from
the oldest live guard on, they are records of the history in its order, and without a live
guard they are one put for each live key. -/
theorem compaction_retains_enough {crc32 : Checksum} {l : Listing} {dir₀ dir : StoreDir}
    {store : Store} {records : List Record} (hclean : dir₀.Clean)
    (hlog : Holds crc32 dir₀.main none records)
    (hinc : records.Pairwise (fun a b => a.seq < b.seq))
    (hopen : Store.openStore crc32 l dir₀ = (.ok store, dir))
    {events : List HistoryEvent} {w : History}
    (hrun : Run (HistoryStep crc32) ⟨dir, store, [], records⟩ events w)
    {written : List Record}
    (hwritten : written = compactedRecords w.store.index w.store.oldestHeldSnapshotSeq) :
    ((∀ e ∈ events, e.Fits) → ∀ l' : Listing, l'.Fair → ∃ report store' dir' log,
        w.store.compact crc32 l' w.dir = (.ok report, store', dir') ∧
        Log.openDefault crc32 dir'.main = (.ok (log, ⟨written, false⟩), dir'.main) ∧
        ∀ l'', Store.openStore crc32 l'' dir' =
          (.ok ⟨log, Index.replay written, false, SortedMap.empty⟩, dir')) ∧
      (∀ replayed : Store, replayed.index = Index.replay written →
        (∀ key, replayed.get key = w.store.get key) ∧
        (∀ keyPrefix, replayed.scan keyPrefix = w.store.scan keyPrefix) ∧
        ∀ snapshot, (∃ guard ∈ w.guards, guard.asOfSeq ≤ snapshot.asOfSeq) →
          (∀ key, replayed.getAt key snapshot = w.store.getAt key snapshot) ∧
          ∀ keyPrefix, replayed.scanAt keyPrefix snapshot = w.store.scanAt keyPrefix snapshot) ∧
      written.Pairwise (fun a b => a.seq < b.seq) ∧
      (∀ r ∈ written, ∃ t ∈ w.records, t.key = r.key ∧ t.version = r.version) ∧
      (w.guards = [] →
        (∀ r ∈ written, r.recordType = .put ∧ w.store.get r.key = some r.value) ∧
        (written.map Record.key).Nodup ∧
        ∀ key value, w.store.get key = some value → ∃ r ∈ written, r.key = key) := by
  obtain ⟨store₀, dir₁, hopen₀, hinv₀, hreplay⟩ := openStore_holds hclean hlog l
  rw [hopen₀] at hopen
  cases hopen
  have h : w.Inv :=
    hrun.invariant (hinv₀.history hreplay hinc) (fun _ _ _ hi hs => hs.inv hi)
  refine ⟨?_, ?_, ?_, ?_, ?_⟩
  · intro hfit l' hl'
    have hfitting : Run (Under (fun _ e => e.Fits) (HistoryStep crc32)) _ events w :=
      hrun.mono_mem (fun _ e _ he hs => ⟨hfit e he, hs⟩)
    have hcompactable : w.Compactable :=
      hfitting.invariant ⟨hinv₀.clean, hinv₀.fits⟩ (fun _ _ _ hi hs => hs.2.compactable hi hs.1)
    exact hcompactable.compacts hl' hwritten
  · intro replayed hindex
    rw [hwritten] at hindex
    have hget := h.replayed_get hindex
    refine ⟨hget, fun keyPrefix => Store.scan_congr hget keyPrefix, ?_⟩
    rintro snapshot ⟨guard, hguard, hle⟩
    have hgetAt := h.replayed_getAt hindex hguard hle
    exact ⟨hgetAt, fun keyPrefix => Store.scanAt_congr_at hgetAt keyPrefix⟩
  · rw [hwritten]
    exact h.compacted_increasing _
  · rw [hwritten]
    exact fun r hr => h.compacted_original hr
  · intro hguards
    rw [hwritten, h.registry.unheld.mpr (List.map_eq_nil_iff.mpr hguards)]
    exact ⟨fun r hr => compacted_none_live hr, compacted_none_keys _,
      fun key value hvalue => live_compacted_none hvalue⟩

/-- A guard between a put and the delete of its key. -/
def guardedHistory : List HistoryEvent :=
  [.write (.put [1] [5]) .done, .holdSnapshot, .write (.delete [1]) .done]

/-- The compaction keeps both records, and the store opened afterwards has no value for the
key. -/
theorem compaction_retains_enough_guarded :
    ∃ w, Run (HistoryStep crc32Ieee)
        ⟨StoreWorld.start.dir, StoreWorld.start.store, [], []⟩ guardedHistory w ∧
      compactedRecords w.store.index w.store.oldestHeldSnapshotSeq =
        [Record.put 0 [1] [5], Record.delete 1 [1]] ∧
      ∃ report store' dir' reopened,
        w.store.compact crc32Ieee .ascending w.dir = (.ok report, store', dir') ∧
        Store.openStore crc32Ieee .ascending dir' = (.ok reopened, dir') ∧
        reopened.get [1] = none ∧
        (∀ snapshot ∈ w.guards, reopened.getAt [1] snapshot = w.store.getAt [1] snapshot) ∧
        w.guards.map (w.store.getAt [1]) = [some [5]] := by
  have hcheck : (guardedHistory.foldlM (History.exec crc32Ieee)
        ⟨StoreWorld.start.dir, StoreWorld.start.store, [], []⟩).any (fun w =>
      decide (compactedRecords w.store.index w.store.oldestHeldSnapshotSeq =
        [Record.put 0 [1] [5], Record.delete 1 [1]]) &&
      decide (w.store.get [1] = none) &&
      decide (w.guards.map (w.store.getAt [1]) = [some [5]])) = true := by
    decide +kernel
  rw [Option.any_eq_true] at hcheck
  obtain ⟨w, hw, hreads⟩ := hcheck
  simp only [Bool.and_eq_true, decide_eq_true_eq] at hreads
  obtain ⟨⟨hrecords, hgone⟩, hheld⟩ := hreads
  have hrun : Run (HistoryStep crc32Ieee) _ guardedHistory w := .of_foldlM (fun _ _ => trivial) hw
  have hfit : ∀ e ∈ guardedHistory, e.Fits := by
    simp [guardedHistory, HistoryEvent.Fits, Call.ops, LogOp.Fits]
  obtain ⟨hcompacts, hreplays, -⟩ := compaction_retains_enough ⟨rfl, rfl, rfl, rfl⟩ .fresh .nil
    (openStore_empty crc32Ieee .ascending) hrun rfl
  obtain ⟨report, store', dir', log, hcompact, -, hreopen⟩ :=
    hcompacts hfit .ascending Listing.ascending_fair
  rw [hrecords] at hreopen hreplays
  obtain ⟨hget, -, hgetAt⟩ := hreplays
    ⟨log, Index.replay [Record.put 0 [1] [5], Record.delete 1 [1]], false, SortedMap.empty⟩ rfl
  refine ⟨w, hrun, hrecords, report, store', dir', _, hcompact, hreopen .ascending, ?_, ?_, hheld⟩
  · rw [hget, hgone]
  · intro snapshot hsnapshot
    exact (hgetAt snapshot ⟨snapshot, hsnapshot, le_rfl⟩).1 [1]

end Sietch
