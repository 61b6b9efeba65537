import Sietch.Base.StableSort
import Sietch.Compaction
import Sietch.LogRuns

/-! What each operation of the store does to the version lists, the counter and
the records of the log: one specification for each, used by all results on runs. -/
namespace Sietch
open ByteString Script

namespace Record

@[simp] theorem version_seq (r : Record) : r.version.seq = r.seq := by
  unfold version
  split <;> rfl

end Record

theorem Log.numberRecords_bounds {seq : Nat} {ops : List LogOp} {r : Record}
    (h : r ∈ Log.numberRecords seq ops) : seq ≤ r.seq ∧ r.seq < seq + ops.length := by
  have hseq : r.seq ∈ List.range' seq ops.length := by
    rw [← Log.numberRecords_seqs]
    exact List.mem_map_of_mem h
  exact List.mem_range'_1.mp hseq

namespace Index

theorem versions_empty (key : Bytes) : versions SortedMap.empty key = [] := rfl

theorem versions_push (index : Index) (key : Bytes) (v : VersionEntry) (k : Bytes) :
    (index.push key v).versions k =
      if k = key then index.versions k ++ [v] else index.versions k := by
  simp only [versions, push, SortedMap.get?_insert]
  split
  · rename_i hk
    rw [hk]
    rfl
  · rfl

/-- The versions that a list of records adds to a key. -/
def added (records : List Record) (key : Bytes) : List VersionEntry :=
  (records.filter (fun r => r.key = key)).map Record.version

@[simp] theorem added_nil (key : Bytes) : added [] key = [] := rfl

theorem added_append (rs ss : List Record) (key : Bytes) :
    added (rs ++ ss) key = added rs key ++ added ss key := by
  simp [added]

theorem added_cons (r : Record) (rs : List Record) (key : Bytes) :
    added (r :: rs) key = if key = r.key then r.version :: added rs key else added rs key := by
  by_cases h : r.key = key
  · simp [added, h]
  · simp [added, h, Ne.symm h]

theorem versions_pushAll (index : Index) (records : List Record) (key : Bytes) :
    (index.pushAll records).versions key = index.versions key ++ added records key := by
  induction records generalizing index with
  | nil => simp [pushAll]
  | cons r rs ih =>
      have hcons : index.pushAll (r :: rs) = (index.push r.key r.version).pushAll rs := rfl
      rw [hcons, ih, versions_push, added_cons]
      split
      · simp
      · rfl

theorem versions_replay (records : List Record) (key : Bytes) :
    (replay records).versions key = added records key := by
  rw [replay, versions_pushAll, versions_empty, List.nil_append]

theorem mem_added {records : List Record} {key : Bytes} {v : VersionEntry} :
    v ∈ added records key ↔ ∃ r ∈ records, r.key = key ∧ r.version = v := by
  simp [added, and_assoc]

theorem added_pairwise {records : List Record} (h : records.Pairwise (fun a b => a.seq < b.seq))
    (key : Bytes) : (added records key).Pairwise (fun a b => a.seq < b.seq) := by
  rw [added, List.pairwise_map]
  refine (h.filter _).imp (fun {a b} hab => ?_)
  rw [Record.version_seq, Record.version_seq]
  exact hab

/-- A batch adds versions of a key exactly if it writes the key. -/
theorem added_numberRecords {seq : Nat} {ops : List LogOp} {key : Bytes} :
    added (Log.numberRecords seq ops) key = [] ↔ ∀ op ∈ ops, op.key ≠ key := by
  induction ops generalizing seq with
  | nil => simp [Log.numberRecords]
  | cons op ops ih =>
      rw [Log.numberRecords, added_cons, List.forall_mem_cons, ← @ih (seq + 1), Log.record_key]
      by_cases hop : key = op.key
      · simp [hop]
      · simp [hop, Ne.symm hop]

theorem added_seq {seq : Nat} {ops : List LogOp} {key : Bytes} {v : VersionEntry}
    (h : v ∈ added (Log.numberRecords seq ops) key) : seq ≤ v.seq ∧ v.seq < seq + ops.length := by
  obtain ⟨r, hr, -, rfl⟩ := mem_added.mp h
  rw [Record.version_seq]
  exact Log.numberRecords_bounds hr

end Index

namespace VersionEntry

@[simp] theorem record_seq (key : Bytes) (v : VersionEntry) : (v.record key).seq = v.seq := by
  unfold record
  split <;> rfl

@[simp] theorem record_key (key : Bytes) (v : VersionEntry) : (v.record key).key = key := by
  unfold record
  split <;> rfl

@[simp] theorem version_record (key : Bytes) (v : VersionEntry) :
    (v.record key).version = v := by
  obtain ⟨seq, value⟩ := v
  cases value <;> rfl

end VersionEntry

theorem Log.rollOverIfNeeded_nextSeq (dir : SegmentDir) (log : Log) (incomingLen : Nat) :
    (log.rollOverIfNeeded dir incomingLen).1.nextSeq = log.nextSeq := by
  unfold Log.rollOverIfNeeded
  split <;> rfl

namespace Store
variable {crc32 : Checksum} {io : Io} {dir dir' : StoreDir} {s s' : Store}

theorem get_eq (s : Store) (key : Bytes) :
    s.get key = (s.index.versions key).getLast?.bind VersionEntry.value := by
  simp only [get, Index.versions]
  cases s.index.get? key with
  | none => rfl
  | some versions => rfl

theorem getAt_eq (s : Store) (key : Bytes) (snapshot : Snapshot) :
    s.getAt key snapshot = ((s.index.versions key).reverse.find? (·.seq < snapshot.asOfSeq)).bind
      VersionEntry.value := by
  simp only [getAt, Index.versions]
  cases s.index.get? key with
  | none => rfl
  | some versions => rfl

theorem latestSeq_eq (s : Store) (key : Bytes) :
    s.latestSeq key = (s.index.versions key).getLast?.map VersionEntry.seq := by
  simp only [latestSeq, Index.versions]
  cases s.index.get? key with
  | none => rfl
  | some versions => rfl

/-- Scans agree where the values of every key do. -/
theorem scanWith_congr {f g : List VersionEntry → Option Bytes} {s t : Store}
    (h : ∀ key, (s.index.get? key).bind f = (t.index.get? key).bind g) (keyPrefix : Bytes) :
    scanWith f s keyPrefix = scanWith g t keyPrefix := by
  have hsub : ∀ u : Store, SortedMap.Ascending (SortedMap.block keyPrefix u.index.entries) :=
    fun u => u.index.ascending.sublist (SortedMap.block_sublist _ _)
  unfold scanWith
  refine (hsub s).collect.ext (hsub t).collect (fun key => ?_)
  rw [SortedMap.lookup_collect_block s.index.ascending,
    SortedMap.lookup_collect_block t.index.ascending]
  split
  · exact h key
  · rfl

theorem scanWith_ascending (f : List VersionEntry → Option Bytes) (s : Store) (keyPrefix : Bytes) :
    SortedMap.Ascending (scanWith f s keyPrefix) := by
  unfold scanWith
  exact SortedMap.Ascending.collect (s.index.ascending.sublist (SortedMap.block_sublist _ _))

/-- A scan has the keys with the prefix for which the versions give a value. -/
theorem lookup_scanWith (f : List VersionEntry → Option Bytes) (s : Store) (keyPrefix key : Bytes) :
    SortedMap.lookup key (scanWith f s keyPrefix) =
      if keyPrefix <+: key then (s.index.get? key).bind f else none :=
  SortedMap.lookup_collect_block s.index.ascending key

theorem mem_scanWith {f : List VersionEntry → Option Bytes} {s : Store} {keyPrefix k v : Bytes} :
    (k, v) ∈ scanWith f s keyPrefix ↔ keyPrefix <+: k ∧ (s.index.get? k).bind f = some v := by
  have hlookup := lookup_scanWith f s keyPrefix k
  constructor
  · intro hmem
    rw [SortedMap.lookup_of_mem (scanWith_ascending f s keyPrefix) hmem] at hlookup
    split at hlookup
    · rename_i hinit
      exact ⟨hinit, hlookup.symm⟩
    · cases hlookup
  · rintro ⟨hinit, hv⟩
    rw [if_pos hinit, hv] at hlookup
    exact SortedMap.mem_of_lookup hlookup

theorem lookup_scan (s : Store) (keyPrefix key : Bytes) :
    SortedMap.lookup key (s.scan keyPrefix) = if keyPrefix <+: key then s.get key else none := by
  rw [scan, lookup_scanWith, get, Option.bind_assoc]

theorem mem_scan {s : Store} {keyPrefix k v : Bytes} :
    (k, v) ∈ s.scan keyPrefix ↔ keyPrefix <+: k ∧ s.get k = some v := by
  rw [scan, mem_scanWith, get, Option.bind_assoc]

theorem scan_ascending (s : Store) (keyPrefix : Bytes) :
    SortedMap.Ascending (s.scan keyPrefix) := scanWith_ascending _ s keyPrefix

/-- Prefix scans are exact: they are in strictly ascending order, and have just the keys with
the prefix that `get` or `get_at` finds, with their values. -/
theorem prefix_scans_exact (s : Store) (keyPrefix : Bytes) (snapshot : Snapshot) :
    SortedMap.Ascending (s.scan keyPrefix) ∧
    (∀ k v, (k, v) ∈ s.scan keyPrefix ↔ keyPrefix <+: k ∧ s.get k = some v) ∧
    SortedMap.Ascending (s.scanAt keyPrefix snapshot) ∧
    ∀ k v, (k, v) ∈ s.scanAt keyPrefix snapshot ↔ keyPrefix <+: k ∧ s.getAt k snapshot = some v := by
  refine ⟨scanWith_ascending _ s keyPrefix, fun k v => ?_, scanWith_ascending _ s keyPrefix,
    fun k v => ?_⟩
  · exact mem_scan
  · rw [scanAt, mem_scanWith, getAt, Option.bind_assoc]

theorem scan_congr {s t : Store} (h : ∀ key, s.get key = t.get key) (keyPrefix : Bytes) :
    s.scan keyPrefix = t.scan keyPrefix := by
  refine scanWith_congr (fun key => ?_) keyPrefix
  simpa only [get, Option.bind_assoc] using h key

theorem scanAt_congr {s t : Store} {snapshot : Snapshot}
    (h : ∀ key, s.getAt key snapshot = t.get key) (keyPrefix : Bytes) :
    s.scanAt keyPrefix snapshot = t.scan keyPrefix := by
  refine scanWith_congr (fun key => ?_) keyPrefix
  simpa only [get, getAt, Option.bind_assoc] using h key

theorem scanAt_congr_at {s t : Store} {snapshot : Snapshot}
    (h : ∀ key, s.getAt key snapshot = t.getAt key snapshot) (keyPrefix : Bytes) :
    s.scanAt keyPrefix snapshot = t.scanAt keyPrefix snapshot := by
  refine scanWith_congr (fun key => ?_) keyPrefix
  simpa only [getAt, Option.bind_assoc] using h key

/-- The public write calls of a store. -/
def write (crc32 : Checksum) (io : Io) (dir : StoreDir) (s : Store) :
    Call → Outcome StoreError Unit × Store × StoreDir
  | .put key value => s.put crc32 io dir key value
  | .delete key => s.delete crc32 io dir key
  | .batch ops => s.applyBatch crc32 io dir ops

theorem zip_keys (index : Index) (seq : Nat) (ops : List LogOp) :
    ((ops.map LogOp.key).zip (Log.numberRecords seq ops)).foldl
      (fun index kr => index.push kr.1 kr.2.version) index =
      index.pushAll (Log.numberRecords seq ops) := by
  induction ops generalizing index seq with
  | nil => rfl
  | cons op ops ih =>
      simp only [List.map_cons, Log.numberRecords, List.zip_cons_cons, List.foldl_cons]
      rw [ih, ← Log.record_key seq op]
      rfl

theorem put_eq (crc32 : Checksum) (io : Io) (dir : StoreDir) (s : Store) (key value : Bytes) :
    s.put crc32 io dir key value = s.applyBatch crc32 io dir [.put key value] := by
  simp only [put, applyBatch, Log.appendPut, Log.append,
    show Log.opOf (Record.put s.log.nextSeq key value) = .put key value from rfl]
  rcases hr : s.log.appendBatch crc32 io dir.main [.put key value] with ⟨out, log, main⟩
  cases out with
  | ok records =>
      obtain ⟨rfl, -⟩ := Log.appendBatch_ok hr
      rfl
  | err e => rfl
  | panic => rfl

theorem delete_eq (crc32 : Checksum) (io : Io) (dir : StoreDir) (s : Store) (key : Bytes) :
    s.delete crc32 io dir key = s.applyBatch crc32 io dir [.delete key] := by
  simp only [delete, applyBatch, Log.appendDelete, Log.append,
    show Log.opOf (Record.delete s.log.nextSeq key) = .delete key from rfl]
  rcases hr : s.log.appendBatch crc32 io dir.main [.delete key] with ⟨out, log, main⟩
  cases out with
  | ok records =>
      obtain ⟨rfl, -⟩ := Log.appendBatch_ok hr
      rfl
  | err e => rfl
  | panic => rfl

/-- Single writes are batches of one. -/
theorem write_eq (crc32 : Checksum) (io : Io) (dir : StoreDir) (s : Store) (call : Call) :
    s.write crc32 io dir call = s.applyBatch crc32 io dir call.ops := by
  cases call with
  | put key value => exact put_eq crc32 io dir s key value
  | delete key => exact delete_eq crc32 io dir s key
  | batch ops => rfl

/-- What an acknowledged write has done. -/
structure Wrote (ops : List LogOp) (dir : StoreDir) (s : Store) (dir' : StoreDir) (s' : Store) :
    Prop where
  bound : s.log.nextSeq + ops.length < 2 ^ 64
  index : s'.index = s.index.pushAll (Log.numberRecords s.log.nextSeq ops)
  nextSeq : s'.log.nextSeq = s.log.nextSeq + ops.length
  held : s'.heldSnapshots = s.heldSnapshots
  scratch : dir' = { dir with main := dir'.main }

theorem write_append_io {call : Call} (h : s.write crc32 io dir call = (.ok (), s', dir')) :
    s.log.appendBatch crc32 io dir.main call.ops =
        (.ok (Log.numberRecords s.log.nextSeq call.ops), s'.log, dir'.main) ∧
      Wrote call.ops dir s dir' s' := by
  rw [write_eq, applyBatch] at h
  rcases hr : s.log.appendBatch crc32 io dir.main call.ops with ⟨out, log, main⟩
  rw [hr] at h
  cases out with
  | ok records =>
      obtain ⟨rfl, hbound⟩ := Log.appendBatch_ok hr
      simp only [Prod.mk.injEq, true_and] at h
      obtain ⟨rfl, rfl⟩ := h
      have hnext : log.nextSeq = s.log.nextSeq + call.ops.length := by
        simp only [Log.appendBatch, if_neg (not_le.mpr hbound)] at hr
        split at hr
        · simp only [Prod.mk.injEq] at hr
          rw [← hr.2.1]
        · cases hr
        · cases hr
      exact ⟨rfl, hbound, zip_keys _ _ _, hnext, rfl, rfl⟩
  | err e => cases h
  | panic => cases h

theorem write_append {call : Call} (h : s.write crc32 .done dir call = (.ok (), s', dir')) :
    s.log.appendBatch crc32 .done dir.main call.ops =
        (.ok (Log.numberRecords s.log.nextSeq call.ops), s'.log, dir'.main) ∧
      Wrote call.ops dir s dir' s' :=
  write_append_io h

/-- A write that fails changes neither the index nor the counter nor the registry, and on
disk only the log. -/
theorem write_err {call : Call} {e : StoreError}
    (h : s.write crc32 io dir call = (.err e, s', dir')) :
    s'.index = s.index ∧ s'.log.nextSeq = s.log.nextSeq ∧ s'.heldSnapshots = s.heldSnapshots ∧
      dir' = { dir with main := dir'.main } := by
  rw [write_eq, applyBatch] at h
  rcases hr : s.log.appendBatch crc32 io dir.main call.ops with ⟨out, log, main⟩
  rw [hr] at h
  cases out with
  | ok records => cases h
  | panic => cases h
  | err e =>
      cases h
      refine ⟨rfl, ?_, rfl, rfl⟩
      unfold Log.appendBatch at hr
      split at hr
      · cases hr
      · dsimp only at hr
        split at hr
        · cases hr
        · cases hr
          exact Log.rollOverIfNeeded_nextSeq dir.main s.log _
        · cases hr

/-- On disk the records of the write follow those of the log. -/
theorem write_disk {call : Call} {records : List Record} (hfit : ∀ op ∈ call.ops, op.Fits)
    (h : s.write crc32 .done dir call = (.ok (), s', dir'))
    (hh : Holds crc32 dir.main (some s.log) records) :
    Holds crc32 dir'.main (some s'.log)
      (records ++ Log.numberRecords s.log.nextSeq call.ops) := by
  have hr := (write_append h).1
  rw [← Call.exec_eq] at hr
  exact (hh.acked hfit hr).1

end Store

/-- Opening a log of whole segments: nothing changes on disk. -/
theorem OnDisk.opens {crc32 : Checksum} {dir : SegmentDir} {old : List (Nat × List Record)}
    {id : Nat} {active : List Record} (h : OnDisk crc32 dir old id active []) :
    ∃ log, Log.openDefault crc32 dir =
        (.ok (log, ⟨old.flatMap Prod.snd ++ active, false⟩), dir) ∧
      Running crc32 dir log old active := by
  obtain ⟨log, dir', ho, hr, -, hdir⟩ := openWithSegmentSize_onDisk h defaultSegmentMaxBytes
  rw [h.insert_same] at hdir
  subst hdir
  exact ⟨log, ho, hr⟩

/-- The new log as a directory. -/
theorem onDisk_newMain (crc32 : Checksum) {records : List Record} (hfit : ∀ r ∈ records, r.Fits)
    (hnext : nextSeqOf records < 2 ^ 64) :
    OnDisk crc32 (newMain (encodeAll crc32 records)) [] 0 records [] where
  entries := by rw [List.append_nil]; rfl
  fits := hfit
  next := hnext
  inert := inert_nil crc32

/-- Writing the retained records to a new log succeeds. -/
theorem appendVerbatim_ok (crc32 : Checksum) {records : List Record}
    (hnext : nextSeqOf records < 2 ^ 64) :
    (Log.appendRecordsVerbatim crc32 .done (newMain [])
      ⟨defaultSegmentMaxBytes, [], 0, ⟨0, 0⟩, 0⟩ records).1 = .ok () := by
  by_cases hr : records = []
  · simp [Log.appendRecordsVerbatim, hr]
  · have hfile : (newMain []).get? 0 = some [] := rfl
    obtain ⟨offsets, hw⟩ := Segment.appendBatch_done crc32 hfile (s := ⟨0, 0⟩) rfl records
    have hseq : (maxSeqSeen none records).elim 0 (fun s => max 0 (s + 1)) = nextSeqOf records := by
      rw [nextSeqOf]
      cases maxSeqSeen none records with
      | none => rfl
      | some m => simp
    simp only [Log.appendRecordsVerbatim, if_neg hr, Log.rollOverIfNeeded, Segment.isEmpty,
      decide_true, true_or, if_true, hw, hseq, if_neg (not_le.mpr hnext)]

/-- A compaction that is not interrupted: the log holds the retained records, the
index and the registry are as before, and no scratch entry remains. -/
theorem Store.compact_ok (crc32 : Checksum) {l : Listing} {dir : StoreDir} {s : Store}
    (hl : l.Fair) (hclean : dir.Clean)
    (hfit : ∀ r ∈ compactedRecords s.index s.oldestHeldSnapshotSeq, r.Fits)
    (hnext : nextSeqOf (compactedRecords s.index s.oldestHeldSnapshotSeq) < 2 ^ 64) :
    ∃ report log dir', s.compact crc32 l dir = (.ok report, { s with log }, dir') ∧ dir'.Clean ∧
      Running crc32 dir'.main log [] (compactedRecords s.index s.oldestHeldSnapshotSeq) := by
  generalize hrecords : compactedRecords s.index s.oldestHeldSnapshotSeq = records at hfit hnext ⊢
  obtain ⟨log, ho, hr⟩ := (onDisk_newMain crc32 hfit hnext).opens
  have hopen : ∀ main, MergedMain dir.main (encodeAll crc32 records) (fun _ => false) main →
      OpensAsIs crc32 main := fun main hm => by
    rw [mergedMain_none hm]
    exact ⟨log, _, ho⟩
  have hbuild : Building dir.main dir := ⟨rfl, hclean.2.1, hclean.2.2.2⟩
  have hswap : (final FsAction.apply (compactSwap crc32 l records) dir).main =
      newMain (encodeAll crc32 records) := mergedMain_none (compactSwap_triple hl dir hbuild).1.main
  have hall := (compactScript_triple hl hopen dir hbuild).1
  rcases hv : Log.appendRecordsVerbatim crc32 .done (newMain [])
    ⟨defaultSegmentMaxBytes, [], 0, ⟨0, 0⟩, 0⟩ records with ⟨out, log', files⟩
  have hout := appendVerbatim_ok crc32 hnext
  rw [hv] at hout
  simp only at hout
  refine ⟨⟨liveKeys s.index s.oldestHeldSnapshotSeq, s.log.segmentCount, log.segmentCount⟩, log,
    final FsAction.apply (compactScript crc32 l records) dir, ?_, hall.2, ?_⟩
  · simp only [Store.compact, openDefault_empty, hrecords, hv, hout, hswap, ho]
  · rw [mergedMain_none hall.1]
    exact hr

end Sietch
