import Sietch.CompactionCrash
import Sietch.CompactionReport
import Sietch.StoreOpen

/-! Where compactions end. Held snapshots can make one compaction keep more than the live
values. Unless a version it keeps overtakes its key's newest one, the next compaction after a
reopen leaves one put for each live key, and from then on no compaction changes a byte. -/
namespace Sietch
open ByteString Transition

def newestLive (versions : List VersionEntry) : Option (Nat × Bytes) :=
  versions.getLast?.bind (fun v => v.value.map (fun value => (v.seq, value)))

/-- The live keys of an index, with the sequence number and the value of each. -/
def Index.liveEntries (index : Index) : List (Bytes × Nat × Bytes) :=
  SortedMap.collect (fun _ => newestLive) index.entries

def liveRecord (e : Bytes × Nat × Bytes) : Record := Record.put e.2.1 e.1 e.2.2

theorem retained_none_records (key : Bytes) (versions : List VersionEntry) :
    (retained none versions).map (VersionEntry.record key) =
      ((newestLive versions).map (fun e => liveRecord (key, e))).toList := by
  unfold retained newestLive
  cases versions.getLast? with
  | none => rfl
  | some newest =>
      obtain ⟨seq, value⟩ := newest
      cases value with
      | none => rfl
      | some value => rfl

/-- Without a guard the new log depends on the live entries only. -/
theorem compactedRecords_none (index : Index) :
    compactedRecords index none =
      (index.liveEntries.map liveRecord).insertionSort (fun a b => a.seq ≤ b.seq) := by
  unfold compactedRecords Index.liveEntries SortedMap.collect
  congr 1
  induction index.entries with
  | nil => rfl
  | cons e es ih =>
      rw [List.flatMap_cons, ih, retained_none_records, List.filterMap_cons]
      dsimp only
      cases newestLive e.2 with
      | none => rfl
      | some newest => rfl

theorem Index.liveEntries_congr {i j : Index}
    (h : ∀ key, newestLive (i.versions key) = newestLive (j.versions key)) :
    i.liveEntries = j.liveEntries := by
  have hlookup : ∀ (index : Index) key, SortedMap.lookup key index.liveEntries =
      newestLive (index.versions key) := by
    intro index key
    unfold Index.liveEntries Index.versions
    rw [SortedMap.lookup_collect index.ascending]
    change (index.get? key).bind newestLive = _
    cases index.get? key with
    | none => rfl
    | some versions => rfl
  apply SortedMap.Ascending.ext i.ascending.collect j.ascending.collect
  intro key
  exact (hlookup i key).trans ((h key).trans (hlookup j key).symm)

theorem Store.get_newestLive (s : Store) (key : Bytes) :
    s.get key = (newestLive (s.index.versions key)).map Prod.snd := by
  rw [Store.get_eq]
  unfold newestLive
  cases (s.index.versions key).getLast? with
  | none => rfl
  | some newest =>
      obtain ⟨seq, value⟩ := newest
      cases value with
      | none => rfl
      | some value => rfl

/-- A compaction keeps the newest version of every live key, and leaves every other key dead. -/
theorem newestLive_compacted {index : Index} {retainFrom : Option Nat}
    (h : ∀ threshold, retainFrom = some threshold →
      ∀ key, Unovertaken threshold (index.versions key)) (key : Bytes) :
    newestLive ((Index.replay (compactedRecords index retainFrom)).versions key) =
      newestLive (index.versions key) := by
  rw [Index.versions_replay, added_compacted]
  cases hold : retainFrom with
  | some threshold =>
      unfold newestLive
      rw [retained_some_last (h threshold hold key)]
  | none =>
      unfold retained newestLive
      cases (index.versions key).getLast? with
      | none => rfl
      | some newest =>
          obtain ⟨seq, value⟩ := newest
          cases value with
          | none => rfl
          | some value => rfl

theorem Store.scan_liveEntries (s : Store) :
    s.scan [] = s.index.liveEntries.map (fun e => (e.1, e.2.2)) := by
  rw [Store.scan_all]
  unfold Index.liveEntries SortedMap.collect
  rw [List.map_filterMap]
  apply List.filterMap_congr
  intro e _
  unfold newestLive
  dsimp only
  cases e.2.getLast? with
  | none => rfl
  | some newest =>
      obtain ⟨seq, value⟩ := newest
      cases value with
      | none => rfl
      | some value => rfl

/-- The space of the live entries, in a log of puts. -/
def liveBytes (entries : List (Bytes × Bytes)) : Nat :=
  (entries.map (fun e => headerLen + e.1.length + e.2.length)).sum

theorem length_compacted (crc32 : Checksum) (s : Store) :
    (encodeAll crc32 (compactedRecords s.index none)).length = liveBytes (s.scan []) := by
  have hperm := (List.perm_insertionSort (fun a b : Record => a.seq ≤ b.seq)
    (s.index.liveEntries.map liveRecord)).map Record.encodedLen
  rw [length_encodeAll, compactedRecords_none, hperm.sum_eq, liveBytes, Store.scan_liveEntries,
    List.map_map, List.map_map]
  rfl

theorem Store.compact_done {crc32 : Checksum} {l : Listing} {dir dir' : StoreDir} {s s' : Store}
    {report : CompactionReport} (h : s.compact crc32 l dir = (.ok report, s', dir')) :
    report = ⟨liveKeys s.index s.oldestHeldSnapshotSeq, s.log.segmentCount,
        s'.log.segmentCount⟩ ∧
      dir' = Script.final FsAction.apply (compactScript crc32 l
        (compactedRecords s.index s.oldestHeldSnapshotSeq)) dir := by
  unfold compact at h
  simp only [openDefault_empty] at h
  split at h
  · split at h
    · cases h
      exact ⟨rfl, rfl⟩
    · cases h
    · cases h
  · cases h
  · cases h

def oneSegment (crc32 : Checksum) (records : List Record) : StoreDir :=
  logOnly (newMain (encodeAll crc32 records))

section Swap
variable {crc32 : Checksum} {l : Listing} {dir : StoreDir} {s : Store} {records : List Record}

theorem Running.segmentCount {dir : SegmentDir} {log : Log} {active : List Record}
    (h : Running crc32 dir log [] active) : log.segmentCount = 1 := by
  rw [Log.segmentCount, h.sealedIds]
  rfl

theorem Store.compact_exact (crc32 : Checksum) (hl : l.Fair) (hclean : dir.Clean)
    (hrecords : compactedRecords s.index s.oldestHeldSnapshotSeq = records)
    (hfit : ∀ r ∈ records, r.Fits) (hnext : nextSeqOf records < 2 ^ 64) :
    ∃ log, s.compact crc32 l dir =
      (.ok ⟨liveKeys s.index s.oldestHeldSnapshotSeq, s.log.segmentCount, 1⟩, { s with log },
        oneSegment crc32 records) := by
  subst hrecords
  obtain ⟨report, log, dir', hcompact, hclean', hr⟩ := Store.compact_ok crc32 hl hclean hfit hnext
  obtain ⟨hreport, hdir⟩ := Store.compact_done hcompact
  have hbuild : Building dir.main dir := ⟨rfl, hclean.2.1, hclean.2.2.2⟩
  obtain ⟨new, hopen, -⟩ := (onDisk_newMain crc32 hfit hnext).opens
  have hmain : dir'.main = newMain (encodeAll crc32
      (compactedRecords s.index s.oldestHeldSnapshotSeq)) := by
    rw [hdir]
    refine mergedMain_none ((compactScript_triple hl ?_) dir hbuild).1.1
    intro main hm
    rw [mergedMain_none hm]
    exact ⟨new, _, hopen⟩
  refine ⟨log, ?_⟩
  rw [hcompact, hreport, hr.segmentCount]
  obtain ⟨main, tmp, backup, placeholder, marker⟩ := dir'
  obtain ⟨rfl, rfl, rfl, rfl⟩ := hclean'
  obtain rfl := hmain
  rfl

theorem openStore_oneSegment (crc32 : Checksum) (hfit : ∀ r ∈ records, r.Fits)
    (hnext : nextSeqOf records < 2 ^ 64) (l : Listing) :
    ∃ s, Store.openStore crc32 l (oneSegment crc32 records) =
        (.ok s, oneSegment crc32 records) ∧
      s.index = Index.replay records ∧ s.oldestHeldSnapshotSeq = none ∧
      s.log.segmentCount = 1 := by
  have hclean : (oneSegment crc32 records).Clean := ⟨rfl, rfl, rfl, rfl⟩
  obtain ⟨log, hopen, hr⟩ := (onDisk_newMain crc32 hfit hnext).opens
  refine ⟨⟨log, Index.replay records, false, SortedMap.empty⟩, ?_, rfl, rfl, hr.segmentCount⟩
  have hlog : Log.openDefault crc32 (oneSegment crc32 records).main =
      (.ok (log, ⟨records, false⟩), (oneSegment crc32 records).main) := hopen
  simp only [Store.openStore, settle_clean hclean, hlog]

theorem compact_reopened (crc32 : Checksum) {index : Index} (hfits : ∀ key,
      ∀ v ∈ index.versions key, (v.record key).Fits ∧ v.seq + 1 < 2 ^ 64)
    (retainFrom : Option Nat) (h : ∀ threshold, retainFrom = some threshold →
      ∀ key, Unovertaken threshold (index.versions key)) (l : Listing) {l' : Listing}
    (hl : l'.Fair) :
    ∃ s s', Store.openStore crc32 l (oneSegment crc32 (compactedRecords index retainFrom)) =
        (.ok s, oneSegment crc32 (compactedRecords index retainFrom)) ∧
      (∀ key, s.get key = (newestLive (index.versions key)).map Prod.snd) ∧
      s.compact crc32 l' (oneSegment crc32 (compactedRecords index retainFrom)) =
        (.ok ⟨index.liveEntries.length, 1, 1⟩, s',
          oneSegment crc32 (compactedRecords index none)) := by
  obtain ⟨hfit, hnext⟩ := compacted_fits retainFrom hfits
  obtain ⟨s, hopen, hindex, hold, hcount⟩ := openStore_oneSegment crc32 hfit hnext l
  have hnewest : ∀ key, newestLive (s.index.versions key) = newestLive (index.versions key) := by
    rw [hindex]
    exact newestLive_compacted h
  have hentries : s.index.liveEntries = index.liveEntries := Index.liveEntries_congr hnewest
  have hrecords : compactedRecords s.index s.oldestHeldSnapshotSeq =
      compactedRecords index none := by
    rw [hold, compactedRecords_none, hentries, ← compactedRecords_none]
  have hlive : liveKeys s.index s.oldestHeldSnapshotSeq = index.liveEntries.length := by
    rw [hold, Store.liveKeys_eq_scan (fun key => retained_none_value _), Store.scan_liveEntries,
      List.length_map, hentries]
  obtain ⟨hfit', hnext'⟩ := compacted_fits none hfits
  have hclean : (oneSegment crc32 (compactedRecords index retainFrom)).Clean :=
    ⟨rfl, rfl, rfl, rfl⟩
  obtain ⟨log, hcompact⟩ := Store.compact_exact crc32 hl hclean hrecords hfit' hnext'
  rw [hlive, hcount] at hcompact
  refine ⟨s, _, hopen, ?_, hcompact⟩
  intro key
  rw [Store.get_newestLive, hnewest key]

end Swap

/-- After a compaction, with whatever guards, that retains no stale version above a newest
one, the next one of a reopened store leaves a log of one put for each live key. That log takes
the space of the live entries, and opening and compacting it leaves it as it is. Without a guard
the first compaction leaves it already. -/
theorem compactions_converge {crc32 : Checksum} {l₀ : Listing} {store : Store}
    {dir₀ dir : StoreDir} (hopen : Store.openStore crc32 l₀ dir₀ = (.ok store, dir))
    (hbackup : dir.backup = none) {events : List StoreEvent} {w w₁ : StoreWorld} {l₁ : Listing}
    (hrun : Run (StoreStep crc32) ⟨dir, store, []⟩ events w)
    (hcompact : Under NoStaleVersionAbove (StoreStep crc32) w (.compact l₁) w₁) :
    ∃ records, (encodeAll crc32 records).length = liveBytes (w.store.scan []) ∧
      (w.guards = [] → w₁.dir = oneSegment crc32 records) ∧
      ∀ d, d = w₁.dir ∨ d = oneSegment crc32 records → ∀ l l' : Listing, l'.Fair →
        ∃ s s', Store.openStore crc32 l d = (.ok s, d) ∧ s.get = w.store.get ∧
          s.compact crc32 l' d =
            (.ok ⟨(w.store.scan []).length, 1, 1⟩, s', oneSegment crc32 records) := by
  obtain ⟨records₀, hinv₀, -⟩ := openStore_inv hopen hbackup
  obtain ⟨old, hinv⟩ := storeRun_inv hinv₀ hrun
  obtain ⟨hstale, hfair, hexec⟩ := hcompact
  obtain ⟨-, report, hfirst⟩ := StoreWorld.exec_compact hexec
  obtain ⟨hfit, hnext⟩ := compacted_fits w.store.oldestHeldSnapshotSeq hinv.fits
  obtain ⟨log, hexact⟩ := Store.compact_exact crc32 hfair hinv.clean rfl hfit hnext
  have hdir : w₁.dir = oneSegment crc32
      (compactedRecords w.store.index w.store.oldestHeldSnapshotSeq) := by
    rw [hexact] at hfirst
    exact (congrArg (fun r => r.2.2) hfirst).symm
  refine ⟨compactedRecords w.store.index none, length_compacted crc32 w.store, ?_, ?_⟩
  · intro hguards
    have hregistered : w.Registered := hinv.registry
    have hold : w.store.oldestHeldSnapshotSeq = none := hregistered.unheld.mpr hguards
    rw [hdir, hold]
  · intro d hd l l' hl
    have hlength : (w.store.scan []).length = w.store.index.liveEntries.length := by
      rw [Store.scan_liveEntries, List.length_map]
    have hget : ∀ s : Store,
        (∀ key, s.get key = (newestLive (w.store.index.versions key)).map Prod.snd) →
        s.get = w.store.get := by
      intro s hs
      funext key
      rw [hs key, Store.get_newestLive]
    rw [hlength]
    rcases hd with rfl | rfl
    · rw [hdir]
      obtain ⟨s, s', hs, hkeys, hagain⟩ := compact_reopened crc32 hinv.fits _ hstale l hl
      exact ⟨s, s', hs, hget s hkeys, hagain⟩
    · obtain ⟨s, s', hs, hkeys, hagain⟩ := compact_reopened crc32 hinv.fits none
        (fun _ h => by cases h) l hl
      exact ⟨s, s', hs, hget s hkeys, hagain⟩

/-- A put, a guard and a delete of the key: the guarded compaction keeps both versions. -/
def guardedDelete : List StoreEvent :=
  [.write (.put [1] [5]), .holdSnapshot, .write (.delete [1])]

set_option maxRecDepth 100000 in
theorem guardedDelete_run :
    ∃ w, Run (Under Uncompacted (StoreStep crc32Ieee)) StoreWorld.start guardedDelete w := by
  have hone : Run (Under Uncompacted (StoreStep crc32Ieee)) StoreWorld.start
      (guardedDelete.take 1) _ :=
    .snoc .nil ⟨trivial, by simp [StoreEvent.Allowed, Call.ops, LogOp.Fits], rfl⟩
  have htwo : Run (Under Uncompacted (StoreStep crc32Ieee)) StoreWorld.start
      (guardedDelete.take 2) _ :=
    .snoc hone ⟨trivial, trivial, rfl⟩
  have hrun : Run (Under Uncompacted (StoreStep crc32Ieee)) StoreWorld.start guardedDelete _ :=
    .snoc htwo ⟨trivial, by simp [StoreEvent.Allowed, Call.ops, LogOp.Fits], rfl⟩
  exact ⟨_, hrun⟩

/-- The compaction after a reopen drops them. -/
theorem compactions_converge_guarded :
    ∃ w w₁ records, Run (StoreStep crc32Ieee) StoreWorld.start guardedDelete w ∧
      Under NoStaleVersionAbove (StoreStep crc32Ieee) w (.compact .ascending) w₁ ∧
      (encodeAll crc32Ieee records).length = liveBytes (w.store.scan []) ∧
      ∃ s s', Store.openStore crc32Ieee .ascending w₁.dir = (.ok s, w₁.dir) ∧
        s.compact crc32Ieee .ascending w₁.dir =
          (.ok ⟨(w.store.scan []).length, 1, 1⟩, s', oneSegment crc32Ieee records) := by
  obtain ⟨w, hrun⟩ := guardedDelete_run
  obtain ⟨log, hwhole⟩ := StoreWorld.Whole.run ⟨StoreWorld.start_inv crc32Ieee, rfl, rfl⟩ hrun
  obtain ⟨w₁, hcompact⟩ := hwhole.inv.compacts Listing.ascending_fair
  have hstale : NoStaleVersionAbove w (.compact .ascending) := by
    intro threshold _ key
    rw [hwhole.index, Index.versions_replay]
    exact hwhole.numbered.unovertaken key threshold
  have hplain : Run (StoreStep crc32Ieee) StoreWorld.start guardedDelete w :=
    hrun.mono (fun _ _ _ hs => hs.2)
  obtain ⟨records, hbytes, -, hagain⟩ := compactions_converge
    (openStore_empty crc32Ieee .ascending) rfl hplain ⟨hstale, hcompact⟩
  obtain ⟨s, s', hopen, -, hsecond⟩ := hagain w₁.dir (.inl rfl) .ascending .ascending
    Listing.ascending_fair
  exact ⟨w, w₁, records, hplain, ⟨hstale, hcompact⟩, hbytes, s, s', hopen, hsecond⟩

end Sietch
