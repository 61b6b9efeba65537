import Sietch.Snapshots

/-! What a compaction reclaims and what it reports. With a guard the boundary version is kept
even if it is a tombstone, and the live count is read off the last retained version, which
is the newest one only if no older version lies above the oldest held snapshot. -/
namespace Sietch
open ByteString Script Transition

/-- The newest version of the key is a tombstone, older than every held snapshot. -/
def StoreWorld.DeadKey (w : StoreWorld) (key : Bytes) : Prop :=
  ∃ v, (w.store.index.versions key).getLast? = some v ∧ v.value = none ∧
    ∀ g ∈ w.guards, v.seq < g.snapshot.asOfSeq

def StoreWorld.Reclaims (w : StoreWorld) : Prop :=
  ∀ key, w.DeadKey key →
    ∀ r ∈ compactedRecords w.store.index w.store.oldestHeldSnapshotSeq, r.key ≠ key

/-- The newest version is at or above the threshold if any version is. -/
def NewestReaches (threshold : Nat) (versions : List VersionEntry) : Prop :=
  ∀ newest, versions.getLast? = some newest → ∀ v ∈ versions, threshold ≤ v.seq →
    threshold ≤ newest.seq

section Retained
variable {threshold : Nat} {versions : List VersionEntry}

theorem boundary_newest {newest : VersionEntry} (hlast : versions.getLast? = some newest)
    (hlt : newest.seq < threshold) :
    versions.reverse.find? (·.seq < threshold) = some newest := by
  obtain ⟨init, rfl⟩ := List.getLast?_eq_some_iff.mp hlast
  rw [List.reverse_append]
  simp [hlt]

theorem retained_some_newest (h : NewestReaches threshold versions) :
    (retained (some threshold) versions).getLast? = versions.getLast? := by
  cases hlast : versions.getLast? with
  | none =>
      rw [List.getLast?_eq_none_iff.mp hlast]
      rfl
  | some newest =>
      have hreach := h newest hlast
      unfold retained
      by_cases hlt : newest.seq < threshold
      · have hnone : versions.filter (fun v => threshold ≤ v.seq) = [] := by
          rw [List.filter_eq_nil_iff]
          intro v hv hge
          have hle := hreach v hv (by simpa using hge)
          omega
        dsimp only
        rw [hnone, boundary_newest hlast hlt]
        rfl
      · obtain ⟨init, rfl⟩ := List.getLast?_eq_some_iff.mp hlast
        have hge : threshold ≤ newest.seq := not_lt.mp hlt
        dsimp only
        rw [List.filter_append]
        simp [hge]

end Retained

namespace Store

theorem scan_all (s : Store) :
    s.scan [] = SortedMap.collect (fun _ versions => versions.getLast?.bind VersionEntry.value)
      s.index.entries := by
  rw [scan, scanWith, SortedMap.block_eq_filter s.index.ascending]
  simp

/-- The live count is the size of the scan if each last retained version is as live as the
newest one. -/
theorem liveKeys_eq_scan {s : Store} {retainFrom : Option Nat}
    (h : ∀ key, (retained retainFrom (s.index.versions key)).getLast?.bind VersionEntry.value =
      (s.index.versions key).getLast?.bind VersionEntry.value) :
    liveKeys s.index retainFrom = (s.scan []).length := by
  have hentry : ∀ e ∈ s.index.entries,
      ((retained retainFrom e.2).getLast?.bind VersionEntry.value).isSome =
        (e.2.getLast?.bind VersionEntry.value).isSome := by
    intro e he
    have hversions : s.index.versions e.1 = e.2 := by
      rw [Index.versions, SortedMap.mem_entries.mp he, Option.getD_some]
    have hkey := h e.1
    rw [hversions] at hkey
    rw [hkey]
  rw [liveKeys, List.filter_congr hentry, scan_all, SortedMap.collect,
    List.length_filterMap_eq_countP, List.countP_eq_length_filter]
  simp only [Option.isSome_map]

theorem compact_report {crc32 : Checksum} {l : Listing} {dir dir' : StoreDir} {s s' : Store}
    {report : CompactionReport} (h : s.compact crc32 l dir = (.ok report, s', dir')) :
    report.liveKeys = liveKeys s.index s.oldestHeldSnapshotSeq := by
  unfold compact at h
  simp only [openDefault_empty] at h
  split at h
  · split at h
    · cases h
      rfl
    · cases h
    · cases h
  · cases h
  · cases h

theorem openStore_held {crc32 : Checksum} {l : Listing} {dir dir' : StoreDir} {s : Store}
    (h : openStore crc32 l dir = (.ok s, dir')) : s.heldSnapshots = SortedMap.empty := by
  simp only [openStore] at h
  split at h
  · cases h
    rfl
  · cases h
  · cases h

end Store

/-- The registry counts the live guards after every call, whatever is written. -/
def StoreWorld.Registered (w : StoreWorld) : Prop :=
  Registry w.store.heldSnapshots (w.guards.map (·.snapshot.asOfSeq))

section Guards
variable {crc32 : Checksum} {w w' : StoreWorld}

theorem AnyStoreStep.registered {e : StoreEvent} (h : w.Registered)
    (hs : AnyStoreStep crc32 w e w') : w'.Registered := by
  unfold StoreWorld.Registered at h ⊢
  cases e with
  | write call =>
      obtain ⟨hok, hg⟩ := StoreWorld.exec_write hs.2
      rw [(Store.write_append hok).2.held, hg]
      exact h
  | holdSnapshot =>
      cases hs.2
      rw [List.map_append]
      exact h.hold _
  | dropGuard i =>
      obtain ⟨g, hg, rfl⟩ := StoreWorld.exec_drop hs.2
      obtain ⟨hi, rfl⟩ := List.getElem?_eq_some_iff.mp hg
      exact h.drop ((List.getElem_cons_eraseIdx_perm hi).symm.map (·.snapshot.asOfSeq))
  | compact l =>
      obtain ⟨hg, report, hcompact⟩ := StoreWorld.exec_compact hs.2
      rw [compact_store hcompact, hg]
      exact h

theorem StoreWorld.Registered.unheld (h : w.Registered) :
    w.store.oldestHeldSnapshotSeq = none ↔ w.guards = [] :=
  (Registry.unheld h).trans List.map_eq_nil_iff

/-- A tombstone that is the boundary of a key is written again. -/
theorem StoreWorld.DeadKey.kept {key : Bytes} {threshold : Nat} (h : w.DeadKey key)
    (hreg : w.Registered) (ho : w.store.oldestHeldSnapshotSeq = some threshold) :
    ∃ r ∈ compactedRecords w.store.index w.store.oldestHeldSnapshotSeq, r.key = key := by
  obtain ⟨v, hlast, -, hold⟩ := h
  obtain ⟨g, hg, hthreshold⟩ := List.mem_map.mp (Registry.oldest hreg ho).1
  have hlt : v.seq < threshold := by
    rw [← hthreshold]
    exact hold g hg
  have hretained : v ∈ retained (some threshold) (w.store.index.versions key) := by
    apply List.mem_append_left
    rw [boundary_newest hlast hlt]
    exact List.mem_singleton_self v
  refine ⟨v.record key, mem_compactedRecords.mpr ⟨v, ?_, ?_⟩, VersionEntry.record_key key v⟩
  · rw [ho, VersionEntry.record_key]
    exact hretained
  · rw [VersionEntry.record_key]

theorem StoreWorld.reclaims_iff (hreg : w.Registered) :
    w.Reclaims ↔ w.guards = [] ∨ ∀ key, ¬ w.DeadKey key := by
  constructor
  · intro hreclaims
    cases ho : w.store.oldestHeldSnapshotSeq with
    | none => exact .inl (hreg.unheld.mp ho)
    | some threshold =>
        apply Or.inr
        intro key hdead
        obtain ⟨r, hr, hkey⟩ := hdead.kept hreg ho
        exact hreclaims key hdead r hr hkey
  · rintro (hguards | hnone)
    · intro key hdead r hr hkey
      obtain ⟨v, hlast, hvalue, -⟩ := hdead
      obtain ⟨u, hu, -⟩ := mem_compactedRecords.mp hr
      rw [hreg.unheld.mpr hguards, hkey, retained, hlast] at hu
      simp [hvalue] at hu
    · intro key hdead
      exact absurd hdead (hnone key)

theorem StoreWorld.report_eq_scan {l : Listing} {report : CompactionReport} {s : Store}
    {dir : StoreDir} (hcompact : w.store.compact crc32 l w.dir = (.ok report, s, dir))
    (h : ∀ threshold, w.store.oldestHeldSnapshotSeq = some threshold →
      ∀ key, NewestReaches threshold (w.store.index.versions key)) :
    report.liveKeys = (w.store.scan []).length := by
  rw [Store.compact_report hcompact]
  apply Store.liveKeys_eq_scan
  intro key
  cases ho : w.store.oldestHeldSnapshotSeq with
  | none => exact retained_none_value _
  | some threshold => rw [retained_some_newest (h threshold ho key)]

end Guards

/-- In every reachable store a compaction drops the keys whose newest version is a tombstone
older than every held snapshot exactly when no guard is held or there is no such key; and
its report is the size of the scan unless, with a guard held, a key's newest version lies
below the oldest held snapshot and an older one does not. -/
theorem compaction_reclaims_and_reports {crc32 : Checksum} {l : Listing} {dir₀ dir : StoreDir}
    {store : Store} (hopen : Store.openStore crc32 l dir₀ = (.ok store, dir))
    {events : List StoreEvent} {w : StoreWorld}
    (hrun : Run (AnyStoreStep crc32) ⟨dir, store, []⟩ events w) {l' : Listing}
    {report : CompactionReport} {store' : Store} {dir' : StoreDir}
    (hcompact : w.store.compact crc32 l' w.dir = (.ok report, store', dir')) :
    (w.Reclaims ↔ w.guards = [] ∨ ∀ key, ¬ w.DeadKey key) ∧
    ((∀ threshold, w.store.oldestHeldSnapshotSeq = some threshold →
        ∀ key, NewestReaches threshold (w.store.index.versions key)) →
      report.liveKeys = (w.store.scan []).length) := by
  have hreg : w.Registered := by
    refine hrun.invariant (I := StoreWorld.Registered) ?_ (fun _ _ _ h hs => hs.registered h)
    unfold StoreWorld.Registered
    rw [Store.openStore_held hopen]
    intro a
    rfl
  exact ⟨StoreWorld.reclaims_iff hreg, StoreWorld.report_eq_scan hcompact⟩

/-- A run from an empty directory and a compaction after it, with what is checked there. -/
def compactsAfter (events : List StoreEvent)
    (check : StoreWorld → CompactionReport → StoreDir → Bool) : Bool :=
  (events.foldlM (StoreWorld.exec crc32Ieee) StoreWorld.start).any (fun w =>
    match w.store.compact crc32Ieee .ascending w.dir with
    | (.ok report, _, dir) => check w report dir
    | _ => false)

theorem run_of_compactsAfter {events : List StoreEvent}
    {check : StoreWorld → CompactionReport → StoreDir → Bool}
    (h : compactsAfter events check = true) :
    ∃ w report store' dir', Run (AnyStoreStep crc32Ieee) StoreWorld.start events w ∧
      w.store.compact crc32Ieee .ascending w.dir = (.ok report, store', dir') ∧
      check w report dir' = true := by
  obtain ⟨w, hw, hcheck⟩ := (Option.any_eq_true ..).mp h
  have hrun : Run (AnyStoreStep crc32Ieee) StoreWorld.start events w :=
    .of_foldlM (fun _ _ => trivial) hw
  split at hcheck
  · rename_i report store' dir' hcompact
    exact ⟨w, report, store', dir', hrun, hcompact, hcheck⟩
  · cases hcheck

/-- A put, another, and a delete of the first: without a guard nothing of the deleted key is
written, and one live key is reported. -/
theorem compaction_reclaims_and_reports_delete :
    ∃ w report store' dir', Run (AnyStoreStep crc32Ieee) StoreWorld.start
        [.write (.put [1] [5]), .write (.put [2] [6]), .write (.delete [1])] w ∧
      w.store.compact crc32Ieee .ascending w.dir = (.ok report, store', dir') ∧
      w.DeadKey [1] ∧ w.Reclaims ∧ report.liveKeys = (w.store.scan []).length := by
  have hcheck : compactsAfter
      [.write (.put [1] [5]), .write (.put [2] [6]), .write (.delete [1])]
      (fun w _ _ => decide (w.guards.length = 0) && decide (w.store.heldSnapshots.keys = []) &&
        decide (w.store.index.versions [1] = [⟨0, some [5]⟩, ⟨2, none⟩])) = true := by
    decide +kernel
  obtain ⟨w, report, store', dir', hrun, hcompact, hfacts⟩ := run_of_compactsAfter hcheck
  simp only [Bool.and_eq_true, decide_eq_true_eq] at hfacts
  obtain ⟨⟨hlen, hkeys⟩, hversions⟩ := hfacts
  have hguards : w.guards = [] := List.eq_nil_of_length_eq_zero hlen
  have hmain := compaction_reclaims_and_reports (openStore_empty crc32Ieee .ascending) hrun
    hcompact
  refine ⟨w, report, store', dir', hrun, hcompact, ?_, hmain.1.mpr (.inl hguards), hmain.2 ?_⟩
  · refine ⟨⟨2, none⟩, by rw [hversions]; rfl, rfl, ?_⟩
    rw [hguards]
    intro g hg
    cases hg
  · intro threshold ho
    rw [Store.oldestHeldSnapshotSeq, hkeys] at ho
    cases ho

/-- With a guard the tombstone of a key that was deleted before is in the new log; and after a
compaction that set the counter back, a key with a live value is not counted. -/
theorem compaction_keeps_tombstone_and_miscounts :
    (∃ w report store' dir', Run (AnyStoreStep crc32Ieee) StoreWorld.start
        [.write (.put [1] [5]), .write (.delete [1]), .holdSnapshot] w ∧
      w.store.compact crc32Ieee .ascending w.dir = (.ok report, store', dir') ∧ w.DeadKey [1] ∧
      ∃ s, Store.reopened crc32Ieee dir' = some s ∧ s.index.versions [1] = [⟨1, none⟩]) ∧
    ∃ w report store' dir', Run (AnyStoreStep crc32Ieee) StoreWorld.start
        [.write (.put [0] [7]), .write (.put [1] [5]), .write (.delete [1]), .compact .ascending,
          .write (.put [1] [9]), .holdSnapshot] w ∧
      w.store.compact crc32Ieee .ascending w.dir = (.ok report, store', dir') ∧
      report.liveKeys = 1 ∧ (w.store.scan []).length = 2 := by
  constructor
  · have hcheck : compactsAfter [.write (.put [1] [5]), .write (.delete [1]), .holdSnapshot]
        (fun w _ dir => decide (w.guards.map (·.snapshot.asOfSeq) = [2]) &&
          decide (w.store.index.versions [1] = [⟨0, some [5]⟩, ⟨1, none⟩]) &&
          (Store.reopened crc32Ieee dir).any (fun s =>
            decide (s.index.versions [1] = [⟨1, none⟩]))) = true := by
      decide +kernel
    obtain ⟨w, report, store', dir', hrun, hcompact, hfacts⟩ := run_of_compactsAfter hcheck
    simp only [Bool.and_eq_true, decide_eq_true_eq, Option.any_eq_true] at hfacts
    obtain ⟨⟨hguards, hversions⟩, hreopened⟩ := hfacts
    refine ⟨w, report, store', dir', hrun, hcompact, ⟨⟨1, none⟩, ?_, rfl, ?_⟩, hreopened⟩
    · rw [hversions]
      rfl
    · intro g hg
      have hmem := List.mem_map_of_mem (f := fun g : Guard => g.snapshot.asOfSeq) hg
      rw [hguards] at hmem
      rw [List.mem_singleton.mp hmem]
      decide
  · have hcheck : compactsAfter
        [.write (.put [0] [7]), .write (.put [1] [5]), .write (.delete [1]), .compact .ascending,
          .write (.put [1] [9]), .holdSnapshot]
        (fun w report _ => decide (report.liveKeys = 1) &&
          decide ((w.store.scan []).length = 2)) = true := by
      decide +kernel
    obtain ⟨w, report, store', dir', hrun, hcompact, hfacts⟩ := run_of_compactsAfter hcheck
    simp only [Bool.and_eq_true, decide_eq_true_eq] at hfacts
    exact ⟨w, report, store', dir', hrun, hcompact, hfacts.1, hfacts.2⟩

end Sietch
