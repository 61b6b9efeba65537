import Sietch.Base.Run
import Sietch.StoreInv

/-! Whole runs of a store: writes, guards taken and dropped, compactions. -/
namespace Sietch
open ByteString Script Transition

/-- A live guard, with the store as it was when the guard was taken. -/
structure Guard where
  snapshot : Snapshot
  taken : Store

structure StoreWorld where
  dir : StoreDir
  store : Store
  guards : List Guard

inductive StoreEvent where
  | write (call : Call)
  | holdSnapshot
  | dropGuard (i : Nat)
  | compact (l : Listing)

/-- Keys and values that a record header can state, and listings that name every
file once. -/
def StoreEvent.Allowed : StoreEvent → Prop
  | .write call => ∀ op ∈ call.ops, op.Fits
  | .compact l => l.Fair
  | _ => True

def StoreWorld.exec (crc32 : Checksum) (w : StoreWorld) : StoreEvent → Option StoreWorld
  | .write call =>
      match w.store.write crc32 .done w.dir call with
      | (.ok (), store, dir) => some { w with store, dir }
      | _ => none
  | .holdSnapshot =>
      let (snapshot, store) := w.store.holdSnapshot
      some { w with store, guards := w.guards ++ [⟨snapshot, w.store⟩] }
  | .dropGuard i =>
      w.guards[i]?.map (fun g =>
        { w with store := w.store.dropGuard g.snapshot, guards := w.guards.eraseIdx i })
  | .compact l =>
      match w.store.compact crc32 l w.dir with
      | (.ok _, store, dir) => some { w with store, dir }
      | _ => none

def StoreStep (crc32 : Checksum) : StoreWorld → StoreEvent → StoreWorld → Prop :=
  Computed StoreEvent.Allowed (StoreWorld.exec crc32)

/-- The store is in step with its directory, and the registry counts the live guards. -/
def StoreWorld.Inv (crc32 : Checksum) (records : List Record) (w : StoreWorld) : Prop :=
  w.store.Inv crc32 records w.dir (w.guards.map (·.snapshot.asOfSeq))

def StoreEvent.recordsAfter (w : StoreWorld) (records : List Record) : StoreEvent → List Record
  | .write call => records ++ Log.numberRecords w.store.log.nextSeq call.ops
  | .compact _ => compactedRecords w.store.index w.store.oldestHeldSnapshotSeq
  | _ => records

section Steps
variable {crc32 : Checksum} {w w' : StoreWorld} {records : List Record}

theorem StoreWorld.exec_write {call : Call} (h : w.exec crc32 (.write call) = some w') :
    w.store.write crc32 .done w.dir call = (.ok (), w'.store, w'.dir) ∧ w'.guards = w.guards := by
  simp only [StoreWorld.exec] at h
  split at h
  · rename_i store dir hw
    cases h
    exact ⟨hw, rfl⟩
  · cases h

theorem StoreWorld.exec_drop {i : Nat} (h : w.exec crc32 (.dropGuard i) = some w') :
    ∃ g, w.guards[i]? = some g ∧
      w' = ⟨w.dir, w.store.dropGuard g.snapshot, w.guards.eraseIdx i⟩ := by
  obtain ⟨g, hg, rfl⟩ := Option.map_eq_some_iff.mp h
  exact ⟨g, hg, rfl⟩

theorem StoreWorld.exec_compact {l : Listing} (h : w.exec crc32 (.compact l) = some w') :
    w'.guards = w.guards ∧
      ∃ report, w.store.compact crc32 l w.dir = (.ok report, w'.store, w'.dir) := by
  simp only [StoreWorld.exec] at h
  split at h
  · rename_i report store dir hc
    cases h
    exact ⟨rfl, report, hc⟩
  · cases h

/-- A compaction of a reachable store succeeds and replaces only its log. -/
theorem StoreWorld.Inv.compacted {l : Listing} (h : w.Inv crc32 records)
    (hs : StoreStep crc32 w (.compact l) w') :
    w'.store = { w.store with log := w'.store.log } ∧ w'.Inv crc32
      (compactedRecords w.store.index w.store.oldestHeldSnapshotSeq) := by
  obtain ⟨hg, report, hc⟩ := StoreWorld.exec_compact hs.2
  obtain ⟨report', log, dir', hc', hinv⟩ := Store.Inv.compact h hs.1
  rw [hc'] at hc
  simp only [Prod.mk.injEq] at hc
  obtain ⟨-, hstore, hdir⟩ := hc
  rw [StoreWorld.Inv, ← hstore, ← hdir, hg]
  exact ⟨rfl, hinv⟩

theorem StoreWorld.Inv.compacts {l : Listing} (h : w.Inv crc32 records) (hl : l.Fair) :
    ∃ w', StoreStep crc32 w (.compact l) w' := by
  obtain ⟨report, log, dir', hc, -⟩ := Store.Inv.compact h hl
  refine ⟨{ w with store := { w.store with log }, dir := dir' }, hl, ?_⟩
  simp only [StoreWorld.exec, hc]

theorem StoreWorld.Inv.writes {call : Call} (h : w.Inv crc32 records)
    (hfit : ∀ op ∈ call.ops, op.Fits) (hn : w.store.log.nextSeq + call.ops.length < 2 ^ 64) :
    ∃ w', StoreStep crc32 w (.write call) w' := by
  obtain ⟨store, dir, hwrite⟩ := Store.Inv.writes h hfit hn
  refine ⟨{ w with store, dir }, hfit, ?_⟩
  simp only [StoreWorld.exec, hwrite]

theorem StoreStep.inv {e : StoreEvent} (h : w.Inv crc32 records) (hs : StoreStep crc32 w e w') :
    w'.Inv crc32 (e.recordsAfter w records) := by
  cases e with
  | write call =>
      obtain ⟨hok, hg⟩ := StoreWorld.exec_write hs.2
      rw [StoreWorld.Inv, hg]
      exact Store.Inv.write h hs.1 hok
  | holdSnapshot =>
      cases hs.2
      rw [StoreWorld.Inv, List.map_append]
      exact Store.Inv.hold h
  | dropGuard i =>
      obtain ⟨g, hg, rfl⟩ := StoreWorld.exec_drop hs.2
      obtain ⟨hi, rfl⟩ := List.getElem?_eq_some_iff.mp hg
      exact Store.Inv.drop h ((List.getElem_cons_eraseIdx_perm hi).symm.map (·.snapshot.asOfSeq))
  | compact l => exact (h.compacted hs).2

end Steps

/-- `Store::open` on an empty directory. -/
def StoreWorld.start : StoreWorld :=
  ⟨{ StoreDir.empty with main := newMain [] },
    ⟨freshLog, SortedMap.empty, false, SortedMap.empty⟩, []⟩

theorem openStore_empty (crc32 : Checksum) (l : Listing) :
    Store.openStore crc32 l StoreDir.empty =
      (.ok StoreWorld.start.store, StoreWorld.start.dir) := rfl

theorem freshLog_running (crc32 : Checksum) : Running crc32 (newMain []) freshLog [] [] :=
  ⟨⟨rfl, by simp, by simp, inert_nil crc32⟩, rfl, rfl, rfl⟩

theorem StoreWorld.start_inv (crc32 : Checksum) : StoreWorld.start.Inv crc32 [] where
  clean := ⟨rfl, rfl, rfl, rfl⟩
  disk := .live (freshLog_running crc32)
  indexed := fun _ _ hv => hv
  fits := by
    intro key v hv
    cases hv
  registry := fun _ => rfl

theorem storeRun_inv {crc32 : Checksum} {events : List StoreEvent} {w₀ w : StoreWorld}
    {records₀ : List Record} (hinv₀ : w₀.Inv crc32 records₀)
    (h : Run (StoreStep crc32) w₀ events w) : ∃ records, w.Inv crc32 records := by
  refine h.invariant (I := fun w => ∃ records, w.Inv crc32 records) ⟨records₀, hinv₀⟩ ?_
  rintro a e b ⟨records, hinv⟩ hs
  exact ⟨_, hs.inv hinv⟩

theorem settle_clean {dir : StoreDir} (hclean : dir.Clean) {l : Listing} :
    final FsAction.apply (finishOrDiscardPendingCompaction l) dir = dir := by
  obtain ⟨main, tmp, backup, placeholder, marker⟩ := dir
  obtain ⟨rfl, rfl, rfl, rfl⟩ := hclean
  rfl

/-- What reopening makes of the records of a clean directory. -/
theorem openStore_clean {crc32 : Checksum} {dir : StoreDir} {log : Log} {records : List Record}
    (hclean : dir.Clean) (hh : Holds crc32 dir.main (some log) records) (l : Listing) :
    ∃ log', Store.openStore crc32 l dir =
      (.ok ⟨log', Index.replay records, false, SortedMap.empty⟩, dir) := by
  obtain ⟨old, active, hr, rfl⟩ := hh.running
  obtain ⟨log', ho, -⟩ := hr.disk.opens
  refine ⟨log', ?_⟩
  simp only [Store.openStore, settle_clean hclean, ho]

/-- A store whose index was replayed from the records of its log is in step with it. -/
theorem Store.Inv.of_replay {crc32 : Checksum} {dir : StoreDir} {s : Store} {records : List Record}
    (hclean : dir.Clean) (hdisk : Holds crc32 dir.main (some s.log) records)
    (hindex : s.index = Index.replay records) (hheld : s.heldSnapshots = SortedMap.empty) :
    s.Inv crc32 records dir [] := by
  refine ⟨hclean, hdisk, ?_, ?_, ?_⟩
  · intro key v hv
    rw [hindex, Index.versions_replay]
    exact hv
  · intro key v hv
    rw [hindex, Index.versions_replay] at hv
    obtain ⟨r, hr, rfl, rfl⟩ := Index.mem_added.mp hv
    obtain ⟨old, active, hrun, rfl⟩ := hdisk.running
    rw [Record.version_seq]
    exact ⟨fits_version (hrun.disk.fits r hr),
      (Nat.succ_le_of_lt (seq_lt_nextSeqOf hr)).trans_lt hrun.disk.next⟩
  · intro seq
    rw [hheld]
    rfl

/-- Opening a directory without leftovers of a compaction, whatever the log in it went
through. -/
theorem openStore_holds {crc32 : Checksum} {dir : StoreDir} {log : Option Log}
    {records : List Record} (hclean : dir.Clean) (hh : Holds crc32 dir.main log records)
    (l : Listing) :
    ∃ store dir', Store.openStore crc32 l dir = (.ok store, dir') ∧
      store.Inv crc32 records dir' [] ∧ store.index = Index.replay records := by
  obtain ⟨log', torn, main, ho, hholds, -⟩ := hh.opens defaultSegmentMaxBytes
  have ho' : Log.openDefault crc32 dir.main = (.ok (log', ⟨records, torn⟩), main) := ho
  refine ⟨⟨log', Index.replay records, torn, SortedMap.empty⟩, { dir with main }, ?_,
    .of_replay hclean hholds rfl rfl, rfl⟩
  simp only [Store.openStore, settle_clean hclean, ho']

/-- At a compaction with a guard no key has a version, at or above the oldest held
snapshot, whose seq exceeds that of the key's newest version. -/
def NoStaleVersionAbove (w : StoreWorld) : StoreEvent → Prop
  | .compact _ => ∀ threshold, w.store.oldestHeldSnapshotSeq = some threshold →
      ∀ key, Unovertaken threshold (w.store.index.versions key)
  | _ => True

/-- The log gives every key its live value. -/
def Live (records : List Record) (s : Store) : Prop :=
  ∀ key, (Index.added records key).getLast?.bind VersionEntry.value = s.get key

/-- The new log gives every key its live value unless a retained version overtakes the
newest one. -/
theorem live_compacted {s : Store} (h : ∀ threshold, s.oldestHeldSnapshotSeq = some threshold →
    ∀ key, Unovertaken threshold (s.index.versions key)) :
    Live (compactedRecords s.index s.oldestHeldSnapshotSeq) s := by
  intro key
  rw [added_compacted, Store.get_eq]
  cases ho : s.oldestHeldSnapshotSeq with
  | none => rw [retained_none_sorted, retained_none_value]
  | some threshold => rw [retained_some_last (h threshold ho key)]

theorem Live.wrote {records : List Record} {ops : List LogOp} {dir dir' : StoreDir} {s s' : Store}
    (h : Live records s) (hw : Store.Wrote ops dir s dir' s') :
    Live (records ++ Log.numberRecords s.log.nextSeq ops) s' := by
  intro key
  have hkey := h key
  rw [Store.get_eq] at hkey ⊢
  rw [hw.index, Index.versions_pushAll, Index.added_append]
  cases hnew : Index.added (Log.numberRecords s.log.nextSeq ops) key with
  | nil => simpa using hkey
  | cons v vs => simp [List.getLast?_append, List.getLast?_cons]

theorem Live.step {crc32 : Checksum} {w w' : StoreWorld} {e : StoreEvent} {records : List Record}
    (hinv : w.Inv crc32 records) (h : Live records w.store) (hc : NoStaleVersionAbove w e)
    (hs : StoreStep crc32 w e w') : Live (e.recordsAfter w records) w'.store := by
  intro key
  cases e with
  | write call =>
      have hw := (Store.write_append (StoreWorld.exec_write hs.2).1).2
      exact h.wrote hw key
  | holdSnapshot =>
      cases hs.2
      exact h key
  | dropGuard i =>
      obtain ⟨g, -, rfl⟩ := StoreWorld.exec_drop hs.2
      have hget : (w.store.dropGuard g.snapshot).get key = w.store.get key := by
        rw [Store.get_eq, Store.get_eq, (dropGuard_index w.store g.snapshot).1]
      rw [hget]
      exact h key
  | compact l =>
      have hstore := (hinv.compacted hs).1
      have hget : w'.store.get key = w.store.get key := by
        rw [Store.get_eq, Store.get_eq, hstore]
      rw [hget]
      exact live_compacted hc key

theorem live_run {crc32 : Checksum} {events : List StoreEvent} {w₀ w : StoreWorld}
    {records₀ : List Record} (hinv₀ : w₀.Inv crc32 records₀) (hlive₀ : Live records₀ w₀.store)
    (hrun : Run (Under NoStaleVersionAbove (StoreStep crc32)) w₀ events w) :
    ∃ records, w.Inv crc32 records ∧ Live records w.store := by
  refine hrun.invariant (I := fun w => ∃ records, w.Inv crc32 records ∧ Live records w.store)
    ⟨records₀, hinv₀, hlive₀⟩ ?_
  rintro a e b ⟨records, hinv, hl⟩ ⟨hc, hs⟩
  exact ⟨_, hs.inv hinv, hl.step hinv hc hs⟩

/-- Reopening never changes the live state, in every run in which no compaction with
a guard meets a version overtaken by a lower sequence number. -/
theorem reopen_keeps_live_state {crc32 : Checksum} {l : Listing} {store : Store} {dir : StoreDir}
    (hopen : Store.openStore crc32 l StoreDir.empty = (.ok store, dir))
    {events : List StoreEvent} {w : StoreWorld}
    (hrun : Run (Under NoStaleVersionAbove (StoreStep crc32)) ⟨dir, store, []⟩ events w)
    (l' : Listing) :
    ∃ store' dir', Store.openStore crc32 l' w.dir = (.ok store', dir') ∧
      (∀ key, store'.get key = w.store.get key) ∧
      ∀ keyPrefix, store'.scan keyPrefix = w.store.scan keyPrefix := by
  rw [openStore_empty, Prod.mk.injEq, Outcome.ok.injEq] at hopen
  obtain ⟨rfl, rfl⟩ := hopen
  obtain ⟨records, hinv, hl⟩ := live_run (StoreWorld.start_inv crc32) (fun _ => rfl) hrun
  obtain ⟨log', ho⟩ := openStore_clean hinv.clean hinv.disk l'
  have hget : ∀ key, Store.get ⟨log', Index.replay records, false, SortedMap.empty⟩ key =
      w.store.get key := by
    intro key
    rw [← hl key, Store.get_eq, Index.versions_replay]
  exact ⟨_, _, ho, hget, fun keyPrefix => Store.scan_congr hget keyPrefix⟩

theorem Listing.ascending_fair : Listing.ascending.Fair :=
  ⟨fun _ => .refl _, fun _ => .refl _, fun _ _ => .refl _⟩

/-- After the delete the first compaction sets the counter back, so the second put
reuses a sequence number below the tombstone's. -/
def overtakingRun : List StoreEvent :=
  [.write (.put [0] [7]), .write (.put [1] [5]), .write (.delete [1]), .compact .ascending,
    .write (.put [1] [9]), .holdSnapshot, .compact .ascending]

theorem overtakingRun_allowed : ∀ e ∈ overtakingRun, e.Allowed := by
  simp [overtakingRun, StoreEvent.Allowed, Call.ops, LogOp.Fits, Listing.ascending_fair]

def Store.reopened (crc32 : Checksum) (dir : StoreDir) : Option Store :=
  match Store.openStore crc32 .ascending dir with
  | (.ok s, _) => some s
  | _ => none

theorem Store.reopened_some {crc32 : Checksum} {dir : StoreDir} {s : Store}
    (h : Store.reopened crc32 dir = some s) :
    ∃ dir', Store.openStore crc32 .ascending dir = (.ok s, dir') := by
  unfold Store.reopened at h
  split at h
  · rename_i hopen
    cases h
    exact ⟨_, hopen⟩
  · cases h

/-- A key that holds a value before the drop is gone after the reopen. -/
theorem reopen_loses_live_value :
    ∃ w, Run (StoreStep crc32Ieee) StoreWorld.start overtakingRun w ∧
      w.store.get [1] = some [9] ∧
      ∃ s, Store.reopened crc32Ieee w.dir = some s ∧ s.get [1] = none := by
  have hcheck : (overtakingRun.foldlM (StoreWorld.exec crc32Ieee) StoreWorld.start).any (fun w =>
      decide (w.store.get [1] = some [9]) &&
        (Store.reopened crc32Ieee w.dir).any (fun s => decide (s.get [1] = none))) = true := by
    decide +kernel
  rw [Option.any_eq_true] at hcheck
  obtain ⟨w, hw, hlive⟩ := hcheck
  simp only [Bool.and_eq_true, decide_eq_true_eq, Option.any_eq_true] at hlive
  exact ⟨w, .of_foldlM overtakingRun_allowed hw, hlive.1, hlive.2⟩

theorem reopen_after_guarded_compact :
    ∃ w, Run (Under NoStaleVersionAbove (StoreStep crc32Ieee)) StoreWorld.start
        [.write (.put [1] [5]), .holdSnapshot, .compact .ascending] w ∧
      ∃ store' dir', Store.openStore crc32Ieee .ascending w.dir = (.ok store', dir') ∧
        (∀ key, store'.get key = w.store.get key) ∧
        ∀ keyPrefix, store'.scan keyPrefix = w.store.scan keyPrefix := by
  obtain ⟨w1, h1⟩ : ∃ w1, StoreWorld.exec crc32Ieee StoreWorld.start (.write (.put [1] [5])) =
      some w1 := Option.isSome_iff_exists.mp (by decide +kernel)
  have hput : StoreStep crc32Ieee StoreWorld.start (.write (.put [1] [5])) w1 :=
    ⟨by simp [StoreEvent.Allowed, Call.ops, LogOp.Fits], h1⟩
  have hhold : StoreStep crc32Ieee w1 .holdSnapshot
      ⟨w1.dir, w1.store.holdSnapshot.2, w1.guards ++ [⟨w1.store.snapshot, w1.store⟩]⟩ :=
    ⟨trivial, rfl⟩
  have hinv := hhold.inv (hput.inv (StoreWorld.start_inv crc32Ieee))
  obtain ⟨w3, hcompact⟩ := hinv.compacts Listing.ascending_fair
  obtain ⟨hok, hguards⟩ := StoreWorld.exec_write h1
  have hw := (Store.write_append hok).2
  have hcond : NoStaleVersionAbove
      ⟨w1.dir, w1.store.holdSnapshot.2, w1.guards ++ [⟨w1.store.snapshot, w1.store⟩]⟩
      (.compact .ascending) := by
    intro threshold ht key newest _ v hv hge
    have hone : threshold ∈ [w1.store.log.nextSeq] := by
      have hmem := (hinv.registry.oldest ht).1
      rw [hguards] at hmem
      exact hmem
    rw [List.mem_singleton.mp hone, hw.nextSeq] at hge
    have hv' : v ∈ w1.store.index.versions key := hv
    rw [hw.index, Index.versions_pushAll] at hv'
    obtain ⟨r, hr, -, rfl⟩ := Index.mem_added.mp hv'
    cases List.mem_singleton.mp hr
    exact absurd hge (by decide)
  have hrun : Run (Under NoStaleVersionAbove (StoreStep crc32Ieee)) StoreWorld.start
      [.write (.put [1] [5]), .holdSnapshot, .compact .ascending] w3 :=
    .snoc (.snoc (.snoc .nil ⟨trivial, hput⟩) ⟨trivial, hhold⟩) ⟨hcond, hcompact⟩
  exact ⟨w3, hrun, reopen_keeps_live_state (openStore_empty crc32Ieee .ascending) hrun .ascending⟩

end Sietch
