import Sietch.CompactionCrash
import Sietch.StoreOpen

/-! A compaction in which a file-system step fails. The store goes on with the log that it has
at that point: its own up to the placeholder, the placeholder during the swap, and the new one
once that is open. -/
namespace Sietch
open ByteString Script Transition

/-- The part of `compact` in which a step fails, with the number of steps of that part that
were done. `building` ends before the marker is written. -/
inductive CompactFault where
  | building (n : Nat)
  | placeholder (n : Nat)
  | swapping (n : Nat)
  | reopening (n : Nat)
  | removing (n : Nat)
  deriving DecidableEq, Repr

inductive LogHome where
  | main
  | placeholder
  deriving DecidableEq, Repr

structure FailedStore where
  store : Store
  dir : StoreDir
  home : LogHome

def stepsDone (p : StoreScript) (n : Nat) (d : StoreDir) : StoreDir :=
  exec FsAction.apply ((p d).take n) d

def placeholderLog (crc32 : Checksum) : Option Log :=
  match Log.openDefault crc32 SortedMap.empty with
  | (.ok (log, _), _) => some log
  | _ => none

/-- `compact`, up to the step that fails. -/
def Store.compactFailing (crc32 : Checksum) (l : Listing) (fault : CompactFault) (dir : StoreDir)
    (s : Store) : Option FailedStore :=
  let records := compactedRecords s.index s.oldestHeldSnapshotSeq
  let marked := FsAction.apply .writeMarker (final FsAction.apply (buildTmp crc32 l records) dir)
  let replaced := final FsAction.apply (buildPlaceholder crc32 l) marked
  let swapped := final FsAction.apply (finishPendingCompaction l) replaced
  match fault with
  | .building n => some ⟨s, stepsDone (buildTmp crc32 l records) n dir, .main⟩
  | .placeholder n => some ⟨s, stepsDone (buildPlaceholder crc32 l) n marked, .main⟩
  | .swapping n => (placeholderLog crc32).map (fun log =>
      ⟨{ s with log }, stepsDone (finishPendingCompaction l) n replaced, .placeholder⟩)
  | .reopening n => (placeholderLog crc32).map (fun log =>
      ⟨{ s with log }, stepsDone (openMainLog crc32) n swapped, .placeholder⟩)
  | .removing n =>
      match Log.openDefault crc32 swapped.main with
      | (.ok (log, _), main) =>
          some ⟨{ s with log }, stepsDone (removeDirAll l .placeholder) n { swapped with main },
            .main⟩
      | _ => none

def FailedStore.write (crc32 : Checksum) (f : FailedStore) (call : Call) : Option FailedStore :=
  match f.home with
  | .main =>
      match f.store.write crc32 .done f.dir call with
      | (.ok (), store, dir) => some { f with store, dir }
      | _ => none
  | .placeholder =>
      let files := f.dir.placeholder.getD SortedMap.empty
      match f.store.write crc32 .done { StoreDir.empty with main := files } call with
      | (.ok (), store, dir) =>
          some { f with store, dir := { f.dir with placeholder := some dir.main } }
      | _ => none

def AckedStep (crc32 : Checksum) : FailedStore → Call → FailedStore → Prop :=
  Computed (fun call => ∀ op ∈ call.ops, op.Fits) (FailedStore.write crc32)

/-- The step fails before the marker is written, or after the new log is open. -/
def CompactFault.OutsideSwap : CompactFault → Prop
  | .building _ | .removing _ => True
  | .placeholder _ | .swapping _ | .reopening _ => False

/-- The log is in the main directory and has every live value, and no swap is pending. -/
structure FailedStore.Settled (crc32 : Checksum) (f : FailedStore) : Prop where
  home : f.home = .main
  building : Building f.dir.main f.dir
  log : ∃ records, Holds crc32 f.dir.main (some f.store.log) records ∧ Live records f.store

section Settled
variable {crc32 : Checksum} {f f' : FailedStore} {call : Call}

theorem FailedStore.write_main (hhome : f.home = .main) (h : f.write crc32 call = some f') :
    f'.home = .main ∧ f.store.write crc32 .done f.dir call = (.ok (), f'.store, f'.dir) := by
  simp only [FailedStore.write, hhome] at h
  split at h
  · rename_i store dir hw
    cases h
    exact ⟨rfl, hw⟩
  · cases h

theorem FailedStore.Settled.write (h : f.Settled crc32) (hs : AckedStep crc32 f call f') :
    f'.Settled crc32 ∧ f'.store.get = KeyState.applyAll f.store.get call.ops := by
  obtain ⟨hhome, hcall⟩ := FailedStore.write_main h.home hs.2
  obtain ⟨records, hdisk, hlive⟩ := h.log
  have hw := (Store.write_append hcall).2
  refine ⟨⟨hhome, ?_, _, Store.write_disk hs.1 hcall hdisk, hlive.wrote hw⟩, hw.live⟩
  rw [hw.scratch]
  exact ⟨rfl, h.building.backup, h.building.marker⟩

theorem FailedStore.Settled.reopen (h : f.Settled crc32) (l : Listing) :
    ∃ store dir, Store.openStore crc32 l f.dir = (.ok store, dir) ∧ store.get = f.store.get := by
  obtain ⟨records, hdisk, hlive⟩ := h.log
  obtain ⟨hmain, -⟩ := (settleBuilding_triple (l := l) f.dir h.building).1
  obtain ⟨old, active, hr, rfl⟩ := hdisk.running
  obtain ⟨log, ho, -⟩ := hr.disk.opens
  rw [← hmain] at ho
  refine ⟨_, _, SwapSetting.openStore_settled rfl ho, ?_⟩
  funext key
  rw [← hlive key, Store.get_eq, Index.versions_replay]

end Settled

section Faults
variable {crc32 : Checksum} {l : Listing} {s : Store} {dir : StoreDir} {records : List Record}
  {held : List Nat} {f : FailedStore}

theorem settled_building (hinv : s.Inv crc32 records dir held) (hlive : Live records s) (n : Nat)
    (hfail : s.compactFailing crc32 l (.building n) dir = some f) :
    f.Settled crc32 ∧ f.store.get = s.get := by
  cases hfail
  have hbuild : Building dir.main dir := ⟨rfl, hinv.clean.2.1, hinv.clean.2.2.2⟩
  have hcut : Building dir.main (stepsDone (buildTmp crc32 l
      (compactedRecords s.index s.oldestHeldSnapshotSeq)) n dir) :=
    (buildTmp_triple dir hbuild).2 _ ⟨n, rfl⟩
  refine ⟨⟨rfl, ⟨rfl, hcut.backup, hcut.marker⟩, records, ?_, hlive⟩, rfl⟩
  show Holds crc32 (stepsDone (buildTmp crc32 l
    (compactedRecords s.index s.oldestHeldSnapshotSeq)) n dir).main (some s.log) records
  rw [hcut.main]
  exact hinv.disk

theorem settled_removing (hinv : s.Inv crc32 records dir held) (hl : l.Fair)
    (hlive : Live (compactedRecords s.index s.oldestHeldSnapshotSeq) s) (n : Nat)
    (hfail : s.compactFailing crc32 l (.removing n) dir = some f) :
    f.Settled crc32 ∧ f.store.get = s.get := by
  obtain ⟨hfit, hnext⟩ := compacted_fits s.oldestHeldSnapshotSeq hinv.fits
  simp only [Store.compactFailing] at hfail
  generalize compactedRecords s.index s.oldestHeldSnapshotSeq = new at hfail hlive hfit hnext
  have hbuild : Building dir.main dir := ⟨rfl, hinv.clean.2.1, hinv.clean.2.2.2⟩
  have hbuilt : Building dir.main (final FsAction.apply (buildTmp crc32 l new) dir) ∧
      (final FsAction.apply (buildTmp crc32 l new) dir).tmp =
        some (newMain (encodeAll crc32 new)) := (buildTmp_triple dir hbuild).1
  have hmarked : Committed dir.main (encodeAll crc32 new)
      (FsAction.apply .writeMarker (final FsAction.apply (buildTmp crc32 l new) dir)) :=
    ⟨hbuilt.1.main, hbuilt.2, hbuilt.1.backup, rfl⟩
  have hreplaced : Committed dir.main (encodeAll crc32 new) (final FsAction.apply
      (buildPlaceholder crc32 l) (FsAction.apply .writeMarker
        (final FsAction.apply (buildTmp crc32 l new) dir))) :=
    (buildPlaceholder_triple (committed_ignores _) _ hmarked).1
  have hswapped := (finishCommitted_triple hl _ hreplaced).1
  generalize final FsAction.apply (finishPendingCompaction l) _ = swapped at hfail hswapped
  obtain ⟨log, ho, hr⟩ := (onDisk_newMain crc32 hfit hnext).opens
  rw [mergedMain_none hswapped.main, ho] at hfail
  cases hfail
  have hsame : { swapped with main := newMain (encodeAll crc32 new) } = swapped := by
    rw [← mergedMain_none hswapped.main]
  rw [hsame]
  have hcut :=
    (removePlaceholder_triple (l := l) (finished_ignores _ _) swapped hswapped).2 _ ⟨n, rfl⟩
  have hmain := mergedMain_none hcut.main
  refine ⟨⟨rfl, ⟨rfl, hcut.backup, hcut.marker⟩, new, ?_, hlive⟩, rfl⟩
  show Holds crc32 (stepsDone (removeDirAll l .placeholder) n swapped).main (some log) new
  rw [stepsDone, hmain]
  exact .live hr

end Faults

/-- On a store opened on any directory, a compaction that fails outside the swap loses
nothing: what the store acknowledges afterwards and what it held before are there after the
next open. -/
theorem failed_compaction_keeps_writes {crc32 : Checksum} {l : Listing} {store : Store}
    {dir₀ dir : StoreDir} (hopen : Store.openStore crc32 l dir₀ = (.ok store, dir))
    (hbackup : dir.backup = none) {events : List StoreEvent} {w : StoreWorld}
    (hrun : Run (Under NoStaleVersionAbove (StoreStep crc32)) ⟨dir, store, []⟩ events w)
    {l' : Listing} (hl : l'.Fair) (hstale : NoStaleVersionAbove w (.compact l'))
    {fault : CompactFault} (hfault : fault.OutsideSwap) {f f' : FailedStore}
    (hfail : w.store.compactFailing crc32 l' fault w.dir = some f) {calls : List Call}
    (hcalls : Run (AckedStep crc32) f calls f') (l'' : Listing) :
    ∃ store' dir', Store.openStore crc32 l'' f'.dir = (.ok store', dir') ∧
      store'.get = KeyState.applyAll w.store.get (calls.flatMap Call.ops) := by
  obtain ⟨records₀, hinv₀, hindex⟩ := openStore_inv hopen hbackup
  obtain ⟨records, hinv, hrecords⟩ := live_run hinv₀ (live_of_replay hindex) hrun
  have hfirst : f.Settled crc32 ∧ f.store.get = w.store.get := by
    cases fault with
    | building n => exact settled_building hinv hrecords n hfail
    | removing n => exact settled_removing hinv hl (live_compacted hstale) n hfail
    | placeholder n => exact hfault.elim
    | swapping n => exact hfault.elim
    | reopening n => exact hfault.elim
  have hlast : f'.Settled crc32 ∧
      f'.store.get = KeyState.applyAll w.store.get (calls.flatMap Call.ops) := by
    refine hcalls.invariant_history (I := fun hist g => g.Settled crc32 ∧
      g.store.get = KeyState.applyAll w.store.get (hist.flatMap Call.ops)) hfirst ?_
    intro hist a call b ha hstep
    obtain ⟨hb, hget⟩ := ha.1.write hstep
    refine ⟨hb, ?_⟩
    rw [hget, ha.2, List.flatMap_append, List.flatMap_singleton, KeyState.applyAll_append]
  obtain ⟨store', dir', ho, hget⟩ := hlast.1.reopen l''
  exact ⟨store', dir', ho, hget.trans hlast.2⟩

/-- A put before the compaction and one after it failed to remove the placeholder. -/
theorem failed_compaction_keeps_writes_removing :
    ∃ w f f', Run (Under NoStaleVersionAbove (StoreStep crc32Ieee)) StoreWorld.start
        [.write (.put [1] [5])] w ∧
      w.store.compactFailing crc32Ieee .ascending (.removing 0) w.dir = some f ∧
      Run (AckedStep crc32Ieee) f [.put [2] [6]] f' ∧
      ∃ store' dir', Store.openStore crc32Ieee .ascending f'.dir = (.ok store', dir') ∧
        store'.get = KeyState.applyAll w.store.get [.put [2] [6]] := by
  obtain ⟨w, hw⟩ : ∃ w, StoreWorld.exec crc32Ieee StoreWorld.start (.write (.put [1] [5])) =
      some w := Option.isSome_iff_exists.mp (by decide +kernel)
  have hput : StoreStep crc32Ieee StoreWorld.start (.write (.put [1] [5])) w :=
    ⟨by simp [StoreEvent.Allowed, Call.ops, LogOp.Fits], hw⟩
  have hrun : Run (Under NoStaleVersionAbove (StoreStep crc32Ieee)) StoreWorld.start
      [.write (.put [1] [5])] w := Run.nil.snoc ⟨trivial, hput⟩
  have hsome : ((StoreWorld.exec crc32Ieee StoreWorld.start (.write (.put [1] [5]))).bind
      (fun w => (w.store.compactFailing crc32Ieee .ascending (.removing 0) w.dir).bind
        (fun f => f.write crc32Ieee (.put [2] [6])))).isSome = true := by
    decide +kernel
  rw [hw, Option.bind_some] at hsome
  obtain ⟨f', hf'⟩ := Option.isSome_iff_exists.mp hsome
  obtain ⟨f, hf, hwrite⟩ := Option.bind_eq_some_iff.mp hf'
  have hstep : AckedStep crc32Ieee f (.put [2] [6]) f' :=
    ⟨by simp [Call.ops, LogOp.Fits], hwrite⟩
  have hcalls : Run (AckedStep crc32Ieee) f [.put [2] [6]] f' := Run.nil.snoc hstep
  have hnone : w.store.oldestHeldSnapshotSeq = none := by
    have hheld := (Store.write_append (StoreWorld.exec_write hw).1).2.held
    rw [Store.oldestHeldSnapshotSeq, hheld]
    rfl
  have hstale : NoStaleVersionAbove w (.compact .ascending) := by
    intro threshold ht
    rw [hnone] at ht
    cases ht
  have houtside : CompactFault.OutsideSwap (.removing 0) := trivial
  exact ⟨w, f, f', hrun, hf, hcalls, failed_compaction_keeps_writes
    (openStore_empty crc32Ieee .ascending) rfl hrun Listing.ascending_fair hstale houtside hf
    hcalls .ascending⟩

/-- The step after the marker fails: the store goes on with its old segments, and the next
open replaces them. -/
theorem failed_compaction_loses_write :
    ∃ w f f', Run (StoreStep crc32Ieee) StoreWorld.start [.write (.put [1] [5])] w ∧
      w.store.compactFailing crc32Ieee .ascending (.placeholder 0) w.dir = some f ∧
      Run (AckedStep crc32Ieee) f [.put [2] [6]] f' ∧ f'.store.get [2] = some [6] ∧
      ∃ s, Store.reopened crc32Ieee f'.dir = some s ∧ s.get [2] = none := by
  have hcheck : ((StoreWorld.exec crc32Ieee StoreWorld.start (.write (.put [1] [5]))).any
      (fun w => (w.store.compactFailing crc32Ieee .ascending (.placeholder 0) w.dir).any
        (fun f => (f.write crc32Ieee (.put [2] [6])).any (fun f' =>
          decide (f'.store.get [2] = some [6]) && (Store.reopened crc32Ieee f'.dir).any
            (fun s => decide (s.get [2] = none)))))) = true := by
    decide +kernel
  simp only [Option.any_eq_true, Bool.and_eq_true, decide_eq_true_eq] at hcheck
  obtain ⟨w, hw, f, hf, f', hf', hget, hlost⟩ := hcheck
  have hput : StoreStep crc32Ieee StoreWorld.start (.write (.put [1] [5])) w :=
    ⟨by simp [StoreEvent.Allowed, Call.ops, LogOp.Fits], hw⟩
  have hstep : AckedStep crc32Ieee f (.put [2] [6]) f' := ⟨by simp [Call.ops, LogOp.Fits], hf'⟩
  exact ⟨w, f, f', Run.nil.snoc hput, hf, Run.nil.snoc hstep, hget, hlost⟩

end Sietch
