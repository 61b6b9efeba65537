import Sietch.LogOpen
import Sietch.StoreRuns

/-! Stores opened on any directory. Opening settles a pending compaction, and what it returns
is in step with the directory it leaves. The one leftover that stays is a backup without a
marker, which no compaction and no crash of one leaves behind. -/
namespace Sietch
open ByteString Script Transition

section Settling
variable {l : Listing} {dir : StoreDir}

/-- What settling a pending compaction removes: the marker, the temporary log and the
placeholder. A backup without a marker stays. -/
structure StoreDir.Settled (d : StoreDir) : Prop where
  tmp : d.tmp = none
  placeholder : d.placeholder = none
  marker : d.marker = false

theorem StoreDir.setScratch_setScratch (d : StoreDir) (files files' : Option SegmentDir)
    (s : ScratchDir) : (d.setScratch files s).setScratch files' s = d.setScratch files' s := by
  cases s <;> rfl

theorem removeFiles_setScratch (d : StoreDir) (s : ScratchDir) (ids : List Nat) :
    (exec FsAction.apply (ids.map (FsAction.removeFile s)) d).setScratch none s =
      d.setScratch none s := by
  induction ids generalizing d with
  | nil => rfl
  | cons id ids ih => exact (ih _).trans (d.setScratch_setScratch _ none s)

/-- However the files are listed, the directory is gone and nothing else has changed. -/
theorem final_removeDirIfExists (l : Listing) (s : ScratchDir) (d : StoreDir) :
    final FsAction.apply (removeDirIfExists l s) d = d.setScratch none s := by
  rw [removeDirIfExists, final_cond]
  split
  · rw [removeDirAll, final_seq]
    exact removeFiles_setScratch d s _
  · rename_i habsent
    have hnone : d.scratch s = none := by simpa [StoreDir.has] using habsent
    obtain ⟨main, tmp, backup, placeholder, marker⟩ := d
    cases s <;> cases hnone <;> rfl

theorem final_removeMarkerIfExists (d : StoreDir) :
    final FsAction.apply removeMarkerIfExists d = { d with marker := false } := by
  obtain ⟨main, tmp, backup, placeholder, marker⟩ := d
  cases marker <;> rfl

theorem finishPendingCompaction_clears (l : Listing) (d : StoreDir) :
    (final FsAction.apply (finishPendingCompaction l) d).tmp = none ∧
      (final FsAction.apply (finishPendingCompaction l) d).marker = false := by
  rw [finishPendingCompaction, final_cond]
  split
  · rename_i habsent
    simp only [StoreDir.has, StoreDir.scratch, Bool.and_eq_true, Bool.not_eq_true',
      Option.isSome_eq_false_iff, Option.isNone_iff_eq_none] at habsent
    rw [final_removeMarkerIfExists]
    exact ⟨habsent.1, rfl⟩
  · rw [final_seq, final_seq, cleanUpCompaction, final_seq, final_seq, final_removeDirIfExists,
      final_removeDirIfExists, final_removeMarkerIfExists]
    exact ⟨rfl, rfl⟩

theorem settle_settled (l : Listing) (d : StoreDir) :
    (final FsAction.apply (finishOrDiscardPendingCompaction l) d).Settled := by
  rw [finishOrDiscardPendingCompaction, final_seq, final_removeDirIfExists, final_cond]
  split
  · obtain ⟨htmp, hmarker⟩ := finishPendingCompaction_clears l d
    exact ⟨htmp, rfl, hmarker⟩
  · rename_i hmarker
    rw [final_removeDirIfExists]
    exact ⟨rfl, rfl, Bool.eq_false_iff.mpr hmarker⟩

theorem StoreDir.Settled.settle (h : dir.Settled) (l : Listing) :
    final FsAction.apply (finishOrDiscardPendingCompaction l) dir = dir := by
  obtain ⟨main, tmp, backup, placeholder, marker⟩ := dir
  obtain ⟨htmp, hplaceholder, hmarker⟩ := h
  cases htmp
  cases hplaceholder
  cases hmarker
  rfl

end Settling

section Reopening
variable {crc32 : Checksum} {l : Listing} {dir dir' : StoreDir} {store : Store}

/-- What every successful open leaves, whatever the directory held before. -/
theorem openStore_opened (h : Store.openStore crc32 l dir = (.ok store, dir')) :
    ∃ records, Holds crc32 dir'.main (some store.log) records ∧
      store.index = Index.replay records ∧ store.heldSnapshots = SortedMap.empty ∧
      dir'.Settled := by
  simp only [Store.openStore] at h
  split at h
  · rename_i log report main hopen
    obtain ⟨rfl, rfl⟩ : _ ∧ _ := by simpa only [Prod.mk.injEq, Outcome.ok.injEq] using h
    have hsettled := settle_settled l dir
    exact ⟨report.records, opened_holds hopen, rfl, rfl,
      hsettled.tmp, hsettled.placeholder, hsettled.marker⟩
  · cases h
  · cases h

theorem openStore_settled {log : Option Log} {records : List Record} (hsettled : dir.Settled)
    (hholds : Holds crc32 dir.main log records) (l : Listing) :
    ∃ store dir', Store.openStore crc32 l dir = (.ok store, dir') ∧
      store.index = Index.replay records := by
  obtain ⟨log', torn, main, hopen, -⟩ := hholds.opens defaultSegmentMaxBytes
  have hdefault : Log.openDefault crc32 dir.main = (.ok (log', ⟨records, torn⟩), main) := hopen
  unfold Store.openStore
  rw [hsettled.settle l]
  dsimp only
  rw [hdefault]
  exact ⟨_, _, rfl, rfl⟩

/-- The store that an open returns is in step with the directory, if no backup is left in it. -/
theorem openStore_inv (h : Store.openStore crc32 l dir = (.ok store, dir'))
    (hbackup : dir'.backup = none) :
    ∃ records, StoreWorld.Inv crc32 records ⟨dir', store, []⟩ ∧
      store.index = Index.replay records := by
  obtain ⟨records, hholds, hindex, hheld, hsettled⟩ := openStore_opened h
  have hclean : dir'.Clean :=
    ⟨hsettled.tmp, hbackup, hsettled.placeholder, hsettled.marker⟩
  exact ⟨records, Store.Inv.of_replay hclean hholds hindex hheld, hindex⟩

theorem live_of_replay {records : List Record} (hindex : store.index = Index.replay records) :
    Live records store := by
  intro key
  rw [Store.get_eq, hindex, Index.versions_replay]

end Reopening

def Store.Ordered (s : Store) : Prop :=
  ∀ key, (s.index.versions key).Pairwise SeqLe

section Orders
variable {crc32 : Checksum} {w w' : StoreWorld} {records : List Record}

theorem StoreStep.ordered {e : StoreEvent} (hinv : w.Inv crc32 records)
    (h : ∀ key, (Index.added records key).Pairwise SeqLe) (hs : StoreStep crc32 w e w') (key : Bytes) :
    (Index.added (e.recordsAfter w records) key).Pairwise SeqLe := by
  cases e with
  | write call =>
      have hnumbered := Log.numberRecords_pairwise w.store.log.nextSeq call.ops
      unfold StoreEvent.recordsAfter
      rw [Index.added_append, List.pairwise_append]
      refine ⟨h key, (Index.added_pairwise hnumbered key).imp Nat.le_of_lt, ?_⟩
      intro old hold new hnew
      obtain ⟨r, hr, -, rfl⟩ := Index.mem_added.mp hold
      have hbelow := seq_lt_nextSeqOf hr
      rw [← hinv.disk.nextSeq] at hbelow
      have habove := (Index.added_seq hnew).1
      rw [SeqLe, Record.version_seq]
      exact hbelow.le.trans habove
  | compact l =>
      unfold StoreEvent.recordsAfter
      rw [added_compacted]
      exact List.pairwise_insertionSort SeqLe _
  | holdSnapshot => exact h key
  | dropGuard i => exact h key

end Orders

/-- What a store leaves can be opened, without a backup and with the versions in order, if it
was so when the store was opened. -/
theorem reopened_ordered {crc32 : Checksum} {l : Listing} {dir₀ dir : StoreDir} {store : Store}
    (hopen : Store.openStore crc32 l dir₀ = (.ok store, dir)) (hbackup : dir.backup = none)
    (hordered : store.Ordered) {events : List StoreEvent} {w : StoreWorld}
    (hrun : Run (StoreStep crc32) ⟨dir, store, []⟩ events w) (l' : Listing) :
    ∃ store' dir', Store.openStore crc32 l' w.dir = (.ok store', dir') ∧ dir'.backup = none ∧
      store'.Ordered := by
  obtain ⟨records₀, hinv₀, hindex⟩ := openStore_inv hopen hbackup
  have hstart : ∀ key, (Index.added records₀ key).Pairwise SeqLe := by
    intro key
    have hkey := hordered key
    rwa [hindex, Index.versions_replay] at hkey
  obtain ⟨records, hinv, hkept⟩ : ∃ records, w.Inv crc32 records ∧
      ∀ key, (Index.added records key).Pairwise SeqLe := by
    refine hrun.invariant (I := fun w => ∃ records, w.Inv crc32 records ∧
      ∀ key, (Index.added records key).Pairwise SeqLe) ⟨records₀, hinv₀, hstart⟩ ?_
    rintro a e b ⟨records, hinv, hkept⟩ hs
    exact ⟨_, hs.inv hinv, hs.ordered hinv hkept⟩
  obtain ⟨log', hreopen⟩ := openStore_clean hinv.clean hinv.disk l'
  refine ⟨_, _, hreopen, hinv.clean.2.1, ?_⟩
  intro key
  rw [Index.versions_replay]
  exact hkept key

end Sietch
