import Sietch.CompactionConverges
import Sietch.TxnCompaction

/-! The snapshots that transactions hold. However a transaction ends, its snapshot is released:
the registry counts the open transactions and nothing else, so that with none open a compaction
keeps the live values only. -/
namespace Sietch
open ByteString Transition

/-- A call with its answer, a commit under whatever the disk does, or a compaction. -/
inductive GuardEvent where
  | call (e : TxnCall × TxnReply)
  | commitUnder (id : Nat) (io : Io)
  | compact (l : Listing)

/-- A commit ends its transaction whatever it returns, also by a panic. A compaction may fail. -/
inductive GuardStep (crc32 : Checksum) : TxnWorld → GuardEvent → TxnWorld → Prop where
  | call {w e w'} : w.CallStep crc32 e w' → GuardStep crc32 w (.call e) w'
  | commitUnder {w id io t out s dir} : w.txns.get? id = some t →
      t.commit crc32 io w.dir w.store = (out, s, dir) →
      GuardStep crc32 w (.commitUnder id io) ⟨dir, s, w.txns.erase id⟩
  | compact {w l out s dir} : w.store.compact crc32 l w.dir = (out, s, dir) →
      GuardStep crc32 w (.compact l) ⟨dir, s, w.txns⟩

theorem Registry.oldest_min {s : Store} {seqs : List Nat} (h : Registry s.heldSnapshots seqs) :
    s.oldestHeldSnapshotSeq = seqs.min? := by
  cases hold : s.oldestHeldSnapshotSeq with
  | none =>
      rw [h.unheld.mp hold]
      rfl
  | some t => exact (List.min?_eq_some_iff.mpr (h.oldest hold)).symm

theorem Store.applyBatch_held (crc32 : Checksum) (io : Io) (dir : StoreDir) (s : Store)
    (ops : List LogOp) : (s.applyBatch crc32 io dir ops).2.1.heldSnapshots = s.heldSnapshots := by
  unfold Store.applyBatch
  dsimp only
  split
  · rfl
  · rfl
  · rfl

/-- Every way out of `commit` drops the guard. -/
theorem Transaction.commit_drops {crc32 : Checksum} {io : Io} {dir dir' : StoreDir}
    {s s' : Store} {t : Transaction} {out : Outcome TxnError Unit}
    (h : t.commit crc32 io dir s = (out, s', dir')) :
    ∃ s₁ : Store, s₁.heldSnapshots = s.heldSnapshots ∧ s' = s₁.dropGuard t.snapshot := by
  have hbatch := Store.applyBatch_held crc32 io dir s t.ops
  unfold commit at h
  split at h
  · cases h
    exact ⟨s, rfl, rfl⟩
  · split at h
    · cases h
      exact ⟨s, rfl, rfl⟩
    · split at h
      · rename_i happly
        rw [happly] at hbatch
        cases h
        exact ⟨_, hbatch, rfl⟩
      · rename_i happly
        rw [happly] at hbatch
        cases h
        exact ⟨_, hbatch, rfl⟩
      · rename_i happly
        rw [happly] at hbatch
        cases h
        exact ⟨_, hbatch, rfl⟩

def TxnWorld.Registered (w : TxnWorld) : Prop :=
  Registry w.store.heldSnapshots (heldBy w.txns)

namespace TxnWorld.Registered
variable {crc32 : Checksum} {w w' : TxnWorld} {dir : StoreDir}

theorem ended (h : w.Registered) {id : Nat} {t : Transaction} {s : Store}
    (ht : w.txns.get? id = some t) (hheld : s.heldSnapshots = w.store.heldSnapshots) :
    TxnWorld.Registered ⟨dir, s.dropGuard t.snapshot, w.txns.erase id⟩ := by
  have hreg : Registry s.heldSnapshots (heldBy w.txns) := by
    rw [hheld]
    exact h
  exact hreg.drop (heldBy_erase ht)

theorem call {e : TxnCall × TxnReply} (h : w.Registered) (hs : w.CallStep crc32 e w') :
    w'.Registered := by
  cases hs.effect with
  | began hnone =>
      exact (Registry.hold h _).perm
        (heldBy_begin hnone ⟨w.store.snapshot, SortedMap.empty⟩)
  | read => exact h
  | buffered key value ht => exact Registry.perm h (heldBy_buffer ht _ rfl)
  | committed ht hc =>
      obtain ⟨s₁, hheld, rfl⟩ := Transaction.commit_drops hc
      exact h.ended ht hheld
  | refused ht => exact h.ended ht rfl
  | aborted ht => exact h.ended ht rfl

theorem step {e : GuardEvent} (h : w.Registered) (hs : GuardStep crc32 w e w') :
    w'.Registered := by
  cases hs with
  | call hcall => exact h.call hcall
  | commitUnder ht hcommit =>
      obtain ⟨s₁, hheld, rfl⟩ := Transaction.commit_drops hcommit
      exact h.ended ht hheld
  | compact hcompact =>
      unfold TxnWorld.Registered
      rw [compact_store hcompact]
      exact h

end TxnWorld.Registered

/-- In every interleaving of transactions, whichever of them commit, conflict, fail or abort, the
registry counts the snapshots of the open ones, the oldest held snapshot is the least of them,
and with none open the records that a compaction writes take the space of the live entries. -/
theorem transactions_release_snapshots {crc32 : Checksum} {l : Listing} {dir₀ dir : StoreDir}
    {store : Store} (hopen : Store.openStore crc32 l dir₀ = (.ok store, dir))
    {events : List GuardEvent} {w : TxnWorld}
    (hrun : Run (GuardStep crc32) ⟨dir, store, SortedMap.empty⟩ events w) :
    Registry w.store.heldSnapshots (heldBy w.txns) ∧
      w.store.oldestHeldSnapshotSeq = (heldBy w.txns).min? ∧
      (w.txns.entries = [] →
        Log.totalLen (compactedRecords w.store.index w.store.oldestHeldSnapshotSeq) =
          liveBytes (w.store.scan [])) := by
  have hreg : w.Registered := by
    apply hrun.invariant
    · unfold TxnWorld.Registered
      rw [Store.openStore_held hopen]
      exact fun _ => rfl
    · intro a e b ha hstep
      exact ha.step hstep
  have holdest := Registry.oldest_min hreg
  refine ⟨hreg, holdest, ?_⟩
  intro hnone
  have hempty : w.store.oldestHeldSnapshotSeq = none := by
    rw [holdest, heldBy, hnone]
    rfl
  rw [hempty, Log.totalLen_eq crc32, length_compacted]

/-- The first transaction's append fails after three bytes, the second aborts. -/
def failedThenAborted : List GuardEvent :=
  [.call (.begin 0, .done), .call (.put 0 [1] [5], .done), .call (.begin 1, .done),
    .commitUnder 0 (.writeFails 3), .call (.abort 1, .done)]

set_option maxRecDepth 100000 in
theorem failedThenAborted_run :
    ∃ w, Run (GuardStep crc32Ieee) TxnWorld.start failedThenAborted w ∧ w.txns.entries = [] := by
  have hbegun : Run (GuardStep crc32Ieee) TxnWorld.start (failedThenAborted.take 1) _ :=
    .snoc .nil (.call rfl)
  have hput : Run (GuardStep crc32Ieee) TxnWorld.start (failedThenAborted.take 2) _ :=
    .snoc hbegun (.call rfl)
  have htwo : Run (GuardStep crc32Ieee) TxnWorld.start (failedThenAborted.take 3) _ :=
    .snoc hput (.call rfl)
  have hfailed : Run (GuardStep crc32Ieee) TxnWorld.start (failedThenAborted.take 4) _ :=
    .snoc htwo (.commitUnder rfl rfl)
  have hrun : Run (GuardStep crc32Ieee) TxnWorld.start failedThenAborted _ :=
    .snoc hfailed (.call rfl)
  exact ⟨_, hrun, rfl⟩

theorem transactions_release_snapshots_failed :
    ∃ w, Run (GuardStep crc32Ieee) TxnWorld.start failedThenAborted w ∧
      w.store.oldestHeldSnapshotSeq = none ∧
      Log.totalLen (compactedRecords w.store.index w.store.oldestHeldSnapshotSeq) =
        liveBytes (w.store.scan []) := by
  obtain ⟨w, hrun, hnone⟩ := failedThenAborted_run
  obtain ⟨-, holdest, hlive⟩ := transactions_release_snapshots
    (openStore_empty crc32Ieee .ascending) hrun
  rw [heldBy, hnone] at holdest
  exact ⟨w, hrun, holdest, hlive hnone⟩

end Sietch
