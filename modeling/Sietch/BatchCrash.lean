import Sietch.Spec
import Sietch.StoreOpen

/-! A crash inside a batch. Recovery keeps the whole records before the cut, so the
store reopens with the first operations of the batch applied. -/
namespace Sietch
open ByteString Script Transition

theorem numberRecords_take (seq m : Nat) (ops : List LogOp) :
    (Log.numberRecords seq ops).take m = Log.numberRecords seq (ops.take m) := by
  induction ops generalizing seq m with
  | nil => simp [Log.numberRecords]
  | cons op ops ih =>
      cases m with
      | zero => rfl
      | succ m => simp [Log.numberRecords, ih]

theorem openStore_onDisk {crc32 : Checksum} {dir : StoreDir} {old : List (Nat × List Record)}
    {id : Nat} {active : List Record} {tail : Bytes} (hclean : dir.Clean)
    (hd : OnDisk crc32 dir.main old id active tail) (l : Listing) :
    ∃ s dir', Store.openStore crc32 l dir = (.ok s, dir') ∧
      s.index = Index.replay (old.flatMap Prod.snd ++ active) := by
  obtain ⟨log, main, ho, -⟩ := openWithSegmentSize_onDisk hd defaultSegmentMaxBytes
  have hopen : Log.openDefault crc32 dir.main =
      (.ok (log, ⟨old.flatMap Prod.snd ++ active, decide (tail ≠ [])⟩), main) := ho
  refine ⟨⟨log, Index.replay (old.flatMap Prod.snd ++ active), decide (tail ≠ []),
    SortedMap.empty⟩, { dir with main }, ?_, rfl⟩
  simp only [Store.openStore, settle_clean hclean, hopen]

/-- The directory that a crash in the batch leaves: `written` bytes of its records. -/
def Store.crashInBatch (crc32 : Checksum) (dir : StoreDir) (s : Store) (ops : List LogOp)
    (written : Nat) : StoreDir :=
  (s.applyBatch crc32 (.writeFails written) dir ops).2.2

def Store.survivingOps (s : Store) (ops : List LogOp) (written : Nat) : Nat :=
  wholeRecords (Log.numberRecords s.log.nextSeq ops) written

/-- A reopen would show the live state: everything acknowledged is on disk. -/
def Intact (crc32 : Checksum) (dir : StoreDir) (s : Store) : Prop :=
  ∃ l s₀ dir₀, Store.openStore crc32 l dir = (.ok s₀, dir₀) ∧ s₀.get = s.get

theorem Intact.of_live {crc32 : Checksum} {w : StoreWorld} {records : List Record}
    (hinv : w.Inv crc32 records) (hlive : Live records w.store) : Intact crc32 w.dir w.store := by
  obtain ⟨log, hopen⟩ := openStore_clean hinv.clean hinv.disk .ascending
  refine ⟨.ascending, _, _, hopen, ?_⟩
  funext key
  rw [← hlive key, ← live_of_replay rfl key]

theorem reopen_after_batch_crash {crc32 : Checksum} {w : StoreWorld} {records : List Record}
    (hinv : w.Inv crc32 records) (hintact : Intact crc32 w.dir w.store) {ops : List LogOp}
    (hfit : ∀ op ∈ ops, op.Fits) (hbound : w.store.log.nextSeq + ops.length < 2 ^ 64)
    (written : Nat) (l : Listing) :
    ∃ s dir', Store.openStore crc32 l (w.store.crashInBatch crc32 w.dir ops written) =
        (.ok s, dir') ∧
      s.get = KeyState.applyAll w.store.get (ops.take (w.store.survivingOps ops written)) := by
  obtain ⟨old, active, hr, rfl⟩ := hinv.disk.running
  obtain ⟨old', id', active', tail, hd, hrec⟩ :=
    hr.appendBatch_disk (.writeFails written) hfit hbound
  have hdir : w.store.crashInBatch crc32 w.dir ops written = { w.dir with
      main := (w.store.log.appendBatch crc32 (.writeFails written) w.dir.main ops).2.2 } := by
    simp only [Store.crashInBatch, Store.applyBatch]
    split
    · rename_i he
      rw [he]
    · rename_i he
      rw [he]
    · rename_i he
      rw [he]
  have hclean : (w.store.crashInBatch crc32 w.dir ops written).Clean := by
    rw [hdir]
    exact hinv.clean
  have hd' : OnDisk crc32 (w.store.crashInBatch crc32 w.dir ops written).main old' id' active'
      tail := by
    rw [hdir]
    exact hd
  obtain ⟨s, dir', ho, hindex⟩ := openStore_onDisk hclean hd' l
  refine ⟨s, dir', ho, ?_⟩
  obtain ⟨l₀, s₀, dir₀, ho₀, hget₀⟩ := hintact
  obtain ⟨log₀, ho₀'⟩ := openStore_clean hinv.clean hinv.disk l₀
  rw [ho₀'] at ho₀
  simp only [Prod.mk.injEq, Outcome.ok.injEq] at ho₀
  rw [← ho₀.1, Store.get_live] at hget₀
  rw [Store.get_live, hindex, hrec, Index.replay_append, numberRecords_take, Index.live_pushAll]
  exact congrArg (fun state => KeyState.applyAll state _) hget₀

/-- A cut behind `n` operations that cannot be seen: the last write of each key among
the operations before it repeats the key's value, or the same holds of the operations
behind it and the values that the first ones leave. -/
def HiddenCut (state : KeyState) (ops : List LogOp) (n : Nat) : Prop :=
  state.Repeats (ops.take n) ∨ (state.applyAll (ops.take n)).Repeats (ops.drop n)

/-- On a store opened on any directory, and whatever it did since, a batch is all-or-nothing
across a crash exactly when the cut is hidden, provided that a reopen before the batch would
have shown the live state. -/
theorem batch_all_or_nothing_iff {crc32 : Checksum} {l₀ : Listing} {store : Store}
    {dir₀ dir : StoreDir} (hopen : Store.openStore crc32 l₀ dir₀ = (.ok store, dir))
    (hbackup : dir.backup = none) {events : List StoreEvent} {w : StoreWorld}
    (hrun : Run (StoreStep crc32) ⟨dir, store, []⟩ events w)
    (hintact : Intact crc32 w.dir w.store) {ops : List LogOp} (hfit : ∀ op ∈ ops, op.Fits)
    {after : Store} {dir' : StoreDir}
    (hbatch : w.store.applyBatch crc32 .done w.dir ops = (.ok (), after, dir'))
    (written : Nat) (l : Listing) :
    ∃ s dir'', Store.openStore crc32 l (w.store.crashInBatch crc32 w.dir ops written) =
        (.ok s, dir'') ∧
      ((s.get = w.store.get ∨ s.get = after.get) ↔
        HiddenCut w.store.get ops (w.store.survivingOps ops written)) := by
  obtain ⟨records₀, hinv₀, -⟩ := openStore_inv hopen hbackup
  obtain ⟨records, hinv⟩ := storeRun_inv hinv₀ hrun
  have hw := (Store.write_append (show w.store.write crc32 .done w.dir (.batch ops) = _
    from hbatch)).2
  obtain ⟨s, dir'', ho, hget⟩ := reopen_after_batch_crash hinv hintact hfit hw.bound written l
  refine ⟨s, dir'', ho, ?_⟩
  have hsplit : KeyState.applyAll w.store.get ops = (KeyState.applyAll w.store.get
      (ops.take (w.store.survivingOps ops written))).applyAll
      (ops.drop (w.store.survivingOps ops written)) := by
    rw [← KeyState.applyAll_append, List.take_append_drop]
  have hafter : after.get = KeyState.applyAll w.store.get ops := hw.live
  rw [HiddenCut, ← KeyState.applyAll_eq_self_iff, ← KeyState.applyAll_eq_self_iff, hget, hafter,
    hsplit]
  exact or_congr_right eq_comm

/-- A crash after the first record of a batch of two on a fresh store: neither the
state before the batch nor the one after it. -/
theorem batch_crash_applies_half :
    StoreWorld.start.store.get [1] = none ∧
      (StoreWorld.start.store.applyBatch crc32Ieee .done StoreWorld.start.dir
        [.put [1] [5], .put [2] [6]]).1 = .ok () ∧
      (StoreWorld.start.store.applyBatch crc32Ieee .done StoreWorld.start.dir
        [.put [1] [5], .put [2] [6]]).2.1.get [2] = some [6] ∧
      ∃ s, Store.reopened crc32Ieee (StoreWorld.start.store.crashInBatch crc32Ieee
          StoreWorld.start.dir [.put [1] [5], .put [2] [6]] 23) = some s ∧
        s.get [1] = some [5] ∧ s.get [2] = none := by
  have hcheck : (Store.reopened crc32Ieee (StoreWorld.start.store.crashInBatch crc32Ieee
      StoreWorld.start.dir [.put [1] [5], .put [2] [6]] 23)).any (fun s =>
        decide (s.get [1] = some [5]) && decide (s.get [2] = none)) = true := by
    decide +kernel
  obtain ⟨s, hs, hget⟩ := (Option.any_eq_true ..).mp hcheck
  simp only [Bool.and_eq_true, decide_eq_true_eq] at hget
  exact ⟨by decide, by decide +kernel, by decide +kernel, s, hs, hget⟩

/-- After a put of the same value the cut behind the first record of that batch is hidden. -/
theorem batch_crash_after_repeated_put :
    ∃ w after dir', Run (StoreStep crc32Ieee) StoreWorld.start [.write (.put [1] [5])] w ∧
      w.store.applyBatch crc32Ieee .done w.dir [.put [1] [5], .put [2] [6]] =
        (.ok (), after, dir') ∧
      w.store.survivingOps [.put [1] [5], .put [2] [6]] 23 = 1 ∧
      ∃ s dir'', Store.openStore crc32Ieee .ascending (w.store.crashInBatch crc32Ieee w.dir
          [.put [1] [5], .put [2] [6]] 23) = (.ok s, dir'') ∧
        (s.get = w.store.get ∨ s.get = after.get) := by
  obtain ⟨w, hexec⟩ : ∃ w, StoreWorld.exec crc32Ieee StoreWorld.start (.write (.put [1] [5])) =
      some w := Option.isSome_iff_exists.mp (by decide +kernel)
  have hput : StoreStep crc32Ieee StoreWorld.start (.write (.put [1] [5])) w :=
    ⟨by simp [StoreEvent.Allowed, Call.ops, LogOp.Fits], hexec⟩
  have hinv := hput.inv (StoreWorld.start_inv crc32Ieee)
  have hwrote := (Store.write_append (StoreWorld.exec_write hexec).1).2
  have hempty : Live [] StoreWorld.start.store := fun _ => rfl
  have hfit : ∀ op ∈ [LogOp.put [1] [5], LogOp.put [2] [6]], op.Fits := by simp [LogOp.Fits]
  have hroom : w.store.log.nextSeq + 2 < 2 ^ 64 := by
    rw [hwrote.nextSeq]
    decide
  obtain ⟨w', hbatch⟩ : ∃ w', StoreStep crc32Ieee w
      (.write (.batch [.put [1] [5], .put [2] [6]])) w' := hinv.writes hfit hroom
  have hone : w.store.survivingOps [.put [1] [5], .put [2] [6]] 23 = 1 := rfl
  have happly := (StoreWorld.exec_write hbatch.2).1
  obtain ⟨s, dir'', hreopen, hiff⟩ := batch_all_or_nothing_iff
    (openStore_empty crc32Ieee .ascending) rfl (Run.nil.snoc hput)
    (.of_live hinv (hempty.wrote hwrote)) hfit happly 23 .ascending
  refine ⟨w, w'.store, w'.dir, Run.nil.snoc hput, happly, hone, s, dir'', hreopen, hiff.mpr ?_⟩
  rw [hone]
  left
  rw [← KeyState.applyAll_eq_self_iff, hwrote.live]
  exact Function.update_idem ..

end Sietch
