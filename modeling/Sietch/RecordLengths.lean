import Sietch.GroupCommit
import Sietch.StoreOpen

/-! Writes of any length. The header of a record states lengths below 2^32, and a longer key
or value is written under a header that states less. No record that recovery returns is
longer, so exactly the writes within the bound are found by a later open. -/
namespace Sietch
open ByteString Script Transition

section Reopening
variable {crc32 : Checksum} {l : Listing} {dir dir' : StoreDir} {store : Store}

theorem fits_of_reopened (h : Store.openStore crc32 l dir = (.ok store, dir')) {seq : Nat}
    {op : LogOp} (hmem : (op.record seq).version ∈ store.index.versions op.key) : op.Fits := by
  obtain ⟨records, hholds, hindex, -⟩ := openStore_opened h
  obtain ⟨old, active, hrunning, rfl⟩ := hholds.running
  rw [hindex, Index.versions_replay] at hmem
  obtain ⟨r, hr, hkey, hversion⟩ := Index.mem_added.mp hmem
  have hfits := fits_version (hrunning.disk.fits r hr)
  rw [hkey, hversion] at hfits
  cases op with
  | put key value => exact ⟨hfits.key, hfits.value⟩
  | delete key => exact hfits.key

end Reopening

section Writes
variable {crc32 : Checksum} {a b : StoreDir × Store} {calls : List Call}

theorem writes_settled (h : Run (Acknowledged crc32) a calls b) (hsettled : a.1.Settled) :
    b.1.Settled := by
  induction h with
  | nil => exact hsettled
  | snoc _ hcall ih =>
      rw [(Store.write_append hcall).2.scratch]
      exact ⟨ih.tmp, ih.placeholder, ih.marker⟩

theorem exists_record_of_op {ops : List LogOp} {op : LogOp} (hop : op ∈ ops) (seq : Nat) :
    ∃ n, op.record n ∈ Log.numberRecords seq ops := by
  induction ops generalizing seq with
  | nil => cases hop
  | cons first ops ih =>
      rcases List.mem_cons.mp hop with rfl | hop
      · exact ⟨seq, List.mem_cons_self⟩
      · obtain ⟨n, hn⟩ := ih hop (seq + 1)
        exact ⟨n, List.mem_cons_of_mem _ hn⟩

end Writes

section Oversized
variable {crc32 : Checksum}

/-- The length of what is written is no reason to refuse it. -/
theorem acknowledged_of_room (crc32 : Checksum) (dir : StoreDir) {store : Store} {call : Call}
    (hn : store.log.nextSeq + call.ops.length < 2 ^ 64) :
    ∃ b, Acknowledged crc32 (dir, store) call b := by
  obtain ⟨log, main, happend⟩ := Log.appendBatch_room hn crc32 dir.main
  simp only [Acknowledged, Store.write_eq, Store.applyBatch, happend]
  exact ⟨(_, _), rfl⟩

theorem start_put_lost {key value : Bytes} (hlong : 2 ^ 32 ≤ value.length) :
    ∃ b, Run (Acknowledged crc32) (StoreWorld.start.dir, StoreWorld.start.store)
        [.put key value] b ∧
      ∀ l store' dir', Store.openStore crc32 l b.1 = (.ok store', dir') →
        (⟨0, some value⟩ : VersionEntry) ∉ store'.index.versions key := by
  have hcounter : StoreWorld.start.store.log.nextSeq + (Call.put key value).ops.length < 2 ^ 64 := by
    show 0 + 1 < 2 ^ 64
    decide
  obtain ⟨b, hput⟩ := acknowledged_of_room crc32 StoreWorld.start.dir hcounter
  refine ⟨b, Run.nil.snoc hput, ?_⟩
  intro l store' dir' hreopen hmem
  have hfits : (LogOp.put key value).Fits := fits_of_reopened hreopen hmem
  exact absurd hfits.2 (not_lt.mpr hlong)

end Oversized

/-- On a store that was opened on any directory, acknowledged writes are all found by a later
open exactly if every key and every value is shorter than 2^32 bytes. -/
theorem written_records_recovered_iff {crc32 : Checksum} {l l' : Listing} {dir₀ dir : StoreDir}
    {store : Store} (hopen : Store.openStore crc32 l dir₀ = (.ok store, dir)) {calls : List Call}
    {b : StoreDir × Store} (hrun : Run (Acknowledged crc32) (dir, store) calls b) :
    (∃ store' dir', Store.openStore crc32 l' b.1 = (.ok store', dir') ∧
      ∀ r ∈ Log.numberRecords store.log.nextSeq (calls.flatMap Call.ops),
        r.version ∈ store'.index.versions r.key) ↔
    ∀ op ∈ calls.flatMap Call.ops, op.Fits := by
  constructor
  · rintro ⟨store', dir', hreopen, hfound⟩ op hop
    obtain ⟨n, hn⟩ := exists_record_of_op hop store.log.nextSeq
    have hversion := hfound _ hn
    rw [Log.record_key] at hversion
    exact fits_of_reopened hreopen hversion
  · intro hfit
    obtain ⟨records, hholds, -, -, hsettled⟩ := openStore_opened hopen
    have hdisk := writes_disk hrun hholds hfit
    obtain ⟨store', dir', hreopen, hindex⟩ :=
      openStore_settled (writes_settled hrun hsettled) hdisk l'
    refine ⟨store', dir', hreopen, ?_⟩
    intro r hr
    rw [hindex, Index.versions_replay]
    exact Index.mem_added.mpr ⟨r, List.mem_append_right _ hr, rfl, rfl⟩

theorem written_records_recovered_iff_two : ∃ b store' dir',
    Run (Acknowledged crc32Ieee) (StoreWorld.start.dir, StoreWorld.start.store)
      [.put [1] [2], .delete [3]] b ∧
    Store.openStore crc32Ieee .ascending b.1 = (.ok store', dir') ∧
    ∀ r ∈ Log.numberRecords 0 [.put [1] [2], .delete [3]],
      r.version ∈ store'.index.versions r.key := by
  let w₁ := StoreWorld.start.store.write crc32Ieee .done StoreWorld.start.dir (.put [1] [2])
  let w₂ := w₁.2.1.write crc32Ieee .done w₁.2.2 (.delete [3])
  have hput : Acknowledged crc32Ieee (StoreWorld.start.dir, StoreWorld.start.store)
      (.put [1] [2]) (w₁.2.2, w₁.2.1) := by
    unfold Acknowledged
    decide +kernel
  have hdelete : Acknowledged crc32Ieee (w₁.2.2, w₁.2.1) (.delete [3]) (w₂.2.2, w₂.2.1) := by
    unfold Acknowledged
    decide +kernel
  have hrun := (Run.nil.snoc hput).snoc hdelete
  have hfit : ∀ op ∈ [Call.put [1] [2], Call.delete [3]].flatMap Call.ops, op.Fits := by
    simp [Call.ops, LogOp.Fits]
  obtain ⟨store', dir', hreopen, hfound⟩ := (written_records_recovered_iff
    (openStore_empty crc32Ieee .ascending) hrun).mpr hfit
  exact ⟨_, store', dir', hrun, hreopen, hfound⟩

/-- A put of 2^32 zero bytes on a new store is acknowledged, and no later open returns it. -/
theorem oversized_put_not_recovered :
    Store.openStore crc32Ieee .ascending StoreDir.empty =
        (.ok StoreWorld.start.store, StoreWorld.start.dir) ∧
      ∃ b, Run (Acknowledged crc32Ieee) (StoreWorld.start.dir, StoreWorld.start.store)
          [.put [1] (List.replicate (2 ^ 32) 0)] b ∧
        ∀ l store' dir', Store.openStore crc32Ieee l b.1 = (.ok store', dir') →
          (⟨0, some (List.replicate (2 ^ 32) 0)⟩ : VersionEntry) ∉
            store'.index.versions [1] := by
  have hlong : 2 ^ 32 ≤ (List.replicate (2 ^ 32) (0 : Byte)).length :=
    List.length_replicate.ge
  exact ⟨openStore_empty crc32Ieee .ascending, start_put_lost hlong⟩

end Sietch
