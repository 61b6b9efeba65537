import Sietch.Retention

/-! What every operation of a store keeps: the log holds versions of the index, every
version fits its record, and the registry counts the held snapshots. -/
namespace Sietch
open ByteString Script

/-- The registry counts the live guards, given by their `asOfSeq`. -/
def Registry (held : SortedMap Nat Nat) (seqs : List Nat) : Prop :=
  ∀ a, held.get? a = if seqs.count a = 0 then none else some (seqs.count a)

namespace Registry
variable {held : SortedMap Nat Nat} {seqs : List Nat}

theorem hold (h : Registry held seqs) (a : Nat) :
    Registry (held.insert a ((held.get? a).getD 0 + 1)) (seqs ++ [a]) := by
  intro b
  have hcount : (held.get? a).getD 0 = seqs.count a := by
    rw [h a]
    split
    · rename_i h0
      rw [h0]
      rfl
    · rfl
  rw [SortedMap.get?_insert, hcount, List.count_append]
  by_cases hb : b = a
  · simp [hb]
  · have hba : ¬ a = b := fun he => hb he.symm
    simp [hb, hba, h b]

theorem drop {s : Store} {a : Nat} {rest : List Nat} (h : Registry s.heldSnapshots seqs)
    (hperm : seqs.Perm (a :: rest)) : Registry (s.dropGuard ⟨a⟩).heldSnapshots rest := by
  have hcount : ∀ b, seqs.count b = (a :: rest).count b := fun b => hperm.count_eq b
  have ha : s.heldSnapshots.get? a = some (rest.count a + 1) := by
    rw [h a, hcount, List.count_cons_self, if_neg (by omega)]
  intro b
  have hb := h b
  rw [hcount] at hb
  by_cases hlast : rest.count a = 0
  · simp only [Store.dropGuard, ha, hlast, Nat.zero_add, Nat.sub_self, if_true,
      SortedMap.get?_erase]
    by_cases hba : b = a
    · simp [hba, hlast]
    · rw [if_neg hba, hb, List.count_cons_of_ne (Ne.symm hba)]
  · simp only [Store.dropGuard, ha, Nat.add_sub_cancel, hlast, if_false, SortedMap.get?_insert]
    by_cases hba : b = a
    · simp [hba, hlast]
    · rw [if_neg hba, hb, List.count_cons_of_ne (Ne.symm hba)]

theorem perm {seqs' : List Nat} (h : Registry held seqs) (hperm : seqs.Perm seqs') :
    Registry held seqs' := by
  intro a
  rw [← hperm.count_eq a]
  exact h a

theorem mem_iff (h : Registry held seqs) {a : Nat} : a ∈ held.keys ↔ a ∈ seqs := by
  rw [SortedMap.mem_keys, h a, ← List.count_pos_iff]
  by_cases hc : seqs.count a = 0
  · simp [hc]
  · simp [hc, Nat.pos_of_ne_zero hc]

/-- The oldest held snapshot is the least one. -/
theorem oldest {s : Store} (h : Registry s.heldSnapshots seqs) {t : Nat}
    (ht : s.oldestHeldSnapshotSeq = some t) : t ∈ seqs ∧ ∀ a ∈ seqs, t ≤ a := by
  have hhead : s.heldSnapshots.keys.head? = some t := ht
  obtain ⟨rest, hkeys⟩ := List.head?_eq_some_iff.mp hhead
  have hasc := s.heldSnapshots.keys_pairwise
  rw [hkeys] at hasc
  refine ⟨h.mem_iff.mp (by rw [hkeys]; simp), fun a ha => ?_⟩
  have hmem := h.mem_iff.mpr ha
  rw [hkeys] at hmem
  rcases List.mem_cons.mp hmem with rfl | hmem
  · exact le_rfl
  · exact (List.rel_of_pairwise_cons hasc hmem).le

theorem unheld {s : Store} (h : Registry s.heldSnapshots seqs) :
    s.oldestHeldSnapshotSeq = none ↔ seqs = [] := by
  rw [Store.oldestHeldSnapshotSeq, List.head?_eq_none_iff, List.eq_nil_iff_forall_not_mem,
    List.eq_nil_iff_forall_not_mem]
  exact forall_congr' (fun _ => not_congr h.mem_iff)

end Registry

theorem dropGuard_index (s : Store) (snapshot : Snapshot) :
    (s.dropGuard snapshot).index = s.index ∧ (s.dropGuard snapshot).log = s.log := by
  unfold Store.dropGuard
  split
  · split
    · exact ⟨rfl, rfl⟩
    · exact ⟨rfl, rfl⟩
  · exact ⟨rfl, rfl⟩

theorem fits_version {r : Record} (h : r.Fits) : (r.version.record r.key).Fits := by
  obtain ⟨ty, seq, key, value⟩ := r
  cases ty with
  | put => exact h
  | delete => exact ⟨h.seq, h.key, by simp [Record.version, VersionEntry.record, Record.delete]⟩

/-- The versions that a numbered batch adds fit their records. -/
theorem added_fits {ops : List LogOp} {seq : Nat} (hfit : ∀ op ∈ ops, op.Fits)
    (hbound : seq + ops.length < 2 ^ 64) {key : Bytes} {v : VersionEntry}
    (hv : v ∈ Index.added (Log.numberRecords seq ops) key) :
    (v.record key).Fits ∧ v.seq + 1 < 2 ^ 64 := by
  have hlt := (Index.added_seq hv).2
  obtain ⟨r, hr, rfl, rfl⟩ := Index.mem_added.mp hv
  exact ⟨fits_version (Log.numberRecords_fits hfit hbound r hr), by omega⟩

theorem nextSeqOf_lt {rs : List Record} (h : ∀ r ∈ rs, r.seq + 1 < 2 ^ 64) :
    nextSeqOf rs < 2 ^ 64 := by
  by_cases hne : rs = []
  · rw [hne]
    decide
  · obtain ⟨r, hr, htop⟩ := exists_top_seq hne
    rw [htop]
    exact h r hr

theorem compacted_bounds {index : Index} (retainFrom : Option Nat)
    (h : ∀ key, ∀ v ∈ index.versions key, (v.record key).Fits ∧ v.seq + 1 < 2 ^ 64) :
    ∀ r ∈ compactedRecords index retainFrom, r.Fits ∧ r.seq + 1 < 2 ^ 64 := by
  intro r hr
  obtain ⟨v, hv, he⟩ := mem_compactedRecords.mp hr
  obtain ⟨hf, hs⟩ := h r.key v (mem_of_mem_retained hv)
  rw [he, VersionEntry.record_seq]
  exact ⟨hf, hs⟩

theorem compacted_fits {index : Index} (retainFrom : Option Nat)
    (h : ∀ key, ∀ v ∈ index.versions key, (v.record key).Fits ∧ v.seq + 1 < 2 ^ 64) :
    (∀ r ∈ compactedRecords index retainFrom, r.Fits) ∧
      nextSeqOf (compactedRecords index retainFrom) < 2 ^ 64 :=
  ⟨fun r hr => (compacted_bounds retainFrom h r hr).1,
    nextSeqOf_lt (fun r hr => (compacted_bounds retainFrom h r hr).2)⟩

/-- A store in step with its directory: the log holds `records`, all of them versions of
the index, and the registry counts the snapshots held as of `held`. -/
structure Store.Inv (crc32 : Checksum) (records : List Record) (dir : StoreDir) (s : Store)
    (held : List Nat) : Prop where
  clean : dir.Clean
  disk : Holds crc32 dir.main (some s.log) records
  indexed : ∀ key, ∀ v ∈ Index.added records key, v ∈ s.index.versions key
  fits : ∀ key, ∀ v ∈ s.index.versions key, (v.record key).Fits ∧ v.seq + 1 < 2 ^ 64
  registry : Registry s.heldSnapshots held

namespace Store.Inv
variable {crc32 : Checksum} {records : List Record} {dir : StoreDir} {s : Store} {held : List Nat}

theorem write {dir' : StoreDir} {s' : Store} {call : Call} (h : s.Inv crc32 records dir held)
    (hfit : ∀ op ∈ call.ops, op.Fits)
    (hok : s.write crc32 .done dir call = (.ok (), s', dir')) :
    s'.Inv crc32 (records ++ Log.numberRecords s.log.nextSeq call.ops) dir' held := by
  have hw := (Store.write_append hok).2
  refine ⟨?_, Store.write_disk hfit hok h.disk, ?_, ?_, ?_⟩
  · rw [hw.scratch]
    exact h.clean
  · intro key v hv
    rw [Index.added_append] at hv
    rw [hw.index, Index.versions_pushAll]
    exact List.mem_append.mpr ((List.mem_append.mp hv).imp_left (h.indexed key v))
  · intro key v hv
    rw [hw.index, Index.versions_pushAll] at hv
    rcases List.mem_append.mp hv with hv | hv
    · exact h.fits key v hv
    · exact added_fits hfit hw.bound hv
  · rw [hw.held]
    exact h.registry

/-- A write succeeds unless the counter is at its end. -/
theorem writes {call : Call} (h : s.Inv crc32 records dir held) (hfit : ∀ op ∈ call.ops, op.Fits)
    (hn : s.log.nextSeq + call.ops.length < 2 ^ 64) :
    ∃ s' dir', s.write crc32 .done dir call = (.ok (), s', dir') := by
  obtain ⟨old, active, hr, -⟩ := Holds.running h.disk
  obtain ⟨log', main, old', active', happend, -⟩ := hr.appendBatch_done hfit hn
  rw [Store.write_eq, Store.applyBatch, happend]
  exact ⟨_, _, rfl⟩

theorem hold (h : s.Inv crc32 records dir held) :
    s.holdSnapshot.2.Inv crc32 records dir (held ++ [s.snapshot.asOfSeq]) :=
  ⟨h.clean, h.disk, h.indexed, h.fits, h.registry.hold s.snapshot.asOfSeq⟩

theorem drop {snapshot : Snapshot} {rest : List Nat} (h : s.Inv crc32 records dir held)
    (hperm : held.Perm (snapshot.asOfSeq :: rest)) :
    (s.dropGuard snapshot).Inv crc32 records dir rest := by
  obtain ⟨hindex, hlog⟩ := dropGuard_index s snapshot
  refine ⟨h.clean, ?_, ?_, ?_, h.registry.drop hperm⟩
  · rw [hlog]
    exact h.disk
  · rw [hindex]
    exact h.indexed
  · rw [hindex]
    exact h.fits

/-- A compaction succeeds; it leaves the index and the registry and replaces the log. -/
theorem compact {l : Listing} (h : s.Inv crc32 records dir held) (hl : l.Fair) :
    ∃ report log dir', s.compact crc32 l dir = (.ok report, { s with log }, dir') ∧
      Store.Inv crc32 (compactedRecords s.index s.oldestHeldSnapshotSeq) dir' { s with log }
        held := by
  obtain ⟨hfit, hnext⟩ := compacted_fits s.oldestHeldSnapshotSeq h.fits
  obtain ⟨report, log, dir', hc, hclean, hr⟩ := Store.compact_ok crc32 hl h.clean hfit hnext
  refine ⟨report, log, dir', hc, hclean, .live hr, ?_, h.fits, h.registry⟩
  intro key v hv
  rw [added_compacted, List.mem_insertionSort] at hv
  exact mem_of_mem_retained hv

/-- The same registry, its snapshots listed in another order. -/
theorem perm {held' : List Nat} (h : s.Inv crc32 records dir held) (hperm : held.Perm held') :
    s.Inv crc32 records dir held' :=
  ⟨h.clean, h.disk, h.indexed, h.fits, h.registry.perm hperm⟩

end Store.Inv

end Sietch
