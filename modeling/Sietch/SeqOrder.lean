import Sietch.StoreRuns

/-! Sequence numbers over the life of a store. Writes only ever count up; a compaction
counts on from the records it keeps, so it sets the counter back when the last write was
a delete and no guard retains its tombstone. -/
namespace Sietch
open ByteString Transition

/-- The versions of each key are in the order of their numbers, no number is used twice,
and the counter is above them all. -/
structure Store.Sequenced (s : Store) : Prop where
  increasing : ∀ key, (s.index.versions key).Pairwise (fun a b => a.seq < b.seq)
  distinct : (s.index.entries.flatMap (fun e => e.2.map VersionEntry.seq)).Nodup
  below : ∀ key, ∀ v ∈ s.index.versions key, v.seq < s.log.nextSeq

structure Store.SeqInv (s : Store) : Prop where
  increasing : ∀ key, (s.index.versions key).Pairwise (fun a b => a.seq < b.seq)
  apart : ∀ {j k : Bytes} {u v : VersionEntry}, u ∈ s.index.versions j → v ∈ s.index.versions k →
    u.seq = v.seq → j = k ∧ u = v
  below : ∀ key, ∀ v ∈ s.index.versions key, v.seq < s.log.nextSeq

theorem Store.SeqInv.sequenced {s : Store} (h : s.SeqInv) : s.Sequenced := by
  refine ⟨h.increasing, ?_, h.below⟩
  have hversions : ∀ e ∈ s.index.entries, s.index.versions e.1 = e.2 := by
    intro e he
    rw [Index.versions, SortedMap.mem_entries.mp he, Option.getD_some]
  rw [List.nodup_flatMap]
  constructor
  · intro e he
    rw [List.Nodup, List.pairwise_map, ← hversions e he]
    exact (h.increasing e.1).imp (fun hlt => Nat.ne_of_lt hlt)
  · refine s.index.ascending.imp_of_mem (fun {a b} ha hb hlt => ?_)
    intro seq hsa hsb
    obtain ⟨u, hu, rfl⟩ := List.mem_map.mp hsa
    obtain ⟨v, hv, heq⟩ := List.mem_map.mp hsb
    rw [← hversions a ha] at hu
    rw [← hversions b hb] at hv
    exact hlt.ne (h.apart hu hv heq.symm).1

section Writes
variable {ops : List LogOp}

theorem added_apart {records : List Record} (h : records.Pairwise (fun a b => a.seq < b.seq))
    {j k : Bytes} {u v : VersionEntry} (hu : u ∈ Index.added records j)
    (hv : v ∈ Index.added records k) (heq : u.seq = v.seq) : j = k ∧ u = v := by
  obtain ⟨r, hr, rfl, rfl⟩ := Index.mem_added.mp hu
  obtain ⟨t, ht, rfl, rfl⟩ := Index.mem_added.mp hv
  have hnd : (records.map Record.seq).Nodup := by
    rw [List.Nodup, List.pairwise_map]
    exact h.imp (fun hlt => Nat.ne_of_lt hlt)
  rw [Record.version_seq, Record.version_seq] at heq
  have hrt := List.inj_on_of_nodup_map hnd hr ht heq
  rw [hrt]
  exact ⟨rfl, rfl⟩

theorem Store.SeqInv.write {s s' : Store} {dir dir' : StoreDir} (h : s.SeqInv)
    (hw : Store.Wrote ops dir s dir' s') :
    s'.SeqInv ∧ s.log.nextSeq ≤ s'.log.nextSeq := by
  have hversions : ∀ key, s'.index.versions key = s.index.versions key ++
      Index.added (Log.numberRecords s.log.nextSeq ops) key := by
    intro key
    rw [hw.index, Index.versions_pushAll]
  have hnumbered := Log.numberRecords_pairwise s.log.nextSeq ops
  refine ⟨⟨fun key => ?_, fun {j k u v} hu hv heq => ?_, fun key v hv => ?_⟩, ?_⟩
  · rw [hversions, List.pairwise_append]
    refine ⟨h.increasing key, Index.added_pairwise hnumbered key, fun u hu v hv => ?_⟩
    exact (h.below key u hu).trans_le (Index.added_seq hv).1
  · rw [hversions] at hu hv
    rcases List.mem_append.mp hu with hu | hu <;> rcases List.mem_append.mp hv with hv | hv
    · exact h.apart hu hv heq
    · have hold := h.below j u hu
      have hnew := (Index.added_seq hv).1
      omega
    · have hold := h.below k v hv
      have hnew := (Index.added_seq hu).1
      omega
    · exact added_apart hnumbered hu hv heq
  · rw [hversions] at hv
    rw [hw.nextSeq]
    rcases List.mem_append.mp hv with hv | hv
    · have hold := h.below key v hv
      omega
    · exact (Index.added_seq hv).2
  · rw [hw.nextSeq]
    exact Nat.le_add_right _ _

end Writes

/-- A compaction without a live guard does not follow a delete directly: the version with
the highest number has a value. -/
def NoDeleteOnTop (w : StoreWorld) : StoreEvent → Prop
  | .compact _ => w.guards = [] → ∀ key, ∀ v ∈ w.store.index.versions key,
      v.seq + 1 = w.store.log.nextSeq → v.value ≠ none
  | _ => True

section Compactions
variable {crc32 : Checksum} {w w' : StoreWorld} {records : List Record}

theorem StoreWorld.Inv.top (hinv : w.Inv crc32 records) :
    w.store.log.nextSeq = 0 ∨
      ∃ key, ∃ v ∈ w.store.index.versions key, v.seq + 1 = w.store.log.nextSeq := by
  rw [hinv.disk.nextSeq]
  by_cases hrec : records = []
  · exact .inl (by rw [hrec]; rfl)
  · obtain ⟨r, hr, htop⟩ := exists_top_seq hrec
    refine .inr ⟨r.key, r.version, hinv.indexed _ _ (Index.mem_added.mpr ⟨r, hr, rfl, rfl⟩), ?_⟩
    rw [Record.version_seq, htop]

theorem mem_retained_none {versions : List VersionEntry} {v : VersionEntry} :
    v ∈ retained none versions ↔ versions.getLast? = some v ∧ v.value ≠ none := by
  rw [retained, List.mem_filter, Option.mem_toList, Option.isSome_iff_ne_none]

theorem getLast?_of_top {versions : List VersionEntry} {v : VersionEntry}
    (hsorted : versions.Pairwise (fun a b => a.seq < b.seq)) (hv : v ∈ versions)
    (htop : ∀ u ∈ versions, u.seq ≤ v.seq) : versions.getLast? = some v := by
  rcases List.eq_nil_or_concat versions with rfl | ⟨init, last, rfl⟩
  · cases hv
  · rw [List.concat_eq_append] at *
    rw [List.getLast?_append, List.getLast?_singleton, Option.some_or]
    rcases List.mem_append.mp hv with hv | hv
    · have hlt := (List.pairwise_append.mp hsorted).2.2 v hv last (by simp)
      have hle := htop last (by simp)
      omega
    · rw [List.mem_singleton.mp hv]

/-- The counter of the new log is the old one exactly when the last write survives. -/
theorem StoreWorld.Inv.compacted_nextSeq (hinv : w.Inv crc32 records) (h : w.store.SeqInv)
    (l : Listing) :
    w.store.log.nextSeq ≤ nextSeqOf (compactedRecords w.store.index
        w.store.oldestHeldSnapshotSeq) ↔ NoDeleteOnTop w (.compact l) := by
  constructor
  · intro hle hguards key v hv htop
    rw [hinv.registry.unheld.mpr (List.map_eq_nil_iff.mpr hguards)] at hle
    have hne : compactedRecords w.store.index none ≠ [] := by
      intro hnil
      rw [hnil, nextSeqOf_nil] at hle
      omega
    obtain ⟨r, hr, hmax⟩ := exists_top_seq hne
    obtain ⟨u, hu, hrec⟩ := mem_compactedRecords.mp hr
    have huv := mem_of_mem_retained hu
    have hseq : u.seq = v.seq := by
      have hlow := h.below r.key u huv
      have hru : r.seq = u.seq := by
        rw [hrec]
        exact VersionEntry.record_seq r.key u
      omega
    rw [← (h.apart huv hv hseq).2]
    exact (mem_retained_none.mp hu).2
  · intro hcond
    rcases hinv.top with hzero | ⟨key, v, hv, htop⟩
    · rw [hzero]
      exact Nat.zero_le _
    · have hreach : ∃ u ∈ retained w.store.oldestHeldSnapshotSeq (w.store.index.versions key),
          v.seq ≤ u.seq := by
        cases ho : w.store.oldestHeldSnapshotSeq with
        | none =>
            have hguards : w.guards = [] := List.map_eq_nil_iff.mp (hinv.registry.unheld.mp ho)
            refine ⟨v, mem_retained_none.mpr ⟨?_, hcond hguards key v hv htop⟩, le_rfl⟩
            refine getLast?_of_top (h.increasing key) hv (fun u hu => ?_)
            have hlow := h.below key u hu
            omega
        | some t => exact retained_reaches t ((h.increasing key).imp Nat.le_of_lt) hv
      obtain ⟨u, hu, hle⟩ := hreach
      have hmem : u.record key ∈ compactedRecords w.store.index w.store.oldestHeldSnapshotSeq := by
        refine mem_compactedRecords.mpr ⟨u, ?_, ?_⟩
        · rw [VersionEntry.record_key]
          exact hu
        · rw [VersionEntry.record_key]
      have hlt := seq_lt_nextSeqOf hmem
      rw [VersionEntry.record_seq] at hlt
      omega

theorem StoreStep.sequenced_iff {e : StoreEvent} (hinv : w.Inv crc32 records)
    (h : w.store.SeqInv) (hs : StoreStep crc32 w e w') :
    (NoDeleteOnTop w e → w'.store.SeqInv) ∧
      (w.store.log.nextSeq ≤ w'.store.log.nextSeq ↔ NoDeleteOnTop w e) := by
  cases e with
  | write call =>
      obtain ⟨hseq, hle⟩ := h.write (Store.write_append (StoreWorld.exec_write hs.2).1).2
      exact ⟨fun _ => hseq, iff_of_true hle trivial⟩
  | holdSnapshot =>
      cases hs.2
      exact ⟨fun _ => ⟨h.increasing, h.apart, h.below⟩, iff_of_true le_rfl trivial⟩
  | dropGuard i =>
      obtain ⟨g, -, rfl⟩ := StoreWorld.exec_drop hs.2
      obtain ⟨hindex, hlog⟩ := dropGuard_index w.store g.snapshot
      refine ⟨fun _ => ⟨?_, ?_, ?_⟩, iff_of_true (by rw [hlog]) trivial⟩
      · rw [hindex]
        exact h.increasing
      · rw [hindex]
        exact h.apart
      · rw [hindex, hlog]
        exact h.below
  | compact l =>
      obtain ⟨hstore, hinv'⟩ := hinv.compacted hs
      have hindex : w'.store.index = w.store.index := by rw [hstore]
      have hnext : w'.store.log.nextSeq = nextSeqOf (compactedRecords w.store.index
          w.store.oldestHeldSnapshotSeq) := hinv'.disk.nextSeq
      rw [hnext, hinv.compacted_nextSeq h l]
      refine ⟨fun hcond => ⟨?_, ?_, fun key v hv => ?_⟩, Iff.rfl⟩
      · rw [hindex]
        exact h.increasing
      · rw [hindex]
        exact h.apart
      · rw [hindex] at hv
        have hle := (hinv.compacted_nextSeq h l).mpr hcond
        rw [hnext]
        exact (h.below key v hv).trans_le hle

end Compactions

theorem seqInv_replay {s : Store} {records : List Record} (hindex : s.index = Index.replay records)
    (hlog : s.log.nextSeq = nextSeqOf records)
    (hinc : records.Pairwise (fun a b => a.seq < b.seq)) : s.SeqInv := by
  have hversions : ∀ key, s.index.versions key = Index.added records key := by
    intro key
    rw [hindex, Index.versions_replay]
  refine ⟨fun key => ?_, fun {j k u v} hu hv heq => ?_, fun key v hv => ?_⟩
  · rw [hversions]
    exact Index.added_pairwise hinc key
  · rw [hversions] at hu hv
    exact added_apart hinc hu hv heq
  · rw [hversions] at hv
    obtain ⟨r, hr, -, rfl⟩ := Index.mem_added.mp hv
    rw [Record.version_seq, hlog]
    exact seq_lt_nextSeqOf hr

/-- In the life of a store whose log had its records in order when it was opened, and
whose compactions without a guard never follow a delete, a step keeps the index in order
and never lowers the counter, unless it is itself such a compaction. -/
theorem seqs_monotonic_iff {crc32 : Checksum} {l : Listing} {dir₀ dir : StoreDir} {store : Store}
    {records : List Record} (hclean : dir₀.Clean) (hlog : Holds crc32 dir₀.main none records)
    (hinc : records.Pairwise (fun a b => a.seq < b.seq))
    (hopen : Store.openStore crc32 l dir₀ = (.ok store, dir))
    {events : List StoreEvent} {w w' : StoreWorld} {e : StoreEvent}
    (hrun : Run (Under NoDeleteOnTop (StoreStep crc32)) ⟨dir, store, []⟩ events w)
    (hs : StoreStep crc32 w e w') :
    w'.store.Sequenced ∧ w.store.log.nextSeq ≤ w'.store.log.nextSeq ↔ NoDeleteOnTop w e := by
  obtain ⟨store₀, dir₁, hopen₀, hinv₀, hindex⟩ := openStore_holds hclean hlog l
  rw [hopen₀] at hopen
  cases hopen
  have hstart : store.SeqInv := seqInv_replay hindex hinv₀.disk.nextSeq hinc
  obtain ⟨recs, hinv, hseq⟩ : ∃ recs, w.Inv crc32 recs ∧ w.store.SeqInv := by
    refine hrun.invariant (I := fun w => ∃ recs, w.Inv crc32 recs ∧ w.store.SeqInv)
      ⟨records, hinv₀, hstart⟩ ?_
    rintro a e b ⟨recs, hinv, hseq⟩ ⟨hcond, hstep⟩
    exact ⟨_, hstep.inv hinv, (hstep.sequenced_iff hinv hseq).1 hcond⟩
  obtain ⟨hkeep, hnext⟩ := hs.sequenced_iff hinv hseq
  constructor
  · rintro ⟨-, hle⟩
    exact hnext.mp hle
  · intro hcond
    exact ⟨(hkeep hcond).sequenced, hnext.mpr hcond⟩

def deleteUnderGuard : List StoreEvent :=
  [.write (.put [1] [5]), .holdSnapshot, .write (.delete [1])]

/-- With the guard a compaction after the delete keeps the counter. -/
theorem seqs_monotonic_guarded :
    ∃ w w', Run (Under NoDeleteOnTop (StoreStep crc32Ieee)) StoreWorld.start deleteUnderGuard w ∧
      StoreStep crc32Ieee w (.compact .ascending) w' ∧ w'.store.Sequenced ∧
      w.store.log.nextSeq ≤ w'.store.log.nextSeq := by
  have hcheck : (deleteUnderGuard.foldlM (StoreWorld.exec crc32Ieee) StoreWorld.start).any (fun w =>
      decide (w.guards.length = 1) &&
        (StoreWorld.exec crc32Ieee w (.compact .ascending)).isSome) = true := by
    decide +kernel
  rw [Option.any_eq_true] at hcheck
  obtain ⟨w, hw, hnext⟩ := hcheck
  simp only [Bool.and_eq_true, decide_eq_true_eq] at hnext
  obtain ⟨w', hw'⟩ := Option.isSome_iff_exists.mp hnext.2
  have hsteps : Run (StoreStep crc32Ieee) StoreWorld.start deleteUnderGuard w := by
    refine .of_foldlM ?_ hw
    simp [deleteUnderGuard, StoreEvent.Allowed, Call.ops, LogOp.Fits]
  have hrun : Run (Under NoDeleteOnTop (StoreStep crc32Ieee)) StoreWorld.start deleteUnderGuard w := by
    refine hsteps.mono_mem (fun a e b he hstep => ⟨?_, hstep⟩)
    simp only [deleteUnderGuard, List.mem_cons, List.not_mem_nil, or_false] at he
    rcases he with rfl | rfl | rfl
    · trivial
    · trivial
    · trivial
  have hs : StoreStep crc32Ieee w (.compact .ascending) w' := ⟨Listing.ascending_fair, hw'⟩
  have hguard : NoDeleteOnTop w (.compact .ascending) := by
    intro hnone
    rw [hnone] at hnext
    exact absurd hnext.1 (by decide)
  exact ⟨w, w', hrun, hs, (seqs_monotonic_iff ⟨rfl, rfl, rfl, rfl⟩ .fresh .nil
    (openStore_empty crc32Ieee .ascending) hrun hs).mpr hguard⟩

def countingBack : List StoreEvent :=
  [.write (.put [1] [5]), .write (.delete [1]), .compact .ascending]

/-- The compaction keeps no record: the counter falls from 2 to 0, below the numbers 0 and
1 that the index still holds. -/
theorem compaction_sets_seq_back :
    ∃ w, Run (StoreStep crc32Ieee) StoreWorld.start countingBack w ∧
      w.store.log.nextSeq = 0 ∧ w.store.index.versions [1] = [⟨0, some [5]⟩, ⟨1, none⟩] := by
  have hcheck : (countingBack.foldlM (StoreWorld.exec crc32Ieee) StoreWorld.start).any (fun w =>
      decide (w.store.log.nextSeq = 0) &&
        decide (w.store.index.versions [1] = [⟨0, some [5]⟩, ⟨1, none⟩])) = true := by
    decide +kernel
  rw [Option.any_eq_true] at hcheck
  obtain ⟨w, hw, hback⟩ := hcheck
  simp only [Bool.and_eq_true, decide_eq_true_eq] at hback
  refine ⟨w, .of_foldlM ?_ hw, hback⟩
  simp [countingBack, StoreEvent.Allowed, Call.ops, LogOp.Fits, Listing.ascending_fair]

end Sietch
