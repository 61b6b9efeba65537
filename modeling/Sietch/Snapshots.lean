import Sietch.StoreRuns

/-! Held snapshots over whole runs: reads through a guard are the reads of the moment
it was taken, as long as the counter is above every newest version when a guard is
taken and never below a held snapshot when something is written. -/
namespace Sietch
open ByteString Script Transition

/-- Every call returns Ok; nothing is asked of keys, values or listings. -/
def AnyStoreStep (crc32 : Checksum) : StoreWorld → StoreEvent → StoreWorld → Prop :=
  Computed (fun _ => True) (StoreWorld.exec crc32)

def CounterAhead (w : StoreWorld) : StoreEvent → Prop
  | .holdSnapshot => ∀ key newest, (w.store.index.versions key).getLast? = some newest →
      newest.seq < w.store.log.nextSeq
  | .write _ => ∀ g ∈ w.guards, g.snapshot.asOfSeq ≤ w.store.log.nextSeq
  | _ => True

theorem find_reverse_append {vs new : List VersionEntry} {asOf : Nat}
    (h : ∀ v ∈ new, asOf ≤ v.seq) :
    (vs ++ new).reverse.find? (·.seq < asOf) = vs.reverse.find? (·.seq < asOf) := by
  have hnone : new.reverse.find? (·.seq < asOf) = none := by
    rw [List.find?_eq_none]
    intro v hv
    have := h v (List.mem_reverse.mp hv)
    simpa using this
  rw [List.reverse_append, List.find?_append, hnone, Option.none_or]

theorem find_reverse_newest {vs : List VersionEntry} {asOf : Nat}
    (h : ∀ newest, vs.getLast? = some newest → newest.seq < asOf) :
    vs.reverse.find? (·.seq < asOf) = vs.getLast? := by
  rcases List.eq_nil_or_concat vs with rfl | ⟨init, newest, rfl⟩
  · rfl
  · rw [List.concat_eq_append] at h ⊢
    have hlt := h newest (by simp)
    simp [hlt]

theorem compact_store {crc32 : Checksum} {l : Listing} {dir dir' : StoreDir} {s s' : Store}
    {out : Outcome StoreError CompactionReport} (h : s.compact crc32 l dir = (out, s', dir')) :
    s' = { s with log := s'.log } := by
  have hstore : (s.compact crc32 l dir).2.1 = { s with log := (s.compact crc32 l dir).2.1.log } := by
    unfold Store.compact
    simp only [openDefault_empty]
    split
    · split
      · rfl
      · rfl
      · rfl
    · rfl
    · rfl
  rw [h] at hstore
  exact hstore

theorem compact_index {crc32 : Checksum} {l : Listing} {dir dir' : StoreDir} {s s' : Store}
    {out : Outcome StoreError CompactionReport} (h : s.compact crc32 l dir = (out, s', dir')) :
    s'.index = s.index := by
  rw [compact_store h]

def GuardsRead (w : StoreWorld) : Prop :=
  ∀ g ∈ w.guards, ∀ key, w.store.getAt key g.snapshot = g.taken.get key

theorem GuardsRead.of_index {w w' : StoreWorld} (h : GuardsRead w)
    (hindex : w'.store.index = w.store.index) (hguards : ∀ g ∈ w'.guards, g ∈ w.guards) :
    GuardsRead w' := by
  intro g hg key
  rw [← h g (hguards g hg) key, Store.getAt_eq, Store.getAt_eq, hindex]

theorem GuardsRead.step {crc32 : Checksum} {w w' : StoreWorld} {e : StoreEvent}
    (h : GuardsRead w) (hc : CounterAhead w e) (hs : AnyStoreStep crc32 w e w') :
    GuardsRead w' := by
  cases e with
  | write call =>
      obtain ⟨hok, hg⟩ := StoreWorld.exec_write hs.2
      have hw := (Store.write_append hok).2
      intro g hmem key
      rw [hg] at hmem
      rw [← h g hmem key, Store.getAt_eq, Store.getAt_eq, hw.index, Index.versions_pushAll,
        find_reverse_append]
      intro v hv
      exact (hc g hmem).trans (Index.added_seq hv).1
  | holdSnapshot =>
      cases hs.2
      intro g hg key
      rcases List.mem_append.mp hg with hg | hg
      · rw [← h g hg key]
        rfl
      · cases List.mem_singleton.mp hg
        rw [Store.getAt_eq, Store.get_eq]
        have hnewest := find_reverse_newest (hc key)
        exact congrArg (Option.bind · VersionEntry.value) hnewest
  | dropGuard i =>
      obtain ⟨g, -, rfl⟩ := StoreWorld.exec_drop hs.2
      exact h.of_index (dropGuard_index w.store g.snapshot).1
        (fun _ hg => List.mem_of_mem_eraseIdx hg)
  | compact l =>
      obtain ⟨hg, report, hcompact⟩ := StoreWorld.exec_compact hs.2
      exact h.of_index (compact_index hcompact) (fun _ hmem => by rwa [hg] at hmem)

/-- A held snapshot reads the state at which it was taken, in every run in which the
counter is above every newest version when a guard is taken and not below a held
snapshot when something is written. -/
theorem held_snapshot_reads_its_state {crc32 : Checksum} {dir : StoreDir} {store : Store}
    {events : List StoreEvent} {w : StoreWorld}
    (hrun : Run (Under CounterAhead (AnyStoreStep crc32)) ⟨dir, store, []⟩ events w) :
    ∀ g ∈ w.guards, (∀ key, w.store.getAt key g.snapshot = g.taken.get key) ∧
      ∀ keyPrefix, w.store.scanAt keyPrefix g.snapshot = g.taken.scan keyPrefix := by
  have hread : GuardsRead w := hrun.invariant (fun g hg => by cases hg)
    (fun _ _ _ h hs => h.step hs.1 hs.2)
  intro g hg
  exact ⟨hread g hg, fun keyPrefix => Store.scanAt_congr (hread g hg) keyPrefix⟩

/-- The compaction sets the counter back below the tombstone, and the guard taken
after the next put reads the deleted value. -/
theorem held_snapshot_reads_deleted_value :
    ∃ w, Run (AnyStoreStep crc32Ieee) StoreWorld.start
        [.write (.put [0] [7]), .write (.put [1] [5]), .write (.delete [1]), .compact .ascending,
          .write (.put [2] [3]), .holdSnapshot] w ∧
      ∃ g ∈ w.guards, g.taken.get [1] = none ∧ w.store.getAt [1] g.snapshot = some [5] := by
  have hcheck : (([.write (.put [0] [7]), .write (.put [1] [5]), .write (.delete [1]),
      .compact .ascending, .write (.put [2] [3]), .holdSnapshot] : List StoreEvent).foldlM
      (StoreWorld.exec crc32Ieee) StoreWorld.start).any (fun w => w.guards.any (fun g =>
        decide (g.taken.get [1] = none) &&
          decide (w.store.getAt [1] g.snapshot = some [5]))) = true := by
    decide +kernel
  rw [Option.any_eq_true] at hcheck
  obtain ⟨w, hw, hread⟩ := hcheck
  obtain ⟨g, hg, hread⟩ := List.any_eq_true.mp hread
  simp only [Bool.and_eq_true, decide_eq_true_eq] at hread
  exact ⟨w, .of_foldlM (fun _ _ => trivial) hw, g, hg, hread⟩

/-- A guard taken between two puts of one key. -/
theorem held_snapshot_between_puts :
    ∃ w, Run (Under CounterAhead (AnyStoreStep crc32Ieee)) StoreWorld.start
        [.write (.put [1] [5]), .holdSnapshot, .write (.put [1] [9])] w ∧
      ∀ g ∈ w.guards, (∀ key, w.store.getAt key g.snapshot = g.taken.get key) ∧
        ∀ keyPrefix, w.store.scanAt keyPrefix g.snapshot = g.taken.scan keyPrefix := by
  obtain ⟨w3, h3⟩ : ∃ w3, (([.write (.put [1] [5]), .holdSnapshot, .write (.put [1] [9])] :
      List StoreEvent).foldlM (StoreWorld.exec crc32Ieee) StoreWorld.start) = some w3 :=
    Option.isSome_iff_exists.mp (by decide +kernel)
  rw [List.foldlM_cons] at h3
  obtain ⟨w1, h1, h3⟩ := Option.bind_eq_some_iff.mp h3
  rw [List.foldlM_cons] at h3
  obtain ⟨w2, h2, h3⟩ := Option.bind_eq_some_iff.mp h3
  rw [List.foldlM_cons] at h3
  obtain ⟨w4, h4, h5⟩ := Option.bind_eq_some_iff.mp h3
  cases h5
  obtain ⟨hok, hguards⟩ := StoreWorld.exec_write h1
  have hw := (Store.write_append hok).2
  have hhold : CounterAhead w1 .holdSnapshot := by
    intro key newest hnewest
    have hv := List.mem_of_getLast? hnewest
    rw [hw.index, Index.versions_pushAll] at hv
    obtain ⟨r, hr, -, rfl⟩ := Index.mem_added.mp hv
    cases List.mem_singleton.mp hr
    rw [hw.nextSeq]
    decide
  have hwrite : CounterAhead w2 (.write (.put [1] [9])) := by
    cases h2
    intro g hg
    have hg' : g ∈ w1.guards ++ [⟨w1.store.snapshot, w1.store⟩] := hg
    rw [hguards] at hg'
    cases List.mem_singleton.mp hg'
    exact le_rfl
  have hrun : Run (Under CounterAhead (AnyStoreStep crc32Ieee)) StoreWorld.start
      [.write (.put [1] [5]), .holdSnapshot, .write (.put [1] [9])] w3 :=
    .snoc (.snoc (.snoc .nil ⟨(fun g hg => by cases hg), trivial, h1⟩) ⟨hhold, trivial, h2⟩)
      ⟨hwrite, trivial, h4⟩
  exact ⟨w3, hrun, held_snapshot_reads_its_state hrun⟩

end Sietch
