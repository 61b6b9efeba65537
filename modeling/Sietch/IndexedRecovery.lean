import Sietch.IndexedRuns
import Sietch.LogDamage
import Sietch.Recovery
import Sietch.StoreFrame

/-! Opening an indexed store on what an earlier session has left. As long as no page was
written since the last flush, the directory of the tree has the records before that flush, and
`open` brings the tree up to the log. This goes wrong when the log has lost some of them: the
tree is then ahead of the log. -/
namespace Sietch
open ByteString Transition
open Proc (Maintains maintains_pure maintains_get)
open IndexedStore (Tracks Recoverable)

def IndexedWorld.opened {crc32 : Checksum} (dir : IndexedDir)
    (s : IndexedStore (HeapPageStore crc32)) (interval : Nat) : IndexedWorld crc32 :=
  ⟨s, if s.reconciledRecords = 0 then dir.index else s.index.store.dir, 0, interval⟩

def IndexedWorld.Settled {crc32 : Checksum} (w : IndexedWorld crc32) : Prop :=
  w.store.index.store.dir = w.saved

/-- After this `get` returns for every key what the records say. -/
def ReadsAs {crc32 : Checksum} (fuel : Nat) (s : IndexedStore (HeapPageStore crc32))
    (records : List Record) : Prop :=
  ∀ key, ∃ s', IndexedStore.get fuel key s = (.ok (lastValue records key).join, s')

section Opening
variable {crc32 : Checksum} {small : Prop} {fuel capacity interval n : Nat}
  {records : List Record} {sentinel : Option Nat} {dir : IndexedDir} {w w' : IndexedWorld crc32}

theorem recoverable_returns (h : Recoverable crc32 True records sentinel dir)
    (hfuel : 2 ^ 64 ≤ fuel) (hmodest : ∀ r ∈ records, r.Modest)
    (hn : records.length ≤ sentinel.getD 0 + n)
    (hroom : ∀ pages, HeapPageStore.openStore crc32 dir.index = .ok pages →
      pages.RoomFor capacity n) (interval : Nat) :
    ∃ s dir', IndexedStore.openWithOptions crc32 fuel dir capacity interval = (.ok s, dir') ∧
      ReadsAs fuel s records ∧ Tracked True (.opened dir s interval) records := by
  have hrest : ∀ r ∈ records.drop (sentinel.getD 0), True → r.Modest := fun r hr _ =>
    hmodest r (List.mem_of_mem_drop hr)
  have hspace : ∀ pages, HeapPageStore.openStore crc32 dir.index = .ok pages →
      Spacious (HeapPageStore.durable crc32).toNodeStore capacity
        (1 + 2 + (records.length - sentinel.getD 0)) (0 + capacity) pages := by
    intro pages hpages
    have hfits := ((hroom pages hpages).mono
      (show records.length - sentinel.getD 0 ≤ n by omega)).spacious
    rwa [Nat.zero_add, Nat.add_comm]
  obtain ⟨s, dir', hopen, -, hint, hzero, -, _, ht⟩ :=
    (h.opens (E := False) interval 1 0 hfuel (.inr ⟨.inr trivial, hspace⟩) hrest).returns not_false
  refine ⟨s, dir', hopen, ?_, ?_⟩
  · intro key
    obtain ⟨_, s', hget, rfl, -⟩ := (ht.get hfuel key).returns not_false
    exact ⟨s', hget⟩
  · obtain ⟨-, -, -, -, sentinel', ht'⟩ :=
      (h.opens (E := True) interval 0 0 hfuel (.inl trivial) hrest).ok hopen
    exact ⟨⟨capacity, sentinel', ht'⟩, hzero.symm, hint, fun _ => hmodest⟩

theorem Tracked.run {w₀ : IndexedWorld crc32} {events : List IndexedEvent}
    (hrun : Run (IndexedStep crc32 fuel) w₀ events w) (h : Tracked small w₀ records)
    (hfuel : 2 ^ 64 ≤ fuel) (hsmall : small → ∀ e ∈ events, ∀ op ∈ e.op, op.Small) :
    Tracked small w (records ++ Log.numberRecords records.length (events.filterMap (·.op))) := by
  induction hrun with
  | nil =>
      rw [List.filterMap_nil, Log.numberRecords, List.append_nil]
      exact h
  | snoc hbefore hstep ih =>
      have hparts := fun hs => List.forall_mem_append.mp (hsmall hs)
      have hnow := (ih (fun hs => (hparts hs).1)).step hfuel
        (fun hs => List.forall_mem_singleton.mp (hparts hs).2) hstep
      rw [IndexedEvent.recordsAfter, List.length_append, Log.length_numberRecords,
        List.append_assoc, ← Log.numberRecords_append] at hnow
      rw [List.filterMap_append, List.filterMap_cons, List.filterMap_nil]
      cases hop : IndexedEvent.op _ with
      | none =>
          rw [hop] at hnow
          exact hnow
      | some op =>
          rw [hop] at hnow
          exact hnow

theorem Tracked.settled_returns (h : Tracked True w records) (hsettled : w.Settled)
    (hfuel : 2 ^ 64 ≤ fuel)
    (hroom : ∀ pages, HeapPageStore.openStore crc32 w.saved = .ok pages →
      pages.RoomFor capacity w.unflushed) (interval : Nat) :
    ∃ s dir', IndexedStore.openWithOptions crc32 fuel ⟨w.store.logDir, w.store.index.store.dir⟩
      capacity interval = (.ok s, dir') ∧ ReadsAs fuel s records := by
  obtain ⟨sentinel, hrec, hsince⟩ := h.recoverable
  obtain ⟨s, dir', hopen, hreads, -⟩ := recoverable_returns hrec hfuel
    (h.modest trivial) (by omega) hroom interval
  rw [hsettled]
  exact ⟨s, dir', hopen, hreads⟩

end Opening

section Cut
variable {crc32 : Checksum} {small : Prop} {fuel : Nat} {records : List Record}
  {w : IndexedWorld crc32} {len : Nat}

def IndexedWorld.lastSegment (w : IndexedWorld crc32) : Bytes :=
  (w.store.logDir.get? w.store.log.activeId).getD []

/-- The directories of the store, with the last segment of the log cut to a length. -/
def IndexedWorld.cutDir (w : IndexedWorld crc32) (len : Nat) : IndexedDir :=
  ⟨w.store.logDir.insert w.store.log.activeId (w.lastSegment.take len), w.store.index.store.dir⟩

/-- The cut takes only records that were appended since the last flush. -/
def IndexedWorld.KeepsFlushed (w : IndexedWorld crc32) (len : Nat) : Prop :=
  ∀ active : List Record, (∀ r ∈ active, r.Fits) →
    w.store.logDir.get? w.store.log.activeId = some (encodeAll crc32 active) →
    (encodeAll crc32 (active.take (active.length - w.unflushed))).length ≤ len

theorem Tracked.cut (h : Tracked small w records) (len : Nat) :
    ∃ k, Holds crc32 (w.cutDir len).log none (records.take k) ∧ k ≤ records.length ∧
      (w.KeepsFlushed len ↔ records.length - w.unflushed ≤ k) := by
  obtain ⟨_, _, ht⟩ := h.tracks
  obtain ⟨old, active, hrunning, rfl⟩ := ht.log.running
  obtain ⟨tail, hdisk⟩ := hrunning.disk.cut len
  have hwhole := wholeRecords_le active len
  have hkept := le_wholeRecords_iff crc32 (Nat.sub_le active.length w.unflushed) len
  refine ⟨(old.flatMap Prod.snd).length + wholeRecords active len, ?_, ?_, ?_⟩
  · rw [List.take_length_add_append, IndexedWorld.cutDir, IndexedWorld.lastSegment,
      hrunning.file, Option.getD_some]
    exact .resting hdisk
  · rw [List.length_append]
    omega
  · rw [List.length_append]
    constructor
    · intro hkeeps
      have hle := hkept.mpr (hkeeps active hrunning.disk.active_fits hrunning.file)
      omega
    · intro hle active' hfits hfile
      rw [hrunning.file, Option.some.injEq] at hfile
      rw [← encodeAll_inj crc32 hrunning.disk.active_fits hfits hfile]
      exact hkept.mp (by omega)

theorem Tracked.flushed (h : Tracked small w records) (hnone : w.unflushed = 0) :
    ∃ sentinel, sentinel.getD 0 = records.length ∧ records.length < 2 ^ 64 ∧ Numbered records ∧
      StocksIndex (HeapPageStore.durable crc32) small records sentinel w.saved := by
  obtain ⟨sentinel, hrec, hsince⟩ := h.recoverable
  have hkept := hrec.kept
  have hindex := hrec.index
  rw [List.take_of_length_le (by omega)] at hindex
  exact ⟨sentinel, by omega, hrec.limit, hrec.numbered, hindex⟩

theorem OnDisk.lastSegment
    (h : OnDisk crc32 w.store.logDir [] w.store.log.activeId records []) :
    w.lastSegment = encodeAll crc32 records := by
  rw [IndexedWorld.lastSegment, h.file, List.append_nil, Option.getD_some]

end Cut

section Ahead
variable {crc32 : Checksum} {small : Prop} {fuel capacity calls spare n : Nat}
  {indexed logged : List Record} {sentinel : Option Nat} {dir : IndexedDir}
  {s : IndexedStore (HeapPageStore crc32)}

theorem ServesIndex.reads
    (h : ServesIndex (HeapPageStore.durable crc32).toNodeStore small False capacity (calls + 1) spare
      indexed sentinel s.index) (hfuel : 2 ^ 64 ≤ fuel) : ReadsAs fuel s indexed := by
  intro key
  obtain ⟨_, s', hget, rfl, -⟩ := (IndexedStore.get_unless h hfuel key).returns not_false
  exact ⟨s', hget⟩

end Ahead

section InStep
variable {crc32 : Checksum} {fuel capacity interval len : Nat} {records : List Record}
  {w : IndexedWorld crc32}

end InStep

section Maintained
variable {S ε : Type} {crc32 : Checksum} {fuel : Nat} {J : IndexedStore S → Prop}

/-- What a checkpoint and the end of a write keep of a store. -/
structure IndexMaintains [PageStore S ε] (fuel : Nat) (J : IndexedStore S → Prop) : Prop where
  pending : ∀ n, Maintains J (IndexedStore.setPending (ε := ε) n)
  record : ∀ r, Maintains J (IndexedStore.onIndex (applyRecordToIndex fuel r))
  sentinel : ∀ n, Maintains J (IndexedStore.onIndex (flushSentinel fuel n))

variable [PageStore S ε]

theorem IndexMaintains.checkpoint (h : IndexMaintains fuel J) :
    Maintains J (IndexedStore.checkpoint (S := S) fuel) :=
  maintains_get.bind (fun _ => (h.sentinel _).bind (fun _ => h.pending 0))

theorem IndexMaintains.applyAndAdvance (h : IndexMaintains fuel J) (r : Record) :
    Maintains J (IndexedStore.applyAndAdvance (S := S) fuel r) := by
  refine (h.record r).bind (fun _ => maintains_get.bind (fun _ => (h.pending _).bind (fun _ => ?_)))
  split
  · exact h.checkpoint
  · exact maintains_pure ()

theorem maintains_logDir (fuel : Nat) (logDir : SegmentDir) :
    IndexMaintains fuel (fun s : IndexedStore S => s.logDir = logDir) := by
  have hindex : ∀ x : BTree.Op S ε Unit,
      Maintains (fun s : IndexedStore S => s.logDir = logDir) (IndexedStore.onIndex x) := by
    intro x
    have htree : Maintains (fun _ => True) x := fun _ _ => trivial
    have hlog : Maintains (fun s : IndexedStore S => s.logDir = logDir)
        (x.focus IndexedStore.index (fun s index => { s with index })) :=
      htree.focus (fun _ _ => trivial) (fun _ _ hs _ => hs)
    exact hlog.mapErr _
  exact ⟨fun _ _ hs => hs, fun _ => hindex _, fun _ => hindex _⟩

theorem maintains_pages {I : S → Prop} (h : StoreMaintains I) (fuel : Nat) :
    IndexMaintains fuel (fun s : IndexedStore S => I s.index.store) := by
  have hindex : ∀ {x : BTree.Op S ε Unit}, Maintains (BufferPool.Under I) x →
      Maintains (fun s : IndexedStore S => I s.index.store) (IndexedStore.onIndex x) :=
    fun hx => (hx.focus (fun _ hs => hs) (fun _ _ _ hp => hp)).mapErr _
  constructor
  · exact fun _ _ hs => hs
  · exact fun r => hindex (BTree.maintains_insert h fuel _ _)
  · exact fun n => hindex ((BTree.maintains_insert h fuel _ _).bind (fun _ =>
      BTree.maintains_flush h))

theorem write_logDir (op : LogOp) (s : IndexedStore S) :
    (IndexedStore.write (ε := ε) crc32 fuel op s).2.logDir =
      (s.log.append crc32 .done s.logDir (op.record s.log.nextSeq)).2.2 := by
  have hbind : IndexedStore.write (ε := ε) crc32 fuel op s = Proc.bind _ _ s := rfl
  rw [hbind, Proc.bind, IndexedStore.onLog]
  rcases s.log.append crc32 .done s.logDir (op.record s.log.nextSeq) with ⟨o, log, logDir⟩
  cases o with
  | ok record => exact (maintains_logDir fuel logDir).applyAndAdvance record _ rfl
  | err e => rfl
  | panic => rfl

theorem write_pages {I : S → Prop} (h : StoreMaintains I) (fuel : Nat) (op : LogOp) :
    Maintains (fun s : IndexedStore S => I s.index.store) (IndexedStore.write crc32 fuel op) := by
  have happend : Maintains (fun s : IndexedStore S => I s.index.store)
      (IndexedStore.onLog (ε := ε)
        (fun dir log => log.append crc32 .done dir (op.record log.nextSeq))) := by
    intro s hs
    unfold IndexedStore.onLog
    split
    · exact hs
    · exact hs
    · exact hs
  exact happend.bind (fun r => (maintains_pages h fuel).applyAndAdvance r)

end Maintained

section Unmoved
variable {crc32 : Checksum}

/-- A page that is written makes the heap longer, also if its location is not logged. -/
theorem maintains_unmoved {heapLen : Nat} (hroom : heapLen + pageSize < 2 ^ 64) (dir : HeapDir) :
    StoreMaintains (fun s : HeapPageStore crc32 =>
      s.dir = dir ∧ s.heapLen = heapLen ∨ heapLen < s.heapLen) := by
  constructor
  · intro id page s hs
    have hle : heapLen ≤ s.heapLen := by
      rcases hs with ⟨-, hlen⟩ | hlt
      · exact hlen.ge
      · exact hlt.le
    have hgrown : heapLen < s.heapLen + pageSize := by
      rw [pageSize]
      omega
    have hwrite : PageStore.writePage id page s = HeapPageStore.writePage id page s := rfl
    rw [hwrite, HeapPageStore.writePage]
    split
    · rename_i hend
      rcases hs with ⟨-, hlen⟩ | hlt
      · rw [hlen] at hend
        exact absurd hroom hend.not_gt
      · exact .inr hlt
    · split
      · exact .inr hgrown
      · exact .inr hgrown
      · exact .inr hgrown
  · intro s hs
    have hallocate : PageStore.allocatePageId s = HeapPageStore.allocatePageId s := rfl
    rw [hallocate, HeapPageStore.allocatePageId]
    split
    · exact hs
    · exact hs

/-- A write that leaves the heap as long as it was has written no page. -/
theorem write_unmoved {fuel : Nat} {op : LogOp} {s s' : IndexedStore (HeapPageStore crc32)}
    (hok : IndexedStore.write crc32 fuel op s = (.ok (), s'))
    (hroom : s.index.store.heapLen + pageSize < 2 ^ 64)
    (hlen : s'.index.store.heapLen = s.index.store.heapLen) :
    s'.index.store.dir = s.index.store.dir := by
  have hkeeps : Maintains (fun t : IndexedStore (HeapPageStore crc32) =>
      t.index.store.dir = s.index.store.dir ∧ t.index.store.heapLen = s.index.store.heapLen ∨
        s.index.store.heapLen < t.index.store.heapLen) (IndexedStore.write crc32 fuel op) :=
    write_pages (maintains_unmoved hroom s.index.store.dir) fuel op
  have hkept := hkeeps s (.inl ⟨rfl, rfl⟩)
  rw [hok] at hkept
  rcases hkept with ⟨hdir, -⟩ | hlt
  · exact hdir
  · exact absurd hlen hlt.ne'

theorem IndexedWorld.Settled.put {fuel : Nat} {w w' : IndexedWorld crc32} {key value : Bytes}
    (h : w.Settled) (hstep : IndexedStep crc32 fuel w (.put key value) w')
    (hroom : w.store.index.store.heapLen + pageSize < 2 ^ 64)
    (hlen : w'.store.index.store.heapLen = w.store.index.store.heapLen) :
    w'.Settled ∧ w'.saved = w.saved := by
  cases hstep with
  | @put _ _ s hok =>
      have hwrite : IndexedStore.write crc32 fuel (.put key value) w.store = (.ok (), s) := hok
      have hdir : s.index.store.dir = w.saved := (write_unmoved hwrite hroom hlen).trans h
      have hsaved : (w.wrote s).saved = w.saved := by
        rw [IndexedWorld.wrote, IndexedStore.flushedDir]
        split
        · exact hdir
        · rfl
      exact ⟨hdir.trans hsaved.symm, hsaved⟩

end Unmoved

section FirstCheckpoint

/-- A log of one segment, and few page writes before and after the page store is opened
again. -/
def fewFiles {crc32 : Checksum} (w : IndexedWorld crc32) : Bool :=
  decide (w.store.logDir.entries.length = 1) && decide (w.store.index.capacity = 2) &&
    fewWrites w.store.index.store &&
    match HeapPageStore.openStore crc32 w.saved with
    | .ok pages => fewWrites pages
    | _ => false

theorem roomFor_of_fewFiles {crc32 : Checksum} {w : IndexedWorld crc32} (h : fewFiles w = true) :
    w.store.logDir.entries.length = 1 ∧ w.store.index.store.RoomFor w.store.index.capacity 2 ∧
      ∀ pages, HeapPageStore.openStore crc32 w.saved = .ok pages → pages.RoomFor 2 2 := by
  simp only [fewFiles, Bool.and_eq_true, decide_eq_true_eq] at h
  obtain ⟨⟨⟨hsegment, hcap⟩, hlive⟩, hreopened⟩ := h
  refine ⟨hsegment, ?_, ?_⟩
  · rw [hcap]
    exact fewWrites_roomFor hlive
  · intro pages hpages
    rw [hpages] at hreopened
    exact fewWrites_roomFor hreopened

set_option maxRecDepth 1000000 in
theorem firstCheckpoint_checked :
    (IndexedWorld.firstRun crc32Ieee (2 ^ 64) 2 5 [.put [1] [2], .checkpoint]).any (fun w =>
      fewFiles w && (w.exec (2 ^ 64) (.put [3] [4])).any (fun w' =>
        decide (w'.unflushed = 1) && decide (w'.store.logDir.entries.length = 1) &&
          decide (w'.store.index.store.heapLen = w.store.index.store.heapLen))) = true := by
  decide +kernel

/-- After a checkpoint the world has the directory of the store. -/
theorem settled_of_checkpoint {crc32 : Checksum} {fuel capacity interval : Nat}
    (events : List IndexedEvent) {w : IndexedWorld crc32}
    (h : IndexedWorld.firstRun crc32 fuel capacity interval (events ++ [.checkpoint]) = some w) :
    w.Settled ∧ w.unflushed = 0 := by
  rw [firstRun_snoc] at h
  obtain ⟨_, -, hexec⟩ := Option.bind_eq_some_iff.mp h
  obtain ⟨x, -, rfl⟩ := Option.map_eq_some_iff.mp hexec
  exact ⟨rfl, rfl⟩

theorem first_checkpoint_run : ∃ s₀ dir₀ w,
    IndexedStore.openWithOptions crc32Ieee (2 ^ 64) .empty 2 5 = (.ok s₀, dir₀) ∧
    Run (IndexedStep crc32Ieee (2 ^ 64)) ⟨s₀, IndexedDir.empty.index, 0, 5⟩
      [.put [1] [2], .checkpoint] w ∧ w.Settled ∧ w.unflushed = 0 ∧
    w.store.logDir.entries.length = 1 ∧
    w.store.index.store.RoomFor w.store.index.capacity 1 ∧
    ∀ pages, HeapPageStore.openStore crc32Ieee w.saved = .ok pages →
      pages.RoomFor 2 (w.unflushed + 1) := by
  obtain ⟨w, hw, hcheck⟩ := (Option.any_eq_true ..).mp firstCheckpoint_checked
  obtain ⟨hone, hlive, hroom⟩ := roomFor_of_fewFiles (Bool.and_eq_true_iff.mp hcheck).1
  obtain ⟨s₀, dir₀, hopen, hrun⟩ := run_of_firstRun hw
  obtain ⟨hsettled, hnone⟩ := settled_of_checkpoint [.put [1] [2]] hw
  refine ⟨s₀, dir₀, w, hopen, hrun, hsettled, hnone, hone, hlive.mono (Nat.le_succ 1), ?_⟩
  rw [hnone]
  exact fun pages hpages => (hroom pages hpages).mono (Nat.le_succ 1)

theorem first_checkpoint_small :
    ∀ e ∈ [IndexedEvent.put [1] [2], .checkpoint], ∀ op ∈ e.op, op.Small := by
  simp [IndexedEvent.op, LogOp.Small, LogOp.record, Record.put, Record.Modest]

end FirstCheckpoint

end Sietch
