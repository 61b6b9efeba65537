import Sietch.IndexedRecovery

/-! Crashes of an indexed store between two of its durable actions, the appends to the log and
the page writes. A flush writes the pages of the tree one by one, and `open` cannot tell the
pages of a half written tree from those of a whole one. -/
namespace Sietch
open ByteString Transition
open IndexedStore (Tracks Recoverable)
open Proc (Maintains)

/-- A page store whose process is killed when it has written so many more pages. -/
structure Mortal (S : Type) where
  store : S
  writesLeft : Nat

/-- The process ends at the write, and the page is not in the store. -/
instance {S ε : Type} [PageStore S ε] : PageStore (Mortal S) ε where
  readPage s := PageStore.readPage s.store
  writePage id page s :=
    if s.writesLeft = 0 then (.panic, s)
    else
      match PageStore.writePage id page s.store with
      | (o, store) => (o, ⟨store, s.writesLeft - 1⟩)
  allocatePageId s :=
    match PageStore.allocatePageId s.store with
    | (o, store) => (o, { s with store })

inductive IndexedCall where
  | put (key value : Bytes)
  | delete (key : Bytes)
  | checkpoint
  deriving DecidableEq, Repr

def IndexedCall.op : IndexedCall → Option LogOp
  | .put key value => some (.put key value)
  | .delete key => some (.delete key)
  | .checkpoint => none

def IndexedCall.exec {S ε : Type} [PageStore S ε] (crc32 : Checksum) (fuel : Nat) :
    IndexedCall → IndexedStore.Op S ε Unit
  | .put key value => IndexedStore.put crc32 fuel key value
  | .delete key => IndexedStore.delete crc32 fuel key
  | .checkpoint => IndexedStore.checkpoint fuel

def IndexedStore.mortal {S : Type} (s : IndexedStore S) (n : Nat) : IndexedStore (Mortal S) :=
  { logDir := s.logDir, log := s.log,
    index := ⟨⟨s.index.store, n⟩, s.index.capacity, s.index.frames, s.index.pageTable,
      s.index.clockHand⟩,
    reconciledRecords := s.reconciledRecords, recoveredFromTornTail := s.recoveredFromTornTail,
    checkpointInterval := s.checkpointInterval,
    pendingSinceCheckpoint := s.pendingSinceCheckpoint }

/-- The directories that a crash in the call leaves: after the append to the log, if there is
one, and `n` page writes, or as many as the call makes. -/
def IndexedStore.crashDir {crc32 : Checksum} (fuel : Nat) (s : IndexedStore (HeapPageStore crc32))
    (call : IndexedCall) (n : Nat) : IndexedDir :=
  let s' := (call.exec (ε := HeapPageStoreError) crc32 fuel (s.mortal n)).2
  ⟨s'.logDir, s'.index.store.store.dir⟩

section Unwritten
variable {crc32 : Checksum}

theorem maintains_unwritten (dir : HeapDir) : StoreMaintains
    (fun s : Mortal (HeapPageStore crc32) => s.writesLeft = 0 ∧ s.store.dir = dir) := by
  constructor
  · rintro id page s ⟨hzero, hdir⟩
    have hkilled : PageStore.writePage id page s = (.panic, s) := if_pos hzero
    rw [hkilled]
    exact ⟨hzero, hdir⟩
  · rintro s ⟨hzero, hdir⟩
    refine ⟨hzero, ?_⟩
    have hkept : (HeapPageStore.allocatePageId s.store).2.dir = s.store.dir := by
      unfold HeapPageStore.allocatePageId
      split
      · rfl
      · rfl
    exact hkept.trans hdir

/-- A crash before the first page write of a call leaves the tree as it was. -/
theorem crashDir_unwritten (fuel : Nat) (s : IndexedStore (HeapPageStore crc32))
    (call : IndexedCall) : (s.crashDir fuel call 0).index = s.index.store.dir := by
  have hkeeps : Maintains (fun s' : IndexedStore (Mortal (HeapPageStore crc32)) =>
      s'.index.store.writesLeft = 0 ∧ s'.index.store.store.dir = s.index.store.dir)
      (call.exec (ε := HeapPageStoreError) crc32 fuel) := by
    cases call with
    | put key value => exact write_pages (maintains_unwritten _) fuel (.put key value)
    | delete key => exact write_pages (maintains_unwritten _) fuel (.delete key)
    | checkpoint => exact (maintains_pages (maintains_unwritten _) fuel).checkpoint
  exact (hkeeps (s.mortal 0) ⟨rfl, rfl⟩).2

end Unwritten

theorem Holds.append_dir {crc32 : Checksum} {dir : SegmentDir} {log : Log} {records : List Record}
    {op : LogOp} (h : Holds crc32 dir (some log) records) (hfit : op.Fits) :
    Holds crc32 (log.append crc32 .done dir (op.record log.nextSeq)).2.2 none records ∨
      Holds crc32 (log.append crc32 .done dir (op.record log.nextSeq)).2.2 none
        (records ++ [op.record log.nextSeq]) := by
  by_cases hn : log.nextSeq + 1 < 2 ^ 64
  · obtain ⟨log', dir', happend, hholds, -⟩ := h.append hfit hn
    rw [happend]
    exact .inr hholds.rest
  · have hpanic : log.appendBatch crc32 .done dir [op] = (.panic, log, dir) := by
      rw [Log.appendBatch, List.length_singleton, if_pos (not_lt.mp hn)]
    rw [Log.append, Log.opOf_record, hpanic]
    exact .inl h.rest

section Crash
variable {crc32 : Checksum} {small : Prop} {fuel : Nat} {records : List Record}
  {w : IndexedWorld crc32} {dir : IndexedDir}

theorem Tracked.killed_write (h : Tracked small w records) {op : LogOp} (hfit : op.Fits)
    (n : Nat) :
    ∃ more, (more = [] ∨ more = [op]) ∧
      Holds crc32 (IndexedStore.write (ε := HeapPageStoreError) crc32 fuel op
        (w.store.mortal n)).2.logDir none (records ++ Log.numberRecords records.length more) := by
  obtain ⟨_, _, ht⟩ := h.tracks
  have happended := ht.log.append_dir hfit
  rw [ht.nextSeq] at happended
  rw [write_logDir, IndexedStore.mortal, ht.nextSeq]
  rcases happended with hkept | hlogged
  · refine ⟨[], .inl rfl, ?_⟩
    rw [Log.numberRecords, List.append_nil]
    exact hkept
  · exact ⟨[op], .inr rfl, hlogged⟩

theorem Tracked.killed_call (h : Tracked small w records) {call : IndexedCall}
    (hfit : ∀ op ∈ call.op, op.Fits) (n : Nat) :
    ∃ more, (more = [] ∨ more = call.op.toList) ∧
      Holds crc32 (w.store.crashDir fuel call n).log none
        (records ++ Log.numberRecords records.length more) := by
  cases call with
  | put key value => exact h.killed_write (hfit _ rfl) n
  | delete key => exact h.killed_write (hfit _ rfl) n
  | checkpoint =>
      obtain ⟨_, _, ht⟩ := h.tracks
      have hkept : (w.store.crashDir fuel .checkpoint n).log = w.store.logDir :=
        (maintains_logDir (ε := HeapPageStoreError) fuel w.store.logDir).checkpoint
          (w.store.mortal n) rfl
      refine ⟨[], .inl rfl, ?_⟩
      rw [hkept, Log.numberRecords, List.append_nil]
      exact ht.log.rest

theorem Holds.seq_limit {dir : SegmentDir} {log : Option Log}
    (h : Holds crc32 dir log records) : nextSeqOf records < 2 ^ 64 := by
  cases h with
  | fresh => decide
  | resting hdisk => exact hdisk.next
  | live hr => exact hr.disk.next

def SamePages (crc32 : Checksum) (d d' : HeapDir) : Prop :=
  HeapPageStore.openStore crc32 d = HeapPageStore.openStore crc32 d'

theorem IndexedStore.Recoverable.extended {sentinel : Option Nat} {dir' : IndexedDir}
    {more : List LogOp} {log : Option Log} (h : Recoverable crc32 small records sentinel dir')
    (hlog : Holds crc32 dir.log log (records ++ Log.numberRecords records.length more))
    (hsame : SamePages crc32 dir.index dir'.index) :
    Recoverable crc32 small (records ++ Log.numberRecords records.length more) sentinel dir := by
  have hnumbered := h.numbered.append more
  refine ⟨⟨log, hlog⟩, hnumbered, ?_, ?_, ?_⟩
  · rw [← hnumbered.nextSeq]
    exact hlog.seq_limit
  · rw [List.take_append_of_le_length h.kept]
    obtain ⟨m, hstocks, hindexes⟩ := h.index
    refine ⟨m, ?_, hindexes⟩
    intro l
    obtain ⟨s, hopen, hstocked⟩ := hstocks l
    exact ⟨s, hsame.trans hopen, hstocked⟩
  · rw [List.length_append]
    exact h.kept.trans (Nat.le_add_right _ _)

theorem numberRecords_modest {ops : List LogOp} (h : ∀ o ∈ ops, o.Small) (seq : Nat) :
    ∀ r ∈ Log.numberRecords seq ops, r.Modest := by
  induction ops generalizing seq with
  | nil =>
      intro r hr
      cases hr
  | cons o ops ih =>
      obtain ⟨ho, hops⟩ := List.forall_mem_cons.mp h
      exact List.forall_mem_cons.mpr ⟨ho.modest seq, ih hops (seq + 1)⟩

end Crash

end Sietch
