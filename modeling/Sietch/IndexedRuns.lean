import Sietch.IndexedSpec

/-! Whole runs of an indexed store with reopens, next to a plain store that is given the same
writes. -/
namespace Sietch
open ByteString Transition
open IndexedStore (Tracks Recoverable flushedDir)

/-- An indexed store with the directory of its tree as the last flush left it, the number of
records appended since, and the checkpoint interval that it was opened with. -/
structure IndexedWorld (crc32 : Checksum) where
  store : IndexedStore (HeapPageStore crc32)
  saved : HeapDir
  unflushed : Nat
  interval : Nat

/-- Reads come with what they return. -/
inductive IndexedEvent where
  | put (key value : Bytes)
  | delete (key : Bytes)
  | checkpoint
  | get (key : Bytes) (r : Option Bytes)
  | scan (keyPrefix : Bytes) (r : List Entry)
  | reopen (capacity interval : Nat)
  deriving DecidableEq, Repr

def IndexedEvent.op : IndexedEvent → Option LogOp
  | .put key value => some (.put key value)
  | .delete key => some (.delete key)
  | _ => none

def LogOp.call : LogOp → Call
  | .put key value => .put key value
  | .delete key => .delete key

theorem LogOp.ops_call (op : LogOp) : op.call.ops = [op] := by
  cases op with
  | put key value => rfl
  | delete key => rfl

def IndexedEvent.plain (e : IndexedEvent) : Option StoreEvent := e.op.map (.write ·.call)

namespace IndexedWorld
variable {crc32 : Checksum}

/-- The world after a put or a delete. A checkpoint leaves no record pending. -/
def wrote (w : IndexedWorld crc32) (s : IndexedStore (HeapPageStore crc32)) : IndexedWorld crc32 :=
  ⟨s, flushedDir (HeapPageStore.durable crc32) w.saved s,
    if s.pendingSinceCheckpoint = 0 then 0 else w.unflushed + 1, w.interval⟩

/-- The world after a reopen, which flushes the tree if it has applied a record. -/
def reopened (w : IndexedWorld crc32) (s : IndexedStore (HeapPageStore crc32)) (interval : Nat) :
    IndexedWorld crc32 :=
  ⟨s, if s.reconciledRecords = 0 then w.saved else s.index.store.dir,
    if s.reconciledRecords = 0 then w.unflushed else 0, interval⟩

end IndexedWorld

/-- One call that returns Ok. A reopen finds the log as it is, and the tree as it was flushed
last. -/
inductive IndexedStep (crc32 : Checksum) (fuel : Nat) :
    IndexedWorld crc32 → IndexedEvent → IndexedWorld crc32 → Prop where
  | put {w key value s} : IndexedStore.put crc32 fuel key value w.store = (.ok (), s) →
      IndexedStep crc32 fuel w (.put key value) (w.wrote s)
  | delete {w key s} : IndexedStore.delete crc32 fuel key w.store = (.ok (), s) →
      IndexedStep crc32 fuel w (.delete key) (w.wrote s)
  | checkpoint {w s} : IndexedStore.checkpoint fuel w.store = (.ok (), s) →
      IndexedStep crc32 fuel w .checkpoint ⟨s, s.index.store.dir, 0, w.interval⟩
  | get {w key r s} : IndexedStore.get fuel key w.store = (.ok r, s) →
      IndexedStep crc32 fuel w (.get key r) { w with store := s }
  | scan {w keyPrefix r s} : IndexedStore.scan fuel keyPrefix w.store = (.ok r, s) →
      IndexedStep crc32 fuel w (.scan keyPrefix r) { w with store := s }
  | reopen {w capacity interval s dir} :
      IndexedStore.openWithOptions crc32 fuel ⟨w.store.logDir, w.saved⟩ capacity interval =
        (.ok s, dir) →
      IndexedStep crc32 fuel w (.reopen capacity interval) (w.reopened s interval)

section Computed
variable {crc32 : Checksum} {fuel : Nat}
open Outcome (returned returned_eq_some)

/-- The step, computed. A read must return what the event says. -/
def IndexedWorld.exec (fuel : Nat) (w : IndexedWorld crc32) :
    IndexedEvent → Option (IndexedWorld crc32)
  | .put key value =>
      (returned (IndexedStore.put crc32 fuel key value w.store)).map (fun x => w.wrote x.2)
  | .delete key => (returned (IndexedStore.delete crc32 fuel key w.store)).map (fun x => w.wrote x.2)
  | .checkpoint => (returned (IndexedStore.checkpoint fuel w.store)).map
      (fun x => ⟨x.2, x.2.index.store.dir, 0, w.interval⟩)
  | .get key r => (returned (IndexedStore.get fuel key w.store)).bind
      (fun x => if x.1 = r then some { w with store := x.2 } else none)
  | .scan keyPrefix r => (returned (IndexedStore.scan fuel keyPrefix w.store)).bind
      (fun x => if x.1 = r then some { w with store := x.2 } else none)
  | .reopen capacity interval =>
      (returned (IndexedStore.openWithOptions crc32 fuel ⟨w.store.logDir, w.saved⟩ capacity
        interval)).map (fun x => w.reopened x.1 interval)

theorem IndexedWorld.exec_step {w w' : IndexedWorld crc32} {e : IndexedEvent}
    (h : w.exec fuel e = some w') : IndexedStep crc32 fuel w e w' := by
  cases e with
  | put key value =>
      obtain ⟨x, hx, rfl⟩ := Option.map_eq_some_iff.mp h
      exact .put (returned_eq_some.mp hx)
  | delete key =>
      obtain ⟨x, hx, rfl⟩ := Option.map_eq_some_iff.mp h
      exact .delete (returned_eq_some.mp hx)
  | checkpoint =>
      obtain ⟨x, hx, rfl⟩ := Option.map_eq_some_iff.mp h
      exact .checkpoint (returned_eq_some.mp hx)
  | get key r =>
      obtain ⟨x, hx, hr⟩ := Option.bind_eq_some_iff.mp h
      obtain ⟨rfl, hw⟩ := Option.ite_none_right_eq_some.mp hr
      cases hw
      exact .get (returned_eq_some.mp hx)
  | scan keyPrefix r =>
      obtain ⟨x, hx, hr⟩ := Option.bind_eq_some_iff.mp h
      obtain ⟨rfl, hw⟩ := Option.ite_none_right_eq_some.mp hr
      cases hw
      exact .scan (returned_eq_some.mp hx)
  | reopen capacity interval =>
      obtain ⟨x, hx, rfl⟩ := Option.map_eq_some_iff.mp h
      exact .reopen (returned_eq_some.mp hx)

end Computed

def IndexedEvent.recordsAfter (records : List Record) (e : IndexedEvent) : List Record :=
  records ++ Log.numberRecords records.length e.op.toList

/-- A write of at most 166 bytes, which leaves room for the namespace and the tag. -/
def LogOp.Small (op : LogOp) : Prop := (op.record 0).Modest

theorem LogOp.Small.modest {op : LogOp} (h : op.Small) (n : Nat) : (op.record n).Modest := by
  cases op with
  | put key value => exact h
  | delete key => exact h

section Counters
variable {crc32 : Checksum}

/-- No page id from here on is needed for `open` to apply `n` records. -/
def idsFor (next n : Nat) : Nat := next + 1 + (n + 3) * (next + 1 + (n + 3) + 2)

/-- The page writes that are enough for `open` to apply `n` records, and for a read. -/
def writesFor (next capacity n : Nat) : Nat :=
  (n + 3) * (3 * (next + 1 + (n + 3)) + 5) + capacity + 2

theorem idsFor_mono {next n n' : Nat} (h : n ≤ n') : idsFor next n ≤ idsFor next n' := by
  have hmul := Nat.mul_le_mul (show n + 3 ≤ n' + 3 by omega)
    (show next + 1 + (n + 3) + 2 ≤ next + 1 + (n' + 3) + 2 by omega)
  unfold idsFor
  omega

theorem writesFor_mono {next capacity n n' : Nat} (h : n ≤ n') :
    writesFor next capacity n ≤ writesFor next capacity n' := by
  have hmul := Nat.mul_le_mul (show n + 3 ≤ n' + 3 by omega)
    (show 3 * (next + 1 + (n + 3)) + 5 ≤ 3 * (next + 1 + (n' + 3)) + 5 by omega)
  unfold writesFor
  omega

/-- The counters of the page store are so far from their ends that `open` with this capacity
can apply `n` records. -/
structure HeapPageStore.RoomFor (capacity n : Nat) (pages : HeapPageStore crc32) : Prop where
  frames : 2 ≤ capacity
  ids : idsFor pages.nextPageId n < 2 ^ 64
  heap : pages.heapLen + pageSize * writesFor pages.nextPageId capacity n < 2 ^ 64
  log : pages.locationLog.nextSeq + writesFor pages.nextPageId capacity n < 2 ^ 64

namespace HeapPageStore.RoomFor
variable {capacity n n' : Nat} {pages : HeapPageStore crc32}

theorem mono (h : pages.RoomFor capacity n') (hle : n ≤ n') : pages.RoomFor capacity n := by
  have hwrites : writesFor pages.nextPageId capacity n ≤ writesFor pages.nextPageId capacity n' :=
    writesFor_mono hle
  constructor
  · exact h.frames
  · exact (idsFor_mono hle).trans_lt h.ids
  · exact (Nat.add_le_add_left (Nat.mul_le_mul_left pageSize hwrites) _).trans_lt h.heap
  · exact (Nat.add_le_add_left hwrites _).trans_lt h.log

theorem spacious (h : pages.RoomFor capacity n) :
    Spacious (HeapPageStore.durable crc32).toNodeStore capacity (n + 3) capacity pages :=
  IndexedStore.spacious_heap h.frames h.ids le_rfl h.heap h.log

end HeapPageStore.RoomFor
end Counters

section Steps
variable {crc32 : Checksum} {small : Prop} {fuel n : Nat} {w w' : IndexedWorld crc32}
  {records : List Record} {s : IndexedStore (HeapPageStore crc32)}

/-- The store has the records, and the world tells what is in its directory. -/
structure Tracked (small : Prop) (w : IndexedWorld crc32) (records : List Record) : Prop where
  tracks : ∃ capacity sentinel,
    Tracks crc32 (HeapPageStore.durable crc32) small True capacity 0 0 records sentinel w.saved w.store
  unflushed : w.unflushed = w.store.pendingSinceCheckpoint
  interval : w.store.checkpointInterval = max w.interval 1
  modest : small → ∀ r ∈ records, r.Modest

theorem Tracked.write (h : Tracked small w records) (hfuel : 2 ^ 64 ≤ fuel) {op : LogOp}
    (hop : small → op.Small) (hok : IndexedStore.write crc32 fuel op w.store = (.ok (), s)) :
    op.Fits ∧ Tracked small (w.wrote s) (records ++ [op.record records.length]) := by
  obtain ⟨capacity, sentinel, ht⟩ := h.tracks
  have hmodest : small → (op.record records.length).Modest := fun hsmall => (hop hsmall).modest _
  obtain ⟨hfit, hint, hpending, sentinel', ht'⟩ :=
    ((ht.free (0 + 2) (0 + capacity)).write hfuel hmodest (.inl trivial)).ok hok
  refine ⟨hfit, ⟨capacity, sentinel', ht'⟩, ?_, hint.trans h.interval, fun hsmall => ?_⟩
  · rw [IndexedWorld.wrote, h.unflushed]
    rw [hpending]
    split
    · rfl
    · rfl
  · exact List.forall_mem_append.mpr
      ⟨h.modest hsmall, List.forall_mem_singleton.mpr (hmodest hsmall)⟩

theorem Tracked.checkpoint (h : Tracked small w records) (hfuel : 2 ^ 64 ≤ fuel)
    (hok : IndexedStore.checkpoint fuel w.store = (.ok (), s)) :
    Tracked small ⟨s, s.index.store.dir, 0, w.interval⟩ records := by
  obtain ⟨capacity, sentinel, ht⟩ := h.tracks
  obtain ⟨hzero, hint, ht'⟩ :=
    ((ht.free (0 + 1) (0 + capacity)).checkpoint hfuel (.inl trivial)).ok hok
  exact ⟨⟨capacity, _, ht'⟩, hzero.symm, hint.trans h.interval, h.modest⟩

theorem Tracked.get (h : Tracked small w records) (hfuel : 2 ^ 64 ≤ fuel) {key : Bytes}
    {r : Option Bytes} (hok : IndexedStore.get fuel key w.store = (.ok r, s)) :
    r = (lastValue records key).join ∧ Tracked small { w with store := s } records := by
  obtain ⟨capacity, sentinel, ht⟩ := h.tracks
  obtain ⟨rfl, hpending, hint, ht'⟩ := ((ht.free (0 + 1) 0).get hfuel key).ok hok
  exact ⟨rfl, ⟨capacity, sentinel, ht'⟩, h.unflushed.trans hpending.symm, hint.trans h.interval,
    h.modest⟩

theorem Tracked.scan (h : Tracked small w records) (hfuel : 2 ^ 64 ≤ fuel) {keyPrefix : Bytes}
    {r : List Entry} (hok : IndexedStore.scan fuel keyPrefix w.store = (.ok r, s)) :
    (SortedMap.Ascending r ∧
      ∀ k v, (k, v) ∈ r ↔ keyPrefix <+: k ∧ (lastValue records k).join = some v) ∧
    Tracked small { w with store := s } records := by
  obtain ⟨capacity, sentinel, ht⟩ := h.tracks
  obtain ⟨hasc, hmem, hpending, hint, ht'⟩ := (ht.scan hfuel keyPrefix (.inl trivial)).ok hok
  exact ⟨⟨hasc, hmem⟩, ⟨capacity, sentinel, ht'⟩, h.unflushed.trans hpending.symm,
    hint.trans h.interval, h.modest⟩

theorem Tracked.ready (h : Tracked small w records)
    (hroom : w.store.index.store.RoomFor w.store.index.capacity n) :
    ∃ sentinel, Tracks crc32 (HeapPageStore.durable crc32) small False w.store.index.capacity
      (n + 3) w.store.index.capacity records sentinel w.saved w.store := by
  obtain ⟨capacity, sentinel, ht⟩ := h.tracks
  obtain ⟨m, hserves, hi⟩ := ht.index
  have hcap : w.store.index.capacity = capacity := ht.capacity_eq
  subst hcap
  exact ⟨sentinel, { ht with index := ⟨m, hserves.ready hroom.spacious, hi⟩ }⟩

theorem Tracked.gets (h : Tracked small w records) (hfuel : 2 ^ 64 ≤ fuel)
    (hroom : w.store.index.store.RoomFor w.store.index.capacity n) (key : Bytes) :
    ∃ s', IndexedStore.get fuel key w.store = (.ok (lastValue records key).join, s') := by
  obtain ⟨sentinel, ht⟩ := h.ready hroom
  obtain ⟨_, s', hget, rfl, -⟩ := (ht.get hfuel key).returns not_false
  exact ⟨s', hget⟩

theorem Tracked.scans (h : Tracked small w records) (hfuel : 2 ^ 64 ≤ fuel)
    (hroom : w.store.index.store.RoomFor w.store.index.capacity n) (keyPrefix : Bytes) :
    ∃ r s', IndexedStore.scan fuel keyPrefix w.store = (.ok r, s') := by
  obtain ⟨capacity, sentinel, ht⟩ := h.tracks
  have hcap : w.store.index.capacity = capacity := ht.capacity_eq
  rw [hcap] at hroom
  have hspace := hroom.spacious.mono (Nat.le_add_left 1 (n + 2)) (Nat.zero_le capacity)
  obtain ⟨r, s', hscan, -⟩ := (ht.scan (E := False) hfuel keyPrefix (.inr hspace)).returns not_false
  exact ⟨r, s', hscan⟩

theorem Tracked.recoverable (h : Tracked small w records) :
    ∃ sentinel, Recoverable crc32 small records sentinel ⟨w.store.logDir, w.saved⟩ ∧
      records.length - sentinel.getD 0 = w.unflushed := by
  obtain ⟨_, sentinel, ht⟩ := h.tracks
  refine ⟨sentinel, ⟨⟨_, ht.log⟩, ht.numbered, ht.limit, ht.saved, ?_⟩, ?_⟩
  · rw [ht.pending]
    exact Nat.le_add_right _ _
  · rw [h.unflushed, ht.pending, Nat.add_sub_cancel_left]

theorem Tracked.reopen (h : Tracked small w records) (hfuel : 2 ^ 64 ≤ fuel)
    {capacity interval : Nat} {dir : IndexedDir}
    (hopen : IndexedStore.openWithOptions crc32 fuel ⟨w.store.logDir, w.saved⟩ capacity interval =
      (.ok s, dir)) :
    s.reconciledRecords = w.unflushed ∧ Tracked small (w.reopened s interval) records := by
  obtain ⟨sentinel, hrec, hsince⟩ := h.recoverable
  obtain ⟨-, hint, hzero, hcount, sentinel', ht'⟩ := (hrec.opens interval 0 0 hfuel (.inl trivial)
    (fun r hr hsmall => h.modest hsmall r (List.mem_of_mem_drop hr))).ok hopen
  have hsame : s.reconciledRecords = w.unflushed := hcount.trans hsince
  refine ⟨hsame, ⟨capacity, sentinel', ht'⟩, ?_, hint, h.modest⟩
  rw [IndexedWorld.reopened, hzero]
  split
  · rename_i hnone
    rw [← hsame, hnone]
  · rfl

theorem Tracked.step (h : Tracked small w records) (hfuel : 2 ^ 64 ≤ fuel) {e : IndexedEvent}
    (hsmall : small → ∀ op ∈ e.op, op.Small) (hstep : IndexedStep crc32 fuel w e w') :
    Tracked small w' (e.recordsAfter records) := by
  have hnone (hop : e.op = none) (h' : Tracked small w' records) :
      Tracked small w' (e.recordsAfter records) := by
    rw [IndexedEvent.recordsAfter, hop, Option.toList_none, Log.numberRecords, List.append_nil]
    exact h'
  cases hstep with
  | put hok => exact (h.write hfuel (fun hs => hsmall hs _ rfl) hok).2
  | delete hok => exact (h.write hfuel (fun hs => hsmall hs _ rfl) hok).2
  | checkpoint hok => exact hnone rfl (h.checkpoint hfuel hok)
  | get hok => exact hnone rfl (h.get hfuel hok).2
  | scan hok => exact hnone rfl (h.scan hfuel hok).2
  | reopen hopen => exact hnone rfl (h.reopen hfuel hopen).2

end Steps

section Agreement
variable {crc32 : Checksum} {fuel : Nat} {w : IndexedWorld crc32} {plain : StoreWorld}
  {records : List Record}

/-- The two stores have the same records. -/
structure Agrees (w : IndexedWorld crc32) (plain : StoreWorld) (records : List Record) : Prop where
  tracked : Tracked False w records
  inv : plain.Inv crc32 records
  live : Live records plain.store

theorem Agrees.write (h : Agrees w plain records) (hfuel : 2 ^ 64 ≤ fuel) (op : LogOp)
    {s : IndexedStore (HeapPageStore crc32)}
    (hok : IndexedStore.write crc32 fuel op w.store = (.ok (), s)) :
    ∃ plain', StoreStep crc32 plain (.write op.call) plain' ∧
      Agrees (w.wrote s) plain' (records ++ [op.record records.length]) := by
  obtain ⟨hfit, htracked⟩ := h.tracked.write hfuel (fun hno => hno.elim) hok
  obtain ⟨_, _, ht⟩ := h.tracked.tracks
  obtain ⟨_, _, ht'⟩ := htracked.tracks
  have hseq : plain.store.log.nextSeq = records.length := by
    rw [h.inv.disk.nextSeq, ht.numbered.nextSeq]
  have hlimit := ht'.limit
  rw [List.length_append, List.length_singleton] at hlimit
  have hfits : ∀ o ∈ op.call.ops, o.Fits := by
    rw [op.ops_call]
    exact List.forall_mem_singleton.mpr hfit
  have hn : plain.store.log.nextSeq + op.call.ops.length < 2 ^ 64 := by
    rw [op.ops_call, hseq]
    exact hlimit
  obtain ⟨plain', hstep⟩ := h.inv.writes hfits hn
  have hinv := hstep.inv h.inv
  have hlive := h.live.wrote (Store.write_append (StoreWorld.exec_write hstep.2).1).2
  rw [StoreEvent.recordsAfter, op.ops_call, hseq] at hinv
  rw [op.ops_call, hseq] at hlive
  exact ⟨plain', hstep, htracked, hinv, hlive⟩

theorem agrees_simulates (crc32 : Checksum) (hfuel : 2 ^ 64 ≤ fuel) :
    Simulates (IndexedStep crc32 fuel) (StoreStep crc32) IndexedEvent.plain
      (fun w plain => ∃ records, Agrees w plain records) := by
  rintro w plain e w' ⟨records, h⟩ hstep
  have hread (hop : e.op = none) : Agrees w' plain (e.recordsAfter records) := by
    have htracked := h.tracked.step hfuel (fun hno => hno.elim) hstep
    rw [IndexedEvent.recordsAfter, hop, Option.toList_none, Log.numberRecords, List.append_nil]
      at htracked ⊢
    exact ⟨htracked, h.inv, h.live⟩
  cases hstep with
  | put hok =>
      obtain ⟨plain', hplain, h'⟩ := h.write hfuel (.put _ _) hok
      exact .inl ⟨_, plain', rfl, hplain, _, h'⟩
  | delete hok =>
      obtain ⟨plain', hplain, h'⟩ := h.write hfuel (.delete _) hok
      exact .inl ⟨_, plain', rfl, hplain, _, h'⟩
  | checkpoint hok => exact .inr ⟨rfl, _, hread rfl⟩
  | get hok => exact .inr ⟨rfl, _, hread rfl⟩
  | scan hok => exact .inr ⟨rfl, _, hread rfl⟩
  | reopen hopen => exact .inr ⟨rfl, _, hread rfl⟩

end Agreement

def IndexedDir.empty : IndexedDir := ⟨.empty, ⟨[], .empty⟩⟩

theorem recoverable_empty (crc32 : Checksum) (small : Prop) :
    Recoverable crc32 small [] none IndexedDir.empty :=
  ⟨⟨none, .fresh⟩, rfl, by decide, stocksIndex_fresh (HeapPageStore.durable crc32) small, le_rfl⟩

theorem tracked_first {crc32 : Checksum} {fuel capacity interval : Nat} (small : Prop)
    (hfuel : 2 ^ 64 ≤ fuel) {s : IndexedStore (HeapPageStore crc32)} {dir : IndexedDir}
    (hopen : IndexedStore.openWithOptions crc32 fuel .empty capacity interval = (.ok s, dir)) :
    s.reconciledRecords = 0 ∧ Tracked small ⟨s, IndexedDir.empty.index, 0, interval⟩ [] := by
  obtain ⟨-, hint, hzero, hcount, sentinel, ht⟩ := ((recoverable_empty crc32 small).opens interval 0
    0 hfuel (.inl trivial) (fun r hr => by cases hr)).ok hopen
  have hnone : s.reconciledRecords = 0 := hcount
  rw [if_pos hnone] at ht
  exact ⟨hnone, ⟨capacity, sentinel, ht⟩, hzero.symm, hint, fun _ r hr => by cases hr⟩

theorem spacious_first {crc32 : Checksum} {capacity calls spare : Nat} (hcap : 2 ≤ capacity)
    (hcalls : calls ≤ 10) (hspare : spare ≤ 2 ^ 32) (pages : HeapPageStore crc32)
    (hpages : HeapPageStore.openStore crc32 IndexedDir.empty.index = .ok pages) :
    Spacious (HeapPageStore.durable crc32).toNodeStore capacity calls spare pages := by
  have hids := Nat.mul_le_mul hcalls (show 2 + calls + 2 ≤ 14 by omega)
  have hroom := Nat.mul_le_mul hcalls (show 3 * (2 + calls) + 5 ≤ 41 by omega)
  refine IndexedStore.spacious_fresh hpages hcap (by omega) ?_
  rw [pageSize]
  omega

/-- An indexed store agrees with a plain store that is given the same writes: whatever was
reopened in between, `get` and `scan` return the same, and they do return if the page store has
room. A reopen applies the records appended since the last flush of the tree, which are fewer
than the checkpoint interval. -/
theorem indexed_store_agrees {crc32 : Checksum} {fuel capacity interval : Nat}
    (hfuel : 2 ^ 64 ≤ fuel) {s₀ : IndexedStore (HeapPageStore crc32)} {dir₀ : IndexedDir}
    (hopen : IndexedStore.openWithOptions crc32 fuel .empty capacity interval = (.ok s₀, dir₀))
    {events : List IndexedEvent} {w : IndexedWorld crc32}
    (hrun : Run (IndexedStep crc32 fuel) ⟨s₀, IndexedDir.empty.index, 0, interval⟩ events w) :
    s₀.reconciledRecords = 0 ∧
    ∃ plain, Run (StoreStep crc32) StoreWorld.start (events.filterMap IndexedEvent.plain) plain ∧
      (∀ key r w', IndexedStep crc32 fuel w (.get key r) w' → r = plain.store.get key) ∧
      (∀ keyPrefix r w', IndexedStep crc32 fuel w (.scan keyPrefix r) w' →
        r = plain.store.scan keyPrefix) ∧
      (w.store.index.store.RoomFor w.store.index.capacity 0 →
        (∀ key, ∃ w', IndexedStep crc32 fuel w (.get key (plain.store.get key)) w') ∧
        ∀ keyPrefix, ∃ w',
          IndexedStep crc32 fuel w (.scan keyPrefix (plain.store.scan keyPrefix)) w') ∧
      ∀ capacity' interval' w', IndexedStep crc32 fuel w (.reopen capacity' interval') w' →
        w'.store.reconciledRecords = w.unflushed ∧ w.unflushed < max 1 w.interval := by
  obtain ⟨hnone, hfirst⟩ := tracked_first False hfuel hopen
  obtain ⟨plain, hplain, records, h⟩ := (agrees_simulates crc32 hfuel).run hrun
    ⟨[], hfirst, StoreWorld.start_inv crc32, fun _ => rfl⟩
  have hlive : ∀ key, (lastValue records key).join = plain.store.get key := fun key => by
    rw [IndexedStore.lastValue_join, h.live]
  have hscan : ∀ keyPrefix r w', IndexedStep crc32 fuel w (.scan keyPrefix r) w' →
      r = plain.store.scan keyPrefix := by
    rintro keyPrefix r w' ⟨⟩
    rename_i s hok
    obtain ⟨hasc, hmem⟩ := (h.tracked.scan hfuel hok).1
    apply hasc.eq_of_mem (Store.scan_ascending plain.store keyPrefix)
    rintro ⟨k, v⟩
    rw [hmem, hlive, Store.mem_scan]
  refine ⟨hnone, plain, hplain, ?_, hscan, fun hroom => ⟨?_, ?_⟩, ?_⟩
  · rintro key r w' ⟨⟩
    rename_i s hok
    rw [(h.tracked.get hfuel hok).1, hlive]
  · intro key
    obtain ⟨s, hget⟩ := h.tracked.gets hfuel hroom key
    rw [hlive] at hget
    exact ⟨_, .get hget⟩
  · intro keyPrefix
    obtain ⟨r, s, hok⟩ := h.tracked.scans hfuel hroom keyPrefix
    rw [← hscan keyPrefix r _ (.scan hok)]
    exact ⟨_, .scan hok⟩
  · rintro capacity' interval' w' ⟨⟩
    rename_i s dir hok
    obtain ⟨_, _, ht⟩ := h.tracked.tracks
    refine ⟨(h.tracked.reopen hfuel hok).1, ?_⟩
    rw [h.tracked.unflushed, max_comm, ← h.tracked.interval]
    exact ht.interval

def IndexedWorld.firstRun (crc32 : Checksum) (fuel capacity interval : Nat)
    (events : List IndexedEvent) : Option (IndexedWorld crc32) :=
  (Outcome.returned (IndexedStore.openWithOptions crc32 fuel .empty capacity interval)).bind
    (fun x => events.foldlM (IndexedWorld.exec fuel) ⟨x.1, IndexedDir.empty.index, 0, interval⟩)

theorem firstRun_snoc {crc32 : Checksum} {fuel capacity interval : Nat}
    (events : List IndexedEvent) (e : IndexedEvent) :
    IndexedWorld.firstRun crc32 fuel capacity interval (events ++ [e]) =
      (IndexedWorld.firstRun crc32 fuel capacity interval events).bind (·.exec fuel e) := by
  rw [IndexedWorld.firstRun, IndexedWorld.firstRun, Option.bind_assoc]
  congr 1
  funext x
  rw [List.foldlM_append]
  congr 1
  funext w
  simp

theorem run_of_firstRun {crc32 : Checksum} {fuel capacity interval : Nat}
    {events : List IndexedEvent} {w : IndexedWorld crc32}
    (h : IndexedWorld.firstRun crc32 fuel capacity interval events = some w) : ∃ s₀ dir₀,
    IndexedStore.openWithOptions crc32 fuel .empty capacity interval = (.ok s₀, dir₀) ∧
    Run (IndexedStep crc32 fuel) ⟨s₀, IndexedDir.empty.index, 0, interval⟩ events w := by
  obtain ⟨x, hx, hrun⟩ := Option.bind_eq_some_iff.mp h
  refine ⟨x.1, x.2, Outcome.returned_eq_some.mp hx, ?_⟩
  have hcomputed : Run (Computed (fun _ => True) (IndexedWorld.exec fuel))
      ⟨x.1, IndexedDir.empty.index, 0, interval⟩ events w := .of_foldlM (fun _ _ => trivial) hrun
  exact hcomputed.mono (fun _ _ _ hstep => IndexedWorld.exec_step hstep.2)

def readAfterReopen : List IndexedEvent :=
  [.put [1] [2], .reopen 2 5, .get [1] (some [2]), .scan [] [([1], [2])]]

def fewWrites {crc32 : Checksum} (pages : HeapPageStore crc32) : Bool :=
  decide (pages.nextPageId = 2) && decide (pages.heapLen ≤ 16 * pageSize) &&
    decide (pages.locationLog.nextSeq ≤ 16)

theorem fewWrites_roomFor {crc32 : Checksum} {pages : HeapPageStore crc32}
    (h : fewWrites pages = true) : pages.RoomFor 2 2 := by
  simp only [fewWrites, Bool.and_eq_true, decide_eq_true_eq] at h
  obtain ⟨⟨hnext, hheap⟩, hlog⟩ := h
  have hsize : 16 * pageSize + pageSize * writesFor 2 2 2 < 2 ^ 64 := by decide
  have hwrites : 16 + writesFor 2 2 2 < 2 ^ 64 := by decide
  constructor
  · exact le_rfl
  · rw [hnext]
    decide
  · rw [hnext]
    omega
  · rw [hnext]
    omega

set_option maxRecDepth 1000000 in
theorem readAfterReopen_runs :
    (IndexedWorld.firstRun crc32Ieee (2 ^ 64) 2 5 readAfterReopen).any (fun w =>
      decide (w.store.reconciledRecords = 1) && decide (w.store.index.capacity = 2) &&
        fewWrites w.store.index.store) = true := by
  decide +kernel

/-- The reads after the reopen return what the plain store returns, and so does the next. -/
theorem indexed_store_agrees_reopened : ∃ (s₀ : IndexedStore (HeapPageStore crc32Ieee))
    (dir₀ : IndexedDir) (w w' : IndexedWorld crc32Ieee) (plain : StoreWorld),
    IndexedStore.openWithOptions crc32Ieee (2 ^ 64) .empty 2 5 = (.ok s₀, dir₀) ∧
    Run (IndexedStep crc32Ieee (2 ^ 64)) ⟨s₀, IndexedDir.empty.index, 0, 5⟩ readAfterReopen w ∧
    w.store.reconciledRecords = 1 ∧
    Run (StoreStep crc32Ieee) StoreWorld.start
      (readAfterReopen.filterMap IndexedEvent.plain) plain ∧
    IndexedStep crc32Ieee (2 ^ 64) w (.scan [1] (plain.store.scan [1])) w' := by
  have hfuel : 2 ^ 64 ≤ 2 ^ 64 := le_rfl
  obtain ⟨w, hw, hcheck⟩ := (Option.any_eq_true ..).mp readAfterReopen_runs
  simp only [Bool.and_eq_true, decide_eq_true_eq] at hcheck
  obtain ⟨⟨hcount, hcap⟩, hfew⟩ := hcheck
  obtain ⟨s₀, dir₀, hopen, hrun⟩ := run_of_firstRun hw
  have hroom : w.store.index.store.RoomFor w.store.index.capacity 0 := by
    rw [hcap]
    exact (fewWrites_roomFor hfew).mono (Nat.zero_le 2)
  obtain ⟨-, plain, hplain, -, -, hreads, -⟩ := indexed_store_agrees hfuel hopen hrun
  obtain ⟨w', hscan⟩ := (hreads hroom).2 [1]
  exact ⟨s₀, dir₀, w, w', plain, hopen, hrun, hcount, hplain, hscan⟩

end Sietch
