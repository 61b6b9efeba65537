import Sietch.BTreeFailure
import Sietch.IndexedRecovery

/-! Writes that the tree of an indexed store rejects. The record is in the log before the tree
is asked, so a later `open` finds it and is rejected again, unless a checkpoint has moved the
sentinel past it. Small writes are not rejected as long as the counters of the page store have
room. -/
namespace Sietch
open ByteString Transition
open SortedMap (insertEntry)
open IndexedStore (Tracks)

section Rejected
variable {S ε : Type} [PageStore S ε] {M : NodeStore S} {small : Prop}
  {capacity calls spare fuel : Nat} {m : SortedMap Bytes Bytes} {p : BufferPool S}
  {key value : Bytes} {records rest : List Record} {sentinel : Option Nat}

attribute [local irreducible] pageCapacity

/-- An entry that no page can hold is rejected, wherever the leaf is cut. -/
theorem Serves.insert_fails (h : Serves M small False capacity (calls + 1) spare m p)
    (hfuel : 2 ^ 64 ≤ fuel) (hbig : 4058 < key.length + value.length) :
    Proc.Fails (BTree.insert (ε := ε) fuel key value) p (fun _ => True) := by
  obtain ⟨-, content, next, t, room, -, hready, ht, hq, -⟩ := h
  have hr := hready.resolve_left not_false
  have hroom := hr.room_le
  have hids := hr.ids
  rw [Nat.succ_mul] at hids
  have hfull {es : List Entry} (hin : (key, value) ∈ es) : ¬ pageCapacity.leaf es = true :=
    fun hfit => absurd (leaf_entry_le hfit hin) (by omega)
  apply BTree.insert_fails hr.frames (BTree.depth_lt_fuel ht hfuel) hq ht (by omega)
  intro pg q hpg hheld
  have hin := SortedMap.mem_insertEntry_self key value (t.tree.leafOf key).entries
  have hparts : (key, value) ∈ BTree.leftHalf key value (t.tree.leafOf key) ++
      BTree.rightHalf key value (t.tree.leafOf key) := by
    rw [BTree.leftHalf, BTree.rightHalf, List.take_append_drop]
    exact hin
  by_cases hleft : pageCapacity.leaf (BTree.leftHalf key value (t.tree.leafOf key)) = true
  · have hright := (List.mem_append.mp hparts).resolve_left (fun hl => hfull hl hleft)
    obtain ⟨e, q', hx, -⟩ := BTree.insertLeaf_right_full (ε := ε) hr.frames hheld hpg (by omega)
      (by omega) (hfull hin) hleft (hfull hright)
    exact ⟨e, q', hx, trivial⟩
  · obtain ⟨e, q', hx, -⟩ := BTree.insertLeaf_left_full (ε := ε) hr.frames hheld hpg (by omega)
      (by omega) (hfull hin) hleft
    exact ⟨e, q', hx, trivial⟩

/-- A record that no page can hold, with the namespace and the tag. -/
def Record.Oversized (r : Record) : Prop := 4058 < (userKey r.key).length + (indexValue r).length

theorem Record.oversized_put {n : Nat} (h : 4056 < key.length + value.length) :
    (Record.put n key value).Oversized := by
  have hkey : (userKey key).length = key.length + 1 := rfl
  have hvalue : (indexValue (Record.put n key value)).length = value.length + 1 := rfl
  show 4058 < (userKey key).length + (indexValue (Record.put n key value)).length
  omega

theorem applyRecordsFrom_fails {start done : Nat}
    (h : ServesIndex M small False capacity (calls + rest.length) spare records sentinel p)
    (hfuel : 2 ^ 64 ≤ fuel)
    (hall : ∀ r ∈ rest, start ≤ r.seq → small ∧ r.Modest ∨ r.Oversized)
    (hbad : ∃ r ∈ rest, start ≤ r.seq ∧ r.Oversized) :
    Proc.Fails (applyRecordsFrom (ε := ε) fuel start rest done) p (fun _ => True) := by
  induction rest generalizing records done p with
  | nil =>
      obtain ⟨r, hr, -⟩ := hbad
      cases hr
  | cons r rest ih =>
      obtain ⟨hr, hrest⟩ := List.forall_mem_cons.mp hall
      rw [List.length_cons, ← Nat.add_assoc] at h
      rw [applyRecordsFrom]
      by_cases hseq : start ≤ r.seq
      · rw [if_pos hseq]
        by_cases hbig : r.Oversized
        · obtain ⟨m, hserves, -⟩ := h
          exact Proc.Fails.bind (hserves.insert_fails hfuel hbig)
        · obtain ⟨hsmall, hmodest⟩ := (hr hseq).resolve_right hbig
          have happly := (applyRecordToIndex_unless (ε := ε) h hfuel (.inr hsmall)
            (fun _ => hmodest)).returns not_false
          refine happly.bind_fails (fun _ p' h' => ih h' hrest ?_)
          obtain ⟨b, hb, hbseq, hbbig⟩ := hbad
          rcases List.mem_cons.mp hb with rfl | hb
          · exact absurd hbbig hbig
          · exact ⟨b, hb, hbseq, hbbig⟩
      · rw [if_neg hseq]
        refine ih (h.mono (Nat.le_succ _) le_rfl) hrest ?_
        obtain ⟨b, hb, hbseq, hbbig⟩ := hbad
        rcases List.mem_cons.mp hb with rfl | hb
        · exact absurd hbseq hseq
        · exact ⟨b, hb, hbseq, hbbig⟩

theorem reconcile_fails {logged : List Record} (nextSeq : Nat)
    (h : ServesIndex M small False capacity (calls + 1 + logged.length) spare records sentinel p)
    (hfuel : 2 ^ 64 ≤ fuel) (hlt : ∀ n, sentinel = some n → n < 2 ^ 64)
    (hall : ∀ r ∈ logged, sentinel.getD 0 ≤ r.seq → small ∧ r.Modest ∨ r.Oversized)
    (hbad : ∃ r ∈ logged, sentinel.getD 0 ≤ r.seq ∧ r.Oversized) :
    Proc.Fails (reconcile (ε := ε) fuel logged nextSeq) p (fun _ => True) := by
  have hfirst : ServesIndex M small False capacity (calls + logged.length + 1) spare records
      sentinel p := h.mono (by omega) le_rfl
  have hread := (readLastIndexedSeq_unless (ε := ε) hfirst hfuel hlt).returns not_false
  rw [reconcile]
  refine hread.bind_fails ?_
  rintro _ p₁ ⟨rfl, h₁⟩
  exact Proc.Fails.bind (applyRecordsFrom_fails h₁ hfuel hall hbad)

end Rejected

namespace IndexedStore
variable {crc32 : Checksum} {capacity fuel : Nat} {records : List Record} {sentinel : Option Nat}

/-- `open` fails on a log with a record that no page can hold and that the tree does not have
yet. -/
theorem openWithOptions_fails {dir : IndexedDir} {log₀ : Option Log} {logged : List Record}
    (interval : Nat) (hlog₀ : Holds crc32 dir.log log₀ logged)
    (hindex : StocksIndex (HeapPageStore.durable crc32) True records sentinel dir.index)
    (hlt : ∀ n, sentinel = some n → n < 2 ^ 64) (hfuel : 2 ^ 64 ≤ fuel)
    (hspace : ∀ pages, HeapPageStore.openStore crc32 dir.index = .ok pages →
      Spacious (HeapPageStore.durable crc32).toNodeStore capacity (0 + 1 + logged.length) 0 pages)
    (hall : ∀ r ∈ logged, sentinel.getD 0 ≤ r.seq → r.Modest ∨ r.Oversized)
    (hbad : ∃ r ∈ logged, sentinel.getD 0 ≤ r.seq ∧ r.Oversized) :
    ∃ e dir', openWithOptions crc32 fuel dir capacity interval = (.err (.index e), dir') := by
  obtain ⟨log, torn, logDir, hopen, -⟩ := hlog₀.opens defaultSegmentMaxBytes
  have hopen' : Log.openDefault crc32 dir.log = (.ok (log, ⟨logged, torn⟩), logDir) := hopen
  obtain ⟨m, hstocks, hi⟩ := hindex
  obtain ⟨pages, hpages, hstocked⟩ := hstocks ()
  have hpages' : HeapPageStore.openStore crc32 dir.index = .ok pages := hpages
  have hroom := hspace pages hpages'
  have hpos : 0 < capacity := Nat.zero_lt_of_lt hroom.1
  obtain ⟨p₀, hnew, htree⟩ := openTree_cases (ε := HeapPageStoreError) hpos pages
  obtain ⟨_, q, hsetUp, hserves⟩ := (hstocked.setUp (ε := HeapPageStoreError) (E := False)
    (.inr hroom) hpos hnew).returns not_false
  obtain ⟨e, q', hrec, -⟩ := reconcile_fails (ε := HeapPageStoreError) log.nextSeq
    ⟨m, hserves, hi⟩ hfuel hlt (fun r hr hle => (hall r hr hle).imp_left (⟨trivial, ·⟩)) hbad
  rw [hsetUp] at htree
  refine ⟨e, ⟨logDir, q'.store.dir⟩, ?_⟩
  simp only [openWithOptions, hopen', hpages', htree, hrec]

end IndexedStore

section Puts
variable {S ε : Type} [PageStore S ε] {M : NodeStore S} {small : Prop} {crc32 : Checksum}
  {capacity calls spare fuel : Nat} {key value : Bytes} {records : List Record}
  {sentinel : Option Nat} {s : IndexedStore S}

theorem put_oversized_fails (hlog : Holds crc32 s.logDir (some s.log) records)
    (hn : s.log.nextSeq + 1 < 2 ^ 64) (hfit : (LogOp.put key value).Fits)
    (hindex : ServesIndex M small False capacity (calls + 1) spare records sentinel s.index)
    (hfuel : 2 ^ 64 ≤ fuel) (hbig : (Record.put s.log.nextSeq key value).Oversized) :
    ∃ e s', IndexedStore.put (ε := ε) crc32 fuel key value s = (.err (.index e), s') ∧
      Holds crc32 s'.logDir (some s'.log)
        (records ++ [Record.put s.log.nextSeq key value]) := by
  obtain ⟨log', dir', happend, hlog', -⟩ := hlog.append hfit hn
  obtain ⟨m, hserves, -⟩ := hindex
  obtain ⟨e, p', hinsert, -⟩ := hserves.insert_fails (ε := ε) hfuel hbig
  refine ⟨e, { s with log := log', logDir := dir', index := p' }, ?_, hlog'⟩
  have hput : Log.appendPut crc32 .done s.logDir s.log key value =
      (.ok (Record.put s.log.nextSeq key value), log', dir') := happend
  have hlogged : IndexedStore.onLog (ε := ε)
      (fun dir log => log.appendPut crc32 .done dir key value) s =
      (.ok (Record.put s.log.nextSeq key value), { s with log := log', logDir := dir' }) := by
    rw [IndexedStore.onLog, hput]
  have hindexed : IndexedStore.onIndex (ε := ε)
      (applyRecordToIndex fuel (Record.put s.log.nextSeq key value))
      { s with log := log', logDir := dir' } =
      (.err (.index e), { s with log := log', logDir := dir', index := p' }) := by
    rw [IndexedStore.onIndex, Proc.mapErr, Proc.focus, applyRecordToIndex]
    simp only [hinsert]
  rw [IndexedStore.put, Proc.bind_ok hlogged, IndexedStore.applyAndAdvance]
  exact Proc.bind_err hindexed

end Puts

section Accepted
variable {crc32 : Checksum} {fuel n : Nat} {records : List Record} {w : IndexedWorld crc32}

theorem Tracked.accepts (h : Tracked True w records) (hfuel : 2 ^ 64 ≤ fuel)
    (hroom : w.store.index.store.RoomFor w.store.index.capacity 0)
    (hnext : w.store.log.nextSeq + 1 < 2 ^ 64) {op : LogOp} (hop : op.Small) :
    ∃ s, IndexedStore.write crc32 fuel op w.store = (.ok (), s) := by
  obtain ⟨sentinel, ht⟩ := h.ready hroom
  rw [ht.nextSeq] at hnext
  have hready : Tracks crc32 (HeapPageStore.durable crc32) True False w.store.index.capacity (1 + 2)
      (0 + w.store.index.capacity) records sentinel w.saved w.store := by
    rw [Nat.zero_add]
    exact ht
  obtain ⟨_, s, hok, -⟩ := (hready.write hfuel (fun _ => hop.modest _)
    (.inr ⟨trivial, hnext⟩)).returns not_false
  exact ⟨s, hok⟩

theorem Tracked.checkpoints (h : Tracked True w records) (hfuel : 2 ^ 64 ≤ fuel)
    (hroom : w.store.index.store.RoomFor w.store.index.capacity 0) :
    ∃ s, IndexedStore.checkpoint fuel w.store = (.ok (), s) := by
  obtain ⟨sentinel, ht⟩ := h.ready hroom
  have hready : Tracks crc32 (HeapPageStore.durable crc32) True False w.store.index.capacity (2 + 1)
      (0 + w.store.index.capacity) records sentinel w.saved w.store := by
    rw [Nat.zero_add]
    exact ht
  obtain ⟨_, s, hok, -⟩ := (hready.checkpoint hfuel (.inr trivial)).returns not_false
  exact ⟨s, hok⟩

end Accepted

section RejectedPut
variable {crc32 : Checksum} {fuel capacity interval : Nat} {key value : Bytes}

def rejectedPut (crc32 : Checksum) (fuel capacity interval : Nat) (key value : Bytes) : Bool :=
  match IndexedStore.openWithOptions crc32 fuel .empty capacity interval with
  | (.ok s₀, _) =>
      match IndexedStore.put crc32 fuel key value s₀ with
      | (.err _, s₁) => decide (s₁.index.store.dir.heap = []) &&
          decide (s₁.index.store.dir.locations.entries = [(0, [])])
      | _ => false
  | _ => false

/-- The record is then in the log of a store that has no page, and `open` fails on it. -/
theorem rejectedPut_bars_open (h : rejectedPut crc32 fuel capacity interval key value = true)
    (hfuel : 2 ^ 64 ≤ fuel) (hcap : 2 ≤ capacity) (hcap' : capacity ≤ 2 ^ 16)
    (hfit : (LogOp.put key value).Fits) (hlong : 4056 < key.length + value.length) :
    ∃ s₀ dir₀ e s₁ e' dir₁,
      IndexedStore.openWithOptions crc32 fuel .empty capacity interval = (.ok s₀, dir₀) ∧
      IndexedStore.put crc32 fuel key value s₀ = (.err e, s₁) ∧
      IndexedStore.openWithOptions crc32 fuel ⟨s₁.logDir, s₁.index.store.dir⟩ capacity interval =
        (.err e', dir₁) := by
  have hfirst := (recoverable_empty crc32 True).opens (E := False) interval 1 0 hfuel
    (.inr ⟨.inr trivial, spacious_first hcap (by simp) (by omega)⟩) (fun _ hr => by cases hr)
  obtain ⟨s₀, dir₀, hreturns, -, -, -, -, sentinel, ht⟩ := hfirst.returns not_false
  have hopen : IndexedStore.openWithOptions crc32 fuel .empty capacity interval =
      (.ok s₀, dir₀) := hreturns
  have hseq : s₀.log.nextSeq = 0 := ht.nextSeq
  have hbig : (Record.put s₀.log.nextSeq key value).Oversized := Record.oversized_put hlong
  have hserves : ServesIndex (HeapPageStore.durable crc32).toNodeStore True False capacity (0 + 1) 0
      [] sentinel s₀.index := ht.index
  obtain ⟨e, s₁, hput, hlog⟩ := put_oversized_fails (ε := HeapPageStoreError) ht.log
    (by rw [hseq]; decide) hfit hserves hfuel hbig
  rw [rejectedPut, hopen] at h
  simp only [hput, Bool.and_eq_true, decide_eq_true_eq] at h
  obtain ⟨hempty, hentries⟩ := h
  have hlocations : Holds crc32 s₁.index.store.dir.locations none [] := by
    have hdisk : OnDisk crc32 s₁.index.store.dir.locations [] 0 [] [] :=
      ⟨hentries, by simp, by simp, inert_nil crc32⟩
    exact .resting hdisk
  have hindex : StocksIndex (HeapPageStore.durable crc32) True [] none s₁.index.store.dir := by
    obtain ⟨pages, hpages, hkept⟩ :=
      HeapPageStore.kept_unwritten NodePage.Shown hempty hlocations
    exact ⟨.empty, fun _ => ⟨pages, hpages, .inl ⟨hkept 0 (by decide), rfl⟩⟩, .empty⟩
  have hspace : ∀ pages, HeapPageStore.openStore crc32 s₁.index.store.dir = .ok pages →
      Spacious (HeapPageStore.durable crc32).toNodeStore capacity (0 + 1 + 1) 0 pages := by
    intro pages hpages
    exact IndexedStore.spacious_unwritten hempty hlocations hpages hcap (by decide) (by decide)
  have hbad : ∃ r ∈ [] ++ [Record.put s₀.log.nextSeq key value],
      (none : Option Nat).getD 0 ≤ r.seq ∧ r.Oversized :=
    ⟨_, List.mem_singleton_self _, Nat.zero_le _, hbig⟩
  have hall : ∀ r ∈ [] ++ [Record.put s₀.log.nextSeq key value],
      (none : Option Nat).getD 0 ≤ r.seq → r.Modest ∨ r.Oversized := by
    intro r hr _
    rw [List.mem_singleton.mp hr]
    exact .inr hbig
  let dir : IndexedDir := ⟨s₁.logDir, s₁.index.store.dir⟩
  have hlog' : Holds crc32 dir.log (some s₁.log) ([] ++ [Record.put s₀.log.nextSeq key value]) :=
    hlog
  obtain ⟨e', dir₁, hreopen⟩ := IndexedStore.openWithOptions_fails interval hlog' hindex
    (fun n hn => by cases hn) hfuel hspace hall hbad
  exact ⟨s₀, dir₀, _, s₁, _, dir₁, hopen, hput, hreopen⟩

set_option maxRecDepth 1000000 in
theorem rejectedPut_page :
    rejectedPut crc32Ieee (2 ^ 64) 3 5 [1] (List.replicate 4096 0) = true := by
  decide +kernel

end RejectedPut

/-- A store whose writes are all small rejects none of them, reads what was written, and can
be opened again with all of it. -/
theorem small_writes_do_no_harm {crc32 : Checksum} {fuel capacity interval : Nat}
    (hfuel : 2 ^ 64 ≤ fuel) {s₀ : IndexedStore (HeapPageStore crc32)} {dir₀ : IndexedDir}
    (hopen : IndexedStore.openWithOptions crc32 fuel .empty capacity interval = (.ok s₀, dir₀))
    {events : List IndexedEvent} {w : IndexedWorld crc32}
    (hrun : Run (IndexedStep crc32 fuel) ⟨s₀, IndexedDir.empty.index, 0, interval⟩ events w)
    (hsmall : ∀ e ∈ events, ∀ op ∈ e.op, op.Small) :
    (w.store.index.store.RoomFor w.store.index.capacity 0 → w.store.log.nextSeq + 1 < 2 ^ 64 →
      (∀ key value, key.length + value.length ≤ 166 →
        ∃ s, IndexedStore.put crc32 fuel key value w.store = (.ok (), s)) ∧
      (∀ key, key.length ≤ 166 → ∃ s, IndexedStore.delete crc32 fuel key w.store = (.ok (), s)) ∧
      (∃ s, IndexedStore.checkpoint fuel w.store = (.ok (), s)) ∧
      ReadsAs fuel w.store (Log.numberRecords 0 (events.filterMap (·.op)))) ∧
    (w.Settled → ∀ capacity' interval',
      (∀ pages, HeapPageStore.openStore crc32 w.saved = .ok pages →
        pages.RoomFor capacity' w.unflushed) →
      ∃ s dir, IndexedStore.openWithOptions crc32 fuel ⟨w.store.logDir, w.store.index.store.dir⟩
          capacity' interval' = (.ok s, dir) ∧
        ReadsAs fuel s (Log.numberRecords 0 (events.filterMap (·.op)))) := by
  have htracked := (tracked_first True hfuel hopen).2.run hrun hfuel (fun _ => hsmall)
  constructor
  · intro hroom hnext
    refine ⟨?_, ?_, htracked.checkpoints hfuel hroom, htracked.gets hfuel hroom⟩
    · intro key value hlen
      have hop : (LogOp.put key value).Small := hlen
      rw [IndexedStore.put_eq_write]
      exact htracked.accepts hfuel hroom hnext hop
    · intro key hlen
      have hop : (LogOp.delete key).Small := hlen
      rw [IndexedStore.delete_eq_write]
      exact htracked.accepts hfuel hroom hnext hop
  · intro hsettled capacity' interval' hroom
    exact htracked.settled_returns hsettled hfuel hroom interval'

theorem small_writes_do_no_harm_reopened : ∃ (s₀ : IndexedStore (HeapPageStore crc32Ieee))
    (dir₀ : IndexedDir) (w : IndexedWorld crc32Ieee)
    (s₁ s₂ : IndexedStore (HeapPageStore crc32Ieee)) (dir₂ : IndexedDir),
    IndexedStore.openWithOptions crc32Ieee (2 ^ 64) .empty 2 5 = (.ok s₀, dir₀) ∧
    Run (IndexedStep crc32Ieee (2 ^ 64)) ⟨s₀, IndexedDir.empty.index, 0, 5⟩
      [.put [1] [2], .checkpoint] w ∧
    IndexedStore.put crc32Ieee (2 ^ 64) [3] [4] w.store = (.ok (), s₁) ∧
    IndexedStore.openWithOptions crc32Ieee (2 ^ 64) ⟨w.store.logDir, w.store.index.store.dir⟩ 2 5 =
      (.ok s₂, dir₂) := by
  have hfuel : 2 ^ 64 ≤ 2 ^ 64 := le_rfl
  obtain ⟨s₀, dir₀, w, hopen, hrun, hsettled, -, -, hlive, hroom⟩ := first_checkpoint_run
  obtain ⟨hcalls, hopens⟩ := small_writes_do_no_harm hfuel hopen hrun first_checkpoint_small
  have hnext : w.store.log.nextSeq + 1 < 2 ^ 64 := by
    obtain ⟨_, _, ht⟩ :=
      ((tracked_first True hfuel hopen).2.run hrun hfuel
        (fun _ => first_checkpoint_small)).tracks
    rw [ht.nextSeq]
    decide
  have hroom' : ∀ pages, HeapPageStore.openStore crc32Ieee w.saved = .ok pages →
      pages.RoomFor 2 w.unflushed := fun pages hpages => (hroom pages hpages).mono (Nat.le_succ _)
  obtain ⟨hputs, -⟩ := hcalls (hlive.mono (Nat.zero_le 1)) hnext
  obtain ⟨s₁, hput⟩ := hputs [3] [4] (by decide)
  obtain ⟨s₂, dir₂, hreopen, -⟩ := hopens hsettled 2 5 hroom'
  exact ⟨s₀, dir₀, w, s₁, s₂, dir₂, hopen, hrun, hput, hreopen⟩

/-- A value of the length of a page is rejected on a new store, which then cannot be opened. -/
theorem rejected_put_bars_open :
    ∃ s₀ dir₀ e s₁ e' dir₁,
      IndexedStore.openWithOptions crc32Ieee (2 ^ 64) .empty 3 5 = (.ok s₀, dir₀) ∧
      IndexedStore.put crc32Ieee (2 ^ 64) [1] (List.replicate 4096 0) s₀ = (.err e, s₁) ∧
      IndexedStore.openWithOptions crc32Ieee (2 ^ 64) ⟨s₁.logDir, s₁.index.store.dir⟩ 3 5 =
        (.err e', dir₁) := by
  have hfuel : 2 ^ 64 ≤ 2 ^ 64 := le_rfl
  have hlen : (List.replicate 4096 (0 : Byte)).length = 4096 := List.length_replicate
  have hfit : (LogOp.put [1] (List.replicate 4096 0)).Fits := by
    refine ⟨by decide, ?_⟩
    rw [hlen]
    decide
  have hlong : 4056 < [(1 : Byte)].length + (List.replicate 4096 (0 : Byte)).length := by
    rw [hlen]
    decide
  exact rejectedPut_bars_open rejectedPut_page hfuel (by decide) (by decide) hfit hlong

end Sietch
