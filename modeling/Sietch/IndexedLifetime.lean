import Sietch.BatchCrash
import Sietch.IndexedCrash

/-! The indexed store on a machine that is killed at any time at which the files of the tree are
as they were flushed last: between two calls, inside an append to the log, inside a call and
inside an open. Over any number of processes its answers are those of one table. -/
namespace Sietch
open ByteString Transition
open IndexedStore (Recoverable)

inductive IndexedMachine (crc32 : Checksum) where
  | down (dir : IndexedDir)
  | up (w : IndexedWorld crc32)

/-- `killedInCall` says how many pages were written. -/
inductive IndexedLife where
  | call (e : IndexedEvent)
  | opened (capacity interval : Nat)
  | killed
  | killedInAppend (op : LogOp) (cut : Cut)
  | killedInCall (call : IndexedCall) (n : Nat)
  | killedInOpen

def IndexedLife.op : IndexedLife → Option LogOp
  | .call e => e.op
  | .killedInAppend op _ => some op
  | .killedInCall c _ => c.op
  | _ => none

/-- Calls and opens that return Ok, and kills. An open is killed with the log open, before it
writes a page. -/
inductive IndexedLifeStep (crc32 : Checksum) (fuel : Nat) :
    IndexedMachine crc32 → IndexedLife → IndexedMachine crc32 → Prop where
  | call {w e w'} : (∀ capacity interval, e ≠ .reopen capacity interval) →
      IndexedStep crc32 fuel w e w' → IndexedLifeStep crc32 fuel (.up w) (.call e) (.up w')
  | opened {dir capacity interval s dir'} :
      IndexedStore.openWithOptions crc32 fuel dir capacity interval = (.ok s, dir') →
      IndexedLifeStep crc32 fuel (.down dir) (.opened capacity interval)
        (.up (.opened dir s interval))
  | killed {w} : SamePages crc32 w.store.index.store.dir w.saved →
      IndexedLifeStep crc32 fuel (.up w) .killed
        (.down ⟨w.store.logDir, w.store.index.store.dir⟩)
  | killedInAppend {w op cut} : op.Fits → SamePages crc32 w.store.index.store.dir w.saved →
      IndexedLifeStep crc32 fuel (.up w) (.killedInAppend op cut)
        (.down ⟨op.call.crashDir crc32 cut w.store.logDir w.store.log, w.store.index.store.dir⟩)
  | killedInCall {w call n} : (∀ op ∈ call.op, op.Fits) →
      SamePages crc32 (w.store.crashDir fuel call n).index w.saved →
      IndexedLifeStep crc32 fuel (.up w) (.killedInCall call n)
        (.down (w.store.crashDir fuel call n))
  | killedInOpen {dir log report logDir index} :
      Log.openDefault crc32 dir.log = (.ok (log, report), logDir) →
      SamePages crc32 index dir.index →
      IndexedLifeStep crc32 fuel (.down dir) .killedInOpen (.down ⟨logDir, index⟩)

/-- The table: a call that returned writes to it or answers from it, a killed write is in it or
not, and nothing else changes it. -/
inductive TableStep : KeyState → IndexedLife → KeyState → Prop where
  | wrote {state : KeyState} {e op} : e.op = some op → TableStep state (.call e) (state.apply op)
  | checkpoint {state : KeyState} : TableStep state (.call .checkpoint) state
  | get {state : KeyState} {key} : TableStep state (.call (.get key (state key))) state
  | scan {state : KeyState} {keyPrefix r} : SortedMap.Ascending r →
      (∀ k v, (k, v) ∈ r ↔ keyPrefix <+: k ∧ state k = some v) →
      TableStep state (.call (.scan keyPrefix r)) state
  | survived {state : KeyState} {e op} : (∀ c, e ≠ .call c) → e.op = some op →
      TableStep state e (state.apply op)
  | other {state : KeyState} {e} : (∀ c, e ≠ .call c) → TableStep state e state

theorem live_append (records : List Record) (n : Nat) (more : List LogOp) :
    (Index.replay (records ++ Log.numberRecords n more)).live =
      (Index.replay records).live.applyAll more := by
  rw [Index.replay_append, Index.live_pushAll]

/-- The records of the machine: those of the running store, or what an open finds. -/
def IndexedMachine.Has {crc32 : Checksum} (small : Prop) : IndexedMachine crc32 → List Record → Prop
  | .up w, records => Tracked small w records
  | .down dir, records => (∃ sentinel, Recoverable crc32 small records sentinel dir) ∧
      (small → ∀ r ∈ records, r.Modest)

section Steps
variable {crc32 : Checksum} {small : Prop} {fuel : Nat} {w w' : IndexedWorld crc32}
  {records : List Record} {dir : IndexedDir}

theorem Tracked.down {more : List LogOp} {log : Option Log} (h : Tracked small w records)
    (hsmall : small → ∀ op ∈ more, op.Small)
    (hlog : Holds crc32 dir.log log (records ++ Log.numberRecords records.length more))
    (hsame : SamePages crc32 dir.index w.saved) :
    IndexedMachine.Has small (.down dir : IndexedMachine crc32)
      (records ++ Log.numberRecords records.length more) := by
  obtain ⟨sentinel, hrec, -⟩ := h.recoverable
  refine ⟨⟨sentinel, hrec.extended hlog hsame⟩, ?_⟩
  intro hs
  exact List.forall_mem_append.mpr ⟨h.modest hs, numberRecords_modest (hsmall hs) _⟩

theorem Tracked.killed_append (h : Tracked small w records) {op : LogOp} (hfit : op.Fits)
    (cut : Cut) :
    ∃ more, (more = [] ∨ more = [op]) ∧
      Holds crc32 (op.call.crashDir crc32 cut w.store.logDir w.store.log) none
        (records ++ Log.numberRecords records.length more) := by
  obtain ⟨_, _, ht⟩ := h.tracks
  have hops : op.call.ops = [op] := op.ops_call
  have hfits : ∀ o ∈ op.call.ops, o.Fits := by
    rw [hops]
    exact List.forall_mem_singleton.mpr hfit
  obtain ⟨m, hcrashed⟩ := ht.log.crashed hfits cut
  rw [hops, numberRecords_take, ht.nextSeq] at hcrashed
  refine ⟨[op].take m, ?_, hcrashed⟩
  cases m with
  | zero => exact .inl rfl
  | succ m => exact .inr (by simp)

theorem IndexedMachine.Has.opens {capacity interval : Nat}
    {s : IndexedStore (HeapPageStore crc32)} {dir' : IndexedDir}
    (h : IndexedMachine.Has small (.down dir : IndexedMachine crc32) records)
    (hfuel : 2 ^ 64 ≤ fuel)
    (hopen : IndexedStore.openWithOptions crc32 fuel dir capacity interval = (.ok s, dir')) :
    Tracked small (.opened dir s interval) records := by
  obtain ⟨⟨sentinel, hrec⟩, hmodest⟩ := h
  obtain ⟨-, hint, hzero, -, sentinel', ht⟩ := (hrec.opens (E := True) interval 0 0 hfuel
    (.inl trivial) (fun r hr hs => hmodest hs r (List.mem_of_mem_drop hr))).ok hopen
  exact ⟨⟨capacity, sentinel', ht⟩, hzero.symm, hint, hmodest⟩

theorem Tracked.table {e : IndexedEvent} (h : Tracked small w records) (hfuel : 2 ^ 64 ≤ fuel)
    (hcall : ∀ capacity interval, e ≠ .reopen capacity interval)
    (hs : IndexedStep crc32 fuel w e w') :
    TableStep (Index.replay records).live (.call e)
      ((Index.replay records).live.applyAll e.op.toList) := by
  have hlast : ∀ key, (lastValue records key).join = (Index.replay records).live key := by
    intro key
    rw [IndexedStore.lastValue_join, Index.live, Index.versions_replay]
  cases hs with
  | put hok => exact .wrote rfl
  | delete hok => exact .wrote rfl
  | checkpoint hok => exact .checkpoint
  | get hok =>
      rw [(h.get hfuel hok).1, hlast]
      exact .get
  | scan hok =>
      obtain ⟨hasc, hmem⟩ := (h.scan hfuel hok).1
      apply TableStep.scan hasc
      intro k v
      rw [hmem, hlast]
  | reopen hopen => exact absurd rfl (hcall _ _)

theorem table_killed {e : IndexedLife} {state : KeyState} {more : List LogOp}
    (hkill : ∀ c, e ≠ .call c) (hmore : more = [] ∨ more = e.op.toList) :
    TableStep state e (state.applyAll more) := by
  rcases hmore with rfl | rfl
  · exact .other hkill
  · cases hop : e.op with
    | none => exact .other hkill
    | some op => exact .survived hkill hop

theorem IndexedMachine.Has.step {m m' : IndexedMachine crc32} {e : IndexedLife}
    (h : m.Has small records) (hfuel : 2 ^ 64 ≤ fuel)
    (hsmall : small → ∀ op ∈ e.op, op.Small) (hs : IndexedLifeStep crc32 fuel m e m') :
    ∃ more, (more = [] ∨ more = e.op.toList) ∧
      m'.Has small (records ++ Log.numberRecords records.length more) ∧
      TableStep (Index.replay records).live e ((Index.replay records).live.applyAll more) := by
  have hmores : ∀ {more : List LogOp}, more = [] ∨ more = e.op.toList →
      small → ∀ op ∈ more, op.Small := by
    rintro more (rfl | rfl) hs op hop
    · cases hop
    · exact hsmall hs op (Option.mem_toList.mp hop)
  have hnil : records ++ Log.numberRecords records.length [] = records := by
    rw [Log.numberRecords, List.append_nil]
  cases hs with
  | @call w e w' hcall hstep =>
      have ht : Tracked small w records := h
      exact ⟨e.op.toList, .inr rfl, ht.step hfuel hsmall hstep, ht.table hfuel hcall hstep⟩
  | opened hopen =>
      refine ⟨[], .inl rfl, ?_, .other (by simp)⟩
      rw [hnil]
      exact IndexedMachine.Has.opens h hfuel hopen
  | killed hsame =>
      have ht : Tracked small _ records := h
      obtain ⟨_, _, htracks⟩ := ht.tracks
      have hlog := htracks.log
      rw [← hnil] at hlog
      exact ⟨[], .inl rfl, ht.down (hmores (.inl rfl)) hlog hsame, .other (by simp)⟩
  | killedInAppend hfit hsame =>
      have ht : Tracked small _ records := h
      obtain ⟨more, hmore, hlog⟩ := ht.killed_append hfit _
      exact ⟨more, hmore, ht.down (hmores hmore) hlog hsame, table_killed (by simp) hmore⟩
  | killedInCall hfit hsame =>
      have ht : Tracked small _ records := h
      obtain ⟨more, hmore, hlog⟩ := ht.killed_call hfit _
      exact ⟨more, hmore, ht.down (hmores hmore) hlog hsame, table_killed (by simp) hmore⟩
  | @killedInOpen dir log report logDir index hopen hsame =>
      obtain ⟨⟨sentinel, hrec⟩, hmodest⟩ := h
      obtain ⟨log₀, hholds⟩ := hrec.log
      obtain ⟨log', torn, logDir', hopen', hholds', -⟩ := hholds.opens defaultSegmentMaxBytes
      have hsameOpen :
          Log.openDefault crc32 dir.log = (.ok (log', ⟨records, torn⟩), logDir') := hopen'
      rw [hopen] at hsameOpen
      cases hsameOpen
      rw [← hnil] at hholds'
      have hrec' : Recoverable crc32 small _ sentinel ⟨logDir, index⟩ :=
        hrec.extended hholds' hsame
      refine ⟨[], .inl rfl, ⟨⟨sentinel, hrec'⟩, ?_⟩, .other (by simp)⟩
      rw [hnil]
      exact hmodest

theorem IndexedMachine.Has.run (small : Prop) {m : IndexedMachine crc32}
    {events : List IndexedLife}
    (hrun : Run (IndexedLifeStep crc32 fuel) (.down .empty) events m) (hfuel : 2 ^ 64 ≤ fuel)
    (hsmall : small → ∀ e ∈ events, ∀ op ∈ e.op, op.Small) :
    ∃ records, m.Has small records ∧
      Run TableStep (fun _ => none) events (Index.replay records).live ∧
      records.length ≤ (events.filterMap IndexedLife.op).length := by
  induction hrun with
  | nil =>
      have hnone : IndexedMachine.Has small (.down .empty : IndexedMachine crc32) [] :=
        ⟨⟨none, recoverable_empty crc32 small⟩, fun _ r hr => by cases hr⟩
      exact ⟨[], hnone, .nil, le_rfl⟩
  | @snoc events m m' e _ hstep ih =>
      have hbefore : small → ∀ e ∈ events, ∀ op ∈ e.op, op.Small := fun hs =>
        (List.forall_mem_append.mp (hsmall hs)).1
      have hlast : small → ∀ op ∈ e.op, op.Small := fun hs =>
        List.forall_mem_singleton.mp (List.forall_mem_append.mp (hsmall hs)).2
      obtain ⟨records, hhas, htable, hcount⟩ := ih hbefore
      obtain ⟨more, hmore, hhas', hnow⟩ := hhas.step hfuel hlast hstep
      refine ⟨_, hhas', ?_, ?_⟩
      · rw [live_append]
        exact htable.snoc hnow
      · have hone : more.length ≤ ([e].filterMap IndexedLife.op).length := by
          rcases hmore with rfl | rfl
          · exact Nat.zero_le _
          · cases hop : e.op with
            | none => exact Nat.zero_le _
            | some op => simp [hop]
        rw [List.length_append, Log.length_numberRecords, List.filterMap_append,
          List.length_append]
        exact Nat.add_le_add hcount hone

end Steps

/-- Over any number of processes, each of which may be killed while the files of the tree are as
they were flushed last, the answers are those of one table, in which a killed write is or is
not. If the writes are small and the page store is far from its ends, every open returns, with
the table. -/
theorem indexed_store_survives_kills {crc32 : Checksum} {fuel : Nat} (hfuel : 2 ^ 64 ≤ fuel)
    {events : List IndexedLife} {m : IndexedMachine crc32}
    (hrun : Run (IndexedLifeStep crc32 fuel) (.down .empty) events m) :
    ∃ state, Run TableStep (fun _ => none) events state ∧
      ∀ dir, m = .down dir → (∀ e ∈ events, ∀ op ∈ e.op, op.Small) → ∀ capacity interval,
        (∀ pages, HeapPageStore.openStore crc32 dir.index = .ok pages →
          pages.RoomFor capacity (events.filterMap IndexedLife.op).length) →
        ∃ s dir', IndexedStore.openWithOptions crc32 fuel dir capacity interval = (.ok s, dir') ∧
          ∀ key, ∃ s', IndexedStore.get fuel key s = (.ok (state key), s') := by
  obtain ⟨records, hhas, htable, hcount⟩ :=
    IndexedMachine.Has.run (∀ e ∈ events, ∀ op ∈ e.op, op.Small) hrun hfuel (fun h => h)
  refine ⟨_, htable, ?_⟩
  rintro dir rfl hsmall capacity interval hroom
  obtain ⟨⟨sentinel, hrec⟩, hmodest⟩ := hhas
  rw [eq_true hsmall] at hrec
  obtain ⟨s, dir', hopen, hreads, -⟩ := recoverable_returns hrec hfuel (hmodest hsmall)
    (hcount.trans (Nat.le_add_left _ _)) hroom interval
  refine ⟨s, dir', hopen, ?_⟩
  intro key
  obtain ⟨s', hget⟩ := hreads key
  refine ⟨s', ?_⟩
  rw [hget, IndexedStore.lastValue_join, Index.live, Index.versions_replay]

theorem life_of_calls {crc32 : Checksum} {fuel : Nat} {w₀ w : IndexedWorld crc32}
    {es : List IndexedEvent} (hrun : Run (IndexedStep crc32 fuel) w₀ es w)
    (hcalls : ∀ e ∈ es, ∀ capacity interval, e ≠ .reopen capacity interval) :
    Run (IndexedLifeStep crc32 fuel) (.up w₀) (es.map .call) (.up w) := by
  induction hrun with
  | nil => exact .nil
  | snoc _ hstep ih =>
      obtain ⟨hbefore, hlast⟩ := List.forall_mem_append.mp hcalls
      rw [List.map_append]
      exact (ih hbefore).snoc (.call (List.forall_mem_singleton.mp hlast) hstep)

/-- A put and a checkpoint, and a second one that is killed before it writes a page. -/
def killedCheckpoints : List IndexedLife :=
  [.opened 2 5, .call (.put [1] [2]), .call .checkpoint, .killedInCall .checkpoint 0]

theorem indexed_store_survives_killed_checkpoint :
    ∃ (dir : IndexedDir) (state : KeyState),
      Run (IndexedLifeStep crc32Ieee (2 ^ 64)) (.down .empty) killedCheckpoints (.down dir) ∧
      Run TableStep (fun _ => none) killedCheckpoints state ∧
      ∃ s dir', IndexedStore.openWithOptions crc32Ieee (2 ^ 64) dir 2 5 = (.ok s, dir') ∧
        ∀ key, ∃ s', IndexedStore.get (2 ^ 64) key s = (.ok (state key), s') := by
  obtain ⟨s₀, dir₀, w, hopen, hcalls, hsettled, hnone, -, -, hroom⟩ := first_checkpoint_run
  have hindex : (w.store.crashDir (2 ^ 64) .checkpoint 0).index = w.saved :=
    (crashDir_unwritten _ _ _).trans hsettled
  have hfirst : IndexedWorld.opened .empty s₀ 5 = ⟨s₀, IndexedDir.empty.index, 0, 5⟩ := by
    rw [IndexedWorld.opened, if_pos (tracked_first True (le_refl (2 ^ 64)) hopen).1]
  have hstart : Run (IndexedLifeStep crc32Ieee (2 ^ 64)) (.down .empty) [.opened 2 5]
      (.up ⟨s₀, IndexedDir.empty.index, 0, 5⟩) := by
    rw [← hfirst]
    exact Run.nil.snoc (.opened hopen)
  have hlife := hstart.append (life_of_calls hcalls (by simp))
  have hrun : Run (IndexedLifeStep crc32Ieee (2 ^ 64)) (.down .empty) killedCheckpoints
      (.down (w.store.crashDir (2 ^ 64) .checkpoint 0)) := by
    refine hlife.snoc (.killedInCall (by simp [IndexedCall.op]) ?_)
    rw [hindex]
    rfl
  have hsmall : ∀ e ∈ killedCheckpoints, ∀ op ∈ e.op, op.Small := by
    simp [killedCheckpoints, IndexedLife.op, IndexedEvent.op, IndexedCall.op, LogOp.Small,
      LogOp.record, Record.put, Record.Modest]
  obtain ⟨state, htable, hopens⟩ := indexed_store_survives_kills (le_refl (2 ^ 64)) hrun
  refine ⟨_, state, hrun, htable, hopens _ rfl hsmall 2 5 ?_⟩
  rw [hindex]
  intro pages hpages
  have hone := hroom pages hpages
  rw [hnone] at hone
  exact hone

end Sietch
