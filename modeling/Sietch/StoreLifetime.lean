import Sietch.BatchCrash
import Sietch.CompactionFailure

/-! The store on a machine that goes down at any time: between two calls, inside a write, inside
a compaction, and inside the opens that recover from these. Over any number of processes the
store has the values of the acknowledged writes, and of an interrupted batch some of the first. -/
namespace Sietch
open ByteString Transition

inductive Machine where
  | down (dir : StoreDir)
  | up (w : StoreWorld)

/-- `killedInCompact` and `killedInOpen` say how many file-system actions were done. -/
inductive MachineEvent where
  | opened (l : Listing)
  | call (e : StoreEvent)
  | stopped
  | killedInWrite (call : Call) (cut : Cut)
  | killedInCompact (l : Listing) (n : Nat)
  | killedInOpen (l : Listing) (n : Nat)

def MachineEvent.Allowed : MachineEvent → Prop
  | .opened l => l.Fair
  | .call e => e.Allowed
  | .stopped => True
  | .killedInWrite c _ => ∀ op ∈ c.ops, op.Fits
  | .killedInCompact l _ => l.Fair
  | .killedInOpen l _ => l.Fair

def StoreWorld.compactCut (crc32 : Checksum) (w : StoreWorld) (l : Listing) (n : Nat) : StoreDir :=
  stepsDone (compactScript crc32 l
    (compactedRecords w.store.index w.store.oldestHeldSnapshotSeq)) n w.dir

/-- Calls and opens that return Ok, and kills. -/
def Machine.exec (crc32 : Checksum) : Machine → MachineEvent → Option Machine
  | .down dir, .opened l =>
      match Store.openStore crc32 l dir with
      | (.ok s, dir') => some (.up ⟨dir', s, []⟩)
      | _ => none
  | .down dir, .killedInOpen l n => some (.down (stepsDone (openScript crc32 l) n dir))
  | .up w, .call e => (w.exec crc32 e).map .up
  | .up w, .stopped => some (.down w.dir)
  | .up w, .killedInWrite call cut =>
      some (.down { w.dir with main := call.crashDir crc32 cut w.dir.main w.store.log })
  | .up w, .killedInCompact l n => some (.down (w.compactCut crc32 l n))
  | _, _ => none

/-- Old segments that are left behind beside the new log, while that is still in the temporary
directory, do not give any key another value than the new log does. -/
def NothingStale (crc32 : Checksum) (d : StoreDir) : Prop :=
  ∀ file, d.tmp.bind (·.get? 0) = some file →
    NothingStaleLeft crc32 (Index.replay (recover crc32 file).records).live d

/-- The two known faults of a compaction are kept out: a stale version above a held snapshot,
and a kill that leaves a stale segment behind. -/
def Machine.Sound (crc32 : Checksum) : Machine → MachineEvent → Prop
  | .up w, .call e => NoStaleVersionAbove w e
  | .up w, .killedInCompact l n =>
      NoStaleVersionAbove w (.compact l) ∧ NothingStale crc32 (w.compactCut crc32 l n)
  | .down dir, .killedInOpen l n => NothingStale crc32 (stepsDone (openScript crc32 l) n dir)
  | _, _ => True

def MachineStep (crc32 : Checksum) : Machine → MachineEvent → Machine → Prop :=
  Under (Machine.Sound crc32) (Computed MachineEvent.Allowed (Machine.exec crc32))

/-- What the events do to the values: only writes change them. -/
inductive ValueStep : KeyState → MachineEvent → KeyState → Prop where
  | wrote {state call} : ValueStep state (.call (.write call)) (state.applyAll call.ops)
  | partly {state call cut} (n : Nat) :
      ValueStep state (.killedInWrite call cut) (state.applyAll (call.ops.take n))
  | other {state e} : (∀ call, e ≠ .call (.write call)) →
      (∀ call cut, e ≠ .killedInWrite call cut) → ValueStep state e state

section Records
variable {crc32 : Checksum} {records : List Record} {w : StoreWorld}

theorem live_replay (hlive : Live records w.store) : (Index.replay records).live = w.store.get := by
  funext key
  rw [Index.live, Index.versions_replay]
  exact hlive key

theorem holds_segments {main : SegmentDir} {segs : List (Nat × List Record)} (hne : segs ≠ [])
    (hentries : main.entries = segmentFiles crc32 segs)
    (hbounds : ∀ r ∈ segs.flatMap Prod.snd, r.Fits ∧ r.seq + 1 < 2 ^ 64) :
    Holds crc32 main none (segs.flatMap Prod.snd) := by
  induction segs using List.reverseRecOn with
  | nil => exact absurd rfl hne
  | append_singleton init last _ =>
      have hrecords : (init ++ [last]).flatMap Prod.snd = init.flatMap Prod.snd ++ last.2 := by
        simp
      rw [hrecords] at hbounds ⊢
      have hdisk : OnDisk crc32 main init last.1 last.2 [] := by
        refine ⟨?_, fun r hr => (hbounds r hr).1, nextSeqOf_lt (fun r hr => (hbounds r hr).2),
          inert_nil crc32⟩
        rw [hentries, List.append_nil]
        simp [segmentFiles]
      exact .resting hdisk

/-- The compaction of any reachable store, compacted before or not. -/
theorem swapSetting (hinv : w.Inv crc32 records) (hlive : Live records w.store) {l : Listing}
    (hstale : NoStaleVersionAbove w (.compact l)) :
    ∃ segs, SwapSetting crc32 w.dir.main segs
      (compactedRecords w.store.index w.store.oldestHeldSnapshotSeq) w.store.get := by
  obtain ⟨old, active, hr, hrecords⟩ := hinv.disk.running
  have hsegs : (old ++ [(w.store.log.activeId, active)]).flatMap Prod.snd = records := by
    simp [hrecords]
  refine ⟨old ++ [(w.store.log.activeId, active)], ?_, by simp, ?_,
    compacted_bounds _ hinv.fits, ?_, live_compacted hstale⟩
  · rw [hr.disk.entries, List.append_nil]
    simp [segmentFiles]
  · intro r hmem
    rw [hsegs] at hmem
    have hv := hinv.indexed r.key r.version (Index.mem_added.mpr ⟨r, hmem, rfl, rfl⟩)
    have hseq := (hinv.fits r.key r.version hv).2
    rw [Record.version_seq] at hseq
    rw [hrecords] at hmem
    exact ⟨hr.disk.fits r hmem, hseq⟩
  · rw [hsegs, live_replay hlive]

end Records

namespace SwapSetting
variable {crc32 : Checksum} {old : SegmentDir} {segs : List (Nat × List Record)}
  {new : List Record} {kept : Nat → Bool} {live : KeyState} {d : StoreDir}
  {crashes : List StoreDir} {l : Listing}

/-- In the stages of a swap the new log has the live values, so that the directory itself shows
whether something stale is left. -/
theorem nothingStaleLeft (h : SwapSetting crc32 old segs new live)
    (ha : AfterCrashes crc32 old segs new live crashes d) (hstale : NothingStale crc32 d) :
    NothingStaleLeft crc32 live d := by
  rcases ha with ⟨hd | hd, -⟩ | ⟨kept, hd | hd | hd, -⟩
  · exact staleLeft_elsewhere (.inl hd.backup)
  · exact staleLeft_elsewhere (.inl hd.backup)
  · have hfile : d.tmp.bind (·.get? 0) = some (encodeAll crc32 new) := by
      rw [hd.tmp]
      rfl
    have hrecover := recover_encodeAll crc32 (fun r hr => (h.newBounds r hr).1) (inert_nil crc32)
    rw [List.append_nil] at hrecover
    have hnew : (Index.replay (recover crc32 (encodeAll crc32 new)).records).live = live := by
      rw [hrecover]
      funext key
      rw [Index.live, Index.versions_replay]
      exact h.newLive key
    have hleft := hstale _ hfile
    rw [hnew] at hleft
    exact hleft
  · exact staleLeft_elsewhere (.inr (hd.tmp.imp_right And.left))
  · exact staleLeft_elsewhere (.inl hd.backup)

theorem holds_merged (h : SwapSetting crc32 old segs new live)
    (hm : MergedMain old (encodeAll crc32 new) kept d.main)
    (hharmless : Harmless live ((keptSegments kept segs).flatMap Prod.snd)) :
    ∃ records, Holds crc32 d.main none records ∧ (Index.replay records).live = live := by
  refine ⟨new ++ (keptSegments kept segs).flatMap Prod.snd, ?_,
    (merged_live h.newLive _).mpr hharmless⟩
  apply holds_segments (List.cons_ne_nil _ _) (mergedMain_entries h.entries hm)
  intro r hr
  rw [List.flatMap_cons] at hr
  rcases List.mem_append.mp hr with hr | hr
  · exact h.newBounds r hr
  · obtain ⟨s, hs, hr⟩ := List.mem_flatMap.mp hr
    exact h.oldBounds r (List.mem_flatMap.mpr ⟨s, List.mem_of_mem_filter hs, hr⟩)

theorem settles (h : SwapSetting crc32 old segs new live)
    (ha : AfterCrashes crc32 old segs new live crashes d)
    (hstale : ∀ c ∈ crashes, NothingStaleLeft crc32 live c) (hl : l.Fair) :
    (Script.final FsAction.apply (finishOrDiscardPendingCompaction l) d).Clean ∧
      ∃ records, Holds crc32
          (Script.final FsAction.apply (finishOrDiscardPendingCompaction l) d).main none records ∧
        (Index.replay records).live = live := by
  rcases ha with ⟨hd | hd, -⟩ | ⟨kept, hd, hiff⟩
  · obtain ⟨hmain, hclean⟩ := (settleBuilding_triple (l := l) d hd).1
    refine ⟨hclean, segs.flatMap Prod.snd, ?_, h.oldLive⟩
    rw [hmain]
    exact holds_segments h.nonempty h.entries h.oldBounds
  · obtain ⟨hmain, hclean⟩ := (settleCommitted_triple hl d hd).1
    exact ⟨hclean, h.holds_merged hmain (harmless_none live segs)⟩
  · obtain ⟨hmain, hclean⟩ := (settleSwapped_triple hl d hd).1
    exact ⟨hclean, h.holds_merged hmain (hiff.mp hstale)⟩

end SwapSetting

/-- A directory without a process has the values: in a log that nothing was left beside, or in
the middle of a compaction. -/
def Resting (crc32 : Checksum) (dir : StoreDir) (state : KeyState) : Prop :=
  (dir.Clean ∧ ∃ records, Holds crc32 dir.main none records ∧
    (Index.replay records).live = state) ∨
  ∃ old segs new crashes, SwapSetting crc32 old segs new state ∧
    AfterCrashes crc32 old segs new state crashes dir ∧
    ∀ c ∈ crashes, NothingStaleLeft crc32 state c

/-- A running process has them in its store and in the log. -/
structure StoreWorld.Serves (crc32 : Checksum) (w : StoreWorld) (state : KeyState) : Prop where
  records : ∃ records, w.Inv crc32 records ∧ Live records w.store
  get : w.store.get = state

def Machine.Has (crc32 : Checksum) : Machine → KeyState → Prop
  | .down dir, state => Resting crc32 dir state
  | .up w, state => w.Serves crc32 state

section Machine
variable {crc32 : Checksum} {dir : StoreDir} {w w' : StoreWorld} {state : KeyState} {l : Listing}

theorem openStore_final (hclean :
      (Script.final FsAction.apply (finishOrDiscardPendingCompaction l) dir).Clean) :
    Store.openStore crc32 l dir = Store.openStore crc32 l
      (Script.final FsAction.apply (finishOrDiscardPendingCompaction l) dir) := by
  simp only [Store.openStore, settle_clean hclean]

theorem Resting.settles (h : Resting crc32 dir state) (hl : l.Fair) :
    (Script.final FsAction.apply (finishOrDiscardPendingCompaction l) dir).Clean ∧
      ∃ records, Holds crc32
          (Script.final FsAction.apply (finishOrDiscardPendingCompaction l) dir).main none records ∧
        (Index.replay records).live = state := by
  rcases h with ⟨hclean, hholds⟩ | ⟨old, segs, new, crashes, hset, hafter, hstale⟩
  · rw [settle_clean hclean]
    exact ⟨hclean, hholds⟩
  · exact hset.settles hafter hstale hl

theorem Resting.opens (h : Resting crc32 dir state) (hl : l.Fair) :
    ∃ s dir', Store.openStore crc32 l dir = (.ok s, dir') ∧
      (StoreWorld.mk dir' s []).Serves crc32 state := by
  obtain ⟨hclean, records, hholds, hlive⟩ := h.settles hl
  obtain ⟨s, dir', hopen, hinv, hindex⟩ := openStore_holds hclean hholds l
  refine ⟨s, dir', (openStore_final hclean).trans hopen, ⟨records, hinv, ?_⟩, ?_⟩
  · intro key
    rw [Store.get_eq, hindex, Index.versions_replay]
  · rw [Store.get_live, hindex, hlive]

theorem Resting.killedInOpen (h : Resting crc32 dir state) (hl : l.Fair) {n : Nat}
    (hstale : NothingStale crc32 (stepsDone (openScript crc32 l) n dir)) :
    Resting crc32 (stepsDone (openScript crc32 l) n dir) state := by
  rcases h with ⟨hclean, records, hholds, hlive⟩ | ⟨old, segs, new, crashes, hset, hafter, hall⟩
  · obtain ⟨log, torn, main, hopen, hopened, -⟩ := hholds.opens defaultSegmentMaxBytes
    have hscript : openScript crc32 l dir = [.writeMain main] := by
      have hsettle : finishOrDiscardPendingCompaction l dir = [] := by
        obtain ⟨main, tmp, backup, placeholder, marker⟩ := dir
        obtain ⟨rfl, rfl, rfl, rfl⟩ := hclean
        rfl
      have hlog : Log.openDefault crc32 dir.main = (.ok (log, ⟨records, torn⟩), main) := hopen
      rw [openScript, Script.seq, settle_clean hclean, hsettle, openMainLog, hlog]
      rfl
    left
    rw [stepsDone, hscript]
    cases n with
    | zero => exact ⟨hclean, records, hholds, hlive⟩
    | succ n =>
        rw [List.take_of_length_le (by simp)]
        exact ⟨hclean, records, hopened.rest, hlive⟩
  · have hafter' := hset.after_open_crash hafter hl ⟨n, rfl⟩
    refine .inr ⟨old, segs, new, _, hset, hafter', ?_⟩
    exact forall_mem_snoc.mpr ⟨hall, hset.nothingStaleLeft hafter' hstale⟩

namespace StoreWorld.Serves

theorem stopped (h : w.Serves crc32 state) : Resting crc32 w.dir state := by
  obtain ⟨records, hinv, hlive⟩ := h.records
  exact .inl ⟨hinv.clean, records, hinv.disk.rest, (live_replay hlive).trans h.get⟩

theorem killedInWrite (h : w.Serves crc32 state) {call : Call}
    (hfit : ∀ op ∈ call.ops, op.Fits) (cut : Cut) :
    ∃ n, Resting crc32 { w.dir with main := call.crashDir crc32 cut w.dir.main w.store.log }
      (state.applyAll (call.ops.take n)) := by
  obtain ⟨records, hinv, hlive⟩ := h.records
  obtain ⟨n, hcrashed⟩ := hinv.disk.crashed hfit cut
  refine ⟨n, .inl ⟨hinv.clean, _, hcrashed, ?_⟩⟩
  rw [numberRecords_take, Index.replay_append, Index.live_pushAll, live_replay hlive, h.get]

theorem killedInCompact (h : w.Serves crc32 state) (hl : l.Fair) {n : Nat}
    (hversions : NoStaleVersionAbove w (.compact l))
    (hstale : NothingStale crc32 (w.compactCut crc32 l n)) :
    Resting crc32 (w.compactCut crc32 l n) state := by
  obtain ⟨records, hinv, hlive⟩ := h.records
  obtain ⟨segs, hset⟩ := swapSetting hinv hlive hversions
  rw [h.get] at hset
  have hbuild : Building w.dir.main w.dir := ⟨rfl, hinv.clean.2.1, hinv.clean.2.2.2⟩
  have hafter := hset.after_compact_crash hbuild hl ⟨n, rfl⟩
  refine .inr ⟨_, segs, _, _, hset, hafter, ?_⟩
  intro c hc
  obtain rfl := List.mem_singleton.mp hc
  exact hset.nothingStaleLeft hafter hstale

theorem call {e : StoreEvent} (h : w.Serves crc32 state) (hc : NoStaleVersionAbove w e)
    (hs : StoreStep crc32 w e w') :
    ∃ state', ValueStep state (.call e) state' ∧ w'.Serves crc32 state' := by
  obtain ⟨records, hinv, hlive⟩ := h.records
  have hafter : ∃ records, w'.Inv crc32 records ∧ Live records w'.store :=
    ⟨_, hs.inv hinv, hlive.step hinv hc hs⟩
  cases e with
  | write call =>
      have hwrote := (Store.write_append (StoreWorld.exec_write hs.2).1).2.live
      rw [h.get] at hwrote
      exact ⟨_, .wrote, hafter, hwrote⟩
  | holdSnapshot =>
      refine ⟨state, .other (by simp) (by simp), hafter, ?_⟩
      cases hs.2
      exact h.get
  | dropGuard i =>
      refine ⟨state, .other (by simp) (by simp), hafter, ?_⟩
      obtain ⟨g, -, rfl⟩ := StoreWorld.exec_drop hs.2
      rw [← h.get, Store.get_live, Store.get_live, (dropGuard_index w.store g.snapshot).1]
  | compact l =>
      refine ⟨state, .other (by simp) (by simp), hafter, ?_⟩
      rw [(hinv.compacted hs).1, ← h.get]
      rfl

end StoreWorld.Serves
end Machine

theorem machine_simulates (crc32 : Checksum) :
    Simulates (MachineStep crc32) ValueStep some (Machine.Has crc32) := by
  rintro m state e m' hhas ⟨hsound, hallowed, hexec⟩
  left
  cases m with
  | down dir =>
      have hrest : Resting crc32 dir state := hhas
      cases e with
      | opened l =>
          obtain ⟨s, dir', hopen, hserves⟩ := hrest.opens hallowed
          simp only [Machine.exec, hopen] at hexec
          cases hexec
          exact ⟨_, state, rfl, .other (by simp) (by simp), hserves⟩
      | killedInOpen l n =>
          cases hexec
          exact ⟨_, state, rfl, .other (by simp) (by simp), hrest.killedInOpen hallowed hsound⟩
      | _ => cases hexec
  | up w =>
      have hserves : w.Serves crc32 state := hhas
      cases e with
      | call e =>
          obtain ⟨w', hw', rfl⟩ := Option.map_eq_some_iff.mp hexec
          obtain ⟨state', hvalue, hserves'⟩ := hserves.call hsound ⟨hallowed, hw'⟩
          exact ⟨_, state', rfl, hvalue, hserves'⟩
      | stopped =>
          cases hexec
          exact ⟨_, state, rfl, .other (by simp) (by simp), hserves.stopped⟩
      | killedInWrite call cut =>
          cases hexec
          obtain ⟨n, hrest⟩ := hserves.killedInWrite hallowed cut
          exact ⟨_, _, rfl, .partly n, hrest⟩
      | killedInCompact l n =>
          cases hexec
          exact ⟨_, state, rfl, .other (by simp) (by simp),
            hserves.killedInCompact hallowed hsound.1 hsound.2⟩
      | _ => cases hexec

theorem resting_empty (crc32 : Checksum) : Resting crc32 StoreDir.empty (fun _ => none) := by
  left
  exact ⟨⟨rfl, rfl, rfl, rfl⟩, [], .fresh, rfl⟩

/-- Whatever the machine went through, its values are those of the acknowledged writes, with
some of the first operations of each interrupted one in its place. A store that is open has
them, takes writes while there are sequence numbers, and can be compacted; a directory opens
with them, and clean. -/
theorem store_survives_kills {crc32 : Checksum} {events : List MachineEvent} {m : Machine}
    (hrun : Run (MachineStep crc32) (.down StoreDir.empty) events m) :
    ∃ state, Run ValueStep (fun _ => none) events state ∧
      (∀ w, m = .up w → w.store.get = state ∧
        (∀ l : Listing, l.Fair → ∃ w', StoreStep crc32 w (.compact l) w') ∧
        ∀ call : Call, (∀ op ∈ call.ops, op.Fits) →
          w.store.log.nextSeq + call.ops.length < 2 ^ 64 →
          ∃ w', StoreStep crc32 w (.write call) w') ∧
      ∀ dir, m = .down dir → ∀ l : Listing, l.Fair →
        ∃ s dir', Store.openStore crc32 l dir = (.ok s, dir') ∧ dir'.Clean ∧ s.get = state := by
  obtain ⟨state, hvalues, hhas⟩ := (machine_simulates crc32).run hrun
    (show Machine.Has crc32 (.down StoreDir.empty) _ from resting_empty crc32)
  rw [List.filterMap_some] at hvalues
  refine ⟨state, hvalues, ?_, ?_⟩
  · rintro w rfl
    have hserves : w.Serves crc32 state := hhas
    obtain ⟨records, hinv, -⟩ := hserves.records
    refine ⟨hserves.get, fun l hl => hinv.compacts hl, ?_⟩
    intro call hfit hn
    exact hinv.writes hfit hn
  · rintro dir rfl l hl
    have hrest : Resting crc32 dir state := hhas
    obtain ⟨s, dir', hopen, hserves⟩ := hrest.opens hl
    obtain ⟨records, hinv, -⟩ := hserves.records
    exact ⟨s, dir', hopen, hinv.clean, hserves.get⟩

/-- A put; a compaction killed after the old segment moved to the backup; and an open killed
after the new one moved in. -/
def killedCompaction : List MachineEvent :=
  [.opened .ascending, .call (.write (.put [1] [5])), .killedInCompact .ascending 9,
    .killedInOpen .ascending 1]

set_option maxRecDepth 100000 in
/-- The directory still has the backup and the marker, and it opens with the value. -/
theorem store_survives_killed_compaction :
    ∃ dir, Run (MachineStep crc32Ieee) (.down StoreDir.empty) killedCompaction (.down dir) ∧
      dir.backup.isSome ∧ dir.marker ∧
      ∃ state, Run ValueStep (fun _ => none) killedCompaction state ∧
        ∃ s dir', Store.openStore crc32Ieee .ascending dir = (.ok s, dir') ∧ dir'.Clean ∧
          s.get = state := by
  have hnone : ∀ d : StoreDir, leftBehind crc32Ieee d = [] → NothingStale crc32Ieee d := by
    intro d hleft file _ _ _ key newest hnewest
    rw [hleft] at hnewest
    cases hnewest
  have hone : Run (MachineStep crc32Ieee) (.down StoreDir.empty) (killedCompaction.take 1) _ :=
    .snoc .nil ⟨trivial, Listing.ascending_fair, rfl⟩
  have htwo : Run (MachineStep crc32Ieee) (.down StoreDir.empty) (killedCompaction.take 2) _ :=
    .snoc hone ⟨trivial, by simp [MachineEvent.Allowed, StoreEvent.Allowed, Call.ops, LogOp.Fits],
      rfl⟩
  have hthree : Run (MachineStep crc32Ieee) (.down StoreDir.empty) (killedCompaction.take 3) _ :=
    .snoc htwo ⟨⟨fun _ ht => (by cases ht), hnone _ (by decide +kernel)⟩,
      Listing.ascending_fair, rfl⟩
  have hrun : Run (MachineStep crc32Ieee) (.down StoreDir.empty) killedCompaction _ :=
    .snoc hthree ⟨hnone _ (by decide +kernel), Listing.ascending_fair, rfl⟩
  obtain ⟨state, hvalues, -, hopens⟩ := store_survives_kills hrun
  exact ⟨_, hrun, by decide +kernel, by decide +kernel, state, hvalues,
    hopens _ rfl .ascending Listing.ascending_fair⟩

end Sietch
