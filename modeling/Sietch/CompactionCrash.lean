import Sietch.Spec
import Sietch.StoreRuns

/-! Crashes inside the swap of a compaction, and inside the opens that recover from
them. The old segments that a crash in the backup loop leaves behind are replayed
over the compacted log. -/
namespace Sietch
open ByteString Script Transition

def Uncompacted (_ : StoreWorld) : StoreEvent → Prop
  | .compact _ => False
  | _ => True

/-- A store that was never compacted: its index is the replay of the whole log. -/
structure StoreWorld.Whole (crc32 : Checksum) (records : List Record) (w : StoreWorld) : Prop where
  inv : w.Inv crc32 records
  index : w.store.index = Index.replay records
  numbered : Numbered records

theorem StoreWorld.Whole.step {crc32 : Checksum} {records : List Record} {w w' : StoreWorld}
    {e : StoreEvent} (h : w.Whole crc32 records) (hc : Uncompacted w e)
    (hs : StoreStep crc32 w e w') : w'.Whole crc32 (e.recordsAfter w records) := by
  cases e with
  | write call =>
      have hw := (Store.write_append (StoreWorld.exec_write hs.2).1).2
      refine ⟨hs.inv h.inv, ?_, ?_⟩
      · rw [hw.index, h.index, StoreEvent.recordsAfter, Index.replay_append]
      · rw [StoreEvent.recordsAfter, h.inv.disk.nextSeq, h.numbered.nextSeq]
        exact h.numbered.append call.ops
  | holdSnapshot =>
      cases hs.2
      exact ⟨hs.inv h.inv, h.index, h.numbered⟩
  | dropGuard i =>
      obtain ⟨g, -, rfl⟩ := StoreWorld.exec_drop hs.2
      refine ⟨hs.inv h.inv, ?_, h.numbered⟩
      rw [(dropGuard_index w.store g.snapshot).1]
      exact h.index
  | compact l => exact hc.elim

theorem StoreWorld.Whole.run {crc32 : Checksum} {records : List Record} {events : List StoreEvent}
    {w₀ w : StoreWorld} (h₀ : w₀.Whole crc32 records)
    (h : Run (Under Uncompacted (StoreStep crc32)) w₀ events w) :
    ∃ records', w.Whole crc32 records' := by
  refine h.invariant (I := fun w => ∃ records, w.Whole crc32 records) ⟨records, h₀⟩ ?_
  rintro a e b ⟨records, ha⟩ ⟨hc, hs⟩
  exact ⟨_, ha.step hc hs⟩

def logOnly (main : SegmentDir) : StoreDir := { StoreDir.empty with main }

theorem openStore_logOnly {crc32 : Checksum} {events : List LogEvent} {lw : LogWorld}
    (hlog : Run (LogStep crc32) LogWorld.start events lw) (l : Listing) :
    ∃ store dir records, Store.openStore crc32 l (logOnly lw.dir) = (.ok store, dir) ∧
      (StoreWorld.mk dir store []).Whole crc32 records := by
  obtain ⟨records, hh, -, hnum⟩ := logRun_inv hlog
  have hclean : (logOnly lw.dir).Clean := ⟨rfl, rfl, rfl, rfl⟩
  obtain ⟨store, dir, ho, hinv, hindex⟩ := openStore_holds hclean hh l
  exact ⟨store, dir, records, ho, hinv, hindex, hnum⟩

theorem Numbered.pairwise {records : List Record} (h : Numbered records) :
    records.Pairwise (fun a b => a.seq < b.seq) := by
  rw [← List.pairwise_map (f := Record.seq) (R := (· < ·)), h]
  exact List.pairwise_lt_range

/-- The version lists of a log numbered in order are sorted. -/
theorem Numbered.unovertaken {records : List Record} (h : Numbered records) (key : Bytes)
    (threshold : Nat) : Unovertaken threshold (Index.added records key) := by
  intro newest hlast v hv _
  have hsorted := Index.added_pairwise h.pairwise key
  obtain ⟨init, hinit⟩ := List.getLast?_eq_some_iff.mp hlast
  rw [hinit] at hv hsorted
  rcases List.mem_append.mp hv with hv | hv
  · exact ((List.pairwise_append.mp hsorted).2.2 v hv newest (by simp)).le
  · rw [List.mem_singleton.mp hv]

theorem StoreWorld.Whole.live_compacted {crc32 : Checksum} {records : List Record}
    {w : StoreWorld} (h : w.Whole crc32 records) :
    Live (compactedRecords w.store.index w.store.oldestHeldSnapshotSeq) w.store := by
  refine Sietch.live_compacted (fun threshold _ key => ?_)
  rw [h.index, Index.versions_replay]
  exact h.numbered.unovertaken key threshold

def segmentFiles (crc32 : Checksum) (segs : List (Nat × List Record)) : List (Nat × Bytes) :=
  segs.map (fun s => (s.1, encodeAll crc32 s.2))

theorem open_segments {crc32 : Checksum} {main : SegmentDir} {segs : List (Nat × List Record)}
    (hne : segs ≠ []) (hentries : main.entries = segmentFiles crc32 segs)
    (hfit : ∀ r ∈ segs.flatMap Prod.snd, r.Fits)
    (hnext : nextSeqOf (segs.flatMap Prod.snd) < 2 ^ 64) :
    ∃ log, Log.openDefault crc32 main = (.ok (log, ⟨segs.flatMap Prod.snd, false⟩), main) := by
  rcases List.eq_nil_or_concat segs with rfl | ⟨init, last, rfl⟩
  · exact absurd rfl hne
  · rw [List.concat_eq_append] at *
    have hrecords : (init ++ [last]).flatMap Prod.snd = init.flatMap Prod.snd ++ last.2 := by simp
    rw [hrecords] at hfit hnext ⊢
    have hdisk : OnDisk crc32 main init last.1 last.2 [] :=
      ⟨by rw [hentries, List.append_nil]; simp [segmentFiles], hfit, hnext, inert_nil crc32⟩
    obtain ⟨log, ho, -⟩ := hdisk.opens
    exact ⟨log, ho⟩

/-- The old segments that stay in the main directory under the new one. -/
def keptSegments (kept : Nat → Bool) (segs : List (Nat × List Record)) : List (Nat × List Record) :=
  segs.filter (fun s => kept s.1 && decide (s.1 ≠ 0))

theorem segmentFiles_kept (crc32 : Checksum) (kept : Nat → Bool) (segs : List (Nat × List Record)) :
    segmentFiles crc32 (keptSegments kept segs) =
      (segmentFiles crc32 segs).filter (fun e => kept e.1 && decide (e.1 ≠ 0)) := by
  rw [segmentFiles, segmentFiles, List.filter_map]
  rfl

theorem mergedMain_entries {crc32 : Checksum} {old main : SegmentDir}
    {segs : List (Nat × List Record)} {records : List Record} {kept : Nat → Bool}
    (hold : old.entries = segmentFiles crc32 segs)
    (h : MergedMain old (encodeAll crc32 records) kept main) :
    main.entries = segmentFiles crc32 ((0, records) :: keptSegments kept segs) := by
  have hasc : SortedMap.Ascending (segmentFiles crc32 ((0, records) :: keptSegments kept segs)) := by
    have htail : SortedMap.Ascending (segmentFiles crc32 (keptSegments kept segs)) := by
      rw [segmentFiles_kept, ← hold]
      exact old.ascending.filter _
    refine List.Pairwise.cons ?_ htail
    intro e he
    have he' : e ∈ segmentFiles crc32 (keptSegments kept segs) := he
    rw [segmentFiles_kept] at he'
    have hne := (List.mem_filter.mp he').2
    simp only [Bool.and_eq_true, decide_eq_true_eq] at hne
    exact Nat.pos_of_ne_zero hne.2
  have heq : main = ⟨_, hasc⟩ := by
    refine SortedMap.ext_get? (fun id => ?_)
    have hcons : SortedMap.get? ⟨_, hasc⟩ id =
        if id = 0 then some (encodeAll crc32 records)
        else SortedMap.lookup id (segmentFiles crc32 (keptSegments kept segs)) := rfl
    rw [h id, hcons, segmentFiles_kept,
      SortedMap.lookup_filter (fun id => kept id && decide (id ≠ 0)), ← hold]
    by_cases hid : id = 0
    · simp [hid]
    · simp [hid, SortedMap.get?]
  rw [heq]

/-- A crash inside `Store::open`, labelled with the directory it leaves. -/
def OpenCrash (crc32 : Checksum) (a : StoreDir) (e b : StoreDir) : Prop :=
  e = b ∧ ∃ l : Listing, l.Fair ∧ Script.Cut FsAction.apply (openScript crc32 l) a b

def leftBehind (crc32 : Checksum) (d : StoreDir) : List Record :=
  (d.main.entries.filter (fun e => decide (e.1 ≠ 0))).flatMap (fun e =>
    (recover crc32 e.2).records)

/-- If the crash is in the loop that moves the old segments to the backup, so that the
backup exists and the new segment is still in the temporary directory, then the last
record of each key in the old segments left behind, other than segment 0, carries the
live value of the key. -/
def NothingStaleLeft (crc32 : Checksum) (live : KeyState) (d : StoreDir) : Prop :=
  d.backup.isSome → (d.tmp.bind (·.get? 0)).isSome → ∀ key newest,
    (Index.added (leftBehind crc32 d) key).getLast? = some newest → newest.value = live key

def Harmless (live : KeyState) (left : List Record) : Prop :=
  ∀ key newest, (Index.added left key).getLast? = some newest → newest.value = live key

section Swap
variable {crc32 : Checksum} {old : SegmentDir} {segs : List (Nat × List Record)}
  {records : List Record} {kept : Nat → Bool} {live : KeyState} {d : StoreDir}

theorem leftBehind_kept (hold : old.entries = segmentFiles crc32 segs)
    (hfit : ∀ s ∈ segs, ∀ r ∈ s.2, r.Fits) (h : ∀ id, d.main.get? id =
      if kept id then old.get? id else none) :
    leftBehind crc32 d = (keptSegments kept segs).flatMap Prod.snd := by
  have hmain : d.main.entries = old.entries.filter (fun e => kept e.1) := by
    refine d.main.ascending.ext (old.ascending.filter _) (fun id => ?_)
    rw [SortedMap.lookup_filter kept]
    exact h id
  have hsplit : d.main.entries.filter (fun e => decide (e.1 ≠ 0)) =
      segmentFiles crc32 (keptSegments kept segs) := by
    rw [hmain, hold, segmentFiles_kept, List.filter_filter]
    exact List.filter_congr (fun e _ => Bool.and_comm _ _)
  rw [leftBehind, hsplit, segmentFiles, List.flatMap_map]
  refine List.flatMap_congr (fun s hs => ?_)
  have hwhole := recover_encodeAll crc32 (hfit s (List.mem_of_mem_filter hs)) (inert_nil crc32)
  rw [List.append_nil] at hwhole
  rw [hwhole]

theorem staleLeft_moving (hold : old.entries = segmentFiles crc32 segs)
    (hfit : ∀ s ∈ segs, ∀ r ∈ s.2, r.Fits)
    (h : Moving old (encodeAll crc32 records) kept d) :
    NothingStaleLeft crc32 live d ↔ Harmless live ((keptSegments kept segs).flatMap Prod.snd) := by
  have htmp : (d.tmp.bind (·.get? 0)).isSome = true := by
    rw [h.tmp]
    rfl
  rw [NothingStaleLeft, leftBehind_kept hold hfit h.main]
  exact ⟨fun hs => hs h.backup htmp, fun hs _ _ => hs⟩

theorem staleLeft_elsewhere (h : d.backup = none ∨ d.tmp = none ∨ d.tmp = some SortedMap.empty) :
    NothingStaleLeft crc32 live d := by
  intro hb ht
  rcases h with h | h | h
  · rw [h] at hb
    cases hb
  · rw [h] at ht
    cases ht
  · rw [h] at ht
    cases ht

/-- The values after replaying the old segments left behind over the new log. -/
theorem merged_live (hlive : ∀ key,
      (Index.added records key).getLast?.bind VersionEntry.value = live key) (left : List Record) :
    (Index.replay (records ++ left)).live = live ↔ Harmless live left := by
  have hkey : ∀ key, (Index.replay (records ++ left)).live key =
      ((Index.added left key).getLast?.map VersionEntry.value).getD (live key) := by
    intro key
    rw [Index.live, Index.versions_replay, Index.added_append, ← hlive key, List.getLast?_append]
    cases (Index.added left key).getLast? with
    | none => rfl
    | some newest => rfl
  constructor
  · intro h key newest hnewest
    have := hkey key
    rw [h, hnewest] at this
    exact this.symm
  · intro h
    funext key
    rw [hkey key]
    cases hnewest : (Index.added left key).getLast? with
    | none => rfl
    | some newest => exact h key newest hnewest

end Swap

/-- The old segments and the compacted records of one compaction, which give the same
live values. -/
structure SwapSetting (crc32 : Checksum) (old : SegmentDir) (segs : List (Nat × List Record))
    (new : List Record) (live : KeyState) : Prop where
  entries : old.entries = segmentFiles crc32 segs
  nonempty : segs ≠ []
  oldBounds : ∀ r ∈ segs.flatMap Prod.snd, r.Fits ∧ r.seq + 1 < 2 ^ 64
  newBounds : ∀ r ∈ new, r.Fits ∧ r.seq + 1 < 2 ^ 64
  oldLive : (Index.replay (segs.flatMap Prod.snd)).live = live
  newLive : ∀ key, (Index.added new key).getLast?.bind VersionEntry.value = live key

/-- What is known of the directory after a run of crashes: the swap has not got to the
backup, or the segments left behind are settled and decide whether a stale one is. -/
def AfterCrashes (crc32 : Checksum) (old : SegmentDir) (segs : List (Nat × List Record))
    (new : List Record) (live : KeyState) (crashes : List StoreDir) (d : StoreDir) : Prop :=
  ((Building old d ∨ Committed old (encodeAll crc32 new) d) ∧
      ∀ c ∈ crashes, NothingStaleLeft crc32 live c) ∨
    ∃ kept, Swapped old (encodeAll crc32 new) kept d ∧
      ((∀ c ∈ crashes, NothingStaleLeft crc32 live c) ↔
        Harmless live ((keptSegments kept segs).flatMap Prod.snd))

theorem keptSegments_none (segs : List (Nat × List Record)) :
    keptSegments (fun _ => false) segs = [] := by
  simp [keptSegments]

theorem harmless_none (live : KeyState) (segs : List (Nat × List Record)) :
    Harmless live ((keptSegments (fun _ => false) segs).flatMap Prod.snd) := by
  rw [keptSegments_none]
  intro key newest hnewest
  cases hnewest

theorem forall_mem_snoc {P : StoreDir → Prop} {crashes : List StoreDir} {d : StoreDir} :
    (∀ c ∈ crashes ++ [d], P c) ↔ (∀ c ∈ crashes, P c) ∧ P d := by
  simp [or_imp, forall_and]

namespace SwapSetting
variable {crc32 : Checksum} {old : SegmentDir} {segs : List (Nat × List Record)}
  {new : List Record} {kept : Nat → Bool} {live : KeyState} {d : StoreDir}
  {crashes : List StoreDir} {l : Listing}

theorem fits (h : SwapSetting crc32 old segs new live) : ∀ s ∈ segs, ∀ r ∈ s.2, r.Fits :=
  fun s hs r hr => (h.oldBounds r (List.mem_flatMap.mpr ⟨s, hs, hr⟩)).1

theorem open_old (h : SwapSetting crc32 old segs new live) :
    ∃ log, Log.openDefault crc32 old = (.ok (log, ⟨segs.flatMap Prod.snd, false⟩), old) :=
  open_segments h.nonempty h.entries (fun r hr => (h.oldBounds r hr).1)
    (nextSeqOf_lt (fun r hr => (h.oldBounds r hr).2))

theorem open_merged (h : SwapSetting crc32 old segs new live) {main : SegmentDir}
    (hm : MergedMain old (encodeAll crc32 new) kept main) :
    ∃ log, Log.openDefault crc32 main =
      (.ok (log, ⟨new ++ (keptSegments kept segs).flatMap Prod.snd, false⟩), main) := by
  have hall : ∀ r ∈ new ++ (keptSegments kept segs).flatMap Prod.snd,
      r.Fits ∧ r.seq + 1 < 2 ^ 64 := by
    intro r hr
    rcases List.mem_append.mp hr with hr | hr
    · exact h.newBounds r hr
    · obtain ⟨s, hs, hr⟩ := List.mem_flatMap.mp hr
      exact h.oldBounds r (List.mem_flatMap.mpr ⟨s, List.mem_of_mem_filter hs, hr⟩)
  exact open_segments (List.cons_ne_nil _ _) (mergedMain_entries h.entries hm)
    (fun r hr => (hall r hr).1) (nextSeqOf_lt (fun r hr => (hall r hr).2))

theorem opensAsIs_merged (h : SwapSetting crc32 old segs new live) {main : SegmentDir}
    (hm : MergedMain old (encodeAll crc32 new) kept main) : OpensAsIs crc32 main := by
  obtain ⟨log, ho⟩ := h.open_merged hm
  exact ⟨log, _, ho⟩

theorem after_swapped (h : SwapSetting crc32 old segs new live)
    (hiff : (∀ c ∈ crashes, NothingStaleLeft crc32 live c) ↔
      Harmless live ((keptSegments kept segs).flatMap Prod.snd))
    (hd : Swapped old (encodeAll crc32 new) kept d) :
    AfterCrashes crc32 old segs new live (crashes ++ [d]) d := by
  refine .inr ⟨kept, hd, ?_⟩
  rw [forall_mem_snoc, hiff]
  rcases hd with hd | hd | hd
  · rw [staleLeft_moving h.entries h.fits hd, and_self]
  · exact and_iff_left (staleLeft_elsewhere (.inr (hd.tmp.imp_right And.left)))
  · exact and_iff_left (staleLeft_elsewhere (.inl hd.backup))

theorem after_swapping (h : SwapSetting crc32 old segs new live)
    (hprev : ∀ c ∈ crashes, NothingStaleLeft crc32 live c)
    (hd : Swapping old (encodeAll crc32 new) d) :
    AfterCrashes crc32 old segs new live (crashes ++ [d]) d := by
  rcases hd with hd | ⟨kept, hd⟩ | hd
  · exact .inl ⟨.inr hd, forall_mem_snoc.mpr ⟨hprev, staleLeft_elsewhere (.inl hd.backup)⟩⟩
  · refine .inr ⟨kept, .inl hd, ?_⟩
    rw [forall_mem_snoc, staleLeft_moving h.entries h.fits hd]
    exact and_iff_right hprev
  · exact h.after_swapped ⟨fun _ => harmless_none live segs, fun _ => hprev⟩ hd

theorem after_building (hprev : ∀ c ∈ crashes, NothingStaleLeft crc32 live c)
    (hd : Building old d) : AfterCrashes crc32 old segs new live (crashes ++ [d]) d :=
  .inl ⟨.inl hd, forall_mem_snoc.mpr ⟨hprev, staleLeft_elsewhere (.inl hd.backup)⟩⟩

theorem after_open_crash (h : SwapSetting crc32 old segs new live) {d' : StoreDir}
    (ha : AfterCrashes crc32 old segs new live crashes d) (hl : l.Fair)
    (hcut : Script.Cut FsAction.apply (openScript crc32 l) d d') :
    AfterCrashes crc32 old segs new live (crashes ++ [d']) d' := by
  obtain ⟨log, ho⟩ := h.open_old
  rcases ha with ⟨hd | hd, hprev⟩ | ⟨kept, hd, hiff⟩
  · exact after_building hprev ((open_triple settleBuilding_triple
      (fun d hs => hs.1 ▸ ⟨log, _, ho⟩) (fun _ hs => building_of_clean hs) d hd).2 d' hcut)
  · exact h.after_swapping hprev ((open_triple (settleCommitted_triple hl)
      (fun d hs => h.opensAsIs_merged hs.1)
      (fun _ hs => .inr (.inr (.inr (.inr (finished_of_clean hs))))) d hd).2 d' hcut)
  · exact h.after_swapped hiff ((open_triple (settleSwapped_triple hl)
      (fun d hs => h.opensAsIs_merged hs.1)
      (fun _ hs => .inr (.inr (finished_of_clean hs))) d hd).2 d' hcut)

theorem after_compact_crash (h : SwapSetting crc32 old segs new live) {dir : StoreDir}
    (hdir : Building old dir) (hl : l.Fair)
    (hcut : Script.Cut FsAction.apply (compactScript crc32 l new) dir d) :
    AfterCrashes crc32 old segs new live [d] d := by
  have hnone : ∀ c ∈ ([] : List StoreDir), NothingStaleLeft crc32 live c := by
    intro c hc
    cases hc
  rcases (compactScript_triple hl (fun main hm => h.opensAsIs_merged hm) dir hdir).2 d hcut
    with hd | hd
  · exact after_building hnone hd
  · exact h.after_swapping hnone hd

theorem openStore_settled {log : Log} {report : OpenReport} {d' : StoreDir}
    (hd : final FsAction.apply (finishOrDiscardPendingCompaction l) d = d')
    (ho : Log.openDefault crc32 d'.main = (.ok (log, report), d'.main)) :
    Store.openStore crc32 l d =
      (.ok ⟨log, Index.replay report.records, report.recoveredFromTornTail, SortedMap.empty⟩,
        d') := by
  simp only [Store.openStore, hd, ho]

theorem opened_merged (h : SwapSetting crc32 old segs new live)
    (hs : MergedMain old (encodeAll crc32 new) kept
        (final FsAction.apply (finishOrDiscardPendingCompaction l) d).main ∧
      (final FsAction.apply (finishOrDiscardPendingCompaction l) d).Clean) :
    ∃ s dir', Store.openStore crc32 l d = (.ok s, dir') ∧ dir'.Clean ∧
      (s.get = live ↔ Harmless live ((keptSegments kept segs).flatMap Prod.snd)) := by
  obtain ⟨log, ho⟩ := h.open_merged hs.1
  refine ⟨_, _, openStore_settled rfl ho, hs.2, ?_⟩
  rw [Store.get_live]
  exact merged_live h.newLive _

theorem opened (h : SwapSetting crc32 old segs new live)
    (ha : AfterCrashes crc32 old segs new live crashes d) (hl : l.Fair) :
    ∃ s dir', Store.openStore crc32 l d = (.ok s, dir') ∧ dir'.Clean ∧
      (s.get = live ↔ ∀ c ∈ crashes, NothingStaleLeft crc32 live c) := by
  rcases ha with ⟨hd | hd, hprev⟩ | ⟨kept, hd, hiff⟩
  · obtain ⟨log, ho⟩ := h.open_old
    obtain ⟨hmain, hclean⟩ := (settleBuilding_triple d hd).1
    refine ⟨_, _, openStore_settled rfl (by rw [hmain]; exact ho), hclean, ?_⟩
    rw [Store.get_live]
    exact ⟨fun _ => hprev, fun _ => h.oldLive⟩
  · obtain ⟨s, dir', hs, hclean, hget⟩ := h.opened_merged (settleCommitted_triple hl d hd).1
    exact ⟨s, dir', hs, hclean, fun _ => hprev, fun _ => hget.mpr (harmless_none live segs)⟩
  · obtain ⟨s, dir', hs, hclean, hget⟩ := h.opened_merged (settleSwapped_triple hl d hd).1
    exact ⟨s, dir', hs, hclean, hget.trans hiff.symm⟩

end SwapSetting

theorem StoreWorld.Whole.setting {crc32 : Checksum} {records : List Record} {w : StoreWorld}
    (h : w.Whole crc32 records) : ∃ segs, SwapSetting crc32 w.dir.main segs
      (compactedRecords w.store.index w.store.oldestHeldSnapshotSeq) w.store.get := by
  obtain ⟨old, active, hr, rfl⟩ := h.inv.disk.running
  have hrecords : (old ++ [(w.store.log.activeId, active)]).flatMap Prod.snd =
      old.flatMap Prod.snd ++ active := by simp
  refine ⟨old ++ [(w.store.log.activeId, active)], ?_, by simp, ?_,
    compacted_bounds _ h.inv.fits, ?_, h.live_compacted⟩
  · rw [hr.disk.entries, List.append_nil]
    simp [segmentFiles]
  · intro r hmem
    rw [hrecords] at hmem
    have hv := h.inv.indexed r.key r.version (Index.mem_added.mpr ⟨r, hmem, rfl, rfl⟩)
    have hseq := (h.inv.fits r.key r.version hv).2
    rw [Record.version_seq] at hseq
    exact ⟨hr.disk.fits r hmem, hseq⟩
  · rw [hrecords, ← h.index, Store.get_live]

/-- The compaction swap is crash-safe exactly when no crash leaves a stale segment
behind: whatever the crashes, the first open that completes returns a store and a clean
directory, and the store has the values from before the compaction if and only if
nothing stale was left at any of the crashes. -/
theorem compaction_crash_safe_iff {crc32 : Checksum} {past : List LogEvent} {lw : LogWorld}
    (hlog : Run (LogStep crc32) LogWorld.start past lw) {l₀ l l' : Listing} {store : Store}
    {dir : StoreDir} (hopen : Store.openStore crc32 l₀ (logOnly lw.dir) = (.ok store, dir))
    {events : List StoreEvent} {w : StoreWorld}
    (hrun : Run (Under Uncompacted (StoreStep crc32)) ⟨dir, store, []⟩ events w)
    (hl : l.Fair) {first : StoreDir}
    (hfirst : Script.Cut FsAction.apply (compactScript crc32 l
      (compactedRecords w.store.index w.store.oldestHeldSnapshotSeq)) w.dir first)
    {crashes : List StoreDir} {d : StoreDir} (hcrashes : Run (OpenCrash crc32) first crashes d)
    (hl' : l'.Fair) :
    ∃ s dir', Store.openStore crc32 l' d = (.ok s, dir') ∧ dir'.Clean ∧
      (s.get = w.store.get ↔ ∀ c ∈ first :: crashes, NothingStaleLeft crc32 w.store.get c) := by
  obtain ⟨store₀, dir₀, records₀, hopen₀, hw₀⟩ := openStore_logOnly hlog l₀
  rw [hopen, Prod.mk.injEq, Outcome.ok.injEq] at hopen₀
  obtain ⟨rfl, rfl⟩ := hopen₀
  obtain ⟨records, hw⟩ := hw₀.run hrun
  obtain ⟨segs, hset⟩ := hw.setting
  have hbuild : Building w.dir.main w.dir := ⟨rfl, hw.inv.clean.2.1, hw.inv.clean.2.2.2⟩
  generalize compactedRecords w.store.index w.store.oldestHeldSnapshotSeq = new at hset hfirst
  have hafter : AfterCrashes crc32 w.dir.main segs new w.store.get (first :: crashes) d := by
    refine hcrashes.invariant_history
      (I := fun hist d => AfterCrashes crc32 w.dir.main segs new w.store.get (first :: hist) d)
      (hset.after_compact_crash hbuild hl hfirst) ?_
    rintro hist a e b ha ⟨rfl, l, hl, hcut⟩
    exact hset.after_open_crash ha hl hcut
  exact hset.opened hafter hl'

/-- `read_dir` names the newest segment first. -/
def Listing.newestFirst : Listing := { Listing.ascending with backupLoop := List.reverse }

theorem Listing.newestFirst_fair : Listing.newestFirst.Fair :=
  ⟨fun ids => List.reverse_perm ids, fun _ => .refl _, fun _ _ => .refl _⟩

/-- Three puts that each fill a segment; the last two are of one key. -/
def threePuts : List LogEvent :=
  [.opened 30, .acked (.put [0] [7]), .acked (.put [1] [5]), .acked (.put [1] [9])]

def threeSegments : SegmentDir :=
  ((SortedMap.empty.insert 0 (encodeAll crc32Ieee [.put 0 [0] [7]])).insert 1
    (encodeAll crc32Ieee [.put 1 [1] [5]])).insert 2 (encodeAll crc32Ieee [.put 2 [1] [9]])

theorem threePuts_run :
    ∃ lw, Run (LogStep crc32Ieee) LogWorld.start threePuts lw ∧ lw.dir = threeSegments := by
  have hrun : Run (LogStep crc32Ieee) LogWorld.start threePuts _ :=
    .snoc (.snoc (.snoc (.snoc .nil (.opened rfl rfl))
      (.acked rfl (by simp [Call.ops, LogOp.Fits]) rfl))
      (.acked rfl (by simp [Call.ops, LogOp.Fits]) rfl))
      (.acked rfl (by simp [Call.ops, LogOp.Fits]) rfl)
  exact ⟨_, hrun, by decide +kernel⟩

/-- The directory that a crash leaves after `n` actions of a compaction of the store,
opened on these segments, that names its newest segment first. -/
def crashedSwap (s : Store) (dir : StoreDir) (n : Nat) : StoreDir :=
  exec FsAction.apply ((compactScript crc32Ieee .newestFirst
    (compactedRecords s.index s.oldestHeldSnapshotSeq) dir).take n) dir

/-- The newest segment is in the backup and the older two are not: after the reopen the
put in segment 1 lies over the compacted log. -/
theorem compaction_crash_brings_back_old_value :
    ∃ lw, Run (LogStep crc32Ieee) LogWorld.start threePuts lw ∧
      ∃ s dir, Store.openStore crc32Ieee .ascending (logOnly lw.dir) = (.ok s, dir) ∧
        s.get [1] = some [9] ∧
        ∃ first, Script.Cut FsAction.apply (compactScript crc32Ieee .newestFirst
            (compactedRecords s.index s.oldestHeldSnapshotSeq)) dir first ∧
          ∃ s', Store.reopened crc32Ieee first = some s' ∧ s'.get [1] = some [5] := by
  obtain ⟨lw, hrun, hdir⟩ := threePuts_run
  refine ⟨lw, hrun, ?_⟩
  rw [hdir]
  obtain ⟨s, dir, -, ho, -⟩ := openStore_logOnly hrun .ascending
  rw [hdir] at ho
  have hcheck : (Store.reopened crc32Ieee (logOnly threeSegments)).any (fun s =>
      decide (s.get [1] = some [9]) &&
        (Store.reopened crc32Ieee (crashedSwap s
          (Store.openStore crc32Ieee .ascending (logOnly threeSegments)).2 10)).any (fun s' =>
            decide (s'.get [1] = some [5]))) = true := by
    decide +kernel
  have hreopened : Store.reopened crc32Ieee (logOnly threeSegments) = some s := by
    rw [Store.reopened, ho]
  rw [hreopened, ho] at hcheck
  simp only [Option.any_some, Bool.and_eq_true, decide_eq_true_eq, Option.any_eq_true] at hcheck
  exact ⟨s, dir, ho, hcheck.1, _, ⟨10, rfl⟩, hcheck.2⟩

/-- The same store and the same listing, with the crash before anything is moved. -/
theorem compaction_crash_before_the_swap :
    ∃ lw, Run (LogStep crc32Ieee) LogWorld.start threePuts lw ∧
      ∃ s dir, Store.openStore crc32Ieee .ascending (logOnly lw.dir) = (.ok s, dir) ∧
        ∃ s' dir', Store.openStore crc32Ieee .ascending (crashedSwap s dir 5) = (.ok s', dir') ∧
          dir'.Clean ∧ (s'.get = s.get ↔ ∀ c ∈ [crashedSwap s dir 5],
            NothingStaleLeft crc32Ieee s.get c) := by
  obtain ⟨lw, hrun, -⟩ := threePuts_run
  obtain ⟨s, dir, records, ho, -⟩ := openStore_logOnly hrun .ascending
  exact ⟨lw, hrun, s, dir, ho, compaction_crash_safe_iff hrun ho .nil Listing.newestFirst_fair
    ⟨5, rfl⟩ .nil Listing.ascending_fair⟩

end Sietch
