import Sietch.Log

/-! What opening and appending do to a log directory in the shape `OnDisk`: the
one specification of each operation that the run-level results use. -/
namespace Sietch
open ByteString

section Disk
variable {crc32 : Checksum} {dir : SegmentDir} {old : List (Nat × List Record)} {id : Nat}
  {active : List Record} {tail : Bytes}

theorem OnDisk.lastId (h : OnDisk crc32 dir old id active tail) : dir.keys.getLast? = some id := by
  simp [SortedMap.keys, h.entries]

theorem OnDisk.file (h : OnDisk crc32 dir old id active tail) :
    dir.get? id = some (encodeAll crc32 active ++ tail) :=
  SortedMap.get?_of_entries_last h.entries

theorem OnDisk.insert_same (h : OnDisk crc32 dir old id active []) :
    dir.insert id (encodeAll crc32 active) = dir := by
  refine SortedMap.ext_get? (fun j => ?_)
  rw [SortedMap.get?_insert]
  split
  · rename_i hj
    rw [hj, h.file, List.append_nil]
  · rfl

theorem OnDisk.old_lt (h : OnDisk crc32 dir old id active tail) : ∀ s ∈ old, s.1 < id := by
  intro s hs
  have hasc := dir.ascending
  rw [h.entries] at hasc
  exact (List.pairwise_append.mp hasc).2.2 (s.1, encodeAll crc32 s.2)
    (List.mem_map.mpr ⟨s, hs, rfl⟩) (id, encodeAll crc32 active ++ tail) (by simp)

theorem OnDisk.active_fits (h : OnDisk crc32 dir old id active tail) : ∀ r ∈ active, r.Fits :=
  fun r hr => h.fits r (List.mem_append_right _ hr)

theorem OnDisk.replace (h : OnDisk crc32 dir old id active tail) {active' : List Record}
    {tail' : Bytes} (hfits : ∀ r ∈ active', r.Fits)
    (hnext : nextSeqOf (old.flatMap Prod.snd ++ active') < 2 ^ 64) (ht : Inert crc32 tail') :
    OnDisk crc32 (dir.insert id (encodeAll crc32 active' ++ tail')) old id active' tail' where
  entries := SortedMap.entries_insert_last h.entries _
  fits := by
    intro r hr
    rcases List.mem_append.mp hr with hr | hr
    · exact h.fits r (List.mem_append_left _ hr)
    · exact hfits r hr
  next := hnext
  inert := ht

theorem openLoop_old {segs : List (Nat × List Record)} (hne : ∀ s ∈ segs, s.1 ≠ id)
    (hfits : ∀ s ∈ segs, ∀ r ∈ s.2, r.Fits) (maxBytes : Nat) (rest : List (Nat × Bytes))
    (all : List Record) (ids : List Nat) (torn : Bool) (seen : Option Nat) :
    Log.openLoop crc32 dir maxBytes (some id)
        (segs.map (fun s => (s.1, encodeAll crc32 s.2)) ++ rest) all ids torn seen =
      Log.openLoop crc32 dir maxBytes (some id) rest (all ++ segs.flatMap Prod.snd)
        (ids ++ segs.map Prod.fst) torn (maxSeqSeen seen (segs.flatMap Prod.snd)) := by
  induction segs generalizing all ids seen with
  | nil => simp [maxSeqSeen]
  | cons s segs ih =>
      obtain ⟨hs, hsegs⟩ := List.forall_mem_cons.mp hne
      obtain ⟨hf, hfs⟩ := List.forall_mem_cons.mp hfits
      have hrec := recover_encodeAll crc32 hf (inert_nil crc32)
      rw [List.append_nil] at hrec
      simp only [List.map_cons, List.cons_append, Log.openLoop, hrec]
      simp only [ne_eq, not_true_eq_false, decide_false, Bool.false_eq_true, false_and, if_false,
        Bool.or_false, Option.some.injEq, hs]
      rw [ih hsegs hfs]
      simp [maxSeqSeen_append]

/-- Opening returns every record in order, cuts the torn tail off the last file
and leaves a running log. -/
theorem openWithSegmentSize_onDisk (h : OnDisk crc32 dir old id active tail) (maxBytes : Nat) :
    ∃ log dir', Log.openWithSegmentSize crc32 dir maxBytes =
        (.ok (log, ⟨old.flatMap Prod.snd ++ active, decide (tail ≠ [])⟩), dir') ∧
      Running crc32 dir' log old active ∧ log.segmentMaxBytes = maxBytes ∧
      dir' = dir.insert id (encodeAll crc32 active) := by
  have hne : ∀ s ∈ old, s.1 ≠ id := fun s hs => (h.old_lt s hs).ne
  have hfold : ∀ s ∈ old, ∀ r ∈ s.2, r.Fits := fun s hs r hr =>
    h.fits r (List.mem_append_left _ (List.mem_flatMap.mpr ⟨s, hs, hr⟩))
  have hseen : (maxSeqSeen (maxSeqSeen none (old.flatMap Prod.snd)) active).elim 0 (· + 1) =
      nextSeqOf (old.flatMap Prod.snd ++ active) := by
    rw [← maxSeqSeen_append]
    rfl
  have hcut : setLen ((dir.get? id).getD []) (encodeAll crc32 active).length =
      encodeAll crc32 active ++ [] := by
    rw [h.file, Option.getD_some, setLen_of_le (by simp), List.take_left, List.append_nil]
  have hdisk := h.replace h.active_fits h.next (inert_nil crc32)
  refine ⟨⟨maxBytes, old.map Prod.fst, id,
    ⟨(encodeAll crc32 active).length, (encodeAll crc32 active).length⟩,
    nextSeqOf (old.flatMap Prod.snd ++ active)⟩, _, ?_, ⟨hdisk, rfl, rfl, rfl⟩, rfl,
    by rw [List.append_nil]⟩
  rw [Log.openWithSegmentSize, h.lastId, h.entries, openLoop_old hne hfold]
  simp only [Log.openLoop, recover_encodeAll crc32 h.active_fits h.inert, Segment.openForAppend,
    hcut, hseen, List.nil_append, Bool.false_or, decide_true, not_true_eq_false, and_false,
    if_false, if_true, if_neg (not_le.mpr h.next)]

/-- Whatever the last file holds, a successful open reports what recovery finds. -/
theorem open_report_last {buf : Bytes} (hfits : ∀ s ∈ old, ∀ r ∈ s.2, r.Fits)
    (he : dir.entries = old.map (fun s => (s.1, encodeAll crc32 s.2)) ++ [(id, buf)])
    {maxBytes : Nat} {log : Log} {report : OpenReport} {dir' : SegmentDir}
    (ho : Log.openWithSegmentSize crc32 dir maxBytes = (.ok (log, report), dir')) :
    report.records = old.flatMap Prod.snd ++ (recover crc32 buf).records := by
  have hlast : dir.keys.getLast? = some id := by simp [SortedMap.keys, he]
  have hne : ∀ s ∈ old, s.1 ≠ id := by
    intro s hs
    have hasc := dir.ascending
    rw [he] at hasc
    exact ((List.pairwise_append.mp hasc).2.2 (s.1, encodeAll crc32 s.2)
      (List.mem_map.mpr ⟨s, hs, rfl⟩) (id, buf) (by simp)).ne
  rw [Log.openWithSegmentSize, hlast, he, openLoop_old hne hfits] at ho
  simp only [Log.openLoop, decide_true, not_true_eq_false, and_false, if_false, if_true,
    List.nil_append] at ho
  split at ho
  · cases ho
  · cases ho
    rfl

theorem open_torn_sealed {buf last : Bytes} {lastId : Nat} (hfits : ∀ s ∈ old, ∀ r ∈ s.2, r.Fits)
    (he : dir.entries = old.map (fun s => (s.1, encodeAll crc32 s.2)) ++
      [(id, buf), (lastId, last)])
    (htorn : (recover crc32 buf).hadTornTail = true) (maxBytes : Nat) :
    Log.openWithSegmentSize crc32 dir maxBytes = (.err (.sealedSegmentCorrupted id), dir) := by
  have hlast : dir.keys.getLast? = some lastId := by simp [SortedMap.keys, he]
  have hasc := dir.ascending
  rw [he] at hasc
  obtain ⟨-, htail, hcross⟩ := List.pairwise_append.mp hasc
  have hne : ∀ s ∈ old, s.1 ≠ lastId := by
    intro s hs
    exact (hcross (s.1, encodeAll crc32 s.2) (List.mem_map.mpr ⟨s, hs, rfl⟩) (lastId, last)
      (by simp)).ne
  have hid : id ≠ lastId := (List.rel_of_pairwise_cons htail (List.mem_singleton_self _)).ne
  rw [Log.openWithSegmentSize, hlast, he, openLoop_old hne hfits]
  simp only [Log.openLoop, htorn, Option.some.injEq, hid, decide_false, Bool.false_eq_true,
    not_false_eq_true, and_self, if_true]

theorem openWithSegmentSize_empty (crc32 : Checksum) (maxBytes : Nat) :
    ∃ log dir', Log.openWithSegmentSize crc32 SortedMap.empty maxBytes =
        (.ok (log, ⟨[], false⟩), dir') ∧
      Running crc32 dir' log [] [] ∧ log.segmentMaxBytes = maxBytes := by
  refine ⟨_, _, rfl, ⟨⟨rfl, by simp, by simp, inert_nil crc32⟩, rfl, rfl, rfl⟩, rfl⟩

end Disk

section Append
variable {crc32 : Checksum} {dir : SegmentDir} {log : Log} {old : List (Nat × List Record)}
  {active : List Record}

theorem Running.file (h : Running crc32 dir log old active) :
    dir.get? log.activeId = some (encodeAll crc32 active) := by
  simpa using h.disk.file

theorem Running.pos (h : Running crc32 dir log old active) :
    log.active.pos = (encodeAll crc32 active).length := by rw [h.segment]

theorem Running.len (h : Running crc32 dir log old active) :
    log.active.len = (encodeAll crc32 active).length := by rw [h.segment]

/-- Rolling over seals the active segment and starts an empty one; either way the
log stays in step and its records stay the same. -/
theorem Running.rollOver (h : Running crc32 dir log old active) (incoming : Nat) :
    ∃ old' active', Running crc32 (log.rollOverIfNeeded dir incoming).2
        (log.rollOverIfNeeded dir incoming).1 old' active' ∧
      old'.flatMap Prod.snd ++ active' = old.flatMap Prod.snd ++ active ∧
      (log.rollOverIfNeeded dir incoming).1.nextSeq = log.nextSeq ∧
      (log.rollOverIfNeeded dir incoming).1.segmentMaxBytes = log.segmentMaxBytes := by
  unfold Log.rollOverIfNeeded
  split
  · exact ⟨old, active, h, rfl, rfl, rfl⟩
  · have hrecords : (old ++ [(log.activeId, active)]).flatMap Prod.snd ++ [] =
        old.flatMap Prod.snd ++ active := by simp
    have hnew : ∀ e ∈ dir.entries, e.1 < log.activeId + 1 := by
      intro e he
      rw [h.disk.entries] at he
      rcases List.mem_append.mp he with he | he
      · obtain ⟨s, hs, rfl⟩ := List.mem_map.mp he
        exact (h.disk.old_lt s hs).trans (Nat.lt_succ_self _)
      · rw [List.mem_singleton.mp he]
        exact Nat.lt_succ_self _
    refine ⟨old ++ [(log.activeId, active)], [], ⟨⟨?_, ?_, ?_, inert_nil crc32⟩, ?_, ?_, ?_⟩,
      hrecords, rfl, rfl⟩
    · have hfile : setLen ((dir.get? (log.activeId + 1)).getD []) 0 = [] := by simp [setLen]
      simp only [Segment.openForAppend, hfile, SortedMap.entries_insert_new hnew, h.disk.entries]
      simp
    · rw [hrecords]
      exact h.disk.fits
    · rw [hrecords]
      exact h.disk.next
    · simp [h.sealedIds]
    · simp [Segment.openForAppend]
    · rw [hrecords]
      exact h.nextSeq

theorem Running.next_append (h : Running crc32 dir log old active) (ops : List LogOp)
    (hn : log.nextSeq + ops.length < 2 ^ 64) (m : Nat) :
    nextSeqOf (old.flatMap Prod.snd ++
        (active ++ (Log.numberRecords log.nextSeq ops).take m)) < 2 ^ 64 ∧
      nextSeqOf (old.flatMap Prod.snd ++ (active ++ Log.numberRecords log.nextSeq ops)) =
        log.nextSeq + ops.length := by
  have hall : nextSeqOf (old.flatMap Prod.snd ++
      (active ++ Log.numberRecords log.nextSeq ops)) = log.nextSeq + ops.length := by
    rw [← List.append_assoc, nextSeqOf_append, ← h.nextSeq]
    by_cases ho : ops = []
    · simp [ho, Log.numberRecords]
    · rw [Log.nextSeqOf_numberRecords ho]
      omega
  have hsplit := nextSeqOf_append
    (old.flatMap Prod.snd ++ (active ++ (Log.numberRecords log.nextSeq ops).take m))
    ((Log.numberRecords log.nextSeq ops).drop m)
  simp only [List.append_assoc, List.take_append_drop] at hsplit
  exact ⟨by omega, hall⟩

/-- What an append call leaves on disk, however far it got: the old records, the
whole records of the granted bytes, and an inert tail. -/
theorem Running.appendBatch_disk (h : Running crc32 dir log old active) (io : Io)
    {ops : List LogOp} (hops : ∀ op ∈ ops, op.Fits) (hn : log.nextSeq + ops.length < 2 ^ 64) :
    let records := Log.numberRecords log.nextSeq ops
    let granted := io.budget (encodeAll crc32 records).length
    ∃ old' id' active' tail,
      OnDisk crc32 (log.appendBatch crc32 io dir ops).2.2 old' id' active' tail ∧
      old'.flatMap Prod.snd ++ active' =
        old.flatMap Prod.snd ++ active ++ records.take (wholeRecords records granted) := by
  intro records granted
  obtain ⟨old', active', hr, hrec, hseq, -⟩ := h.rollOver (Log.totalLen records)
  have hfits : ∀ r ∈ records, r.Fits := Log.numberRecords_fits hops hn
  obtain ⟨tail, htake, hinert⟩ := encodeAll_take crc32 hfits granted
  have hdisk := (Segment.appendBatch_disk crc32 hr.file hr.pos io records).1
  rw [htake, ← List.append_assoc, ← encodeAll_append] at hdisk
  have hnext := (hr.next_append ops (by rw [hseq]; exact hn) (wholeRecords records granted)).1
  rw [hseq] at hnext
  refine ⟨old', (log.rollOverIfNeeded dir (Log.totalLen records)).1.activeId,
    active' ++ records.take (wholeRecords records granted), tail, ?_, ?_⟩
  · have hfits' : ∀ r ∈ active' ++ records.take (wholeRecords records granted), r.Fits := by
      intro r hr'
      rcases List.mem_append.mp hr' with hr' | hr'
      · exact hr.disk.active_fits r hr'
      · exact hfits r (List.mem_of_mem_take hr')
    have hfinal := hr.disk.replace hfits' hnext hinert
    rw [← hdisk] at hfinal
    have hproj : (log.appendBatch crc32 io dir ops).2.2 =
        (Segment.appendBatch crc32 io (log.rollOverIfNeeded dir (Log.totalLen records)).2
          (log.rollOverIfNeeded dir (Log.totalLen records)).1.activeId
          (log.rollOverIfNeeded dir (Log.totalLen records)).1.active records).2.2 := by
      simp only [Log.appendBatch, if_neg (not_le.mpr hn)]
      split <;> rename_i he <;> simp only [records, he]
    rw [hproj]
    exact hfinal
  · rw [← List.append_assoc, hrec]

/-- An acknowledged batch: its records, numbered from the counter, follow the old
ones, and the log stays in step. -/
theorem Running.appendBatch_done (h : Running crc32 dir log old active)
    {ops : List LogOp} (hops : ∀ op ∈ ops, op.Fits) (hn : log.nextSeq + ops.length < 2 ^ 64) :
    ∃ log' dir' old' active',
      log.appendBatch crc32 .done dir ops =
        (.ok (Log.numberRecords log.nextSeq ops), log', dir') ∧
      Running crc32 dir' log' old' active' ∧
      old'.flatMap Prod.snd ++ active' =
        old.flatMap Prod.snd ++ active ++ Log.numberRecords log.nextSeq ops ∧
      log'.nextSeq = log.nextSeq + ops.length ∧ log'.segmentMaxBytes = log.segmentMaxBytes := by
  let records := Log.numberRecords log.nextSeq ops
  obtain ⟨old', active', hr, hrec, hseq, hmax⟩ := h.rollOver (Log.totalLen records)
  have hfits : ∀ r ∈ records, r.Fits := Log.numberRecords_fits hops hn
  obtain ⟨offsets, hw⟩ := Segment.appendBatch_done crc32 hr.file hr.pos records
  rw [hr.len, ← List.length_append] at hw
  have hnext := hr.next_append ops (by rw [hseq]; exact hn) 0
  rw [hseq] at hnext
  have hfits' : ∀ r ∈ active' ++ records, r.Fits := by
    intro r hr'
    rcases List.mem_append.mp hr' with hr' | hr'
    · exact hr.disk.active_fits r hr'
    · exact hfits r hr'
  have hdisk := hr.disk.replace hfits' (hnext.2.trans_lt hn) (inert_nil crc32)
  rw [List.append_nil, encodeAll_append] at hdisk
  let length := (encodeAll crc32 active' ++ encodeAll crc32 records).length
  refine ⟨{ (log.rollOverIfNeeded dir (Log.totalLen records)).1 with
      active := ⟨length, length⟩, nextSeq := log.nextSeq + ops.length }, _, old',
    active' ++ records, ?_, ⟨hdisk, hr.sealedIds, ?_, hnext.2.symm⟩, ?_, rfl, hmax⟩
  · simp only [Log.appendBatch, if_neg (not_le.mpr hn), records, length, hw]
  · rw [encodeAll_append]
  · rw [← List.append_assoc, hrec]

/-- A batch is appended, however long, unless the counter is at its end. -/
theorem Log.appendBatch_room {log : Log} {ops : List LogOp}
    (h : log.nextSeq + ops.length < 2 ^ 64) (crc32 : Checksum) (dir : SegmentDir) :
    ∃ log' dir', log.appendBatch crc32 .done dir ops =
      (.ok (numberRecords log.nextSeq ops), log', dir') := by
  have written : ∀ (dir : SegmentDir) (id : Nat) (s : Segment) (records : List Record),
      ∃ offsets s' dir', Segment.appendBatch crc32 .done dir id s records =
        (.ok offsets, s', dir') := by
    intro dir id s records
    have hsome := (Segment.writeLoop_offsets crc32 records ((dir.get? id).getD []) s.pos s.len
      (encodeAll crc32 records).length).mpr le_rfl
    obtain ⟨⟨offsets, next⟩, hoffsets⟩ := Option.isSome_iff_exists.mp hsome
    simp only [Segment.appendBatch, Io.budget, hoffsets]
    exact ⟨_, _, _, rfl⟩
  obtain ⟨offsets, s', dir', hsegment⟩ := written
    (log.rollOverIfNeeded dir (totalLen (numberRecords log.nextSeq ops))).2
    (log.rollOverIfNeeded dir (totalLen (numberRecords log.nextSeq ops))).1.activeId
    (log.rollOverIfNeeded dir (totalLen (numberRecords log.nextSeq ops))).1.active
    (numberRecords log.nextSeq ops)
  unfold appendBatch
  rw [if_neg (not_le.mpr h)]
  simp only [hsegment]
  exact ⟨_, _, rfl⟩

end Append
end Sietch
