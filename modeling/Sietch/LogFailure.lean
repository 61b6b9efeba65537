import Sietch.LogRuns

/-! A failed append in a process that goes on: the file position has moved past
the bytes that were written, the logical length has not. The log is unharmed
exactly when no byte of the batch reached the file. -/
namespace Sietch
open ByteString Transition

/-- Further calls on the same log, all of them acknowledged; the records they
returned. -/
def appendAll (crc32 : Checksum) (dir : SegmentDir) (log : Log) :
    List Call → Option (List Record × Log × SegmentDir)
  | [] => some ([], log, dir)
  | call :: calls =>
      match call.exec crc32 .done dir log with
      | (.ok records, log', dir') =>
          (appendAll crc32 dir' log' calls).map (fun r => (records ++ r.1, r.2))
      | _ => none

/-- The log goes on as if the failed batch had never been tried: whatever is
acknowledged later, every open returns the records from before and those. -/
def Unharmed (crc32 : Checksum) (before : List Record) (log : Log) (dir : SegmentDir) : Prop :=
  ∀ calls : List Call, (∀ call ∈ calls, ∀ op ∈ call.ops, op.Fits) →
    ∀ later log' dir', appendAll crc32 dir log calls = some (later, log', dir') →
      ∀ maxBytes, ∃ log'' torn dir'', Log.openWithSegmentSize crc32 dir' maxBytes =
        (.ok (log'', ⟨before ++ later, torn⟩), dir'')

section Failed
variable {crc32 : Checksum} {dir : SegmentDir} {log : Log} {records : List Record}

theorem Holds.appendAll {calls : List Call} (hfit : ∀ call ∈ calls, ∀ op ∈ call.ops, op.Fits)
    {later : List Record} {log' : Log} {dir' : SegmentDir}
    (h : Holds crc32 dir (some log) records)
    (ha : appendAll crc32 dir log calls = some (later, log', dir')) :
    Holds crc32 dir' (some log') (records ++ later) := by
  induction calls generalizing dir log records later with
  | nil =>
      cases ha
      simpa using h
  | cons call calls ih =>
      obtain ⟨hf, hfs⟩ := List.forall_mem_cons.mp hfit
      simp only [Sietch.appendAll] at ha
      split at ha
      · rename_i added log2 dir2 he
        obtain ⟨⟨rest, log3, dir3⟩, hr, heq⟩ := Option.map_eq_some_iff.mp ha
        cases heq
        have h2 := (h.acked hf he).1
        simpa using ih hfs h2 hr
      · cases ha

theorem Holds.unharmed (h : Holds crc32 dir (some log) records) :
    Unharmed crc32 records log dir := by
  intro calls hfit later log' dir' ha maxBytes
  obtain ⟨log'', torn, dir'', ho, -, -⟩ := (h.appendAll hfit ha).opens maxBytes
  exact ⟨log'', torn, dir'', ho⟩

theorem Running.appendBatch_failed {old : List (Nat × List Record)} {active : List Record}
    (h : Running crc32 dir log old active) {io : Io} {ops : List LogOp}
    (hfail : (log.appendBatch crc32 io dir ops).1 = .err .io) :
    let batch := Log.numberRecords log.nextSeq ops
    let granted := (encodeAll crc32 batch).take (io.budget (encodeAll crc32 batch).length)
    log.nextSeq + ops.length < 2 ^ 64 ∧
    ∃ log' dir' old' active', Running crc32 dir' log' old' active' ∧
      old'.flatMap Prod.snd ++ active' = old.flatMap Prod.snd ++ active ∧
      log'.nextSeq = log.nextSeq ∧
      log.appendBatch crc32 io dir ops = (.err .io,
        { log' with active := ⟨(encodeAll crc32 active' ++ granted).length, log'.active.len⟩ },
        dir'.insert log'.activeId (encodeAll crc32 active' ++ granted)) := by
  intro batch granted
  have hn : log.nextSeq + ops.length < 2 ^ 64 := by
    by_contra hn
    rw [Log.appendBatch, if_pos (not_lt.mp hn)] at hfail
    cases hfail
  refine ⟨hn, ?_⟩
  obtain ⟨old', active', hr, hrec, hseq, -⟩ := h.rollOver (Log.totalLen batch)
  refine ⟨_, _, old', active', hr, hrec, hseq, ?_⟩
  simp only [Log.appendBatch, if_neg (not_le.mpr hn)] at hfail ⊢
  have hseg : (Segment.appendBatch crc32 io (log.rollOverIfNeeded dir (Log.totalLen batch)).2
      (log.rollOverIfNeeded dir (Log.totalLen batch)).1.activeId
      (log.rollOverIfNeeded dir (Log.totalLen batch)).1.active batch).1 = .err .io := by
    split at hfail
    · cases hfail
    · rename_i hw
      cases hfail
      rw [hw]
    · cases hfail
  have herr := Segment.appendBatch_err crc32 hr.file hr.pos hseg
  simp only [batch] at herr
  simp only [herr, batch, granted]

/-- The record type that differs from the one given: its encoding starts with
another byte. -/
def otherCall : Record → Call
  | ⟨.put, _, _, _⟩ => .delete []
  | ⟨.delete, _, _, _⟩ => .put [] []

theorem otherCall_spec (r : Record) :
    ∃ op, (otherCall r).ops = [op] ∧ op.Fits ∧
      ∀ seq, Record.typeByte (op.record seq).recordType ≠ Record.typeByte r.recordType := by
  obtain ⟨ty, seq, key, value⟩ := r
  cases ty with
  | put => exact ⟨.delete [], rfl, by simp [LogOp.Fits], fun _ => (by decide : (1 : Byte) ≠ 0)⟩
  | delete => exact ⟨.put [] [], rfl, by simp [LogOp.Fits], fun _ => (by decide : (0 : Byte) ≠ 1)⟩

theorem recoverLoop_ne_singleton {r : Record} {b : Byte} {bs : Bytes}
    (hb : b ≠ Record.typeByte r.recordType) (fuel : Nat) :
    (recoverLoop crc32 fuel (b :: bs)).1 ≠ [r] := by
  intro h
  cases fuel with
  | zero => simp [recoverLoop] at h
  | succ fuel =>
      simp only [recoverLoop] at h
      split at h
      · rename_i r' n hd
        obtain ⟨rfl, -⟩ := List.cons.inj h
        obtain ⟨hn, -, henc, -⟩ := decode_ok hd
        have hpos := r'.encodedLen_pos
        obtain ⟨m, rfl⟩ : ∃ m, n = m + 1 := ⟨n - 1, by omega⟩
        have hhead := congrArg (fun l : Bytes => l.headD 0) henc
        exact hb hhead.symm
      · cases h

/-- The log after a batch of which a piece of the first record was written: the
next acknowledged record of the other type is not recovered. -/
theorem torn_piece_harms {old : List (Nat × List Record)} {active : List Record} {r : Record}
    {n : Nat} (h : Running crc32 dir log old active) (hr : r.Fits) (hn : log.nextSeq + 1 < 2 ^ 64)
    (hpos : 0 < n) (hlt : n < r.encodedLen) :
    ¬ Unharmed crc32 (old.flatMap Prod.snd ++ active)
      { log with active :=
        ⟨(encodeAll crc32 active ++ (r.encode crc32).take n).length, log.active.len⟩ }
      (dir.insert log.activeId (encodeAll crc32 active ++ (r.encode crc32).take n)) := by
  intro hun
  obtain ⟨op, hop, hfit, htype⟩ := otherCall_spec r
  set piece := (r.encode crc32).take n with hpiece
  set dir2 := dir.insert log.activeId (encodeAll crc32 active ++ piece) with hdir2
  have hinert : Inert crc32 piece := inert_take crc32 hr hlt
  obtain ⟨bs, hbs⟩ : ∃ bs, piece = Record.typeByte r.recordType :: bs := by
    obtain ⟨m, rfl⟩ : ∃ m, n = m + 1 := ⟨n - 1, by omega⟩
    exact ⟨_, rfl⟩
  have hfitsOld : ∀ s ∈ old, ∀ r ∈ s.2, r.Fits := fun s hs r' hr' =>
    h.disk.fits r' (List.mem_append_left _ (List.mem_flatMap.mpr ⟨s, hs, hr'⟩))
  have hentries : dir2.entries = old.map (fun s => (s.1, encodeAll crc32 s.2)) ++
      [(log.activeId, encodeAll crc32 active ++ piece)] :=
    SortedMap.entries_insert_last (h.disk.entries) _
  have hfile : dir2.get? log.activeId = some (encodeAll crc32 active ++ piece) :=
    SortedMap.get?_of_entries_last hentries
  -- the continuation: one record whose type byte differs from the torn record's
  have hexec := hun [otherCall r] (by simpa [hop] using hfit)
  simp only [appendAll, Call.exec_eq, hop, Log.appendBatch, List.length_singleton,
    if_neg (not_le.mpr hn), Log.numberRecords] at hexec
  by_cases hroll : Segment.isEmpty ⟨(encodeAll crc32 active ++ piece).length, log.active.len⟩ ∨
      log.active.len + Log.totalLen [op.record log.nextSeq] ≤ log.segmentMaxBytes
  · obtain ⟨offsets, hw⟩ := Segment.appendBatch_done crc32
      (s := ⟨(encodeAll crc32 active ++ piece).length, log.active.len⟩) hfile rfl
      [op.record log.nextSeq]
    simp only [Log.rollOverIfNeeded, if_pos hroll, hw] at hexec
    obtain ⟨log3, torn, dir3, ho⟩ := hexec _ _ _ rfl 0
    have hrep := open_report_last hfitsOld (SortedMap.entries_insert_last hentries _) ho
    obtain ⟨fuel, hrec⟩ := recover_records_append crc32 h.disk.active_fits
      (piece ++ encodeAll crc32 [op.record log.nextSeq])
    rw [← List.append_assoc] at hrec
    rw [hrec] at hrep
    simp only [List.append_assoc, List.append_cancel_left_eq, List.append_nil] at hrep
    rw [hbs] at hrep
    exact recoverLoop_ne_singleton (htype log.nextSeq).symm fuel hrep.symm
  · have hnew : ∀ e ∈ dir2.entries, e.1 < log.activeId + 1 := by
      intro e he
      rw [hentries] at he
      rcases List.mem_append.mp he with he | he
      · obtain ⟨s, hs, rfl⟩ := List.mem_map.mp he
        exact (h.disk.old_lt s hs).trans (Nat.lt_succ_self _)
      · rw [List.mem_singleton.mp he]
        exact Nat.lt_succ_self _
    have hempty : setLen ((dir2.get? (log.activeId + 1)).getD []) 0 = [] := by simp [setLen]
    have hrolled := SortedMap.entries_insert_new hnew ([] : Bytes)
    obtain ⟨offsets, hw⟩ := Segment.appendBatch_done crc32 (s := ⟨0, 0⟩)
      (SortedMap.get?_of_entries_last hrolled) rfl [op.record log.nextSeq]
    simp only [Log.rollOverIfNeeded, if_neg hroll, Segment.openForAppend, hempty, hw] at hexec
    obtain ⟨log3, torn, dir3, ho⟩ := hexec _ _ _ rfl 0
    have hsealed := SortedMap.entries_insert_last hrolled
      ([] ++ encodeAll crc32 [op.record log.nextSeq])
    rw [hentries, List.append_assoc] at hsealed
    have htorn : (recover crc32 (encodeAll crc32 active ++ piece)).hadTornTail = true := by
      rw [recover_encodeAll crc32 h.disk.active_fits hinert, hbs]
      rfl
    rw [open_torn_sealed hfitsOld hsealed htorn] at ho
    cases ho

theorem Running.unmoved {old : List (Nat × List Record)} {active : List Record}
    (h : Running crc32 dir log old active) :
    Holds crc32 (dir.insert log.activeId (encodeAll crc32 active))
      (some { log with active := ⟨(encodeAll crc32 active).length, log.active.len⟩ })
      (old.flatMap Prod.snd ++ active) := by
  have hlog : { log with active := ⟨(encodeAll crc32 active).length, log.active.len⟩ } = log := by
    rw [h.len, ← h.segment]
  rw [hlog, h.disk.insert_same]
  exact .live h

theorem whole_records_harm {io : Io} {ops : List LogOp} {log' : Log} {dir' : SegmentDir}
    (h : Holds crc32 dir (some log) records) (hfit : ∀ op ∈ ops, op.Fits)
    (hfail : log.appendBatch crc32 io dir ops = (.err .io, log', dir'))
    (hn : log.nextSeq + ops.length < 2 ^ 64)
    (hm : wholeRecords (Log.numberRecords log.nextSeq ops)
      (io.budget (encodeAll crc32 (Log.numberRecords log.nextSeq ops)).length) ≠ 0) :
    ¬ Unharmed crc32 records log' dir' := by
  intro hun
  cases h with
  | live hr =>
      obtain ⟨old', id', active', tail, hd, hrec⟩ := hr.appendBatch_disk io hfit hn
      rw [hfail] at hd
      obtain ⟨log1, torn1, dir1, ho⟩ := hun [] (by simp) [] log' dir' rfl 0
      obtain ⟨log2, dir2, ho2, -, -⟩ := openWithSegmentSize_onDisk hd 0
      rw [ho2] at ho
      simp only [Outcome.ok.injEq, Prod.mk.injEq, OpenReport.mk.injEq, List.append_nil] at ho
      have hnil := hrec.symm.trans ho.1.2.1
      rw [List.append_right_eq_self, List.take_eq_nil_iff] at hnil
      rcases hnil with hnil | hnil
      · exact hm hnil
      · exact hm (by rw [hnil]; rfl)

theorem granted_of_no_whole (crc32 : Checksum) {r : Record} {rs : List Record} {n : Nat}
    (h : wholeRecords (r :: rs) n = 0) :
    n < r.encodedLen ∧ (encodeAll crc32 (r :: rs)).take n = (r.encode crc32).take n := by
  have hlt : n < r.encodedLen := by
    by_contra hn
    simp only [wholeRecords, if_pos (not_lt.mp hn)] at h
    omega
  refine ⟨hlt, ?_⟩
  rw [encodeAll_cons, List.take_append_of_le_length]
  rw [Record.length_encode]
  exact hlt.le

/-- A failed append leaves the log as it was exactly when none of the batch's
bytes reached the file. -/
theorem failed_append_unharmed_iff {events : List LogEvent} {w : LogWorld}
    (h : Run (LogStep crc32) LogWorld.start events w) (hlog : w.log = some log)
    {maxBytes : Nat} {opened : Log} {report : OpenReport} {dir0 : SegmentDir}
    (ho : Log.openWithSegmentSize crc32 w.dir maxBytes = (.ok (opened, report), dir0))
    {io : Io} {ops : List LogOp} (hfit : ∀ op ∈ ops, op.Fits) {log' : Log} {dir' : SegmentDir}
    (hfail : log.appendBatch crc32 io w.dir ops = (.err .io, log', dir')) :
    Unharmed crc32 report.records log' dir' ↔
      io.budget (encodeAll crc32 (Log.numberRecords log.nextSeq ops)).length = 0 := by
  obtain ⟨held, hh, -, -⟩ := logRun_inv h
  obtain ⟨dir, running, calls⟩ := w
  subst hlog
  obtain ⟨log1, torn, dir1, ho1, -, -⟩ := hh.opens maxBytes
  rw [ho1] at ho
  cases ho
  have hh0 := hh
  cases hh with
  | @live _ _ old active hr =>
      obtain ⟨hn, log2, dir2, old2, active2, hr2, hrec, hseq, heq⟩ :=
        hr.appendBatch_failed (congrArg Prod.fst hfail)
      have heq' := heq
      rw [hfail] at heq
      obtain ⟨-, rfl, rfl⟩ : _ ∧ log' = _ ∧ dir' = _ := by simpa only [Prod.mk.injEq] using heq
      constructor
      · intro hun
        by_contra hpos
        by_cases hm : wholeRecords (Log.numberRecords log.nextSeq ops)
            (io.budget (encodeAll crc32 (Log.numberRecords log.nextSeq ops)).length) = 0
        · cases ops with
          | nil =>
              cases io with
              | done => exact hpos rfl
              | syncFails => exact hpos rfl
              | writeFails n =>
                  simp only [Log.appendBatch, if_neg (not_le.mpr hn), Log.numberRecords,
                    Segment.appendBatch, Segment.writeLoop, Prod.mk.injEq, reduceCtorEq,
                    false_and] at heq'
          | cons op ops =>
              obtain ⟨hlt, hgranted⟩ := granted_of_no_whole crc32 hm
              have hfits : (op.record log.nextSeq).Fits :=
                Log.record_fits (hfit op (by simp)) (by omega)
              refine torn_piece_harms hr2 hfits ?_ (Nat.pos_of_ne_zero hpos) hlt ?_
              · simp only [List.length_cons] at hn
                omega
              · rw [hrec, ← hgranted]
                exact hun
        · exact whole_records_harm hh0 hfit heq' hn hm hun
      · intro hzero
        rw [hzero, List.take_zero, List.append_nil, ← hrec]
        exact hr2.unmoved.unharmed

/-- One byte of a put reaches the file, the call fails, the next put is
acknowledged, and the log opened afterwards is empty. -/
theorem failed_append_loses_next_put :
    Run (LogStep crc32Ieee) LogWorld.start [.opened defaultSegmentMaxBytes]
        ⟨SortedMap.empty.insert 0 [], some freshLog, []⟩ ∧
      freshLog.appendBatch crc32Ieee (.writeFails 1) (SortedMap.empty.insert 0 [])
          [.put [107] [118]] =
        (.err .io, { freshLog with active := ⟨1, 0⟩ }, SortedMap.empty.insert 0 [0]) ∧
      Log.appendPut crc32Ieee .done (SortedMap.empty.insert 0 [0])
          { freshLog with active := ⟨1, 0⟩ } [97] [98] =
        (.ok (Record.put 0 [97] [98]), { freshLog with active := ⟨24, 23⟩, nextSeq := 1 },
          SortedMap.empty.insert 0 (0 :: (Record.put 0 [97] [98]).encode crc32Ieee)) ∧
      Log.openDefault crc32Ieee
          (SortedMap.empty.insert 0 (0 :: (Record.put 0 [97] [98]).encode crc32Ieee)) =
        (.ok (freshLog, ⟨[], true⟩), SortedMap.empty.insert 0 []) :=
  ⟨freshLog_run crc32Ieee, by decide +kernel, by decide +kernel, by decide +kernel⟩

def onePutLog : Log := { freshLog with active := ⟨23, 23⟩, nextSeq := 1 }

def onePutDir : SegmentDir := SortedMap.empty.insert 0 ((Record.put 0 [97] [98]).encode crc32Ieee)

theorem onePut_run : Run (LogStep crc32Ieee) LogWorld.start
    [.opened defaultSegmentMaxBytes, .acked (.put [97] [98])]
    ⟨onePutDir, some onePutLog, [⟨[Record.put 0 [97] [98]], true⟩]⟩ := by
  have hexec : Call.exec crc32Ieee .done (SortedMap.empty.insert 0 []) freshLog (.put [97] [98]) =
      (.ok [Record.put 0 [97] [98]], onePutLog, onePutDir) := by
    decide +kernel
  have hfit : ∀ op ∈ (Call.put [97] [98]).ops, op.Fits := by
    simp [Call.ops, LogOp.Fits]
  have hacked := LogStep.acked (w := ⟨SortedMap.empty.insert 0 [], some freshLog, []⟩) rfl hfit hexec
  exact (freshLog_run crc32Ieee).snoc hacked

/-- A second put none of whose bytes was written does no harm to the first. -/
theorem failed_append_unharmed_second :
    onePutLog.appendBatch crc32Ieee (.writeFails 0) onePutDir [.put [107] [118]] =
      (.err .io, onePutLog, onePutDir) ∧
    Unharmed crc32Ieee [Record.put 0 [97] [98]] onePutLog onePutDir := by
  have hfail : onePutLog.appendBatch crc32Ieee (.writeFails 0) onePutDir [.put [107] [118]] =
      (.err .io, onePutLog, onePutDir) := by
    decide +kernel
  have hopen : Log.openWithSegmentSize crc32Ieee onePutDir defaultSegmentMaxBytes =
      (.ok (onePutLog, ⟨[Record.put 0 [97] [98]], false⟩), onePutDir) := by
    decide +kernel
  have hfit : ∀ op ∈ [LogOp.put [107] [118]], op.Fits := by
    simp [LogOp.Fits]
  exact ⟨hfail, (failed_append_unharmed_iff onePut_run rfl hopen hfit hfail).mpr rfl⟩

end Failed
end Sietch
