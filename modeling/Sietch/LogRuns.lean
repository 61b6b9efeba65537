import Sietch.Base.Run
import Sietch.LogSpec

/-! Whole runs of a log: opens with any segment size, acknowledged appends, and
appends interrupted by a crash at any byte. -/
namespace Sietch
open ByteString Transition

inductive Call where
  | put (key value : Bytes)
  | delete (key : Bytes)
  | batch (ops : List LogOp)
  deriving DecidableEq, Repr

def Call.ops : Call → List LogOp
  | .put key value => [.put key value]
  | .delete key => [.delete key]
  | .batch ops => ops

/-- The public append call, its result always as a list of records. -/
def Call.exec (crc32 : Checksum) (io : Io) (dir : SegmentDir) (log : Log) :
    Call → Outcome LogError (List Record) × Log × SegmentDir
  | .put key value =>
      let r := log.appendPut crc32 io dir key value
      (r.1 >>= fun record => .ok [record], r.2)
  | .delete key =>
      let r := log.appendDelete crc32 io dir key
      (r.1 >>= fun record => .ok [record], r.2)
  | .batch ops => log.appendBatch crc32 io dir ops

theorem Log.appendBatch_ok {crc32 : Checksum} {io : Io} {dir : SegmentDir} {log : Log}
    {ops : List LogOp} {records : List Record} {log' : Log} {dir' : SegmentDir}
    (h : log.appendBatch crc32 io dir ops = (.ok records, log', dir')) :
    records = numberRecords log.nextSeq ops ∧ log.nextSeq + ops.length < 2 ^ 64 := by
  simp only [appendBatch] at h
  split at h
  · cases h
  · rename_i hn
    split at h
    · cases h
      exact ⟨rfl, not_le.mp hn⟩
    · cases h
    · cases h

theorem Log.append_exec (crc32 : Checksum) (io : Io) (dir : SegmentDir) (log : Log) (op : LogOp) :
    ((log.append crc32 io dir (op.record log.nextSeq)).1 >>= fun record => .ok [record],
      (log.append crc32 io dir (op.record log.nextSeq)).2) = log.appendBatch crc32 io dir [op] := by
  simp only [append, opOf_record]
  rcases hr : log.appendBatch crc32 io dir [op] with ⟨out, log', dir'⟩
  cases out with
  | ok records =>
      have h := (Log.appendBatch_ok hr).1
      subst h
      rfl
  | err e => rfl
  | panic => rfl

/-- Single appends are batches of one. -/
theorem Call.exec_eq (crc32 : Checksum) (io : Io) (dir : SegmentDir) (log : Log) (call : Call) :
    call.exec crc32 io dir log = log.appendBatch crc32 io dir call.ops := by
  cases call with
  | put key value => exact Log.append_exec crc32 io dir log (.put key value)
  | delete key => exact Log.append_exec crc32 io dir log (.delete key)
  | batch ops => rfl

/-- Where a crash interrupts an append call: before a rolled-over segment file is
created, or when `written` bytes of the batch are in the file. -/
inductive Cut where
  | beforeRollOver
  | atByte (written : Nat)
  deriving DecidableEq, Repr

/-- How many records of the batch are whole in the file. -/
def Cut.kept (records : List Record) : Cut → Nat
  | .beforeRollOver => 0
  | .atByte written => wholeRecords records written

/-- The directory a crash inside the call leaves. -/
def Call.crashDir (crc32 : Checksum) (cut : Cut) (dir : SegmentDir) (log : Log) (call : Call) :
    SegmentDir :=
  match cut with
  | .beforeRollOver => dir
  | .atByte written => (call.exec crc32 (.writeFails written) dir log).2.2

inductive LogEvent where
  | opened (maxBytes : Nat)
  | openCrashed (maxBytes : Nat) (late : Bool)
  | acked (call : Call)
  | crashed (call : Call) (cut : Cut)
  | stopped
  deriving DecidableEq, Repr

/-- A call as it was made: the records it numbered, and whether it returned. -/
structure Issued where
  records : List Record
  acked : Bool
  deriving DecidableEq, Repr

structure LogWorld where
  dir : SegmentDir
  log : Option Log
  calls : List Issued
  deriving DecidableEq

def LogWorld.start : LogWorld := ⟨SortedMap.empty, none, []⟩

/-- A crashed open has either not touched the active file yet or is done with it. -/
inductive LogStep (crc32 : Checksum) : LogWorld → LogEvent → LogWorld → Prop where
  | opened {w maxBytes log report dir'} : w.log = none →
      Log.openWithSegmentSize crc32 w.dir maxBytes = (.ok (log, report), dir') →
      LogStep crc32 w (.opened maxBytes) ⟨dir', some log, w.calls⟩
  | openCrashed {w maxBytes late log report dir'} : w.log = none →
      Log.openWithSegmentSize crc32 w.dir maxBytes = (.ok (log, report), dir') →
      LogStep crc32 w (.openCrashed maxBytes late) ⟨if late then dir' else w.dir, none, w.calls⟩
  | acked {w log call records log' dir'} : w.log = some log → (∀ op ∈ call.ops, op.Fits) →
      call.exec crc32 .done w.dir log = (.ok records, log', dir') →
      LogStep crc32 w (.acked call) ⟨dir', some log',
        w.calls ++ [⟨Log.numberRecords log.nextSeq call.ops, true⟩]⟩
  | crashed {w log call cut} : w.log = some log → (∀ op ∈ call.ops, op.Fits) →
      LogStep crc32 w (.crashed call cut) ⟨call.crashDir crc32 cut w.dir log, none,
        w.calls ++ [⟨Log.numberRecords log.nextSeq call.ops, false⟩]⟩
  | stopped {w log} : w.log = some log → LogStep crc32 w .stopped ⟨w.dir, none, w.calls⟩

def Issued.Keeps (i : Issued) (kept : List Record) : Prop :=
  if i.acked then kept = i.records else kept <+: i.records

/-- The records are made up, in call order, of what each call may contribute. -/
def Accounts (calls : List Issued) (records : List Record) : Prop :=
  ∃ kept : List (List Record), List.Forall₂ Issued.Keeps calls kept ∧ records = kept.flatten

theorem Accounts.snoc {calls : List Issued} {records more : List Record} {i : Issued}
    (h : Accounts calls records) (hi : i.Keeps more) : Accounts (calls ++ [i]) (records ++ more) := by
  obtain ⟨kept, hk, rfl⟩ := h
  refine ⟨kept ++ [more], ?_, by simp⟩
  exact List.rel_append hk (.cons hi .nil)

/-- Records numbered 0, 1, 2, ... -/
def Numbered (records : List Record) : Prop := records.map Record.seq = List.range records.length

theorem Numbered.nextSeq {records : List Record} (h : Numbered records) :
    nextSeqOf records = records.length := by
  by_cases hne : records = []
  · simp [hne]
  · obtain ⟨r, hr, htop⟩ := exists_top_seq hne
    have hlt : r.seq < records.length := by
      have hm := List.mem_map_of_mem (f := Record.seq) hr
      rw [h] at hm
      exact List.mem_range.mp hm
    have hpos : 0 < records.length := List.length_pos_of_ne_nil hne
    have hlast : records.length - 1 ∈ records.map Record.seq := by
      rw [h]
      exact List.mem_range.mpr (by omega)
    obtain ⟨q, hq, hqs⟩ := List.mem_map.mp hlast
    have := seq_lt_nextSeqOf hq
    omega

theorem Numbered.append {records : List Record} (h : Numbered records) (ops : List LogOp) :
    Numbered (records ++ Log.numberRecords records.length ops) := by
  have hr := List.range'_append_1 (s := 0) (m := records.length) (n := ops.length)
  rw [Nat.zero_add] at hr
  rw [Numbered, List.map_append, h, Log.numberRecords_seqs, List.length_append,
    Log.length_numberRecords, List.range_eq_range', List.range_eq_range', hr]

theorem Numbered.take {records : List Record} (h : Numbered records) (n : Nat) :
    Numbered (records.take n) := by
  rw [Numbered, List.map_take, h, List.take_range, List.length_take]

/-- The directory holds these records: nothing yet, a log with a possibly torn
last file, or a log that is in step with a running process. -/
inductive Holds (crc32 : Checksum) : SegmentDir → Option Log → List Record → Prop where
  | fresh : Holds crc32 SortedMap.empty none []
  | resting {dir old id active tail} : OnDisk crc32 dir old id active tail →
      Holds crc32 dir none (old.flatMap Prod.snd ++ active)
  | live {dir log old active} : Running crc32 dir log old active →
      Holds crc32 dir (some log) (old.flatMap Prod.snd ++ active)

section Runs
variable {crc32 : Checksum}

theorem Holds.rest {dir : SegmentDir} {log : Option Log} {records : List Record}
    (h : Holds crc32 dir log records) : Holds crc32 dir none records := by
  cases h with
  | fresh => exact .fresh
  | resting hd => exact .resting hd
  | live hr => exact .resting hr.disk

/-- Every open succeeds, reports exactly the records held, and leaves a log in
step. -/
theorem Holds.opens {dir : SegmentDir} {log : Option Log} {records : List Record}
    (h : Holds crc32 dir log records) (maxBytes : Nat) :
    ∃ log' torn dir', Log.openWithSegmentSize crc32 dir maxBytes =
        (.ok (log', ⟨records, torn⟩), dir') ∧
      Holds crc32 dir' (some log') records ∧ log'.nextSeq = nextSeqOf records := by
  cases h.rest with
  | fresh =>
      obtain ⟨log', dir', ho, hr, -⟩ := openWithSegmentSize_empty crc32 maxBytes
      exact ⟨log', false, dir', ho, .live hr, hr.nextSeq⟩
  | resting hd =>
      obtain ⟨log', dir', ho, hr, -⟩ := openWithSegmentSize_onDisk hd maxBytes
      exact ⟨log', _, dir', ho, .live hr, hr.nextSeq⟩

theorem Holds.running {dir : SegmentDir} {log : Log} {records : List Record}
    (h : Holds crc32 dir (some log) records) :
    ∃ old active, Running crc32 dir log old active ∧ records = old.flatMap Prod.snd ++ active := by
  cases h with
  | live hr => exact ⟨_, _, hr, rfl⟩

theorem Holds.nextSeq {dir : SegmentDir} {log : Log} {records : List Record}
    (h : Holds crc32 dir (some log) records) : log.nextSeq = nextSeqOf records := by
  cases h with
  | live hr => exact hr.nextSeq

theorem Holds.acked {dir dir' : SegmentDir} {log log' : Log} {records added : List Record}
    {call : Call} (h : Holds crc32 dir (some log) records) (hfit : ∀ op ∈ call.ops, op.Fits)
    (he : call.exec crc32 .done dir log = (.ok added, log', dir')) :
    Holds crc32 dir' (some log') (records ++ added) ∧
      added = Log.numberRecords log.nextSeq call.ops := by
  cases h with
  | live hr =>
      rw [Call.exec_eq] at he
      obtain ⟨hadd, hn⟩ := Log.appendBatch_ok he
      obtain ⟨log2, dir2, old2, active2, he2, hr2, hrec, -, -⟩ := hr.appendBatch_done hfit hn
      rw [he] at he2
      obtain ⟨h1, h2, h3⟩ : added = Log.numberRecords log.nextSeq call.ops ∧ log' = log2 ∧
          dir' = dir2 := by simpa using he2
      subst h2 h3
      rw [hadd, ← hrec]
      exact ⟨.live hr2, rfl⟩

/-- A single put is acknowledged unless the counter is at its end. -/
theorem Holds.appendPut {dir : SegmentDir} {log : Log} {records : List Record} {key value : Bytes}
    (h : Holds crc32 dir (some log) records) (hfit : (LogOp.put key value).Fits)
    (hn : log.nextSeq + 1 < 2 ^ 64) :
    ∃ log' dir', log.appendPut crc32 .done dir key value =
        (.ok (.put log.nextSeq key value), log', dir') ∧
      Holds crc32 dir' (some log') (records ++ [.put log.nextSeq key value]) ∧
      log'.nextSeq = log.nextSeq + 1 := by
  cases h with
  | live hr =>
      have hops : ∀ op ∈ [LogOp.put key value], op.Fits := by simpa using hfit
      obtain ⟨log', dir', old', active', he, hr', hrec, hseq, -⟩ := hr.appendBatch_done hops hn
      refine ⟨log', dir', ?_, ?_, hseq⟩
      · simp only [Log.appendPut, Log.append, Log.opOf, Record.put, he]
        rfl
      · have hnum : Log.numberRecords log.nextSeq [LogOp.put key value] =
            [.put log.nextSeq key value] := rfl
        rw [← hnum, ← hrec]
        exact .live hr'

theorem appendPut_panic {dir : SegmentDir} {log : Log} {key value : Bytes}
    (hn : 2 ^ 64 ≤ log.nextSeq + 1) :
    log.appendPut crc32 .done dir key value = (.panic, log, dir) := by
  rw [Log.appendPut, Log.append, Log.appendBatch, if_pos (by simpa using hn)]

theorem Holds.crashed_kept {dir : SegmentDir} {log : Log} {records : List Record} {call : Call}
    (h : Holds crc32 dir (some log) records) (hfit : ∀ op ∈ call.ops, op.Fits)
    (hn : log.nextSeq + call.ops.length < 2 ^ 64) (cut : Cut) :
    let batch := Log.numberRecords log.nextSeq call.ops
    Holds crc32 (call.crashDir crc32 cut dir log) none (records ++ batch.take (cut.kept batch)) := by
  cases cut with
  | beforeRollOver => simpa [Call.crashDir, Cut.kept] using h.rest
  | atByte written =>
      simp only [Call.crashDir, Call.exec_eq]
      cases h with
      | live hr =>
          obtain ⟨old', id', active', tail, hd, hrec⟩ :=
            hr.appendBatch_disk (.writeFails written) hfit hn
          have hdisk := Holds.resting hd
          rw [hrec] at hdisk
          exact hdisk

theorem Holds.crashed {dir : SegmentDir} {log : Log} {records : List Record} {call : Call}
    (h : Holds crc32 dir (some log) records) (hfit : ∀ op ∈ call.ops, op.Fits) (cut : Cut) :
    ∃ m, Holds crc32 (call.crashDir crc32 cut dir log) none
      (records ++ (Log.numberRecords log.nextSeq call.ops).take m) := by
  by_cases hn : log.nextSeq + call.ops.length < 2 ^ 64
  · exact ⟨_, h.crashed_kept hfit hn cut⟩
  · have hsame : call.crashDir crc32 cut dir log = dir := by
      cases cut with
      | beforeRollOver => rfl
      | atByte written =>
          rw [Call.crashDir, Call.exec_eq, Log.appendBatch, if_pos (not_lt.mp hn)]
    exact ⟨0, by simpa [hsame] using h.rest⟩

def LogWorld.Inv (crc32 : Checksum) (w : LogWorld) : Prop :=
  ∃ records, Holds crc32 w.dir w.log records ∧ Accounts w.calls records ∧ Numbered records

theorem LogStep.inv {w w' : LogWorld} {e : LogEvent} (h : w.Inv crc32) (hs : LogStep crc32 w e w') :
    w'.Inv crc32 := by
  obtain ⟨records, hh, ha, hnum⟩ := h
  cases hs with
  | opened hlog ho =>
      obtain ⟨log2, torn, dir2, ho2, hl, -⟩ := hh.opens _
      rw [ho2] at ho
      cases ho
      exact ⟨records, hl, ha, hnum⟩
  | @openCrashed maxBytes late log report dir' hlog ho =>
      obtain ⟨log2, torn, dir2, ho2, hl, -⟩ := hh.opens maxBytes
      rw [ho2] at ho
      cases ho
      cases late with
      | true => exact ⟨records, hl.rest, ha, hnum⟩
      | false => exact ⟨records, hh.rest, ha, hnum⟩
  | @acked log call added log' dir' hlog hfit he =>
      rw [hlog] at hh
      have hseq : log.nextSeq = records.length := hh.nextSeq.trans hnum.nextSeq
      obtain ⟨hh', rfl⟩ := hh.acked hfit he
      refine ⟨_, hh', ha.snoc (by simp [Issued.Keeps]), ?_⟩
      rw [hseq]
      exact hnum.append call.ops
  | @crashed log call cut hlog hfit =>
      rw [hlog] at hh
      have hseq : log.nextSeq = records.length := hh.nextSeq.trans hnum.nextSeq
      obtain ⟨m, hh'⟩ := hh.crashed hfit cut
      refine ⟨_, hh', ha.snoc (by simpa [Issued.Keeps] using List.take_prefix _ _), ?_⟩
      have htake := (hnum.append call.ops).take (records.length + m)
      rw [List.take_append, List.take_of_length_le (by omega)] at htake
      simpa [hseq] using htake
  | stopped hlog => exact ⟨records, hh.rest, ha, hnum⟩

theorem logRun_inv {events : List LogEvent} {w : LogWorld}
    (h : Run (LogStep crc32) LogWorld.start events w) : w.Inv crc32 :=
  h.invariant ⟨[], .fresh, ⟨[], .nil, rfl⟩, rfl⟩ (fun _ _ _ hi hs => hs.inv hi)

/-- The log loses nothing that was acknowledged and invents nothing: after any run
with crashes every open succeeds, its records are those of the acknowledged calls
and whole-record beginnings of the interrupted ones, numbered without a gap. -/
theorem open_after_run {events : List LogEvent} {w : LogWorld}
    (h : Run (LogStep crc32) LogWorld.start events w) (maxBytes : Nat) :
    ∃ log report dir', Log.openWithSegmentSize crc32 w.dir maxBytes = (.ok (log, report), dir') ∧
      Accounts w.calls report.records ∧
      report.records.map Record.seq = List.range report.records.length ∧
      log.nextSeq = report.records.length := by
  obtain ⟨records, hh, ha, hnum⟩ := logRun_inv h
  obtain ⟨log, torn, dir', ho, -, hseq⟩ := hh.opens maxBytes
  exact ⟨log, ⟨records, torn⟩, dir', ho, ha, hnum, hseq.trans hnum.nextSeq⟩

/-- A put, then a delete that a crash interrupts in its fifth byte, after it has
rolled over to a second segment. -/
theorem open_after_interrupted_delete :
    ∃ w, Run (LogStep crc32Ieee) LogWorld.start [.opened 40, .acked (.put [107] [118]),
        .crashed (.delete [107]) (.atByte 5)] w ∧ w.dir.keys = [0, 1] ∧
      ∃ log report dir', Log.openWithSegmentSize crc32Ieee w.dir 9 = (.ok (log, report), dir') ∧
        Accounts w.calls report.records ∧
        report.records.map Record.seq = List.range report.records.length ∧
        log.nextSeq = report.records.length := by
  have hrun : Run (LogStep crc32Ieee) LogWorld.start [.opened 40, .acked (.put [107] [118]),
      .crashed (.delete [107]) (.atByte 5)] _ :=
    .snoc (.snoc (.snoc .nil (.opened rfl rfl)) (.acked rfl (by simp [Call.ops, LogOp.Fits]) rfl))
      (.crashed rfl (by simp [Call.ops, LogOp.Fits]))
  exact ⟨_, hrun, by decide +kernel, open_after_run hrun 9⟩

/-- The log of a fresh directory as `Log::open` returns it. -/
def freshLog : Log := ⟨defaultSegmentMaxBytes, [], 0, ⟨0, 0⟩, 0⟩

theorem freshLog_run (crc32 : Checksum) :
    Run (LogStep crc32) LogWorld.start [.opened defaultSegmentMaxBytes]
      ⟨SortedMap.empty.insert 0 [], some freshLog, []⟩ :=
  .snoc .nil (.opened rfl rfl)

end Runs

end Sietch
