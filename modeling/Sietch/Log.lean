import Sietch.Segment

/-! The append-only log: a directory of segment files, of which the last is
active. Opening replays every segment in id order; only the last one may end in
a torn tail. Counters are u64, and one that overflows panics, as in a build with overflow
checks: the dev profile has them. A release build wraps around instead. -/
namespace Sietch
open ByteString

inductive LogOp where
  | put (key value : Bytes)
  | delete (key : Bytes)
  deriving DecidableEq, Repr

def LogOp.key : LogOp → Bytes
  | .put key _ => key
  | .delete key => key

def LogOp.record (seq : Nat) : LogOp → Record
  | .put key value => Record.put seq key value
  | .delete key => Record.delete seq key

/-- Key and value within the lengths that the record header can state. -/
def LogOp.Fits : LogOp → Prop
  | .put key value => key.length < 2 ^ 32 ∧ value.length < 2 ^ 32
  | .delete key => key.length < 2 ^ 32

def defaultSegmentMaxBytes : Nat := 4 * 1024 * 1024

/-- `sealedIds` lists the ids of the segments before the active one. -/
structure Log where
  segmentMaxBytes : Nat
  sealedIds : List Nat
  activeId : Nat
  active : Segment
  nextSeq : Nat
  deriving DecidableEq, Repr

structure OpenReport where
  records : List Record
  recoveredFromTornTail : Bool
  deriving DecidableEq, Repr

/-- The running maximum of the source's `max_seq_seen`. -/
def maxSeqSeen (seen : Option Nat) (records : List Record) : Option Nat :=
  records.foldl (fun m r => some (m.elim r.seq (fun s => max s r.seq))) seen

namespace Log

/-- The loop over the segment files in id order, with the source's accumulators. The
directory is returned with every outcome: an error is returned before a file is touched,
`s + 1` panics after the active one was cut. -/
def openLoop (crc32 : Checksum) (dir : SegmentDir) (segmentMaxBytes : Nat) (lastId : Option Nat) :
    List (Nat × Bytes) → List Record → List Nat → Bool → Option Nat →
      Outcome LogError (Log × OpenReport) × SegmentDir
  | [], allRecords, sealedIds, torn, _ =>
      let (active, dir') := Segment.openForAppend dir 0 0
      (.ok (⟨segmentMaxBytes, sealedIds, 0, active, 0⟩, ⟨allRecords, torn⟩), dir')
  | (id, buf) :: rest, allRecords, sealedIds, torn, seen =>
      let recovered := recover crc32 buf
      let isLast : Bool := some id = lastId
      if recovered.hadTornTail ∧ ¬ isLast then (.err (.sealedSegmentCorrupted id), dir)
      else
        let torn' := torn || recovered.hadTornTail
        let seen' := maxSeqSeen seen recovered.records
        let allRecords' := allRecords ++ recovered.records
        if isLast then
          let (active, dir') := Segment.openForAppend dir id recovered.validLen
          let nextSeq := seen'.elim 0 (· + 1)
          if 2 ^ 64 ≤ nextSeq then (.panic, dir')
          else
            (.ok (⟨segmentMaxBytes, sealedIds, id, active, nextSeq⟩, ⟨allRecords', torn'⟩), dir')
        else openLoop crc32 dir segmentMaxBytes lastId rest allRecords' (sealedIds ++ [id]) torn' seen'

def openWithSegmentSize (crc32 : Checksum) (dir : SegmentDir) (segmentMaxBytes : Nat) :
    Outcome LogError (Log × OpenReport) × SegmentDir :=
  openLoop crc32 dir segmentMaxBytes dir.keys.getLast? dir.entries [] [] false none

/-- `Log::open`. -/
def openDefault (crc32 : Checksum) (dir : SegmentDir) :
    Outcome LogError (Log × OpenReport) × SegmentDir :=
  openWithSegmentSize crc32 dir defaultSegmentMaxBytes

def rollOverIfNeeded (dir : SegmentDir) (log : Log) (incomingLen : Nat) : Log × SegmentDir :=
  if log.active.isEmpty ∨ log.active.len + incomingLen ≤ log.segmentMaxBytes then (log, dir)
  else
    let (active, dir') := Segment.openForAppend dir (log.activeId + 1) 0
    ({ log with sealedIds := log.sealedIds ++ [log.activeId], activeId := log.activeId + 1, active },
      dir')

/-- The records of a batch, numbered from `seq`. -/
def numberRecords : Nat → List LogOp → List Record
  | _, [] => []
  | seq, op :: ops => op.record seq :: numberRecords (seq + 1) ops

def totalLen (records : List Record) : Nat := (records.map Record.encodedLen).sum

/-- `append_batch`. Numbering stops in a panic before anything is written when the
u64 counter would overflow. -/
def appendBatch (crc32 : Checksum) (io : Io) (dir : SegmentDir) (log : Log) (ops : List LogOp) :
    Outcome LogError (List Record) × Log × SegmentDir :=
  if 2 ^ 64 ≤ log.nextSeq + ops.length then (.panic, log, dir)
  else
    let records := numberRecords log.nextSeq ops
    let (log', dir') := rollOverIfNeeded dir log (totalLen records)
    match Segment.appendBatch crc32 io dir' log'.activeId log'.active records with
    | (.ok _, active, dir'') =>
        (.ok records, { log' with active, nextSeq := log.nextSeq + ops.length }, dir'')
    | (.err e, active, dir'') => (.err e, { log' with active }, dir'')
    | (.panic, active, dir'') => (.panic, { log' with active }, dir'')

def opOf (record : Record) : LogOp :=
  match record.recordType with
  | .put => .put record.key record.value
  | .delete => .delete record.key

/-- `append`: the batch of one record, whose only element is returned. -/
def append (crc32 : Checksum) (io : Io) (dir : SegmentDir) (log : Log) (record : Record) :
    Outcome LogError Record × Log × SegmentDir :=
  match appendBatch crc32 io dir log [opOf record] with
  | (.ok (r :: _), log', dir') => (.ok r, log', dir')
  | (.ok [], log', dir') => (.panic, log', dir')
  | (.err e, log', dir') => (.err e, log', dir')
  | (.panic, log', dir') => (.panic, log', dir')

def appendPut (crc32 : Checksum) (io : Io) (dir : SegmentDir) (log : Log) (key value : Bytes) :
    Outcome LogError Record × Log × SegmentDir :=
  append crc32 io dir log (Record.put log.nextSeq key value)

def appendDelete (crc32 : Checksum) (io : Io) (dir : SegmentDir) (log : Log) (key : Bytes) :
    Outcome LogError Record × Log × SegmentDir :=
  append crc32 io dir log (Record.delete log.nextSeq key)

/-- `append_records_verbatim`: the given seqs are kept. -/
def appendRecordsVerbatim (crc32 : Checksum) (io : Io) (dir : SegmentDir) (log : Log)
    (records : List Record) : Outcome LogError Unit × Log × SegmentDir :=
  if records = [] then (.ok (), log, dir)
  else
    let (log', dir') := rollOverIfNeeded dir log (totalLen records)
    match Segment.appendBatch crc32 io dir' log'.activeId log'.active records with
    | (.ok _, active, dir'') =>
        let nextSeq := (maxSeqSeen none records).elim log'.nextSeq (fun s => max log'.nextSeq (s + 1))
        if 2 ^ 64 ≤ nextSeq then (.panic, { log' with active }, dir'')
        else (.ok (), { log' with active, nextSeq }, dir'')
    | (.err e, active, dir'') => (.err e, { log' with active }, dir'')
    | (.panic, active, dir'') => (.panic, { log' with active }, dir'')

def segmentCount (log : Log) : Nat := log.sealedIds.length + 1

end Log

/-- One more than the greatest seq, 0 for no records: what a reopened log counts
on from. -/
def nextSeqOf (records : List Record) : Nat := (maxSeqSeen none records).elim 0 (· + 1)

theorem maxSeqSeen_append (seen : Option Nat) (rs ss : List Record) :
    maxSeqSeen seen (rs ++ ss) = maxSeqSeen (maxSeqSeen seen rs) ss := by
  simp [maxSeqSeen]

theorem maxSeqSeen_elim (seen : Option Nat) (rs : List Record) :
    (maxSeqSeen seen rs).elim 0 (· + 1) = max (seen.elim 0 (· + 1)) (nextSeqOf rs) := by
  induction rs generalizing seen with
  | nil => simp [maxSeqSeen, nextSeqOf]
  | cons r rs ih =>
      have hcons : ∀ m, maxSeqSeen m (r :: rs) =
          maxSeqSeen (some (m.elim r.seq (fun s => max s r.seq))) rs := fun _ => rfl
      have hr : nextSeqOf (r :: rs) = max (r.seq + 1) (nextSeqOf rs) := by
        rw [nextSeqOf, hcons, ih]
        rfl
      rw [hcons, ih, hr]
      cases seen with
      | none => simp
      | some s =>
          simp only [Option.elim_some]
          omega

theorem nextSeqOf_append (rs ss : List Record) :
    nextSeqOf (rs ++ ss) = max (nextSeqOf rs) (nextSeqOf ss) := by
  rw [nextSeqOf, maxSeqSeen_append, maxSeqSeen_elim]
  rfl

@[simp] theorem nextSeqOf_nil : nextSeqOf [] = 0 := rfl

theorem nextSeqOf_cons (r : Record) (rs : List Record) :
    nextSeqOf (r :: rs) = max (r.seq + 1) (nextSeqOf rs) := nextSeqOf_append [r] rs

theorem seq_lt_nextSeqOf {r : Record} {rs : List Record} (h : r ∈ rs) : r.seq < nextSeqOf rs := by
  induction rs with
  | nil => cases h
  | cons a rs ih =>
      rw [nextSeqOf_cons]
      rcases List.mem_cons.mp h with rfl | h
      · omega
      · have := ih h
        omega

theorem exists_top_seq {rs : List Record} (h : rs ≠ []) : ∃ r ∈ rs, nextSeqOf rs = r.seq + 1 := by
  induction rs with
  | nil => exact absurd rfl h
  | cons a rs ih =>
      rw [nextSeqOf_cons]
      by_cases hrs : rs = []
      · exact ⟨a, by simp, by simp [hrs]⟩
      · obtain ⟨r, hr, he⟩ := ih hrs
        rcases Nat.le_total (a.seq + 1) (nextSeqOf rs) with hle | hle
        · exact ⟨r, List.mem_cons_of_mem _ hr, by omega⟩
        · exact ⟨a, by simp, by omega⟩

namespace Log

@[simp] theorem length_numberRecords (seq : Nat) (ops : List LogOp) :
    (numberRecords seq ops).length = ops.length := by
  induction ops generalizing seq with
  | nil => rfl
  | cons op ops ih => simp [numberRecords, ih]

theorem numberRecords_append (seq : Nat) (ops more : List LogOp) :
    numberRecords seq (ops ++ more) =
      numberRecords seq ops ++ numberRecords (seq + ops.length) more := by
  induction ops generalizing seq with
  | nil => rfl
  | cons op ops ih =>
      simp only [List.cons_append, numberRecords, ih, List.length_cons]
      congr 3
      omega

theorem record_seq (seq : Nat) (op : LogOp) : (op.record seq).seq = seq := by
  cases op <;> rfl

theorem opOf_record (seq : Nat) (op : LogOp) : opOf (op.record seq) = op := by
  cases op <;> rfl

theorem record_key (seq : Nat) (op : LogOp) : (op.record seq).key = op.key := by
  cases op <;> rfl

theorem numberRecords_seqs (seq : Nat) (ops : List LogOp) :
    (numberRecords seq ops).map Record.seq = List.range' seq ops.length := by
  induction ops generalizing seq with
  | nil => rfl
  | cons op ops ih => simp [numberRecords, record_seq, ih, List.range'_succ]

theorem numberRecords_pairwise (seq : Nat) (ops : List LogOp) :
    (numberRecords seq ops).Pairwise (fun a b => a.seq < b.seq) := by
  rw [← List.pairwise_map (f := Record.seq) (R := (· < ·)), numberRecords_seqs]
  exact List.pairwise_lt_range'

theorem record_fits {seq : Nat} {op : LogOp} (h : op.Fits) (hs : seq < 2 ^ 64) :
    (op.record seq).Fits := by
  cases op with
  | put key value => exact ⟨hs, h.1, h.2⟩
  | delete key => exact ⟨hs, h, by simp [LogOp.record, Record.delete]⟩

theorem numberRecords_fits {seq : Nat} {ops : List LogOp} (h : ∀ op ∈ ops, op.Fits)
    (hs : seq + ops.length < 2 ^ 64) : ∀ r ∈ numberRecords seq ops, r.Fits := by
  induction ops generalizing seq with
  | nil => simp [numberRecords]
  | cons op ops ih =>
      obtain ⟨hop, hops⟩ := List.forall_mem_cons.mp h
      simp only [List.length_cons] at hs
      simp only [numberRecords, List.forall_mem_cons]
      exact ⟨record_fits hop (by omega), ih hops (by omega)⟩

theorem nextSeqOf_numberRecords {seq : Nat} {ops : List LogOp} (h : ops ≠ []) :
    nextSeqOf (numberRecords seq ops) = seq + ops.length := by
  induction ops generalizing seq with
  | nil => exact absurd rfl h
  | cons op ops ih =>
      simp only [numberRecords, nextSeqOf_cons, record_seq, List.length_cons]
      by_cases ho : ops = []
      · simp [ho, numberRecords]
      · rw [ih ho]
        omega

theorem totalLen_eq (crc32 : Checksum) (records : List Record) :
    totalLen records = (encodeAll crc32 records).length := (length_encodeAll crc32 records).symm

end Log

/-- A directory that holds these segments, the last one followed by an inert
tail: what a crash can leave of a log. -/
structure OnDisk (crc32 : Checksum) (dir : SegmentDir) (old : List (Nat × List Record))
    (activeId : Nat) (active : List Record) (tail : Bytes) : Prop where
  entries : dir.entries = old.map (fun s => (s.1, encodeAll crc32 s.2)) ++
    [(activeId, encodeAll crc32 active ++ tail)]
  fits : ∀ r ∈ old.flatMap Prod.snd ++ active, r.Fits
  next : nextSeqOf (old.flatMap Prod.snd ++ active) < 2 ^ 64
  inert : Inert crc32 tail

/-- A log in step with its directory: the active file ends where the log's
length and file position say. -/
structure Running (crc32 : Checksum) (dir : SegmentDir) (log : Log)
    (old : List (Nat × List Record)) (active : List Record) : Prop where
  disk : OnDisk crc32 dir old log.activeId active []
  sealedIds : log.sealedIds = old.map Prod.fst
  segment : log.active = ⟨(encodeAll crc32 active).length, (encodeAll crc32 active).length⟩
  nextSeq : log.nextSeq = nextSeqOf (old.flatMap Prod.snd ++ active)

end Sietch
