import Sietch.StoreDir

/-! The multi-version store: an in-memory index of every version of every key over
the log. Compaction rewrites the log from the index and leaves the index as it is. -/
namespace Sietch
open ByteString Script

inductive StoreError where
  | log (e : LogError)
  | io
  deriving DecidableEq, Repr

structure CompactionReport where
  liveKeys : Nat
  segmentsBefore : Nat
  segmentsAfter : Nat
  deriving DecidableEq, Repr

/-- A tombstone has no value. -/
structure VersionEntry where
  seq : Nat
  value : Option Bytes
  deriving DecidableEq, Repr

structure Snapshot where
  asOfSeq : Nat
  deriving DecidableEq, Repr

def Record.version (r : Record) : VersionEntry :=
  match r.recordType with
  | .put => ⟨r.seq, some r.value⟩
  | .delete => ⟨r.seq, none⟩

def VersionEntry.record (key : Bytes) (v : VersionEntry) : Record :=
  match v.value with
  | some value => Record.put v.seq key value
  | none => Record.delete v.seq key

abbrev Index := SortedMap Bytes (List VersionEntry)

namespace Index

/-- `index.entry(key).or_default().push(version)`. -/
def push (index : Index) (key : Bytes) (v : VersionEntry) : Index :=
  index.insert key ((index.get? key).getD [] ++ [v])

def pushAll (index : Index) (records : List Record) : Index :=
  records.foldl (fun index r => push index r.key r.version) index

/-- The index `Store::open` builds from the records of the log. -/
def replay (records : List Record) : Index := pushAll SortedMap.empty records

def versions (index : Index) (key : Bytes) : List VersionEntry := (index.get? key).getD []

end Index

/-- `heldSnapshots` counts the live guards of each `asOfSeq`. -/
structure Store where
  log : Log
  index : Index
  recoveredFromTornTail : Bool
  heldSnapshots : SortedMap Nat Nat
  deriving DecidableEq

/-- What the rest of `Store::open` does to the directory once the pending compaction
is settled: the log cuts the torn tail off its active file. -/
def openMainLog (crc32 : Checksum) : StoreScript := fun d =>
  match Log.openDefault crc32 d.main with
  | (.err _, _) => []
  | (_, main) => [.writeMain main]

def openScript (crc32 : Checksum) (l : Listing) : StoreScript :=
  seq FsAction.apply (finishOrDiscardPendingCompaction l) (openMainLog crc32)

/-- The versions of one key that a compaction keeps. -/
def retained (retainFrom : Option Nat) (versions : List VersionEntry) : List VersionEntry :=
  match retainFrom with
  | none => versions.getLast?.toList.filter (·.value.isSome)
  | some threshold =>
      (versions.reverse.find? (·.seq < threshold)).toList ++
        versions.filter (threshold ≤ ·.seq)

/-- The records of the new log; `sort_by_key` is stable. -/
def compactedRecords (index : Index) (retainFrom : Option Nat) : List Record :=
  (index.entries.flatMap (fun e => (retained retainFrom e.2).map (VersionEntry.record e.1))
    ).insertionSort (fun a b => a.seq ≤ b.seq)

def liveKeys (index : Index) (retainFrom : Option Nat) : Nat :=
  (index.entries.filter (fun e =>
    ((retained retainFrom e.2).getLast?.bind VersionEntry.value).isSome)).length

section CompactScript
variable (crc32 : Checksum) (l : Listing) (records : List Record)

/-- The log in `.compact-tmp`: the empty segment file that `Log::open` creates, then
one write for each record. -/
def writeTmpLog : StoreScript := fun d =>
  match Log.openDefault crc32 (d.tmp.getD SortedMap.empty) with
  | (.ok (log, _), files) =>
      .writeLog .tmp files :: (List.range (records.length + 1)).map (fun n =>
        .writeLog .tmp (log.appendRecordsVerbatim crc32
          (.writeFails (Log.totalLen (records.take n))) files records).2.2)
  | _ => []

def buildTmp : StoreScript :=
  seq FsAction.apply (removeDirIfExists l .tmp)
    (seq FsAction.apply (one (.createDir .tmp)) (writeTmpLog crc32 records))

def openPlaceholderLog : StoreScript := fun d =>
  match Log.openDefault crc32 (d.placeholder.getD SortedMap.empty) with
  | (.ok _, files) => [.writeLog .placeholder files]
  | _ => []

def buildPlaceholder : StoreScript :=
  seq FsAction.apply (removeDirIfExists l .placeholder)
    (seq FsAction.apply (one (.createDir .placeholder)) (openPlaceholderLog crc32))

/-- `compact` up to the point where the log is opened again. -/
def compactSwap : StoreScript :=
  seq FsAction.apply (buildTmp crc32 l records)
    (seq FsAction.apply (one .writeMarker)
      (seq FsAction.apply (buildPlaceholder crc32 l) (finishPendingCompaction l)))

/-- Everything `compact` does to the directory. -/
def compactScript : StoreScript :=
  seq FsAction.apply (compactSwap crc32 l records)
    (seq FsAction.apply (openMainLog crc32) (removeDirAll l .placeholder))

end CompactScript

namespace Store

def openStore (crc32 : Checksum) (l : Listing) (dir : StoreDir) :
    Outcome StoreError Store × StoreDir :=
  let d := final FsAction.apply (finishOrDiscardPendingCompaction l) dir
  match Log.openDefault crc32 d.main with
  | (.ok (log, report), main) =>
      (.ok ⟨log, Index.replay report.records, report.recoveredFromTornTail, SortedMap.empty⟩,
        { d with main })
  | (.err e, main) => (.err (.log e), { d with main })
  | (.panic, main) => (.panic, { d with main })

def snapshot (s : Store) : Snapshot := ⟨s.log.nextSeq⟩

def holdSnapshot (s : Store) : Snapshot × Store :=
  let asOf := s.snapshot.asOfSeq
  (s.snapshot, { s with heldSnapshots :=
    s.heldSnapshots.insert asOf ((s.heldSnapshots.get? asOf).getD 0 + 1) })

/-- `SnapshotGuard::drop`. -/
def dropGuard (s : Store) (snapshot : Snapshot) : Store :=
  match s.heldSnapshots.get? snapshot.asOfSeq with
  | some count =>
      if count - 1 = 0 then
        { s with heldSnapshots := s.heldSnapshots.erase snapshot.asOfSeq }
      else { s with heldSnapshots := s.heldSnapshots.insert snapshot.asOfSeq (count - 1) }
  | none => s

def oldestHeldSnapshotSeq (s : Store) : Option Nat := s.heldSnapshots.keys.head?

def put (crc32 : Checksum) (io : Io) (dir : StoreDir) (s : Store) (key value : Bytes) :
    Outcome StoreError Unit × Store × StoreDir :=
  match s.log.appendPut crc32 io dir.main key value with
  | (.ok record, log, main) =>
      (.ok (), { s with log, index := s.index.push key ⟨record.seq, some record.value⟩ },
        { dir with main })
  | (.err e, log, main) => (.err (.log e), { s with log }, { dir with main })
  | (.panic, log, main) => (.panic, { s with log }, { dir with main })

def delete (crc32 : Checksum) (io : Io) (dir : StoreDir) (s : Store) (key : Bytes) :
    Outcome StoreError Unit × Store × StoreDir :=
  match s.log.appendDelete crc32 io dir.main key with
  | (.ok record, log, main) =>
      (.ok (), { s with log, index := s.index.push key ⟨record.seq, none⟩ }, { dir with main })
  | (.err e, log, main) => (.err (.log e), { s with log }, { dir with main })
  | (.panic, log, main) => (.panic, { s with log }, { dir with main })

def applyBatch (crc32 : Checksum) (io : Io) (dir : StoreDir) (s : Store) (ops : List LogOp) :
    Outcome StoreError Unit × Store × StoreDir :=
  let keys := ops.map LogOp.key
  match s.log.appendBatch crc32 io dir.main ops with
  | (.ok records, log, main) =>
      let index := (keys.zip records).foldl (fun index kr => index.push kr.1 kr.2.version) s.index
      (.ok (), { s with log, index }, { dir with main })
  | (.err e, log, main) => (.err (.log e), { s with log }, { dir with main })
  | (.panic, log, main) => (.panic, { s with log }, { dir with main })

def get (s : Store) (key : Bytes) : Option Bytes :=
  ((s.index.get? key).bind List.getLast?).bind VersionEntry.value

def getAt (s : Store) (key : Bytes) (snapshot : Snapshot) : Option Bytes :=
  ((s.index.get? key).bind (fun versions =>
    versions.reverse.find? (·.seq < snapshot.asOfSeq))).bind VersionEntry.value

/-- `range(prefix..).take_while(starts_with).filter_map(f)` over the index. -/
def scanWith (f : List VersionEntry → Option Bytes) (s : Store) (keyPrefix : Bytes) :
    List (Bytes × Bytes) :=
  SortedMap.collect (fun _ => f) (SortedMap.block keyPrefix s.index.entries)

def scan (s : Store) (keyPrefix : Bytes) : List (Bytes × Bytes) :=
  scanWith (fun versions => versions.getLast?.bind VersionEntry.value) s keyPrefix

def scanAt (s : Store) (keyPrefix : Bytes) (snapshot : Snapshot) : List (Bytes × Bytes) :=
  scanWith (fun versions =>
    (versions.reverse.find? (·.seq < snapshot.asOfSeq)).bind VersionEntry.value) s keyPrefix

def latestSeq (s : Store) (key : Bytes) : Option Nat :=
  ((s.index.get? key).bind List.getLast?).map VersionEntry.seq

/-- `compact`. Until the log is opened again the store holds the placeholder log. -/
def compact (crc32 : Checksum) (l : Listing) (dir : StoreDir) (s : Store) :
    Outcome StoreError CompactionReport × Store × StoreDir :=
  let segmentsBefore := s.log.segmentCount
  let retainFrom := s.oldestHeldSnapshotSeq
  let records := compactedRecords s.index retainFrom
  let built := final FsAction.apply (buildTmp crc32 l records) dir
  match Log.openDefault crc32 SortedMap.empty with
  | (.ok (emptyLog, _), files) =>
      match emptyLog.appendRecordsVerbatim crc32 .done files records with
      | (.ok (), _, _) =>
          let d := final FsAction.apply (compactSwap crc32 l records) dir
          match Log.openDefault crc32 d.main with
          | (.ok (log, _), _) =>
              (.ok ⟨liveKeys s.index retainFrom, segmentsBefore, log.segmentCount⟩,
                { s with log }, final FsAction.apply (compactScript crc32 l records) dir)
          | (.err e, main) => (.err (.log e), { s with log := emptyLog }, { d with main })
          | (.panic, main) => (.panic, { s with log := emptyLog }, { d with main })
      | (.err e, _, _) => (.err (.log e), s, built)
      | (.panic, _, _) => (.panic, s, built)
  | (.err e, _) => (.err (.log e), s, built)
  | (.panic, _) => (.panic, s, built)

end Store
end Sietch
