import Sietch.BTree
import Sietch.HeapPageStore

/-! The indexed store: a log that holds every write, and a B+tree over a heap page store
with the current value of every key. The tree also holds a sentinel, the sequence number up
to which it has the records of the log, and `open` applies the records from there on. -/
namespace Sietch
open ByteString

inductive IndexedStoreError (ε : Type) where
  | log (e : LogError)
  | index (e : BTreeError ε)
  | pageStore (e : ε)
  deriving DecidableEq, Repr

/-- The two directories of the store, `log` and `index`. -/
structure IndexedDir where
  log : SegmentDir
  index : HeapDir

/-- The page store of the tree is a parameter; it is a `HeapPageStore`, or one whose process
is killed at some write. -/
structure IndexedStore (S : Type) where
  logDir : SegmentDir
  log : Log
  index : BufferPool S
  reconciledRecords : Nat
  recoveredFromTornTail : Bool
  checkpointInterval : Nat
  pendingSinceCheckpoint : Nat

def nsUser : Byte := 1

def nsMeta : Byte := 0

def userKey (key : Bytes) : Bytes := nsUser :: key

def metaKey (suffix : Bytes) : Bytes := nsMeta :: suffix

/-- The key of the sentinel. -/
def lastIndexedSeqKey : Bytes := metaKey [0]

def encodeIndexValue : Option Bytes → Bytes
  | none => [0]
  | some v => 1 :: v

/-- Any other tag is unreachable and panics. -/
def decodeIndexValue {ε : Type} : Bytes → Outcome ε (Option Bytes)
  | [] => .panic
  | tag :: v => if tag = 0 then .ok none else if tag = 1 then .ok (some v) else .panic

/-- The value that `apply_record_to_index` gives the key. -/
def indexValue (record : Record) : Bytes :=
  match record.recordType with
  | .put => encodeIndexValue (some record.value)
  | .delete => encodeIndexValue none

section Index
variable {S ε : Type} [PageStore S ε]

def applyRecordToIndex (fuel : Nat) (record : Record) : BTree.Op S ε Unit :=
  BTree.insert fuel (userKey record.key) (indexValue record)

/-- The sentinel, or `0`; its bytes are converted with `unwrap`. -/
def readLastIndexedSeq (fuel : Nat) : BTree.Op S ε Nat := do
  match ← BTree.get fuel lastIndexedSeqKey with
  | none => return 0
  | some bytes => if bytes.length = 8 then return ofLeBytes bytes else Proc.halt

/-- The loop of `open` over the records of the log, with the number of those applied. -/
def applyRecordsFrom (fuel lastIndexedSeq : Nat) : List Record → Nat → BTree.Op S ε Nat
  | [], reconciled => pure reconciled
  | record :: rest, reconciled =>
      if lastIndexedSeq ≤ record.seq then do
        applyRecordToIndex fuel record
        applyRecordsFrom fuel lastIndexedSeq rest (reconciled + 1)
      else applyRecordsFrom fuel lastIndexedSeq rest reconciled

/-- The sentinel is written and everything is flushed. -/
def flushSentinel (fuel nextSeq : Nat) : BTree.Op S ε Unit := do
  BTree.insert fuel lastIndexedSeqKey (leBytes 8 nextSeq)
  BTree.flush

/-- What `open` does with the tree it has opened. -/
def reconcile (fuel : Nat) (records : List Record) (nextSeq : Nat) : BTree.Op S ε Nat := do
  let lastIndexedSeq ← readLastIndexedSeq fuel
  let reconciled ← applyRecordsFrom fuel lastIndexedSeq records 0
  if 0 < reconciled then flushSentinel fuel nextSeq
  return reconciled

end Index

namespace IndexedStore

/-- A program on an indexed store. -/
abbrev Op (S ε α : Type) := Proc (IndexedStore S) (IndexedStoreError ε) α

section Calls
variable {S ε α : Type}

def onIndex (x : BTree.Op S ε α) : Op S ε α :=
  (x.focus IndexedStore.index (fun s index => { s with index })).mapErr .index

/-- An append to the log. -/
def onLog (append : SegmentDir → Log → Outcome LogError Record × Log × SegmentDir) :
    Op S ε Record := fun s =>
  match append s.logDir s.log with
  | (.ok record, log, logDir) => (.ok record, { s with log, logDir })
  | (.err e, log, logDir) => (.err (.log e), { s with log, logDir })
  | (.panic, log, logDir) => (.panic, { s with log, logDir })

def setPending (n : Nat) : Op S ε Unit := fun s => (.ok (), { s with pendingSinceCheckpoint := n })

variable [PageStore S ε]

def checkpoint (fuel : Nat) : Op S ε Unit := do
  let s ← Proc.get
  onIndex (flushSentinel fuel s.log.nextSeq)
  setPending 0

def applyAndAdvance (fuel : Nat) (record : Record) : Op S ε Unit := do
  onIndex (applyRecordToIndex fuel record)
  let s ← Proc.get
  setPending (s.pendingSinceCheckpoint + 1)
  if s.checkpointInterval ≤ s.pendingSinceCheckpoint + 1 then checkpoint fuel

/-- The record is in the log before the tree is touched. -/
def put (crc32 : Checksum) (fuel : Nat) (key value : Bytes) : Op S ε Unit := do
  let record ← onLog (fun dir log => log.appendPut crc32 .done dir key value)
  applyAndAdvance fuel record

def delete (crc32 : Checksum) (fuel : Nat) (key : Bytes) : Op S ε Unit := do
  let record ← onLog (fun dir log => log.appendDelete crc32 .done dir key)
  applyAndAdvance fuel record

def get (fuel : Nat) (key : Bytes) : Op S ε (Option Bytes) := do
  match ← onIndex (BTree.get fuel (userKey key)) with
  | none => return none
  | some bytes => Proc.lift (decodeIndexValue bytes)

/-- The loop of `scan` over all entries of the tree. -/
def liveWithPrefix (keyPrefix : Bytes) : List Entry → Outcome (IndexedStoreError ε) (List Entry)
  | [] => .ok []
  | (k, v) :: rest =>
      match k with
      | [] => liveWithPrefix keyPrefix rest
      | ns :: realKey =>
          if ns ≠ nsUser then liveWithPrefix keyPrefix rest
          else if !keyPrefix.isPrefixOf realKey then liveWithPrefix keyPrefix rest
          else do
            let value ← decodeIndexValue v
            let out ← liveWithPrefix keyPrefix rest
            return match value with
              | some value => (realKey, value) :: out
              | none => out

/-- `sort_by` is stable. -/
def scan (fuel : Nat) (keyPrefix : Bytes) : Op S ε (List Entry) := do
  let all ← onIndex (BTree.scanAll fuel)
  let out ← Proc.lift (liveWithPrefix keyPrefix all)
  return out.insertionSort (fun a b => a.1 ≤ b.1)

end Calls

/-- `open_with_options`, with the directories it leaves. -/
def openWithOptions (crc32 : Checksum) (fuel : Nat) (dir : IndexedDir)
    (poolCapacity checkpointInterval : Nat) :
    Outcome (IndexedStoreError HeapPageStoreError) (IndexedStore (HeapPageStore crc32)) × IndexedDir :=
  match Log.openDefault crc32 dir.log with
  | (.err e, logDir) => (.err (.log e), ⟨logDir, dir.index⟩)
  | (.panic, logDir) => (.panic, ⟨logDir, dir.index⟩)
  | (.ok (log, report), logDir) =>
      match HeapPageStore.openStore crc32 dir.index with
      | .err e => (.err (.pageStore e), ⟨logDir, dir.index⟩)
      | .panic => (.panic, ⟨logDir, dir.index⟩)
      | .ok pages =>
          match BTree.openTree pages poolCapacity with
          | (.err e, index) =>
              (.err (.index e), ⟨logDir, index.elim pages.dir (·.store.dir)⟩)
          | (.panic, index) => (.panic, ⟨logDir, index.elim pages.dir (·.store.dir)⟩)
          | (.ok (), none) => (.panic, ⟨logDir, pages.dir⟩)
          | (.ok (), some index) =>
              match reconcile fuel report.records log.nextSeq index with
              | (.err e, index) => (.err (.index e), ⟨logDir, index.store.dir⟩)
              | (.panic, index) => (.panic, ⟨logDir, index.store.dir⟩)
              | (.ok reconciled, index) =>
                  (.ok ⟨logDir, log, index, reconciled, report.recoveredFromTornTail,
                    max checkpointInterval 1, 0⟩, ⟨logDir, index.store.dir⟩)

end IndexedStore
end Sietch
