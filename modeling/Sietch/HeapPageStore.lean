import Sietch.LogRuns
import Sietch.PageStore

/-! The heap page store: pages are appended to one heap file, and a small log holds the
offset of the last version of every page. -/
namespace Sietch
open ByteString

inductive HeapPageStoreError where
  | log (e : LogError)
  | page (e : PageError)
  | io
  deriving DecidableEq, Repr

/-- The two files of the store: the heap and the segments of the location log. A heap file
that does not exist yet is empty. -/
structure HeapDir where
  heap : Bytes
  locations : SegmentDir
  deriving DecidableEq

structure HeapPageStore (crc32 : Checksum) where
  dir : HeapDir
  heapLen : Nat
  locationLog : Log
  locations : SortedMap PageId Nat
  nextPageId : PageId

def encodeLocation (offset : Nat) : Bytes := leBytes 8 offset

def decodeLocation (bytes : Bytes) : Outcome HeapPageStoreError Nat :=
  if bytes.length = 8 then .ok (ofLeBytes bytes) else .panic

namespace HeapPageStore
variable {crc32 : Checksum}

/-- The loop over the records of the location log. -/
def replayLocations : List Record → SortedMap PageId Nat → Option PageId →
    Outcome HeapPageStoreError (SortedMap PageId Nat × Option PageId)
  | [], locations, maxId => .ok (locations, maxId)
  | record :: rest, locations, maxId =>
      if record.key.length ≠ 8 then .panic
      else do
        let id := ofLeBytes record.key
        let offset ← decodeLocation record.value
        replayLocations rest (locations.insert id offset) (some (maxId.elim id (max · id)))

/-- `open`. A partial page at the end of the heap is cut off. -/
def openStore (crc32 : Checksum) (dir : HeapDir) :
    Outcome HeapPageStoreError (HeapPageStore crc32) :=
  let tornBytes := dir.heap.length % pageSize
  let heapLen := dir.heap.length - tornBytes
  let heap := if tornBytes = 0 then dir.heap else setLen dir.heap heapLen
  match Log.openDefault crc32 dir.locations with
  | (.err e, _) => .err (.log e)
  | (.panic, _) => .panic
  | (.ok (locationLog, report), logDir) => do
      let (locations, maxId) ← replayLocations report.records .empty none
      let nextPageId := maxId.elim 1 (· + 1)
      if 2 ^ 64 ≤ nextPageId then .panic
      else .ok ⟨⟨heap, logDir⟩, heapLen, locationLog, locations, nextPageId⟩

/-- Reading past the end of the heap file is an i/o error. -/
def readPage (s : HeapPageStore crc32) (id : PageId) : Outcome HeapPageStoreError (Option Page) :=
  match s.locations.get? id with
  | none => .ok none
  | some offset =>
      if s.dir.heap.length < offset + pageSize then .err .io
      else
        match Page.decode crc32 (readAt s.dir.heap offset pageSize) with
        | .ok page => .ok (some page)
        | .err e => .err (.page e)
        | .panic => .panic

/-- The page is in the heap file before its location is logged. -/
def writePage (id : PageId) (page : Page) :
    Proc (HeapPageStore crc32) HeapPageStoreError Unit := fun s =>
  let offset := s.heapLen
  let heap := writeAt s.dir.heap offset (page.encode crc32)
  if 2 ^ 64 ≤ s.heapLen + pageSize then (.panic, { s with dir := { s.dir with heap } })
  else
    let heapLen := s.heapLen + pageSize
    match s.locationLog.appendPut crc32 .done s.dir.locations (leBytes 8 id)
        (encodeLocation offset) with
    | (.ok _, locationLog, logDir) =>
        (.ok (), ⟨⟨heap, logDir⟩, heapLen, locationLog, s.locations.insert id offset, s.nextPageId⟩)
    | (.err e, locationLog, logDir) =>
        (.err (.log e), ⟨⟨heap, logDir⟩, heapLen, locationLog, s.locations, s.nextPageId⟩)
    | (.panic, locationLog, logDir) =>
        (.panic, ⟨⟨heap, logDir⟩, heapLen, locationLog, s.locations, s.nextPageId⟩)

def allocatePageId : Proc (HeapPageStore crc32) HeapPageStoreError PageId := fun s =>
  if s.nextPageId + 1 < 2 ^ 64 then (.ok s.nextPageId, { s with nextPageId := s.nextPageId + 1 })
  else (.panic, s)

instance : PageStore (HeapPageStore crc32) HeapPageStoreError where
  readPage := readPage
  writePage := writePage
  allocatePageId := allocatePageId

end HeapPageStore

/-- Where a crash interrupts `write_page`: with a part of the page in the heap file, or in
the append to the location log. -/
inductive HeapCut where
  | inHeap (written : Nat)
  | inLog (cut : Cut)
  deriving DecidableEq, Repr

/-- The files that a crash inside `write_page` leaves. -/
def HeapPageStore.crashDir {crc32 : Checksum} (s : HeapPageStore crc32) (id : PageId) (page : Page) :
    HeapCut → HeapDir
  | .inHeap written =>
      { s.dir with heap := writeAt s.dir.heap s.heapLen ((page.encode crc32).take written) }
  | .inLog cut =>
      ⟨writeAt s.dir.heap s.heapLen (page.encode crc32),
        (Call.put (leBytes 8 id) (encodeLocation s.heapLen)).crashDir crc32 cut s.dir.locations
          s.locationLog⟩

end Sietch
