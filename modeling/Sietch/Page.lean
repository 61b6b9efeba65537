import Sietch.Base.Outcome
import Sietch.Record

/-! Slotted pages of 4096 bytes: a header, a slot directory that grows forward, and
records that grow backward from the end of the page. -/
namespace Sietch
open ByteString

def pageSize : Nat := 4096
def pageHeaderLen : Nat := 16
def slotLen : Nat := 4
def pageMagic : Nat := 0x5054
def tombstoneOffset : Nat := 2 ^ 16 - 1

inductive PageType where
  | data
  | btreeLeaf
  | btreeInternal
  | metaPage
  deriving DecidableEq, Repr

def PageType.toByte : PageType → Byte
  | .data => 0
  | .btreeLeaf => 1
  | .btreeInternal => 2
  | .metaPage => 3

def PageType.fromByte (b : Byte) : Option PageType :=
  if b = 0 then some .data
  else if b = 1 then some .btreeLeaf
  else if b = 2 then some .btreeInternal
  else if b = 3 then some .metaPage
  else none

inductive PageError where
  | full (need free : Nat)
  | invalidSlot (slot : Nat)
  | badMagic
  | unknownPageType (b : Byte)
  | checksumMismatch (stored computed : Nat)
  deriving DecidableEq, Repr

def readU16 (bytes : Bytes) (pos : Nat) : Nat := ofLeBytes (readAt bytes pos 2)

def writeU16 (bytes : Bytes) (pos v : Nat) : Bytes := writeAt bytes pos (leBytes 2 v)

structure Page where
  pageType : PageType
  bytes : Bytes
  deriving DecidableEq, Repr

namespace Page

def new (pageType : PageType) : Page :=
  let bytes := List.replicate pageSize 0
  let bytes := writeAt bytes 0 (leBytes 2 pageMagic)
  let bytes := writeAt bytes 2 [pageType.toByte]
  let bytes := writeU16 bytes 8 0
  let bytes := writeU16 bytes 10 pageHeaderLen
  let bytes := writeU16 bytes 12 pageSize
  ⟨pageType, bytes⟩

def numSlots (p : Page) : Nat := readU16 p.bytes 8

def freeStart (p : Page) : Nat := readU16 p.bytes 10

def freeEnd (p : Page) : Nat := readU16 p.bytes 12

def slotBase (slot : Nat) : Nat := pageHeaderLen + slot * slotLen

/-- An index past the end of the page panics. -/
def slotOffsetLen (p : Page) (slot : Nat) : Outcome PageError (Nat × Nat) :=
  if slotBase slot + slotLen ≤ p.bytes.length then
    .ok (readU16 p.bytes (slotBase slot), readU16 p.bytes (slotBase slot + 2))
  else .panic

def setSlot (bytes : Bytes) (slot offset len : Nat) : Bytes :=
  writeU16 (writeU16 bytes (slotBase slot) offset) (slotBase slot + 2) len

/-- The subtraction panics when the header is inconsistent. -/
def freeSpace (p : Page) : Outcome PageError Nat :=
  if p.freeStart ≤ p.freeEnd then .ok (p.freeEnd - p.freeStart) else .panic

def insert (p : Page) (record : Bytes) : Outcome PageError (Nat × Page) := do
  let needed := slotLen + record.length
  let free ← p.freeSpace
  if free < needed then .err (.full needed free)
  else
    let start := p.freeEnd - record.length
    if p.bytes.length < start + record.length then .panic
    else
      let p : Page := ⟨p.pageType, writeAt p.bytes start record⟩
      let slot := p.numSlots
      if p.bytes.length < slotBase slot + slotLen ∨ 2 ^ 16 ≤ slot + 1 then .panic
      else
        let p : Page := ⟨p.pageType, setSlot p.bytes slot start record.length⟩
        let p : Page := ⟨p.pageType, writeU16 p.bytes 8 (slot + 1)⟩
        let p : Page := ⟨p.pageType, writeU16 p.bytes 10 (p.freeStart + slotLen)⟩
        let p : Page := ⟨p.pageType, writeU16 p.bytes 12 start⟩
        .ok (slot, p)

def get (p : Page) (slot : Nat) : Outcome PageError Bytes := do
  if p.numSlots ≤ slot then .err (.invalidSlot slot)
  else
    let (offset, len) ← p.slotOffsetLen slot
    if offset = tombstoneOffset then .err (.invalidSlot slot)
    else if p.bytes.length < offset + len then .panic
    else .ok (readAt p.bytes offset len)

/-- `delete`. The record's bytes are not reclaimed. -/
def delete (p : Page) (slot : Nat) : Outcome PageError Page := do
  if p.numSlots ≤ slot then .err (.invalidSlot slot)
  else
    let (offset, len) ← p.slotOffsetLen slot
    if offset = tombstoneOffset then .err (.invalidSlot slot)
    else .ok ⟨p.pageType, setSlot p.bytes slot tombstoneOffset len⟩

/-- `slot_ids`, run to its end: every slot of the directory is read. -/
def slotIds (p : Page) : Outcome PageError (List Nat) :=
  if pageHeaderLen + slotLen * p.numSlots ≤ p.bytes.length then
    .ok ((List.range p.numSlots).filter (fun s => readU16 p.bytes (slotBase s) ≠ tombstoneOffset))
  else .panic

/-- Everything but the checksum field itself. -/
def computeChecksum (crc32 : Checksum) (bytes : Bytes) : Nat :=
  (crc32 (bytes.take 4 ++ bytes.drop 8)).val

def encode (crc32 : Checksum) (p : Page) : Bytes :=
  writeAt p.bytes 4 (leBytes 4 (computeChecksum crc32 p.bytes))

def decode (crc32 : Checksum) (bytes : Bytes) : Outcome PageError Page :=
  if bytes.length ≠ pageSize then .err .badMagic
  else if readU16 bytes 0 ≠ pageMagic then .err .badMagic
  else
    let typeByte := (bytes[2]?).getD 0
    match PageType.fromByte typeByte with
    | none => .err (.unknownPageType typeByte)
    | some pageType =>
        let stored := ofLeBytes (readAt bytes 4 4)
        let computed := computeChecksum crc32 bytes
        if stored ≠ computed then .err (.checksumMismatch stored computed)
        else .ok ⟨pageType, bytes⟩

end Page
end Sietch
