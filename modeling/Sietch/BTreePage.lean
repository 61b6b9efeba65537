import Sietch.PageStore

/-! The nodes of the B+tree as pages: the encoding of leaf entries, sibling pointers and
internal entries, and the functions that read and rebuild a node. A result `none` stands
for a panic: an index out of range, or an `unwrap` or `expect` that does not hold. -/
namespace Sietch
open ByteString

/-- A key and its value, as a leaf stores them. -/
abbrev Entry := Bytes × Bytes

/-- The length field `u16::MAX` marks a sibling pointer, or an entry without a key. -/
def siblingSlotSentinel : Nat := 2 ^ 16 - 1

/-- A slice of `len` bytes from `pos` on. -/
def subslice (bytes : Bytes) (pos len : Nat) : Option Bytes :=
  if pos + len ≤ bytes.length then some (readAt bytes pos len) else none

def u16At (bytes : Bytes) (pos : Nat) : Option Nat := (subslice bytes pos 2).map ofLeBytes

def u64At (bytes : Bytes) (pos : Nat) : Option Nat := (subslice bytes pos 8).map ofLeBytes

def encodeLeafEntry (e : Entry) : Bytes :=
  leBytes 2 e.1.length ++ e.1 ++ leBytes 2 e.2.length ++ e.2

def decodeLeafEntry (bytes : Bytes) : Option Entry := do
  let klen ← u16At bytes 0
  let key ← subslice bytes 2 klen
  let vlen ← u16At bytes (2 + klen)
  let value ← subslice bytes (4 + klen) vlen
  return (key, value)

def encodeLeafSibling (next : PageId) : Bytes := leBytes 2 siblingSlotSentinel ++ leBytes 8 next

/-- The debug assertion is part of it. -/
def decodeLeafSibling (bytes : Bytes) : Option PageId := do
  let mark ← u16At bytes 0
  if mark = siblingSlotSentinel then u64At bytes 2 else none

structure InternalEntry where
  key : Option Bytes
  child : PageId
  deriving DecidableEq, Repr

def encodeInternalEntry (e : InternalEntry) : Bytes :=
  match e.key with
  | some key => leBytes 2 key.length ++ key ++ leBytes 8 e.child
  | none => leBytes 2 siblingSlotSentinel ++ leBytes 8 e.child

def decodeInternalEntry (bytes : Bytes) : Option InternalEntry := do
  let klen ← u16At bytes 0
  if klen = siblingSlotSentinel then
    let child ← u64At bytes 2
    return ⟨none, child⟩
  else
    let key ← subslice bytes 2 klen
    let child ← u64At bytes (2 + klen)
    return ⟨some key, child⟩

/-- Slot 0 of a leaf is the sibling pointer. -/
def readLeafEntries (page : Page) : Option (List Entry) := do
  let slots ← page.slotIds.toOption
  (slots.drop 1).mapM (fun s => do decodeLeafEntry (← (page.get s).toOption))

def readLeafSibling (page : Page) : Option PageId := do
  decodeLeafSibling (← (page.get 0).toOption)

def readInternalEntries (page : Page) : Option (List InternalEntry) := do
  let slots ← page.slotIds.toOption
  slots.mapM (fun s => do decodeInternalEntry (← (page.get s).toOption))

def insertRecords (page : Page) : List Bytes → Outcome PageError Page
  | [] => .ok page
  | r :: rs => do
      let (_, page) ← page.insert r
      insertRecords page rs

def buildLeaf (entries : List Entry) (nextSibling : PageId) : Outcome PageError Page :=
  insertRecords (Page.new .btreeLeaf)
    (encodeLeafSibling nextSibling :: entries.map encodeLeafEntry)

def buildInternal (entries : List InternalEntry) : Outcome PageError Page :=
  insertRecords (Page.new .btreeInternal) (entries.map encodeInternalEntry)

end Sietch
