import Sietch.PageStore

/-! The buffer pool: a fixed number of frames in front of a page store, with pins, dirty
bits and clock eviction. -/
namespace Sietch

inductive BufferError (ε : Type) where
  | poolExhausted (capacity : Nat)
  | notPinned (id : PageId)
  | store (e : ε)
  deriving DecidableEq, Repr

structure Frame where
  pageId : PageId
  page : Page
  pinCount : Nat
  dirty : Bool
  refBit : Bool

structure BufferPool (S : Type) where
  store : S
  capacity : Nat
  frames : List Frame
  pageTable : SortedMap PageId Nat
  clockHand : Nat

namespace BufferPool
variable {S ε α : Type}

/-- The capacity is asserted to be positive. -/
def new (store : S) (capacity : Nat) : Outcome ε (BufferPool S) :=
  if 0 < capacity then .ok ⟨store, capacity, [], .empty, 0⟩ else .panic

/-- A call of the page store. -/
def onStore (x : Proc S ε α) : Proc (BufferPool S) (BufferError ε) α :=
  (x.focus BufferPool.store (fun p s => { p with store := s })).mapErr .store

variable [PageStore S ε]

/-- The victim leaves the page table, written to the store first if it is dirty. -/
def evict (idx : Nat) (f : Frame) : Proc (BufferPool S) (BufferError ε) Nat := do
  if f.dirty then onStore (PageStore.writePage f.pageId f.page)
  let p ← Proc.get
  Proc.set { p with pageTable := p.pageTable.erase f.pageId }
  return idx

/-- The clock, with the number of frames it may still look at. -/
def clock : Nat → Proc (BufferPool S) (BufferError ε) Nat
  | 0 => fun p => (.err (.poolExhausted p.capacity), p)
  | n+1 => fun p =>
      let idx := p.clockHand
      let p := { p with clockHand := (p.clockHand + 1) % p.capacity }
      match p.frames[idx]? with
      | none => (.panic, p)
      | some f =>
          if 0 < f.pinCount then clock n p
          else if f.refBit then
            clock n { p with frames := p.frames.set idx { f with refBit := false } }
          else evict idx f p

/-- The loop stops when it has scanned more than `2 * capacity` frames. -/
def findFrameFor (incomingId : PageId) : Proc (BufferPool S) (BufferError ε) Nat := fun p =>
  if p.frames.length < p.capacity then
    (.ok p.frames.length,
      { p with frames := p.frames ++ [⟨incomingId, Page.new .data, 0, false, false⟩] })
  else clock (2 * p.capacity + 1) p

/-- The frame that the caller of `find_frame_for` puts in the place it was given. -/
def install (idx : Nat) (f : Frame) : Proc (BufferPool S) (BufferError ε) Unit := fun p =>
  if idx < p.frames.length then
    (.ok (), { p with frames := p.frames.set idx f, pageTable := p.pageTable.insert f.pageId idx })
  else (.panic, p)

def newPage (pageType : PageType) : Proc (BufferPool S) (BufferError ε) PageId := do
  let id ← onStore PageStore.allocatePageId
  let idx ← findFrameFor id
  install idx ⟨id, Page.new pageType, 1, true, true⟩
  return id

/-- The pin count is a `u32`, whose increment panics at its end. -/
def pinFrame (idx : Nat) : Proc (BufferPool S) (BufferError ε) Unit := fun p =>
  match p.frames[idx]? with
  | none => (.panic, p)
  | some f =>
      if f.pinCount + 1 < 2 ^ 32 then
        (.ok (), { p with
          frames := p.frames.set idx { f with pinCount := f.pinCount + 1, refBit := true } })
      else (.panic, p)

/-- A page that the store does not have is an empty data page. -/
def fetch (id : PageId) : Proc (BufferPool S) (BufferError ε) Unit := do
  let p ← Proc.get
  match p.pageTable.get? id with
  | some idx => pinFrame idx
  | none =>
      let page ← onStore (fun s => (PageStore.readPage s id, s))
      let idx ← findFrameFor id
      install idx ⟨id, page.getD (Page.new .data), 1, false, true⟩

/-- The frame of a cached page; an index out of range panics. -/
def frameOf (id : PageId) : Proc (BufferPool S) (BufferError ε) (Option (Nat × Frame)) := fun p =>
  match p.pageTable.get? id with
  | none => (.ok none, p)
  | some idx =>
      match p.frames[idx]? with
      | none => (.panic, p)
      | some f => (.ok (some (idx, f)), p)

def page (id : PageId) : Proc (BufferPool S) (BufferError ε) (Option Page) := do
  let found ← frameOf id
  return found.map (·.2.page)

def setFrame (idx : Nat) (f : Frame) : Proc (BufferPool S) (BufferError ε) Unit := fun p =>
  (.ok (), { p with frames := p.frames.set idx f })

/-- An assignment through the `unwrap` of `page_mut`. -/
def pageMut (id : PageId) (new : Page) : Proc (BufferPool S) (BufferError ε) Unit := do
  let (idx, f) ← Proc.unwrap (← frameOf id)
  setFrame idx { f with page := new }

def unpin (id : PageId) (dirtied : Bool) : Proc (BufferPool S) (BufferError ε) Unit := do
  match ← frameOf id with
  | none => Proc.fail (.notPinned id)
  | some (idx, f) =>
      if f.pinCount = 0 then Proc.fail (.notPinned id)
      else setFrame idx { f with pinCount := f.pinCount - 1, dirty := f.dirty || dirtied }

def flush (id : PageId) : Proc (BufferPool S) (BufferError ε) Unit := do
  match ← frameOf id with
  | none => Proc.fail (.notPinned id)
  | some (idx, f) =>
      if f.dirty then
        onStore (PageStore.writePage id f.page)
        setFrame idx { f with dirty := false }

def flushEach : List PageId → Proc (BufferPool S) (BufferError ε) Unit
  | [] => pure ()
  | id :: ids => do
      flush id
      flushEach ids

def pinCount (id : PageId) : Proc (BufferPool S) (BufferError ε) Nat := do
  let found ← frameOf id
  return (found.map (·.2.pinCount)).getD 0

/-- The frames are flushed in their order. -/
def flushAll : Proc (BufferPool S) (BufferError ε) Unit := do
  let p ← Proc.get
  flushEach (p.frames.map (·.pageId))

end BufferPool
end Sietch
