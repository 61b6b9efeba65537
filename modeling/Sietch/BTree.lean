import Sietch.BTreePage
import Sietch.BufferPool

/-! The B+tree over a buffer pool. The state is the pool, which holds all of the tree.
Recursions and loops have a fuel argument and halt when it is used up. -/
namespace Sietch
open ByteString

def metaPageId : PageId := 0

def noSibling : PageId := 0

inductive BTreeError (ε : Type) where
  | buffer (e : BufferError ε)
  | page (e : PageError)
  | corruptMeta
  deriving DecidableEq, Repr

/-- The loop of `route_index`, at entry `i`. -/
def routeLoop (searchKey : Bytes) : List InternalEntry → Nat → Nat → Nat
  | [], _, chosen => chosen
  | e :: rest, i, chosen =>
      match e.key with
      | some k => if k ≤ searchKey then routeLoop searchKey rest (i + 1) i else chosen
      | none => chosen

def routeIndex (entries : List InternalEntry) (searchKey : Bytes) : Nat :=
  routeLoop searchKey (entries.drop 1) 1 0

/-- Indexing an empty list panics. -/
def route (entries : List InternalEntry) (searchKey : Bytes) : Option PageId :=
  entries[routeIndex entries searchKey]?.map (·.child)

/-- `binary_search_by` on a sorted list: the position of the key, or where it belongs. -/
def lowerBound (entries : List Entry) (key : Bytes) : Nat :=
  (entries.takeWhile (fun e => e.1 < key)).length

def isAt (entries : List Entry) (i : Nat) (key : Bytes) : Bool :=
  entries[i]?.any (fun e => e.1 = key)

def upsert (entries : List Entry) (key value : Bytes) : List Entry :=
  let i := lowerBound entries key
  if isAt entries i key then entries.set i (key, value) else entries.insertIdx i (key, value)

def splitAtMidpoint {α : Type} (entries : List α) : Nat := entries.length / 2

/-- The loop of `position`, at entry `i`; an entry without a key panics. -/
def positionLoop (sepKey : Bytes) : List InternalEntry → Nat → Option Nat
  | [], i => some i
  | e :: rest, i =>
      match e.key with
      | none => none
      | some k => if sepKey < k then some i else positionLoop sepKey rest (i + 1)

/-- Where the separator of a split child goes. -/
def insertPosition : List InternalEntry → Bytes → Option Nat
  | [], _ => none
  | _ :: rest, sepKey => positionLoop sepKey rest 1

namespace BTree
variable {S ε α : Type}

/-- A program on a tree. -/
abbrev Op (S ε α : Type) := Proc (BufferPool S) (BTreeError ε) α

def onPool (x : Proc (BufferPool S) (BufferError ε) α) : Op S ε α := x.mapErr .buffer

/-- A node that is rebuilt; an error of the page is passed on. -/
def rebuilt (o : Outcome PageError Page) : Op S ε Page := (Proc.lift o).mapErr .page

variable [PageStore S ε]

/-- `page(id).unwrap()`. -/
def pageOf (id : PageId) : Op S ε Page := do
  Proc.unwrap (← onPool (BufferPool.page id))

/-- `*page_mut(id).unwrap() = new`. -/
def assign (id : PageId) (new : Page) : Op S ε Unit := onPool (BufferPool.pageMut id new)

def fetch (id : PageId) : Op S ε Unit := onPool (BufferPool.fetch id)

def newPage (t : PageType) : Op S ε PageId := onPool (BufferPool.newPage t)

def unpin (id : PageId) (dirtied : Bool) : Op S ε Unit := onPool (BufferPool.unpin id dirtied)

/-- What `open` does with the pool it has created. -/
def setUp : Op S ε Unit := do
  fetch metaPageId
  let metaPage ← pageOf metaPageId
  let slots ← Proc.unwrap metaPage.slotIds.toOption
  if slots.isEmpty then
    let rootId ← newPage .btreeLeaf
    assign rootId (← rebuilt (buildLeaf [] noSibling))
    unpin rootId true
    let metaPage ← pageOf metaPageId
    let (_, metaPage) ← (Proc.lift (metaPage.insert (leBytes 8 rootId))).mapErr .page
    assign metaPageId metaPage
  unpin metaPageId true

def rootId : Op S ε PageId := do
  fetch metaPageId
  let metaPage ← pageOf metaPageId
  let bytes ← (Proc.lift (metaPage.get 0)).mapErr .page
  if bytes.length = 8 then
    unpin metaPageId false
    return ofLeBytes bytes
  else Proc.fail .corruptMeta

def setRootId (newRoot : PageId) : Op S ε Unit := do
  fetch metaPageId
  let (_, page) ← (Proc.lift ((Page.new .metaPage).insert (leBytes 8 newRoot))).mapErr .page
  assign metaPageId page
  unpin metaPageId true

def getRecursive (key : Bytes) : Nat → PageId → Op S ε (Option Bytes)
  | 0, _ => Proc.halt
  | fuel + 1, pageId => do
      fetch pageId
      let page ← pageOf pageId
      match page.pageType with
      | .btreeLeaf =>
          let entries ← Proc.unwrap (readLeafEntries page)
          let result := (entries.find? (fun e => e.1 = key)).map (·.2)
          unpin pageId false
          return result
      | .btreeInternal =>
          let entries ← Proc.unwrap (readInternalEntries page)
          let child ← Proc.unwrap (route entries key)
          unpin pageId false
          getRecursive key fuel child
      | _ => Proc.halt

def get (fuel : Nat) (key : Bytes) : Op S ε (Option Bytes) := do
  let root ← rootId
  getRecursive key fuel root

/-- The leaf case of `insert_recursive`, the leaf being pinned. -/
def insertLeaf (key value : Bytes) (pageId : PageId) (page : Page) :
    Op S ε (Option (Bytes × PageId)) := do
  let oldNextSibling ← Proc.unwrap (readLeafSibling page)
  let entries ← Proc.unwrap (readLeafEntries page)
  let entries := upsert entries key value
  let split ← match buildLeaf entries oldNextSibling with
    | .ok page => do
        assign pageId page
        pure none
    | .err (.full _ _) => do
        let mid := splitAtMidpoint entries
        let rightId ← newPage .btreeLeaf
        assign pageId (← rebuilt (buildLeaf (entries.take mid) rightId))
        assign rightId (← rebuilt (buildLeaf (entries.drop mid) oldNextSibling))
        let sep ← Proc.unwrap ((entries.drop mid).head?.map (·.1))
        unpin rightId true
        pure (some (sep, rightId))
    | .err e => Proc.fail (.page e)
    | .panic => Proc.halt
  unpin pageId true
  return split

/-- The parent takes in a child that was split off. -/
def insertChild (pageId : PageId) (sepKey : Bytes) (newChild : PageId) :
    Op S ε (Option (Bytes × PageId)) := do
  fetch pageId
  let entries ← Proc.unwrap (readInternalEntries (← pageOf pageId))
  let insertAt ← Proc.unwrap (insertPosition entries sepKey)
  let entries := entries.insertIdx insertAt ⟨some sepKey, newChild⟩
  let split ← match buildInternal entries with
    | .ok page => do
        assign pageId page
        pure none
    | .err (.full _ _) => do
        let mid := max (splitAtMidpoint entries) 1
        let entry ← Proc.unwrap entries[mid]?
        let promotedKey ← Proc.unwrap entry.key
        assign pageId (← rebuilt (buildInternal (entries.take mid)))
        let rightId ← newPage .btreeInternal
        let right := ⟨none, entry.child⟩ :: entries.drop (mid + 1)
        assign rightId (← rebuilt (buildInternal right))
        unpin rightId true
        pure (some (promotedKey, rightId))
    | .err e => Proc.fail (.page e)
    | .panic => Proc.halt
  unpin pageId true
  return split

def insertRecursive (key value : Bytes) : Nat → PageId → Op S ε (Option (Bytes × PageId))
  | 0, _ => Proc.halt
  | fuel + 1, pageId => do
      fetch pageId
      let page ← pageOf pageId
      match page.pageType with
      | .btreeLeaf => insertLeaf key value pageId page
      | .btreeInternal =>
          let entries ← Proc.unwrap (readInternalEntries page)
          let child ← Proc.unwrap (route entries key)
          unpin pageId false
          match ← insertRecursive key value fuel child with
          | none => return none
          | some (sepKey, newChild) => insertChild pageId sepKey newChild
      | _ => Proc.halt

def insert (fuel : Nat) (key value : Bytes) : Op S ε Unit := do
  let root ← rootId
  match ← insertRecursive key value fuel root with
  | none => return ()
  | some (sep, newChild) =>
      let newRootId ← newPage .btreeInternal
      assign newRootId (← rebuilt (buildInternal [⟨none, root⟩, ⟨some sep, newChild⟩]))
      unpin newRootId true
      setRootId newRootId

/-- The leaf case of `delete_recursive`, the leaf being pinned. -/
def deleteLeaf (key : Bytes) (pageId : PageId) (page : Page) : Op S ε (Bool × Bool) := do
  let nextSibling ← Proc.unwrap (readLeafSibling page)
  let entries ← Proc.unwrap (readLeafEntries page)
  let i := lowerBound entries key
  let found := isAt entries i key
  let entries := if found then entries.eraseIdx i else entries
  if found then assign pageId (← rebuilt (buildLeaf entries nextSibling))
  unpin pageId found
  return (found, entries.isEmpty)

/-- The parent drops a child that was emptied. An only child stays. -/
def dropChild (pageId : PageId) (childIndex : Nat) : Op S ε (Bool × Bool) := do
  fetch pageId
  let entries ← Proc.unwrap (readInternalEntries (← pageOf pageId))
  if childIndex = 0 ∧ entries.length = 1 then
    unpin pageId false
    return (true, true)
  else
    let entries ← if childIndex = 0 then do
        let second ← Proc.unwrap entries[1]?
        pure ((entries.set 0 ⟨none, second.child⟩).eraseIdx 1)
      else pure (entries.eraseIdx childIndex)
    assign pageId (← rebuilt (buildInternal entries))
    unpin pageId true
    return (true, entries.isEmpty)

def deleteRecursive (key : Bytes) : Nat → PageId → Op S ε (Bool × Bool)
  | 0, _ => Proc.halt
  | fuel + 1, pageId => do
      fetch pageId
      let page ← pageOf pageId
      match page.pageType with
      | .btreeLeaf => deleteLeaf key pageId page
      | .btreeInternal =>
          let entries ← Proc.unwrap (readInternalEntries page)
          let childIndex := routeIndex entries key
          let child ← Proc.unwrap (route entries key)
          unpin pageId false
          let (found, childEmptied) ← deleteRecursive key fuel child
          if !found then return (false, false)
          else if !childEmptied then return (true, false)
          else dropChild pageId childIndex
      | _ => Proc.halt

/-- An internal root that was emptied makes room for its only child. -/
def shrinkRoot (root : PageId) : Op S ε Unit := do
  fetch root
  let page ← pageOf root
  if page.pageType = .btreeInternal then
    let entries ← Proc.unwrap (readInternalEntries page)
    let first ← Proc.unwrap entries[0]?
    unpin root false
    setRootId first.child
  else unpin root false

def delete (fuel : Nat) (key : Bytes) : Op S ε Bool := do
  let root ← rootId
  let (found, rootEmptied) ← deleteRecursive key fuel root
  if rootEmptied then shrinkRoot root
  return found

/-- The recursion over the children, in order; `out` is returned. -/
def scanChildren (scan : PageId → Op S ε (List Entry)) : List PageId → Op S ε (List Entry)
  | [] => pure []
  | child :: rest => do
      let first ← scan child
      let more ← scanChildren scan rest
      return first ++ more

def scanRecursive : Nat → PageId → Op S ε (List Entry)
  | 0, _ => Proc.halt
  | fuel + 1, pageId => do
      fetch pageId
      let page ← pageOf pageId
      match page.pageType with
      | .btreeLeaf =>
          let entries ← Proc.unwrap (readLeafEntries page)
          unpin pageId false
          return entries
      | .btreeInternal =>
          let entries ← Proc.unwrap (readInternalEntries page)
          unpin pageId false
          scanChildren (scanRecursive fuel) (entries.map (·.child))
      | _ => Proc.halt

def scanAll (fuel : Nat) : Op S ε (List Entry) := do
  let root ← rootId
  scanRecursive fuel root

def findLeafForKey (key : Bytes) : Nat → PageId → Op S ε PageId
  | 0, _ => Proc.halt
  | fuel + 1, pageId => do
      fetch pageId
      let page ← pageOf pageId
      match page.pageType with
      | .btreeLeaf =>
          unpin pageId false
          return pageId
      | .btreeInternal =>
          let entries ← Proc.unwrap (readInternalEntries page)
          let child ← Proc.unwrap (route entries key)
          unpin pageId false
          findLeafForKey key fuel child
      | _ => Proc.halt

/-- The loop of `scan_range` over one leaf: what it pushes, and whether it reached the
end. -/
def rangeOf (start stop : Bytes) : List Entry → List Entry × Bool
  | [] => ([], false)
  | e :: rest =>
      if stop ≤ e.1 then ([], true)
      else
        let (out, reachedEnd) := rangeOf start stop rest
        (if start ≤ e.1 then e :: out else out, reachedEnd)

def scanLeaves (start stop : Bytes) : Nat → PageId → Op S ε (List Entry)
  | 0, _ => Proc.halt
  | fuel + 1, leafId => do
      fetch leafId
      let page ← pageOf leafId
      let entries ← Proc.unwrap (readLeafEntries page)
      let nextSibling ← Proc.unwrap (readLeafSibling page)
      unpin leafId false
      let (out, reachedEnd) := rangeOf start stop entries
      if reachedEnd ∨ nextSibling = noSibling then return out
      else
        let more ← scanLeaves start stop fuel nextSibling
        return out ++ more

def scanRange (fuel : Nat) (start stop : Bytes) : Op S ε (List Entry) := do
  let root ← rootId
  let leafId ← findLeafForKey start fuel root
  scanLeaves start stop fuel leafId

def flush : Op S ε Unit := onPool BufferPool.flushAll

/-- The loop of `depth` down the leftmost path. -/
def depthLoop : Nat → PageId → Nat → Op S ε Nat
  | 0, _, _ => Proc.halt
  | fuel + 1, pageId, depth => do
      fetch pageId
      let page ← pageOf pageId
      match page.pageType with
      | .btreeLeaf =>
          unpin pageId false
          return depth
      | .btreeInternal =>
          let entries ← Proc.unwrap (readInternalEntries page)
          let first ← Proc.unwrap entries[0]?
          unpin pageId false
          depthLoop fuel first.child (depth + 1)
      | _ => Proc.halt

def depth (fuel : Nat) : Op S ε Nat := do
  let root ← rootId
  depthLoop fuel root 1

end BTree

/-- `open`: a pool over the store, with a root if there is none yet. -/
def BTree.openTree {S ε : Type} [PageStore S ε] (store : S) (poolCapacity : Nat) :
    Outcome (BTreeError ε) Unit × Option (BufferPool S) :=
  match BufferPool.new (ε := ε) store poolCapacity with
  | .ok pool =>
      let (result, pool) := BTree.setUp pool
      (result, some pool)
  | .err e => (.err (.buffer (.store e)), none)
  | .panic => (.panic, none)

end Sietch
