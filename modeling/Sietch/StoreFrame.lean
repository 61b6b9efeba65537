import Sietch.BTree

/-! The buffer pool and the tree touch the page store by its calls only: what these keep of the
store, whatever their outcome, a program on the pool or the tree keeps. -/
namespace Sietch
open ByteString
open Proc (Maintains maintains_pure maintains_lift maintains_halt maintains_fail maintains_get
  maintains_unwrap)

/-- What the calls of a page store keep of it. -/
structure StoreMaintains {S ε : Type} [PageStore S ε] (I : S → Prop) : Prop where
  write : ∀ id page, Maintains I (PageStore.writePage (S := S) id page)
  allocate : Maintains I (PageStore.allocatePageId (S := S))

/-- The same of the store under a pool. -/
def BufferPool.Under {S : Type} (I : S → Prop) (p : BufferPool S) : Prop := I p.store

section Pool
variable {S ε α : Type} {I : S → Prop}

namespace BufferPool

theorem maintains_onStore {x : Proc S ε α} (hx : Maintains I x) : Maintains (Under I) (onStore x) :=
  (hx.focus (fun _ h => h) (fun _ _ _ h => h)).mapErr BufferError.store

theorem maintains_setFrame (idx : Nat) (f : Frame) :
    Maintains (Under I) (setFrame (S := S) (ε := ε) idx f) := fun _ h => h

theorem maintains_install (idx : Nat) (f : Frame) :
    Maintains (Under I) (install (S := S) (ε := ε) idx f) := by
  intro p hp
  unfold install
  split
  · exact hp
  · exact hp

theorem maintains_pinFrame (idx : Nat) : Maintains (Under I) (pinFrame (S := S) (ε := ε) idx) := by
  intro p hp
  unfold pinFrame
  split
  · exact hp
  · split
    · exact hp
    · exact hp

theorem maintains_frameOf (id : PageId) : Maintains (Under I) (frameOf (S := S) (ε := ε) id) := by
  intro p hp
  unfold frameOf
  split
  · exact hp
  · split
    · exact hp
    · exact hp

theorem maintains_page (id : PageId) : Maintains (Under I) (page (S := S) (ε := ε) id) :=
  (maintains_frameOf id).bind (fun _ => maintains_pure _)

theorem maintains_pageMut (id : PageId) (new : Page) :
    Maintains (Under I) (pageMut (S := S) (ε := ε) id new) :=
  (maintains_frameOf id).bind (fun found => (maintains_unwrap found).bind (fun _ =>
    maintains_setFrame _ _))

theorem maintains_unpin (id : PageId) (dirtied : Bool) :
    Maintains (Under I) (unpin (S := S) (ε := ε) id dirtied) := by
  refine (maintains_frameOf id).bind (fun found => ?_)
  split
  · exact maintains_fail _
  · split
    · exact maintains_fail _
    · exact maintains_setFrame _ _

variable [PageStore S ε]

theorem maintains_evict (h : StoreMaintains I) (idx : Nat) (f : Frame) :
    Maintains (Under I) (evict (S := S) idx f) := by
  have hleaves : Maintains (Under I) (do
      let p ← (Proc.get : Proc (BufferPool S) (BufferError ε) (BufferPool S))
      Proc.set { p with pageTable := p.pageTable.erase f.pageId }
      return idx) := fun _ hp => hp
  unfold evict
  split
  · exact (maintains_onStore (h.write _ _)).bind (fun _ => hleaves)
  · exact hleaves

theorem maintains_clock (h : StoreMaintains I) (n : Nat) :
    Maintains (Under I) (clock (S := S) n) := by
  induction n with
  | zero => exact fun _ hp => hp
  | succ n ih =>
      intro p hp
      unfold clock
      dsimp only
      split
      · exact hp
      · split
        · exact ih _ hp
        · split
          · exact ih _ hp
          · exact maintains_evict h _ _ _ hp

theorem maintains_findFrameFor (h : StoreMaintains I) (id : PageId) :
    Maintains (Under I) (findFrameFor (S := S) id) := by
  intro p hp
  unfold findFrameFor
  split
  · exact hp
  · exact maintains_clock h _ p hp

theorem maintains_newPage (h : StoreMaintains I) (t : PageType) :
    Maintains (Under I) (newPage (S := S) t) :=
  (maintains_onStore h.allocate).bind (fun id => (maintains_findFrameFor h id).bind (fun _ =>
    (maintains_install _ _).bind (fun _ => maintains_pure id)))

theorem maintains_fetch (h : StoreMaintains I) (id : PageId) :
    Maintains (Under I) (fetch (S := S) id) := by
  refine maintains_get.bind (fun p => ?_)
  split
  · exact maintains_pinFrame _
  · have hread : Maintains I (fun s : S => (PageStore.readPage s id, s)) := fun _ hs => hs
    exact (maintains_onStore hread).bind (fun _ => (maintains_findFrameFor h id).bind (fun _ =>
      maintains_install _ _))

theorem maintains_flush (h : StoreMaintains I) (id : PageId) :
    Maintains (Under I) (flush (S := S) id) := by
  refine (maintains_frameOf id).bind (fun found => ?_)
  split
  · exact maintains_fail _
  · split
    · exact (maintains_onStore (h.write _ _)).bind (fun _ => maintains_setFrame _ _)
    · exact maintains_pure ()

theorem maintains_flushEach (h : StoreMaintains I) (ids : List PageId) :
    Maintains (Under I) (flushEach (S := S) ids) := by
  induction ids with
  | nil => exact maintains_pure ()
  | cons id ids ih => exact (maintains_flush h id).bind (fun _ => ih)

theorem maintains_flushAll (h : StoreMaintains I) : Maintains (Under I) (flushAll (S := S)) :=
  maintains_get.bind (fun _ => maintains_flushEach h _)

end BufferPool

namespace BTree
open BufferPool (Under)

theorem maintains_onPool {x : Proc (BufferPool S) (BufferError ε) α} (hx : Maintains (Under I) x) :
    Maintains (Under I) (onPool x) := hx.mapErr _

theorem maintains_pageOf (id : PageId) : Maintains (Under I) (pageOf (S := S) (ε := ε) id) :=
  (maintains_onPool (BufferPool.maintains_page id)).bind (fun _ => maintains_unwrap _)

theorem maintains_assign (id : PageId) (new : Page) :
    Maintains (Under I) (assign (S := S) (ε := ε) id new) :=
  maintains_onPool (BufferPool.maintains_pageMut id new)

theorem maintains_unpin (id : PageId) (dirtied : Bool) :
    Maintains (Under I) (unpin (S := S) (ε := ε) id dirtied) :=
  maintains_onPool (BufferPool.maintains_unpin id dirtied)

/-- The end of an insertion in a node. -/
theorem maintains_unpinned (id : PageId) (split : Option (Bytes × PageId)) :
    Maintains (Under I) (unpin (S := S) (ε := ε) id true >>= fun _ => pure split) :=
  (maintains_unpin id true).bind (fun _ => maintains_pure split)

/-- A node is built anew in its page. -/
theorem maintains_rebuild (id : PageId) (o : Outcome PageError Page) {f : Unit → Op S ε α}
    (hf : ∀ u, Maintains (Under I) (f u)) :
    Maintains (Under I) (rebuilt o >>= fun page => assign id page >>= f) :=
  ((maintains_lift o).mapErr BTreeError.page).bind (fun _ => (maintains_assign id _).bind hf)

variable [PageStore S ε]

theorem maintains_fetch (h : StoreMaintains I) (id : PageId) :
    Maintains (Under I) (fetch (S := S) id) :=
  maintains_onPool (BufferPool.maintains_fetch h id)

theorem maintains_newPage (h : StoreMaintains I) (t : PageType) :
    Maintains (Under I) (newPage (S := S) t) := maintains_onPool (BufferPool.maintains_newPage h t)

theorem maintains_rootId (h : StoreMaintains I) : Maintains (Under I) (rootId (S := S)) := by
  refine (maintains_fetch h _).bind (fun _ => (maintains_pageOf _).bind (fun page => ?_))
  refine ((maintains_lift (page.get 0)).mapErr BTreeError.page).bind (fun bytes => ?_)
  split
  · exact (maintains_unpin _ _).bind (fun _ => maintains_pure _)
  · exact maintains_fail _

theorem maintains_setRootId (h : StoreMaintains I) (newRoot : PageId) :
    Maintains (Under I) (setRootId (S := S) newRoot) := by
  refine (maintains_fetch h _).bind (fun _ => ?_)
  refine ((maintains_lift _).mapErr BTreeError.page).bind (fun _ => ?_)
  exact (maintains_assign _ _).bind (fun _ => maintains_unpin _ _)

theorem maintains_insertLeaf (h : StoreMaintains I) (key value : Bytes) (id : PageId)
    (page : Page) : Maintains (Under I) (insertLeaf (S := S) key value id page) := by
  refine (maintains_unwrap _).bind (fun next => (maintains_unwrap _).bind (fun entries => ?_))
  dsimp only
  split
  · exact (maintains_assign _ _).bind (fun _ => maintains_unpinned id none)
  · refine (maintains_newPage h _).bind (fun rightId => ?_)
    refine maintains_rebuild _ _ (fun _ => maintains_rebuild _ _ (fun _ => ?_))
    refine (maintains_unwrap _).bind (fun sep => (maintains_unpin _ _).bind (fun _ => ?_))
    exact maintains_unpinned id (some (sep, rightId))
  · exact (maintains_fail _).bind (maintains_unpinned id)
  · exact maintains_halt.bind (maintains_unpinned id)

theorem maintains_insertChild (h : StoreMaintains I) (id : PageId) (sepKey : Bytes)
    (newChild : PageId) : Maintains (Under I) (insertChild (S := S) id sepKey newChild) := by
  refine (maintains_fetch h _).bind (fun _ => (maintains_pageOf _).bind (fun page => ?_))
  refine (maintains_unwrap _).bind (fun entries => (maintains_unwrap _).bind (fun insertAt => ?_))
  dsimp only
  split
  · exact (maintains_assign _ _).bind (fun _ => maintains_unpinned id none)
  · refine (maintains_unwrap _).bind (fun entry => (maintains_unwrap _).bind (fun key => ?_))
    refine maintains_rebuild _ _ (fun _ => (maintains_newPage h _).bind (fun rightId => ?_))
    refine maintains_rebuild _ _ (fun _ => (maintains_unpin _ _).bind (fun _ => ?_))
    exact maintains_unpinned id (some (key, rightId))
  · exact (maintains_fail _).bind (maintains_unpinned id)
  · exact maintains_halt.bind (maintains_unpinned id)

theorem maintains_insertRecursive (h : StoreMaintains I) (key value : Bytes) (fuel : Nat)
    (id : PageId) : Maintains (Under I) (insertRecursive (S := S) key value fuel id) := by
  induction fuel generalizing id with
  | zero => exact maintains_halt
  | succ fuel ih =>
      refine (maintains_fetch h _).bind (fun _ => (maintains_pageOf _).bind (fun page => ?_))
      split
      · exact maintains_insertLeaf h key value id page
      · refine (maintains_unwrap _).bind (fun _ => (maintains_unwrap _).bind (fun child => ?_))
        refine (maintains_unpin _ _).bind (fun _ => (ih child).bind (fun split => ?_))
        split
        · exact maintains_pure none
        · exact maintains_insertChild h _ _ _
      · exact maintains_halt

theorem maintains_insert (h : StoreMaintains I) (fuel : Nat) (key value : Bytes) :
    Maintains (Under I) (insert (S := S) fuel key value) := by
  refine (maintains_rootId h).bind (fun root => ?_)
  refine (maintains_insertRecursive h key value fuel root).bind (fun split => ?_)
  split
  · exact maintains_pure ()
  · refine (maintains_newPage h _).bind (fun _ => maintains_rebuild _ _ (fun _ => ?_))
    exact (maintains_unpin _ _).bind (fun _ => maintains_setRootId h _)

theorem maintains_flush (h : StoreMaintains I) : Maintains (Under I) (flush (S := S)) :=
  maintains_onPool (BufferPool.maintains_flushAll h)

end BTree
end Pool
end Sietch
