import Sietch.HeapPageStoreSpec

/-! Whole runs of a heap page store, with crashes anywhere inside `write_page`: the store
is a durable map from page ids to pages. -/
namespace Sietch
open ByteString Transition

inductive HeapEvent where
  | opened
  | allocated (id : PageId)
  | wrote (id : PageId) (page : Page)
  | crashed (id : PageId) (page : Page) (cut : HeapCut)
  | stopped

/-- The files, the open store and the ids that `allocate_page_id` ever returned. -/
structure HeapWorld (crc32 : Checksum) where
  dir : HeapDir
  store : Option (HeapPageStore crc32)
  given : List PageId

namespace HeapWorld
variable {crc32 : Checksum}

def start : HeapWorld crc32 := ⟨⟨[], .empty⟩, none, []⟩

def Writable (w : HeapWorld crc32) (id : PageId) : Prop := id = 0 ∨ id ∈ w.given

end HeapWorld

/-- A crash reaches the location log only when the length of the heap was counted up. -/
inductive HeapStep (crc32 : Checksum) : HeapWorld crc32 → HeapEvent → HeapWorld crc32 → Prop where
  | opened {w s} : w.store = none → HeapPageStore.openStore crc32 w.dir = .ok s →
      HeapStep crc32 w .opened ⟨s.dir, some s, w.given⟩
  | allocated {w s id s'} : w.store = some s → s.allocatePageId = (.ok id, s') →
      HeapStep crc32 w (.allocated id) ⟨s'.dir, some s', id :: w.given⟩
  | wrote {w s id page s'} : w.store = some s → w.Writable id → page.Sound →
      HeapPageStore.writePage id page s = (.ok (), s') →
      HeapStep crc32 w (.wrote id page) ⟨s'.dir, some s', w.given⟩
  | crashed {w s id page cut} : w.store = some s → w.Writable id → page.Sound →
      ((∃ c, cut = .inLog c) → s.heapLen + pageSize < 2 ^ 64) →
      HeapStep crc32 w (.crashed id page cut) ⟨s.crashDir id page cut, none, w.given⟩
  | stopped {w s} : w.store = some s → HeapStep crc32 w .stopped ⟨w.dir, none, w.given⟩

/-- The durable map: an interrupted write may take place or not. -/
inductive PageMapStep : (PageId → Option Page) → HeapEvent → (PageId → Option Page) → Prop where
  | opened {m} : PageMapStep m .opened m
  | allocated {m id} : PageMapStep m (.allocated id) m
  | wrote {m id page} : PageMapStep m (.wrote id page) (Function.update m id (some page))
  | lost {m id page cut} : PageMapStep m (.crashed id page cut) m
  | landed {m id page cut} :
      PageMapStep m (.crashed id page cut) (Function.update m id (some page))
  | stopped {m} : PageMapStep m .stopped m

namespace HeapWorld
variable {crc32 : Checksum} {w w' : HeapWorld crc32} {pages : PageId → Option Page}
open HeapPageStore

/-- What reads return, now and after the next open: the pages as they were written, with
their checksums filled in. -/
def Reads (w : HeapWorld crc32) (pages : PageId → Option Page) : Prop :=
  (∃ s, openStore crc32 w.dir = .ok s ∧
    (∀ id, s.readPage id = .ok ((pages id).map (Page.encoded crc32))) ∧
    ∀ id, (pages id).isSome → id < s.nextPageId) ∧
  ∀ s, w.store = some s → ∀ id, s.readPage id = .ok ((pages id).map (Page.encoded crc32))

/-- The location map of the open store, or the one that the next open builds, points to
the offset. -/
def References (w : HeapWorld crc32) (offset : Nat) : Prop :=
  ∃ s id, (w.store = some s ∨ openStore crc32 w.dir = .ok s) ∧ s.locations.get? id = some offset

structure Inv (w : HeapWorld crc32) (pages : PageId → Option Page) : Prop where
  given : ∀ id ∈ w.given, id + 1 < 2 ^ 64
  files : ∃ records, Holding crc32 w.dir (w.store.map HeapPageStore.locationLog) records pages ∧
    ∀ s, w.store = some s → s.Rep records pages ∧ w.dir = s.dir

theorem Inv.writable (h : w.Inv pages) {id : PageId} (hid : w.Writable id) : id + 1 < 2 ^ 64 := by
  rcases hid with rfl | hid
  · exact Nat.one_lt_two_pow (by decide)
  · exact h.given id hid

theorem Inv.reads (h : w.Inv pages) : w.Reads pages := by
  obtain ⟨records, hholding, hlive⟩ := h.files
  obtain ⟨s, hopen, hrep, hnext, -, -⟩ := openStore_holding hholding
  refine ⟨⟨s, hopen, hrep.readPage, fun id hid => ?_⟩, fun s hs => (hlive s hs).1.readPage⟩
  obtain ⟨r, hr, rfl⟩ := hholding.stored hid
  rw [hnext]
  exact lt_nextPageIdOf hr

theorem Inv.referenced (h : w.Inv pages) {offset : Nat} (href : w.References offset) :
    ∃ page, At crc32 w.dir.heap offset page := by
  obtain ⟨records, hholding, hlive⟩ := h.files
  obtain ⟨s, id, hs, hget⟩ := href
  have hmap : s.locations = locate records .empty := by
    rcases hs with hs | hs
    · exact (hlive s hs).1.locations
    · obtain ⟨t, hopen, hrep, -⟩ := openStore_holding hholding
      rw [hs] at hopen
      cases hopen
      exact hrep.locations
  have hid := hholding.located id
  rw [← hmap, hget] at hid
  cases hp : pages id with
  | none => rw [hp] at hid; cases hid
  | some page =>
      rw [hp] at hid
      cases hid with
      | some hat => exact ⟨page, hat⟩

theorem Inv.live {s : HeapPageStore crc32} {given : List PageId} {records : List Record}
    (hgiven : ∀ id ∈ given, id + 1 < 2 ^ 64) (hrep : s.Rep records pages) :
    Inv ⟨s.dir, some s, given⟩ pages := by
  refine ⟨hgiven, records, hrep.holding, fun t ht => ?_⟩
  cases ht
  exact ⟨hrep, rfl⟩

theorem Inv.resting {dir : HeapDir} {given : List PageId} {records : List Record}
    (hgiven : ∀ id ∈ given, id + 1 < 2 ^ 64) (h : Holding crc32 dir none records pages) :
    Inv (⟨dir, none, given⟩ : HeapWorld crc32) pages :=
  ⟨hgiven, records, h, fun s hs => by cases hs⟩

theorem Inv.step {e : HeapEvent} (h : w.Inv pages) (hstep : HeapStep crc32 w e w') :
    (∃ pages', PageMapStep pages e pages' ∧ w'.Inv pages') ∧
      ∀ offset page, At crc32 w.dir.heap offset page → At crc32 w'.dir.heap offset page := by
  obtain ⟨records, hholding, hlive⟩ := h.files
  cases hstep with
  | @opened t hnone hopen =>
      obtain ⟨s, hopen', hrep, -, -, hheap⟩ := openStore_holding hholding
      rw [hopen] at hopen'
      cases hopen'
      refine ⟨⟨pages, .opened, .live h.given hrep⟩, fun _ _ hat => ?_⟩
      simp only [hheap]
      exact hat.cut
  | @allocated s id s' hs hcall =>
      obtain ⟨hrep, hdir⟩ := hlive s hs
      rw [allocatePageId] at hcall
      split at hcall
      · rename_i hlt
        cases hcall
        refine ⟨⟨pages, .allocated, .live ?_
          ⟨hrep.holding, hrep.locations, hrep.heapLen, hrep.aligned⟩⟩, fun _ _ hat => ?_⟩
        · exact List.forall_mem_cons.mpr ⟨hlt, h.given⟩
        · rw [hdir] at hat
          exact hat
      · cases hcall
  | @wrote s id page s' hs hid hpage hcall =>
      obtain ⟨hrep, hdir⟩ := hlive s hs
      obtain ⟨hlen, hseq⟩ := writePage_ok hcall
      obtain ⟨u, t, hcall', hrep', -, -, -, hheap⟩ :=
        hrep.writePage hpage (h.writable hid) hlen hseq
      rw [hcall] at hcall'
      cases hcall'
      refine ⟨⟨_, .wrote, .live h.given hrep'⟩, fun _ _ hat => ?_⟩
      rw [hdir] at hat
      simp only [hheap]
      exact hat.append _
  | @crashed s id page cut hs hid hpage hlen =>
      obtain ⟨hrep, hdir⟩ := hlive s hs
      refine ⟨?_, fun _ _ hat => ?_⟩
      · rcases hrep.crashed hpage (h.writable hid) hlen with hold | ⟨r, hnew⟩
        · exact ⟨pages, .lost, .resting h.given hold⟩
        · exact ⟨_, .landed, .resting h.given hnew⟩
      · rw [hdir] at hat
        cases cut with
        | inHeap written =>
            simp only [crashDir, hrep.heap]
            exact hat.append _
        | inLog c =>
            simp only [crashDir, hrep.heap]
            exact hat.append _
  | @stopped s hs =>
      have hrest := hholding.change hholding.held.rest (fun _ _ hat => hat)
      exact ⟨⟨pages, .stopped, .resting h.given hrest⟩, fun _ _ hat => hat⟩

theorem start_inv : (start : HeapWorld crc32).Inv (fun _ => none) :=
  .resting (fun _ hid => absurd hid List.not_mem_nil) (holding_empty crc32)

theorem run_inv {events : List HeapEvent} (hrun : Run (HeapStep crc32) start events w) :
    ∃ pages, Run PageMapStep (fun _ => none) events pages ∧ w.Inv pages := by
  induction hrun with
  | nil => exact ⟨_, .nil, start_inv⟩
  | snoc _ hstep ih =>
      obtain ⟨pages, hmap, hinv⟩ := ih
      obtain ⟨⟨pages', hstep', hinv'⟩, -⟩ := hinv.step hstep
      exact ⟨pages', hmap.snoc hstep', hinv'⟩

end HeapWorld

/-- The heap page store is a durable map: after every run the next open succeeds, reads
return the pages of the map, the ids it allocates are above those of stored pages, and
every further step, a crash included, changes the map as it may and leaves the bytes that
the location map points to where they are. -/
theorem heap_store_durable {crc32 : Checksum} {events : List HeapEvent} {w : HeapWorld crc32}
    (hrun : Run (HeapStep crc32) HeapWorld.start events w) :
    ∃ pages, Run PageMapStep (fun _ => none) events pages ∧ w.Reads pages ∧
      ∀ e w', HeapStep crc32 w e w' →
        (∃ pages', PageMapStep pages e pages' ∧ w'.Reads pages') ∧
        ∀ offset, w.References offset → offset + pageSize ≤ w'.dir.heap.length ∧
          readAt w'.dir.heap offset pageSize = readAt w.dir.heap offset pageSize := by
  have hsim : Simulates (HeapStep crc32) PageMapStep some HeapWorld.Inv := by
    intro w pages e w' hinv hstep
    obtain ⟨pages', hmap, hinv'⟩ := (hinv.step hstep).1
    exact .inl ⟨e, pages', rfl, hmap, hinv'⟩
  obtain ⟨pages, hmap, hinv⟩ := hsim.run hrun HeapWorld.start_inv
  rw [List.filterMap_some] at hmap
  refine ⟨pages, hmap, hinv.reads, fun e w' hstep => ?_⟩
  obtain ⟨⟨pages', hmap', hinv'⟩, hat⟩ := hinv.step hstep
  refine ⟨⟨pages', hmap', hinv'.reads⟩, fun offset href => ?_⟩
  obtain ⟨page, hpage⟩ := hinv.referenced href
  have hkept := hat offset page hpage
  exact ⟨hkept.inside.trans (HeapPageStore.wholeLen_le _), hkept.bytes.trans hpage.bytes.symm⟩

/-- A page is written, and a crash interrupts the write of its next version with a hundred
bytes of it in the heap file. -/
theorem heap_store_durable_torn_page :
    ∃ w pages, Run (HeapStep crc32Ieee) HeapWorld.start [.opened, .wrote 0 (Page.new .data),
        .crashed 0 (Page.new .metaPage) (.inHeap 100)] w ∧
      Run PageMapStep (fun _ => none) [.opened, .wrote 0 (Page.new .data),
        .crashed 0 (Page.new .metaPage) (.inHeap 100)] pages ∧ w.Reads pages := by
  have hdata := (Page.new_rep .data).sound
  have hmeta := (Page.new_rep .metaPage).sound
  obtain ⟨s, hopen, hrep, -, hseq, hheap⟩ :=
    HeapPageStore.openStore_holding (HeapPageStore.holding_empty crc32Ieee)
  have hlen : s.heapLen = 0 := by
    rw [← hrep.heapLen, hheap]
    rfl
  have hid : (0 : PageId) + 1 < 2 ^ 64 := by decide
  obtain ⟨u, s', hwrite, -⟩ := hrep.writePage hdata hid (by rw [hlen]; decide)
    (by rw [hseq]; decide)
  have hcrash : HeapStep crc32Ieee ⟨s'.dir, some s', []⟩
      (.crashed 0 (Page.new .metaPage) (.inHeap 100)) _ :=
    .crashed rfl (.inl rfl) hmeta (fun ⟨c, hc⟩ => by cases hc)
  have hrun := ((Run.nil.snoc (HeapStep.opened (w := HeapWorld.start) rfl hopen)).snoc
    (.wrote rfl (.inl rfl) hdata hwrite)).snoc hcrash
  obtain ⟨pages, hmap, hreads, -⟩ := heap_store_durable hrun
  exact ⟨_, pages, hrun, hmap, hreads⟩

end Sietch
