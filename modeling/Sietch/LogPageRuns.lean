import Sietch.LogPageStore
import Sietch.Spec

/-! Whole runs of the log page store, with crashes inside its writes. Like the heap page store
it is a durable map of pages; its ids go on after the greatest one that is stored. -/
namespace Sietch
open ByteString Transition

inductive LogPageEvent where
  | opened (l : Listing)
  | allocated (id : PageId)
  | wrote (id : PageId) (page : Page)
  | crashed (id : PageId) (page : Page) (cut : Cut)
  | stopped

/-- The durable map behind the calls, and the id that is given out next while it is open. -/
structure PageShelf where
  pages : PageId → Option Page
  next : Option PageId

/-- Ids start after the greatest stored one, and at 1 on an empty store. -/
structure PageShelf.Fresh (pages : PageId → Option Page) (next : PageId) : Prop where
  above : ∀ id, (pages id).isSome → id < next
  least : next = 1 ∨ (pages (next - 1)).isSome ∧ 0 < next

def Cut.Arrived : Cut → Prop
  | .beforeRollOver => False
  | .atByte written => headerLen + 8 + pageSize ≤ written

instance : DecidablePred Cut.Arrived
  | .beforeRollOver => inferInstanceAs (Decidable False)
  | .atByte written => inferInstanceAs (Decidable (headerLen + 8 + pageSize ≤ written))

/-- An interrupted write takes place exactly if all its bytes arrived; a store that ends
forgets the ids that it gave out for nothing. -/
inductive ShelfStep : PageShelf → LogPageEvent → PageShelf → Prop where
  | opened {shelf l next} : shelf.next = none → PageShelf.Fresh shelf.pages next →
      ShelfStep shelf (.opened l) { shelf with next := some next }
  | allocated {shelf id} : shelf.next = some id →
      ShelfStep shelf (.allocated id) { shelf with next := some (id + 1) }
  | wrote {shelf id page} : shelf.next.isSome →
      ShelfStep shelf (.wrote id page) ⟨Function.update shelf.pages id (some page), shelf.next⟩
  | lost {shelf id page cut} : shelf.next.isSome → ¬ cut.Arrived →
      ShelfStep shelf (.crashed id page cut) ⟨shelf.pages, none⟩
  | landed {shelf id page cut} : shelf.next.isSome → cut.Arrived →
      ShelfStep shelf (.crashed id page cut) ⟨Function.update shelf.pages id (some page), none⟩
  | stopped {shelf} : shelf.next.isSome → ShelfStep shelf .stopped ⟨shelf.pages, none⟩

structure LogPageWorld (crc32 : Checksum) where
  dir : StoreDir
  store : Option (LogPageStore crc32)
  given : List PageId

namespace LogPageWorld
variable {crc32 : Checksum}

def start : LogPageWorld crc32 := ⟨.empty, none, []⟩

/-- Pages are written under id 0 or an id that was allocated. -/
def Writable (w : LogPageWorld crc32) (id : PageId) : Prop := id = 0 ∨ id ∈ w.given

end LogPageWorld

def LogPageStore.crashDir {crc32 : Checksum} (s : LogPageStore crc32) (id : PageId) (page : Page)
    (cut : Cut) : StoreDir :=
  let call := Call.put (key id) (page.encode crc32)
  { s.dir with main := call.crashDir crc32 cut s.dir.main s.store.log }

/-- A put at the end of the counter panics before it writes a byte, so the crashed one is not
at the end. -/
inductive LogPageStep (crc32 : Checksum) :
    LogPageWorld crc32 → LogPageEvent → LogPageWorld crc32 → Prop where
  | opened {w l s} : w.store = none → LogPageStore.openStore crc32 l w.dir = .ok s →
      LogPageStep crc32 w (.opened l) ⟨s.dir, some s, w.given⟩
  | allocated {w s id s'} : w.store = some s → s.allocatePageId = (.ok id, s') →
      LogPageStep crc32 w (.allocated id) ⟨s'.dir, some s', id :: w.given⟩
  | wrote {w s id page s'} : w.store = some s → w.Writable id → page.Sound →
      LogPageStore.writePage id page s = (.ok (), s') →
      LogPageStep crc32 w (.wrote id page) ⟨s'.dir, some s', w.given⟩
  | crashed {w s id page cut} : w.store = some s → w.Writable id → page.Sound →
      s.store.log.nextSeq + 1 < 2 ^ 64 →
      LogPageStep crc32 w (.crashed id page cut) ⟨s.crashDir id page cut, none, w.given⟩
  | stopped {w s} : w.store = some s → LogPageStep crc32 w .stopped ⟨w.dir, none, w.given⟩

namespace LogPageStore
variable {crc32 : Checksum} {records : List Record} {pages : PageId → Option Page}

/-- The records hold these pages. Every id leaves room for the next one. -/
structure Shelves (crc32 : Checksum) (records : List Record) (pages : PageId → Option Page) :
    Prop where
  stored : ∀ id < 2 ^ 64,
    (Index.replay records).live (key id) = (pages id).map (Page.encode crc32)
  sound : ∀ id page, pages id = some page → page.Sound
  limit : ∀ id, (pages id).isSome → id + 1 < 2 ^ 64

theorem Shelves.write (h : Shelves crc32 records pages) {id : PageId} {page : Page} (seq : Nat)
    (hid : id + 1 < 2 ^ 64) (hpage : page.Sound) :
    Shelves crc32 (records ++ [Record.put seq (key id) (page.encode crc32)])
      (Function.update pages id (some page)) where
  stored := by
    intro i hi
    have happend : (Index.replay (records ++ [Record.put seq (key id) (page.encode crc32)])).live =
        KeyState.apply (Index.replay records).live (.put (key id) (page.encode crc32)) := by
      rw [Index.replay_append]
      exact Index.live_push _ seq (.put (key id) (page.encode crc32))
    rw [happend]
    unfold KeyState.apply LogOp.key LogOp.newValue
    dsimp only
    by_cases hsame : i = id
    · subst hsame
      rw [Function.update_self, Function.update_self]
      rfl
    · have hkey : key i ≠ key id := fun heq => hsame (key_inj hi (Nat.lt_of_succ_lt hid) heq)
      rw [Function.update_of_ne hsame, Function.update_of_ne hkey, h.stored i hi]
  sound := by
    intro i p hp
    rw [Function.update_apply] at hp
    split at hp
    · cases hp
      exact hpage
    · exact h.sound i p hp
  limit := by
    intro i hi
    rw [Function.update_apply] at hi
    split at hi
    · rename_i hsame
      rw [hsame]
      exact hid
    · exact h.limit i hi

theorem Shelves.readPage (h : Shelves crc32 records pages) {s : LogPageStore crc32}
    (hindex : s.store.index = Index.replay records) {id : PageId} (hid : id < 2 ^ 64) :
    s.readPage id = .ok ((pages id).map (Page.encoded crc32)) := by
  have hget : s.store.get (key id) = (pages id).map (Page.encode crc32) := by
    rw [Store.get_live, hindex]
    exact h.stored id hid
  unfold LogPageStore.readPage
  rw [hget]
  cases hpage : pages id with
  | none => rfl
  | some page =>
      have hsound := h.sound id page hpage
      simp only [Option.map_some]
      rw [if_neg (not_not.mpr (Page.length_encode hsound.size crc32)), Page.decode_encode hsound]

theorem Shelves.fresh (h : Shelves crc32 records pages) {store : Store}
    (hindex : store.index = Index.replay records) :
    PageShelf.Fresh pages ((storedIds store).max?.elim 1 (· + 1)) ∧
      (storedIds store).max?.elim 1 (· + 1) < 2 ^ 64 := by
  have hget : ∀ id < 2 ^ 64, (store.get (key id)).isSome ↔ (pages id).isSome := by
    intro id hid
    rw [Store.get_live, hindex, h.stored id hid, Option.isSome_map]
  have hmem : ∀ id < 2 ^ 64, id ∈ storedIds store ↔ (pages id).isSome := by
    intro id hid
    rw [mem_storedIds hid, hget id hid]
  cases hmax : (storedIds store).max? with
  | none =>
      have hnil : storedIds store = [] := List.max?_eq_none_iff.mp hmax
      refine ⟨⟨?_, .inl rfl⟩, by decide⟩
      intro id hid
      have hin := (hmem id (Nat.lt_of_succ_lt (h.limit id hid))).mpr hid
      rw [hnil] at hin
      cases hin
  | some last =>
      obtain ⟨hlast, hall⟩ := List.max?_eq_some_iff.mp hmax
      have hlt := storedIds_lt hlast
      have hstored := (hmem last hlt).mp hlast
      refine ⟨⟨?_, .inr ⟨hstored, Nat.succ_pos last⟩⟩, h.limit last hstored⟩
      intro id hid
      exact Nat.lt_succ_of_le (hall id ((hmem id (Nat.lt_of_succ_lt (h.limit id hid))).mpr hid))

end LogPageStore

namespace LogPageWorld
variable {crc32 : Checksum} {w w' : LogPageWorld crc32} {shelf : PageShelf}
open LogPageStore

structure Inv (w : LogPageWorld crc32) (shelf : PageShelf) : Prop where
  given : ∀ id ∈ w.given, id + 1 < 2 ^ 64
  clean : w.dir.Clean
  next : shelf.next = w.store.map LogPageStore.nextId
  files : ∃ records, Holds crc32 w.dir.main (w.store.map (·.store.log)) records ∧
    Shelves crc32 records shelf.pages ∧
    ∀ s, w.store = some s → s.dir = w.dir ∧ s.store.index = Index.replay records

/-- What reads return, now and after the next open, and the ids that the next open gives. -/
def Reads (w : LogPageWorld crc32) (shelf : PageShelf) : Prop :=
  (∀ l, ∃ s, openStore crc32 l w.dir = .ok s ∧ PageShelf.Fresh shelf.pages s.nextId ∧
    ∀ id < 2 ^ 64, s.readPage id = .ok ((shelf.pages id).map (Page.encoded crc32))) ∧
  ∀ s, w.store = some s → ∀ id < 2 ^ 64,
    s.readPage id = .ok ((shelf.pages id).map (Page.encoded crc32))

theorem Inv.writable (h : w.Inv shelf) {id : PageId} (hid : w.Writable id) : id + 1 < 2 ^ 64 := by
  rcases hid with rfl | hid
  · exact Nat.one_lt_two_pow (by decide)
  · exact h.given id hid

theorem start_inv : (start : LogPageWorld crc32).Inv ⟨fun _ => none, none⟩ where
  given := by
    intro id hid
    cases hid
  clean := ⟨rfl, rfl, rfl, rfl⟩
  next := rfl
  files := by
    refine ⟨[], .fresh, ⟨fun _ _ => rfl, ?_, ?_⟩, ?_⟩
    · intro id page hpage
      cases hpage
    · intro id hid
      cases hid
    · intro s hs
      cases hs

theorem Inv.opens (h : w.Inv shelf) (l : Listing) :
    ∃ s, openStore crc32 l w.dir = .ok s ∧ PageShelf.Fresh shelf.pages s.nextId ∧
      Inv ⟨s.dir, some s, w.given⟩ ⟨shelf.pages, some s.nextId⟩ := by
  obtain ⟨records, hh, hshelves, -⟩ := h.files
  obtain ⟨store, dir, hopen, hinv, hindex⟩ := openStore_holds h.clean hh l
  obtain ⟨hfresh, hlimit⟩ := hshelves.fresh hindex
  refine ⟨⟨dir, store, (storedIds store).max?.elim 1 (· + 1)⟩, ?_, hfresh, ?_⟩
  · simp only [openStore, hopen, if_neg (not_le.mpr hlimit)]
  · refine ⟨h.given, hinv.clean, rfl, records, hinv.disk, hshelves, ?_⟩
    rintro s ⟨⟩
    exact ⟨rfl, hindex⟩

theorem Inv.reads (h : w.Inv shelf) : w.Reads shelf := by
  constructor
  · intro l
    obtain ⟨s, hopen, hfresh, hinv⟩ := h.opens l
    obtain ⟨records, -, hshelves, hlive⟩ := hinv.files
    exact ⟨s, hopen, hfresh, fun id hid => hshelves.readPage (hlive s rfl).2 hid⟩
  · intro s hs id hid
    obtain ⟨records, -, hshelves, hlive⟩ := h.files
    exact hshelves.readPage (hlive s hs).2 hid

theorem Inv.running (h : w.Inv shelf) {s : LogPageStore crc32} (hs : w.store = some s) :
    ∃ records, Holds crc32 s.dir.main (some s.store.log) records ∧
      Shelves crc32 records shelf.pages ∧ s.store.index = Index.replay records ∧ s.dir.Clean := by
  obtain ⟨records, hh, hshelves, hlive⟩ := h.files
  obtain ⟨hdir, hindex⟩ := hlive s hs
  rw [hs, ← hdir] at hh
  refine ⟨records, hh, hshelves, hindex, ?_⟩
  rw [hdir]
  exact h.clean

theorem Inv.wrote (h : w.Inv shelf) {s s' : LogPageStore crc32} (hs : w.store = some s)
    {id : PageId} {page : Page} (hid : id + 1 < 2 ^ 64) (hpage : page.Sound)
    (hwrite : LogPageStore.writePage id page s = (.ok (), s')) :
    Inv ⟨s'.dir, some s', w.given⟩ ⟨Function.update shelf.pages id (some page), shelf.next⟩ := by
  obtain ⟨records, hh, hshelves, hindex, hclean⟩ := h.running hs
  unfold LogPageStore.writePage at hwrite
  split at hwrite
  · rename_i store dir hput
    cases hwrite
    have hcall : s.store.write crc32 .done s.dir (.put (key id) (page.encode crc32)) =
        (.ok (), store, dir) := hput
    have hfits : ∀ op ∈ (Call.put (key id) (page.encode crc32)).ops, op.Fits := by
      simpa [Call.ops] using page_fits crc32 hpage id
    have hwrote := (Store.write_append hcall).2
    refine ⟨h.given, ?_, ?_, _, Store.write_disk hfits hcall hh,
      hshelves.write s.store.log.nextSeq hid hpage, ?_⟩
    · rw [hwrote.scratch]
      exact hclean
    · rw [h.next, hs]
      rfl
    · rintro t ⟨⟩
      refine ⟨rfl, ?_⟩
      rw [hwrote.index, hindex, ← Index.replay_append]
  · cases hwrite
  · cases hwrite

theorem kept_page {seq : Nat} {page : Page} (hpage : page.Sound) (id : PageId) (cut : Cut) :
    (¬ cut.Arrived ∧ cut.kept [Record.put seq (key id) (page.encode crc32)] = 0) ∨
      (cut.Arrived ∧ cut.kept [Record.put seq (key id) (page.encode crc32)] = 1) := by
  cases cut with
  | beforeRollOver => exact .inl ⟨not_false, rfl⟩
  | atByte written =>
      have hlen : (Record.put seq (key id) (page.encode crc32)).encodedLen =
          headerLen + 8 + pageSize := by
        simp [Record.encodedLen, Record.put, key, Page.length_encode hpage.size]
      simp only [Cut.kept, wholeRecords, hlen, Cut.Arrived]
      by_cases harrived : headerLen + 8 + pageSize ≤ written
      · exact .inr ⟨harrived, if_pos harrived⟩
      · exact .inl ⟨harrived, if_neg harrived⟩

theorem Inv.crashed (h : w.Inv shelf) {s : LogPageStore crc32} (hs : w.store = some s)
    {id : PageId} {page : Page} (hid : id + 1 < 2 ^ 64) (hpage : page.Sound)
    (hn : s.store.log.nextSeq + 1 < 2 ^ 64) (cut : Cut) :
    let w' : LogPageWorld crc32 := ⟨s.crashDir id page cut, none, w.given⟩
    (¬ cut.Arrived ∧ w'.Inv ⟨shelf.pages, none⟩) ∨
      (cut.Arrived ∧ w'.Inv ⟨Function.update shelf.pages id (some page), none⟩) := by
  intro w'
  obtain ⟨records, hh, hshelves, -, hclean⟩ := h.running hs
  have hfits : ∀ op ∈ (Call.put (key id) (page.encode crc32)).ops, op.Fits := by
    simpa [Call.ops] using page_fits crc32 hpage id
  have hcrashed := hh.crashed_kept hfits hn cut
  simp only [Call.ops, Log.numberRecords, LogOp.record] at hcrashed
  have hidle : ∀ t, (none : Option (LogPageStore crc32)) = some t →
      t.dir = s.crashDir id page cut ∧ t.store.index = Index.replay records := by
    intro t ht
    cases ht
  rcases kept_page hpage id cut with ⟨hlost, hkept⟩ | ⟨harrived, hkept⟩
  · rw [hkept, List.take_zero, List.append_nil] at hcrashed
    exact .inl ⟨hlost, h.given, hclean, rfl, records, hcrashed, hshelves, hidle⟩
  · rw [hkept, List.take_one] at hcrashed
    exact .inr ⟨harrived, h.given, hclean, rfl, _, hcrashed,
      hshelves.write s.store.log.nextSeq hid hpage, fun t ht => by cases ht⟩

theorem Inv.step {e : LogPageEvent} (h : w.Inv shelf) (hstep : LogPageStep crc32 w e w') :
    ∃ shelf', ShelfStep shelf e shelf' ∧ w'.Inv shelf' := by
  cases hstep with
  | @opened l s hnone hopen =>
      obtain ⟨s', hopen', hfresh, hinv⟩ := h.opens l
      rw [hopen] at hopen'
      cases hopen'
      refine ⟨_, .opened ?_ hfresh, hinv⟩
      rw [h.next, hnone]
      rfl
  | @allocated s id s' hs halloc =>
      obtain ⟨records, hh, hshelves, hindex, hclean⟩ := h.running hs
      have hnext : shelf.next = some s.nextId := by
        rw [h.next, hs]
        rfl
      unfold LogPageStore.allocatePageId at halloc
      split at halloc
      · rename_i hroom
        cases halloc
        refine ⟨_, .allocated hnext, List.forall_mem_cons.mpr ⟨hroom, h.given⟩, hclean, rfl,
          records, hh, hshelves, ?_⟩
        rintro t ⟨⟩
        exact ⟨rfl, hindex⟩
      · cases halloc
  | @wrote s id page s' hs hid hpage hwrite =>
      have hopen : shelf.next.isSome := by
        rw [h.next, hs]
        rfl
      exact ⟨_, .wrote hopen, h.wrote hs (h.writable hid) hpage hwrite⟩
  | @crashed s id page cut hs hid hpage hn =>
      have hopen : shelf.next.isSome := by
        rw [h.next, hs]
        rfl
      rcases h.crashed hs (h.writable hid) hpage hn cut with ⟨hcut, hlost⟩ | ⟨hcut, hlanded⟩
      · exact ⟨_, .lost hopen hcut, hlost⟩
      · exact ⟨_, .landed hopen hcut, hlanded⟩
  | @stopped s hs =>
      have hopen : shelf.next.isSome := by
        rw [h.next, hs]
        rfl
      obtain ⟨records, hh, hshelves, -⟩ := h.files
      exact ⟨_, .stopped hopen, h.given, h.clean, rfl, records, hh.rest, hshelves,
        fun t ht => by cases ht⟩

end LogPageWorld

/-- The log page store is a durable map: after every run the next open succeeds and gives ids
from above the greatest stored one, reads return the pages of the map, and every further step
changes the map as it should, a crash inside a write exactly if all bytes had arrived. -/
theorem log_page_store_durable {crc32 : Checksum} {events : List LogPageEvent}
    {w : LogPageWorld crc32} (hrun : Run (LogPageStep crc32) LogPageWorld.start events w) :
    ∃ shelf, Run ShelfStep ⟨fun _ => none, none⟩ events shelf ∧ w.Reads shelf ∧
      ∀ e w', LogPageStep crc32 w e w' → ∃ shelf', ShelfStep shelf e shelf' ∧ w'.Reads shelf' := by
  suffices hinv : ∃ shelf, Run ShelfStep ⟨fun _ => none, none⟩ events shelf ∧ w.Inv shelf by
    obtain ⟨shelf, hshelf, hinv⟩ := hinv
    refine ⟨shelf, hshelf, hinv.reads, ?_⟩
    intro e w' hstep
    obtain ⟨shelf', hstep', hinv'⟩ := hinv.step hstep
    exact ⟨shelf', hstep', hinv'.reads⟩
  induction hrun with
  | nil => exact ⟨_, .nil, LogPageWorld.start_inv⟩
  | snoc _ hstep ih =>
      obtain ⟨shelf, hshelf, hinv⟩ := ih
      obtain ⟨shelf', hstep', hinv'⟩ := hinv.step hstep
      exact ⟨shelf', hshelf.snoc hstep', hinv'⟩

theorem first_write {key value : Bytes} (hfits : (LogOp.put key value).Fits) :
    ∃ store dir, StoreWorld.start.store.put crc32Ieee .done StoreWorld.start.dir key value =
      (.ok (), store, dir) ∧ store.log.nextSeq = 1 := by
  have hops : ∀ op ∈ (Call.put key value).ops, op.Fits := by simpa [Call.ops] using hfits
  have hroom : StoreWorld.start.store.log.nextSeq + 1 < 2 ^ 64 := by decide
  obtain ⟨w, hstep⟩ := (StoreWorld.start_inv crc32Ieee).writes hops hroom
  obtain ⟨hput, -⟩ := StoreWorld.exec_write hstep.2
  exact ⟨w.store, w.dir, hput, (Store.write_append hput).2.nextSeq⟩

/-- A page is written, and a crash interrupts the write of its next version: the page stays. -/
theorem log_page_store_durable_crash :
    ∃ (w w' : LogPageWorld crc32Ieee) (shelf : PageShelf),
      Run (LogPageStep crc32Ieee) LogPageWorld.start [.opened .ascending, .allocated 1,
        .wrote 1 (Page.new .data)] w ∧
      LogPageStep crc32Ieee w (.crashed 1 (Page.new .btreeLeaf) (.atByte 7)) w' ∧
      Run ShelfStep ⟨fun _ => none, none⟩ [.opened .ascending, .allocated 1,
        .wrote 1 (Page.new .data)] shelf ∧
      w.Reads shelf ∧ w'.Reads ⟨shelf.pages, none⟩ := by
  have hsound : ∀ t, (Page.new t).Sound := fun t => (Page.new_rep t).sound
  obtain ⟨store, dir, hput, hnext⟩ := first_write (LogPageStore.page_fits crc32Ieee (hsound .data) 1)
  let opened : LogPageStore crc32Ieee := ⟨StoreWorld.start.dir, StoreWorld.start.store, 1⟩
  let allocated : LogPageStore crc32Ieee := { opened with nextId := 2 }
  let written : LogPageStore crc32Ieee := ⟨dir, store, 2⟩
  have hopened : Run (LogPageStep crc32Ieee) LogPageWorld.start [.opened .ascending]
      ⟨opened.dir, some opened, []⟩ := .snoc .nil (.opened rfl rfl)
  have halloc : LogPageStep crc32Ieee ⟨opened.dir, some opened, []⟩ (.allocated 1)
      ⟨allocated.dir, some allocated, [1]⟩ := .allocated rfl rfl
  have hwrite : LogPageStore.writePage 1 (Page.new .data) allocated = (.ok (), written) := by
    simp only [LogPageStore.writePage, allocated, opened, written, hput]
  have hwrote : LogPageStep crc32Ieee ⟨allocated.dir, some allocated, [1]⟩
      (.wrote 1 (Page.new .data)) ⟨written.dir, some written, [1]⟩ :=
    .wrote rfl (.inr (List.mem_singleton_self 1)) (hsound .data) hwrite
  have hcrash : LogPageStep crc32Ieee ⟨written.dir, some written, [1]⟩
      (.crashed 1 (Page.new .btreeLeaf) (.atByte 7)) _ :=
    .crashed rfl (.inr (List.mem_singleton_self 1)) (hsound .btreeLeaf)
      (show store.log.nextSeq + 1 < 2 ^ 64 by rw [hnext]; decide)
  have hrun := (hopened.snoc halloc).snoc hwrote
  obtain ⟨shelf, hshelf, hreads, hsteps⟩ := log_page_store_durable hrun
  obtain ⟨shelf', hstep, hreads'⟩ := hsteps _ _ hcrash
  cases hstep with
  | lost _ _ => exact ⟨_, _, shelf, hrun, hcrash, hshelf, hreads, hreads'⟩
  | landed _ harrived => exact absurd harrived (by decide)

end Sietch
