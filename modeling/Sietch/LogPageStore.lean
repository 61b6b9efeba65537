import Sietch.PageStore
import Sietch.StoreRuns

/-! The log page store: every version of a page is a record of a store, under the
big-endian bytes of its id. -/
namespace Sietch
open ByteString

inductive LogPageStoreError where
  | store (e : StoreError)
  | page (e : PageError)
  | wrongLength (id : PageId) (len : Nat)
  deriving DecidableEq, Repr

/-- The store with the directory it is kept in. -/
structure LogPageStore (crc32 : Checksum) where
  dir : StoreDir
  store : Store
  nextId : PageId

namespace LogPageStore
variable {crc32 : Checksum}

def key (id : PageId) : Bytes := beBytes 8 id

/-- The ids that `open` finds: the keys of eight bytes. -/
def storedIds (store : Store) : List PageId :=
  (store.scan []).filterMap (fun e => if e.1.length = 8 then some (ofBeBytes e.1) else none)

def openStore (crc32 : Checksum) (l : Listing) (dir : StoreDir) :
    Outcome LogPageStoreError (LogPageStore crc32) :=
  match Store.openStore crc32 l dir with
  | (.ok store, dir) =>
      let nextId := (storedIds store).max?.elim 1 (· + 1)
      if 2 ^ 64 ≤ nextId then .panic else .ok ⟨dir, store, nextId⟩
  | (.err e, _) => .err (.store e)
  | (.panic, _) => .panic

def readPage (s : LogPageStore crc32) (id : PageId) : Outcome LogPageStoreError (Option Page) :=
  match s.store.get (key id) with
  | none => .ok none
  | some bytes =>
      if bytes.length ≠ pageSize then .err (.wrongLength id bytes.length)
      else
        match Page.decode crc32 bytes with
        | .ok page => .ok (some page)
        | .err e => .err (.page e)
        | .panic => .panic

def writePage (id : PageId) (page : Page) : Proc (LogPageStore crc32) LogPageStoreError Unit :=
  fun s =>
    match s.store.put crc32 .done s.dir (key id) (page.encode crc32) with
    | (.ok (), store, dir) => (.ok (), { s with store, dir })
    | (.err e, store, dir) => (.err (.store e), { s with store, dir })
    | (.panic, store, dir) => (.panic, { s with store, dir })

def allocatePageId : Proc (LogPageStore crc32) LogPageStoreError PageId := fun s =>
  if s.nextId + 1 < 2 ^ 64 then (.ok s.nextId, { s with nextId := s.nextId + 1 })
  else (.panic, s)

instance : PageStore (LogPageStore crc32) LogPageStoreError where
  readPage := readPage
  writePage := writePage
  allocatePageId := allocatePageId

theorem key_inj {i j : PageId} (hi : i < 2 ^ 64) (hj : j < 2 ^ 64) (h : key i = key j) : i = j := by
  have hi' := ofBeBytes_beBytes (w := 8) hi
  rw [show beBytes 8 i = beBytes 8 j from h, ofBeBytes_beBytes (w := 8) hj] at hi'
  exact hi'.symm

theorem mem_storedIds {store : Store} {id : PageId} (hid : id < 2 ^ 64) :
    id ∈ storedIds store ↔ (store.get (key id)).isSome := by
  have hlookup := store.lookup_scan [] (key id)
  rw [if_pos List.nil_prefix] at hlookup
  rw [← hlookup, storedIds, List.mem_filterMap]
  constructor
  · rintro ⟨e, he, hsome⟩
    split at hsome
    · rename_i hlen
      cases hsome
      have hkey : key (ofBeBytes e.1) = e.1 := by
        rw [key, ← hlen, beBytes_ofBeBytes]
      rw [hkey, SortedMap.lookup_of_mem (store.scan_ascending []) he]
      rfl
    · cases hsome
  · intro hsome
    obtain ⟨v, hv⟩ := Option.isSome_iff_exists.mp hsome
    refine ⟨(key id, v), SortedMap.mem_of_lookup hv, ?_⟩
    exact (if_pos (length_beBytes 8 id)).trans (congrArg some (ofBeBytes_beBytes hid))

theorem storedIds_lt {store : Store} {id : PageId} (h : id ∈ storedIds store) : id < 2 ^ 64 := by
  obtain ⟨e, -, hsome⟩ := List.mem_filterMap.mp h
  split at hsome
  · rename_i hlen
    cases hsome
    have hlt := ofLeBytes_lt e.1.reverse
    rw [List.length_reverse, hlen] at hlt
    exact hlt
  · cases hsome

/-- When exactly the pages below an id are stored, the next open continues there. -/
theorem nextId_eq {store : Store} {next : PageId} (hpos : 0 < next) (hlimit : next < 2 ^ 64)
    (hfull : ∀ i < 2 ^ 64, (store.get (key i)).isSome ↔ i < next) :
    (storedIds store).max?.elim 1 (· + 1) = next := by
  obtain ⟨last, rfl⟩ := Nat.exists_eq_add_of_lt hpos
  rw [Nat.zero_add] at hlimit hfull ⊢
  have hmax : (storedIds store).max? = some last := by
    refine List.max?_eq_some_iff.mpr ⟨?_, fun i hi => ?_⟩
    · have hlast : last < 2 ^ 64 := Nat.lt_of_succ_lt hlimit
      exact (mem_storedIds hlast).mpr ((hfull last hlast).mpr (Nat.lt_succ_self _))
    · have hlt := storedIds_lt hi
      exact Nat.le_of_lt_succ ((hfull i hlt).mp ((mem_storedIds hlt).mp hi))
  rw [hmax]
  rfl

section Numbered
variable {O : Type} {Shows : Page → O → Prop} {s : LogPageStore crc32} {view : PageId → Option O}
  {next room : Nat}

/-- The bytes are those of a page that is read as this content. -/
def Encodes (crc32 : Checksum) (Shows : Page → O → Prop) (bytes : Bytes) (o : O) : Prop :=
  ∃ page, Shows page o ∧ bytes = page.encode crc32

/-- The index of the store is that of its records, and the values of the page keys are pages
that are read as these contents. There is room for a number of writes before the sequence
numbers end. -/
structure Kept (Shows : Page → O → Prop) (s : LogPageStore crc32) (view : PageId → Option O)
    (next room : Nat) : Prop where
  clean : s.dir.Clean
  logged : ∃ records, Holds crc32 s.dir.main (some s.store.log) records ∧
    s.store.index = Index.replay records
  pages : ∀ id < 2 ^ 64, Option.Rel (Encodes crc32 Shows) (s.store.get (key id)) (view id)
  nextId : s.nextId = next
  limit : next < 2 ^ 64
  counter : room = 0 ∨ s.store.log.nextSeq + room < 2 ^ 64

theorem Kept.weaken {room' : Nat} (h : Kept Shows s view next room) (hle : room' ≤ room) :
    Kept Shows s view next room' := by
  refine ⟨h.clean, h.logged, h.pages, h.nextId, h.limit, ?_⟩
  rcases h.counter with hzero | hlog
  · exact .inl (Nat.le_zero.mp (hle.trans hzero.le))
  · exact .inr (by omega)

theorem Kept.read (h : Kept Shows s view next room) (hsound : ∀ {p o}, Shows p o → p.Sound)
    (henc : ∀ {p o}, Shows p o → Shows (p.encoded crc32) o) {d : O}
    (hnew : Shows (Page.new .data) d) {id : PageId} (hid : id < 2 ^ 64) :
    ∃ page, s.readPage id = .ok page ∧ Shows (page.getD (Page.new .data)) ((view id).getD d) := by
  have hrel := h.pages id hid
  rw [readPage]
  cases hget : s.store.get (key id) with
  | none =>
      rw [hget] at hrel
      cases hv : view id with
      | none => exact ⟨none, rfl, hnew⟩
      | some o => rw [hv] at hrel; cases hrel
  | some bytes =>
      rw [hget] at hrel
      cases hv : view id with
      | none => rw [hv] at hrel; cases hrel
      | some o =>
          rw [hv] at hrel
          cases hrel with
          | some hpage =>
              obtain ⟨page, hshow, rfl⟩ := hpage
              have hlen := Page.length_encode (hsound hshow).size crc32
              refine ⟨some (page.encoded crc32), ?_, henc hshow⟩
              simp only [if_neg (not_not.mpr hlen), Page.decode_encode (hsound hshow)]

/-- A put is acknowledged unless the counter is at its end. -/
theorem put_returns {dir : StoreDir} {store : Store} {records : List Record} {k v : Bytes}
    (hlog : Holds crc32 dir.main (some store.log) records)
    (hindex : store.index = Index.replay records) (hfit : (LogOp.put k v).Fits)
    (hseq : store.log.nextSeq + 1 < 2 ^ 64) : ∃ store' main records',
      store.put crc32 .done dir k v = (.ok (), store', { dir with main }) ∧
      Holds crc32 main (some store'.log) records' ∧ store'.index = Index.replay records' ∧
      store'.log.nextSeq = store.log.nextSeq + 1 ∧
      ∀ j, store'.get j = if j = k then some v else store.get j := by
  obtain ⟨log', main, happend, hheld, hseq'⟩ := hlog.appendPut hfit hseq
  have hput : store.put crc32 .done dir k v = (.ok (), { store with
      log := log', index := store.index.push k ⟨store.log.nextSeq, some v⟩ }, { dir with main }) := by
    simp only [Store.put, happend, Record.put]
  refine ⟨_, main, _, hput, hheld, ?_, hseq', fun j => ?_⟩
  · rw [Index.replay, Index.pushAll, List.foldl_append]
    simp only [hindex]
    rfl
  · rw [Store.get_eq, Store.get_eq, Index.versions_push]
    split
    · rw [List.getLast?_concat]
      rfl
    · rfl

theorem put_panic (crc32 : Checksum) (dir : StoreDir) {store : Store} (k v : Bytes)
    (hseq : 2 ^ 64 ≤ store.log.nextSeq + 1) :
    ∃ store' dir', store.put crc32 .done dir k v = (.panic, store', dir') := by
  simp only [Store.put, appendPut_panic hseq]
  exact ⟨_, _, rfl⟩

theorem page_fits (crc32 : Checksum) {page : Page} (hpage : page.Sound) (id : PageId) :
    (LogOp.put (key id) (page.encode crc32)).Fits := by
  rw [LogOp.Fits, key, length_beBytes, Page.length_encode hpage.size]
  decide

attribute [local irreducible] pageSize in
theorem Kept.write (h : Kept Shows s view next room) (hsound : ∀ {p o}, Shows p o → p.Sound)
    {id : PageId} {page : Page} {o : O} (hshow : Shows page o) (hid : id < 2 ^ 64) :
    Proc.Ends (LogPageStore.writePage id page) s
      (fun _ s' => Kept Shows s' (Function.update view id (some o)) next (room - 1))
      (fun _ => False) (room = 0) := by
  obtain ⟨records, hlog, hindex⟩ := h.logged
  rw [Proc.Ends, LogPageStore.writePage]
  by_cases hseq : s.store.log.nextSeq + 1 < 2 ^ 64
  · obtain ⟨store', main, records', hput, hheld, hindex', hseq', hget⟩ :=
      put_returns hlog hindex (page_fits crc32 (hsound hshow) id) hseq
    simp only [hput]
    refine ⟨h.clean, ⟨records', hheld, hindex'⟩, fun i hi => ?_, h.nextId, h.limit, ?_⟩
    · rw [hget]
      by_cases hii : i = id
      · subst hii
        rw [if_pos rfl, Function.update_self]
        exact .some ⟨page, hshow, rfl⟩
      · rw [if_neg (fun heq => hii (key_inj hi hid heq)), Function.update_of_ne hii]
        exact h.pages i hi
    · rcases h.counter with rfl | hcount
      · exact .inl rfl
      · exact .inr (by rw [hseq']; omega)
  · obtain ⟨store', dir', hput⟩ := put_panic crc32 s.dir (key id) (page.encode crc32)
      (not_lt.mp hseq)
    rw [hput]
    rcases h.counter with hzero | hcount
    · exact hzero
    · omega

theorem Kept.allocate (h : Kept Shows s view next room) :
    Proc.Ends LogPageStore.allocatePageId s
      (fun id s' => id = next ∧ next + 1 < 2 ^ 64 ∧ Kept Shows s' view (next + 1) room)
      (fun _ => False) (2 ^ 64 ≤ next + 1) := by
  rw [Proc.Ends, LogPageStore.allocatePageId]
  by_cases hlt : s.nextId + 1 < 2 ^ 64
  · rw [if_pos hlt]
    rw [h.nextId] at hlt ⊢
    exact ⟨rfl, hlt, h.clean, h.logged, h.pages, rfl, hlt, h.counter⟩
  · rw [if_neg hlt]
    rw [h.nextId] at hlt
    exact not_lt.mp hlt

/-- The log page store as a map of contents. -/
def numbered (crc32 : Checksum) (Shows : Page → O → Prop) (blank : PageType → O)
    (hnew : ∀ t, Shows (Page.new t) (blank t)) (hsound : ∀ {p o}, Shows p o → p.Sound)
    (henc : ∀ {p o}, Shows p o → Shows (p.encoded crc32) o) :
    NumberedStore (LogPageStore crc32) O where
  Shows := Shows
  blank := blank
  Writable id := id < 2 ^ 64
  Rep s view b := Kept Shows s view b.1 b.2
  shows_new := hnew
  writable h _ hid := hid.trans h.limit
  weaken hle h := h.weaken hle
  read h _ hid := h.read hsound henc (hnew .data) hid
  write h _ _ _ hshow hid := h.write hsound hshow hid
  allocate h := h.allocate

theorem kept_open {dir : StoreDir} {log : Option Log} {records : List Record} (hclean : dir.Clean)
    (hlog : Holds crc32 dir.main log records) (l : Listing) {next : PageId}
    (hnext : ∀ store : Store, store.index = Index.replay records →
      (storedIds store).max?.elim 1 (· + 1) = next) (hlimit : next < 2 ^ 64)
    (hpages : ∀ store : Store, store.index = Index.replay records → ∀ id < 2 ^ 64,
      Option.Rel (Encodes crc32 Shows) (store.get (key id)) (view id)) :
    ∃ s, openStore crc32 l dir = .ok s ∧ Kept Shows s view next 0 := by
  obtain ⟨store, dir', hopen, hinv, hindex⟩ := openStore_holds hclean hlog l
  refine ⟨⟨dir', store, next⟩, ?_, hinv.clean, ⟨records, hinv.disk, hindex⟩, hpages store hindex,
    rfl, hlimit, .inl rfl⟩
  simp only [openStore, hopen, hnext store hindex, if_neg (not_le.mpr hlimit)]

/-- A store that was dropped opens with the same pages, and goes on where it was with its
ids. -/
theorem Kept.reopen (h : Kept Shows s view next room) (hpos : 0 < next)
    (hfull : ∀ i, (view i).isSome ↔ i < next) (l : Listing) :
    ∃ s', openStore crc32 l s.dir = .ok s' ∧ Kept Shows s' view next 0 := by
  obtain ⟨records, hlog, hindex⟩ := h.logged
  have hsame : ∀ store : Store, store.index = Index.replay records → store.get = s.store.get := by
    intro store hstore
    funext j
    rw [Store.get, Store.get, hstore, hindex]
  refine kept_open h.clean hlog l (fun store hstore => ?_) h.limit (fun store hstore => ?_)
  · refine nextId_eq hpos h.limit (fun i hi => ?_)
    rw [hsame store hstore]
    exact (SortedMap.rel_isSome (h.pages i hi)).trans (hfull i)
  · rw [hsame store hstore]
    exact h.pages

theorem kept_fresh (crc32 : Checksum) (Shows : Page → O → Prop) (l : Listing) :
    ∃ s, openStore crc32 l .empty = .ok s ∧ Kept Shows s (fun _ => none) 1 0 := by
  have hnone : ∀ store : Store, store.index = Index.replay [] → ∀ j, store.get j = none := by
    intro store hstore j
    rw [Store.get, hstore]
    rfl
  refine kept_open ⟨rfl, rfl, rfl, rfl⟩ .fresh l (fun store hstore => ?_)
    (Nat.one_lt_two_pow (by decide)) (fun store hstore id _ => ?_)
  · have hempty : storedIds store = [] := List.eq_nil_iff_forall_not_mem.mpr (fun i hi => by
      have hsome := (mem_storedIds (storedIds_lt hi)).mp hi
      rw [hnone store hstore] at hsome
      cases hsome)
    rw [hempty]
    rfl
  · rw [hnone store hstore]
    exact .none

end Numbered
end LogPageStore
end Sietch
