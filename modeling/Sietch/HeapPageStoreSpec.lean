import Sietch.HeapPageStore

/-! What the files of a heap page store stand for: a map from page ids to pages. Opening,
reading and writing are specified on that map, and so is a crash inside a write. -/
namespace Sietch
open ByteString

namespace HeapPageStore
variable {crc32 : Checksum}

/-- The locations after these records of the location log. -/
def locate (records : List Record) (locations : SortedMap PageId Nat) : SortedMap PageId Nat :=
  records.foldl (fun m r => m.insert (ofLeBytes r.key) (ofLeBytes r.value)) locations

/-- The greatest page id, with the source's running maximum. -/
def maxPageId (records : List Record) (maxId : Option PageId) : Option PageId :=
  records.foldl (fun m r => some (m.elim (ofLeBytes r.key) (max · (ofLeBytes r.key)))) maxId

structure IsLocation (r : Record) : Prop where
  key : r.key.length = 8
  value : r.value.length = 8
  id : ofLeBytes r.key + 1 < 2 ^ 64

theorem replayLocations_eq {records : List Record} (h : ∀ r ∈ records, IsLocation r)
    (locations : SortedMap PageId Nat) (maxId : Option PageId) :
    replayLocations records locations maxId =
      .ok (locate records locations, maxPageId records maxId) := by
  induction records generalizing locations maxId with
  | nil => rfl
  | cons r rs ih =>
      obtain ⟨hr, hrs⟩ := List.forall_mem_cons.mp h
      simp only [replayLocations, decodeLocation, if_neg (not_not.mpr hr.key), if_pos hr.value,
        Outcome.ok_bind]
      exact ih hrs _ _

theorem maxPageId_spec (records : List Record) (maxId : Option PageId) :
    (∀ i, maxId = some i ∨ (∃ r ∈ records, ofLeBytes r.key = i) →
      ∃ m, maxPageId records maxId = some m ∧ i ≤ m) ∧
    (∀ m, maxPageId records maxId = some m →
      maxId = some m ∨ ∃ r ∈ records, ofLeBytes r.key = m) := by
  induction records generalizing maxId with
  | nil =>
      refine ⟨fun i hi => ?_, fun m hm => .inl hm⟩
      rcases hi with hi | ⟨r, hr, -⟩
      · exact ⟨i, hi, le_rfl⟩
      · cases hr
  | cons r rs ih =>
      obtain ⟨habove, hone⟩ := ih (some (maxId.elim (ofLeBytes r.key) (max · (ofLeBytes r.key))))
      refine ⟨fun i hi => ?_, fun m hm => ?_⟩
      · obtain ⟨m, hm, hle⟩ := habove _ (.inl rfl)
        rcases hi with rfl | ⟨q, hq, rfl⟩
        · exact ⟨m, hm, le_trans (le_max_left _ _) hle⟩
        · rcases List.mem_cons.mp hq with rfl | hq
          · refine ⟨m, hm, le_trans ?_ hle⟩
            cases maxId with
            | none => exact le_rfl
            | some j => exact le_max_right _ _
          · exact habove _ (.inr ⟨q, hq, rfl⟩)
      · rcases hone m hm with hm | ⟨q, hq, rfl⟩
        · cases maxId with
          | none => exact .inr ⟨r, List.mem_cons_self .., Option.some.inj hm⟩
          | some j =>
              rcases max_choice j (ofLeBytes r.key) with hmax | hmax
              · exact .inl (by rw [← hm, Option.elim_some, hmax])
              · refine .inr ⟨r, List.mem_cons_self .., ?_⟩
                rw [Option.elim_some, hmax] at hm
                exact Option.some.inj hm
        · exact .inr ⟨q, List.mem_cons_of_mem _ hq, rfl⟩

theorem mem_of_locate {records : List Record} {id : PageId}
    (h : (locate records .empty).get? id ≠ none) : ∃ r ∈ records, ofLeBytes r.key = id := by
  induction records using List.reverseRecOn with
  | nil => exact absurd rfl h
  | append_singleton rs r ih =>
      rw [locate, List.foldl_append] at h
      by_cases hid : id = ofLeBytes r.key
      · exact ⟨r, by simp, hid.symm⟩
      · simp only [List.foldl_cons, List.foldl_nil, SortedMap.get?_insert, if_neg hid] at h
        obtain ⟨q, hq, heq⟩ := ih h
        exact ⟨q, List.mem_append_left _ hq, heq⟩

theorem locate_of_mem {records : List Record} {r : Record} (h : r ∈ records) :
    (locate records .empty).get? (ofLeBytes r.key) ≠ none := by
  induction records using List.reverseRecOn with
  | nil => cases h
  | append_singleton rs q ih =>
      rw [locate, List.foldl_append]
      simp only [List.foldl_cons, List.foldl_nil, SortedMap.get?_insert]
      rcases List.mem_append.mp h with hin | hlast
      · split
        · exact Option.some_ne_none _
        · exact ih hin
      · rw [List.mem_singleton.mp hlast, if_pos rfl]
        exact Option.some_ne_none _

theorem locate_snoc (records : List Record) (r : Record) :
    locate (records ++ [r]) .empty =
      (locate records .empty).insert (ofLeBytes r.key) (ofLeBytes r.value) := by
  rw [locate, List.foldl_append]
  rfl

/-- The whole pages of a heap file. -/
def wholeLen (heap : Bytes) : Nat := heap.length - heap.length % pageSize

/-- A version of the page lies at the offset. -/
structure At (crc32 : Checksum) (heap : Bytes) (offset : Nat) (page : Page) : Prop where
  sound : page.Sound
  inside : offset + pageSize ≤ wholeLen heap
  bytes : readAt heap offset pageSize = page.encode crc32

/-- The files hold these pages. -/
structure Holding (crc32 : Checksum) (dir : HeapDir) (log : Option Log) (records : List Record)
    (pages : PageId → Option Page) : Prop where
  held : Holds crc32 dir.locations log records
  shaped : ∀ r ∈ records, IsLocation r
  located : ∀ id, Option.Rel (At crc32 dir.heap) ((locate records .empty).get? id) (pages id)

section Files
variable {dir : HeapDir} {log : Option Log} {records : List Record} {pages : PageId → Option Page}
  {heap heap' : Bytes} {offset : Nat} {page : Page}

theorem wholeLen_le (heap : Bytes) : wholeLen heap ≤ heap.length := Nat.sub_le _ _

theorem wholeLen_mono {n m : Nat} (h : n ≤ m) : n - n % pageSize ≤ m - m % pageSize := by
  have hn := Nat.div_add_mod n pageSize
  have hm := Nat.div_add_mod m pageSize
  have hdiv := Nat.mul_le_mul_left pageSize (Nat.div_le_div_right (c := pageSize) h)
  omega

/-- The heap only grows, or loses a part of a page at its end. -/
theorem At.kept (h : At crc32 heap offset page)
    (hgrow : wholeLen heap ≤ wholeLen heap')
    (hsame : ∀ n, offset + n ≤ wholeLen heap → readAt heap' offset n = readAt heap offset n) :
    At crc32 heap' offset page :=
  ⟨h.sound, h.inside.trans hgrow, (hsame _ h.inside).trans h.bytes⟩

theorem At.append (h : At crc32 heap offset page) (more : Bytes) :
    At crc32 (heap ++ more) offset page := by
  refine h.kept ?_ (fun n hn => readAt_append_left more (hn.trans (wholeLen_le heap)))
  rw [wholeLen, wholeLen, List.length_append]
  exact wholeLen_mono (Nat.le_add_right _ _)

theorem wholeLen_take (heap : Bytes) : wholeLen (heap.take (wholeLen heap)) = wholeLen heap := by
  have hdvd : wholeLen heap % pageSize = 0 := Nat.mod_eq_zero_of_dvd (Nat.dvd_sub_mod _)
  rw [wholeLen, List.length_take, min_eq_left (wholeLen_le heap), hdvd, Nat.sub_zero]

theorem At.cut (h : At crc32 heap offset page) :
    At crc32 (heap.take (wholeLen heap)) offset page := by
  refine h.kept ?_ (fun n hn => readAt_take hn)
  rw [wholeLen_take]

theorem Holding.change {dir' : HeapDir} {log' : Option Log} (h : Holding crc32 dir log records pages)
    (hheld : Holds crc32 dir'.locations log' records)
    (hat : ∀ offset page, At crc32 dir.heap offset page → At crc32 dir'.heap offset page) :
    Holding crc32 dir' log' records pages :=
  ⟨hheld, h.shaped, fun id => SortedMap.rel_mono (h.located id) hat⟩

theorem Holding.add {dir' : HeapDir} {log' : Option Log} (h : Holding crc32 dir log records pages)
    {id seq : Nat}
    (hheld : Holds crc32 dir'.locations log'
      (records ++ [.put seq (leBytes 8 id) (encodeLocation offset)]))
    (hid : id + 1 < 2 ^ 64) (hoff : offset < 2 ^ 64)
    (hat : ∀ offset page, At crc32 dir.heap offset page → At crc32 dir'.heap offset page)
    (hpage : At crc32 dir'.heap offset page) :
    Holding crc32 dir' log' (records ++ [.put seq (leBytes 8 id) (encodeLocation offset)])
      (Function.update pages id (some page)) := by
  have hkey : ofLeBytes (leBytes 8 id) = id := ofLeBytes_leBytes (by omega)
  have hvalue : ofLeBytes (encodeLocation offset) = offset :=
    ofLeBytes_leBytes (w := 8) (by omega)
  refine ⟨hheld, fun r hr => ?_, SortedMap.rel_update h.located hat ?_ (.some hpage)⟩
  · rcases List.mem_append.mp hr with hr | hr
    · exact h.shaped r hr
    · rw [List.mem_singleton.mp hr]
      refine ⟨length_leBytes 8 id, length_leBytes 8 offset, ?_⟩
      rw [Record.put, hkey]
      exact hid
  · intro j
    rw [locate_snoc, Record.put, hkey, hvalue, SortedMap.get?_insert]

theorem holding_empty (crc32 : Checksum) :
    Holding crc32 ⟨[], .empty⟩ none [] (fun _ => none) :=
  ⟨.fresh, fun _ hr => absurd hr List.not_mem_nil, fun _ => .none⟩

/-- The next id that a store opened on these records allocates. -/
def nextPageIdOf (records : List Record) : PageId := (maxPageId records none).elim 1 (· + 1)

theorem Holding.stored (h : Holding crc32 dir log records pages) {id : PageId}
    (hid : (pages id).isSome) : ∃ r ∈ records, ofLeBytes r.key = id := by
  refine mem_of_locate (fun hnone => ?_)
  have hrel := h.located id
  rw [hnone] at hrel
  cases hp : pages id with
  | none => rw [hp] at hid; cases hid
  | some p => rw [hp] at hrel; cases hrel

theorem lt_nextPageIdOf {r : Record} (h : r ∈ records) :
    ofLeBytes r.key < nextPageIdOf records := by
  obtain ⟨m, hm, hle⟩ := (maxPageId_spec records none).1 _ (.inr ⟨r, h, rfl⟩)
  rw [nextPageIdOf, hm]
  exact Nat.lt_succ_of_le hle

theorem nextPageIdOf_lt (h : ∀ r ∈ records, IsLocation r) : nextPageIdOf records < 2 ^ 64 := by
  rw [nextPageIdOf]
  cases hm : maxPageId records none with
  | none => exact Nat.one_lt_two_pow (by decide)
  | some m =>
      rcases (maxPageId_spec records none).2 m hm with hnone | ⟨r, hr, rfl⟩
      · cases hnone
      · exact (h r hr).id

end Files

/-- A running store: the heap file ends with a whole page, where the store's own length
says. -/
structure Rep (s : HeapPageStore crc32) (records : List Record) (pages : PageId → Option Page) :
    Prop where
  holding : Holding crc32 s.dir (some s.locationLog) records pages
  locations : s.locations = locate records .empty
  heapLen : s.dir.heap.length = s.heapLen
  aligned : s.heapLen % pageSize = 0

section Calls
variable {dir : HeapDir} {log : Option Log} {records : List Record} {pages : PageId → Option Page}
  {s s' : HeapPageStore crc32} {id : PageId} {page : Page}

/-- `open` finds the pages of the directory, whatever a crash left behind them. -/
theorem openStore_holding (h : Holding crc32 dir log records pages) :
    ∃ s, openStore crc32 dir = .ok s ∧ s.Rep records pages ∧
      s.nextPageId = nextPageIdOf records ∧ s.locationLog.nextSeq = nextSeqOf records ∧
      s.dir.heap = dir.heap.take (wholeLen dir.heap) := by
  obtain ⟨locationLog, torn, logDir, hopen, hheld, hseq⟩ := h.held.opens defaultSegmentMaxBytes
  have hlen : (dir.heap.take (wholeLen dir.heap)).length = wholeLen dir.heap := by
    rw [List.length_take, min_eq_left (wholeLen_le _)]
  have hheap : (if dir.heap.length % pageSize = 0 then dir.heap
      else setLen dir.heap (wholeLen dir.heap)) = dir.heap.take (wholeLen dir.heap) := by
    by_cases ht : dir.heap.length % pageSize = 0
    · rw [if_pos ht, wholeLen, ht, Nat.sub_zero, List.take_length]
    · rw [if_neg ht, setLen_of_le (wholeLen_le _)]
  refine ⟨⟨⟨dir.heap.take (wholeLen dir.heap), logDir⟩, wholeLen dir.heap, locationLog,
    locate records .empty, nextPageIdOf records⟩, ?_,
    ⟨h.change hheld (fun _ _ hat => hat.cut), rfl, hlen, ?_⟩, rfl, hseq, rfl⟩
  · rw [openStore, Log.openDefault, hopen]
    simp only [replayLocations_eq h.shaped, Outcome.ok_bind]
    rw [← nextPageIdOf, if_neg (not_le.mpr (nextPageIdOf_lt h.shaped)), ← wholeLen, hheap]
  · exact Nat.mod_eq_zero_of_dvd (Nat.dvd_sub_mod _)

theorem Rep.readPage (h : s.Rep records pages) (id : PageId) :
    s.readPage id = .ok ((pages id).map (Page.encoded crc32)) := by
  have hid := h.holding.located id
  rw [← h.locations] at hid
  rw [HeapPageStore.readPage]
  cases hget : s.locations.get? id with
  | none =>
      rw [hget] at hid
      cases hp : pages id with
      | none => rfl
      | some p => rw [hp] at hid; cases hid
  | some offset =>
      rw [hget] at hid
      cases hp : pages id with
      | none => rw [hp] at hid; cases hid
      | some p =>
          rw [hp] at hid
          cases hid with
          | some hat =>
              have hin := hat.inside.trans (wholeLen_le _)
              simp only [if_neg (not_lt.mpr hin), hat.bytes, Page.decode_encode hat.sound,
                Option.map_some]

theorem Rep.heap (h : s.Rep records pages) (bytes : Bytes) :
    writeAt s.dir.heap s.heapLen bytes = s.dir.heap ++ bytes := by
  rw [← h.heapLen, writeAt_end]

theorem Rep.appended (h : s.Rep records pages) (hpage : page.Sound) :
    At crc32 (s.dir.heap ++ page.encode crc32) s.heapLen page := by
  have hlen := Page.length_encode hpage.size crc32
  refine ⟨hpage, ?_, ?_⟩
  · rw [HeapPageStore.wholeLen, List.length_append, hlen, h.heapLen, Nat.add_mod_right, h.aligned,
      Nat.sub_zero]
  · rw [← h.heapLen, ← hlen]
    exact readAt_append_right _ _

theorem leBytes_fits (id offset : Nat) :
    (LogOp.put (leBytes 8 id) (encodeLocation offset)).Fits := by
  rw [LogOp.Fits, encodeLocation, length_leBytes, length_leBytes]
  decide

/-- `write_page` succeeds unless one of the counters is at its end. -/
theorem Rep.writePage (h : s.Rep records pages) (hpage : page.Sound) (hid : id + 1 < 2 ^ 64)
    (hlen : s.heapLen + pageSize < 2 ^ 64) (hseq : s.locationLog.nextSeq + 1 < 2 ^ 64) :
    Proc.Returns (HeapPageStore.writePage id page) s (fun _ s' =>
      s'.Rep (records ++ [.put s.locationLog.nextSeq (leBytes 8 id) (encodeLocation s.heapLen)])
        (Function.update pages id (some page)) ∧
      s'.nextPageId = s.nextPageId ∧ s'.heapLen = s.heapLen + pageSize ∧
      s'.locationLog.nextSeq = s.locationLog.nextSeq + 1 ∧
      s'.dir.heap = s.dir.heap ++ page.encode crc32) := by
  obtain ⟨log', logDir, happend, hheld, hseq'⟩ :=
    h.holding.held.appendPut (leBytes_fits id s.heapLen) hseq
  have hlength : (s.dir.heap ++ page.encode crc32).length = s.heapLen + pageSize := by
    rw [List.length_append, Page.length_encode hpage.size, h.heapLen]
  refine ⟨(), ⟨⟨s.dir.heap ++ page.encode crc32, logDir⟩, s.heapLen + pageSize, log',
    s.locations.insert id s.heapLen, s.nextPageId⟩, ?_, ⟨?_, ?_, hlength, ?_⟩, rfl, rfl, hseq', rfl⟩
  · rw [HeapPageStore.writePage, if_neg (not_le.mpr hlen)]
    simp only [happend, h.heap]
  · exact h.holding.add hheld hid (by omega) (fun _ _ hat => hat.append _) (h.appended hpage)
  · have hkey : ofLeBytes (leBytes 8 id) = id := ofLeBytes_leBytes (Nat.lt_of_succ_lt hid)
    have hvalue : ofLeBytes (encodeLocation s.heapLen) = s.heapLen :=
      ofLeBytes_leBytes (w := 8) (by omega)
    rw [locate_snoc, Record.put, hkey, hvalue, ← h.locations]
  · rw [Nat.add_mod_right]
    exact h.aligned

theorem writePage_ok (h : HeapPageStore.writePage id page s = (.ok (), s')) :
    s.heapLen + pageSize < 2 ^ 64 ∧ s.locationLog.nextSeq + 1 < 2 ^ 64 := by
  rw [HeapPageStore.writePage] at h
  split at h
  · cases h
  · rename_i hlen
    refine ⟨not_le.mp hlen, ?_⟩
    split at h
    · rename_i happend
      have hbatch := Log.append_exec crc32 .done s.dir.locations s.locationLog
        (.put (leBytes 8 id) (encodeLocation s.heapLen))
      rw [show s.locationLog.append crc32 .done s.dir.locations
        (LogOp.record s.locationLog.nextSeq (.put (leBytes 8 id) (encodeLocation s.heapLen))) = _
        from happend] at hbatch
      exact (Log.appendBatch_ok hbatch.symm).2
    · cases h
    · cases h

/-- A crash inside `write_page` leaves the old pages or the new one too. -/
theorem Rep.crashed (h : s.Rep records pages) (hpage : page.Sound) (hid : id + 1 < 2 ^ 64)
    {cut : HeapCut} (hlen : (∃ c, cut = .inLog c) → s.heapLen + pageSize < 2 ^ 64) :
    Holding crc32 (s.crashDir id page cut) none records pages ∨
      ∃ r, Holding crc32 (s.crashDir id page cut) none (records ++ [r])
        (Function.update pages id (some page)) := by
  cases cut with
  | inHeap written =>
      left
      refine h.holding.change h.holding.held.rest (fun _ _ hat => ?_)
      simp only [crashDir, h.heap]
      exact hat.append _
  | inLog c =>
      have hfits : ∀ op ∈ (Call.put (leBytes 8 id) (encodeLocation s.heapLen)).ops, op.Fits := by
        simpa [Call.ops] using leBytes_fits id s.heapLen
      obtain ⟨m, hheld⟩ := h.holding.held.crashed hfits c
      cases m with
      | zero =>
          left
          rw [List.take_zero, List.append_nil] at hheld
          refine h.holding.change hheld (fun _ _ hat => ?_)
          simp only [crashDir, h.heap]
          exact hat.append _
      | succ m =>
          right
          have hrecords : (Log.numberRecords s.locationLog.nextSeq
              (Call.put (leBytes 8 id) (encodeLocation s.heapLen)).ops).take (m + 1) =
              [.put s.locationLog.nextSeq (leBytes 8 id) (encodeLocation s.heapLen)] := by
            simp [Log.numberRecords, Call.ops, LogOp.record]
          rw [hrecords] at hheld
          have hroom := hlen ⟨c, rfl⟩
          refine ⟨_, h.holding.add hheld hid (by omega) (fun _ _ hat => ?_) ?_⟩
          · simp only [crashDir, h.heap]
            exact hat.append _
          · simp only [crashDir, h.heap]
            exact h.appended hpage

theorem writePage_panic (id : PageId) (page : Page)
    (h : ¬ (s.heapLen + pageSize < 2 ^ 64 ∧ s.locationLog.nextSeq + 1 < 2 ^ 64)) :
    ∃ s', HeapPageStore.writePage id page s = (.panic, s') := by
  rw [HeapPageStore.writePage]
  split
  · exact ⟨_, rfl⟩
  · rename_i hlen
    have hseq : 2 ^ 64 ≤ s.locationLog.nextSeq + 1 :=
      not_lt.mp (fun hlt => h ⟨not_le.mp hlen, hlt⟩)
    simp only [appendPut_panic hseq]
    exact ⟨_, rfl⟩

theorem Rep.isSome_iff (h : s.Rep records pages) (id : PageId) :
    (pages id).isSome ↔ ∃ r ∈ records, ofLeBytes r.key = id := by
  refine ⟨h.holding.stored, ?_⟩
  rintro ⟨r, hr, rfl⟩
  have hrel := h.holding.located (ofLeBytes r.key)
  cases hp : pages (ofLeBytes r.key) with
  | some page => rfl
  | none =>
      rw [hp] at hrel
      cases hget : (locate records .empty).get? (ofLeBytes r.key) with
      | none => exact absurd hget (locate_of_mem hr)
      | some offset => rw [hget] at hrel; cases hrel

/-- When exactly the pages below an id are stored, the next open continues there. -/
theorem Rep.nextPageIdOf (h : s.Rep records pages) {next : PageId} (hpos : 0 < next)
    (hfull : ∀ i, (pages i).isSome ↔ i < next) : nextPageIdOf records = next := by
  refine le_antisymm ?_ ?_
  · rw [HeapPageStore.nextPageIdOf]
    cases hm : maxPageId records none with
    | none => exact hpos
    | some m =>
        rcases (maxPageId_spec records none).2 m hm with hnone | hr
        · cases hnone
        · exact (hfull m).mp ((h.isSome_iff m).mpr hr)
  · obtain ⟨last, rfl⟩ := Nat.exists_eq_add_of_lt hpos
    obtain ⟨r, hr, hkey⟩ := (h.isSome_iff _).mp ((hfull _).mpr (Nat.lt_succ_self (0 + last)))
    have hlt := lt_nextPageIdOf hr
    rw [hkey] at hlt
    exact hlt

end Calls

section Numbered
variable {O : Type} {Shows : Page → O → Prop} {s : HeapPageStore crc32} {view : PageId → Option O}
  {next room : Nat}

/-- The store holds pages that are read as these contents, and has room for a number of
writes before one of its counters ends. -/
structure Kept (Shows : Page → O → Prop) (s : HeapPageStore crc32) (view : PageId → Option O)
    (next room : Nat) : Prop where
  held : ∃ records pages, s.Rep records pages ∧ ∀ id, Option.Rel Shows (pages id) (view id)
  nextId : s.nextPageId = next
  limit : next < 2 ^ 64
  counters : room = 0 ∨
    s.heapLen + pageSize * room < 2 ^ 64 ∧ s.locationLog.nextSeq + room < 2 ^ 64

theorem Kept.weaken {room' : Nat} (h : Kept Shows s view next room) (hle : room' ≤ room) :
    Kept Shows s view next room' := by
  refine ⟨h.held, h.nextId, h.limit, ?_⟩
  rcases h.counters with hzero | ⟨hheap, hlog⟩
  · exact .inl (Nat.le_zero.mp (hle.trans hzero.le))
  · have hmul := Nat.mul_le_mul_left pageSize hle
    exact .inr ⟨by omega, by omega⟩

attribute [local irreducible] pageSize in
theorem Kept.write (h : Kept Shows s view next room) (hsound : ∀ {p o}, Shows p o → p.Sound)
    {id : PageId} {page : Page} {o : O} (hshow : Shows page o) (hid : id + 1 < 2 ^ 64) :
    Proc.Ends (HeapPageStore.writePage id page) s
      (fun _ s' => Kept Shows s' (Function.update view id (some o)) next (room - 1))
      (fun _ => False) (room = 0) := by
  obtain ⟨records, pages, hrep, hrel⟩ := h.held
  by_cases hcounters : s.heapLen + pageSize < 2 ^ 64 ∧ s.locationLog.nextSeq + 1 < 2 ^ 64
  · refine (Proc.Returns.mono (hrep.writePage (hsound hshow) hid hcounters.1 hcounters.2) ?_).ends _ _
    rintro _ s' ⟨hrep', hnext, hlen, hseq, -⟩
    refine ⟨⟨_, _, hrep', fun i => ?_⟩, hnext.trans h.nextId, h.limit, ?_⟩
    · by_cases hi : i = id
      · subst hi
        simpa using Option.Rel.some hshow
      · rw [Function.update_of_ne hi, Function.update_of_ne hi]
        exact hrel i
    · rcases h.counters with rfl | ⟨hheap, hlog⟩
      · exact .inl rfl
      · cases room with
        | zero => exact .inl rfl
        | succ room =>
            rw [Nat.mul_succ] at hheap
            exact .inr ⟨by rw [hlen, Nat.add_sub_cancel]; omega, by omega⟩
  · obtain ⟨s', hpanic⟩ := writePage_panic id page hcounters
    rw [Proc.Ends, hpanic]
    rcases h.counters with hzero | ⟨hheap, hlog⟩
    · exact hzero
    · cases room with
      | zero => rfl
      | succ room =>
          rw [Nat.mul_succ] at hheap
          exact absurd ⟨by omega, by omega⟩ hcounters

theorem Kept.read (h : Kept Shows s view next room)
    (henc : ∀ {p o}, Shows p o → Shows (p.encoded crc32) o) {d : O}
    (hnew : Shows (Page.new .data) d) (id : PageId) : ∃ page, s.readPage id = .ok page ∧
      Shows (page.getD (Page.new .data)) ((view id).getD d) := by
  obtain ⟨records, pages, hrep, hrel⟩ := h.held
  refine ⟨_, hrep.readPage id, ?_⟩
  have hid := hrel id
  cases hp : pages id with
  | none =>
      rw [hp] at hid
      cases hv : view id with
      | none => exact hnew
      | some o => rw [hv] at hid; cases hid
  | some page =>
      rw [hp] at hid
      cases hv : view id with
      | none => rw [hv] at hid; cases hid
      | some o =>
          rw [hv] at hid
          cases hid with
          | some hshow => exact henc hshow

theorem Kept.allocate (h : Kept Shows s view next room) :
    Proc.Ends HeapPageStore.allocatePageId s
      (fun id s' => id = next ∧ next + 1 < 2 ^ 64 ∧ Kept Shows s' view (next + 1) room)
      (fun _ => False) (2 ^ 64 ≤ next + 1) := by
  obtain ⟨records, pages, hrep, hrel⟩ := h.held
  rw [Proc.Ends, HeapPageStore.allocatePageId]
  by_cases hlt : s.nextPageId + 1 < 2 ^ 64
  · rw [if_pos hlt]
    rw [h.nextId] at hlt ⊢
    exact ⟨rfl, hlt, ⟨records, pages, ⟨hrep.holding, hrep.locations, hrep.heapLen, hrep.aligned⟩,
      hrel⟩, rfl, hlt, h.counters⟩
  · rw [if_neg hlt]
    rw [h.nextId] at hlt
    exact not_lt.mp hlt

attribute [local irreducible] pageSize in
/-- The heap page store as a map of contents. -/
def numbered (crc32 : Checksum) (Shows : Page → O → Prop) (blank : PageType → O)
    (hnew : ∀ t, Shows (Page.new t) (blank t)) (hsound : ∀ {p o}, Shows p o → p.Sound)
    (henc : ∀ {p o}, Shows p o → Shows (p.encoded crc32) o) :
    NumberedStore (HeapPageStore crc32) O where
  Shows := Shows
  blank := blank
  Writable id := id + 1 < 2 ^ 64
  Rep s view b := Kept Shows s view b.1 b.2
  shows_new := hnew
  writable h _ hid := (Nat.succ_le_of_lt hid).trans_lt h.limit
  weaken hle h := h.weaken hle
  read h id _ := h.read henc (hnew .data) id
  write h _ _ _ hshow hid := h.write hsound hshow hid
  allocate h := h.allocate

/-- A store that was dropped opens with the same pages, and goes on where it was with its
ids. -/
theorem Kept.reopen (h : Kept Shows s view next room) (hpos : 0 < next)
    (hfull : ∀ i, (view i).isSome ↔ i < next) :
    ∃ s', openStore crc32 s.dir = .ok s' ∧ Kept Shows s' view next 0 := by
  obtain ⟨records, pages, hrep, hrel⟩ := h.held
  obtain ⟨s', hopen, hrep', hnext, -⟩ := openStore_holding hrep.holding
  refine ⟨s', hopen, ⟨records, pages, hrep', hrel⟩, ?_, h.limit, .inl rfl⟩
  rw [hnext]
  exact hrep.nextPageIdOf hpos (fun i => (SortedMap.rel_isSome (hrel i)).trans (hfull i))

theorem kept_unwritten {crc32 : Checksum} (Shows : Page → O → Prop) {dir : HeapDir}
    (hempty : dir.heap = []) {log : Option Log} (hlog : Holds crc32 dir.locations log []) :
    ∃ s, openStore crc32 dir = .ok s ∧ ∀ room, pageSize * room < 2 ^ 64 →
      Kept Shows s (fun _ => none) 1 room := by
  have hholding : Holding crc32 dir log [] (fun _ => none) :=
    (holding_empty crc32).change hlog (fun _ _ hat => by rw [hempty]; exact hat)
  obtain ⟨s, hopen, hrep, hnext, hseq, hheap⟩ := openStore_holding hholding
  have hlen : s.heapLen = 0 := by
    rw [← hrep.heapLen, hheap, hempty]
    rfl
  refine ⟨s, hopen, fun room hroom => ⟨⟨[], _, hrep, fun _ => .none⟩, hnext,
    Nat.one_lt_two_pow (by decide), .inr ⟨?_, ?_⟩⟩⟩
  · rw [hlen, Nat.zero_add]
    exact hroom
  · rw [hseq, show nextSeqOf [] = 0 from rfl, Nat.zero_add]
    exact (Nat.le_mul_of_pos_left room (by decide)).trans_lt hroom

theorem kept_fresh (crc32 : Checksum) (Shows : Page → O → Prop) :
    ∃ s, openStore crc32 ⟨[], .empty⟩ = .ok s ∧ ∀ room, pageSize * room < 2 ^ 64 →
      Kept Shows s (fun _ => none) 1 room := kept_unwritten Shows rfl .fresh

end Numbered
end HeapPageStore
end Sietch
