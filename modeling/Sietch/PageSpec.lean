import Sietch.Page

/-! What a slotted page stands for: the list of records inserted so far, each live or
deleted. Every operation of the page is specified on that list. -/
namespace Sietch
open ByteString

section U16
variable {b d : Bytes} {i j v n : Nat}

theorem size_writeAt (hb : b.length = pageSize) (h : i + d.length ≤ pageSize) :
    (writeAt b i d).length = pageSize := by
  rw [length_writeAt (by rw [hb]; exact h), hb]

theorem size_writeU16 (hb : b.length = pageSize) (h : i + 2 ≤ pageSize) (v : Nat) :
    (writeU16 b i v).length = pageSize := size_writeAt hb (by rw [length_leBytes]; exact h)

theorem readU16_writeU16 (hb : b.length = pageSize) (h : i + 2 ≤ pageSize) (hv : v < 2 ^ 16) :
    readU16 (writeU16 b i v) i = v := by
  have hfit : i + (leBytes 2 v).length ≤ b.length := by
    rw [length_leBytes, hb]
    exact h
  have hsame := readAt_writeAt_same hfit
  rw [length_leBytes] at hsame
  rw [readU16, writeU16, hsame, ofLeBytes_leBytes hv]

theorem readAt_writeAt_off (hb : b.length = pageSize) (h : i + d.length ≤ pageSize)
    (hd : j + n ≤ i ∨ i + d.length ≤ j) :
    readAt (writeAt b i d) j n = readAt b j n :=
  readAt_writeAt_disjoint (by rw [hb]; exact h) hd

theorem readAt_writeU16_off (hb : b.length = pageSize) (h : i + 2 ≤ pageSize)
    (hd : j + n ≤ i ∨ i + 2 ≤ j) :
    readAt (writeU16 b i v) j n = readAt b j n :=
  readAt_writeAt_off hb (by rw [length_leBytes]; exact h) (by rw [length_leBytes]; exact hd)

theorem readU16_writeAt_off (hb : b.length = pageSize) (h : i + d.length ≤ pageSize)
    (hd : j + 2 ≤ i ∨ i + d.length ≤ j) :
    readU16 (writeAt b i d) j = readU16 b j := by
  rw [readU16, readU16, readAt_writeAt_off hb h hd]

theorem readU16_writeU16_off (hb : b.length = pageSize) (h : i + 2 ≤ pageSize)
    (hd : j + 2 ≤ i ∨ i + 2 ≤ j) : readU16 (writeU16 b i v) j = readU16 b j := by
  rw [readU16, readU16, readAt_writeU16_off hb h hd]

end U16

/-- A record as it was inserted, and whether it was deleted since. -/
structure Slot where
  record : Bytes
  live : Bool

/-- The bytes that the records of the slots take. -/
def usedBytes (slots : List Slot) : Nat := (slots.map (·.record.length)).sum

/-- The records grow down from the end of the page. -/
def slotOffset (slots : List Slot) (i : Nat) : Nat := pageSize - usedBytes (slots.take (i + 1))

theorem usedBytes_append (xs ys : List Slot) :
    usedBytes (xs ++ ys) = usedBytes xs + usedBytes ys := by
  simp [usedBytes]

theorem usedBytes_take_le (slots : List Slot) (n : Nat) :
    usedBytes (slots.take n) ≤ usedBytes slots := by
  have hsplit := usedBytes_append (slots.take n) (slots.drop n)
  rw [List.take_append_drop] at hsplit
  omega

theorem usedBytes_take_succ {slots : List Slot} {i : Nat} {s : Slot} (h : slots[i]? = some s) :
    usedBytes (slots.take (i + 1)) = usedBytes (slots.take i) + s.record.length := by
  rw [List.take_add_one, h, usedBytes_append]
  simp [usedBytes]

/-- The part of the header that a page is recognised by. -/
structure Page.Sound (p : Page) : Prop where
  size : p.bytes.length = pageSize
  magic : readU16 p.bytes 0 = pageMagic
  typed : readAt p.bytes 2 1 = [p.pageType.toByte]

/-- The page holds these slots, in insertion order. -/
structure Page.Rep (p : Page) (slots : List Slot) : Prop where
  size : p.bytes.length = pageSize
  magic : readU16 p.bytes 0 = pageMagic
  typed : readAt p.bytes 2 1 = [p.pageType.toByte]
  numSlots : p.numSlots = slots.length
  freeStart : p.freeStart = pageHeaderLen + 4 * slots.length
  freeEnd : p.freeEnd = pageSize - usedBytes slots
  room : pageHeaderLen + 4 * slots.length + usedBytes slots ≤ pageSize
  slot : ∀ i s, slots[i]? = some s →
    readU16 p.bytes (Page.slotBase i) =
        (if s.live then slotOffset slots i else tombstoneOffset) ∧
      readU16 p.bytes (Page.slotBase i + 2) = s.record.length ∧
      readAt p.bytes (slotOffset slots i) s.record.length = s.record

namespace Page

theorem Rep.sound {p : Page} {slots : List Slot} (h : p.Rep slots) : p.Sound :=
  ⟨h.size, h.magic, h.typed⟩

/-- Writing the header fields of a page. -/
theorem header_rep {b : Bytes} (hb : b.length = pageSize) (pageType : PageType) :
    Rep ⟨pageType, writeU16 (writeU16 (writeU16 (writeAt (writeAt b 0 (leBytes 2 pageMagic)) 2
      [pageType.toByte]) 8 0) 10 pageHeaderLen) 12 pageSize⟩ [] := by
  have hsize : pageSize = 4096 := rfl
  have hmagic : (leBytes 2 pageMagic).length = 2 := length_leBytes 2 pageMagic
  have htype : [pageType.toByte].length = 1 := rfl
  have h1 := size_writeAt (i := 0) (d := leBytes 2 pageMagic) hb (by omega)
  have h2 := size_writeAt (i := 2) (d := [pageType.toByte]) h1 (by omega)
  have h3 := size_writeU16 (i := 8) h2 (by omega) 0
  have h4 := size_writeU16 (i := 10) h3 (by omega) pageHeaderLen
  have h5 := size_writeU16 (i := 12) h4 (by omega) pageSize
  refine ⟨h5, ?_, ?_, ?_, ?_, ?_, by decide, by simp⟩
  · simp only
    rw [readU16_writeU16_off h4 (by omega) (by omega), readU16_writeU16_off h3 (by omega) (by omega),
      readU16_writeU16_off h2 (by omega) (by omega), readU16_writeAt_off h1 (by omega) (by omega)]
    exact readU16_writeU16 hb (by omega) (by decide)
  · simp only
    rw [readAt_writeU16_off h4 (by omega) (by omega), readAt_writeU16_off h3 (by omega) (by omega),
      readAt_writeU16_off h2 (by omega) (by omega)]
    exact readAt_writeAt_same (by rw [h1]; omega)
  · simp only [numSlots]
    rw [readU16_writeU16_off h4 (by omega) (by omega), readU16_writeU16_off h3 (by omega) (by omega),
      readU16_writeU16 h2 (by omega) (by decide)]
    rfl
  · simp only [freeStart]
    rw [readU16_writeU16_off h4 (by omega) (by omega), readU16_writeU16 h3 (by omega) (by decide)]
    rfl
  · simp only [freeEnd]
    rw [readU16_writeU16 h4 (by omega) (by decide)]
    rfl

theorem new_rep (pageType : PageType) : (Page.new pageType).Rep [] :=
  header_rep List.length_replicate pageType

section Inserted
variable {b record : Bytes} {k start : Nat}

/-- The bytes of a page after an insert at slot `k` with its record from `start` on. -/
def inserted (b : Bytes) (k start : Nat) (record : Bytes) : Bytes :=
  writeU16 (writeU16 (writeU16 (setSlot (writeAt b start record) k start record.length)
    8 (k + 1)) 10 (pageHeaderLen + 4 * (k + 1))) 12 start

theorem size_setSlot (hb : b.length = pageSize) (h : 16 + 4 * (k + 1) ≤ pageSize)
    (offset len : Nat) : (setSlot b k offset len).length = pageSize := by
  have hbase : slotBase k = 16 + k * 4 := rfl
  exact size_writeU16 (size_writeU16 hb (by omega) offset) (by omega) len

theorem readAt_setSlot_off {j n : Nat} (hb : b.length = pageSize)
    (h : 16 + 4 * (k + 1) ≤ pageSize) (hd : j + n ≤ 16 + 4 * k ∨ 16 + 4 * (k + 1) ≤ j)
    (offset len : Nat) : readAt (setSlot b k offset len) j n = readAt b j n := by
  have hbase : slotBase k = 16 + k * 4 := rfl
  have hb1 := size_writeU16 (i := slotBase k) hb (by omega) offset
  rw [setSlot, readAt_writeU16_off hb1 (by omega) (by omega),
    readAt_writeU16_off hb (by omega) (by omega)]

theorem readU16_setSlot {offset len : Nat} (hb : b.length = pageSize)
    (h : 16 + 4 * (k + 1) ≤ pageSize) (ho : offset < 2 ^ 16) (hl : len < 2 ^ 16) :
    readU16 (setSlot b k offset len) (slotBase k) = offset ∧
      readU16 (setSlot b k offset len) (slotBase k + 2) = len := by
  have hbase : slotBase k = 16 + k * 4 := rfl
  have hb1 := size_writeU16 (i := slotBase k) hb (by omega) offset
  rw [setSlot, readU16_writeU16_off hb1 (by omega) (by omega)]
  exact ⟨readU16_writeU16 hb (by omega) ho, readU16_writeU16 hb1 (by omega) hl⟩

variable (hb : b.length = pageSize) (hk : 16 + 4 * (k + 1) ≤ start)
  (hs : start + record.length ≤ pageSize)
include hb hk hs

theorem size_inserted : (inserted b k start record).length = pageSize := by
  have hsize : pageSize = 4096 := rfl
  have h1 := size_writeAt hb hs
  have h2 := size_setSlot (k := k) h1 (by omega) start record.length
  have h3 := size_writeU16 (i := 8) h2 (by omega) (k + 1)
  have h4 := size_writeU16 (i := 10) h3 (by omega) (pageHeaderLen + 4 * (k + 1))
  exact size_writeU16 h4 (by omega) start

/-- The counters of the header. -/
theorem inserted_header :
    readU16 (inserted b k start record) 8 = k + 1 ∧
      readU16 (inserted b k start record) 10 = pageHeaderLen + 4 * (k + 1) ∧
      readU16 (inserted b k start record) 12 = start := by
  have hsize : pageSize = 4096 := rfl
  have hheader : pageHeaderLen = 16 := rfl
  have h1 := size_writeAt hb hs
  have h2 := size_setSlot (k := k) h1 (by omega) start record.length
  have h3 := size_writeU16 (i := 8) h2 (by omega) (k + 1)
  have h4 := size_writeU16 (i := 10) h3 (by omega) (pageHeaderLen + 4 * (k + 1))
  refine ⟨?_, ?_, ?_⟩
  · rw [inserted, readU16_writeU16_off h4 (by omega) (by omega),
      readU16_writeU16_off h3 (by omega) (by omega)]
    exact readU16_writeU16 h2 (by omega) (by omega)
  · rw [inserted, readU16_writeU16_off h4 (by omega) (by omega)]
    exact readU16_writeU16 h3 (by omega) (by omega)
  · exact readU16_writeU16 h4 (by omega) (by omega)

/-- Past the counters an insert is the write of the record and of its slot. -/
theorem readAt_inserted {j n : Nat} (hj : j + n ≤ 8 ∨ 14 ≤ j) :
    readAt (inserted b k start record) j n =
      readAt (setSlot (writeAt b start record) k start record.length) j n := by
  have hsize : pageSize = 4096 := rfl
  have h1 := size_writeAt hb hs
  have h2 := size_setSlot (k := k) h1 (by omega) start record.length
  have h3 := size_writeU16 (i := 8) h2 (by omega) (k + 1)
  have h4 := size_writeU16 (i := 10) h3 (by omega) (pageHeaderLen + 4 * (k + 1))
  rw [inserted, readAt_writeU16_off h4 (by omega) (by omega),
    readAt_writeU16_off h3 (by omega) (by omega), readAt_writeU16_off h2 (by omega) (by omega)]

/-- What an insert leaves alone. -/
theorem readAt_inserted_off {j n : Nat} (hj : j + n ≤ 8 ∨ 14 ≤ j)
    (hslot : j + n ≤ 16 + 4 * k ∨ 16 + 4 * (k + 1) ≤ j)
    (hrec : j + n ≤ start ∨ start + record.length ≤ j) :
    readAt (inserted b k start record) j n = readAt b j n := by
  rw [readAt_inserted hb hk hs hj,
    readAt_setSlot_off (size_writeAt hb hs) (by omega) hslot, readAt_writeAt_off hb hs hrec]

/-- The new slot and its record. -/
theorem inserted_slot :
    readU16 (inserted b k start record) (slotBase k) = start ∧
      readU16 (inserted b k start record) (slotBase k + 2) = record.length ∧
      readAt (inserted b k start record) start record.length = record := by
  have hsize : pageSize = 4096 := rfl
  have hbase : slotBase k = 16 + k * 4 := rfl
  have h1 := size_writeAt hb hs
  have hslot : readU16 (setSlot (writeAt b start record) k start record.length) (slotBase k) =
        start ∧
      readU16 (setSlot (writeAt b start record) k start record.length) (slotBase k + 2) =
        record.length := readU16_setSlot h1 (by omega) (by omega) (by omega)
  refine ⟨?_, ?_, ?_⟩
  · rw [readU16, readAt_inserted hb hk hs (by omega)]
    exact hslot.1
  · rw [readU16, readAt_inserted hb hk hs (by omega)]
    exact hslot.2
  · rw [readAt_inserted hb hk hs (by omega), readAt_setSlot_off h1 (by omega) (by omega)]
    exact readAt_writeAt_same (by rw [hb]; exact hs)

end Inserted

section Fields
variable {p : Page} {slots : List Slot} {record : Bytes}

theorem freeSpace_eq (h : p.Rep slots) :
    p.freeSpace = .ok (pageSize - usedBytes slots - (pageHeaderLen + 4 * slots.length)) := by
  have hroom := h.room
  rw [freeSpace, h.freeStart, h.freeEnd, if_pos (by omega)]

variable {start : Nat} (h : p.Rep slots) (hk : 16 + 4 * (slots.length + 1) ≤ start)
  (hs : start + record.length ≤ pageSize)
include h hk hs

/-- The slot count is read after the record was written. -/
theorem numSlots_written :
    numSlots ⟨p.pageType, writeAt p.bytes start record⟩ = slots.length := by
  rw [← h.numSlots, numSlots, numSlots, readU16_writeAt_off h.size hs (by omega)]

/-- The start of the free space is read after the slot and the slot count were written. -/
theorem freeStart_written (v : Nat) :
    freeStart ⟨p.pageType, writeU16 (setSlot (writeAt p.bytes start record) slots.length start
      record.length) 8 v⟩ = pageHeaderLen + 4 * slots.length := by
  have hsize : pageSize = 4096 := rfl
  have hb1 := size_writeAt h.size hs
  have hb2 := size_setSlot (k := slots.length) hb1 (by omega) start record.length
  rw [← h.freeStart, freeStart, freeStart, readU16_writeU16_off hb2 (by omega) (by omega),
    readU16, readAt_setSlot_off hb1 (by omega) (by omega)]
  exact readU16_writeAt_off h.size hs (by omega)

end Fields

/-- The page after an insert, with the header fields that it reads. -/
theorem insert_eq {p : Page} {slots : List Slot} (h : p.Rep slots) {record : Bytes}
    (hfit : pageHeaderLen + 4 * (slots.length + 1) + usedBytes slots + record.length ≤
      pageSize) :
    p.insert record = .ok (slots.length, ⟨p.pageType, inserted p.bytes slots.length
      (pageSize - usedBytes slots - record.length) record⟩) := by
  have hsize : pageSize = 4096 := rfl
  have hheader : pageHeaderLen = 16 := rfl
  have hslot : slotLen = 4 := rfl
  have hbase : slotBase slots.length = 16 + slots.length * 4 := rfl
  have hk : 16 + 4 * (slots.length + 1) ≤ pageSize - usedBytes slots - record.length := by omega
  have hs : pageSize - usedBytes slots - record.length + record.length ≤ pageSize := by omega
  simp only [insert, freeSpace_eq h, Outcome.ok_bind, h.freeEnd, numSlots_written h hk hs,
    size_writeAt h.size hs, h.size, freeStart_written h hk hs]
  rw [if_neg (by omega), if_neg (by omega), if_neg (by omega), inserted]
  rw [show pageHeaderLen + 4 * slots.length + slotLen =
    pageHeaderLen + 4 * (slots.length + 1) by omega]

theorem insert_full {p : Page} {slots : List Slot} (h : p.Rep slots) {record : Bytes}
    (hfull : pageSize < pageHeaderLen + 4 * (slots.length + 1) + usedBytes slots +
      record.length) :
    p.insert record = .err (.full (slotLen + record.length)
      (pageSize - usedBytes slots - (pageHeaderLen + 4 * slots.length))) := by
  have hslot : slotLen = 4 := rfl
  have hroom := h.room
  simp only [insert, freeSpace_eq h, Outcome.ok_bind]
  rw [if_pos (by omega)]

theorem slotOffset_append_lt {slots : List Slot} {i : Nat} (s : Slot) (hi : i < slots.length) :
    slotOffset (slots ++ [s]) i = slotOffset slots i := by
  rw [slotOffset, slotOffset, List.take_append_of_le_length (by omega)]

theorem slotOffset_append_new (slots : List Slot) (s : Slot) :
    slotOffset (slots ++ [s]) slots.length =
      pageSize - usedBytes slots - s.record.length := by
  have hall : (slots ++ [s]).take (slots.length + 1) = slots ++ [s] := by
    apply List.take_of_length_le
    simp
  rw [slotOffset, hall, usedBytes_append]
  simp only [usedBytes, List.map_cons, List.map_nil, List.sum_cons, List.sum_nil]
  omega

/-- The records lie one below the other. -/
theorem slotOffset_disjoint {slots : List Slot} {i j : Nat} {s : Slot} (hj : slots[j]? = some s)
    (hij : i < j) (hroom : usedBytes slots ≤ pageSize) :
    slotOffset slots j + s.record.length ≤ slotOffset slots i := by
  have hle := usedBytes_take_le (slots.take j) (i + 1)
  have hall := usedBytes_take_le slots (j + 1)
  have hsucc := usedBytes_take_succ hj
  rw [List.take_take, Nat.min_eq_left (by omega)] at hle
  rw [slotOffset, slotOffset]
  omega

/-- Every record lies between the free space and the end of the page. -/
theorem slotOffset_bounds {slots : List Slot} {i : Nat} {s : Slot} (h : slots[i]? = some s)
    (hroom : usedBytes slots ≤ pageSize) :
    pageSize - usedBytes slots ≤ slotOffset slots i ∧
      slotOffset slots i + s.record.length ≤ pageSize := by
  have hle := usedBytes_take_le slots (i + 1)
  have hsucc := usedBytes_take_succ h
  rw [slotOffset]
  omega

theorem insert_ok {p : Page} {slots : List Slot} (h : p.Rep slots) {record : Bytes}
    (hfit : pageHeaderLen + 4 * (slots.length + 1) + usedBytes slots + record.length ≤
      pageSize) :
    ∃ p', p.insert record = .ok (slots.length, p') ∧ p'.pageType = p.pageType ∧
      p'.Rep (slots ++ [⟨record, true⟩]) := by
  have hsize : pageSize = 4096 := rfl
  have hheader : pageHeaderLen = 16 := rfl
  have hk : 16 + 4 * (slots.length + 1) ≤ pageSize - usedBytes slots - record.length := by omega
  have hs : pageSize - usedBytes slots - record.length + record.length ≤ pageSize := by omega
  have hlen : (slots ++ [(⟨record, true⟩ : Slot)]).length = slots.length + 1 := by simp
  have hused : usedBytes (slots ++ [⟨record, true⟩]) = usedBytes slots + record.length := by
    rw [usedBytes_append]
    simp [usedBytes]
  refine ⟨_, insert_eq h hfit, rfl, ?_⟩
  have hcounters := inserted_header h.size hk hs
  refine
    { size := size_inserted h.size hk hs
      magic := ?_, typed := ?_
      numSlots := by rw [hlen]; exact hcounters.1
      freeStart := by rw [hlen]; exact hcounters.2.1
      freeEnd := by rw [hused]; exact hcounters.2.2.trans (by omega)
      room := by rw [hlen, hused]; omega
      slot := ?_ }
  · rw [readU16, readAt_inserted_off h.size hk hs (by omega) (by omega) (by omega)]
    exact h.magic
  · rw [readAt_inserted_off h.size hk hs (by omega) (by omega) (by omega)]
    exact h.typed
  · intro i s hi
    have hbase : slotBase i = 16 + i * 4 := rfl
    rcases Nat.lt_trichotomy i slots.length with hlt | heq | hgt
    · rw [List.getElem?_append_left hlt] at hi
      obtain ⟨hoff, hl, hrec⟩ := h.slot i s hi
      have hbounds := slotOffset_bounds hi (by have := h.room; omega)
      rw [slotOffset_append_lt _ hlt, readU16, readU16,
        readAt_inserted_off h.size hk hs (by omega) (by omega) (by omega),
        readAt_inserted_off h.size hk hs (by omega) (by omega) (by omega),
        readAt_inserted_off h.size hk hs (by omega) (by omega) (by omega)]
      exact ⟨hoff, hl, hrec⟩
    · subst heq
      rw [List.getElem?_append_right le_rfl] at hi
      simp only [Nat.sub_self, List.getElem?_cons_zero, Option.some.injEq] at hi
      subst hi
      rw [slotOffset_append_new]
      exact inserted_slot h.size hk hs
    · rw [List.getElem?_eq_none (by rw [hlen]; omega)] at hi
      exact absurd hi (by simp)

theorem slotOffset_ne_tombstone {slots : List Slot} (i : Nat) :
    slotOffset slots i ≠ tombstoneOffset := by
  have hsize : pageSize = 4096 := rfl
  have htomb : tombstoneOffset = 65535 := rfl
  rw [slotOffset]
  omega

theorem slotOffsetLen_eq {p : Page} {slots : List Slot} (h : p.Rep slots) {i : Nat} {s : Slot}
    (hi : slots[i]? = some s) :
    p.slotOffsetLen i =
      .ok (if s.live then slotOffset slots i else tombstoneOffset, s.record.length) := by
  have hlt : i < slots.length := (List.getElem?_eq_some_iff.mp hi).1
  have hroom := h.room
  have hheader : pageHeaderLen = 16 := rfl
  have hslot : slotLen = 4 := rfl
  have hbase : slotBase i = 16 + i * 4 := rfl
  obtain ⟨hoff, hlen, -⟩ := h.slot i s hi
  rw [slotOffsetLen, h.size, if_pos (by omega), hoff, hlen]

theorem get_live {p : Page} {slots : List Slot} (h : p.Rep slots) {i : Nat} {record : Bytes}
    (hi : slots[i]? = some ⟨record, true⟩) : p.get i = .ok record := by
  have hlt : i < slots.length := (List.getElem?_eq_some_iff.mp hi).1
  have hbounds := slotOffset_bounds hi (by have := h.room; omega)
  simp only at hbounds
  rw [get, h.numSlots, if_neg (by omega), slotOffsetLen_eq h hi, Outcome.ok_bind]
  simp only [if_true]
  rw [if_neg (slotOffset_ne_tombstone i), h.size, if_neg (by omega), (h.slot i _ hi).2.2]

theorem get_dead {p : Page} {slots : List Slot} (h : p.Rep slots) {i : Nat}
    (hi : ∀ s, slots[i]? = some s → s.live = false) : p.get i = .err (.invalidSlot i) := by
  cases hs : slots[i]? with
  | none =>
      have hge := List.getElem?_eq_none_iff.mp hs
      rw [get, h.numSlots, if_pos hge]
  | some s =>
      have hlt : i < slots.length := (List.getElem?_eq_some_iff.mp hs).1
      rw [get, h.numSlots, if_neg (by omega), slotOffsetLen_eq h hs, Outcome.ok_bind, hi s hs]
      rfl

section Delete
variable {p : Page} {slots : List Slot} {i : Nat}

/-- The slot is no longer live; its record stays where it is. -/
def bury (slots : List Slot) (i : Nat) : List Slot :=
  slots.modify i (fun s => { s with live := false })

theorem getElem?_bury (slots : List Slot) (i j : Nat) :
    (bury slots i)[j]? = (slots[j]?).map (fun s => if i = j then { s with live := false } else s) :=
  List.getElem?_modify ..

theorem records_bury (slots : List Slot) (i : Nat) :
    (bury slots i).map (·.record) = slots.map (·.record) := by
  apply List.ext_getElem?
  intro j
  rw [List.getElem?_map, List.getElem?_map, getElem?_bury, Option.map_map]
  congr 1
  funext s
  dsimp only [Function.comp]
  split
  · rfl
  · rfl

theorem usedBytes_congr {xs ys : List Slot} (h : xs.map (·.record) = ys.map (·.record)) :
    usedBytes xs = usedBytes ys := by
  have hsum : ∀ zs : List Slot, usedBytes zs = ((zs.map (·.record)).map List.length).sum := by
    intro zs
    rw [usedBytes, List.map_map]
    rfl
  rw [hsum, hsum, h]

/-- Where the records lie depends on the records only. -/
theorem slotOffset_congr {xs ys : List Slot} (h : xs.map (·.record) = ys.map (·.record))
    (j : Nat) : slotOffset xs j = slotOffset ys j := by
  have htake : (xs.take (j + 1)).map (·.record) = (ys.take (j + 1)).map (·.record) := by
    rw [List.map_take, List.map_take, h]
  rw [slotOffset, slotOffset, usedBytes_congr htake]

theorem delete_live (h : p.Rep slots) {record : Bytes} (hi : slots[i]? = some ⟨record, true⟩) :
    p.delete i = .ok ⟨p.pageType, setSlot p.bytes i tombstoneOffset record.length⟩ := by
  have hlt : i < slots.length := (List.getElem?_eq_some_iff.mp hi).1
  rw [delete, h.numSlots, if_neg (by omega), slotOffsetLen_eq h hi, Outcome.ok_bind]
  simp only [if_true]
  rw [if_neg (slotOffset_ne_tombstone i)]

theorem delete_dead (h : p.Rep slots) (hi : ∀ s, slots[i]? = some s → s.live = false) :
    p.delete i = .err (.invalidSlot i) := by
  cases hs : slots[i]? with
  | none =>
      have hge := List.getElem?_eq_none_iff.mp hs
      rw [delete, h.numSlots, if_pos hge]
  | some s =>
      have hlt : i < slots.length := (List.getElem?_eq_some_iff.mp hs).1
      rw [delete, h.numSlots, if_neg (by omega), slotOffsetLen_eq h hs, Outcome.ok_bind, hi s hs]
      rfl

/-- Only the offset field of the slot changes. -/
theorem buried_rep (h : p.Rep slots) {record : Bytes} (hi : slots[i]? = some ⟨record, true⟩) :
    Rep ⟨p.pageType, setSlot p.bytes i tombstoneOffset record.length⟩ (bury slots i) := by
  have hsize : pageSize = 4096 := rfl
  have hheader : pageHeaderLen = 16 := rfl
  have hlt : i < slots.length := (List.getElem?_eq_some_iff.mp hi).1
  have hroom := h.room
  have hk : 16 + 4 * (i + 1) ≤ pageSize := by omega
  have hlen : (bury slots i).length = slots.length := List.length_modify ..
  have hused := usedBytes_congr (records_bury slots i)
  have hrecord : record.length < 2 ^ 16 := by
    have hbounds := slotOffset_bounds hi (by omega)
    simp only at hbounds
    omega
  have hsame : ∀ j n, j + n ≤ 16 + 4 * i ∨ 16 + 4 * (i + 1) ≤ j →
      readAt (setSlot p.bytes i tombstoneOffset record.length) j n = readAt p.bytes j n := by
    intro j n hj
    exact readAt_setSlot_off h.size hk hj _ _
  refine
    { size := size_setSlot h.size hk _ _
      magic := by rw [readU16, hsame _ _ (by omega)]; exact h.magic
      typed := by rw [hsame _ _ (by omega)]; exact h.typed
      numSlots := by rw [numSlots, readU16, hsame _ _ (by omega), hlen]; exact h.numSlots
      freeStart := by rw [freeStart, readU16, hsame _ _ (by omega), hlen]; exact h.freeStart
      freeEnd := by rw [freeEnd, readU16, hsame _ _ (by omega), hused]; exact h.freeEnd
      room := by rw [hlen, hused]; exact h.room
      slot := ?_ }
  intro j s hj
  have hbase : slotBase j = 16 + j * 4 := rfl
  rw [getElem?_bury] at hj
  obtain ⟨old, hold, rfl⟩ := Option.map_eq_some_iff.mp hj
  have hbounds := slotOffset_bounds hold (by omega)
  obtain ⟨hoff, hl, hrec⟩ := h.slot j old hold
  rw [slotOffset_congr (records_bury slots i)]
  by_cases hij : i = j
  · subst hij
    rw [hi] at hold
    cases hold
    have htomb : tombstoneOffset < 2 ^ 16 := by decide
    have hslot := readU16_setSlot h.size hk htomb hrecord
    simp only [if_true, Bool.false_eq_true, if_false] at hrec ⊢
    rw [hsame _ _ (by omega)]
    exact ⟨hslot.1, hslot.2, hrec⟩
  · simp only [if_neg hij]
    rw [readU16, readU16, hsame _ _ (by omega), hsame _ _ (by omega), hsame _ _ (by omega)]
    exact ⟨hoff, hl, hrec⟩

end Delete

theorem slotIds_eq {p : Page} {slots : List Slot} (h : p.Rep slots) :
    p.slotIds = .ok ((List.range slots.length).filter
      (fun i => (slots[i]?).any (·.live))) := by
  have hheader : pageHeaderLen = 16 := rfl
  have hslot : slotLen = 4 := rfl
  have hroom := h.room
  rw [slotIds, h.numSlots, h.size, hslot, if_pos (by omega)]
  congr 1
  apply List.filter_congr
  intro i hi
  have hlt := List.mem_range.mp hi
  have hget := List.getElem?_eq_getElem hlt
  rw [hget, (h.slot i _ hget).1]
  cases hlive : slots[i].live with
  | false => simp [hlive]
  | true => simp [hlive, slotOffset_ne_tombstone i]

theorem fromByte_toByte (t : PageType) : PageType.fromByte t.toByte = some t := by
  cases t <;> rfl

/-- The page with its checksum filled in. -/
def encoded (crc32 : Checksum) (p : Page) : Page := ⟨p.pageType, p.encode crc32⟩

/-- `encode` changes the checksum field only. -/
theorem readAt_encode {p : Page} (hp : p.bytes.length = pageSize) (crc32 : Checksum) {j n : Nat}
    (hj : j + n ≤ 4 ∨ 8 ≤ j) : readAt (p.encode crc32) j n = readAt p.bytes j n := by
  have hsize : pageSize = 4096 := rfl
  have hfield := length_leBytes 4 (computeChecksum crc32 p.bytes)
  exact readAt_writeAt_off hp (by omega) (by omega)

theorem length_encode {p : Page} (hp : p.bytes.length = pageSize) (crc32 : Checksum) :
    (p.encode crc32).length = pageSize := by
  have hsize : pageSize = 4096 := rfl
  exact size_writeAt hp (by rw [length_leBytes]; omega)

theorem Sound.encoded {p : Page} (h : p.Sound) (crc32 : Checksum) : (p.encoded crc32).Sound where
  size := length_encode h.size crc32
  magic := by
    simp only [Page.encoded]
    rw [readU16, readAt_encode h.size crc32 (by omega)]
    exact h.magic
  typed := by
    simp only [Page.encoded]
    rw [readAt_encode h.size crc32 (by omega)]
    exact h.typed

/-- Only the checksum field changes, which no operation reads. -/
theorem encode_rep {p : Page} {slots : List Slot} (h : p.Rep slots) (crc32 : Checksum) :
    (p.encoded crc32).Rep slots := by
  have hsize : pageSize = 4096 := rfl
  have hsame : ∀ j n, j + n ≤ 4 ∨ 8 ≤ j →
      readAt (p.encoded crc32).bytes j n = readAt p.bytes j n :=
    fun j n hj => readAt_encode h.size crc32 hj
  refine
    { size := (h.sound.encoded crc32).size
      magic := (h.sound.encoded crc32).magic
      typed := (h.sound.encoded crc32).typed
      numSlots := by rw [numSlots, readU16, hsame _ _ (by omega)]; exact h.numSlots
      freeStart := by rw [freeStart, readU16, hsame _ _ (by omega)]; exact h.freeStart
      freeEnd := by rw [freeEnd, readU16, hsame _ _ (by omega)]; exact h.freeEnd
      room := h.room
      slot := ?_ }
  intro i s hi
  have hbase : slotBase i = 16 + i * 4 := rfl
  have hheader : pageHeaderLen = 16 := rfl
  have hbounds := slotOffset_bounds hi (by have := h.room; omega)
  have hroom := h.room
  rw [readU16, readU16, hsame _ _ (by omega), hsame _ _ (by omega), hsame _ _ (by omega)]
  exact h.slot i s hi

theorem computeChecksum_encode {p : Page} (hp : p.bytes.length = pageSize)
    (crc32 : Checksum) :
    computeChecksum crc32 (p.encode crc32) = computeChecksum crc32 p.bytes := by
  have hsize : pageSize = 4096 := rfl
  have hfit : 4 + (leBytes 4 (computeChecksum crc32 p.bytes)).length ≤ p.bytes.length := by
    rw [length_leBytes]
    omega
  have hlen : (p.bytes.take 4).length = 4 := by
    rw [List.length_take]
    omega
  have hpre : ((p.bytes.take 4) ++ leBytes 4 (computeChecksum crc32 p.bytes)).length = 8 := by
    rw [List.length_append, hlen, length_leBytes]
  rw [encode, computeChecksum, writeAt_inside hfit, length_leBytes, List.append_assoc,
    List.take_left' hlen, ← List.append_assoc, List.drop_left' hpre]
  rfl

/-- A page that was written out is read back with its checksum. -/
theorem decode_encode {p : Page} (h : p.Sound) (crc32 : Checksum) :
    decode crc32 (p.encode crc32) = .ok (p.encoded crc32) := by
  have henc := h.encoded crc32
  have hsize : pageSize = 4096 := rfl
  have hfield := length_leBytes 4 (computeChecksum crc32 p.bytes)
  have htype : ((p.encode crc32)[2]?).getD 0 = p.pageType.toByte := by
    have htyped := congrArg (fun b : Bytes => b[0]?) henc.typed
    simp only [getElem?_readAt, Nat.lt_one_iff, if_true, encoded] at htyped
    rw [htyped]
    rfl
  have hstored : ofLeBytes (readAt (p.encode crc32) 4 4) = computeChecksum crc32 p.bytes := by
    have hfit : 4 + (leBytes 4 (computeChecksum crc32 p.bytes)).length ≤ p.bytes.length := by
      rw [h.size]
      omega
    have hsame := readAt_writeAt_same hfit
    rw [hfield] at hsame
    rw [encode, hsame, ofLeBytes_leBytes]
    exact Fin.isLt _
  have hlen : (p.encode crc32).length = pageSize := henc.size
  have hmagic : readU16 (p.encode crc32) 0 = pageMagic := henc.magic
  rw [decode, if_neg (not_not.mpr hlen), if_neg (not_not.mpr hmagic)]
  simp only [htype, fromByte_toByte, hstored, computeChecksum_encode h.size]
  rw [if_neg (not_not.mpr rfl), encoded]

/-- What is decoded is written out as it was read. -/
theorem encode_decode {crc32 : Checksum} {b : Bytes} {p : Page} (h : decode crc32 b = .ok p) :
    p.encode crc32 = b := by
  rw [decode] at h
  split at h
  · cases h
  · rename_i hlen
    split at h
    · cases h
    · dsimp only at h
      split at h
      · cases h
      · split at h
        · cases h
        · rename_i hsum
          cases h
          have hsize : pageSize = 4096 := rfl
          have hfield : 4 + 4 ≤ b.length := by omega
          have hbytes := leBytes_ofLeBytes (readAt b 4 4)
          rw [length_readAt hfield, not_not.mp hsum] at hbytes
          rw [encode, hbytes, writeAt_readAt hfield]

end Page
end Sietch
