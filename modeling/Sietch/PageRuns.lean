import Sietch.Base.Proc
import Sietch.PageSpec

/-! Whole runs of a slotted page: any calls of `insert` and `delete` on a new page, with
what each of them returned. The calls work on the page in place, so that a call which
fails half way would leave its writes behind. -/
namespace Sietch
open ByteString

namespace Page

/-- A write into the bytes; a range past their end panics. -/
def write (i : Nat) (d : Bytes) : Proc Page PageError Unit := fun p =>
  if i + d.length ≤ p.bytes.length then (.ok (), ⟨p.pageType, writeAt p.bytes i d⟩)
  else (.panic, p)

def writeU16Mut (i v : Nat) : Proc Page PageError Unit := write i (leBytes 2 v)

/-- The sum of two `u16`, which panics when it overflows. -/
def addU16 (a b : Nat) : Proc Page PageError Nat :=
  if a + b < 2 ^ 16 then pure (a + b) else Proc.halt

def setSlotMut (slot offset len : Nat) : Proc Page PageError Unit := do
  writeU16Mut (slotBase slot) offset
  writeU16Mut (slotBase slot + 2) len

/-- `insert` on the page in place. -/
def insertMut (record : Bytes) : Proc Page PageError Nat := do
  let p ← Proc.get
  let needed := slotLen + record.length
  let free ← Proc.lift p.freeSpace
  if free < needed then Proc.fail (.full needed free)
  else
    let start := p.freeEnd - record.length
    write start record
    let slot := (← Proc.get).numSlots
    setSlotMut slot start record.length
    writeU16Mut 8 (← addU16 slot 1)
    writeU16Mut 10 (← addU16 (← Proc.get).freeStart slotLen)
    writeU16Mut 12 start
    return slot

/-- `delete` on the page in place. -/
def deleteMut (slot : Nat) : Proc Page PageError Unit := do
  let p ← Proc.get
  if p.numSlots ≤ slot then Proc.fail (.invalidSlot slot)
  else
    let (offset, len) ← Proc.lift (p.slotOffsetLen slot)
    if offset = tombstoneOffset then Proc.fail (.invalidSlot slot)
    else setSlotMut slot tombstoneOffset len

section InPlace
variable {p : Page} {slots : List Slot} {record : Bytes}

theorem write_ok {i : Nat} {d : Bytes} (h : i + d.length ≤ p.bytes.length) :
    write i d p = (.ok (), ⟨p.pageType, writeAt p.bytes i d⟩) := by
  rw [write, if_pos h]

theorem addU16_ok {a b : Nat} (h : a + b < 2 ^ 16) : addU16 a b p = (.ok (a + b), p) := by
  rw [addU16, if_pos h]
  rfl

theorem writeU16Mut_ok {i : Nat} (h : i + 2 ≤ p.bytes.length) (v : Nat) :
    writeU16Mut i v p = (.ok (), ⟨p.pageType, writeU16 p.bytes i v⟩) :=
  write_ok (by rw [length_leBytes]; exact h)

theorem setSlotMut_ok {slot : Nat} (h : slotBase slot + slotLen ≤ p.bytes.length)
    (offset len : Nat) :
    setSlotMut slot offset len p = (.ok (), ⟨p.pageType, setSlot p.bytes slot offset len⟩) := by
  have hslot : slotLen = 4 := rfl
  have hfirst : slotBase slot + 2 ≤ p.bytes.length := by omega
  have hsecond : slotBase slot + 2 + 2 ≤ (writeU16 p.bytes (slotBase slot) offset).length := by
    rw [writeU16, length_writeAt (by rw [length_leBytes]; exact hfirst)]
    omega
  rw [setSlotMut, Proc.bind_ok (writeU16Mut_ok hfirst offset), writeU16Mut_ok hsecond len]
  rfl

/-- What the two calls come to: a failed call leaves the page as it was. -/
def inPlace {α : Type} (p : Page) : Outcome PageError (α × Page) → Outcome PageError α × Page
  | .ok (a, q) => (.ok a, q)
  | .err e => (.err e, p)
  | .panic => (.panic, p)

theorem insertMut_fits (h : p.Rep slots)
    (hfit : pageHeaderLen + 4 * (slots.length + 1) + usedBytes slots + record.length ≤
      pageSize) :
    insertMut record p = (.ok slots.length, ⟨p.pageType, inserted p.bytes slots.length
      (pageSize - usedBytes slots - record.length) record⟩) := by
  have hsize : pageSize = 4096 := rfl
  have hheader : pageHeaderLen = 16 := rfl
  have hslot : slotLen = 4 := rfl
  have hbase : slotBase slots.length = 16 + slots.length * 4 := rfl
  have hfree := freeSpace_eq h
  have hend := h.freeEnd
  generalize hat : pageSize - usedBytes slots - record.length = start
  have hk : 16 + 4 * (slots.length + 1) ≤ start := by omega
  have hs : start + record.length ≤ pageSize := by omega
  have hb1 := size_writeAt h.size hs
  have hb2 := size_setSlot (k := slots.length) hb1 (by omega) start record.length
  have hb3 := size_writeU16 (i := 8) hb2 (by omega) (slots.length + 1)
  have hb4 := size_writeU16 (i := 10) hb3 (by omega) (pageHeaderLen + 4 * slots.length + slotLen)
  rw [insertMut, Proc.get_bind, Proc.lift_bind hfree, if_neg (by omega), hend, hat]
  rw [Proc.bind_ok (write_ok (by rw [h.size]; exact hs)), Proc.get_bind,
    numSlots_written h hk hs, Proc.bind_ok (setSlotMut_ok (by rw [hb1]; omega) _ _),
    Proc.bind_ok (addU16_ok (by omega)), Proc.bind_ok (writeU16Mut_ok (by rw [hb2]; omega) _),
    Proc.get_bind, freeStart_written h hk hs, Proc.bind_ok (addU16_ok (by omega)),
    Proc.bind_ok (writeU16Mut_ok (by rw [hb3]; omega) _),
    Proc.bind_ok (writeU16Mut_ok (by rw [hb4]; omega) _)]
  have hnext : pageHeaderLen + 4 * slots.length + slotLen = pageHeaderLen + 4 * (slots.length + 1) :=
    by omega
  rw [hnext]
  rfl

/-- The call in place and the function from pages to pages agree. -/
theorem insertMut_eq (h : p.Rep slots) : insertMut record p = p.inPlace (p.insert record) := by
  have hslot : slotLen = 4 := rfl
  have hroom := h.room
  by_cases hfit : pageHeaderLen + 4 * (slots.length + 1) + usedBytes slots + record.length ≤
      pageSize
  · rw [insertMut_fits h hfit, insert_eq h hfit]
    rfl
  · rw [insert_full h (by omega), insertMut, Proc.get_bind, Proc.lift_bind (freeSpace_eq h),
      if_pos (by omega)]
    rfl

theorem deleteMut_eq (p : Page) (slot : Nat) :
    deleteMut slot p = p.inPlace (p.delete slot >>= fun q => .ok ((), q)) := by
  rw [deleteMut, Proc.get_bind, delete]
  by_cases hnum : p.numSlots ≤ slot
  · rw [if_pos hnum, if_pos hnum]
    rfl
  · rw [if_neg hnum, if_neg hnum, slotOffsetLen]
    by_cases hin : slotBase slot + slotLen ≤ p.bytes.length
    · rw [if_pos hin, Proc.lift_bind rfl, Outcome.ok_bind]
      dsimp only
      split
      · rfl
      · rw [setSlotMut_ok hin]
        rfl
    · rw [if_neg hin]
      rfl

end InPlace
end Page

inductive PageCall where
  | insert (record : Bytes)
  | delete (slot : Nat)
  deriving DecidableEq, Repr

inductive PageAnswer where
  | slot (id : Nat)
  | done
  deriving DecidableEq, Repr

def PageCall.exec : PageCall → Proc Page PageError PageAnswer
  | .insert record => do
      let slot ← Page.insertMut record
      return .slot slot
  | .delete slot => do
      Page.deleteMut slot
      return .done

/-- A call and what it returned. -/
structure PageEvent where
  call : PageCall
  answer : Outcome PageError PageAnswer
  deriving DecidableEq, Repr

/-- The slot and the record of an insert that returned. -/
def PageEvent.inserted? : PageEvent → Option (Nat × Bytes)
  | ⟨.insert record, .ok (.slot slot)⟩ => some (slot, record)
  | _ => none

/-- The slot of a delete that returned. -/
def PageEvent.deleted? : PageEvent → Option Nat
  | ⟨.delete slot, .ok .done⟩ => some slot
  | _ => none

def insertedIn (history : List PageEvent) : List (Nat × Bytes) :=
  history.filterMap PageEvent.inserted?

def deletedIn (history : List PageEvent) : List Nat := history.filterMap PageEvent.deleted?

/-- A page and the calls that were made on it. -/
structure PageRun where
  page : Page
  history : List PageEvent

def PageRun.call (r : PageRun) (c : PageCall) : PageRun :=
  ⟨(c.exec r.page).2, r.history ++ [⟨c, (c.exec r.page).1⟩]⟩

/-- The calls, one after the other, on a new page. -/
def Page.run (t : PageType) (calls : List PageCall) : PageRun :=
  calls.foldl PageRun.call ⟨Page.new t, []⟩

theorem live_or_dead (slots : List Slot) (slot : Nat) :
    (∃ record, slots[slot]? = some ⟨record, true⟩) ∨
      ∀ s, slots[slot]? = some s → s.live = false := by
  by_cases hlive : ∃ record, slots[slot]? = some ⟨record, true⟩
  · exact .inl hlive
  · apply Or.inr
    intro s hs
    obtain ⟨record, live⟩ := s
    cases live with
    | false => rfl
    | true => exact absurd ⟨record, hs⟩ hlive

namespace PageCall
variable {p : Page} {slots : List Slot} {record : Bytes} {slot : Nat}

theorem exec_insert (h : p.Rep slots)
    (hfit : pageHeaderLen + 4 * (slots.length + 1) + usedBytes slots + record.length ≤
      pageSize) :
    ∃ p', (insert record).exec p = (.ok (.slot slots.length), p') ∧ p'.pageType = p.pageType ∧
      p'.Rep (slots ++ [⟨record, true⟩]) := by
  obtain ⟨p', hinsert, htype, hrep⟩ := Page.insert_ok h hfit
  have hmut : Page.insertMut record p = (.ok slots.length, p') := by
    rw [Page.insertMut_eq h, hinsert]
    rfl
  exact ⟨p', Proc.bind_ok hmut, htype, hrep⟩

theorem exec_insert_full (h : p.Rep slots)
    (hfull : pageSize < pageHeaderLen + 4 * (slots.length + 1) + usedBytes slots +
      record.length) :
    (insert record).exec p = (.err (.full (slotLen + record.length)
      (pageSize - usedBytes slots - (pageHeaderLen + 4 * slots.length))), p) := by
  apply Proc.bind_err
  rw [Page.insertMut_eq h, Page.insert_full h hfull]
  rfl

theorem exec_delete (h : p.Rep slots) (hslot : slots[slot]? = some ⟨record, true⟩) :
    ∃ p', (delete slot).exec p = (.ok .done, p') ∧ p'.pageType = p.pageType ∧
      p'.Rep (Page.bury slots slot) := by
  have hmut : Page.deleteMut slot p =
      (.ok (), ⟨p.pageType, Page.setSlot p.bytes slot tombstoneOffset record.length⟩) := by
    rw [Page.deleteMut_eq, Page.delete_live h hslot]
    rfl
  exact ⟨_, Proc.bind_ok hmut, rfl, Page.buried_rep h hslot⟩

theorem exec_delete_dead (h : p.Rep slots) (hslot : ∀ s, slots[slot]? = some s → s.live = false) :
    (delete slot).exec p = (.err (.invalidSlot slot), p) := by
  apply Proc.bind_err
  rw [Page.deleteMut_eq, Page.delete_dead h hslot]
  rfl

/-- What a call does to a page with these slots: its answer, the page and the slots after. -/
inductive Effect (p : Page) (slots : List Slot) :
    PageCall → Outcome PageError PageAnswer → Page → List Slot → Prop where
  | inserted {record : Bytes} {p' : Page} : p'.pageType = p.pageType → p'.Rep (slots ++ [⟨record, true⟩]) →
      Effect p slots (.insert record) (.ok (.slot slots.length)) p' (slots ++ [⟨record, true⟩])
  | full {record : Bytes} {free : Nat} :
      Effect p slots (.insert record) (.err (.full (slotLen + record.length) free)) p slots
  | deleted {slot : Nat} {record : Bytes} {p' : Page} : slots[slot]? = some ⟨record, true⟩ → p'.pageType = p.pageType →
      p'.Rep (Page.bury slots slot) →
      Effect p slots (.delete slot) (.ok .done) p' (Page.bury slots slot)
  | invalid {slot : Nat} : Effect p slots (.delete slot) (.err (.invalidSlot slot)) p slots

theorem exec_effect (h : p.Rep slots) (c : PageCall) :
    ∃ slots', Effect p slots c (c.exec p).1 (c.exec p).2 slots' := by
  cases c with
  | insert record =>
      by_cases hfit : pageHeaderLen + 4 * (slots.length + 1) + usedBytes slots + record.length ≤
          pageSize
      · obtain ⟨p', hexec, htype, hrep⟩ := exec_insert h hfit
        rw [hexec]
        exact ⟨_, .inserted htype hrep⟩
      · rw [exec_insert_full h (by omega)]
        exact ⟨_, .full⟩
  | delete slot =>
      rcases live_or_dead slots slot with ⟨record, hslot⟩ | hdead
      · obtain ⟨p', hexec, htype, hrep⟩ := exec_delete h hslot
        rw [hexec]
        exact ⟨_, .deleted hslot htype hrep⟩
      · rw [exec_delete_dead h hdead]
        exact ⟨_, .invalid⟩

/-- A call that fails has not written to the page. -/
theorem exec_err (h : p.Rep slots) {c : PageCall} {e : PageError} (he : (c.exec p).1 = .err e) :
    (c.exec p).2 = p := by
  obtain ⟨slots', heffect⟩ := exec_effect h c
  rw [he] at heffect
  generalize (c.exec p).2 = q at heffect
  cases heffect with
  | full => rfl
  | invalid => rfl

end PageCall

/-- The slots of a run: its inserts in order, each live until it is deleted. -/
structure PageRun.Inv (t : PageType) (r : PageRun) (slots : List Slot) : Prop where
  pageType : r.page.pageType = t
  rep : r.page.Rep slots
  answers : ∀ e ∈ r.history, e.answer ≠ .panic
  inserted : insertedIn r.history = slots.mapIdx (fun i s => (i, s.record))
  live : ∀ i s, slots[i]? = some s → (s.live = true ↔ i ∉ deletedIn r.history)
  deleted : ∀ i ∈ deletedIn r.history, i < slots.length

namespace PageRun
variable {t : PageType} {r : PageRun} {slots slots' : List Slot}

theorem insertedIn_snoc (history : List PageEvent) (e : PageEvent) :
    insertedIn (history ++ [e]) = insertedIn history ++ e.inserted?.toList := by
  rw [insertedIn, List.filterMap_append]
  cases he : e.inserted? with
  | none => simp [insertedIn, he]
  | some x => simp [insertedIn, he]

theorem deletedIn_snoc (history : List PageEvent) (e : PageEvent) :
    deletedIn (history ++ [e]) = deletedIn history ++ e.deleted?.toList := by
  rw [deletedIn, List.filterMap_append]
  cases he : e.deleted? with
  | none => simp [deletedIn, he]
  | some x => simp [deletedIn, he]

theorem inv_new (t : PageType) : Inv t ⟨Page.new t, []⟩ [] where
  pageType := rfl
  rep := Page.new_rep t
  answers := by simp
  inserted := rfl
  live := by simp
  deleted := by simp [deletedIn]

theorem Inv.answers_snoc (h : Inv t r slots) (c : PageCall)
    {answer : Outcome PageError PageAnswer} (hanswer : answer ≠ .panic) :
    ∀ e ∈ r.history ++ [⟨c, answer⟩], e.answer ≠ .panic := by
  intro e he
  rcases List.mem_append.mp he with hold | hnew
  · exact h.answers e hold
  · rw [List.mem_singleton.mp hnew]
    exact hanswer

/-- A failed call adds to the history only. -/
theorem Inv.failed (h : Inv t r slots) (c : PageCall) (e : PageError) :
    Inv t ⟨r.page, r.history ++ [⟨c, .err e⟩]⟩ slots := by
  have hinserted : insertedIn (r.history ++ [⟨c, .err e⟩]) = insertedIn r.history := by
    rw [insertedIn_snoc]
    cases c <;> simp [PageEvent.inserted?]
  have hdeleted : deletedIn (r.history ++ [⟨c, .err e⟩]) = deletedIn r.history := by
    rw [deletedIn_snoc]
    cases c <;> simp [PageEvent.deleted?]
  refine ⟨h.pageType, h.rep, h.answers_snoc c (by simp), ?_, ?_, ?_⟩
  · rw [hinserted]
    exact h.inserted
  · rw [hdeleted]
    exact h.live
  · rw [hdeleted]
    exact h.deleted

theorem Inv.insert (h : Inv t r slots) {record : Bytes} {p : Page}
    (htype : p.pageType = r.page.pageType) (hrep : p.Rep (slots ++ [⟨record, true⟩])) :
    Inv t ⟨p, r.history ++ [⟨.insert record, .ok (.slot slots.length)⟩]⟩
      (slots ++ [⟨record, true⟩]) := by
  have hdeleted : deletedIn (r.history ++ [⟨.insert record, .ok (.slot slots.length)⟩]) =
      deletedIn r.history := by
    rw [deletedIn_snoc]
    simp [PageEvent.deleted?]
  refine ⟨htype.trans h.pageType, hrep, h.answers_snoc _ (by simp), ?_, ?_, ?_⟩
  · rw [insertedIn_snoc, h.inserted, List.mapIdx_concat]
    rfl
  · intro i s hi
    rw [hdeleted]
    by_cases hlt : i < slots.length
    · rw [List.getElem?_append_left hlt] at hi
      exact h.live i s hi
    · rw [List.getElem?_append_right (by omega)] at hi
      -- the new slot is live, and no delete can have named it before
      have hs := List.mem_singleton.mp (List.mem_of_getElem? hi)
      rw [hs]
      exact ⟨fun _ hmem => hlt (h.deleted i hmem), fun _ => rfl⟩
  · intro i hi
    rw [hdeleted] at hi
    have hlt := h.deleted i hi
    rw [List.length_append]
    omega

theorem Inv.delete (h : Inv t r slots) {slot : Nat} {p : Page} (hslot : slot < slots.length)
    (htype : p.pageType = r.page.pageType) (hrep : p.Rep (Page.bury slots slot)) :
    Inv t ⟨p, r.history ++ [⟨.delete slot, .ok .done⟩]⟩ (Page.bury slots slot) := by
  have hdeleted : deletedIn (r.history ++ [⟨.delete slot, .ok .done⟩]) =
      deletedIn r.history ++ [slot] := by
    rw [deletedIn_snoc]
    rfl
  have hlen : (Page.bury slots slot).length = slots.length := List.length_modify ..
  refine ⟨htype.trans h.pageType, hrep, h.answers_snoc _ (by simp), ?_, ?_, ?_⟩
  · rw [insertedIn_snoc, h.inserted]
    apply List.ext_getElem?
    intro i
    simp only [PageEvent.inserted?, Option.toList_none, List.append_nil, List.getElem?_mapIdx,
      Page.getElem?_bury, Option.map_map]
    congr 1
    funext s
    dsimp only [Function.comp]
    split
    · rfl
    · rfl
  · intro i s hi
    rw [Page.getElem?_bury] at hi
    obtain ⟨old, hold, rfl⟩ := Option.map_eq_some_iff.mp hi
    rw [hdeleted, List.mem_append, List.mem_singleton, not_or]
    by_cases heq : slot = i
    · simp [heq]
    · rw [if_neg heq, h.live i old hold]
      exact ⟨fun hnot => ⟨hnot, fun hi => heq hi.symm⟩, fun hboth => hboth.1⟩
  · intro i hi
    rw [hlen]
    rw [hdeleted, List.mem_append, List.mem_singleton] at hi
    rcases hi with hold | rfl
    · exact h.deleted i hold
    · exact hslot

theorem Inv.call (h : Inv t r slots) (c : PageCall) : ∃ slots', Inv t (r.call c) slots' := by
  obtain ⟨slots', heffect⟩ := PageCall.exec_effect h.rep c
  rw [PageRun.call]
  generalize (c.exec r.page).1 = answer at heffect ⊢
  generalize (c.exec r.page).2 = p at heffect ⊢
  cases heffect with
  | inserted htype hrep => exact ⟨_, h.insert htype hrep⟩
  | full => exact ⟨_, h.failed _ _⟩
  | deleted hslot htype hrep =>
      exact ⟨_, h.delete (List.getElem?_eq_some_iff.mp hslot).1 htype hrep⟩
  | invalid => exact ⟨_, h.failed _ _⟩

/-- The invariant of whole runs. -/
theorem run_inv (t : PageType) (calls : List PageCall) : ∃ slots, Inv t (Page.run t calls) slots := by
  induction calls using List.reverseRecOn with
  | nil => exact ⟨[], inv_new t⟩
  | append_singleton calls c ih =>
      obtain ⟨slots, h⟩ := ih
      rw [Page.run, List.foldl_append]
      exact h.call c

theorem run_calls (t : PageType) (calls : List PageCall) :
    (Page.run t calls).history.map PageEvent.call = calls := by
  induction calls using List.reverseRecOn with
  | nil => rfl
  | append_singleton calls c ih =>
      rw [Page.run, List.foldl_append]
      have hsnoc : (PageRun.call (Page.run t calls) c).history.map PageEvent.call =
          (Page.run t calls).history.map PageEvent.call ++ [c] := List.map_append
      rw [ih] at hsnoc
      exact hsnoc

end PageRun

/-- The directory entry of a slot that was not deleted. -/
def Page.LiveAt (p : Page) (slot offset len : Nat) : Prop :=
  slot < p.numSlots ∧ p.slotOffsetLen slot = .ok (offset, len) ∧ offset ≠ tombstoneOffset

/-- The header and the slot directory fit together. -/
structure Page.Consistent (p : Page) : Prop where
  starts : p.freeStart = 16 + 4 * p.numSlots
  ordered : p.freeStart ≤ p.freeEnd
  ends : p.freeEnd ≤ 4096
  inside : ∀ slot offset len, p.LiveAt slot offset len →
    p.freeEnd ≤ offset ∧ offset + len ≤ 4096
  disjoint : ∀ slot offset len slot' offset' len', p.LiveAt slot offset len →
    p.LiveAt slot' offset' len' → slot ≠ slot' → offset + len ≤ offset' ∨ offset' + len' ≤ offset

/-- What a page is to its users, by the inserts and the deletes that returned. -/
structure Page.SlotMap (p : Page) (inserted : List (Nat × Bytes)) (deleted : List Nat) : Prop where
  get_ok : ∀ slot record, p.get slot = .ok record ↔ (slot, record) ∈ inserted ∧ slot ∉ deleted
  get_err : ∀ slot, (∀ record, p.get slot ≠ .ok record) → p.get slot = .err (.invalidSlot slot)
  slotIds : p.slotIds = .ok ((inserted.map Prod.fst).filter (fun slot => slot ∉ deleted))

namespace Page
variable {p : Page} {slots : List Slot}

theorem Rep.liveAt (h : p.Rep slots) {slot offset len : Nat} (hlive : p.LiveAt slot offset len) :
    ∃ s, slots[slot]? = some s ∧ offset = slotOffset slots slot ∧ len = s.record.length := by
  obtain ⟨hlt, hread, hne⟩ := hlive
  rw [h.numSlots] at hlt
  have hs := List.getElem?_eq_getElem hlt
  rw [slotOffsetLen_eq h hs] at hread
  cases hread
  refine ⟨_, hs, ?_, rfl⟩
  split
  · rfl
  · rename_i hdead
    rw [if_neg hdead] at hne
    exact absurd rfl hne

theorem Rep.consistent (h : p.Rep slots) : p.Consistent := by
  have hsize : pageSize = 4096 := rfl
  have hheader : pageHeaderLen = 16 := rfl
  have hroom := h.room
  have hused : usedBytes slots ≤ pageSize := by omega
  refine
    { starts := by rw [h.freeStart, h.numSlots]; rfl
      ordered := by rw [h.freeStart, h.freeEnd]; omega
      ends := by rw [h.freeEnd]; omega
      inside := ?_
      disjoint := ?_ }
  · intro slot offset len hlive
    obtain ⟨s, hs, rfl, rfl⟩ := h.liveAt hlive
    rw [h.freeEnd]
    exact slotOffset_bounds hs hused
  · intro slot offset len slot' offset' len' hlive hlive' hne
    obtain ⟨s, hs, rfl, rfl⟩ := h.liveAt hlive
    obtain ⟨s', hs', rfl, rfl⟩ := h.liveAt hlive'
    rcases Nat.lt_or_gt_of_ne hne with hlt | hgt
    · exact .inr (slotOffset_disjoint hs' hlt hused)
    · exact .inl (slotOffset_disjoint hs hgt hused)

/-- An insert fails exactly when the record and its slot exceed the free space. -/
theorem Rep.insert_err_iff (h : p.Rep slots) {free : Nat} (hfree : p.freeSpace = .ok free)
    (record : Bytes) :
    (∃ e, ((PageCall.insert record).exec p).1 = .err e) ↔ free < 4 + record.length := by
  have hslot : slotLen = 4 := rfl
  have hroom := h.room
  rw [freeSpace_eq h] at hfree
  cases hfree
  by_cases hfit : pageHeaderLen + 4 * (slots.length + 1) + usedBytes slots + record.length ≤
      pageSize
  · obtain ⟨p', hexec, -⟩ := PageCall.exec_insert h hfit
    rw [hexec]
    constructor
    · rintro ⟨e, he⟩
      cases he
    · intro hlt
      omega
  · rw [PageCall.exec_insert_full h (by omega)]
    constructor
    · intro _
      omega
    · intro _
      exact ⟨_, rfl⟩

/-- Two pages with the same slots look the same. -/
theorem Rep.get_eq {q : Page} (h : p.Rep slots) (hq : q.Rep slots) (slot : Nat) :
    q.get slot = p.get slot := by
  rcases live_or_dead slots slot with ⟨record, hslot⟩ | hdead
  · rw [get_live h hslot, get_live hq hslot]
  · rw [get_dead h hdead, get_dead hq hdead]

end Page

namespace PageRun
variable {t : PageType} {r : PageRun} {slots : List Slot}

theorem Inv.mem_inserted (h : Inv t r slots) {slot : Nat} {record : Bytes} :
    (slot, record) ∈ insertedIn r.history ↔ ∃ live, slots[slot]? = some ⟨record, live⟩ := by
  rw [h.inserted, List.mem_mapIdx]
  constructor
  · rintro ⟨i, hi, heq⟩
    cases heq
    exact ⟨slots[slot].live, List.getElem?_eq_getElem hi⟩
  · rintro ⟨live, hs⟩
    obtain ⟨hlt, heq⟩ := List.getElem?_eq_some_iff.mp hs
    exact ⟨slot, hlt, by rw [heq]⟩

theorem Inv.slotMap (h : Inv t r slots) :
    r.page.SlotMap (insertedIn r.history) (deletedIn r.history) where
  get_ok := by
    intro slot record
    rw [h.mem_inserted]
    constructor
    · intro hget
      rcases live_or_dead slots slot with ⟨record', hslot⟩ | hdead
      · rw [Page.get_live h.rep hslot] at hget
        cases hget
        exact ⟨⟨true, hslot⟩, (h.live slot _ hslot).mp rfl⟩
      · rw [Page.get_dead h.rep hdead] at hget
        cases hget
    · rintro ⟨⟨live, hs⟩, hnot⟩
      have hlive : live = true := (h.live slot _ hs).mpr hnot
      rw [hlive] at hs
      exact Page.get_live h.rep hs
  get_err := by
    intro slot hget
    rcases live_or_dead slots slot with ⟨record, hslot⟩ | hdead
    · exact absurd (Page.get_live h.rep hslot) (hget record)
    · exact Page.get_dead h.rep hdead
  slotIds := by
    have hids : (insertedIn r.history).map Prod.fst = List.range slots.length := by
      rw [h.inserted]
      apply List.ext_getElem
      · simp
      · intro i hi hi'
        simp
    rw [Page.slotIds_eq h.rep, hids]
    congr 1
    apply List.filter_congr
    intro i hi
    have hs := List.getElem?_eq_getElem (List.mem_range.mp hi)
    have hlive := h.live i _ hs
    rw [hs, Option.any_some, Bool.eq_iff_iff, decide_eq_true_iff]
    exact hlive

end PageRun

/-- A slotted page is a faithful slot map, whatever calls were made on it and with records
of any length. -/
theorem page_run_slotMap (crc32 : Checksum) (t : PageType) (calls : List PageCall) :
    let r := Page.run t calls
    r.history.map PageEvent.call = calls ∧ (∀ e ∈ r.history, e.answer ≠ .panic) ∧
    r.page.Consistent ∧
    r.page.SlotMap (insertedIn r.history) (deletedIn r.history) ∧
    (∃ free, r.page.freeSpace = .ok free ∧ free = r.page.freeEnd - r.page.freeStart ∧
      ∀ record, (∃ e, ((PageCall.insert record).exec r.page).1 = .err e) ↔
        free < 4 + record.length) ∧
    (∀ c e, (PageCall.exec c r.page).1 = .err e → (PageCall.exec c r.page).2 = r.page) ∧
    (∃ q, Page.decode crc32 (r.page.encode crc32) = .ok q ∧ q.pageType = t ∧
      q.slotIds = r.page.slotIds ∧ (∀ slot, q.get slot = r.page.get slot) ∧
      q.freeSpace = r.page.freeSpace) ∧
    ∀ b p, Page.decode crc32 b = .ok p → p.encode crc32 = b := by
  intro r
  obtain ⟨slots, h⟩ := PageRun.run_inv t calls
  have henc := Page.encode_rep h.rep crc32
  refine ⟨PageRun.run_calls t calls, h.answers, h.rep.consistent, h.slotMap, ?_, ?_, ?_, ?_⟩
  · refine ⟨_, Page.freeSpace_eq h.rep, ?_, ?_⟩
    · rw [h.rep.freeEnd, h.rep.freeStart]
    · intro record
      exact h.rep.insert_err_iff (Page.freeSpace_eq h.rep) record
  · intro c e he
    exact PageCall.exec_err h.rep he
  · refine ⟨r.page.encoded crc32, Page.decode_encode h.rep.sound crc32, h.pageType, ?_, ?_, ?_⟩
    · rw [Page.slotIds_eq henc, Page.slotIds_eq h.rep]
    · intro slot
      exact h.rep.get_eq henc slot
    · rw [Page.freeSpace_eq henc, Page.freeSpace_eq h.rep]
  · intro b p hdecode
    exact Page.encode_decode hdecode

/-- Two inserts, a delete, a delete of a slot that never was, and a record too long. -/
theorem page_run_slotMap_five :
    let r := Page.run .data
      [.insert [1, 2], .insert [], .delete 0, .delete 5, .insert (List.replicate 4100 0)]
    insertedIn r.history = [(0, [1, 2]), (1, [])] ∧ deletedIn r.history = [0] ∧
      r.page.get 1 = .ok [] ∧
      ∃ b p, Page.decode (fun _ => 0) b = .ok p ∧ p.encode (fun _ => 0) = b := by
  intro r
  obtain ⟨-, -, -, hmap, -, -, ⟨q, hq, -⟩, hback⟩ := page_run_slotMap (fun _ => 0) .data
    [.insert [1, 2], .insert [], .delete 0, .delete 5, .insert (List.replicate 4100 0)]
  have hboth : (fun h => (insertedIn h, deletedIn h)) r.history =
      ([(0, [1, 2]), (1, [])], [0]) := by decide +kernel
  obtain ⟨hins, hdel⟩ := Prod.mk.inj hboth
  refine ⟨hins, hdel, (hmap.get_ok 1 []).mpr ⟨?_, ?_⟩, _, q, hq, hback _ q hq⟩
  · exact hins ▸ by decide
  · exact hdel ▸ by decide

end Sietch
