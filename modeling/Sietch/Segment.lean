import Sietch.Base.SortedMap
import Sietch.Base.Outcome
import Sietch.Record

/-! Segment files: recovery of the valid records at the start of a file, and
appending. A `Segment` keeps the logical length apart from the position of the
open file; a failed write moves the position and leaves the length. -/
namespace Sietch
open ByteString

structure RecoveredSegment where
  records : List Record
  validLen : Nat
  hadTornTail : Bool
  deriving DecidableEq, Repr

/-- The `while let Ok` loop over the rest of the buffer. Every record takes at
least a header, so the buffer's length is enough fuel. -/
def recoverLoop (crc32 : Checksum) : Nat → Bytes → List Record × Nat
  | 0, _ => ([], 0)
  | fuel+1, buf =>
      match decode crc32 buf with
      | .ok record len =>
          let rest := recoverLoop crc32 fuel (buf.drop len)
          (record :: rest.1, len + rest.2)
      | _ => ([], 0)

def recover (crc32 : Checksum) (buf : Bytes) : RecoveredSegment :=
  let r := recoverLoop crc32 buf.length buf
  ⟨r.1, r.2, r.2 < buf.length⟩

def encodeAll (crc32 : Checksum) (rs : List Record) : Bytes := rs.flatMap (Record.encode crc32)

/-- How many records lie wholly inside the first `n` bytes of the run. -/
def wholeRecords : List Record → Nat → Nat
  | [], _ => 0
  | r :: rs, n => if r.encodedLen ≤ n then wholeRecords rs (n - r.encodedLen) + 1 else 0

/-- No record starts here: recovery stops. -/
def Inert (crc32 : Checksum) (tail : Bytes) : Prop := ∀ r n, decode crc32 tail ≠ .ok r n

section Recovery
variable (crc32 : Checksum)

@[simp] theorem encodeAll_nil : encodeAll crc32 [] = [] := rfl

@[simp] theorem encodeAll_cons (r : Record) (rs : List Record) :
    encodeAll crc32 (r :: rs) = r.encode crc32 ++ encodeAll crc32 rs := rfl

@[simp] theorem encodeAll_append (rs ss : List Record) :
    encodeAll crc32 (rs ++ ss) = encodeAll crc32 rs ++ encodeAll crc32 ss := by
  simp [encodeAll]

theorem length_encodeAll (rs : List Record) :
    (encodeAll crc32 rs).length = (rs.map Record.encodedLen).sum := by
  induction rs with
  | nil => rfl
  | cons r rs ih => simp [ih, Record.length_encode]

theorem encodeAll_eq_nil {rs : List Record} : encodeAll crc32 rs = [] ↔ rs = [] := by
  cases rs with
  | nil => simp
  | cons r rs => simp [Record.encode_ne_nil]

theorem inert_nil : Inert crc32 [] := by
  intro r n h
  simp [decode, headerLen] at h

theorem inert_take {r : Record} (hr : r.Fits) {n : Nat} (hn : n < r.encodedLen) :
    Inert crc32 ((r.encode crc32).take n) := by
  intro r' n' h
  rw [decode_take_incomplete crc32 hr hn] at h
  cases h

/-- Whole records are consumed first, whatever follows them. -/
theorem recoverLoop_append {rs : List Record} (hrs : ∀ r ∈ rs, r.Fits) (rest : Bytes) (fuel : Nat) :
    recoverLoop crc32 (rs.length + fuel) (encodeAll crc32 rs ++ rest) =
      (rs ++ (recoverLoop crc32 fuel rest).1,
        (encodeAll crc32 rs).length + (recoverLoop crc32 fuel rest).2) := by
  induction rs with
  | nil => simp
  | cons r rs ih =>
      obtain ⟨hr, hrs⟩ := List.forall_mem_cons.mp hrs
      have hdrop : (r.encode crc32 ++ (encodeAll crc32 rs ++ rest)).drop r.encodedLen =
          encodeAll crc32 rs ++ rest := by
        rw [← Record.length_encode crc32 r, List.drop_left]
      have hfuel : (r :: rs).length + fuel = rs.length + fuel + 1 := by
        simp only [List.length_cons]
        omega
      simp only [hfuel, recoverLoop, encodeAll_cons, List.append_assoc,
        decode_encode_append crc32 hr, hdrop]
      rw [ih hrs]
      simp only [List.cons_append, List.length_append, Record.length_encode, Nat.add_assoc]

theorem recoverLoop_inert {tail : Bytes} (ht : Inert crc32 tail) (fuel : Nat) :
    recoverLoop crc32 fuel tail = ([], 0) := by
  cases fuel with
  | zero => rfl
  | succ fuel =>
      simp only [recoverLoop]
      split
      · rename_i r n h
        exact absurd h (ht r n)
      · rfl

theorem length_le_encodeAll (rs : List Record) : rs.length ≤ (encodeAll crc32 rs).length := by
  induction rs with
  | nil => simp
  | cons r rs ih =>
      have hpos := r.encodedLen_pos
      simp only [List.length_cons, encodeAll_cons, List.length_append, Record.length_encode]
      omega

theorem recover_records_append {rs : List Record} (hrs : ∀ r ∈ rs, r.Fits) (rest : Bytes) :
    ∃ fuel, (recover crc32 (encodeAll crc32 rs ++ rest)).records =
      rs ++ (recoverLoop crc32 fuel rest).1 := by
  have hle := length_le_encodeAll crc32 rs
  obtain ⟨fuel, hfuel⟩ : ∃ fuel, (encodeAll crc32 rs ++ rest).length = rs.length + fuel := by
    refine ⟨(encodeAll crc32 rs).length - rs.length + rest.length, ?_⟩
    simp only [List.length_append]
    omega
  exact ⟨fuel, by simp only [recover, hfuel, recoverLoop_append crc32 hrs]⟩

/-- Recovery returns exactly the records before the inert tail, and reports the
tail as torn. -/
theorem recover_encodeAll {rs : List Record} (hrs : ∀ r ∈ rs, r.Fits) {tail : Bytes}
    (ht : Inert crc32 tail) :
    recover crc32 (encodeAll crc32 rs ++ tail) =
      ⟨rs, (encodeAll crc32 rs).length, decide (tail ≠ [])⟩ := by
  have hle := length_le_encodeAll crc32 rs
  obtain ⟨fuel, hfuel⟩ : ∃ fuel, (encodeAll crc32 rs ++ tail).length = rs.length + fuel := by
    refine ⟨(encodeAll crc32 rs).length - rs.length + tail.length, ?_⟩
    simp only [List.length_append]
    omega
  simp only [recover, hfuel, recoverLoop_append crc32 hrs, recoverLoop_inert crc32 ht,
    List.append_nil, Nat.add_zero]
  congr 1
  rw [← hfuel]
  cases tail with
  | nil => simp
  | cons b t => simp

theorem encodeAll_inj {rs ss : List Record} (hrs : ∀ r ∈ rs, r.Fits) (hss : ∀ r ∈ ss, r.Fits)
    (h : encodeAll crc32 rs = encodeAll crc32 ss) : rs = ss := by
  have hleft := recover_encodeAll crc32 hrs (inert_nil crc32)
  rw [h, recover_encodeAll crc32 hss (inert_nil crc32)] at hleft
  exact (congrArg RecoveredSegment.records hleft).symm

/-- A cut anywhere inside a run of records leaves its whole records and an inert
rest, itself part of the next record. -/
theorem encodeAll_take {rs : List Record} (hrs : ∀ r ∈ rs, r.Fits) (n : Nat) :
    ∃ tail, (encodeAll crc32 rs).take n = encodeAll crc32 (rs.take (wholeRecords rs n)) ++ tail ∧
      Inert crc32 tail := by
  induction rs generalizing n with
  | nil => exact ⟨[], by simp [wholeRecords], inert_nil crc32⟩
  | cons r rs ih =>
      obtain ⟨hr, hrs⟩ := List.forall_mem_cons.mp hrs
      have hlen := Record.length_encode crc32 r
      by_cases hn : r.encodedLen ≤ n
      · obtain ⟨tail, he, ht⟩ := ih hrs (n - r.encodedLen)
        refine ⟨tail, ?_, ht⟩
        simp only [wholeRecords, if_pos hn, List.take_succ_cons, encodeAll_cons, List.append_assoc]
        rw [List.take_append, List.take_of_length_le (by omega), hlen, he]
      · refine ⟨(r.encode crc32).take n, ?_, inert_take crc32 hr (not_le.mp hn)⟩
        simp only [wholeRecords, if_neg hn, List.take_zero, encodeAll_nil, List.nil_append,
          encodeAll_cons]
        rw [List.take_append_of_le_length (by omega)]

theorem wholeRecords_le (rs : List Record) (n : Nat) : wholeRecords rs n ≤ rs.length := by
  induction rs generalizing n with
  | nil => simp [wholeRecords]
  | cons r rs ih =>
      simp only [wholeRecords]
      split
      · simpa using ih _
      · simp

end Recovery

/-- A directory's segment files by id. The name `seg-<id>.log` is a bijection, so
the id stands for it. -/
abbrev SegmentDir := SortedMap Nat Bytes

inductive LogError where
  | io
  | sealedSegmentCorrupted (id : Nat)
  deriving DecidableEq, Repr

/-- How far the operating system lets one append call get: all of it, until
`written` bytes of the batch are in the file, or up to the failing sync. -/
inductive Io where
  | done
  | writeFails (written : Nat)
  | syncFails
  deriving DecidableEq, Repr

/-- The bytes of the batch that `write_all` accepts. -/
def Io.budget (total : Nat) : Io → Nat
  | .writeFails written => written
  | .done | .syncFails => total

structure Segment where
  pos : Nat
  len : Nat
  deriving DecidableEq, Repr

namespace Segment

/-- `open_for_append`: the file is created or cut to `validLen`. -/
def openForAppend (dir : SegmentDir) (id validLen : Nat) : Segment × SegmentDir :=
  (⟨validLen, validLen⟩, dir.insert id (setLen ((dir.get? id).getD []) validLen))

def isEmpty (s : Segment) : Bool := s.len = 0

/-- What the `write_all` loop leaves: the file, its position, and the offsets with
the next offset unless a write failed. -/
structure Written where
  file : Bytes
  pos : Nat
  offsets : Option (List Nat × Nat)
  deriving DecidableEq, Repr

def writeLoop (crc32 : Checksum) : List Record → Bytes → Nat → Nat → Nat → Written
  | [], file, pos, offset, _ => ⟨file, pos, some ([], offset)⟩
  | record :: records, file, pos, offset, budget =>
      let bytes := record.encode crc32
      if budget < bytes.length then ⟨writeAt file pos (bytes.take budget), pos + budget, none⟩
      else
        let w := writeLoop crc32 records (writeAt file pos bytes) (pos + bytes.length)
          (offset + bytes.length) (budget - bytes.length)
        { w with offsets := w.offsets.map (fun o => (offset :: o.1, o.2)) }

def appendBatch (crc32 : Checksum) (io : Io) (dir : SegmentDir) (id : Nat) (s : Segment)
    (records : List Record) : Outcome LogError (List Nat) × Segment × SegmentDir :=
  let total := (encodeAll crc32 records).length
  let w := writeLoop crc32 records ((dir.get? id).getD []) s.pos s.len (io.budget total)
  let dir' := dir.insert id w.file
  match w.offsets, io with
  | none, _ => (.err .io, { s with pos := w.pos }, dir')
  | some _, .syncFails => (.err .io, { s with pos := w.pos }, dir')
  | some (offsets, offset), _ => (.ok offsets, ⟨w.pos, offset⟩, dir')

theorem writeLoop_file (crc32 : Checksum) (records : List Record) (file : Bytes)
    (offset budget : Nat) :
    (writeLoop crc32 records file file.length offset budget).file =
        file ++ (encodeAll crc32 records).take budget ∧
      (writeLoop crc32 records file file.length offset budget).pos =
        (file ++ (encodeAll crc32 records).take budget).length := by
  induction records generalizing file offset budget with
  | nil => simp [writeLoop]
  | cons r rs ih =>
      simp only [writeLoop]
      split
      · rename_i hb
        have htake : (r.encode crc32 ++ encodeAll crc32 rs).take budget =
            (r.encode crc32).take budget := List.take_append_of_le_length hb.le
        simp only [writeAt_end, encodeAll_cons, htake, List.length_append, List.length_take]
        exact ⟨trivial, by omega⟩
      · rename_i hb
        have hlen : file.length + (r.encode crc32).length = (file ++ r.encode crc32).length := by
          simp
        have htake : (r.encode crc32 ++ encodeAll crc32 rs).take budget =
            r.encode crc32 ++ (encodeAll crc32 rs).take (budget - (r.encode crc32).length) := by
          rw [List.take_append, List.take_of_length_le (not_lt.mp hb)]
        have h := ih (file ++ r.encode crc32) (offset + (r.encode crc32).length)
          (budget - (r.encode crc32).length)
        simp only [writeAt_end, hlen, encodeAll_cons, htake]
        rw [h.1, h.2, List.append_assoc]
        exact ⟨rfl, rfl⟩

theorem writeLoop_offsets (crc32 : Checksum) (records : List Record) (file : Bytes)
    (pos offset budget : Nat) :
    (writeLoop crc32 records file pos offset budget).offsets.isSome ↔
      (encodeAll crc32 records).length ≤ budget := by
  induction records generalizing file pos offset budget with
  | nil => simp [writeLoop]
  | cons r rs ih =>
      simp only [writeLoop, encodeAll_cons, List.length_append]
      split
      · rename_i hb
        simp only [Option.isSome_none, Bool.false_eq_true, false_iff]
        omega
      · rename_i hb
        simp only [Option.isSome_map, ih]
        omega

theorem writeLoop_next {crc32 : Checksum} {records : List Record} {file : Bytes}
    {pos offset budget next : Nat} {offsets : List Nat}
    (h : (writeLoop crc32 records file pos offset budget).offsets = some (offsets, next)) :
    next = offset + (encodeAll crc32 records).length := by
  induction records generalizing file pos offset budget offsets with
  | nil =>
      simp only [writeLoop, Option.some.injEq, Prod.mk.injEq] at h
      simp [h.2]
  | cons r rs ih =>
      simp only [writeLoop] at h
      split at h
      · cases h
      · obtain ⟨⟨os, nx⟩, ho, he⟩ := Option.map_eq_some_iff.mp h
        simp only [Prod.mk.injEq] at he
        obtain ⟨-, rfl⟩ := he
        have hn := ih ho
        simp only [encodeAll_cons, List.length_append]
        omega

variable (crc32 : Checksum) {dir : SegmentDir} {id : Nat} {s : Segment} {file : Bytes}

/-- Whatever the call returns, the file has grown by the granted part of the
batch, and the open file stands behind it. -/
theorem appendBatch_disk (hfile : dir.get? id = some file) (hpos : s.pos = file.length) (io : Io)
    (records : List Record) :
    let granted := (encodeAll crc32 records).take (io.budget (encodeAll crc32 records).length)
    (appendBatch crc32 io dir id s records).2.2 = dir.insert id (file ++ granted) ∧
      (appendBatch crc32 io dir id s records).2.1.pos = (file ++ granted).length := by
  have hw := writeLoop_file crc32 records file s.len (io.budget (encodeAll crc32 records).length)
  simp only [appendBatch, hfile, Option.getD_some, hpos]
  split <;> simp only [hw.1, hw.2, and_self]

theorem appendBatch_done (hfile : dir.get? id = some file) (hpos : s.pos = file.length)
    (records : List Record) :
    ∃ offsets, appendBatch crc32 .done dir id s records =
      (.ok offsets, ⟨(file ++ encodeAll crc32 records).length,
        s.len + (encodeAll crc32 records).length⟩,
        dir.insert id (file ++ encodeAll crc32 records)) := by
  have hw := writeLoop_file crc32 records file s.len (encodeAll crc32 records).length
  have hsome := (writeLoop_offsets crc32 records file file.length s.len
    (encodeAll crc32 records).length).mpr le_rfl
  obtain ⟨⟨offsets, next⟩, ho⟩ := Option.isSome_iff_exists.mp hsome
  have hnext := writeLoop_next ho
  refine ⟨offsets, ?_⟩
  simp only [appendBatch, hfile, Option.getD_some, hpos, Io.budget, ho, hw.1, hw.2,
    List.take_length, hnext]

theorem appendBatch_err (hfile : dir.get? id = some file) (hpos : s.pos = file.length) {io : Io}
    {records : List Record} {e : LogError} (h : (appendBatch crc32 io dir id s records).1 = .err e) :
    let granted := (encodeAll crc32 records).take (io.budget (encodeAll crc32 records).length)
    appendBatch crc32 io dir id s records =
      (.err .io, ⟨(file ++ granted).length, s.len⟩, dir.insert id (file ++ granted)) := by
  have hw := writeLoop_file crc32 records file s.len (io.budget (encodeAll crc32 records).length)
  simp only [appendBatch, hfile, Option.getD_some, hpos] at h ⊢
  split at h
  · simp only [hw.1, hw.2]
  · simp only [hw.1, hw.2]
  · cases h

end Segment
end Sietch
