import Sietch.Segment

/-! Recovery of a segment file that holds any bytes. It returns the longest run of records
at the start of the file, and a file that is cut there and appended to recovers to that run
and the new records. -/
namespace Sietch
open ByteString

section Parse
variable (crc32 : Checksum)

/-- What recovery makes of the bytes of a file. -/
structure Parses (b : Bytes) (records : List Record) (validLen : Nat) : Prop where
  bytes : encodeAll crc32 records = b.take validLen
  within : validLen ≤ b.length
  fits : ∀ r ∈ records, r.Fits
  stops : Inert crc32 (b.drop validLen)

theorem recoverLoop_parses (fuel : Nat) (b : Bytes) (hfuel : b.length ≤ fuel) :
    Parses crc32 b (recoverLoop crc32 fuel b).1 (recoverLoop crc32 fuel b).2 := by
  induction fuel generalizing b with
  | zero =>
      have hnil : b = [] := List.length_eq_zero_iff.mp (Nat.le_zero.mp hfuel)
      subst hnil
      exact ⟨rfl, le_rfl, fun _ hr => absurd hr List.not_mem_nil, inert_nil crc32⟩
  | succ fuel ih =>
      unfold recoverLoop
      split
      · rename_i record len hdecode
        obtain ⟨hlen, hle, hbytes, hfits⟩ := decode_ok hdecode
        have hpos := record.encodedLen_pos
        have hrest := ih (b.drop len) (by rw [List.length_drop]; omega)
        constructor
        · rw [encodeAll_cons, hbytes, hrest.bytes, List.take_add]
        · have hwithin := hrest.within
          rw [List.length_drop] at hwithin
          show len + _ ≤ b.length
          omega
        · exact List.forall_mem_cons.mpr ⟨hfits, hrest.fits⟩
        · have hstops := hrest.stops
          rw [List.drop_drop] at hstops
          exact hstops
      · rename_i hstop
        exact ⟨rfl, Nat.zero_le _, fun _ hr => absurd hr List.not_mem_nil, hstop⟩

theorem recover_parses (b : Bytes) :
    Parses crc32 b (recover crc32 b).records (recover crc32 b).validLen :=
  recoverLoop_parses crc32 b.length b le_rfl

/-- The number of whole records is read off the lengths of the runs before the cut. -/
theorem le_wholeRecords_iff {rs : List Record} {j : Nat} (hj : j ≤ rs.length) (n : Nat) :
    j ≤ wholeRecords rs n ↔ (encodeAll crc32 (rs.take j)).length ≤ n := by
  induction rs generalizing j n with
  | nil =>
      have hzero : j = 0 := Nat.le_zero.mp hj
      subst hzero
      simp
  | cons r rs ih =>
      cases j with
      | zero => simp
      | succ j =>
          have hlen := Record.length_encode crc32 r
          simp only [wholeRecords, List.take_succ_cons, encodeAll_cons, List.length_append, hlen]
          split
          · rename_i hr
            have hrest := ih (Nat.le_of_succ_le_succ hj) (n - r.encodedLen)
            omega
          · omega

end Parse

namespace Segment

theorem writeLoop_starts {crc32 : Checksum} {records : List Record} {file : Bytes}
    {pos offset budget next : Nat} {offsets : List Nat}
    (h : (writeLoop crc32 records file pos offset budget).offsets = some (offsets, next)) :
    offsets = (List.range records.length).map
      (fun i => offset + (encodeAll crc32 (records.take i)).length) := by
  induction records generalizing file pos offset budget offsets next with
  | nil =>
      simp only [writeLoop, Option.some.injEq, Prod.mk.injEq] at h
      exact h.1.symm
  | cons r rs ih =>
      simp only [writeLoop] at h
      split at h
      · cases h
      · obtain ⟨⟨os, nx⟩, ho, he⟩ := Option.map_eq_some_iff.mp h
        simp only [Prod.mk.injEq] at he
        obtain ⟨rfl, -⟩ := he
        rw [ih ho, List.length_cons, List.range_succ_eq_map, List.map_cons, List.map_map]
        simp [Function.comp_def, Nat.add_assoc]

theorem appendBatch_ok (crc32 : Checksum) {dir dir' : SegmentDir} {id : Nat} {s s' : Segment}
    {file : Bytes} (hfile : dir.get? id = some file) (hpos : s.pos = file.length) {io : Io}
    {records : List Record} {offsets : List Nat}
    (h : appendBatch crc32 io dir id s records = (.ok offsets, s', dir')) :
    dir' = dir.insert id (file ++ encodeAll crc32 records) ∧
      offsets = (List.range records.length).map
        (fun i => s.len + (encodeAll crc32 (records.take i)).length) := by
  have hdisk := (appendBatch_disk crc32 hfile hpos io records).1
  have hbudget : (encodeAll crc32 records).length ≤ io.budget (encodeAll crc32 records).length ↔ _ :=
    (writeLoop_offsets crc32 records ((dir.get? id).getD []) s.pos s.len _).symm
  rw [h] at hdisk
  simp only [appendBatch] at h
  cases hw : (writeLoop crc32 records ((dir.get? id).getD []) s.pos s.len
      (io.budget (encodeAll crc32 records).length)).offsets with
  | none =>
      simp only [hw] at h
      cases h
  | some written =>
      rw [hw] at hbudget
      rw [List.take_of_length_le (hbudget.mpr rfl)] at hdisk
      have hstarts : offsets = written.1 := by
        cases io <;> simp only [hw] at h <;> cases h <;> rfl
      exact ⟨hdisk, by rw [hstarts, writeLoop_starts hw]⟩

end Segment

/-- Recovery is the unique maximal parse of a file. Of any bytes it returns a run of records
that the file starts with, up to a point where no record starts, and every run of records
that the file starts with is a part of it. Of records that are cut at any byte it returns
those that lie wholly before the cut. Cutting the file there and appending records keeps
what was recovered and adds the records, at the offsets returned. -/
theorem recover_unique_maximal_parse (crc32 : Checksum) :
    (∀ b : Bytes,
      encodeAll crc32 (recover crc32 b).records = b.take (recover crc32 b).validLen ∧
      (recover crc32 b).validLen ≤ b.length ∧
      Inert crc32 (b.drop (recover crc32 b).validLen) ∧
      ((recover crc32 b).hadTornTail = true ↔ (recover crc32 b).validLen < b.length) ∧
      ∀ rs : List Record, (∀ r ∈ rs, r.Fits) → encodeAll crc32 rs <+: b →
        rs <+: (recover crc32 b).records) ∧
    (∀ rs : List Record, (∀ r ∈ rs, r.Fits) → ∀ n, ∃ k ≤ rs.length,
      (recover crc32 ((encodeAll crc32 rs).take n)).records = rs.take k ∧
      ∀ j ≤ rs.length, j ≤ k ↔ (encodeAll crc32 (rs.take j)).length ≤ n) ∧
    (∀ (dir : SegmentDir) (id : Nat) (b : Bytes), dir.get? id = some b →
      ∀ more : List Record, (∀ r ∈ more, r.Fits) → ∀ (io : Io) (s s' : Segment)
        (cut dir' : SegmentDir) (offsets : List Nat),
        Segment.openForAppend dir id (recover crc32 b).validLen = (s, cut) →
        Segment.appendBatch crc32 io cut id s more = (.ok offsets, s', dir') →
        ∃ file, dir'.get? id = some file ∧
          recover crc32 file = ⟨(recover crc32 b).records ++ more, file.length, false⟩ ∧
          offsets = (List.range more.length).map
            (fun i => (encodeAll crc32 ((recover crc32 b).records ++ more.take i)).length)) := by
  refine ⟨fun b => ?_, fun rs hrs n => ?_, ?_⟩
  · have hparse := recover_parses crc32 b
    refine ⟨hparse.bytes, hparse.within, hparse.stops, decide_eq_true_iff, fun rs hrs hinit => ?_⟩
    obtain ⟨rest, rfl⟩ := hinit
    obtain ⟨fuel, hrecords⟩ := recover_records_append crc32 hrs rest
    exact ⟨_, hrecords.symm⟩
  · obtain ⟨tail, htake, htail⟩ := encodeAll_take crc32 hrs n
    have hwhole : ∀ r ∈ rs.take (wholeRecords rs n), r.Fits := fun r hr =>
      hrs r (List.mem_of_mem_take hr)
    refine ⟨wholeRecords rs n, wholeRecords_le rs n, ?_, fun j hj =>
      le_wholeRecords_iff crc32 hj n⟩
    rw [htake, recover_encodeAll crc32 hwhole htail]
  · intro dir id b hb more hmore io s s' cut dir' offsets hopen happend
    have hparse := recover_parses crc32 b
    have hlen : (encodeAll crc32 (recover crc32 b).records).length = (recover crc32 b).validLen := by
      rw [hparse.bytes, List.length_take, min_eq_left hparse.within]
    simp only [Segment.openForAppend, hb, Option.getD_some, setLen_of_le hparse.within,
      Prod.mk.injEq] at hopen
    obtain ⟨rfl, rfl⟩ := hopen
    have hfile : (dir.insert id (b.take (recover crc32 b).validLen)).get? id =
        some (encodeAll crc32 (recover crc32 b).records) := by
      rw [SortedMap.get?_insert, if_pos rfl, hparse.bytes]
    obtain ⟨rfl, hoffsets⟩ := Segment.appendBatch_ok crc32 hfile hlen.symm happend
    have hall : ∀ r ∈ (recover crc32 b).records ++ more, r.Fits := fun r hr =>
      (List.mem_append.mp hr).elim (hparse.fits r) (hmore r)
    refine ⟨_, by rw [SortedMap.get?_insert, if_pos rfl], ?_, ?_⟩
    · have hrecover := recover_encodeAll crc32 hall (inert_nil crc32)
      rw [List.append_nil, encodeAll_append] at hrecover
      rw [hrecover]
      simp
    · rw [hoffsets]
      simp only [encodeAll_append, List.length_append, hlen]

/-- A record of twenty-three bytes that is cut after ten. -/
theorem recover_unique_maximal_parse_cut :
    (Record.delete 7 [1, 2]).Fits ∧ ∃ k ≤ 1,
      (recover crc32Ieee ((encodeAll crc32Ieee [Record.delete 7 [1, 2]]).take 10)).records =
        [Record.delete 7 [1, 2]].take k := by
  have hfits : (Record.delete 7 [1, 2]).Fits := ⟨by decide, by decide, by decide⟩
  obtain ⟨k, hk, hrecords, -⟩ := (recover_unique_maximal_parse crc32Ieee).2.1
    [Record.delete 7 [1, 2]] (List.forall_mem_singleton.mpr hfits) 10
  exact ⟨hfits, k, hk, hrecords⟩

end Sietch
