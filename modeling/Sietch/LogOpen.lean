import Sietch.LogRuns
import Sietch.Recovery

/-! Opening a log on files that hold any bytes. Whatever is in the directory, `open` reports the
records at the start of every file, or names the first file before the last that goes on after
its records; it takes no byte of a record away, and a second `open` finds what the first has
left. -/
namespace Sietch
open ByteString

variable {crc32 : Checksum}

def recordsIn (crc32 : Checksum) (files : List (Nat × Bytes)) : List Record :=
  files.flatMap (fun f => (recover crc32 f.2).records)

def Torn (crc32 : Checksum) (file : Bytes) : Prop := (recover crc32 file).hadTornTail = true

instance (file : Bytes) : Decidable (Torn crc32 file) :=
  inferInstanceAs (Decidable ((recover crc32 file).hadTornTail = true))

/-- What recovery trusts of a file is whole records. -/
theorem take_validLen (file : Bytes) :
    file.take (recover crc32 file).validLen = encodeAll crc32 (recover crc32 file).records :=
  (recover_parses crc32 file).bytes.symm

theorem encoded_prefix_file (file : Bytes) :
    encodeAll crc32 (recover crc32 file).records <+: file := by
  rw [← take_validLen]
  exact List.take_prefix _ _

theorem recover_valid (file : Bytes) :
    recover crc32 (encodeAll crc32 (recover crc32 file).records) =
      ⟨(recover crc32 file).records, (recover crc32 file).validLen, false⟩ := by
  have hparses := recover_parses crc32 file
  have hrec := recover_encodeAll crc32 hparses.fits (inert_nil crc32)
  rw [List.append_nil] at hrec
  rw [hrec]
  have hlen : (encodeAll crc32 (recover crc32 file).records).length =
      (recover crc32 file).validLen := by
    rw [hparses.bytes, List.length_take, min_eq_left hparses.within]
  simp [hlen]

section Loop
variable {dir : SegmentDir} {maxBytes id : Nat}

theorem openLoop_whole {files : List (Nat × Bytes)} (hne : ∀ f ∈ files, f.1 ≠ id)
    (hwhole : ∀ f ∈ files, ¬ Torn crc32 f.2) (rest : List (Nat × Bytes)) (all : List Record)
    (ids : List Nat) (torn : Bool) (seen : Option Nat) :
    Log.openLoop crc32 dir maxBytes (some id) (files ++ rest) all ids torn seen =
      Log.openLoop crc32 dir maxBytes (some id) rest (all ++ recordsIn crc32 files)
        (ids ++ files.map Prod.fst) torn (maxSeqSeen seen (recordsIn crc32 files)) := by
  induction files generalizing all ids seen with
  | nil => simp [recordsIn, maxSeqSeen]
  | cons f files ih =>
      obtain ⟨hf, hfiles⟩ := List.forall_mem_cons.mp hne
      obtain ⟨hw, hws⟩ := List.forall_mem_cons.mp hwhole
      have hflag : (recover crc32 f.2).hadTornTail = false := by
        unfold Torn at hw
        simpa using hw
      simp only [List.cons_append, Log.openLoop, hflag, Option.some.injEq, hf, decide_false,
        Bool.false_eq_true, false_and, if_false, Bool.or_false]
      rw [ih hfiles hws]
      simp [recordsIn, maxSeqSeen_append]

/-- The first file before the last that is torn is named. -/
theorem open_names_torn {pre post : List (Nat × Bytes)} {file : Bytes}
    (he : dir.entries = pre ++ (id, file) :: post) (hpost : post ≠ [])
    (hpre : ∀ f ∈ pre, ¬ Torn crc32 f.2) (htorn : Torn crc32 file) (maxBytes : Nat) :
    Log.openWithSegmentSize crc32 dir maxBytes = (.err (.sealedSegmentCorrupted id), dir) := by
  obtain ⟨rest, last, rfl⟩ : ∃ rest last, post = rest ++ [last] :=
    ⟨_, _, (List.dropLast_append_getLast hpost).symm⟩
  have hasc := dir.ascending
  rw [he] at hasc
  obtain ⟨-, htail, hcross⟩ := List.pairwise_append.mp hasc
  have hin : last ∈ (id, file) :: (rest ++ [last]) := by simp
  have hne : ∀ f ∈ pre, f.1 ≠ last.1 := fun f hf => (hcross f hf last hin).ne
  have hid : id ≠ last.1 := (List.rel_of_pairwise_cons htail (by simp)).ne
  have hlast : dir.keys.getLast? = some last.1 := by
    simp [SortedMap.keys, he, List.getLast?_cons]
  have hflag : (recover crc32 file).hadTornTail = true := htorn
  rw [Log.openWithSegmentSize, hlast, he, openLoop_whole hne hpre]
  simp [Log.openLoop, hflag, hid]

theorem open_whole {pre : List (Nat × Bytes)} {last : Bytes}
    (he : dir.entries = pre ++ [(id, last)]) (hpre : ∀ f ∈ pre, ¬ Torn crc32 f.2)
    (maxBytes : Nat) :
    Log.openWithSegmentSize crc32 dir maxBytes =
      (if 2 ^ 64 ≤ nextSeqOf (recordsIn crc32 dir.entries) then .panic
        else .ok (⟨maxBytes, pre.map Prod.fst, id,
            ⟨(recover crc32 last).validLen, (recover crc32 last).validLen⟩,
            nextSeqOf (recordsIn crc32 dir.entries)⟩,
          ⟨recordsIn crc32 dir.entries, (recover crc32 last).hadTornTail⟩),
        dir.insert id (encodeAll crc32 (recover crc32 last).records)) := by
  have hasc := dir.ascending
  rw [he] at hasc
  have hne : ∀ f ∈ pre, f.1 ≠ id := fun f hf =>
    ((List.pairwise_append.mp hasc).2.2 f hf (id, last) (by simp)).ne
  have hlast : dir.keys.getLast? = some id := by simp [SortedMap.keys, he]
  have hget : dir.get? id = some last := SortedMap.get?_of_entries_last he
  have hwithin := (recover_parses crc32 last).within
  rw [Log.openWithSegmentSize, hlast, he, openLoop_whole hne hpre]
  simp only [Log.openLoop, Segment.openForAppend, hget, Option.getD_some, setLen_of_le hwithin,
    take_validLen]
  have hrecords : recordsIn crc32 (pre ++ [(id, last)]) =
      recordsIn crc32 pre ++ (recover crc32 last).records := by
    simp [recordsIn]
  have hseen : (maxSeqSeen (maxSeqSeen none (recordsIn crc32 pre))
      (recover crc32 last).records).elim 0 (· + 1) =
        nextSeqOf (recordsIn crc32 pre ++ (recover crc32 last).records) := by
    rw [nextSeqOf, maxSeqSeen_append]
  simp only [hseen, hrecords, List.nil_append, decide_true, not_true_eq_false, and_false, if_false,
    if_true, Bool.false_or]
  split
  · rfl
  · rfl

theorem open_empty (he : dir.entries = []) (maxBytes : Nat) :
    Log.openWithSegmentSize crc32 dir maxBytes =
      (.ok (⟨maxBytes, [], 0, ⟨0, 0⟩, 0⟩, ⟨[], false⟩), dir.insert 0 []) := by
  have hget : dir.get? 0 = none := by simp [SortedMap.get?, he, SortedMap.lookup]
  have hlast : dir.keys.getLast? = none := by simp [SortedMap.keys, he]
  rw [Log.openWithSegmentSize, hlast, he]
  simp [Log.openLoop, Segment.openForAppend, hget, setLen]

end Loop

def SegmentDir.valid (crc32 : Checksum) (dir : SegmentDir) : SegmentDir where
  entries := dir.entries.map (fun f => (f.1, encodeAll crc32 (recover crc32 f.2).records))
  ascending := by
    unfold SortedMap.Ascending
    rw [List.pairwise_map]
    exact dir.ascending

namespace SegmentDir
variable {dir : SegmentDir}

theorem get?_valid (id : Nat) :
    (dir.valid crc32).get? id =
      (dir.get? id).map (fun file => encodeAll crc32 (recover crc32 file).records) := by
  unfold SortedMap.get? valid
  dsimp only
  induction dir.entries with
  | nil => rfl
  | cons f files ih =>
      simp only [List.map_cons, SortedMap.lookup, ih]
      split <;> rfl

theorem recordsIn_valid :
    recordsIn crc32 (dir.valid crc32).entries = recordsIn crc32 dir.entries := by
  simp [recordsIn, valid, List.flatMap_map, recover_valid]

theorem valid_of_not_torn {file : Bytes} (h : ¬ Torn crc32 file) :
    encodeAll crc32 (recover crc32 file).records = file := by
  have hparses := recover_parses crc32 file
  have hlen : file.length ≤ (recover crc32 file).validLen := by
    by_contra hlt
    exact h (by simpa [Torn, recover] using hlt)
  rw [hparses.bytes, List.take_of_length_le hlen]

theorem map_valid {files : List (Nat × Bytes)} (h : ∀ f ∈ files, ¬ Torn crc32 f.2) :
    files.map (fun f => (f.1, encodeAll crc32 (recover crc32 f.2).records)) = files := by
  calc _ = files.map (fun f => f) := List.map_congr_left (fun f hf => by
          rw [valid_of_not_torn (h f hf)])
    _ = files := List.map_id' files

theorem entries_valid :
    (dir.valid crc32).entries =
      dir.entries.map (fun f => (f.1, encodeAll crc32 (recover crc32 f.2).records)) := rfl

theorem insert_valid {pre : List (Nat × Bytes)} {id : Nat} {last : Bytes}
    (he : dir.entries = pre ++ [(id, last)]) (hpre : ∀ f ∈ pre, ¬ Torn crc32 f.2) :
    dir.insert id (encodeAll crc32 (recover crc32 last).records) = dir.valid crc32 := by
  apply SortedMap.ext_get?
  intro k
  unfold SortedMap.get?
  rw [SortedMap.entries_insert_last he, entries_valid, he, List.map_append, map_valid hpre]
  rfl

end SegmentDir

/-- What an accepted directory is opened as: no file before the last is torn, all records are
reported, and every file is left with its records only. -/
structure Log.Accepts (crc32 : Checksum) (dir : SegmentDir) (log : Log) (report : OpenReport)
    (dir' : SegmentDir) : Prop where
  whole : ∀ f ∈ dir.entries.dropLast, ¬ Torn crc32 f.2
  records : report.records = recordsIn crc32 dir.entries
  torn : report.recoveredFromTornTail = true ↔ ∃ f ∈ dir.entries, Torn crc32 f.2
  nextSeq : log.nextSeq = nextSeqOf report.records
  room : log.nextSeq < 2 ^ 64
  ids : dir'.keys = log.sealedIds ++ [log.activeId]
  active : ∃ file, dir'.get? log.activeId = some file ∧ log.active = ⟨file.length, file.length⟩
  files : dir' = if dir.entries = [] then dir.insert 0 [] else dir.valid crc32

section Directory
variable {dir dir' : SegmentDir} {maxBytes : Nat} {log : Log} {report : OpenReport}

theorem split_torn {files : List (Nat × Bytes)} (h : ¬ ∀ f ∈ files, ¬ Torn crc32 f.2) :
    ∃ pre f post, files = pre ++ f :: post ∧ (∀ g ∈ pre, ¬ Torn crc32 g.2) ∧ Torn crc32 f.2 := by
  induction files with
  | nil => simp at h
  | cons f files ih =>
      by_cases hf : Torn crc32 f.2
      · exact ⟨[], f, files, rfl, by simp, hf⟩
      · have hrest : ¬ ∀ g ∈ files, ¬ Torn crc32 g.2 := by
          intro hall
          exact h (List.forall_mem_cons.mpr ⟨hf, hall⟩)
        obtain ⟨pre, g, post, rfl, hpre, hg⟩ := ih hrest
        exact ⟨f :: pre, g, post, rfl, List.forall_mem_cons.mpr ⟨hf, hpre⟩, hg⟩

/-- A directory with files is accepted in one way only. -/
theorem open_ok {pre : List (Nat × Bytes)} {id : Nat} {last : Bytes}
    (he : dir.entries = pre ++ [(id, last)])
    (hopen : Log.openWithSegmentSize crc32 dir maxBytes = (.ok (log, report), dir')) :
    (∀ f ∈ pre, ¬ Torn crc32 f.2) ∧ nextSeqOf (recordsIn crc32 dir.entries) < 2 ^ 64 ∧
      log = ⟨maxBytes, pre.map Prod.fst, id,
        ⟨(recover crc32 last).validLen, (recover crc32 last).validLen⟩,
        nextSeqOf (recordsIn crc32 dir.entries)⟩ ∧
      report = ⟨recordsIn crc32 dir.entries, (recover crc32 last).hadTornTail⟩ ∧
      dir' = dir.insert id (encodeAll crc32 (recover crc32 last).records) := by
  by_cases hpre : ∀ f ∈ pre, ¬ Torn crc32 f.2
  · rw [open_whole he hpre] at hopen
    obtain ⟨hout, rfl⟩ := Prod.mk.inj hopen
    split_ifs at hout with hfull
    injection hout with hout
    obtain ⟨rfl, rfl⟩ := hout
    exact ⟨hpre, by omega, rfl, rfl, rfl⟩
  · obtain ⟨before, ⟨i, file⟩, after, rfl, hbefore, htorn⟩ := split_torn hpre
    rw [List.append_assoc, List.cons_append] at he
    rw [open_names_torn he (by simp) hbefore htorn] at hopen
    cases hopen

theorem accepts_whole {pre : List (Nat × Bytes)} {id : Nat} {last : Bytes}
    (he : dir.entries = pre ++ [(id, last)]) (hpre : ∀ f ∈ pre, ¬ Torn crc32 f.2)
    (hroom : nextSeqOf (recordsIn crc32 dir.entries) < 2 ^ 64) (maxBytes : Nat) :
    Log.Accepts crc32 dir ⟨maxBytes, pre.map Prod.fst, id,
        ⟨(recover crc32 last).validLen, (recover crc32 last).validLen⟩,
        nextSeqOf (recordsIn crc32 dir.entries)⟩
      ⟨recordsIn crc32 dir.entries, (recover crc32 last).hadTornTail⟩
      (dir.insert id (encodeAll crc32 (recover crc32 last).records)) where
  whole := by simpa [he] using hpre
  records := rfl
  torn := by
    constructor
    · intro htorn
      exact ⟨(id, last), by simp [he], htorn⟩
    · rintro ⟨f, hf, htorn⟩
      rcases List.mem_append.mp (he ▸ hf) with hf | hf
      · exact absurd htorn (hpre f hf)
      · obtain rfl := List.mem_singleton.mp hf
        exact htorn
  nextSeq := rfl
  room := hroom
  ids := by simp [SortedMap.keys, SortedMap.entries_insert_last he]
  active := by
    refine ⟨encodeAll crc32 (recover crc32 last).records, by simp, ?_⟩
    rw [← take_validLen, List.length_take, min_eq_left (recover_parses crc32 last).within]
  files := by
    rw [SegmentDir.insert_valid he hpre, if_neg (by simp [he])]

theorem accepts_empty (he : dir.entries = []) (maxBytes : Nat) :
    Log.Accepts crc32 dir ⟨maxBytes, [], 0, ⟨0, 0⟩, 0⟩ ⟨[], false⟩ (dir.insert 0 []) where
  whole := by simp [he]
  records := by simp [recordsIn, he]
  torn := by simp [he]
  nextSeq := rfl
  room := by norm_num
  ids := by simp [SortedMap.keys, SortedMap.insert, he, SortedMap.insertEntry]
  active := ⟨[], by simp, rfl⟩
  files := by rw [if_pos he]

theorem open_accepts
    (hopen : Log.openWithSegmentSize crc32 dir maxBytes = (.ok (log, report), dir')) :
    log.segmentMaxBytes = maxBytes ∧ Log.Accepts crc32 dir log report dir' := by
  rcases List.eq_nil_or_concat dir.entries with he | ⟨pre, ⟨id, last⟩, he⟩
  · rw [open_empty he] at hopen
    cases hopen
    exact ⟨rfl, accepts_empty he maxBytes⟩
  · rw [List.concat_eq_append] at he
    obtain ⟨hpre, hroom, rfl, rfl, rfl⟩ := open_ok he hopen
    exact ⟨rfl, accepts_whole he hpre hroom maxBytes⟩

/-- A directory that opens is empty or holds a log, with a torn tail at most at its end. -/
theorem holds_of_opens
    (hopen : Log.openWithSegmentSize crc32 dir maxBytes = (.ok (log, report), dir')) :
    ∃ records, Holds crc32 dir none records := by
  rcases List.eq_nil_or_concat dir.entries with hempty | ⟨pre, ⟨id, last⟩, he⟩
  · obtain ⟨entries, hasc⟩ := dir
    cases hempty
    exact ⟨[], .fresh⟩
  rw [List.concat_eq_append] at he
  obtain ⟨hpre, hroom, -, -, -⟩ := open_ok he hopen
  have hparses := recover_parses crc32 last
  have hrecords : (pre.map (fun f => (f.1, (recover crc32 f.2).records))).flatMap Prod.snd ++
      (recover crc32 last).records = recordsIn crc32 dir.entries := by
    simp [he, recordsIn, List.flatMap_map]
  have hdisk : OnDisk crc32 dir (pre.map (fun f => (f.1, (recover crc32 f.2).records))) id
      (recover crc32 last).records (last.drop (recover crc32 last).validLen) := by
    constructor
    · rw [hparses.bytes, List.take_append_drop, List.map_map]
      exact he.trans (congrArg (· ++ [(id, last)]) (SegmentDir.map_valid hpre).symm)
    · intro r hr
      rw [hrecords] at hr
      obtain ⟨f, -, hf⟩ := List.mem_flatMap.mp hr
      exact (recover_parses crc32 f.2).fits r hf
    · rw [hrecords]
      exact hroom
    · exact hparses.stops
  exact ⟨_, .resting hdisk⟩

/-- Whatever was in the directory, a log that was opened is in step with its files. -/
theorem opened_holds
    (hopen : Log.openWithSegmentSize crc32 dir maxBytes = (.ok (log, report), dir')) :
    Holds crc32 dir' (some log) report.records := by
  obtain ⟨records, hrest⟩ := holds_of_opens hopen
  obtain ⟨log₁, torn, dir₁, hopen₁, hholds, -⟩ := hrest.opens maxBytes
  rw [hopen] at hopen₁
  cases hopen₁
  exact hholds

/-- Opening on any files. It fails with the id of the first file before the last that goes on
after its records, and leaves all files as they are; else it leaves every file with its records,
panics when one of them carries the last number, and otherwise reports them. -/
theorem open_any_directory (crc32 : Checksum) (dir : SegmentDir) (maxBytes : Nat) :
    match Log.openWithSegmentSize crc32 dir maxBytes with
    | (.ok (log, report), dir') =>
        log.segmentMaxBytes = maxBytes ∧ Log.Accepts crc32 dir log report dir'
    | (.err e, dir') => dir' = dir ∧
        ∃ pre id file post, dir.entries = pre ++ (id, file) :: post ∧ post ≠ [] ∧
          (∀ f ∈ pre, ¬ Torn crc32 f.2) ∧ Torn crc32 file ∧ e = .sealedSegmentCorrupted id
    | (.panic, dir') => dir' = dir.valid crc32 ∧
        (∀ f ∈ dir.entries.dropLast, ¬ Torn crc32 f.2) ∧
        ∃ r ∈ recordsIn crc32 dir.entries, r.seq = 2 ^ 64 - 1 := by
  rcases List.eq_nil_or_concat dir.entries with he | ⟨pre, ⟨id, last⟩, he⟩
  · rw [open_empty he]
    exact ⟨rfl, accepts_empty he maxBytes⟩
  rw [List.concat_eq_append] at he
  by_cases hpre : ∀ f ∈ pre, ¬ Torn crc32 f.2
  · rw [open_whole he hpre]
    by_cases hfull : 2 ^ 64 ≤ nextSeqOf (recordsIn crc32 dir.entries)
    · rw [if_pos hfull]
      -- the greatest number is one of a record that fits its field
      have hne : recordsIn crc32 dir.entries ≠ [] := by
        intro hnil
        rw [hnil, nextSeqOf_nil] at hfull
        norm_num at hfull
      obtain ⟨r, hr, htop⟩ := exists_top_seq hne
      obtain ⟨f, -, hf⟩ := List.mem_flatMap.mp hr
      have hfits := ((recover_parses crc32 f.2).fits r hf).seq
      exact ⟨SegmentDir.insert_valid he hpre, by simpa [he] using hpre, r, hr, by omega⟩
    · rw [if_neg hfull]
      exact ⟨rfl, accepts_whole he hpre (by omega) maxBytes⟩
  · obtain ⟨before, ⟨i, file⟩, after, rfl, hbefore, htorn⟩ := split_torn hpre
    rw [List.append_assoc, List.cons_append] at he
    rw [open_names_torn he (by simp) hbefore htorn]
    exact ⟨rfl, before, i, file, _, he, by simp, hbefore, htorn, rfl⟩

theorem insert_twice (id : Nat) (file : Bytes) :
    (dir.insert id file).insert id file = dir.insert id file := by
  apply SortedMap.ext_get?
  intro k
  rw [SortedMap.get?_insert, SortedMap.get?_insert]
  split <;> rfl

/-- An opened directory opens again, to the same log, the same records and the same files; the
torn tail is gone. -/
theorem open_twice {maxBytes again : Nat}
    (hopen : Log.openWithSegmentSize crc32 dir maxBytes = (.ok (log, report), dir')) :
    Log.openWithSegmentSize crc32 dir' again =
      (.ok ({ log with segmentMaxBytes := again }, { report with recoveredFromTornTail := false }),
        dir') := by
  rcases List.eq_nil_or_concat dir.entries with he | ⟨pre, ⟨id, last⟩, he⟩
  · rw [open_empty he] at hopen
    cases hopen
    have hentries : (dir.insert 0 []).entries = [] ++ [(0, [])] := by
      simp [SortedMap.insert, he, SortedMap.insertEntry]
    rw [open_whole hentries (by simp)]
    simp [hentries, recordsIn, recover, recoverLoop, insert_twice]
  rw [List.concat_eq_append] at he
  obtain ⟨hpre, hroom, rfl, rfl, rfl⟩ := open_ok he hopen
  have hentries := SortedMap.entries_insert_last he (encodeAll crc32 (recover crc32 last).records)
  have hrecords : recordsIn crc32 (dir.insert id
      (encodeAll crc32 (recover crc32 last).records)).entries = recordsIn crc32 dir.entries := by
    rw [SegmentDir.insert_valid he hpre, SegmentDir.recordsIn_valid]
  rw [open_whole hentries hpre, hrecords, if_neg (not_le.mpr hroom), recover_valid, insert_twice]

set_option maxRecDepth 100000 in
theorem open_twice_after_cut :
    ∃ log report, ∃ dir' : SegmentDir,
      Log.openWithSegmentSize crc32Ieee
          (SortedMap.empty.insert 3 ((Record.put 7 [1] [2]).encode crc32Ieee ++ [9])) 64 =
        (.ok (log, report), dir') ∧
      report.recoveredFromTornTail = true ∧
      Log.openWithSegmentSize crc32Ieee dir' 32 =
        (.ok ({ log with segmentMaxBytes := 32 }, { report with recoveredFromTornTail := false }),
          dir') := by
  have hopen : Log.openWithSegmentSize crc32Ieee
      (SortedMap.empty.insert 3 ((Record.put 7 [1] [2]).encode crc32Ieee ++ [9])) 64 =
        (.ok (⟨64, [], 3, ⟨23, 23⟩, 8⟩, ⟨[Record.put 7 [1] [2]], true⟩),
          SortedMap.empty.insert 3 ((Record.put 7 [1] [2]).encode crc32Ieee)) := by
    decide +kernel
  exact ⟨_, _, _, hopen, rfl, open_twice hopen⟩

end Directory
end Sietch
