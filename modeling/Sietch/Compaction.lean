import Sietch.Store
import Sietch.LogSpec

/-! The stages of a compaction on disk. `kept` says which old segments a crash left
in the main directory once the backup exists: from then on no recovery moves them. -/
namespace Sietch
open ByteString Script

/-- The compacted log: one segment with number 0. -/
def newMain (file : Bytes) : SegmentDir := SortedMap.empty.insert 0 file

/-- The new segment over the old ones that stayed behind. -/
def MergedMain (old : SegmentDir) (file : Bytes) (kept : Nat → Bool) (main : SegmentDir) : Prop :=
  ∀ id, main.get? id = if id = 0 then some file else if kept id then old.get? id else none

structure Building (old : SegmentDir) (d : StoreDir) : Prop where
  main : d.main = old
  backup : d.backup = none
  marker : d.marker = false

structure Committed (old : SegmentDir) (file : Bytes) (d : StoreDir) : Prop where
  main : d.main = old
  tmp : d.tmp = some (newMain file)
  backup : d.backup = none
  marker : d.marker = true

structure Moving (old : SegmentDir) (file : Bytes) (kept : Nat → Bool) (d : StoreDir) : Prop where
  main : ∀ id, d.main.get? id = if kept id then old.get? id else none
  tmp : d.tmp = some (newMain file)
  backup : d.backup.isSome = true
  marker : d.marker = true

structure Installed (old : SegmentDir) (file : Bytes) (kept : Nat → Bool) (d : StoreDir) :
    Prop where
  main : MergedMain old file kept d.main
  tmp : d.tmp = none ∨ d.tmp = some SortedMap.empty ∧ d.backup.isSome = true
  marker : d.marker = true

structure Finished (old : SegmentDir) (file : Bytes) (kept : Nat → Bool) (d : StoreDir) :
    Prop where
  main : MergedMain old file kept d.main
  tmp : d.tmp = none
  backup : d.backup = none
  marker : d.marker = false

/-- A directory in which the set of old segments left behind is settled. -/
def Swapped (old : SegmentDir) (file : Bytes) (kept : Nat → Bool) (d : StoreDir) : Prop :=
  Moving old file kept d ∨ Installed old file kept d ∨ Finished old file kept d

section Removal
variable {l : Listing} {s : ScratchDir} {P Q C : StoreDir → Prop}

theorem removeDirAll_triple (hfile : ∀ d id, P d → P (FsAction.apply (.removeFile s id) d))
    (hdir : ∀ d, P d → Q (FsAction.apply (.removeDir s) d)) (hP : ∀ d, P d → C d)
    (hQ : ∀ d, Q d → C d) : Triple FsAction.apply P (removeDirAll l s) Q C := by
  refine Triple.seq P ?_ ?_
  · refine Triple.each (fun _ _ d => P d) (fun _ h => h) ?_ (fun _ _ _ h => h)
      (fun _ d _ _ _ _ h => hP d h)
    intro _ _ _ id _ d _ h
    exact hfile d id h
  · exact Triple.one hP (fun d h => hQ _ (hdir d h)) hdir

theorem removeDirIfExists_triple
    (hfile : ∀ d id, P d → P (FsAction.apply (.removeFile s id) d))
    (hdir : ∀ d, P d → Q (FsAction.apply (.removeDir s) d))
    (hnone : ∀ d, P d → d.scratch s = none → Q d) (hP : ∀ d, P d → C d) (hQ : ∀ d, Q d → C d) :
    Triple FsAction.apply P (removeDirIfExists l s) Q C := by
  refine Triple.cond ?_ ?_
  · exact (removeDirAll_triple hfile hdir hP hQ).weaken (fun _ h => h.1) (fun _ h => h)
      (fun _ h => h)
  · refine Triple.skip ?_ (fun d h => hP d h.1)
    rintro d ⟨h, hs⟩
    exact hnone d h (by simpa [StoreDir.has] using hs)

end Removal

section Finish
variable {old : SegmentDir} {file : Bytes} {kept : Nat → Bool} {l : Listing}

theorem erase_empty (id : Nat) : (SortedMap.empty : SegmentDir).erase id = SortedMap.empty := rfl

theorem removeMarker_triple :
    Triple FsAction.apply
      (fun d => Installed old file kept d ∧ d.tmp = none ∧ d.backup = none)
      removeMarkerIfExists (Finished old file kept) (Swapped old file kept) := by
  refine Triple.cond ?_ ?_
  · refine Triple.one (fun d h => .inr (.inl h.1.1)) (fun d h => .inr (.inr ?_)) (fun d h => ?_)
    · exact ⟨h.1.1.main, h.1.2.1, h.1.2.2, rfl⟩
    · exact ⟨h.1.1.main, h.1.2.1, h.1.2.2, rfl⟩
  · intro d h
    rw [h.1.1.marker] at h
    cases h.2

theorem cleanUpCompaction_triple :
    Triple FsAction.apply (Installed old file kept) (cleanUpCompaction l)
      (Finished old file kept) (Swapped old file kept) := by
  have hinst : ∀ d, Installed old file kept d → Swapped old file kept d := fun d h => .inr (.inl h)
  refine Triple.seq (fun d => Installed old file kept d ∧ d.tmp = none) ?_
    (Triple.seq (fun d => Installed old file kept d ∧ d.tmp = none ∧ d.backup = none) ?_
      removeMarker_triple)
  · refine removeDirIfExists_triple ?_ ?_ (fun d h ht => ⟨h, ht⟩) hinst (fun d h => hinst d h.1)
    · intro d id h
      refine ⟨h.main, ?_, h.marker⟩
      rcases h.tmp with ht | ⟨ht, hb⟩
      · exact .inl (by simp [FsAction.apply, StoreDir.setScratch, StoreDir.scratch, ht])
      · refine .inr ⟨?_, hb⟩
        simp [FsAction.apply, StoreDir.setScratch, StoreDir.scratch, ht, erase_empty]
    · intro d h
      exact ⟨⟨h.main, .inl rfl, h.marker⟩, rfl⟩
  · refine removeDirIfExists_triple ?_ ?_ (fun d h hb => ⟨h.1, h.2, hb⟩) (fun d h => hinst d h.1)
      (fun d h => hinst d h.1)
    · intro d id h
      exact ⟨⟨h.1.main, .inl h.2, h.1.marker⟩, h.2⟩
    · intro d h
      exact ⟨⟨h.1.main, .inl h.2, h.1.marker⟩, h.2, rfl⟩

theorem newMain_keys (file : Bytes) : (newMain file).keys = [0] := rfl

theorem Moving.installLoop_keys {d : StoreDir} (h : Moving old file kept d) (hl : l.Fair) :
    l.installLoop (d.tmp.elim [] SortedMap.keys) = [0] := by
  rw [h.tmp, Option.elim_some, newMain_keys]
  exact List.perm_singleton.mp (hl.installLoop [0])

/-- Moving the new segment in replaces an old segment 0 that stayed behind. -/
theorem installNewSegments_triple (hl : l.Fair) :
    Triple FsAction.apply (Moving old file kept) (installNewSegments l)
      (Installed old file kept) (Swapped old file kept) := by
  refine Triple.cond ?_ ?_
  · refine Triple.each (fun _ done d =>
        (done = [] → Moving old file kept d) ∧ (done = [0] → Installed old file kept d))
      (fun d h => ⟨fun _ => h.1, fun h => by cases h⟩) ?_ ?_ ?_
    · intro d h done id rest t hids hinv
      rw [h.1.installLoop_keys hl] at hids
      obtain ⟨rfl, rfl, rfl⟩ : done = [] ∧ id = 0 ∧ rest = [] := by
        cases done with
        | nil => simpa using hids.symm
        | cons a done => simp at hids
      have ht := hinv.1 rfl
      refine ⟨fun h => (by cases h), fun _ => ?_⟩
      have hget : (newMain file).get? 0 = some file := rfl
      have herase : (newMain file).erase 0 = SortedMap.empty := rfl
      simp only [FsAction.apply, ht.tmp, Option.bind_some, hget, Option.map_some, herase]
      refine ⟨fun id => ?_, .inr ⟨rfl, ht.backup⟩, ht.marker⟩
      rw [SortedMap.get?_insert, ht.main]
    · intro d t h hinv
      exact hinv.2 (h.1.installLoop_keys hl)
    · intro d t done rest h hids hinv
      rw [h.1.installLoop_keys hl] at hids
      cases done with
      | nil => exact .inl (hinv.1 rfl)
      | cons a done =>
          obtain ⟨rfl, rfl, rfl⟩ : a = 0 ∧ done = [] ∧ rest = [] := by simpa using hids.symm
          exact .inr (.inl (hinv.2 rfl))
  · intro d h
    have := h.2
    simp [StoreDir.has, StoreDir.scratch, h.1.tmp] at this

/-- Moving the old segments out; a crash inside leaves those not listed yet. -/
theorem backupLoop_triple (hl : l.Fair) :
    Triple FsAction.apply (Moving old file (fun _ => true))
      (each (fun d => l.backupLoop d.main.keys) FsAction.backupSegment)
      (Moving old file (fun _ => false)) (fun d => ∃ kept, Moving old file kept d) := by
  refine Triple.each (fun _ done d => Moving old file (fun id => decide (id ∉ done)) d)
    (fun d h => ?_) ?_ ?_ (fun _ d _ _ _ _ h => ⟨_, h⟩)
  · simpa using h
  · intro _ _ done id _ d _ h
    have hmove : ∀ j, (d.main.erase id).get? j =
        if decide (j ∉ done ++ [id]) then old.get? j else none := by
      intro j
      by_cases hj : j = id
      · simp [hj]
      · simp [hj, h.main j]
    simp only [FsAction.apply]
    split
    · rename_i file' hfile
      exact ⟨hmove, h.tmp, by simpa using h.backup, h.marker⟩
    · rename_i hnone
      refine ⟨fun j => ?_, h.tmp, h.backup, h.marker⟩
      rw [← hmove, SortedMap.get?_erase]
      split
      · rename_i hj
        rw [hj, hnone]
      · rfl
  · intro d t h hinv
    refine ⟨fun id => ?_, hinv.tmp, hinv.backup, hinv.marker⟩
    rw [hinv.main]
    by_cases hid : id ∈ l.backupLoop d.main.keys
    · simp [hid]
    · have hkeys : id ∉ d.main.keys := fun hm => hid ((hl.backupLoop _).mem_iff.mpr hm)
      have hnone : old.get? id = none := by
        rw [SortedMap.mem_keys, h.main id] at hkeys
        cases ho : old.get? id with
        | none => rfl
        | some f => exact absurd ⟨f, by simpa using ho⟩ hkeys
      simp [hnone]

theorem installedAgain_triple (hl : l.Fair) :
    Triple FsAction.apply (Installed old file kept) (installNewSegments l)
      (Installed old file kept) (Swapped old file kept) := by
  refine Triple.cond (Triple.each (fun _ _ d => Installed old file kept d) (fun _ h => h.1) ?_
    (fun _ _ _ h => h) (fun _ _ _ _ _ _ h => .inr (.inl h)))
    (Triple.skip (fun _ h => h.1) (fun _ h => .inr (.inl h.1)))
  intro d h done id rest t hids _
  have hempty : d.tmp.elim [] SortedMap.keys = [] := by
    rcases h.1.tmp with ht | ⟨ht, -⟩
    · rw [ht]
      rfl
    · rw [ht]
      rfl
  rw [hempty, List.perm_nil.mp (hl.installLoop [])] at hids
  simp at hids

/-- Finishing from the stages in which the backup exists. -/
theorem finishSwapped_triple (hl : l.Fair) :
    Triple FsAction.apply (fun d => Moving old file kept d ∨ Installed old file kept d)
      (finishPendingCompaction l) (Finished old file kept) (Swapped old file kept) := by
  have hswapped : ∀ d, Moving old file kept d ∨ Installed old file kept d →
      Swapped old file kept d := fun d h => h.imp_right .inl
  refine Triple.cond ?_ (Triple.seq (fun d => Moving old file kept d ∨ Installed old file kept d) ?_
    (Triple.seq (Installed old file kept)
      ((installNewSegments_triple hl).either (installedAgain_triple hl)) cleanUpCompaction_triple))
  · refine removeMarker_triple.weaken ?_ (fun _ h => h) (fun _ h => h)
    rintro d ⟨h, hb⟩
    have hnone : d.tmp = none ∧ d.backup = none := by
      simpa [StoreDir.has, StoreDir.scratch] using hb
    rcases h with h | h
    · rw [h.tmp] at hnone
      cases hnone.1
    · exact ⟨h, hnone⟩
  · -- the backup exists, so step 1 is skipped
    refine Triple.cond (Triple.skip (fun _ h => h.1.1) (fun d h => hswapped d h.1.1)) ?_
    rintro d ⟨⟨h, hany⟩, hb⟩
    have hbackup : d.backup.isSome = false := hb
    rcases h with h | h
    · rw [h.backup] at hbackup
      cases hbackup
    · rcases h.tmp with ht | ⟨-, hsome⟩
      · have hsome : d.backup.isSome = true := by
          simpa [StoreDir.has, StoreDir.scratch, ht] using hany
        rw [hsome] at hbackup
        cases hbackup
      · rw [hsome] at hbackup
        cases hbackup

/-- The states a crash in the swap can leave: only the loop that moves the old segments
out leaves some of them behind. -/
def Swapping (old : SegmentDir) (file : Bytes) (d : StoreDir) : Prop :=
  Committed old file d ∨ (∃ kept, Moving old file kept d) ∨ Swapped old file (fun _ => false) d

/-- Finishing from the commit point: every old segment is moved out. -/
theorem finishCommitted_triple (hl : l.Fair) :
    Triple FsAction.apply (Committed old file) (finishPendingCompaction l)
      (Finished old file (fun _ => false)) (Swapping old file) := by
  have hswapped : ∀ d, Swapped old file (fun _ => false) d → Swapping old file d :=
    fun _ h => .inr (.inr h)
  have hcreate : ∀ d, Committed old file d →
      Moving old file (fun _ => true) (FsAction.apply (.createDir .backup) d) := fun d h =>
    ⟨fun id => by simp [FsAction.apply, StoreDir.setScratch, h.main],
      h.tmp, rfl, h.marker⟩
  refine Triple.cond ?_ (Triple.seq (Moving old file (fun _ => false)) (Triple.cond ?_ ?_)
    (Triple.seq (Installed old file (fun _ => false))
      ((installNewSegments_triple hl).weaken (fun _ h => h) (fun _ h => h) hswapped)
      (cleanUpCompaction_triple.weaken (fun _ h => h) (fun _ h => h) hswapped)))
  · rintro d ⟨h, hb⟩
    simp [StoreDir.has, StoreDir.scratch, h.tmp] at hb
  · rintro d ⟨⟨h, -⟩, hb⟩
    simp [StoreDir.has, StoreDir.scratch, h.backup] at hb
  · refine Triple.seq (Moving old file (fun _ => true))
      (Triple.one (fun _ h => .inl h.1.1) (fun d h => .inr (.inl ⟨_, hcreate d h.1.1⟩))
        (fun d h => hcreate d h.1.1)) ?_
    exact (backupLoop_triple hl).weaken (fun _ h => h) (fun _ h => h) (fun _ h => .inr (.inl h))

end Finish

section Build
variable {old : SegmentDir} {crc32 : Checksum} {records : List Record} {l : Listing}

/-- `Log::open` on a new directory and its log. -/
theorem openDefault_empty (crc32 : Checksum) :
    Log.openDefault crc32 SortedMap.empty =
      (.ok (⟨defaultSegmentMaxBytes, [], 0, ⟨0, 0⟩, 0⟩, ⟨[], false⟩), newMain []) := rfl

/-- Appending the retained records to the new log writes them to segment 0. -/
theorem appendVerbatim_files (crc32 : Checksum) (records : List Record) (n : Nat) :
    (Log.appendRecordsVerbatim crc32 (.writeFails n) (newMain [])
      ⟨defaultSegmentMaxBytes, [], 0, ⟨0, 0⟩, 0⟩ records).2.2 =
      newMain ((encodeAll crc32 records).take n) := by
  by_cases hr : records = []
  · simp [Log.appendRecordsVerbatim, hr]
  · have hfile : (newMain []).get? 0 = some [] := rfl
    have hdisk := (Segment.appendBatch_disk crc32 hfile
      (s := ⟨0, 0⟩) rfl (.writeFails n) records).1
    have hproj : (Log.appendRecordsVerbatim crc32 (.writeFails n) (newMain [])
        ⟨defaultSegmentMaxBytes, [], 0, ⟨0, 0⟩, 0⟩ records).2.2 =
        (Segment.appendBatch crc32 (.writeFails n) (newMain []) 0 ⟨0, 0⟩ records).2.2 := by
      simp only [Log.appendRecordsVerbatim, if_neg hr, Log.rollOverIfNeeded, Segment.isEmpty,
        decide_true, true_or, if_true]
      split
      · rename_i he
        split
        · rw [he]
        · rw [he]
      · rename_i he
        rw [he]
      · rename_i he
        rw [he]
    rw [hproj, hdisk]
    rfl

theorem writeTmpLog_triple :
    Triple FsAction.apply (fun d => Building old d ∧ d.tmp = some SortedMap.empty)
      (writeTmpLog crc32 records)
      (fun d => Building old d ∧ d.tmp = some (newMain (encodeAll crc32 records)))
      (Building old) := by
  have hwrites : ∀ (fs : List SegmentDir) d, Building old d →
      Building old (exec FsAction.apply (fs.map (FsAction.writeLog .tmp)) d) := by
    intro fs
    induction fs with
    | nil => exact fun _ h => h
    | cons f fs ih =>
        intro d h
        exact ih _ ⟨h.main, h.backup, h.marker⟩
  rintro d ⟨h, ht⟩
  let files := newMain [] :: (List.range (records.length + 1)).map (fun n =>
    newMain ((encodeAll crc32 records).take (Log.totalLen (records.take n))))
  have hscript : writeTmpLog crc32 records d = files.map (FsAction.writeLog .tmp) := by
    simp only [writeTmpLog, ht, Option.getD_some, openDefault_empty, appendVerbatim_files, files,
      List.map_cons, List.map_map]
    rfl
  have hlast : files = newMain [] :: (List.range records.length).map (fun n =>
      newMain ((encodeAll crc32 records).take (Log.totalLen (records.take n)))) ++
      [newMain (encodeAll crc32 records)] := by
    simp only [files, List.range_succ, List.map_append, List.map_cons, List.map_nil,
      List.take_length, Log.totalLen_eq crc32, List.cons_append]
  refine ⟨⟨?_, ?_⟩, ?_⟩
  · rw [final, hscript]
    exact hwrites _ _ h
  · rw [final, hscript, hlast, List.map_append, exec_append]
    rfl
  · rintro t ⟨n, rfl⟩
    rw [hscript, ← List.map_take]
    exact hwrites _ _ h

theorem buildTmp_triple :
    Triple FsAction.apply (Building old) (buildTmp crc32 l records)
      (fun d => Building old d ∧ d.tmp = some (newMain (encodeAll crc32 records)))
      (Building old) := by
  refine Triple.seq (fun d => Building old d ∧ d.tmp = none) ?_
    (Triple.seq (fun d => Building old d ∧ d.tmp = some SortedMap.empty) ?_ writeTmpLog_triple)
  · exact removeDirIfExists_triple (fun _ _ h => ⟨h.main, h.backup, h.marker⟩)
      (fun _ h => ⟨⟨h.main, h.backup, h.marker⟩, rfl⟩) (fun _ h ht => ⟨h, ht⟩) (fun _ h => h)
      (fun _ h => h.1)
  · refine Triple.one (fun _ h => h.1) (fun _ h => ⟨h.1.main, h.1.backup, h.1.marker⟩)
      (fun d h => ⟨⟨h.1.main, h.1.backup, h.1.marker⟩, ?_⟩)
    simp [FsAction.apply, StoreDir.setScratch, StoreDir.scratch, h.2]

/-- A property of the directory that its placeholder does not touch. -/
def IgnoresPlaceholder (P : StoreDir → Prop) : Prop :=
  ∀ d files, P d → P { d with placeholder := files }

theorem buildPlaceholder_triple {P : StoreDir → Prop} (hP : IgnoresPlaceholder P) :
    Triple FsAction.apply P (buildPlaceholder crc32 l) P P := by
  refine Triple.seq P ?_ (Triple.seq P ?_ ?_)
  · exact removeDirIfExists_triple (fun d _ h => hP d _ h) (fun d h => hP d _ h)
      (fun _ h _ => h) (fun _ h => h) (fun _ h => h)
  · exact Triple.one (fun _ h => h) (fun d h => hP d _ h) (fun d h => hP d _ h)
  · intro d h
    have hone : ∀ files, P (FsAction.apply (.writeLog .placeholder files) d) := fun _ => hP d _ h
    simp only [final, Script.Cut, openPlaceholderLog]
    split
    · refine ⟨hone _, ?_⟩
      rintro t ⟨n, rfl⟩
      cases n with
      | zero => exact h
      | succ n => simpa [exec] using hone _
    · refine ⟨h, ?_⟩
      rintro t ⟨n, rfl⟩
      simpa [exec] using h

theorem removePlaceholder_triple {P : StoreDir → Prop} (hP : IgnoresPlaceholder P) :
    Triple FsAction.apply P (removeDirAll l .placeholder) (fun d => P d ∧ d.placeholder = none) P :=
  removeDirAll_triple (fun d _ h => hP d _ h) (fun d h => ⟨hP d _ h, rfl⟩) (fun _ h => h)
    (fun _ h => h.1)

theorem removePlaceholderIfExists_triple {P : StoreDir → Prop} (hP : IgnoresPlaceholder P) :
    Triple FsAction.apply P (removeDirIfExists l .placeholder)
      (fun d => P d ∧ d.placeholder = none) P :=
  removeDirIfExists_triple (fun d _ h => hP d _ h) (fun d h => ⟨hP d _ h, rfl⟩)
    (fun _ h hn => ⟨h, hn⟩) (fun _ h => h) (fun _ h => h.1)

theorem committed_ignores (file : Bytes) : IgnoresPlaceholder (Committed old file) :=
  fun _ _ h => ⟨h.main, h.tmp, h.backup, h.marker⟩

theorem building_ignores : IgnoresPlaceholder (fun d => Building old d ∧ d.tmp = none) :=
  fun _ _ h => ⟨⟨h.1.main, h.1.backup, h.1.marker⟩, h.2⟩

theorem finished_ignores (file : Bytes) (kept : Nat → Bool) :
    IgnoresPlaceholder (Finished old file kept) :=
  fun _ _ h => ⟨h.main, h.tmp, h.backup, h.marker⟩

/-- The states a crash inside a compaction can leave. -/
def Interrupted (old : SegmentDir) (file : Bytes) (d : StoreDir) : Prop :=
  Building old d ∨ Swapping old file d

theorem compactSwap_triple (hl : l.Fair) :
    Triple FsAction.apply (Building old) (compactSwap crc32 l records)
      (Finished old (encodeAll crc32 records) (fun _ => false))
      (Interrupted old (encodeAll crc32 records)) := by
  refine Triple.seq (fun d => Building old d ∧ d.tmp = some (newMain (encodeAll crc32 records)))
    (buildTmp_triple.weaken (fun _ h => h) (fun _ h => h) (fun _ h => .inl h)) ?_
  refine Triple.seq (Committed old (encodeAll crc32 records)) ?_
    (Triple.seq (Committed old (encodeAll crc32 records)) ?_ ?_)
  · exact Triple.one (fun _ h => .inl h.1)
      (fun _ h => .inr (.inl ⟨h.1.main, h.2, h.1.backup, rfl⟩))
      (fun _ h => ⟨h.1.main, h.2, h.1.backup, rfl⟩)
  · exact (buildPlaceholder_triple (committed_ignores _)).weaken (fun _ h => h) (fun _ h => h)
      (fun _ h => .inr (.inl h))
  · exact (finishCommitted_triple hl).weaken (fun _ h => h) (fun _ h => h) (fun _ h => .inr h)

end Build

section Open
variable {old : SegmentDir} {file : Bytes} {kept : Nat → Bool} {crc32 : Checksum} {l : Listing}

/-- A log whose files are all whole: opening it changes nothing on disk. -/
def OpensAsIs (crc32 : Checksum) (main : SegmentDir) : Prop :=
  ∃ log report, Log.openDefault crc32 main = (.ok (log, report), main)

theorem openMainLog_triple {P : StoreDir → Prop} (hopen : ∀ d, P d → OpensAsIs crc32 d.main) :
    Triple FsAction.apply P (openMainLog crc32) P P := by
  intro d h
  obtain ⟨log, report, ho⟩ := hopen d h
  have hsame : FsAction.apply (.writeMain d.main) d = d := rfl
  simp only [final, Script.Cut, openMainLog, ho]
  refine ⟨by simpa only [exec, List.foldl_cons, List.foldl_nil, hsame] using h, ?_⟩
  rintro t ⟨n, rfl⟩
  cases n with
  | zero => exact h
  | succ n => simpa only [List.take_succ_cons, List.take_nil, exec, List.foldl_cons,
      List.foldl_nil, hsame] using h

/-- Without a marker the unfinished compaction is discarded. -/
theorem settleBuilding_triple :
    Triple FsAction.apply (Building old) (finishOrDiscardPendingCompaction l)
      (fun d => d.main = old ∧ d.Clean) (Building old) := by
  refine Triple.seq (fun d => Building old d ∧ d.tmp = none) (Triple.cond ?_ ?_)
    ((removePlaceholderIfExists_triple building_ignores).weaken (fun _ h => h)
      (fun d h => ⟨h.1.1.main, h.1.2, h.1.1.backup, h.2, h.1.1.marker⟩) (fun _ h => h.1))
  · rintro d ⟨h, hm⟩
    rw [h.marker] at hm
    cases hm
  · exact removeDirIfExists_triple (fun _ _ h => ⟨⟨h.1.main, h.1.backup, h.1.marker⟩, h.2⟩)
      (fun _ h => ⟨⟨h.1.main, h.1.backup, h.1.marker⟩, rfl⟩) (fun _ h ht => ⟨h.1, ht⟩)
      (fun _ h => h.1) (fun _ h => h.1)

/-- After a finished swap only the placeholder is left to remove. -/
theorem removeLastPlaceholder_triple :
    Triple FsAction.apply (Finished old file kept) (removeDirIfExists l .placeholder)
      (fun d => MergedMain old file kept d.main ∧ d.Clean) (Finished old file kept) :=
  (removePlaceholderIfExists_triple (finished_ignores file kept)).weaken (fun _ h => h)
    (fun _ h => ⟨h.1.main, h.1.tmp, h.1.backup, h.2, h.1.marker⟩) (fun _ h => h)

theorem settleSwapped_triple (hl : l.Fair) :
    Triple FsAction.apply (Swapped old file kept) (finishOrDiscardPendingCompaction l)
      (fun d => MergedMain old file kept d.main ∧ d.Clean) (Swapped old file kept) := by
  refine Triple.seq (Finished old file kept) (Triple.cond ?_ ?_)
    (removeLastPlaceholder_triple.weaken (fun _ h => h) (fun _ h => h) (fun _ h => .inr (.inr h)))
  · refine (finishSwapped_triple hl).weaken ?_ (fun _ h => h) (fun _ h => h)
    rintro d ⟨h | h | h, hm⟩
    · exact .inl h
    · exact .inr h
    · rw [h.marker] at hm
      cases hm
  · refine (removeDirIfExists_triple (P := Finished old file kept) ?_ ?_ (fun _ h _ => h)
      (fun _ h => .inr (.inr h)) (fun _ h => .inr (.inr h))).weaken ?_ (fun _ h => h) (fun _ h => h)
    · intro d id h
      refine ⟨h.main, ?_, h.backup, h.marker⟩
      simp [FsAction.apply, StoreDir.setScratch, StoreDir.scratch, h.tmp]
    · exact fun d h => ⟨h.main, rfl, h.backup, h.marker⟩
    · rintro d ⟨h | h | h, hm⟩
      · rw [h.marker] at hm
        cases hm
      · rw [h.marker] at hm
        cases hm
      · exact h

theorem settleCommitted_triple (hl : l.Fair) :
    Triple FsAction.apply (Committed old file) (finishOrDiscardPendingCompaction l)
      (fun d => MergedMain old file (fun _ => false) d.main ∧ d.Clean) (Swapping old file) := by
  refine Triple.seq (Finished old file (fun _ => false)) (Triple.cond ?_ ?_)
    (removeLastPlaceholder_triple.weaken (fun _ h => h) (fun _ h => h)
      (fun _ h => .inr (.inr (.inr (.inr h)))))
  · exact (finishCommitted_triple hl).weaken (fun _ h => h.1) (fun _ h => h) (fun _ h => h)
  · rintro d ⟨h, hm⟩
    rw [h.marker] at hm
    cases hm

/-- `Store::open` adds nothing to the disk when the settled log is whole. -/
theorem open_triple {P Q C : StoreDir → Prop}
    (hsettle : Triple FsAction.apply P (finishOrDiscardPendingCompaction l) Q C)
    (hopen : ∀ d, Q d → OpensAsIs crc32 d.main) (hC : ∀ d, Q d → C d) :
    Triple FsAction.apply P (openScript crc32 l) Q C :=
  Triple.seq Q hsettle ((openMainLog_triple hopen).weaken (fun _ h => h) (fun _ h => h) hC)

theorem building_of_clean {d : StoreDir} (h : d.main = old ∧ d.Clean) : Building old d :=
  ⟨h.1, h.2.2.1, h.2.2.2.2⟩

theorem finished_of_clean {d : StoreDir} (h : MergedMain old file kept d.main ∧ d.Clean) :
    Finished old file kept d := ⟨h.1, h.2.1, h.2.2.1, h.2.2.2.2⟩

/-- A compaction that is not interrupted leaves the new log alone in a clean
directory; cut anywhere it leaves one of the stages. -/
theorem compactScript_triple {records : List Record} (hl : l.Fair)
    (hopen : ∀ main, MergedMain old (encodeAll crc32 records) (fun _ => false) main →
      OpensAsIs crc32 main) :
    Triple FsAction.apply (Building old) (compactScript crc32 l records)
      (fun d => MergedMain old (encodeAll crc32 records) (fun _ => false) d.main ∧ d.Clean)
      (Interrupted old (encodeAll crc32 records)) := by
  have hcrash : ∀ d, Finished old (encodeAll crc32 records) (fun _ => false) d →
      Interrupted old (encodeAll crc32 records) d :=
    fun _ h => .inr (.inr (.inr (.inr (.inr h))))
  refine Triple.seq _ (compactSwap_triple hl) (Triple.seq _
    ((openMainLog_triple (fun d h => hopen _ h.main)).weaken (fun _ h => h) (fun _ h => h) hcrash)
    ((removePlaceholder_triple (finished_ignores _ _)).weaken (fun _ h => h) ?_ hcrash))
  exact fun d h => ⟨h.1.main, h.1.tmp, h.1.backup, h.2, h.1.marker⟩

theorem mergedMain_none {main : SegmentDir} (h : MergedMain old file (fun _ => false) main) :
    main = newMain file := by
  refine SortedMap.ext_get? (fun id => ?_)
  rw [h id, newMain, SortedMap.get?_insert]
  simp

end Open
end Sietch
