import Sietch.LogDamage
import Sietch.LogOpen

/-! The files of a log over whole runs, crashes included: written bytes stay where they are, and
the segments are numbered without a gap, each full before the next one is begun. -/
namespace Sietch
open ByteString Transition

section Where
variable {crc32 : Checksum} {dir : SegmentDir} {log : Log} {old : List (Nat × List Record)}
  {active : List Record}

def Io.granted (crc32 : Checksum) (io : Io) (records : List Record) : Bytes :=
  (encodeAll crc32 records).take (io.budget (encodeAll crc32 records).length)

theorem Log.appendBatch_files (crc32 : Checksum) (io : Io) {ops : List LogOp} {log' : Log}
    {dir' : SegmentDir} (hn : log.nextSeq + ops.length < 2 ^ 64)
    (hroll : log.rollOverIfNeeded dir (Log.totalLen (Log.numberRecords log.nextSeq ops)) =
      (log', dir')) :
    (log.appendBatch crc32 io dir ops).2.2 = (Segment.appendBatch crc32 io dir' log'.activeId
      log'.active (Log.numberRecords log.nextSeq ops)).2.2 := by
  simp only [Log.appendBatch, if_neg (not_le.mpr hn), hroll]
  split <;> rename_i he <;> simp only [he]

/-- A batch goes to the end of the active file if that is empty or has room for all of it, and
to a new file otherwise. -/
theorem Running.append_where (h : Running crc32 dir log old active) (io : Io) (ops : List LogOp)
    (hn : log.nextSeq + ops.length < 2 ^ 64) :
    let records := Log.numberRecords log.nextSeq ops
    ((active = [] ∨ (encodeAll crc32 (active ++ records)).length ≤ log.segmentMaxBytes) ∧
        (log.appendBatch crc32 io dir ops).2.2 =
          dir.insert log.activeId (encodeAll crc32 active ++ io.granted crc32 records)) ∨
      (active ≠ [] ∧ (log.appendBatch crc32 io dir ops).2.2 =
        dir.insert (log.activeId + 1) (io.granted crc32 records)) := by
  intro records
  have hempty : log.active.isEmpty = true ↔ active = [] := by
    simp [Segment.isEmpty, h.len, encodeAll_eq_nil]
  have hroom : log.active.len + Log.totalLen records =
      (encodeAll crc32 (active ++ records)).length := by
    rw [encodeAll_append, List.length_append, h.len, Log.totalLen_eq crc32]
  by_cases hstay : log.active.isEmpty = true ∨
      log.active.len + Log.totalLen records ≤ log.segmentMaxBytes
  · have hroll : log.rollOverIfNeeded dir (Log.totalLen records) = (log, dir) := by
      rw [Log.rollOverIfNeeded, if_pos hstay]
    rw [hempty, hroom] at hstay
    refine .inl ⟨hstay, (Log.appendBatch_files crc32 io hn hroll).trans ?_⟩
    exact (Segment.appendBatch_disk crc32 h.file h.pos io records).1
  · have hfile : setLen ((dir.get? (log.activeId + 1)).getD []) 0 = [] := by simp [setLen]
    have hroll : log.rollOverIfNeeded dir (Log.totalLen records) =
        (⟨log.segmentMaxBytes, log.sealedIds ++ [log.activeId], log.activeId + 1, ⟨0, 0⟩,
          log.nextSeq⟩, dir.insert (log.activeId + 1) []) := by
      rw [Log.rollOverIfNeeded, if_neg hstay]
      simp only [Segment.openForAppend, hfile]
    rw [hempty, not_or] at hstay
    have hnew : (dir.insert (log.activeId + 1) []).get? (log.activeId + 1) = some [] := by simp
    refine .inr ⟨hstay.1, (Log.appendBatch_files crc32 io hn hroll).trans ?_⟩
    have hdisk := (Segment.appendBatch_disk crc32 hnew (rfl : (⟨0, 0⟩ : Segment).pos = 0) io
      records).1
    rw [hdisk]
    apply SortedMap.ext_get?
    intro k
    simp only [SortedMap.get?_insert, List.nil_append]
    split <;> rfl

end Where

/-- What later steps leave of a directory: every file is there, beginning with the records that
it began with, and the files before the last one are as they were. -/
def OnlyGrows (crc32 : Checksum) (dir dir' : SegmentDir) : Prop :=
  ∀ id file, dir.get? id = some file → ∃ file', dir'.get? id = some file' ∧
    encodeAll crc32 (recover crc32 file).records <+: file' ∧
    ((∃ later ∈ dir.keys, id < later) → file' = file)

namespace OnlyGrows
variable {crc32 : Checksum} {dir dir' dir'' : SegmentDir}

theorem refl (dir : SegmentDir) : OnlyGrows crc32 dir dir := by
  intro id file hfile
  exact ⟨file, hfile, encoded_prefix_file file, fun _ => rfl⟩

theorem trans (h : OnlyGrows crc32 dir dir') (h' : OnlyGrows crc32 dir' dir'') :
    OnlyGrows crc32 dir dir'' := by
  intro id file hfile
  obtain ⟨file', hfile', hgrown, hsame⟩ := h id file hfile
  obtain ⟨file'', hfile'', hgrown', hsame'⟩ := h' id file' hfile'
  refine ⟨file'', hfile'', ?_, ?_⟩
  · -- the records at the start of a file are read again from every extension of them
    obtain ⟨rest, rfl⟩ := hgrown
    have hfits := (recover_parses crc32 file).fits
    obtain ⟨fuel, hrecords⟩ := recover_records_append crc32 hfits rest
    refine List.IsPrefix.trans ?_ hgrown'
    rw [hrecords, encodeAll_append]
    exact List.prefix_append _ _
  · rintro ⟨later, hlater, hlt⟩
    have hkept : later ∈ dir'.keys := by
      obtain ⟨other, hother⟩ := SortedMap.mem_keys.mp hlater
      obtain ⟨other', hother', -⟩ := h later other hother
      exact SortedMap.mem_keys.mpr ⟨other', hother'⟩
    rw [hsame' ⟨later, hkept, hlt⟩, hsame ⟨later, hlater, hlt⟩]

theorem opened {maxBytes : Nat} {log : Log} {report : OpenReport}
    (hopen : Log.openWithSegmentSize crc32 dir maxBytes = (.ok (log, report), dir')) :
    OnlyGrows crc32 dir dir' := by
  intro id file hfile
  have hmem := SortedMap.mem_entries.mpr hfile
  rcases List.eq_nil_or_concat dir.entries with he | ⟨pre, ⟨lastId, last⟩, he⟩
  · rw [he] at hmem
    cases hmem
  rw [List.concat_eq_append] at he
  obtain ⟨-, -, -, -, rfl⟩ := open_ok he hopen
  have hasc := dir.ascending
  rw [he] at hasc hmem
  rcases List.mem_append.mp hmem with hpre | hlast
  · have hne : id ≠ lastId :=
      ((List.pairwise_append.mp hasc).2.2 (id, file) hpre (lastId, last) (by simp)).ne
    refine ⟨file, ?_, encoded_prefix_file file, fun _ => rfl⟩
    rw [SortedMap.get?_insert, if_neg hne, hfile]
  · cases List.mem_singleton.mp hlast
    refine ⟨_, by rw [SortedMap.get?_insert, if_pos rfl], List.prefix_rfl, ?_⟩
    rintro ⟨later, hlater, hlt⟩
    exact absurd hlt (not_lt.mpr (SortedMap.le_last he hlater))

/-- An append call adds bytes at the end of the last file or in a new one, however far it
gets. -/
theorem appended {log : Log} {old : List (Nat × List Record)} {active : List Record}
    (h : Running crc32 dir log old active) (io : Io) (ops : List LogOp) :
    OnlyGrows crc32 dir (log.appendBatch crc32 io dir ops).2.2 := by
  by_cases hn : log.nextSeq + ops.length < 2 ^ 64
  · intro id file hfile
    have hkey : id ∈ dir.keys := SortedMap.mem_keys.mpr ⟨file, hfile⟩
    have hle : id ≤ log.activeId := SortedMap.le_last h.disk.entries hkey
    rcases h.append_where io ops hn with ⟨-, hdir⟩ | ⟨-, hdir⟩
    · rw [hdir, SortedMap.get?_insert]
      by_cases hid : id = log.activeId
      · subst hid
        rw [h.file] at hfile
        cases hfile
        refine ⟨_, if_pos rfl, (encoded_prefix_file _).trans (List.prefix_append _ _), ?_⟩
        rintro ⟨later, hlater, hlt⟩
        exact absurd hlt (not_lt.mpr (SortedMap.le_last h.disk.entries hlater))
      · exact ⟨file, by rw [if_neg hid, hfile], encoded_prefix_file file, fun _ => rfl⟩
    · refine ⟨file, ?_, encoded_prefix_file file, fun _ => rfl⟩
      rw [hdir, SortedMap.get?_insert, if_neg (by omega), hfile]
  · have hsame : (log.appendBatch crc32 io dir ops).2.2 = dir := by
      rw [Log.appendBatch, if_pos (not_lt.mp hn)]
    rw [hsame]
    exact refl dir

theorem step {w w' : LogWorld} {e : LogEvent} (h : w.Inv crc32) (hs : LogStep crc32 w e w') :
    OnlyGrows crc32 w.dir w'.dir := by
  obtain ⟨records, hh, -, -⟩ := h
  cases hs with
  | opened _ hopen => exact opened hopen
  | @openCrashed _ late _ _ _ _ hopen =>
      cases late with
      | true => exact opened hopen
      | false => exact refl w.dir
  | @acked log call added log' dir' hlog hfit hexec =>
      rw [hlog] at hh
      obtain ⟨old, active, hr, -⟩ := hh.running
      have hgrows := appended hr .done call.ops
      rw [← Call.exec_eq, hexec] at hgrows
      exact hgrows
  | @crashed log call cut hlog hfit =>
      rw [hlog] at hh
      obtain ⟨old, active, hr, -⟩ := hh.running
      cases cut with
      | beforeRollOver => exact refl w.dir
      | atByte written =>
          have hgrows := appended hr (.writeFails written) call.ops
          rw [← Call.exec_eq] at hgrows
          exact hgrows
  | stopped _ => exact refl w.dir

end OnlyGrows

/-- The log is append-only: whatever happens after a point of a run, crashes and recoveries
included, no file disappears, no record that is in a file moves or changes, and the files before
the last one are never written again. -/
theorem log_only_grows {crc32 : Checksum} {events more : List LogEvent} {w w' : LogWorld}
    (hrun : Run (LogStep crc32) LogWorld.start events w)
    (hmore : Run (LogStep crc32) w more w') : OnlyGrows crc32 w.dir w'.dir := by
  induction hmore with
  | nil => exact .refl w.dir
  | snoc hbefore hstep ih => exact ih.trans (.step (logRun_inv (hrun.append hbefore)) hstep)

theorem log_only_grows_crash :
    ∃ w w', Run (LogStep crc32Ieee) LogWorld.start [.opened 30, .acked (.put [107] [118])] w ∧
      Run (LogStep crc32Ieee) w [.crashed (.put [108] [119]) (.atByte 9)] w' ∧
      OnlyGrows crc32Ieee w.dir w'.dir := by
  have hrun : Run (LogStep crc32Ieee) LogWorld.start [.opened 30, .acked (.put [107] [118])] _ :=
    .snoc (.snoc .nil (.opened rfl rfl)) (.acked rfl (by simp [Call.ops, LogOp.Fits]) rfl)
  refine ⟨_, _, hrun, .snoc .nil (.crashed rfl ?_), log_only_grows hrun
    (.snoc .nil (.crashed rfl ?_))⟩
  · simp [Call.ops, LogOp.Fits]
  · simp [Call.ops, LogOp.Fits]

def LogEvent.Within (limit : Nat) : LogEvent → Prop
  | .opened maxBytes => maxBytes ≤ limit
  | _ => True

/-- The segments are numbered from 0 without a gap, only the last one may be without a record,
and one that is larger than the limit holds records of a single call. -/
structure Segmented (crc32 : Checksum) (limit : Nat) (dir : SegmentDir) (calls : List Issued) :
    Prop where
  ids : ∃ n, dir.keys = List.range n
  nonempty : ∀ id file, dir.get? id = some file → (∃ later ∈ dir.keys, id < later) →
    (recover crc32 file).records ≠ []
  sizes : ∀ id file, dir.get? id = some file →
    (encodeAll crc32 (recover crc32 file).records).length ≤ limit ∨
      ∃ call ∈ calls, (recover crc32 file).records <+: call.records

namespace Segmented
variable {crc32 : Checksum} {limit : Nat} {dir dir' : SegmentDir} {calls : List Issued}

theorem more (h : Segmented crc32 limit dir calls) (call : Issued) :
    Segmented crc32 limit dir (calls ++ [call]) := by
  refine ⟨h.ids, h.nonempty, ?_⟩
  intro id file hfile
  refine (h.sizes id file hfile).imp_right ?_
  rintro ⟨c, hc, hprefix⟩
  exact ⟨c, List.mem_append_left _ hc, hprefix⟩

theorem opened (h : Segmented crc32 limit dir calls) {maxBytes : Nat} {log : Log}
    {report : OpenReport}
    (hopen : Log.openWithSegmentSize crc32 dir maxBytes = (.ok (log, report), dir')) :
    Segmented crc32 limit dir' calls := by
  have hfiles := (open_accepts hopen).2.files
  split at hfiles
  · rename_i he
    have hentries : dir'.entries = [(0, [])] := by
      rw [hfiles]
      simp [SortedMap.insert, he, SortedMap.insertEntry]
    have honly : ∀ id file, dir'.get? id = some file → id = 0 ∧ file = [] := by
      intro id file hfile
      have hmem := SortedMap.mem_entries.mpr hfile
      rw [hentries] at hmem
      cases List.mem_singleton.mp hmem
      exact ⟨rfl, rfl⟩
    have hkeys : dir'.keys = List.range 1 := by simp [SortedMap.keys, hentries]
    refine ⟨⟨1, hkeys⟩, ?_, ?_⟩
    · rintro id file hfile ⟨later, hlater, hlt⟩
      rw [hkeys, List.mem_range] at hlater
      omega
    · intro id file hfile
      obtain ⟨rfl, rfl⟩ := honly id file hfile
      exact .inl (Nat.zero_le _)
  · -- the records of every file are the same as before
    have hkeys : dir'.keys = dir.keys := by
      rw [hfiles]
      simp [SortedMap.keys, SegmentDir.entries_valid]
    have hback : ∀ id file', dir'.get? id = some file' → ∃ file, dir.get? id = some file ∧
        (recover crc32 file').records = (recover crc32 file).records := by
      intro id file' hfile'
      rw [hfiles, SegmentDir.get?_valid] at hfile'
      obtain ⟨file, hfile, rfl⟩ := Option.map_eq_some_iff.mp hfile'
      exact ⟨file, hfile, by rw [recover_valid]⟩
    refine ⟨by rw [hkeys]; exact h.ids, ?_, ?_⟩
    · intro id file' hfile' hlater
      obtain ⟨file, hfile, hsame⟩ := hback id file' hfile'
      rw [hkeys] at hlater
      rw [hsame]
      exact h.nonempty id file hfile hlater
    · intro id file' hfile'
      obtain ⟨file, hfile, hsame⟩ := hback id file' hfile'
      rw [hsame]
      exact h.sizes id file hfile

theorem recover_granted (crc32 : Checksum) {active records : List Record}
    (hactive : ∀ r ∈ active, r.Fits) (hrecords : ∀ r ∈ records, r.Fits) (io : Io) :
    ∃ k, (recover crc32 (encodeAll crc32 active ++ io.granted crc32 records)).records =
      active ++ records.take k := by
  let n := io.budget (encodeAll crc32 records).length
  obtain ⟨tail, htake, hinert⟩ := encodeAll_take crc32 hrecords n
  have hfits : ∀ r ∈ active ++ records.take (wholeRecords records n), r.Fits := by
    intro r hr
    rcases List.mem_append.mp hr with hr | hr
    · exact hactive r hr
    · exact hrecords r (List.mem_of_mem_take hr)
  refine ⟨wholeRecords records n, ?_⟩
  rw [Io.granted, htake, ← List.append_assoc, ← encodeAll_append,
    recover_encodeAll crc32 hfits hinert]

theorem length_encodeAll_take (records : List Record) (k : Nat) :
    (encodeAll crc32 (records.take k)).length ≤ (encodeAll crc32 records).length := by
  conv_rhs => rw [← List.take_append_drop k records]
  rw [encodeAll_append, List.length_append]
  exact Nat.le_add_right _ _

section Files
variable {es : List (Nat × Bytes)} {id : Nat} {file file' : Bytes}
  (hsize : (encodeAll crc32 (recover crc32 file').records).length ≤ limit ∨
    ∃ call ∈ calls, (recover crc32 file').records <+: call.records)
include hsize

theorem last_changed (h : Segmented crc32 limit dir calls) (he : dir.entries = es ++ [(id, file)]) :
    Segmented crc32 limit (dir.insert id file') calls := by
  have hkeys : (dir.insert id file').keys = dir.keys := by
    simp [SortedMap.keys, SortedMap.entries_insert_last he, he]
  refine ⟨by rw [hkeys]; exact h.ids, ?_, ?_⟩
  · rintro id' f hf ⟨later, hlater, hlt⟩
    rw [hkeys] at hlater
    have hle := SortedMap.le_last he hlater
    rw [SortedMap.get?_insert, if_neg (by omega)] at hf
    exact h.nonempty id' f hf ⟨later, hlater, hlt⟩
  · intro id' f hf
    rw [SortedMap.get?_insert] at hf
    split at hf
    · cases hf
      exact hsize
    · exact h.sizes id' f hf

theorem next_begun (h : Segmented crc32 limit dir calls) (he : dir.entries = es ++ [(id, file)])
    (hfull : (recover crc32 file).records ≠ []) :
    Segmented crc32 limit (dir.insert (id + 1) file') calls := by
  have hle : ∀ key ∈ dir.keys, key ≤ id := fun key hkey => SortedMap.le_last he hkey
  have hnew : ∀ e ∈ dir.entries, e.1 < id + 1 := fun e hin =>
    Nat.lt_succ_of_le (hle e.1 (List.mem_map_of_mem hin))
  have hkeys : (dir.insert (id + 1) file').keys = dir.keys ++ [id + 1] := by
    simp [SortedMap.keys, SortedMap.entries_insert_new hnew]
  refine ⟨?_, ?_, ?_⟩
  · obtain ⟨n, hn⟩ := h.ids
    have hlast : id + 1 = n := by
      have hmem : id ∈ List.range n := by
        rw [← hn]
        simp [SortedMap.keys, he]
      have hlt := List.mem_range.mp hmem
      have htop : n - 1 ∈ dir.keys := by
        rw [hn, List.mem_range]
        omega
      have hbound := hle _ htop
      omega
    exact ⟨n + 1, by rw [hkeys, hn, hlast, List.range_succ]⟩
  · rintro id' f hf ⟨later, hlater, hlt⟩
    have hlater' : later ≤ id + 1 := by
      rw [hkeys] at hlater
      rcases List.mem_append.mp hlater with hin | hin
      · exact (hle later hin).trans (Nat.le_succ id)
      · exact (List.mem_singleton.mp hin).le
    rw [SortedMap.get?_insert, if_neg (by omega)] at hf
    have hkey : id' ∈ dir.keys := SortedMap.mem_keys.mpr ⟨f, hf⟩
    rcases (hle id' hkey).eq_or_lt with rfl | hbefore
    · rw [SortedMap.get?_of_entries_last he] at hf
      cases hf
      exact hfull
    · have hlastKey : id ∈ dir.keys := by simp [SortedMap.keys, he]
      exact h.nonempty id' f hf ⟨id, hlastKey, hbefore⟩
  · intro id' f hf
    rw [SortedMap.get?_insert] at hf
    split at hf
    · cases hf
      exact hsize
    · exact h.sizes id' f hf

end Files

theorem appended {log : Log} {old : List (Nat × List Record)} {active : List Record}
    (h : Segmented crc32 limit dir calls) (hr : Running crc32 dir log old active)
    (hmax : log.segmentMaxBytes ≤ limit) (io : Io) {ops : List LogOp}
    (hops : ∀ op ∈ ops, op.Fits) (hn : log.nextSeq + ops.length < 2 ^ 64) (acked : Bool) :
    Segmented crc32 limit (log.appendBatch crc32 io dir ops).2.2
      (calls ++ [⟨Log.numberRecords log.nextSeq ops, acked⟩]) := by
  have hrecords := Log.numberRecords_fits hops hn
  have hcalls := h.more ⟨Log.numberRecords log.nextSeq ops, acked⟩
  have hown : ∀ k, ∃ call ∈ calls ++ [⟨Log.numberRecords log.nextSeq ops, acked⟩],
      (Log.numberRecords log.nextSeq ops).take k <+: call.records := fun k =>
    ⟨_, List.mem_append_right _ (List.mem_singleton_self _), List.take_prefix _ _⟩
  rcases hr.append_where io ops hn with ⟨hstay, hdir⟩ | ⟨hfull, hdir⟩
  · rw [hdir]
    obtain ⟨k, hk⟩ := recover_granted crc32 hr.disk.active_fits hrecords io
    refine hcalls.last_changed ?_ hr.disk.entries
    rw [hk]
    rcases hstay with rfl | hroom
    · exact .inr (hown k)
    · left
      have hless : (encodeAll crc32 ((Log.numberRecords log.nextSeq ops).take k)).length ≤
          (encodeAll crc32 (Log.numberRecords log.nextSeq ops)).length := length_encodeAll_take _ k
      rw [encodeAll_append, List.length_append] at hroom ⊢
      omega
  · rw [hdir]
    have hnone : ∀ r ∈ ([] : List Record), r.Fits := List.forall_mem_nil _
    have hnew := recover_granted crc32 hnone hrecords io
    rw [encodeAll_nil] at hnew
    simp only [List.nil_append] at hnew
    obtain ⟨k, hk⟩ := hnew
    refine hcalls.next_begun ?_ hr.disk.entries ?_
    · rw [hk]
      exact .inr (hown k)
    · rw [recover_encodeAll crc32 hr.disk.active_fits (inert_nil crc32)]
      exact hfull

/-- What a step keeps: the segments, and that the open log respects the limit. -/
theorem step {w w' : LogWorld} {e : LogEvent} (hinv : w.Inv crc32)
    (h : Segmented crc32 limit w.dir w.calls)
    (hmax : ∀ log, w.log = some log → log.segmentMaxBytes ≤ limit) (he : e.Within limit)
    (hs : LogStep crc32 w e w') :
    Segmented crc32 limit w'.dir w'.calls ∧
      ∀ log, w'.log = some log → log.segmentMaxBytes ≤ limit := by
  obtain ⟨records, hh, -, -⟩ := hinv
  cases hs with
  | @opened maxBytes log report dir' hlog hopen =>
      refine ⟨h.opened hopen, ?_⟩
      rintro log' ⟨⟩
      exact (open_accepts hopen).1.le.trans he
  | @openCrashed maxBytes late log report dir' hlog hopen =>
      refine ⟨?_, fun log' hlog' => by cases hlog'⟩
      cases late with
      | true => exact h.opened hopen
      | false => exact h
  | @acked log call added log' dir' hlog hfit hexec =>
      rw [hlog] at hh
      obtain ⟨old, active, hr, -⟩ := hh.running
      rw [Call.exec_eq] at hexec
      obtain ⟨rfl, hn⟩ := Log.appendBatch_ok hexec
      have happended := h.appended hr (hmax log hlog) .done hfit hn true
      obtain ⟨log'', dir'', -, -, happend, -, -, -, hlimit⟩ := hr.appendBatch_done hfit hn
      rw [hexec] at happended happend
      cases happend
      refine ⟨happended, ?_⟩
      rintro l ⟨⟩
      rw [hlimit]
      exact hmax log hlog
  | @crashed log call cut hlog hfit =>
      rw [hlog] at hh
      obtain ⟨old, active, hr, -⟩ := hh.running
      refine ⟨?_, fun log' hlog' => by cases hlog'⟩
      cases cut with
      | beforeRollOver => exact h.more _
      | atByte written =>
          simp only [Call.crashDir, Call.exec_eq]
          by_cases hn : log.nextSeq + call.ops.length < 2 ^ 64
          · exact h.appended hr (hmax log hlog) (.writeFails written) hfit hn false
          · rw [Log.appendBatch, if_pos (not_lt.mp hn)]
            exact h.more _
  | stopped hlog => exact ⟨h, fun log' hlog' => by cases hlog'⟩

theorem run {events : List LogEvent} {w : LogWorld}
    (hrun : Run (LogStep crc32) LogWorld.start events w) (hlimit : ∀ e ∈ events, e.Within limit) :
    Segmented crc32 limit w.dir w.calls ∧
      ∀ log, w.log = some log → log.segmentMaxBytes ≤ limit := by
  induction hrun with
  | nil =>
      refine ⟨⟨⟨0, rfl⟩, ?_, ?_⟩, fun log hlog => by cases hlog⟩
      · intro id file hfile
        cases hfile
      · intro id file hfile
        cases hfile
  | snoc hbefore hstep ih =>
      obtain ⟨hevents, hlast⟩ := List.forall_mem_append.mp hlimit
      obtain ⟨hsegments, hmax⟩ := ih hevents
      exact hsegments.step (logRun_inv hbefore) hmax (hlast _ (List.mem_singleton_self _)) hstep

end Segmented

/-- Segments of every run: numbered from 0 without a gap, none but the last without a record,
and none larger than the largest limit it was opened with, unless it holds records of one call
only. -/
theorem log_segments_filled {crc32 : Checksum} {limit : Nat} {events : List LogEvent}
    {w : LogWorld} (hrun : Run (LogStep crc32) LogWorld.start events w)
    (hlimit : ∀ e ∈ events, e.Within limit) : Segmented crc32 limit w.dir w.calls :=
  (Segmented.run hrun hlimit).1

set_option maxRecDepth 100000 in
/-- Three puts with room for one record in a segment; a crash interrupts the last one. -/
theorem log_segments_filled_three :
    ∃ w, Run (LogStep crc32Ieee) LogWorld.start [.opened 30, .acked (.put [107] [118]),
        .acked (.put [108] [119]), .crashed (.put [109] [120]) (.atByte 9)] w ∧
      w.dir.keys = [0, 1, 2] ∧ Segmented crc32Ieee 30 w.dir w.calls := by
  have hone : Run (LogStep crc32Ieee) LogWorld.start [.opened 30, .acked (.put [107] [118])] _ :=
    .snoc (.snoc .nil (.opened rfl rfl)) (.acked rfl (by simp [Call.ops, LogOp.Fits]) rfl)
  have htwo : Run (LogStep crc32Ieee) LogWorld.start [.opened 30, .acked (.put [107] [118]),
      .acked (.put [108] [119])] _ :=
    .snoc hone (.acked rfl (by simp [Call.ops, LogOp.Fits]) rfl)
  have hrun : Run (LogStep crc32Ieee) LogWorld.start [.opened 30, .acked (.put [107] [118]),
      .acked (.put [108] [119]), .crashed (.put [109] [120]) (.atByte 9)] _ :=
    .snoc htwo (.crashed rfl (by simp [Call.ops, LogOp.Fits]))
  refine ⟨_, hrun, by decide +kernel, log_segments_filled hrun ?_⟩
  simp [LogEvent.Within]

end Sietch
