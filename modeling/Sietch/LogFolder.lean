import Sietch.Base.Decimal
import Sietch.LogSegments

/-! Segment files under their names, in a directory with other files that the operating system
lists in any order. A run of the log there is a run on files by id, and the other files stay as
they are. -/
namespace Sietch
open ByteString Transition

/-- A name as `to_string_lossy` gives it. One that is not Unicode has a replacement character
there, which no segment's name has. -/
abbrev FileName := List Char

abbrev Folder := SortedMap FileName Bytes

def segmentPrefix : FileName := ['s', 'e', 'g', '-']

def segmentSuffix : FileName := ['.', 'l', 'o', 'g']

def segmentPath (id : Nat) : FileName := segmentPrefix ++ Decimal.padded 16 id ++ segmentSuffix

/-- The id that a name stands for. Names other than `segmentPath id` can stand for it too:
leading zeros may be missing, and a plus is read. -/
def segmentId (name : FileName) : Option Nat :=
  (name.dropPrefix? segmentPrefix).bind fun rest =>
    (rest.dropSuffix? segmentSuffix).bind (Decimal.parse (2 ^ 64))

/-- `list_segment_ids`, over the names as `read_dir` returns them. -/
def listSegmentIds (names : List FileName) : List Nat :=
  (names.filterMap segmentId).insertionSort (· ≤ ·)

namespace Folder

def openForAppend (folder : Folder) (id validLen : Nat) : Segment × Folder :=
  (⟨validLen, validLen⟩, folder.insert (segmentPath id)
    (setLen ((folder.get? (segmentPath id)).getD []) validLen))

def appendRecords (crc32 : Checksum) (io : Io) (folder : Folder) (id : Nat) (s : Segment)
    (records : List Record) : Outcome LogError (List Nat) × Segment × Folder :=
  let total := (encodeAll crc32 records).length
  let w := Segment.writeLoop crc32 records ((folder.get? (segmentPath id)).getD []) s.pos s.len
    (io.budget total)
  let folder' := folder.insert (segmentPath id) w.file
  match w.offsets, io with
  | none, _ => (.err .io, { s with pos := w.pos }, folder')
  | some _, .syncFails => (.err .io, { s with pos := w.pos }, folder')
  | some (offsets, offset), _ => (.ok offsets, ⟨w.pos, offset⟩, folder')

/-- The loop over the ids. An id whose own file is missing stands for a file of another name. -/
def openLoop (crc32 : Checksum) (folder : Folder) (segmentMaxBytes : Nat) (lastId : Option Nat) :
    List Nat → List Record → List Nat → Bool → Option Nat →
      Outcome LogError (Log × OpenReport) × Folder
  | [], allRecords, sealedIds, torn, _ =>
      let (active, folder') := openForAppend folder 0 0
      (.ok (⟨segmentMaxBytes, sealedIds, 0, active, 0⟩, ⟨allRecords, torn⟩), folder')
  | id :: rest, allRecords, sealedIds, torn, seen =>
      match folder.get? (segmentPath id) with
      | none => (.err .io, folder)
      | some buf =>
          let recovered := recover crc32 buf
          let isLast : Bool := some id = lastId
          if recovered.hadTornTail ∧ ¬ isLast then (.err (.sealedSegmentCorrupted id), folder)
          else
            let torn' := torn || recovered.hadTornTail
            let seen' := maxSeqSeen seen recovered.records
            let allRecords' := allRecords ++ recovered.records
            if isLast then
              let (active, folder') := openForAppend folder id recovered.validLen
              let nextSeq := seen'.elim 0 (· + 1)
              if 2 ^ 64 ≤ nextSeq then (.panic, folder')
              else (.ok (⟨segmentMaxBytes, sealedIds, id, active, nextSeq⟩,
                ⟨allRecords', torn'⟩), folder')
            else
              openLoop crc32 folder segmentMaxBytes lastId rest allRecords' (sealedIds ++ [id])
                torn' seen'

/-- `open_with_segment_size`, with the names in the order in which they are listed. -/
def openLog (crc32 : Checksum) (names : List FileName) (folder : Folder) (segmentMaxBytes : Nat) :
    Outcome LogError (Log × OpenReport) × Folder :=
  let ids := listSegmentIds names
  openLoop crc32 folder segmentMaxBytes ids.getLast? ids [] [] false none

/-- `roll_over_if_needed`. The id is a u64: adding one to the last panics. -/
def rollOverIfNeeded (folder : Folder) (log : Log) (incomingLen : Nat) :
    Outcome LogError (Log × Folder) :=
  if log.active.isEmpty ∨ log.active.len + incomingLen ≤ log.segmentMaxBytes then .ok (log, folder)
  else if 2 ^ 64 ≤ log.activeId + 1 then .panic
  else
    let (active, folder') := openForAppend folder (log.activeId + 1) 0
    .ok (⟨log.segmentMaxBytes, log.sealedIds ++ [log.activeId], log.activeId + 1, active,
      log.nextSeq⟩, folder')

def appendBatch (crc32 : Checksum) (io : Io) (folder : Folder) (log : Log) (ops : List LogOp) :
    Outcome LogError (List Record) × Log × Folder :=
  if 2 ^ 64 ≤ log.nextSeq + ops.length then (.panic, log, folder)
  else
    let records := Log.numberRecords log.nextSeq ops
    match rollOverIfNeeded folder log (Log.totalLen records) with
    | .ok (log', folder') =>
        match appendRecords crc32 io folder' log'.activeId log'.active records with
        | (.ok _, active, folder'') =>
            (.ok records, { log' with active, nextSeq := log.nextSeq + ops.length }, folder'')
        | (.err e, active, folder'') => (.err e, { log' with active }, folder'')
        | (.panic, active, folder'') => (.panic, { log' with active }, folder'')
    | .err e => (.err e, log, folder)
    | .panic => (.panic, log, folder)

end Folder

section Names

theorem segmentId_segmentPath {id : Nat} (hid : id < 2 ^ 64) :
    segmentId (segmentPath id) = some id := by
  have hfront : (segmentPath id).dropPrefix? segmentPrefix =
      some (Decimal.padded 16 id ++ segmentSuffix) := by
    rw [List.dropPrefix?_eq_some_iff]
    exact ⟨segmentPrefix, List.append_assoc _ _ _, beq_self_eq_true _⟩
  have hback : (Decimal.padded 16 id ++ segmentSuffix).dropSuffix? segmentSuffix =
      some (Decimal.padded 16 id) := by
    rw [List.dropSuffix?_eq_some_iff]
    exact ⟨segmentSuffix, rfl, beq_self_eq_true _⟩
  simp only [segmentId, hfront, hback, Option.bind_some]
  exact Decimal.parse_padded hid 16

theorem segmentPath_inj {id id' : Nat} (hid : id < 2 ^ 64) (hid' : id' < 2 ^ 64)
    (h : segmentPath id = segmentPath id') : id = id' := by
  have hsame := segmentId_segmentPath hid
  rw [h, segmentId_segmentPath hid'] at hsame
  exact (Option.some.inj hsame).symm

end Names

def Folder.Foreign (others : Folder) : Prop :=
  ∀ name file, others.get? name = some file → segmentId name = none

/-- The folder has the segment files under their names and the other files beside them. -/
structure Shows (others folder : Folder) (dir : SegmentDir) : Prop where
  small : ∀ id ∈ dir.keys, id < 2 ^ 64
  segment : ∀ id, id < 2 ^ 64 → folder.get? (segmentPath id) = dir.get? id
  other : ∀ name, (∀ id, id < 2 ^ 64 → name ≠ segmentPath id) →
    folder.get? name = others.get? name

namespace Shows
variable {others folder : Folder} {dir : SegmentDir}

theorem start (h : others.Foreign) : Shows others others SortedMap.empty := by
  refine ⟨?_, ?_, fun _ _ => rfl⟩
  · intro id hid
    cases hid
  · intro id hid
    cases hget : others.get? (segmentPath id) with
    | none => rfl
    | some file =>
        have hnone := h _ file hget
        rw [segmentId_segmentPath hid] at hnone
        cases hnone

theorem insert (h : Shows others folder dir) {id : Nat} (hid : id < 2 ^ 64) (file : Bytes) :
    Shows others (folder.insert (segmentPath id) file) (dir.insert id file) := by
  refine ⟨?_, ?_, ?_⟩
  · intro k hk
    obtain ⟨f, hf⟩ := SortedMap.mem_keys.mp hk
    rw [SortedMap.get?_insert] at hf
    split at hf
    · rename_i heq
      exact heq ▸ hid
    · exact h.small k (SortedMap.mem_keys.mpr ⟨f, hf⟩)
  · intro k hk
    rw [SortedMap.get?_insert, SortedMap.get?_insert]
    by_cases heq : k = id
    · rw [heq, if_pos rfl, if_pos rfl]
    · rw [if_neg heq, if_neg (fun hpath => heq (segmentPath_inj hk hid hpath)), h.segment k hk]
  · intro name hname
    rw [SortedMap.get?_insert, if_neg (hname id hid), h.other name hname]

/-- Every listed name that stands for a segment is the one of its file. -/
theorem canonical (h : Shows others folder dir) (hforeign : others.Foreign) {name : FileName}
    {id : Nat} (hname : name ∈ folder.keys) (hid : segmentId name = some id) :
    name = segmentPath id ∧ id ∈ dir.keys := by
  obtain ⟨file, hfile⟩ := SortedMap.mem_keys.mp hname
  by_cases hpath : ∃ k, k < 2 ^ 64 ∧ name = segmentPath k
  · obtain ⟨k, hk, rfl⟩ := hpath
    rw [segmentId_segmentPath hk] at hid
    obtain rfl := Option.some.inj hid
    rw [h.segment k hk] at hfile
    exact ⟨rfl, SortedMap.mem_keys.mpr ⟨file, hfile⟩⟩
  · have hother : ∀ k, k < 2 ^ 64 → name ≠ segmentPath k := fun k hk heq => hpath ⟨k, hk, heq⟩
    rw [h.other name hother] at hfile
    rw [hforeign name file hfile] at hid
    cases hid

/-- Whatever the order of the listing, the ids are found, each once and in order. -/
theorem listSegmentIds (h : Shows others folder dir) (hforeign : others.Foreign)
    {names : List FileName} (hnames : names.Perm folder.keys) :
    listSegmentIds names = dir.keys := by
  have hnodup : (folder.keys.filterMap segmentId).Nodup := by
    have hkeys : folder.keys.Nodup := folder.keys_pairwise.imp ne_of_lt
    unfold List.Nodup
    rw [List.pairwise_filterMap]
    refine hkeys.imp_of_mem ?_
    intro name name' hname hname' hne id hid id' hid' heq
    subst heq
    have hone := (h.canonical hforeign hname hid).1
    have htwo := (h.canonical hforeign hname' hid').1
    exact hne (hone.trans htwo.symm)
  have hperm : (names.filterMap segmentId).Perm dir.keys := by
    refine (hnames.filterMap segmentId).trans ?_
    rw [List.perm_ext_iff_of_nodup hnodup (dir.keys_pairwise.imp ne_of_lt)]
    intro id
    rw [List.mem_filterMap]
    constructor
    · rintro ⟨name, hname, hid⟩
      exact (h.canonical hforeign hname hid).2
    · intro hid
      obtain ⟨file, hfile⟩ := SortedMap.mem_keys.mp hid
      have hsmall := h.small id hid
      rw [← h.segment id hsmall] at hfile
      exact ⟨segmentPath id, SortedMap.mem_keys.mpr ⟨file, hfile⟩, segmentId_segmentPath hsmall⟩
  unfold Sietch.listSegmentIds
  apply List.Perm.eq_of_pairwise (fun a b _ _ hab hba => le_antisymm hab hba)
    (List.pairwise_insertionSort _ _) (dir.keys_pairwise.imp le_of_lt)
  exact (List.perm_insertionSort _ _).trans hperm

theorem openForAppend (h : Shows others folder dir) {id : Nat} (hid : id < 2 ^ 64)
    (validLen : Nat) :
    (Folder.openForAppend folder id validLen).1 = (Segment.openForAppend dir id validLen).1 ∧
      Shows others (Folder.openForAppend folder id validLen).2
        (Segment.openForAppend dir id validLen).2 := by
  refine ⟨rfl, ?_⟩
  simp only [Folder.openForAppend, Segment.openForAppend, h.segment id hid]
  exact h.insert hid _

theorem openLoop (crc32 : Checksum) (h : Shows others folder dir) (maxBytes : Nat)
    (lastId : Option Nat) (es : List (Nat × Bytes)) (hes : ∀ e ∈ es, dir.get? e.1 = some e.2)
    (all : List Record) (ids : List Nat) (torn : Bool) (seen : Option Nat) :
    (Folder.openLoop crc32 folder maxBytes lastId (es.map Prod.fst) all ids torn seen).1 =
        (Log.openLoop crc32 dir maxBytes lastId es all ids torn seen).1 ∧
      Shows others (Folder.openLoop crc32 folder maxBytes lastId (es.map Prod.fst) all ids torn seen).2
        (Log.openLoop crc32 dir maxBytes lastId es all ids torn seen).2 := by
  induction es generalizing all ids torn seen with
  | nil =>
      have hzero := h.openForAppend (by norm_num : 0 < 2 ^ 64) 0
      exact ⟨rfl, hzero.2⟩
  | cons e es ih =>
      obtain ⟨hfile, hrest⟩ := List.forall_mem_cons.mp hes
      have hid : e.1 < 2 ^ 64 := h.small _ (SortedMap.mem_keys.mpr ⟨_, hfile⟩)
      have hnamed : folder.get? (segmentPath e.1) = some e.2 := (h.segment _ hid).trans hfile
      simp only [List.map_cons, Folder.openLoop, Log.openLoop, hnamed]
      split
      · exact ⟨rfl, h⟩
      · split
        · split
          · exact ⟨rfl, (h.openForAppend hid _).2⟩
          · exact ⟨rfl, (h.openForAppend hid _).2⟩
        · exact ih hrest _ _ _ _

theorem openLog (crc32 : Checksum) (h : Shows others folder dir) (hforeign : others.Foreign)
    {names : List FileName} (hnames : names.Perm folder.keys) (maxBytes : Nat) :
    (Folder.openLog crc32 names folder maxBytes).1 =
        (Log.openWithSegmentSize crc32 dir maxBytes).1 ∧
      Shows others (Folder.openLog crc32 names folder maxBytes).2
        (Log.openWithSegmentSize crc32 dir maxBytes).2 := by
  have hfiles : ∀ e ∈ dir.entries, dir.get? e.1 = some e.2 := by
    intro e he
    exact SortedMap.mem_entries.mp he
  have hloop := h.openLoop crc32 maxBytes dir.keys.getLast? dir.entries hfiles [] []
    false none
  simp only [Folder.openLog, h.listSegmentIds hforeign hnames]
  exact hloop

theorem rollOver (h : Shows others folder dir) {log : Log}
    (hid : log.active.isEmpty = true ∨ log.activeId + 1 < 2 ^ 64) (incoming : Nat) :
    ∃ folder', Folder.rollOverIfNeeded folder log incoming =
        .ok ((log.rollOverIfNeeded dir incoming).1, folder') ∧
      Shows others folder' (log.rollOverIfNeeded dir incoming).2 := by
  unfold Folder.rollOverIfNeeded Log.rollOverIfNeeded
  split
  · exact ⟨folder, rfl, h⟩
  · rename_i hnew
    have hroom : log.activeId + 1 < 2 ^ 64 := hid.resolve_left fun he => hnew (.inl he)
    rw [if_neg (not_le.mpr hroom)]
    exact ⟨_, rfl, (h.openForAppend hroom 0).2⟩

theorem appendRecords (crc32 : Checksum) (h : Shows others folder dir) {id : Nat}
    (hid : id < 2 ^ 64) (io : Io) (s : Segment) (records : List Record) :
    (Folder.appendRecords crc32 io folder id s records).1 =
        (Segment.appendBatch crc32 io dir id s records).1 ∧
      (Folder.appendRecords crc32 io folder id s records).2.1 =
        (Segment.appendBatch crc32 io dir id s records).2.1 ∧
      Shows others (Folder.appendRecords crc32 io folder id s records).2.2
        (Segment.appendBatch crc32 io dir id s records).2.2 := by
  simp only [Folder.appendRecords, Segment.appendBatch, h.segment id hid]
  generalize Segment.writeLoop crc32 records ((dir.get? id).getD []) s.pos s.len
    (io.budget (encodeAll crc32 records).length) = w
  rcases w with ⟨file, pos, _ | ⟨offsets, offset⟩⟩
  · exact ⟨rfl, rfl, h.insert hid file⟩
  · cases io <;> exact ⟨rfl, rfl, h.insert hid file⟩

theorem appendBatch (crc32 : Checksum) (h : Shows others folder dir) {log : Log}
    (hactive : log.activeId < 2 ^ 64)
    (hid : log.active.isEmpty = true ∨ log.activeId + 1 < 2 ^ 64) (io : Io) (ops : List LogOp) :
    (Folder.appendBatch crc32 io folder log ops).1 = (log.appendBatch crc32 io dir ops).1 ∧
      (Folder.appendBatch crc32 io folder log ops).2.1 = (log.appendBatch crc32 io dir ops).2.1 ∧
      Shows others (Folder.appendBatch crc32 io folder log ops).2.2
        (log.appendBatch crc32 io dir ops).2.2 := by
  by_cases hfull : 2 ^ 64 ≤ log.nextSeq + ops.length
  · rw [Folder.appendBatch, Log.appendBatch, if_pos hfull, if_pos hfull]
    exact ⟨rfl, rfl, h⟩
  · obtain ⟨folder', hroll, hshows⟩ := h.rollOver hid
      (Log.totalLen (Log.numberRecords log.nextSeq ops))
    generalize hlog : log.rollOverIfNeeded dir
      (Log.totalLen (Log.numberRecords log.nextSeq ops)) = rolled at hroll hshows
    have hnamed : rolled.1.activeId < 2 ^ 64 := by
      rw [← hlog, Log.rollOverIfNeeded]
      split
      · exact hactive
      · rename_i hnew
        exact hid.resolve_left fun he => hnew (.inl he)
    have hwritten := hshows.appendRecords crc32 hnamed io rolled.1.active
      (Log.numberRecords log.nextSeq ops)
    simp only [Folder.appendBatch, Log.appendBatch, if_neg hfull, hroll, hlog]
    rcases hnew : Folder.appendRecords crc32 io folder' rolled.1.activeId rolled.1.active
      (Log.numberRecords log.nextSeq ops) with ⟨out, active, folder''⟩
    rcases hold : Segment.appendBatch crc32 io rolled.2 rolled.1.activeId rolled.1.active
      (Log.numberRecords log.nextSeq ops) with ⟨out', active', dir''⟩
    rw [hnew, hold] at hwritten
    obtain ⟨rfl, rfl, hfiles⟩ := hwritten
    cases out with
    | ok offsets => exact ⟨rfl, rfl, hfiles⟩
    | err e => exact ⟨rfl, rfl, hfiles⟩
    | panic => exact ⟨rfl, rfl, hfiles⟩

end Shows

structure FolderWorld where
  folder : Folder
  log : Option Log
  calls : List Issued
  deriving DecidableEq

def Folder.crashed (crc32 : Checksum) (cut : Cut) (folder : Folder) (log : Log) (call : Call) :
    Folder :=
  match cut with
  | .beforeRollOver => folder
  | .atByte written => (Folder.appendBatch crc32 (.writeFails written) folder log call.ops).2.2

/-- The steps of a log whose files have names. Each open lists the names in some order; the
calls for one record are batches of one. -/
inductive FolderStep (crc32 : Checksum) : FolderWorld → LogEvent → FolderWorld → Prop where
  | opened {w maxBytes names log report folder'} : w.log = none → names.Perm w.folder.keys →
      Folder.openLog crc32 names w.folder maxBytes = (.ok (log, report), folder') →
      FolderStep crc32 w (.opened maxBytes) ⟨folder', some log, w.calls⟩
  | openCrashed {w maxBytes late names log report folder'} : w.log = none →
      names.Perm w.folder.keys →
      Folder.openLog crc32 names w.folder maxBytes = (.ok (log, report), folder') →
      FolderStep crc32 w (.openCrashed maxBytes late)
        ⟨if late then folder' else w.folder, none, w.calls⟩
  | acked {w log call records log' folder'} : w.log = some log → (∀ op ∈ call.ops, op.Fits) →
      Folder.appendBatch crc32 .done w.folder log call.ops = (.ok records, log', folder') →
      FolderStep crc32 w (.acked call) ⟨folder', some log',
        w.calls ++ [⟨Log.numberRecords log.nextSeq call.ops, true⟩]⟩
  | crashed {w log call cut} : w.log = some log → (∀ op ∈ call.ops, op.Fits) →
      FolderStep crc32 w (.crashed call cut) ⟨Folder.crashed crc32 cut w.folder log call, none,
        w.calls ++ [⟨Log.numberRecords log.nextSeq call.ops, false⟩]⟩
  | stopped {w log} : w.log = some log → FolderStep crc32 w .stopped ⟨w.folder, none, w.calls⟩

section Ids
variable {crc32 : Checksum}

theorem LogEvent.exists_within (events : List LogEvent) :
    ∃ limit, ∀ e ∈ events, e.Within limit := by
  induction events with
  | nil => exact ⟨0, List.forall_mem_nil _⟩
  | cons e events ih =>
      obtain ⟨limit, hlimit⟩ := ih
      have hmono : ∀ (e : LogEvent) (a b : Nat), a ≤ b → e.Within a → e.Within b := by
        intro e a b hab he
        cases e with
        | opened maxBytes => exact le_trans he hab
        | _ => trivial
      have hself : ∃ own, e.Within own := by
        cases e with
        | opened maxBytes => exact ⟨maxBytes, le_rfl⟩
        | _ => exact ⟨0, trivial⟩
      obtain ⟨own, hown⟩ := hself
      refine ⟨max own limit, List.forall_mem_cons.mpr ⟨?_, ?_⟩⟩
      · exact hmono e own _ (le_max_left _ _) hown
      · intro e' he'
        exact hmono e' limit _ (le_max_right _ _) (hlimit e' he')

/-- Each segment before the active one has taken a sequence number, so the ids stay below the
counter. -/
theorem Running.id_le {dir : SegmentDir} {log : Log} {old : List (Nat × List Record)}
    {active : List Record} {limit : Nat} {calls : List Issued}
    (hr : Running crc32 dir log old active) (hs : Segmented crc32 limit dir calls) :
    log.activeId ≤ (old.flatMap Prod.snd).length := by
  have hid : log.activeId = old.length := by
    obtain ⟨n, hn⟩ := hs.ids
    have hat : dir.keys[old.length]? = some log.activeId := by
      simp [SortedMap.keys, hr.disk.entries]
    rw [hn, List.getElem?_range] at hat
    · exact (Option.some.inj hat).symm
    · by_contra hge
      rw [List.getElem?_eq_none (by simpa using hge)] at hat
      cases hat
  have hfull : ∀ s ∈ old, s.2 ≠ [] := by
    intro s hin
    have hentry : (s.1, encodeAll crc32 s.2) ∈ dir.entries := by
      rw [hr.disk.entries]
      exact List.mem_append_left _ (List.mem_map_of_mem hin)
    have hfits : ∀ r ∈ s.2, r.Fits := fun r hrec =>
      hr.disk.fits r (List.mem_append_left _ (List.mem_flatMap.mpr ⟨s, hin, hrec⟩))
    have hlater : ∃ later ∈ dir.keys, s.1 < later :=
      ⟨log.activeId, by simp [SortedMap.keys, hr.disk.entries], hr.disk.old_lt s hin⟩
    have hsome := hs.nonempty s.1 _ (SortedMap.mem_entries.mp hentry) hlater
    have hrecover := recover_encodeAll crc32 hfits (inert_nil crc32)
    rw [List.append_nil] at hrecover
    rw [hrecover] at hsome
    exact hsome
  rw [hid]
  clear hid hr hs
  induction old with
  | nil => exact Nat.zero_le _
  | cons s old ih =>
      obtain ⟨hhead, htail⟩ := List.forall_mem_cons.mp hfull
      have hpos := List.length_pos_of_ne_nil hhead
      have hrest := ih htail
      simp only [List.flatMap_cons, List.length_append, List.length_cons]
      omega

/-- The ids of a run's log are names of files: adding one to the active id never panics. -/
theorem LogWorld.ids_named {events : List LogEvent} {v : LogWorld} {log : Log}
    (hrun : Run (LogStep crc32) LogWorld.start events v) (hlog : v.log = some log) :
    log.activeId < 2 ^ 64 ∧ (log.active.isEmpty = true ∨ log.activeId + 1 < 2 ^ 64) := by
  obtain ⟨records, hh, -, hnum⟩ := logRun_inv hrun
  obtain ⟨limit, hlimit⟩ := LogEvent.exists_within events
  have hsegments := (Segmented.run hrun hlimit).1
  rw [hlog] at hh
  obtain ⟨old, active, hr, rfl⟩ := hh.running
  have hle := hr.id_le hsegments
  have hcount := hr.disk.next
  rw [hnum.nextSeq, List.length_append] at hcount
  refine ⟨by omega, ?_⟩
  by_cases hempty : active = []
  · left
    simp [Segment.isEmpty, hr.len, hempty]
  · right
    have hpos := List.length_pos_of_ne_nil hempty
    omega

end Ids

structure FolderWorld.Shows (others : Folder) (w : FolderWorld) (v : LogWorld) : Prop where
  files : Sietch.Shows others w.folder v.dir
  log : w.log = v.log
  calls : w.calls = v.calls

namespace FolderWorld.Shows
variable {crc32 : Checksum} {others : Folder} {w w' : FolderWorld} {v : LogWorld} {e : LogEvent}

theorem opens (h : w.Shows others v) (hforeign : others.Foreign) {names : List FileName}
    (hnames : names.Perm w.folder.keys) {maxBytes : Nat} {log : Log} {report : OpenReport}
    {folder' : Folder} (hopen : Folder.openLog crc32 names w.folder maxBytes =
      (.ok (log, report), folder')) :
    ∃ dir', Log.openWithSegmentSize crc32 v.dir maxBytes = (.ok (log, report), dir') ∧
      Sietch.Shows others folder' dir' := by
  have hsame := h.files.openLog crc32 hforeign hnames maxBytes
  rw [hopen] at hsame
  exact ⟨_, Prod.ext hsame.1.symm rfl, hsame.2⟩

theorem step {events : List LogEvent} (h : w.Shows others v) (hforeign : others.Foreign)
    (hrun : Run (LogStep crc32) LogWorld.start events v) (hs : FolderStep crc32 w e w') :
    ∃ v', LogStep crc32 v e v' ∧ w'.Shows others v' := by
  cases hs with
  | opened hlog hnames hopen =>
      obtain ⟨dir', hold, hfiles⟩ := h.opens hforeign hnames hopen
      exact ⟨_, .opened (h.log ▸ hlog) hold, hfiles, rfl, h.calls⟩
  | @openCrashed maxBytes late names log report folder' hlog hnames hopen =>
      obtain ⟨dir', hold, hfiles⟩ := h.opens hforeign hnames hopen
      refine ⟨_, .openCrashed (h.log ▸ hlog) hold, ?_, rfl, h.calls⟩
      cases late with
      | true => exact hfiles
      | false => exact h.files
  | @acked log call records log' folder' hlog hfit hexec =>
      have hlog' : v.log = some log := h.log ▸ hlog
      obtain ⟨hactive, hid⟩ := LogWorld.ids_named hrun hlog'
      have hsame := h.files.appendBatch crc32 hactive hid .done call.ops
      rw [hexec, ← Call.exec_eq] at hsame
      rcases hold : call.exec crc32 .done v.dir log with ⟨out, log2, dir'⟩
      rw [hold] at hsame
      obtain ⟨rfl, rfl, hfiles⟩ := hsame
      exact ⟨_, .acked hlog' hfit hold, hfiles, rfl, by rw [h.calls]⟩
  | @crashed log call cut hlog hfit =>
      have hlog' : v.log = some log := h.log ▸ hlog
      refine ⟨_, .crashed hlog' hfit, ?_, rfl, by rw [h.calls]⟩
      cases cut with
      | beforeRollOver => exact h.files
      | atByte written =>
          obtain ⟨hactive, hid⟩ := LogWorld.ids_named hrun hlog'
          have hsame := h.files.appendBatch crc32 hactive hid (.writeFails written)
            call.ops
          rw [← Call.exec_eq] at hsame
          exact hsame.2.2
  | stopped hlog => exact ⟨_, .stopped (h.log ▸ hlog), h.files, rfl, h.calls⟩

theorem run {events : List LogEvent} (hforeign : others.Foreign)
    (hrun : Run (FolderStep crc32) ⟨others, none, []⟩ events w) :
    ∃ v, Run (LogStep crc32) LogWorld.start events v ∧ w.Shows others v := by
  induction hrun with
  | nil => exact ⟨_, .nil, Sietch.Shows.start hforeign, rfl, rfl⟩
  | snoc _ hstep ih =>
      obtain ⟨v, hv, hshows⟩ := ih
      obtain ⟨v', hstep', hshows'⟩ := hshows.step hforeign hv hstep
      exact ⟨v', hv.snoc hstep', hshows'⟩

end FolderWorld.Shows

/-- A log among files of other names. Whatever these are and in whatever order a directory is
listed, a run with crashes on named files is a run on files by id; the other files are never
touched, the next open finds exactly the log's files, and no segment id overflows. -/
theorem named_log_refines {crc32 : Checksum} {others : Folder} {events : List LogEvent}
    {w : FolderWorld} (hforeign : others.Foreign)
    (hrun : Run (FolderStep crc32) ⟨others, none, []⟩ events w) :
    ∃ v, Run (LogStep crc32) LogWorld.start events v ∧ w.log = v.log ∧ w.calls = v.calls ∧
      Shows others w.folder v.dir ∧
      (∀ names, names.Perm w.folder.keys → listSegmentIds names = v.dir.keys ∧
        ∀ maxBytes, (Folder.openLog crc32 names w.folder maxBytes).1 =
            (Log.openWithSegmentSize crc32 v.dir maxBytes).1 ∧
          Shows others (Folder.openLog crc32 names w.folder maxBytes).2
            (Log.openWithSegmentSize crc32 v.dir maxBytes).2) ∧
      ∀ log, w.log = some log → log.activeId < 2 ^ 64 ∧
        ∀ incoming, Folder.rollOverIfNeeded w.folder log incoming ≠ .panic := by
  obtain ⟨v, hv, hshows⟩ := FolderWorld.Shows.run hforeign hrun
  refine ⟨v, hv, hshows.log, hshows.calls, hshows.files, ?_, ?_⟩
  · intro names hnames
    exact ⟨hshows.files.listSegmentIds hforeign hnames,
      fun maxBytes => hshows.files.openLog crc32 hforeign hnames maxBytes⟩
  · intro log hlog
    obtain ⟨hactive, hid⟩ := LogWorld.ids_named hv (hshows.log ▸ hlog)
    refine ⟨hactive, ?_⟩
    intro incoming hpanic
    obtain ⟨folder', hroll, -⟩ := hshows.files.rollOver hid incoming
    rw [hroll] at hpanic
    cases hpanic

/-- Names that begin or end like a segment's, and one with a number beyond u64. -/
def strayFiles : Folder :=
  ((SortedMap.empty.insert ['s', 'e', 'g', '-', 'x', '.', 'l', 'o', 'g'] [1]).insert
    ['s', 'e', 'g', '-', '7'] [2]).insert
      ['s', 'e', 'g', '-', '9', '9', '9', '9', '9', '9', '9', '9', '9', '9', '9', '9', '9', '9',
        '9', '9', '9', '9', '9', '9', '.', 'l', 'o', 'g'] [3]

set_option maxRecDepth 100000 in
/-- A put, a crash inside the next one, and an open that lists the directory backwards. -/
theorem named_log_refines_among_strays :
    ∃ w v, Run (FolderStep crc32Ieee) ⟨strayFiles, none, []⟩ [.opened 30,
        .acked (.put [107] [118]), .crashed (.put [108] [119]) (.atByte 9), .opened 30] w ∧
      Run (LogStep crc32Ieee) LogWorld.start [.opened 30,
        .acked (.put [107] [118]), .crashed (.put [108] [119]) (.atByte 9), .opened 30] v ∧
      v.dir.keys = [0, 1] ∧ Shows strayFiles w.folder v.dir := by
  have hforeign : strayFiles.Foreign := by
    have hall : ∀ e ∈ strayFiles.entries, segmentId e.1 = none := by decide +kernel
    intro name file hfile
    exact hall _ (SortedMap.mem_entries.mpr hfile)
  have hone : Run (FolderStep crc32Ieee) ⟨strayFiles, none, []⟩ [.opened 30] _ :=
    .snoc .nil (.opened rfl (List.Perm.refl _) rfl)
  have htwo : Run (FolderStep crc32Ieee) ⟨strayFiles, none, []⟩ [.opened 30,
      .acked (.put [107] [118])] _ :=
    .snoc hone (.acked rfl (by simp [Call.ops, LogOp.Fits]) rfl)
  have hthree : Run (FolderStep crc32Ieee) ⟨strayFiles, none, []⟩ [.opened 30,
      .acked (.put [107] [118]), .crashed (.put [108] [119]) (.atByte 9)] _ :=
    .snoc htwo (.crashed rfl (by simp [Call.ops, LogOp.Fits]))
  have hrun : Run (FolderStep crc32Ieee) ⟨strayFiles, none, []⟩ [.opened 30,
      .acked (.put [107] [118]), .crashed (.put [108] [119]) (.atByte 9), .opened 30] _ :=
    .snoc hthree (.opened rfl (List.reverse_perm _) rfl)
  obtain ⟨v, hv, -, -, hshows, hlist, -⟩ := named_log_refines hforeign hrun
  refine ⟨_, v, hrun, hv, ?_, hshows⟩
  rw [← (hlist _ (List.Perm.refl _)).1]
  decide +kernel

end Sietch
