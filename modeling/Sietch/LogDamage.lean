import Sietch.LogRuns

/-! Truncated segment files. A cut is noticed by the checksums only inside a record; a
sealed file that is cut between two records opens as if the rest had never been. -/
namespace Sietch
open ByteString Transition

section Damage
variable {crc32 : Checksum}

def LogEvent.Orderly : LogEvent → Prop
  | .opened _ | .acked _ | .stopped => True
  | .openCrashed _ _ | .crashed _ _ => False

def LogWorld.committed (w : LogWorld) : List Record := w.calls.flatMap Issued.records

/-- Opening fails without having touched a file, or it reports a prefix of what was
committed. -/
def OpensToPrefix (crc32 : Checksum) (committed : List Record) (maxBytes : Nat)
    (dir : SegmentDir) : Prop :=
  match Log.openWithSegmentSize crc32 dir maxBytes with
  | (.ok (_, report), _) => report.records <+: committed
  | (.err _, dir') => dir' = dir
  | (.panic, _) => False

def WholeRecords (crc32 : Checksum) (bytes : Bytes) : Prop :=
  ∃ rs : List Record, (∀ r ∈ rs, r.Fits) ∧ bytes = encodeAll crc32 rs

def LogWorld.Intact (crc32 : Checksum) (w : LogWorld) : Prop :=
  Holds crc32 w.dir w.log w.committed ∧ Numbered w.committed ∧
    (w.dir = SortedMap.empty ∨ ∃ old id active, OnDisk crc32 w.dir old id active [] ∧
      w.committed = old.flatMap Prod.snd ++ active)

theorem Holds.live_disk {dir : SegmentDir} {log : Log} {records : List Record}
    (h : Holds crc32 dir (some log) records) :
    ∃ old id active, OnDisk crc32 dir old id active [] ∧
      records = old.flatMap Prod.snd ++ active := by
  obtain ⟨old, active, hr, hrec⟩ := h.running
  exact ⟨old, _, active, hr.disk, hrec⟩

theorem LogStep.intact {w w' : LogWorld} {e : LogEvent} (he : e.Orderly) (h : w.Intact crc32)
    (hs : LogStep crc32 w e w') : w'.Intact crc32 := by
  obtain ⟨hh, hnum, hdisk⟩ := h
  cases hs with
  | @opened maxBytes log report dir' hlog ho =>
      obtain ⟨log2, torn, dir2, ho2, hl, -⟩ := hh.opens maxBytes
      rw [ho2] at ho
      cases ho
      exact ⟨hl, hnum, .inr hl.live_disk⟩
  | openCrashed hlog ho => exact he.elim
  | @acked log call added log' dir' hlog hfit hexec =>
      rw [hlog] at hh
      have hseq : log.nextSeq = w.committed.length := hh.nextSeq.trans hnum.nextSeq
      obtain ⟨hh', rfl⟩ := hh.acked hfit hexec
      have hcommitted : LogWorld.committed ⟨dir', some log',
          w.calls ++ [⟨Log.numberRecords log.nextSeq call.ops, true⟩]⟩ =
          w.committed ++ Log.numberRecords log.nextSeq call.ops := by
        simp [LogWorld.committed]
      refine ⟨by rw [hcommitted]; exact hh', ?_, .inr ?_⟩
      · rw [hcommitted, hseq]
        exact hnum.append call.ops
      · rw [hcommitted]
        exact hh'.live_disk
  | crashed hlog hfit => exact he.elim
  | stopped hlog => exact ⟨hh.rest, hnum, hdisk⟩

theorem logRun_intact {events : List LogEvent} {w : LogWorld}
    (h : Run (LogStep crc32) LogWorld.start events w) (ho : ∀ e ∈ events, e.Orderly) :
    w.Intact crc32 := by
  induction h with
  | nil => exact ⟨.fresh, rfl, .inl rfl⟩
  | snoc _ hs ih =>
      exact hs.intact (ho _ (by simp)) (ih fun e he => ho e (List.mem_append_left _ he))

theorem WholeRecords.not_torn {bytes : Bytes} (h : WholeRecords crc32 bytes) :
    (recover crc32 bytes).hadTornTail = false := by
  obtain ⟨rs, hrs, rfl⟩ := h
  have hrec := recover_encodeAll crc32 hrs (inert_nil crc32)
  rw [List.append_nil] at hrec
  rw [hrec]
  rfl

/-- A file that ends inside a record and is not the last makes every open fail. -/
theorem open_torn_middle {dir : SegmentDir} {pre : List (Nat × List Record)} {id lastId : Nat}
    {buf last : Bytes} {post : List (Nat × Bytes)} (hfits : ∀ s ∈ pre, ∀ r ∈ s.2, r.Fits)
    (he : dir.entries = pre.map (fun s => (s.1, encodeAll crc32 s.2)) ++
      (id, buf) :: (post ++ [(lastId, last)]))
    (htorn : (recover crc32 buf).hadTornTail = true) (maxBytes : Nat) :
    Log.openWithSegmentSize crc32 dir maxBytes = (.err (.sealedSegmentCorrupted id), dir) := by
  have hlast : dir.keys.getLast? = some lastId := by
    simp only [SortedMap.keys, he, List.map_append, List.map_cons]
    rw [List.getLast?_append, List.getLast?_cons, List.getLast?_append]
    simp
  have hasc := dir.ascending
  rw [he] at hasc
  obtain ⟨-, htail, hcross⟩ := List.pairwise_append.mp hasc
  have hne : ∀ s ∈ pre, s.1 ≠ lastId := by
    intro s hs
    exact (hcross (s.1, encodeAll crc32 s.2) (List.mem_map.mpr ⟨s, hs, rfl⟩) (lastId, last)
      (by simp)).ne
  have hid : id ≠ lastId :=
    (List.rel_of_pairwise_cons htail (show (lastId, last) ∈ post ++ [(lastId, last)] by simp)).ne
  rw [Log.openWithSegmentSize, hlast, he, openLoop_old hne hfits]
  simp only [Log.openLoop, htorn, Option.some.injEq, hid, decide_false, Bool.false_eq_true,
    not_false_eq_true, and_self, if_true]

theorem OnDisk.cut {dir : SegmentDir} {old : List (Nat × List Record)} {id : Nat}
    {active : List Record} (h : OnDisk crc32 dir old id active []) (n : Nat) :
    ∃ tail, OnDisk crc32 (dir.insert id ((encodeAll crc32 active).take n)) old id
      (active.take (wholeRecords active n)) tail := by
  obtain ⟨tail, htake, hinert⟩ := encodeAll_take crc32 h.active_fits n
  have hnext : nextSeqOf (old.flatMap Prod.snd ++ active.take (wholeRecords active n)) < 2 ^ 64 := by
    have hall := h.next
    rw [← List.take_append_drop (wholeRecords active n) active, ← List.append_assoc,
      nextSeqOf_append] at hall
    omega
  rw [htake]
  exact ⟨tail, h.replace (fun r hr => h.active_fits r (List.mem_of_mem_take hr)) hnext hinert⟩

theorem OnDisk.cut_active {dir : SegmentDir} {old : List (Nat × List Record)} {id : Nat}
    {active : List Record} (h : OnDisk crc32 dir old id active []) (n maxBytes : Nat) :
    OpensToPrefix crc32 (old.flatMap Prod.snd ++ active) maxBytes
      (dir.insert id ((encodeAll crc32 active).take n)) := by
  obtain ⟨tail, hdisk⟩ := h.cut n
  obtain ⟨log, dir', hopen, -⟩ := openWithSegmentSize_onDisk hdisk maxBytes
  rw [OpensToPrefix, hopen]
  exact (List.prefix_append_right_inj _).mpr (List.take_prefix _ _)

theorem entries_insert_middle {dir : SegmentDir} {pre post : List (Nat × Bytes)} {id : Nat}
    {buf : Bytes} (h : dir.entries = pre ++ (id, buf) :: post) (buf' : Bytes) :
    (dir.insert id buf').entries = pre ++ (id, buf') :: post := by
  have hasc := dir.ascending
  rw [h] at hasc
  have hpre : ∀ e ∈ pre, e.1 < id := fun e he =>
    (List.pairwise_append.mp hasc).2.2 e he (id, buf) (by simp)
  simp only [SortedMap.insert, h, SortedMap.insertEntry_append hpre, SortedMap.insertEntry,
    lt_irrefl, if_false, if_true]

/-- Skipping a part of a list without repetitions leaves a prefix only at its end. -/
theorem prefix_skip {α : Type} {xs ys zs : List α} (hnd : (xs ++ ys ++ zs).Nodup) (hys : ys ≠ []) :
    xs ++ zs <+: xs ++ ys ++ zs ↔ zs = [] := by
  constructor
  · intro hp
    rw [List.append_assoc, List.prefix_append_right_inj] at hp
    cases zs with
    | nil => rfl
    | cons z zs =>
        cases ys with
        | nil => exact absurd rfl hys
        | cons y ys =>
            obtain ⟨rfl, -⟩ := List.cons_prefix_cons.mp hp
            rw [List.append_assoc] at hnd
            exact absurd (List.nodup_append.mp hnd).2.1 (by simp)
  · rintro rfl
    rw [List.append_nil, List.append_nil]
    exact List.prefix_append xs ys

theorem records_around (pre post : List (Nat × List Record)) (id : Nat)
    (recs active : List Record) :
    (pre ++ (id, recs) :: post).flatMap Prod.snd ++ active =
      pre.flatMap Prod.snd ++ recs ++ (post.flatMap Prod.snd ++ active) := by
  simp only [List.flatMap_append, List.flatMap_cons, List.append_assoc]

theorem records_split (pre post : List (Nat × List Record)) (id k : Nat)
    (recs active : List Record) :
    (pre ++ (id, recs) :: post).flatMap Prod.snd ++ active =
      pre.flatMap Prod.snd ++ recs.take k ++ recs.drop k ++
        (post.flatMap Prod.snd ++ active) := by
  rw [records_around, List.append_assoc _ (recs.take k), List.take_append_drop]

/-- A sealed file cut between two records leaves a log, without the records cut off. -/
theorem OnDisk.take_sealed {dir : SegmentDir} {pre post : List (Nat × List Record)}
    {id lastId : Nat} {recs active : List Record}
    (h : OnDisk crc32 dir (pre ++ (id, recs) :: post) lastId active []) (k : Nat) :
    OnDisk crc32 (dir.insert id (encodeAll crc32 (recs.take k)))
      (pre ++ (id, recs.take k) :: post) lastId active [] := by
  have hentries := h.entries
  rw [List.map_append, List.map_cons, List.append_assoc, List.cons_append] at hentries
  refine ⟨?_, ?_, ?_, h.inert⟩
  · rw [entries_insert_middle hentries]
    simp
  · intro r hr
    refine h.fits r ?_
    rw [records_split pre post id k]
    rw [records_around] at hr
    simp only [List.mem_append] at hr ⊢
    tauto
  · have hnext := h.next
    rw [records_split pre post id k, nextSeqOf_append, nextSeqOf_append] at hnext
    rw [records_around, nextSeqOf_append]
    omega

/-- A sealed file may be cut inside a record, or when nothing was written after it. -/
theorem OnDisk.cut_sealed {dir : SegmentDir} {pre post : List (Nat × List Record)}
    {id lastId : Nat} {recs active : List Record}
    (h : OnDisk crc32 dir (pre ++ (id, recs) :: post) lastId active [])
    (hnum : Numbered ((pre ++ (id, recs) :: post).flatMap Prod.snd ++ active)) {n : Nat}
    (hn : n < (encodeAll crc32 recs).length) (maxBytes : Nat) :
    OpensToPrefix crc32 ((pre ++ (id, recs) :: post).flatMap Prod.snd ++ active) maxBytes
        (dir.insert id ((encodeAll crc32 recs).take n)) ↔
      ¬ WholeRecords crc32 ((encodeAll crc32 recs).take n) ∨
        post.flatMap Prod.snd ++ active = [] := by
  have hrecs : ∀ r ∈ recs, r.Fits := fun r hr => h.fits r (by simp [hr])
  have hpre : ∀ s ∈ pre, ∀ r ∈ s.2, r.Fits := fun s hs r hr => h.fits r (by
    refine List.mem_append_left _ (List.mem_flatMap.mpr ⟨s, ?_, hr⟩)
    simp [hs])
  have hentries : (dir.insert id ((encodeAll crc32 recs).take n)).entries =
      pre.map (fun s => (s.1, encodeAll crc32 s.2)) ++
        (id, (encodeAll crc32 recs).take n) ::
          (post.map (fun s => (s.1, encodeAll crc32 s.2)) ++
            [(lastId, encodeAll crc32 active ++ [])]) := by
    refine entries_insert_middle (?_ : dir.entries = _ ++ (id, encodeAll crc32 recs) :: _) _
    rw [h.entries]
    simp
  obtain ⟨tail, htake, hinert⟩ := encodeAll_take crc32 hrecs n
  have hsub : ∀ r ∈ recs.take (wholeRecords recs n), r.Fits :=
    fun r hr => hrecs r (List.mem_of_mem_take hr)
  have hrecover := recover_encodeAll crc32 hsub hinert
  by_cases ht : tail = []
  · -- the cut falls between two records: the file opens as if it had always ended there
    rw [ht, List.append_nil] at htake
    have hwhole : WholeRecords crc32 ((encodeAll crc32 recs).take n) := ⟨_, hsub, htake⟩
    have hlt : wholeRecords recs n < recs.length := by
      by_contra hge
      rw [List.take_of_length_le (not_lt.mp hge)] at htake
      have hlen := congrArg List.length htake
      rw [List.length_take] at hlen
      omega
    have hdrop : recs.drop (wholeRecords recs n) ≠ [] := by
      intro hnil
      have := List.drop_eq_nil_iff.mp hnil
      omega
    have hdisk := h.take_sealed (wholeRecords recs n)
    rw [← htake] at hdisk
    obtain ⟨log, dir', hopen, -⟩ := openWithSegmentSize_onDisk hdisk maxBytes
    have hnd : ((pre ++ (id, recs) :: post).flatMap Prod.snd ++ active).Nodup := by
      refine List.Nodup.of_map Record.seq ?_
      rw [hnum]
      exact List.nodup_range
    rw [records_split pre post id (wholeRecords recs n)] at hnd
    rw [OpensToPrefix, hopen]
    dsimp only
    rw [records_around, records_split pre post id (wholeRecords recs n), prefix_skip hnd hdrop]
    simp [hwhole]
  · have htorn : (recover crc32 ((encodeAll crc32 recs).take n)).hadTornTail = true := by
      rw [htake, hrecover]
      simp [ht]
    have hnot : ¬ WholeRecords crc32 ((encodeAll crc32 recs).take n) := by
      intro hwhole
      rw [hwhole.not_torn] at htorn
      cases htorn
    rw [OpensToPrefix, open_torn_middle hpre hentries htorn maxBytes]
    simp [hnot]

theorem OnDisk.later_empty_iff {dir : SegmentDir} {pre post : List (Nat × List Record)}
    {id lastId : Nat} {recs active : List Record}
    (h : OnDisk crc32 dir (pre ++ (id, recs) :: post) lastId active []) :
    (∀ j b, id < j → dir.get? j = some b → b = []) ↔ post.flatMap Prod.snd ++ active = [] := by
  have hasc := dir.ascending
  rw [h.entries, List.map_append, List.map_cons, List.append_assoc, List.cons_append] at hasc
  obtain ⟨-, htail, hcross⟩ := List.pairwise_append.mp hasc
  constructor
  · intro hlater
    have hactive : active = [] := by
      have hb := hlater lastId _ (h.old_lt (id, recs) (by simp)) h.file
      rw [List.append_nil] at hb
      exact (encodeAll_eq_nil crc32).mp hb
    have hsealed : post.flatMap Prod.snd = [] := by
      rw [List.flatMap_eq_nil_iff]
      intro s hs
      have hlt : id < s.1 := List.rel_of_pairwise_cons htail
        (List.mem_append_left _ (List.mem_map.mpr ⟨s, hs, rfl⟩))
      have hget : dir.get? s.1 = some (encodeAll crc32 s.2) := by
        refine SortedMap.mem_entries.mp ?_
        rw [h.entries]
        exact List.mem_append_left _ (List.mem_map.mpr ⟨s, by simp [hs], rfl⟩)
      exact (encodeAll_eq_nil crc32).mp (hlater _ _ hlt hget)
    rw [hactive, hsealed]
    rfl
  · intro hnil j b hj hget
    obtain ⟨hsealed, hactive⟩ := List.append_eq_nil_iff.mp hnil
    have hmem := SortedMap.mem_entries.mpr hget
    rw [h.entries, List.map_append, List.map_cons, List.append_assoc, List.cons_append] at hmem
    rcases List.mem_append.mp hmem with hin | hin
    · have hlt := hcross _ hin (id, encodeAll crc32 recs) (by simp)
      exact absurd hj (lt_asymm hlt)
    · rcases List.mem_cons.mp hin with heq | hin
      · cases heq
        exact absurd hj (lt_irrefl _)
      · rcases List.mem_append.mp hin with hin | hin
        · obtain ⟨s, hs, heq⟩ := List.mem_map.mp hin
          cases heq
          rw [List.flatMap_eq_nil_iff.mp hsealed s hs]
          rfl
        · rw [hactive] at hin
          simp only [encodeAll_nil, List.append_nil, List.mem_singleton] at hin
          cases hin
          rfl

/-- After any uninterrupted run, cutting one segment file short is harmless exactly when
the cut falls inside a record or nothing was written after that file. -/
theorem truncated_open_prefix_iff {events : List LogEvent} {w : LogWorld}
    (hrun : Run (LogStep crc32) LogWorld.start events w) (horderly : ∀ e ∈ events, e.Orderly)
    {id : Nat} {file : Bytes} (hfile : w.dir.get? id = some file) {n : Nat}
    (hn : n < file.length) (maxBytes : Nat) :
    OpensToPrefix crc32 w.committed maxBytes (w.dir.insert id (file.take n)) ↔
      ¬ WholeRecords crc32 (file.take n) ∨
        ∀ j b, id < j → w.dir.get? j = some b → b = [] := by
  obtain ⟨-, hnum, hempty | ⟨old, lastId, active, hdisk, hcommitted⟩⟩ :=
    logRun_intact hrun horderly
  · rw [hempty] at hfile
    cases hfile
  · rw [hcommitted] at hnum ⊢
    have hmem := SortedMap.mem_entries.mpr hfile
    rw [hdisk.entries] at hmem
    rcases List.mem_append.mp hmem with hin | hin
    · obtain ⟨s, hs, heq⟩ := List.mem_map.mp hin
      cases heq
      obtain ⟨pre, post, rfl⟩ := List.append_of_mem hs
      rw [hdisk.cut_sealed hnum hn maxBytes, hdisk.later_empty_iff]
    · rw [List.append_nil, List.mem_singleton] at hin
      cases hin
      have hlast : ∀ j b, id < j → w.dir.get? j = some b → b = [] := by
        intro j b hj hget
        have hmem := SortedMap.mem_entries.mpr hget
        rw [hdisk.entries] at hmem
        rcases List.mem_append.mp hmem with hin | hin
        · obtain ⟨s, hs, heq⟩ := List.mem_map.mp hin
          cases heq
          exact absurd hj (lt_asymm (hdisk.old_lt s hs))
        · rw [List.mem_singleton] at hin
          cases hin
          exact absurd hj (lt_irrefl _)
      exact iff_of_true (hdisk.cut_active n maxBytes) (.inr hlast)

def twoSegments : List LogEvent :=
  [.opened 30, .acked (.put [107] [118]), .acked (.put [108] [119])]

def twoSegmentDir : SegmentDir :=
  (SortedMap.empty.insert 0 ((Record.put 0 [107] [118]).encode crc32Ieee)).insert 1
    ((Record.put 1 [108] [119]).encode crc32Ieee)

theorem twoSegments_run :
    Run (LogStep crc32Ieee) LogWorld.start twoSegments
      ⟨twoSegmentDir, some ⟨30, [0], 1, ⟨23, 23⟩, 2⟩,
        [⟨[Record.put 0 [107] [118]], true⟩, ⟨[Record.put 1 [108] [119]], true⟩]⟩ := by
  have hfits : ∀ key value, ∀ op ∈ (Call.put [key] [value]).ops, op.Fits := by
    simp [Call.ops, LogOp.Fits]
  have hopened : LogStep crc32Ieee LogWorld.start (.opened 30)
      ⟨SortedMap.empty.insert 0 [], some ⟨30, [], 0, ⟨0, 0⟩, 0⟩, []⟩ :=
    .opened rfl rfl
  have hfirst := LogStep.acked (w := ⟨SortedMap.empty.insert 0 [], some _, []⟩) rfl (hfits 107 118)
    (show Call.exec crc32Ieee .done (SortedMap.empty.insert 0 []) ⟨30, [], 0, ⟨0, 0⟩, 0⟩ _ =
      (.ok [Record.put 0 [107] [118]], ⟨30, [], 0, ⟨23, 23⟩, 1⟩,
        SortedMap.empty.insert 0 ((Record.put 0 [107] [118]).encode crc32Ieee)) by decide +kernel)
  have hsecond := LogStep.acked (w := ⟨_, some _, [⟨[Record.put 0 [107] [118]], true⟩]⟩) rfl
    (hfits 108 119)
    (show Call.exec crc32Ieee .done
        (SortedMap.empty.insert 0 ((Record.put 0 [107] [118]).encode crc32Ieee))
        ⟨30, [], 0, ⟨23, 23⟩, 1⟩ _ =
      (.ok [Record.put 1 [108] [119]], ⟨30, [0], 1, ⟨23, 23⟩, 2⟩, twoSegmentDir) by decide +kernel)
  exact ((Run.nil.snoc hopened).snoc hfirst).snoc hsecond

/-- Cut in its fifth byte, the first segment is reported as damaged. -/
theorem truncated_open_reports_damage :
    OpensToPrefix crc32Ieee [Record.put 0 [107] [118], Record.put 1 [108] [119]] 30
      (twoSegmentDir.insert 0 (((Record.put 0 [107] [118]).encode crc32Ieee).take 5)) := by
  refine (truncated_open_prefix_iff twoSegments_run (by simp [twoSegments, LogEvent.Orderly])
    (show twoSegmentDir.get? 0 = some ((Record.put 0 [107] [118]).encode crc32Ieee) by
      decide +kernel) (by decide +kernel) 30).mpr (.inl fun hwhole => ?_)
  have htorn : (recover crc32Ieee (((Record.put 0 [107] [118]).encode crc32Ieee).take 5)).hadTornTail
      = true := by decide +kernel
  rw [hwhole.not_torn] at htorn
  cases htorn

/-- Cut to nothing, it is taken for an empty segment: the log opens with the second put
and without the first. -/
theorem truncated_open_skips_a_record :
    Run (LogStep crc32Ieee) LogWorld.start twoSegments
        ⟨twoSegmentDir, some ⟨30, [0], 1, ⟨23, 23⟩, 2⟩,
          [⟨[Record.put 0 [107] [118]], true⟩, ⟨[Record.put 1 [108] [119]], true⟩]⟩ ∧
      Log.openWithSegmentSize crc32Ieee (twoSegmentDir.insert 0 []) 30 =
        (.ok (⟨30, [0], 1, ⟨23, 23⟩, 2⟩, ⟨[Record.put 1 [108] [119]], false⟩),
          twoSegmentDir.insert 0 []) ∧
      ¬ [Record.put 1 [108] [119]] <+: [Record.put 0 [107] [118], Record.put 1 [108] [119]] :=
  ⟨twoSegments_run, by decide +kernel, by decide +kernel⟩

end Damage
end Sietch
