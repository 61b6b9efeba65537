import Sietch.Base.Crc
import Sietch.LogDamage
import Sietch.LogOpen
import Sietch.HeapRuns

/-! Changed bytes on disk. Records and pages carry a checksum of all their other bytes. If it
tells bursts of four bytes apart, as a CRC-32 does, up to four consecutive bytes that change
within one field are never read back as another record or another page. The lengths in a record's header are the exception, for they decide which bytes the
checksum is taken of. -/
namespace Sietch
open ByteString Crc Transition

/-- What the formats rely on: the checksums of bytes that differ in up to four consecutive ones
differ. -/
def SeparatesBursts (crc32 : Checksum) : Prop :=
  ∀ lo hi x y, Burst 4 lo hi x y → crc32 x ≠ crc32 y

theorem crc32Ieee_eq (bytes : Bytes) :
    crc32Ieee bytes =
      (register 0xEDB88320#32 0xFFFFFFFF#32 bytes ^^^ 0xFFFFFFFF#32).toFin := rfl

/-- The CRC-32 of IEEE 802.3 does so: a burst of up to 32 bits changes the register. -/
theorem crc32Ieee_separates : SeparatesBursts crc32Ieee := by
  intro lo hi x y h heq
  rw [crc32Ieee_eq, crc32Ieee_eq] at heq
  have htop : (0xEDB88320#32).getLsbD (32 - 1) = true := by decide
  apply h.register_ne (by decide) htop (by decide) 0xFFFFFFFF#32
  exact (BitVec.xor_left_inj _).mp (BitVec.toFin_inj.mp heq)

variable {crc32 : Checksum}

def crcField (crc32 : Checksum) (bytes : Bytes) : Bytes := leBytes 4 (crc32 bytes).val

theorem crcField_ne (hsep : SeparatesBursts crc32) (lo hi : Nat) (x y : Bytes)
    (h : Burst 4 lo hi x y) : crcField crc32 x ≠ crcField crc32 y := by
  intro heq
  apply hsep lo hi x y h
  apply Fin.ext
  have hdecoded := congrArg ofLeBytes heq
  unfold crcField at hdecoded
  rwa [ofLeBytes_leBytes (crc32 x).isLt, ofLeBytes_leBytes (crc32 y).isLt] at hdecoded

section Records
variable {r : Record} {before after : List Record} {file file' x y t : Bytes}

def Record.covered (r : Record) : Bytes :=
  [Record.typeByte r.recordType] ++ leBytes 8 r.seq ++ leBytes 4 r.key.length ++
    leBytes 4 r.value.length

theorem Record.encode_framed (crc32 : Checksum) (r : Record) :
    Framed (crcField crc32) 4 17 (r.encode crc32) := by
  refine ⟨r.covered, r.key ++ r.value, ?_, by simp [covered], by simp [crcField]⟩
  have hinput : checksumInput (typeByte r.recordType) r.seq r.key r.value =
      r.covered ++ (r.key ++ r.value) := by
    simp only [checksumInput, covered, List.append_assoc]
  unfold encode crcField
  rw [← hinput]
  simp only [covered, List.append_assoc]

/-- Up to four bytes of the record at the offset change: in the type and the number, in the
checksum, or in the key and the value. -/
def RecordHit (offset : Nat) (r : Record) (x y : Bytes) : Prop :=
  Burst 4 offset (offset + 9) x y ∨ Burst 4 (offset + 17) (offset + 21) x y ∨
    Burst 4 (offset + 21) (offset + r.encodedLen) x y

theorem RecordHit.window (h : RecordHit 0 r x y) :
    ∃ lo hi, Burst 4 lo hi x y ∧ hi ≤ r.encodedLen ∧ InField 4 17 lo hi ∧ (hi ≤ 9 ∨ 17 ≤ lo) := by
  have hlen : 21 ≤ r.encodedLen := by
    simp only [Record.encodedLen, headerLen]
    omega
  unfold InField
  rcases h with h | h | h
  · exact ⟨_, _, h, by omega, by omega, by omega⟩
  · exact ⟨_, _, h, by omega, by omega, by omega⟩
  · exact ⟨_, _, h, by omega, by omega, by omega⟩

theorem totalLen_of_burst {lo hi : Nat} (hr : r.Fits)
    (h : Burst 4 lo hi (r.encode crc32 ++ t) y) (hapart : hi ≤ 9 ∨ 17 ≤ lo) :
    headerLen + ofLeBytes (slice y 9 13) + ofLeBytes (slice y 13 17) = r.encodedLen := by
  have hslice : ∀ b : Bytes, ∀ a c, slice b a c = readAt b a (c - a) := by
    intro b a c
    rw [slice, readAt, List.drop_take]
  have htotal := (headerOf_encode crc32 r t).totalLen hr
  rw [hslice, hslice] at htotal
  rw [hslice, hslice, ← h.readAt_eq (by omega), ← h.readAt_eq (by omega)]
  exact htotal

theorem decode_hit (hsep : SeparatesBursts crc32) (hr : r.Fits) (h : RecordHit 0 r (r.encode crc32 ++ t) y) :
    decode crc32 y = .checksumMismatch := by
  obtain ⟨lo, hi, hburst, hhi, hfield, hapart⟩ := h.window
  have htotal := totalLen_of_burst hr hburst hapart
  obtain ⟨x, rfl, hx⟩ := hburst.left (by rwa [Record.length_encode])
  have hxlen : x.length = r.encodedLen := by rw [← hx.length_eq, Record.length_encode]
  have hge : headerLen ≤ r.encodedLen := by
    simp only [Record.encodedLen]
    omega
  have hlen : (x ++ t).length = r.encodedLen + t.length := by rw [List.length_append, hxlen]
  cases hdecode : decode crc32 (x ++ t) with
  | checksumMismatch => rfl
  | incomplete =>
      exfalso
      unfold decode at hdecode
      rw [if_neg (by omega)] at hdecode
      simp only [htotal] at hdecode
      rw [if_neg (by omega)] at hdecode
      split_ifs at hdecode
  | ok r' n =>
      -- the accepted record would be another frame in the same bytes
      exfalso
      obtain ⟨hn, -, htake, hfits⟩ := decode_ok hdecode
      have hsame : r'.encodedLen = r.encodedLen := by
        have hheader := headerOf_encode crc32 r' ((x ++ t).drop n)
        rw [htake, List.take_append_drop] at hheader
        rw [← hheader.totalLen hfits, htotal]
      rw [hn, hsame, ← hxlen, List.take_left] at htake
      have hframed := r'.encode_framed crc32
      rw [htake] at hframed
      exact (r.encode_framed crc32).not_burst (crcField_ne hsep) hframed hfield hx

theorem RecordHit.behind {p : Bytes} (h : RecordHit p.length r (p ++ x) y) :
    ∃ y', y = p ++ y' ∧ RecordHit 0 r x y' := by
  have shifted : ∀ {lo hi}, Burst 4 (p.length + lo) (p.length + hi) (p ++ x) y →
      ∃ y', y = p ++ y' ∧ Burst 4 lo hi x y' := by
    intro lo hi hburst
    obtain ⟨y', rfl, hy'⟩ := hburst.right (by omega)
    rw [Nat.add_sub_cancel_left, Nat.add_sub_cancel_left] at hy'
    exact ⟨y', rfl, hy'⟩
  unfold RecordHit
  simp only [Nat.zero_add]
  rcases h with h | h | h
  · obtain ⟨y', hy, hb⟩ := @shifted 0 9 h
    exact ⟨y', hy, .inl hb⟩
  · obtain ⟨y', hy, hb⟩ := shifted h
    exact ⟨y', hy, .inr (.inl hb)⟩
  · obtain ⟨y', hy, hb⟩ := shifted h
    exact ⟨y', hy, .inr (.inr hb)⟩

theorem recover_hit (hsep : SeparatesBursts crc32)
    (hrec : (recover crc32 file).records = before ++ r :: after)
    (h : RecordHit (encodeAll crc32 before).length r file file') :
    recover crc32 file' = ⟨before, (encodeAll crc32 before).length, true⟩ := by
  have hparses := recover_parses crc32 file
  have hbytes : file = encodeAll crc32 before ++ (r.encode crc32 ++
      (encodeAll crc32 after ++ file.drop (recover crc32 file).validLen)) := by
    have hsplit := List.take_append_drop (recover crc32 file).validLen file
    rw [← hparses.bytes, hrec, encodeAll_append, encodeAll_cons] at hsplit
    simpa only [List.append_assoc] using hsplit.symm
  have hfits : ∀ q ∈ before ++ r :: after, q.Fits := hrec ▸ hparses.fits
  rw [hbytes] at h
  obtain ⟨y, rfl, hy⟩ := h.behind
  have hmismatch := decode_hit hsep (hfits r (by simp)) hy
  have hinert : Inert crc32 y := by
    intro q n
    rw [hmismatch]
    exact DecodeOutcome.noConfusion
  have hne : y ≠ [] := by
    rintro rfl
    have hincomplete : decode crc32 [] = .incomplete := rfl
    rw [hincomplete] at hmismatch
    cases hmismatch
  rw [recover_encodeAll crc32 (fun q hq => hfits q (by simp [hq])) hinert]
  simp [hne]

end Records

/-- A record that was hit is never reported changed. In the last file, `open` reports what was
there before it and tells of the cut; in any other file it fails with the file's id. -/
theorem open_after_hit {crc32 : Checksum} {dir dir' : SegmentDir} {log : Log} {report : OpenReport}
    {maxBytes id : Nat} {file file' : Bytes} {before after : List Record} {r : Record}
    (hsep : SeparatesBursts crc32)
    (hopen : Log.openWithSegmentSize crc32 dir maxBytes = (.ok (log, report), dir'))
    (hfile : dir.get? id = some file)
    (hrec : (recover crc32 file).records = before ++ r :: after)
    (hhit : RecordHit (encodeAll crc32 before).length r file file') :
    if id = log.activeId then
      ∃ log1 report1 dir1, Log.openWithSegmentSize crc32 (dir.insert id file') maxBytes =
          (.ok (log1, report1), dir1) ∧
        report.records = report1.records ++ r :: after ∧ report1.recoveredFromTornTail = true
    else Log.openWithSegmentSize crc32 (dir.insert id file') maxBytes =
      (.err (.sealedSegmentCorrupted id), dir.insert id file') := by
  have hrecover := recover_hit hsep hrec hhit
  have htorn : Torn crc32 file' := by
    unfold Torn
    rw [hrecover]
  obtain ⟨pre, post, he⟩ := List.append_of_mem (SortedMap.mem_entries.mpr hfile)
  have hentries := entries_insert_middle he file'
  rcases List.eq_nil_or_concat post with rfl | ⟨later, ⟨lastId, last⟩, rfl⟩
  · obtain ⟨hpre, hroom, rfl, rfl, -⟩ := open_ok he hopen
    have hrecords : recordsIn crc32 dir.entries =
        recordsIn crc32 (dir.insert id file').entries ++ r :: after := by
      rw [he, hentries]
      simp [recordsIn, hrec, hrecover]
    have hroom' : nextSeqOf (recordsIn crc32 (dir.insert id file').entries) < 2 ^ 64 := by
      rw [hrecords, nextSeqOf_append] at hroom
      exact (le_max_left _ _).trans_lt hroom
    rw [if_pos rfl, open_whole hentries hpre, if_neg (not_le.mpr hroom')]
    exact ⟨_, _, _, rfl, hrecords, by rw [hrecover]⟩
  · -- the file is not the last one, which the log appends to
    rw [List.concat_eq_append] at he hentries
    have hlast : dir.entries = (pre ++ (id, file) :: later) ++ [(lastId, last)] := by
      rw [he, List.append_assoc, List.cons_append]
    obtain ⟨hpre, -, rfl, -, -⟩ := open_ok hlast hopen
    have hne : id ≠ lastId := by
      have hasc := dir.ascending
      rw [hlast] at hasc
      exact ((List.pairwise_append.mp hasc).2.2 (id, file) (by simp) (lastId, last) (by simp)).ne
    rw [if_neg hne]
    exact open_names_torn hentries (by simp) (fun f hf => hpre f (by simp [hf])) htorn maxBytes

set_option maxRecDepth 100000 in
theorem open_after_hit_sealed :
    Log.openWithSegmentSize crc32Ieee (((SortedMap.empty.insert 0
        ((Record.put 0 [107] [118]).encode crc32Ieee)).insert 1 []).insert 0
        (((Record.put 0 [107] [118]).encode crc32Ieee).take 22 ++ [119])) 9 =
      (.err (.sealedSegmentCorrupted 0), ((SortedMap.empty.insert 0
        ((Record.put 0 [107] [118]).encode crc32Ieee)).insert 1 []).insert 0
        (((Record.put 0 [107] [118]).encode crc32Ieee).take 22 ++ [119])) := by
  have hopen : Log.openWithSegmentSize crc32Ieee ((SortedMap.empty.insert 0
      ((Record.put 0 [107] [118]).encode crc32Ieee)).insert 1 []) 9 =
        (.ok (⟨9, [0], 1, ⟨0, 0⟩, 1⟩, ⟨[Record.put 0 [107] [118]], false⟩),
          (SortedMap.empty.insert 0 ((Record.put 0 [107] [118]).encode crc32Ieee)).insert 1 []) := by
    decide +kernel
  have hrec : (recover crc32Ieee ((Record.put 0 [107] [118]).encode crc32Ieee)).records =
      [] ++ Record.put 0 [107] [118] :: [] := by
    decide +kernel
  have hburst : Burst 4 21 23 ((Record.put 0 [107] [118]).encode crc32Ieee)
      (((Record.put 0 [107] [118]).encode crc32Ieee).take 22 ++ [119]) :=
    ⟨((Record.put 0 [107] [118]).encode crc32Ieee).take 22, [118], [119], [], by decide +kernel,
      by decide +kernel, rfl, by decide, by decide, by decide +kernel, by decide +kernel⟩
  have hfile : ((SortedMap.empty.insert 0 ((Record.put 0 [107] [118]).encode crc32Ieee)).insert 1
      []).get? 0 = some ((Record.put 0 [107] [118]).encode crc32Ieee) := by
    decide +kernel
  have hhit := open_after_hit crc32Ieee_separates hopen hfile hrec (.inr (.inr hburst))
  rwa [if_neg (by decide)] at hhit

section Pages
variable {p : Page} {lo hi : Nat} {y : Bytes}

theorem Page.encode_framed (crc32 : Checksum) (hp : p.bytes.length = pageSize) :
    Framed (crcField crc32) 4 4 (p.encode crc32) := by
  have hfit : 4 + (leBytes 4 (computeChecksum crc32 p.bytes)).length ≤ p.bytes.length := by
    rw [length_leBytes, hp]
    decide
  refine ⟨p.bytes.take 4, p.bytes.drop 8, ?_, by simp [hp, pageSize], by simp [crcField]⟩
  rw [encode, writeAt_inside hfit, length_leBytes]
  rfl

theorem Page.decode_ok {b : Bytes} (h : Page.decode crc32 b = .ok p) :
    b.length = pageSize ∧ p.bytes = b := by
  unfold Page.decode at h
  split_ifs at h with hlen hmagic
  dsimp only at h
  split at h
  · cases h
  · split_ifs at h
    cases h
    exact ⟨not_not.mp hlen, rfl⟩

theorem Page.decode_hit (hsep : SeparatesBursts crc32) (hp : p.Sound)
    (hburst : Burst 4 lo hi (p.encode crc32) y) (hfield : InField 4 4 lo hi) : ∃ e, Page.decode crc32 y = .err e := by
  cases hdecode : Page.decode crc32 y with
  | err e => exact ⟨e, rfl⟩
  | panic =>
      exfalso
      unfold Page.decode at hdecode
      split_ifs at hdecode
      dsimp only at hdecode
      split at hdecode
      · cases hdecode
      · split_ifs at hdecode
  | ok q =>
      exfalso
      obtain ⟨hlen, rfl⟩ := Page.decode_ok hdecode
      have hframed := Page.encode_framed crc32 hlen
      rw [Page.encode_decode hdecode] at hframed
      exact (Page.encode_framed crc32 hp.size).not_burst (crcField_ne hsep) hframed hfield hburst

end Pages

/-- The window lies outside the page at the offset, or within one field of it. -/
def PageField (offset lo hi : Nat) : Prop :=
  hi ≤ offset ∨ offset + pageSize ≤ lo ∨
    (offset ≤ lo ∧ hi ≤ offset + pageSize ∧ InField 4 4 (lo - offset) (hi - offset))

/-- A single byte always lies in one field. -/
theorem PageField.single (offset at' : Nat) : PageField offset at' (at' + 1) := by
  unfold PageField InField pageSize
  omega

namespace HeapPageStore
variable {s t : HeapPageStore crc32} {heap heap' : Bytes} {lo hi offset : Nat} {id : PageId}
  {page : Page} {locations : SegmentDir}

theorem readPage_hit (hsep : SeparatesBursts crc32) (hburst : Burst 4 lo hi heap heap') (hfield : PageField offset lo hi)
    (hat : At crc32 heap offset page) (hget : s.locations.get? id = some offset)
    (hlong : wholeLen heap ≤ s.dir.heap.length)
    (hheap : readAt s.dir.heap offset pageSize = readAt heap' offset pageSize) :
    s.readPage id = .ok (some (page.encoded crc32)) ∨ ∃ e, s.readPage id = .err e := by
  have hinside := hat.inside
  have hle := wholeLen_le heap
  unfold readPage
  simp only [hget]
  rw [if_neg (by omega), hheap]
  have same : readAt heap' offset pageSize = readAt heap offset pageSize →
      Page.decode crc32 (readAt heap' offset pageSize) = .ok (page.encoded crc32) := by
    intro heq
    rw [heq, hat.bytes, Page.decode_encode hat.sound]
  rcases hfield with hafter | hbefore | ⟨hlo, hhi, hfield⟩
  · rw [same (hburst.readAt_eq (.inl hafter)).symm]
    exact .inl rfl
  · rw [same (hburst.readAt_eq (.inr hbefore)).symm]
    exact .inl rfl
  · have hpage := hburst.readAt hlo hhi (by omega)
    rw [hat.bytes] at hpage
    obtain ⟨e, he⟩ := Page.decode_hit hsep hat.sound hpage hfield
    rw [he]
    exact .inr ⟨_, rfl⟩

theorem cut_heap (heap : Bytes) :
    (if heap.length % pageSize = 0 then heap
      else setLen heap (heap.length - heap.length % pageSize)) = heap.take (wholeLen heap) := by
  by_cases hwhole : heap.length % pageSize = 0
  · rw [if_pos hwhole, wholeLen, hwhole, Nat.sub_zero, List.take_length]
  · rw [if_neg hwhole, ← wholeLen, setLen_of_le (wholeLen_le _)]

/-- `open` looks at the length of the heap file only. -/
theorem openStore_heap (heap' : Bytes)
    (hopen : openStore crc32 ⟨heap, locations⟩ = .ok s) :
    ∃ t, openStore crc32 ⟨heap', locations⟩ = .ok t ∧ t.locations = s.locations ∧
      t.dir.heap = heap'.take (wholeLen heap') := by
  unfold openStore at hopen ⊢
  simp only [cut_heap] at hopen ⊢
  rcases hlog : Log.openDefault crc32 locations with ⟨out, logDir⟩
  cases out with
  | err e => simp only [hlog, reduceCtorEq] at hopen
  | panic => simp only [hlog, reduceCtorEq] at hopen
  | ok opened =>
      obtain ⟨log, report⟩ := opened
      simp only [hlog] at hopen ⊢
      cases hreplay : replayLocations report.records .empty none with
      | err e => simp [hreplay] at hopen
      | panic => simp [hreplay] at hopen
      | ok found =>
          simp only [hreplay, Outcome.ok_bind] at hopen ⊢
          split_ifs at hopen ⊢
          injection hopen with hopen
          subst hopen
          exact ⟨_, rfl, rfl, rfl⟩

end HeapPageStore

/-- Up to four changed bytes within a field of a page, and so any single byte, after any run:
the store opens, and every page reads back as it was written, or not at all. -/
theorem heap_hit_never_misread {crc32 : Checksum} {events : List HeapEvent}
    {w : HeapWorld crc32} {lo hi : Nat} {heap' : Bytes} (hsep : SeparatesBursts crc32)
    (hrun : Run (HeapStep crc32) HeapWorld.start events w)
    (hburst : Burst 4 lo hi w.dir.heap heap') :
    ∃ pages s, Run PageMapStep (fun _ => none) events pages ∧ w.Reads pages ∧
      HeapPageStore.openStore crc32 ⟨heap', w.dir.locations⟩ = .ok s ∧
      ∀ t, t = s ∨ (∃ u, w.store = some u ∧ t = { u with dir := { u.dir with heap := heap' } }) →
        ∀ id, (∀ offset, t.locations.get? id = some offset → PageField offset lo hi) →
          t.readPage id = .ok ((pages id).map (Page.encoded crc32)) ∨
            ∃ e, t.readPage id = .err e := by
  obtain ⟨pages, hmap, hinv⟩ := HeapWorld.run_inv hrun
  obtain ⟨records, hholding, hlive⟩ := hinv.files
  obtain ⟨s0, hopen, hrep, -⟩ := HeapPageStore.openStore_holding hholding
  obtain ⟨s, hs, hlocs, hheap⟩ := HeapPageStore.openStore_heap heap' hopen
  have hlen := hburst.length_eq
  have hwhole : HeapPageStore.wholeLen heap' = HeapPageStore.wholeLen w.dir.heap := by
    unfold HeapPageStore.wholeLen
    rw [hlen]
  have hle := HeapPageStore.wholeLen_le w.dir.heap
  refine ⟨pages, s, hmap, hinv.reads, hs, ?_⟩
  intro t ht id hfield
  -- the reopened store and the running one have the same locations and the same whole pages
  have hstore : t.locations = HeapPageStore.locate records .empty ∧
      HeapPageStore.wholeLen w.dir.heap ≤ t.dir.heap.length ∧
      ∀ offset, offset + pageSize ≤ HeapPageStore.wholeLen w.dir.heap →
        readAt t.dir.heap offset pageSize = readAt heap' offset pageSize := by
    rcases ht with rfl | ⟨u, hu, rfl⟩
    · refine ⟨hlocs.trans hrep.locations, ?_, ?_⟩
      · rw [hheap, List.length_take, hwhole]
        omega
      · intro offset hinside
        rw [hheap, hwhole, readAt_take hinside]
    · exact ⟨(hlive u hu).1.locations, hle.trans hlen.le, fun _ _ => rfl⟩
  obtain ⟨hmapped, hlong, hread⟩ := hstore
  have hlocated := hholding.located id
  rw [← hmapped] at hlocated
  cases hget : t.locations.get? id with
  | none =>
      left
      rw [hget] at hlocated
      cases hpage : pages id with
      | none => simp [HeapPageStore.readPage, hget]
      | some page =>
          rw [hpage] at hlocated
          cases hlocated
  | some offset =>
      rw [hget] at hlocated
      cases hpage : pages id with
      | none =>
          rw [hpage] at hlocated
          cases hlocated
      | some page =>
          rw [hpage] at hlocated
          cases hlocated with
          | some hat =>
              exact HeapPageStore.readPage_hit hsep hburst (hfield offset hget) hat hget hlong
                (hread offset hat.inside)

theorem heap_hit_never_misread_first_byte :
    ∃ w heap' pages s, Run (HeapStep crc32Ieee) HeapWorld.start
        [.opened, .wrote 0 (Page.new .data)] w ∧ heap' ≠ w.dir.heap ∧
      Run PageMapStep (fun _ => none) [.opened, .wrote 0 (Page.new .data)] pages ∧
      HeapPageStore.openStore crc32Ieee ⟨heap', w.dir.locations⟩ = .ok s ∧
      ∀ id, s.readPage id = .ok ((pages id).map (Page.encoded crc32Ieee)) ∨
        ∃ e, s.readPage id = .err e := by
  have hdata := (Page.new_rep .data).sound
  obtain ⟨s, hopen, hrep, -, hseq, hheap⟩ :=
    HeapPageStore.openStore_holding (HeapPageStore.holding_empty crc32Ieee)
  have hlen : s.heapLen = 0 := by
    rw [← hrep.heapLen, hheap]
    rfl
  have hid : (0 : PageId) + 1 < 2 ^ 64 := by decide
  obtain ⟨u, s', hwrite, hrep', -, hlen', -⟩ := hrep.writePage hdata hid (by rw [hlen]; decide)
    (by rw [hseq]; decide)
  have hrun := (Run.nil.snoc (HeapStep.opened (w := HeapWorld.start) rfl hopen)).snoc
    (HeapStep.wrote rfl (.inl rfl) hdata hwrite)
  have hsome : 0 < s'.dir.heap.length := by
    rw [hrep'.heapLen, hlen']
    exact Nat.add_pos_right _ (by decide)
  obtain ⟨b, hb⟩ : ∃ b, s'.dir.heap[0]? = some b := ⟨_, List.getElem?_eq_getElem hsome⟩
  have hburst := Burst.of_set (n := 4) hb (by simp : b ≠ b + 1) (by decide)
  obtain ⟨pages, t, hmap, -, ht, hread⟩ := heap_hit_never_misread crc32Ieee_separates hrun hburst
  exact ⟨_, _, pages, t, hrun, hburst.ne.symm, hmap, ht,
    fun id => hread t (.inl rfl) id (fun offset _ => PageField.single offset 0)⟩

end Sietch
