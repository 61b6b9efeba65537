import Sietch.BTreePage

/-! What the pages of a B+tree are read as. A node that was built is read back as it was
given, and it can be built exactly when its records fit in a page. -/
namespace Sietch
open ByteString

section Fields
variable {a b c : Bytes}

/-- A field of a record is read back wherever the record is cut around it. -/
theorem subslice_of_parts {buf : Bytes} {pos len : Nat} (h : buf = a ++ b ++ c)
    (hpos : a.length = pos) (hlen : b.length = len) : subslice buf pos len = some b := by
  subst h hpos hlen
  rw [subslice, if_pos (by simp)]
  simp [readAt]

theorem u16At_of_parts {buf : Bytes} {pos v : Nat} (h : buf = a ++ leBytes 2 v ++ c)
    (hpos : a.length = pos) (hv : v < 2 ^ 16) : u16At buf pos = some v := by
  rw [u16At, subslice_of_parts h hpos (length_leBytes 2 v), Option.map_some,
    ofLeBytes_leBytes hv]

theorem u64At_of_parts {buf : Bytes} {pos v : Nat} (h : buf = a ++ leBytes 8 v ++ c)
    (hpos : a.length = pos) (hv : v < 2 ^ 64) : u64At buf pos = some v := by
  rw [u64At, subslice_of_parts h hpos (length_leBytes 8 v), Option.map_some,
    ofLeBytes_leBytes hv]

end Fields

theorem decode_encodeLeafEntry {e : Entry} (hk : e.1.length < 2 ^ 16) (hv : e.2.length < 2 ^ 16) :
    decodeLeafEntry (encodeLeafEntry e) = some e := by
  obtain ⟨key, value⟩ := e
  simp only at hk hv
  have h1 : u16At (encodeLeafEntry (key, value)) 0 = some key.length :=
    u16At_of_parts (a := []) (c := key ++ leBytes 2 value.length ++ value)
      (by simp [encodeLeafEntry]) rfl hk
  have h2 : subslice (encodeLeafEntry (key, value)) 2 key.length = some key :=
    subslice_of_parts (a := leBytes 2 key.length) (c := leBytes 2 value.length ++ value)
      (by simp [encodeLeafEntry]) (length_leBytes ..) rfl
  have h3 : u16At (encodeLeafEntry (key, value)) (2 + key.length) = some value.length :=
    u16At_of_parts (a := leBytes 2 key.length ++ key) (c := value)
      (by simp [encodeLeafEntry]) (by simp) hv
  have h4 : subslice (encodeLeafEntry (key, value)) (4 + key.length) value.length = some value :=
    subslice_of_parts (a := leBytes 2 key.length ++ key ++ leBytes 2 value.length) (c := [])
      (by simp [encodeLeafEntry]) (by simp; omega) rfl
  simp [decodeLeafEntry, h1, h2, h3, h4]

theorem decode_encodeLeafSibling {next : PageId} (h : next < 2 ^ 64) :
    decodeLeafSibling (encodeLeafSibling next) = some next := by
  have h1 : u16At (encodeLeafSibling next) 0 = some siblingSlotSentinel :=
    u16At_of_parts (a := []) (c := leBytes 8 next) rfl rfl (by decide)
  have h2 : u64At (encodeLeafSibling next) 2 = some next :=
    u64At_of_parts (a := leBytes 2 siblingSlotSentinel) (c := []) (by simp [encodeLeafSibling])
      (length_leBytes ..) h
  simp [decodeLeafSibling, h1, h2]

/-- A key of `u16::MAX` bytes would be taken for the mark of an entry without a key. -/
theorem decode_encodeInternalEntry {e : InternalEntry}
    (hk : ∀ key, e.key = some key → key.length < siblingSlotSentinel) (hc : e.child < 2 ^ 64) :
    decodeInternalEntry (encodeInternalEntry e) = some e := by
  obtain ⟨key, child⟩ := e
  simp only at hk hc
  cases key with
  | none =>
      have h1 : u16At (encodeInternalEntry ⟨none, child⟩) 0 = some siblingSlotSentinel :=
        u16At_of_parts (a := []) (c := leBytes 8 child) rfl rfl (by decide)
      have h2 : u64At (encodeInternalEntry ⟨none, child⟩) 2 = some child :=
        u64At_of_parts (a := leBytes 2 siblingSlotSentinel) (c := [])
          (by simp [encodeInternalEntry]) (length_leBytes ..) hc
      simp [decodeInternalEntry, h1, h2]
  | some key =>
      have hlen := hk key rfl
      have hmax : siblingSlotSentinel = 65535 := rfl
      have h1 : u16At (encodeInternalEntry ⟨some key, child⟩) 0 = some key.length :=
        u16At_of_parts (a := []) (c := key ++ leBytes 8 child) (by simp [encodeInternalEntry]) rfl
          (by omega)
      have h2 : subslice (encodeInternalEntry ⟨some key, child⟩) 2 key.length = some key :=
        subslice_of_parts (a := leBytes 2 key.length) (c := leBytes 8 child)
          (by simp [encodeInternalEntry]) (length_leBytes ..) rfl
      have h3 : u64At (encodeInternalEntry ⟨some key, child⟩) (2 + key.length) = some child :=
        u64At_of_parts (a := leBytes 2 key.length ++ key) (c := [])
          (by simp [encodeInternalEntry]) (by simp) hc
      simp [decodeInternalEntry, h1, h2, h3, Nat.ne_of_lt hlen]

/-- The records fit in a page, each with its slot. -/
def RecordsFit (records : List Bytes) : Prop :=
  pageHeaderLen + (records.map (fun r => slotLen + r.length)).sum ≤ pageSize

instance (records : List Bytes) : Decidable (RecordsFit records) :=
  inferInstanceAs (Decidable (_ ≤ _))

theorem RecordsFit.sublist {rs ss : List Bytes} (h : RecordsFit ss) (hsub : rs.Sublist ss) :
    RecordsFit rs :=
  le_trans (Nat.add_le_add_left ((hsub.map _).sum_le_sum (fun _ _ => Nat.zero_le _)) _) h

/-- A page that holds exactly these records, none of them deleted. -/
abbrev Page.Lists (p : Page) (records : List Bytes) : Prop := p.Rep (records.map (⟨·, true⟩))

theorem usedBytes_live (records : List Bytes) :
    4 * records.length + usedBytes (records.map (⟨·, true⟩)) =
      (records.map (fun r => slotLen + r.length)).sum := by
  have hslot : slotLen = 4 := rfl
  induction records with
  | nil => rfl
  | cons r rs ih =>
      simp only [usedBytes, List.map_cons, List.sum_cons, List.length_cons] at ih ⊢
      omega

section Build
variable {p : Page} {done : List Bytes}

theorem Page.Lists.fit (h : p.Lists done) : RecordsFit done := by
  have hroom := h.room
  have hsum := usedBytes_live done
  rw [List.length_map] at hroom
  rw [RecordsFit]
  omega

theorem recordsFit_snoc_iff (done : List Bytes) (r : Bytes) :
    RecordsFit (done ++ [r]) ↔
      pageHeaderLen + 4 * ((done.map (fun r => (⟨r, true⟩ : Slot))).length + 1) +
        usedBytes (done.map (⟨·, true⟩)) + r.length ≤ pageSize := by
  have hslot : slotLen = 4 := rfl
  have hsum := usedBytes_live done
  rw [RecordsFit, List.map_append, List.sum_append, List.length_map]
  simp only [List.map_cons, List.map_nil, List.sum_cons, List.sum_nil]
  omega

/-- The records are inserted in order when they fit. -/
theorem insertRecords_ok (done : List Bytes) {p : Page} {records : List Bytes} (h : p.Lists done)
    (hfit : RecordsFit (done ++ records)) :
    ∃ p', insertRecords p records = .ok p' ∧ p'.pageType = p.pageType ∧
      p'.Lists (done ++ records) := by
  induction records generalizing p done with
  | nil => exact ⟨p, rfl, rfl, by simpa using h⟩
  | cons r rs ih =>
      have hone : RecordsFit (done ++ [r]) := hfit.sublist (by simp)
      obtain ⟨p₁, hinsert, htype, hrep⟩ := Page.insert_ok h ((recordsFit_snoc_iff done r).mp hone)
      have hlists : p₁.Lists (done ++ [r]) := by simpa [Page.Lists] using hrep
      obtain ⟨p₂, hrest, htype₂, hrep₂⟩ := ih (done ++ [r]) hlists (by simpa using hfit)
      refine ⟨p₂, ?_, htype₂.trans htype, by simpa using hrep₂⟩
      rw [insertRecords, hinsert]
      exact hrest

/-- The first record that does not fit stops the rebuilding. -/
theorem insertRecords_full (done : List Bytes) {p : Page} {records : List Bytes} (h : p.Lists done)
    (hfull : ¬ RecordsFit (done ++ records)) :
    ∃ need free, insertRecords p records = .err (.full need free) := by
  induction records generalizing p done with
  | nil => exact absurd (by simpa using h.fit) hfull
  | cons r rs ih =>
      by_cases hone : RecordsFit (done ++ [r])
      · obtain ⟨p₁, hinsert, -, hrep⟩ := Page.insert_ok h ((recordsFit_snoc_iff done r).mp hone)
        have hlists : p₁.Lists (done ++ [r]) := by simpa [Page.Lists] using hrep
        obtain ⟨need, free, hrest⟩ := ih (done ++ [r]) hlists (by simpa using hfull)
        refine ⟨need, free, ?_⟩
        rw [insertRecords, hinsert]
        exact hrest
      · rw [recordsFit_snoc_iff, not_le] at hone
        have hstop := congrArg (fun o => o >>= fun q => insertRecords q.2 rs)
          (Page.insert_full h hone)
        exact ⟨_, _, hstop⟩

end Build

section Read
variable {p : Page} {records : List Bytes}

theorem Page.Lists.slotIds (h : p.Lists records) :
    p.slotIds = .ok (List.range records.length) := by
  rw [slotIds_eq h, List.length_map]
  congr 1
  refine List.filter_eq_self.mpr (fun i hi => ?_)
  rw [List.getElem?_map, List.getElem?_eq_getElem (List.mem_range.mp hi)]
  rfl

theorem Page.Lists.get (h : p.Lists records) {i : Nat} (hi : i < records.length) :
    p.get i = .ok records[i] := by
  refine get_live h ?_
  rw [List.getElem?_map, List.getElem?_eq_getElem hi]
  rfl

theorem mapM_of_forall₂ {α β : Type} {f : α → Option β} {xs : List α} {ys : List β}
    (h : List.Forall₂ (fun x y => f x = some y) xs ys) : xs.mapM f = some ys := by
  induction h with
  | nil => rfl
  | cons hx _ ih => rw [List.mapM_cons, hx, ih]; rfl

/-- The slots from `k` on are decoded to what was encoded. -/
theorem Page.Lists.mapM {α : Type} {encode : α → Bytes} {decode : Bytes → Option α}
    (head : List Bytes) {xs : List α} (h : p.Lists (head ++ xs.map encode))
    (hround : ∀ x ∈ xs, decode (encode x) = some x) :
    ((List.range (head ++ xs.map encode).length).drop head.length).mapM
      (fun s => do decode (← (p.get s).toOption)) = some xs := by
  refine mapM_of_forall₂ (List.forall₂_iff_get.mpr ⟨by simp, fun i hi hx => ?_⟩)
  have hlt : head.length + i < (head ++ xs.map encode).length := by
    simp only [List.length_append, List.length_map]
    omega
  have hslot : ((List.range (head ++ xs.map encode).length).drop head.length).get ⟨i, hi⟩ =
      head.length + i := by simp
  rw [hslot, h.get hlt]
  have hget : (head ++ xs.map encode)[head.length + i] = encode xs[i] := by
    rw [List.getElem_append_right (by omega)]
    simp
  rw [hget]
  exact hround _ (List.getElem_mem hx)

end Read

/-- What a page of the tree is read as. -/
inductive NodePage where
  | blank (t : PageType)
  | leaf (entries : List Entry) (next : PageId)
  | inner (entries : List InternalEntry)
  | root (id : PageId)
  deriving DecidableEq, Repr

namespace NodePage

def records : NodePage → List Bytes
  | blank _ => []
  | leaf entries next => encodeLeafSibling next :: entries.map encodeLeafEntry
  | inner entries => entries.map encodeInternalEntry
  | root id => [leBytes 8 id]

/-- The meta page is a data page until the root changes for the first time. -/
def HasType : NodePage → PageType → Prop
  | blank t, u => u = t
  | leaf _ _, u => u = .btreeLeaf
  | inner _, u => u = .btreeInternal
  | root _, _ => True

def ids : NodePage → List PageId
  | blank _ => []
  | leaf _ next => [next]
  | inner entries => entries.map (·.child)
  | root id => [id]

/-- The page is of the right type and holds exactly these records. -/
structure Shown (p : Page) (o : NodePage) : Prop where
  hasType : o.HasType p.pageType
  ids : ∀ id ∈ o.ids, id < 2 ^ 64
  rep : p.Lists o.records

/-- The node can be built. -/
def Fits (o : NodePage) : Prop := RecordsFit o.records

instance (o : NodePage) : Decidable o.Fits := inferInstanceAs (Decidable (RecordsFit _))

section Shown
variable {p : Page} {entries : List Entry} {next id : PageId} {children : List InternalEntry}
  {t : PageType}

theorem shown_new (t : PageType) : Shown (Page.new t) (.blank t) where
  hasType := rfl
  ids := by simp [NodePage.ids]
  rep := Page.new_rep t

theorem Shown.encoded {o : NodePage} (h : Shown p o) (crc32 : Checksum) :
    Shown (p.encoded crc32) o := ⟨h.hasType, h.ids, Page.encode_rep h.rep crc32⟩

/-- No record of a page is longer than the page. -/
theorem Shown.record_lt {o : NodePage} (h : Shown p o) {r : Bytes} (hr : r ∈ o.records) :
    r.length < pageSize := by
  have hfit : RecordsFit [r] := h.rep.fit.sublist (List.singleton_sublist.mpr hr)
  have hheader : pageHeaderLen = 16 := rfl
  simp only [RecordsFit, List.map_cons, List.map_nil, List.sum_cons, List.sum_nil] at hfit
  omega

/-- The page's capacity keeps every length below the mark. -/
theorem Shown.entry_lengths (h : Shown p (.leaf entries next)) {e : Entry} (he : e ∈ entries) :
    e.1.length < siblingSlotSentinel ∧ e.2.length < siblingSlotSentinel := by
  have hlen := h.record_lt (List.mem_cons_of_mem _ (List.mem_map_of_mem he))
  have hsize : pageSize = 4096 := rfl
  have hmax : siblingSlotSentinel = 65535 := rfl
  simp only [encodeLeafEntry, List.length_append, length_leBytes] at hlen
  omega

theorem Shown.key_length (h : Shown p (.inner children)) {e : InternalEntry} (he : e ∈ children)
    {key : Bytes} (hkey : e.key = some key) : key.length < siblingSlotSentinel := by
  have hlen := h.record_lt (r := encodeInternalEntry e) (List.mem_map_of_mem he)
  have hsize : pageSize = 4096 := rfl
  have hmax : siblingSlotSentinel = 65535 := rfl
  simp only [encodeInternalEntry, hkey, List.length_append, length_leBytes] at hlen
  omega

theorem Shown.readLeafEntries (h : Shown p (.leaf entries next)) :
    readLeafEntries p = some entries := by
  have hround : ∀ e ∈ entries, decodeLeafEntry (encodeLeafEntry e) = some e := by
    intro e he
    have hmax : siblingSlotSentinel = 65535 := rfl
    have hlen := h.entry_lengths he
    exact decode_encodeLeafEntry (by omega) (by omega)
  rw [Sietch.readLeafEntries, h.rep.slotIds]
  exact Page.Lists.mapM [encodeLeafSibling next] h.rep hround

theorem Shown.readLeafSibling (h : Shown p (.leaf entries next)) :
    readLeafSibling p = some next := by
  rw [Sietch.readLeafSibling, h.rep.get (Nat.zero_lt_succ _)]
  exact decode_encodeLeafSibling (h.ids next (List.mem_singleton_self _))

theorem Shown.readInternalEntries (h : Shown p (.inner children)) :
    readInternalEntries p = some children := by
  have hround : ∀ e ∈ children, decodeInternalEntry (encodeInternalEntry e) = some e := by
    intro e he
    apply decode_encodeInternalEntry
    · intro key hkey
      exact h.key_length he hkey
    · exact h.ids _ (List.mem_map_of_mem he)
  rw [Sietch.readInternalEntries, h.rep.slotIds]
  exact Page.Lists.mapM [] h.rep hround

theorem Shown.root_get (h : Shown p (.root id)) : p.get 0 = .ok (leBytes 8 id) :=
  h.rep.get (Nat.zero_lt_succ _)

theorem buildLeaf_ok (hfit : (leaf entries next).Fits) (hnext : next < 2 ^ 64) :
    ∃ p, buildLeaf entries next = .ok p ∧ Shown p (.leaf entries next) := by
  obtain ⟨p, hbuild, htype, hrep⟩ :=
    insertRecords_ok [] (Page.new_rep .btreeLeaf) hfit
  exact ⟨p, hbuild, htype, by simpa [NodePage.ids] using hnext, hrep⟩

theorem buildLeaf_full (hfit : ¬ (leaf entries next).Fits) :
    ∃ need free, buildLeaf entries next = .err (.full need free) :=
  insertRecords_full [] (Page.new_rep .btreeLeaf) hfit

theorem buildInternal_ok (hfit : (inner children).Fits) (hids : ∀ e ∈ children, e.child < 2 ^ 64) :
    ∃ p, buildInternal children = .ok p ∧ Shown p (.inner children) := by
  obtain ⟨p, hbuild, htype, hrep⟩ :=
    insertRecords_ok [] (Page.new_rep .btreeInternal) hfit
  refine ⟨p, hbuild, htype, fun i hi => ?_, hrep⟩
  obtain ⟨e, he, rfl⟩ := List.mem_map.mp hi
  exact hids e he

theorem buildInternal_full (hfit : ¬ (inner children).Fits) :
    ∃ need free, buildInternal children = .err (.full need free) :=
  insertRecords_full [] (Page.new_rep .btreeInternal) hfit

/-- The root pointer is the first record of an empty page. -/
theorem Shown.insert_root (h : Shown p (.blank t)) (hid : id < 2 ^ 64) :
    ∃ p', p.insert (leBytes 8 id) = .ok (0, p') ∧ Shown p' (.root id) := by
  have hfit : pageHeaderLen + 4 * (([] : List Slot).length + 1) + usedBytes [] +
      (leBytes 8 id).length ≤ pageSize := by
    rw [length_leBytes]
    decide
  obtain ⟨p', hinsert, -, hrep⟩ := Page.insert_ok h.rep hfit
  exact ⟨p', hinsert, trivial, by simpa [NodePage.ids] using hid, hrep⟩

/-- A page that was built shows the node it was built from. -/
theorem shown_of_buildLeaf (hnext : next < 2 ^ 64) (h : buildLeaf entries next = .ok p) :
    Shown p (.leaf entries next) := by
  by_cases hfit : (leaf entries next).Fits
  · obtain ⟨q, hbuild, hq⟩ := buildLeaf_ok hfit hnext
    rw [h] at hbuild
    cases hbuild
    exact hq
  · obtain ⟨need, free, hfull⟩ := buildLeaf_full hfit
    rw [h] at hfull
    cases hfull

theorem shown_of_buildInternal (hids : ∀ e ∈ children, e.child < 2 ^ 64)
    (h : buildInternal children = .ok p) : Shown p (.inner children) := by
  by_cases hfit : (inner children).Fits
  · obtain ⟨q, hbuild, hq⟩ := buildInternal_ok hfit hids
    rw [h] at hbuild
    cases hbuild
    exact hq
  · obtain ⟨need, free, hfull⟩ := buildInternal_full hfit
    rw [h] at hfull
    cases hfull

theorem Shown.decode_encode {o : NodePage} (h : Shown p o) (crc32 : Checksum) :
    ∃ q, Page.decode crc32 (p.encode crc32) = .ok q ∧ Shown q o :=
  ⟨p.encoded crc32, Page.decode_encode h.rep.sound crc32, h.encoded crc32⟩

end Shown
end NodePage

/-- A node page is read back as the node it was built from, also after it was written out
and decoded. No length field of an accepted entry is cut or taken for the mark. -/
theorem node_pages_read_back (crc32 : Checksum) :
    (∀ entries next p, next < 2 ^ 64 → buildLeaf entries next = .ok p →
      (∀ e ∈ entries, e.1.length < siblingSlotSentinel ∧ e.2.length < siblingSlotSentinel) ∧
      readLeafEntries p = some entries ∧ readLeafSibling p = some next ∧
      ∃ q, Page.decode crc32 (p.encode crc32) = .ok q ∧
        readLeafEntries q = some entries ∧ readLeafSibling q = some next) ∧
    ∀ children p, (∀ e ∈ children, e.child < 2 ^ 64) → buildInternal children = .ok p →
      (∀ e ∈ children, ∀ key, e.key = some key → key.length < siblingSlotSentinel) ∧
      readInternalEntries p = some children ∧
      ∃ q, Page.decode crc32 (p.encode crc32) = .ok q ∧ readInternalEntries q = some children := by
  constructor
  · intro entries next p hnext hbuild
    have hshown := NodePage.shown_of_buildLeaf hnext hbuild
    obtain ⟨q, hdecode, hq⟩ := hshown.decode_encode crc32
    exact ⟨fun e he => hshown.entry_lengths he, hshown.readLeafEntries, hshown.readLeafSibling,
      q, hdecode, hq.readLeafEntries, hq.readLeafSibling⟩
  · intro children p hids hbuild
    have hshown := NodePage.shown_of_buildInternal hids hbuild
    obtain ⟨q, hdecode, hq⟩ := hshown.decode_encode crc32
    exact ⟨fun e he key hkey => hshown.key_length he hkey, hshown.readInternalEntries,
      q, hdecode, hq.readInternalEntries⟩

/-- A leaf with one entry and an internal node with two children. -/
theorem node_pages_read_back_small :
    (∃ p, buildLeaf [([1], [2, 3])] 7 = .ok p ∧ readLeafEntries p = some [([1], [2, 3])] ∧
      readLeafSibling p = some 7) ∧
    ∃ p, buildInternal [⟨none, 3⟩, ⟨some [1], 4⟩] = .ok p ∧
      readInternalEntries p = some [⟨none, 3⟩, ⟨some [1], 4⟩] := by
  obtain ⟨hleaf, hinner⟩ := node_pages_read_back (fun _ => 0)
  have hleafFits : (NodePage.leaf [([1], [2, 3])] 7).Fits := by decide
  have hinnerFits : (NodePage.inner [⟨none, 3⟩, ⟨some [1], 4⟩]).Fits := by decide
  obtain ⟨p, hp, -⟩ := NodePage.buildLeaf_ok hleafFits (by decide)
  obtain ⟨q, hq, -⟩ := NodePage.buildInternal_ok hinnerFits (by decide)
  have hread := hleaf _ _ p (by decide) hp
  exact ⟨⟨p, hp, hread.2.1, hread.2.2.1⟩, q, hq, (hinner _ q (by decide) hq).2.1⟩

end Sietch
