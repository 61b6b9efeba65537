import Sietch.BTreeRuns
import Sietch.HeapPageStoreSpec
import Sietch.LogPageStore

/-! B+trees that are flushed, dropped and opened again, over the two durable page stores. -/
namespace Sietch
open ByteString Transition
open BTree (HoldsMap Quiet)

/-- A node store that is kept in a directory, which is opened with a listing of it. A store
that was dropped opens with its pages and its next id, if no id below that is missing. -/
structure DurableStore (S L D : Type) {ε : Type} [PageStore S ε] extends NodeStore S where
  files : S → D
  openStore : L → D → Outcome ε S
  fresh : D
  open_fresh : ∀ l, ∃ s, openStore l fresh = .ok s ∧ Rep s (fun _ => none) (1, 0)
  reopen : ∀ {s content next}, Rep s content (next, 0) → 0 < next →
    (∀ i, (content i).isSome ↔ i < next) → ∀ l,
    ∃ s', openStore l (files s) = .ok s' ∧ Rep s' content (next, 0)

theorem NodePage.Shown.sound {p : Page} {o : NodePage} (h : NodePage.Shown p o) : p.Sound :=
  h.rep.sound

def HeapPageStore.durable (crc32 : Checksum) : DurableStore (HeapPageStore crc32) Unit HeapDir where
  toNumberedStore := HeapPageStore.numbered crc32 NodePage.Shown NodePage.blank NodePage.shown_new
    NodePage.Shown.sound (fun h => h.encoded crc32)
  shows_iff := Iff.rfl
  blank_eq _ := rfl
  files := HeapPageStore.dir
  openStore _ := HeapPageStore.openStore crc32
  fresh := ⟨[], .empty⟩
  open_fresh _ := by
    obtain ⟨s, hopen, hs⟩ := HeapPageStore.kept_fresh crc32 NodePage.Shown
    exact ⟨s, hopen, hs 0 (by decide)⟩
  reopen h hpos hfull _ := HeapPageStore.Kept.reopen h hpos hfull

def LogPageStore.durable (crc32 : Checksum) :
    DurableStore (LogPageStore crc32) Listing StoreDir where
  toNumberedStore := LogPageStore.numbered crc32 NodePage.Shown NodePage.blank NodePage.shown_new
    NodePage.Shown.sound (fun h => h.encoded crc32)
  shows_iff := Iff.rfl
  blank_eq _ := rfl
  files := LogPageStore.dir
  openStore := LogPageStore.openStore crc32
  fresh := .empty
  open_fresh := LogPageStore.kept_fresh crc32 NodePage.Shown
  reopen h hpos hfull l := LogPageStore.Kept.reopen h hpos hfull l

section References
variable {S ε : Type} [PageStore S ε] {M : NodeStore S} {s : S}
  {content : PageId → Option NodePage} {next room : Nat} {t : BPlusTree.Rooted Bytes Bytes}
  {i : PageId}

/-- The node with a number of the tree is on its page, and refers to nodes of the tree. -/
theorem Stored.node {n : Nat} {t : BPlusTree Bytes Bytes n} (h : Stored content t)
    (hi : i ∈ t.ids) :
    (∃ l ∈ t.leaves, l.id = i ∧ content i = some (.leaf l.entries l.next)) ∨
      ∃ entries, content i = some (.inner entries) ∧ ∀ e ∈ entries, e.child ∈ t.ids := by
  induction n with
  | zero =>
      rw [List.mem_singleton.mp hi]
      exact .inl ⟨t, List.mem_singleton_self _, rfl, h⟩
  | succ n ih =>
      rcases List.mem_cons.mp hi with rfl | hi
      · refine .inr ⟨_, h.1, fun e he => List.mem_cons_of_mem _ ?_⟩
        have hchild := List.mem_map_of_mem (f := (·.child)) he
        rw [children_entriesFrom] at hchild
        obtain ⟨c, hc, heq⟩ := List.mem_map.mp hchild
        exact List.mem_flatMap.mpr ⟨c, hc, heq ▸ c.id_mem_ids⟩
      · obtain ⟨c, hc, hic⟩ := List.mem_flatMap.mp hi
        rcases ih (h.2 c hc) hic with ⟨l, hl, hnode⟩ | ⟨entries, hpage, hall⟩
        · exact .inl ⟨l, List.mem_flatMap.mpr ⟨c, hc, hl⟩, hnode⟩
        · exact .inr ⟨entries, hpage, fun e he =>
            List.mem_cons_of_mem _ (List.mem_flatMap.mpr ⟨c, hc, hall e he⟩)⟩

/-- A page that is reached from the tree: a node, or a dead page on the way to a leaf. -/
def Reached (content : PageId → Option NodePage) (next : Nat)
    (t : BPlusTree.Rooted Bytes Bytes) (i : PageId) : Prop :=
  i ≠ noSibling ∧ ∃ b, Leads content (Dead t next) i b ∧ (b = noSibling ∨ b ∈ t.tree.ids)

theorem Reached.cases (h : Reached content next t i) : i ∈ t.tree.ids ∨
    ∃ c, Dead t next i ∧ content i = some (.leaf [] c) ∧ (c ≠ noSibling → Reached content next t c) := by
  obtain ⟨hne, b, hleads, hend⟩ := h
  cases hleads with
  | here => exact .inl (hend.resolve_left hne)
  | skip _ hdead hpage hrest => exact .inr ⟨_, hdead, hpage, fun hc => ⟨hc, b, hrest, hend⟩⟩

end References

/-- What a session does: with which listing and pool capacity the tree is opened, and the
insertions and deletions. -/
structure Session (L ε : Type) where
  listing : L
  capacity : Nat
  changes : List (TreeEvent ε)

section Sessions
variable {S L D ε : Type} [PageStore S ε] {T : DurableStore S L D} {fuel capacity first : Nat}
  {m : SortedMap Bytes Bytes} {d d' : D} {s : S} {p p' q : BufferPool S} {e : Session L ε}

/-- The session opens the tree, changes it, flushes it and leaves this pool, which is then
dropped. All calls succeed. -/
def Session.Leaves (T : DurableStore S L D) (fuel : Nat) (d : D) (e : Session L ε)
    (p : BufferPool S) : Prop :=
  2 ≤ e.capacity ∧ ∃ s p₀ p₁, T.openStore e.listing d = .ok s ∧
    BTree.openTree s e.capacity = (.ok (), some p₀) ∧ Run (ChangeStep fuel) p₀ e.changes p₁ ∧
    BTree.flush p₁ = (.ok (), p)

def SessionStep (T : DurableStore S L D) (fuel : Nat) (d : D) (e : Session L ε) (d' : D) : Prop :=
  ∃ p, e.Leaves T fuel d p ∧ d' = T.files p.store

def HoldsPages (M : NodeStore S) (first : Nat) (m : SortedMap Bytes Bytes) (s : S) : Prop :=
  (M.Rep s (fun _ => none) (1, 0) ∧ first ≤ 2 ∧ m = .empty) ∨
    ∃ content next t, first ≤ next ∧ M.Rep s content (next, 0) ∧ TreeRep content next t ∧
      t.tree.toList = m.entries

theorem HoldsPages.openTree {M : NodeStore S} (h : HoldsPages M first m s) (hcap : 2 ≤ capacity)
    (hopen : BTree.openTree (ε := ε) s capacity = (.ok (), some q)) :
    HoldsMap M capacity first 0 m q := by
  rcases h with ⟨hs, hfirst, rfl⟩ | ⟨content, next, t, hfirst, hs, ht, hm⟩
  · exact (BTree.holdsMap_empty (BTree.openTree_new_ok hcap hs hopen)).mono hfirst
  · obtain ⟨p, hnew, heq⟩ := BTree.openTree_eq (ε := ε) s hcap
    rw [hopen] at heq
    obtain ⟨hok, hq⟩ := Prod.mk.inj heq
    cases Option.some.inj hq
    have hquiet := (BTree.setUp_existing (E := True) hcap (BufferPool.new_held hs hnew) ht
      (fun _ => trivial)).ok (Prod.ext hok.symm rfl)
    exact ⟨content, next, t, hfirst, ht, hquiet, hm⟩

theorem HoldsPages.opens {M : NodeStore S} (h : HoldsPages M first m s) (hcap : 2 ≤ capacity)
    (hroom : M.Roomy s 2) : ∃ q, BTree.openTree (ε := ε) s capacity = (.ok (), some q) := by
  rcases h with ⟨hs, -⟩ | ⟨content, next, t, -, hs, ht, -⟩
  · obtain ⟨p, heq, hsetUp⟩ := BTree.openTree_new (ε := ε) hcap (hroom hs)
    obtain ⟨_, q, hset, -⟩ := hsetUp.returns (lt_irrefl 2)
    exact ⟨q, by rw [heq, hset]⟩
  · obtain ⟨p, hnew, heq⟩ := BTree.openTree_eq (ε := ε) s hcap
    obtain ⟨_, q, hset, -⟩ := (BTree.setUp_existing (E := False) hcap
      (BufferPool.new_held (hroom hs) hnew) ht (fun hzero => by cases hzero)).returns not_false
    exact ⟨q, by rw [heq, hset]⟩

theorem BTree.flush_unless {M : NodeStore S} {content : PageId → Option NodePage} {next room : Nat}
    {E : Prop} (h : Quiet M capacity content next room p) (hE : room < capacity → E) :
    Proc.Unless E BTree.flush p (fun _ p' => Quiet M capacity content next (room - capacity) p' ∧
      M.Rep p'.store content (next, room - capacity)) :=
  Proc.Ends.mapErr (h.flushAll hE) BTreeError.buffer

theorem BTree.HoldsMap.flush {M : NodeStore S} (h : HoldsMap M capacity first 0 m p)
    (hflush : BTree.flush p = (.ok (), p')) :
    HoldsMap M capacity first 0 m p' ∧ ∃ content next t, first ≤ next ∧
      M.Rep p'.store content (next, 0) ∧ TreeRep content next t ∧ t.tree.toList = m.entries := by
  obtain ⟨content, next, t, hfirst, ht, hq, hm⟩ := h
  have hpost := (BTree.flush_unless (E := True) hq (fun _ => trivial)).ok hflush
  rw [Nat.zero_sub] at hpost
  exact ⟨⟨content, next, t, hfirst, ht, hpost.1, hm⟩, content, next, t, hfirst, hpost.2, ht, hm⟩

/-- The directory opens with the pages of a tree that has the entries of the map. -/
def Keeps (T : DurableStore S L D) (m : SortedMap Bytes Bytes) (d : D) : Prop :=
  ∀ l, ∃ s, T.openStore l d = .ok s ∧ HoldsPages T.toNodeStore 0 m s

theorem Keeps.leaves (hfuel : 2 ^ 64 ≤ fuel) (h : Keeps T m d) (hleaves : e.Leaves T fuel d p) :
    ∃ m' content next t, HoldsMap T.toNodeStore e.capacity 0 0 m' p ∧
      T.Rep p.store content (next, 0) ∧ TreeRep content next t ∧
      ∀ l, ∃ s, T.openStore l (T.files p.store) = .ok s ∧ HoldsPages T.toNodeStore next m' s := by
  obtain ⟨hcap, s, p₀, p₁, hopen, htree, hrun, hflush⟩ := hleaves
  obtain ⟨s', hopen', hpages⟩ := h e.listing
  rw [hopen] at hopen'
  cases hopen'
  obtain ⟨hmap, content, next, t, -, hs, ht, hm⟩ :=
    ((hpages.openTree hcap htree).changes hcap hfuel hrun).flush hflush
  refine ⟨_, content, next, t, hmap, hs, ht, fun l => ?_⟩
  obtain ⟨s', hopen, hs'⟩ := T.reopen hs (Nat.zero_lt_of_lt ht.meta_lt) ht.full l
  exact ⟨s', hopen, .inr ⟨content, next, t, le_rfl, hs', ht, hm⟩⟩

theorem HoldsPages.mono {M : NodeStore S} {first' : Nat} (h : HoldsPages M first m s)
    (hle : first' ≤ first) : HoldsPages M first' m s := by
  rcases h with ⟨hs, hfirst, hm⟩ | ⟨content, next, t, hfirst, hrest⟩
  · exact .inl ⟨hs, hle.trans hfirst, hm⟩
  · exact .inr ⟨content, next, t, hle.trans hfirst, hrest⟩

theorem Keeps.step (hfuel : 2 ^ 64 ≤ fuel) (h : Keeps T m d) (hstep : SessionStep T fuel d e d') :
    ∃ m', Keeps T m' d' := by
  obtain ⟨p, hleaves, rfl⟩ := hstep
  obtain ⟨m', content, next, t, -, -, -, hopens⟩ := h.leaves hfuel hleaves
  refine ⟨m', fun l => ?_⟩
  obtain ⟨s, hopen, hpages⟩ := hopens l
  exact ⟨s, hopen, hpages.mono (Nat.zero_le _)⟩

theorem BTree.HoldsMap.allocated {M : NodeStore S} (h : HoldsMap M capacity first 0 m q)
    {id : PageId} {s' : S} (hcall : PageStore.allocatePageId q.store = (.ok id, s')) :
    first ≤ id := by
  obtain ⟨content, next, t, hfirst, -, ⟨-, disk, hrep⟩, -⟩ := h
  obtain ⟨rfl, -⟩ := (M.allocate hrep.stored).ok hcall
  exact hfirst

end Sessions

end Sietch
