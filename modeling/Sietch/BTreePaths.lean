import Sietch.Base.BPlusTreePaths
import Sietch.BTreeRuns

/-! The B+tree as its pages show it. A way down from the root is a list of positions of
entries; every way to a leaf has the length that `depth` returns, no two ways lead to one
page, and the separators bound the keys below them. -/
namespace Sietch
open ByteString Transition

/-- The page that a fetch brings: the cached one, or else that of the store. -/
def BufferPool.seen {S ε : Type} [PageStore S ε] (p : BufferPool S) (id : PageId) : Option Page :=
  match p.frame? id with
  | some f => some f.page
  | none => (PageStore.readPage p.store id).toOption.map (·.getD (Page.new .data))

namespace BTree
variable {S ε : Type} [PageStore S ε]

def rootOf (p : BufferPool S) : Option PageId := do
  let page ← p.seen metaPageId
  let bytes ← (page.get 0).toOption
  if bytes.length = 8 then some (ofLeBytes bytes) else none

def leafAt (p : BufferPool S) (id : PageId) : Option (List Entry) := do
  let page ← p.seen id
  if page.pageType = .btreeLeaf then readLeafEntries page else none

def innerAt (p : BufferPool S) (id : PageId) : Option (List InternalEntry) := do
  let page ← p.seen id
  if page.pageType = .btreeInternal then readInternalEntries page else none

/-- The page at the end of a way down through entries of internal pages. -/
def walk (p : BufferPool S) : PageId → List Nat → Option PageId
  | id, [] => some id
  | id, i :: path => do
      let entries ← innerAt p id
      let e ← entries[i]?
      walk p e.child path

/-- Balanced and tree-shaped, with the keys between the separators. -/
structure Shape (p : BufferPool S) (root : PageId) (depth : Nat) : Prop where
  node : ∀ path id, walk p root path = some id → (leafAt p id).isSome ∨ (innerAt p id).isSome
  balanced : ∀ path id, walk p root path = some id → (leafAt p id).isSome → path.length + 1 = depth
  apart : ∀ path path' id, walk p root path = some id → walk p root path' = some id → path = path'
  separators : ∀ path id entries, walk p root path = some id → innerAt p id = some entries →
    ∃ seps : List Bytes, entries.map (·.key) = none :: seps.map some ∧ seps.Pairwise (· < ·)
  bounded : ∀ path id entries i e path' leaf es, walk p root path = some id →
    innerAt p id = some entries → entries[i]? = some e → walk p e.child path' = some leaf →
    leafAt p leaf = some es → ∀ kv ∈ es, (∀ s ∈ e.key, s ≤ kv.1) ∧
      ∀ e', entries[i + 1]? = some e' → ∀ s ∈ e'.key, kv.1 < s

section Pages
variable {M : NodeStore S} {capacity next room n : Nat} {content : PageId → Option NodePage}
  {p : BufferPool S} {id : PageId} {t : BPlusTree Bytes Bytes n}

theorem seen_quiet (hq : Quiet M capacity content next room p) (hid : id < next) {o : NodePage}
    (ho : content id = some o) : ∃ pg, p.seen id = some pg ∧ NodePage.Shown pg o := by
  obtain ⟨-, disk, hrep⟩ := hq
  unfold BufferPool.seen
  cases hf : p.frame? id with
  | some f =>
      have hshown : M.Shows f.page ((content id).getD (M.blank .data)) := by
        rw [← hrep.wf.pageId_eq hf]
        exact (hrep.cached id f hf).shown
      rw [ho] at hshown
      exact ⟨f.page, rfl, M.shows_iff.mp hshown⟩
  | none =>
      obtain ⟨page, hread, hshown⟩ := M.read hrep.stored (hrep.writable id hid)
      have hdisk : disk id = some o := (hrep.uncached id hf).1.trans ho
      rw [hdisk] at hshown
      refine ⟨page.getD (Page.new .data), ?_, M.shows_iff.mp hshown⟩
      simp only [hread]
      rfl

theorem rootOf_quiet (hq : Quiet M capacity content next room p) (hmeta : metaPageId < next)
    {root : PageId} (hroot : content metaPageId = some (.root root)) : rootOf p = some root := by
  obtain ⟨pg, hseen, hpg⟩ := seen_quiet hq hmeta hroot
  have hlt : root < 2 ^ (8 * 8) := hpg.ids root (List.mem_singleton_self _)
  unfold rootOf
  rw [hseen, Option.bind_eq_bind, Option.bind_some, hpg.root_get]
  show (if (leBytes 8 root).length = 8 then some (ofLeBytes (leBytes 8 root)) else none) = some root
  rw [if_pos (length_leBytes 8 root), ofLeBytes_leBytes hlt]

theorem leaf_quiet (hq : Quiet M capacity content next room p) (hid : id < next)
    {es : List Entry} {link : PageId} (ho : content id = some (.leaf es link)) :
    leafAt p id = some es ∧ innerAt p id = none := by
  obtain ⟨pg, hseen, hpg⟩ := seen_quiet hq hid ho
  have htype : pg.pageType = .btreeLeaf := hpg.hasType
  unfold leafAt innerAt
  rw [hseen, Option.bind_eq_bind, Option.bind_some, Option.bind_eq_bind, Option.bind_some, htype,
    if_pos rfl, if_neg (by decide), hpg.readLeafEntries]
  exact ⟨rfl, rfl⟩

theorem inner_quiet (hq : Quiet M capacity content next room p) (hid : id < next)
    {entries : List InternalEntry} (ho : content id = some (.inner entries)) :
    innerAt p id = some entries ∧ leafAt p id = none := by
  obtain ⟨pg, hseen, hpg⟩ := seen_quiet hq hid ho
  have htype : pg.pageType = .btreeInternal := hpg.hasType
  unfold leafAt innerAt
  rw [hseen, Option.bind_eq_bind, Option.bind_some, Option.bind_eq_bind, Option.bind_some, htype,
    if_pos rfl, if_neg (by decide), hpg.readInternalEntries]
  exact ⟨rfl, rfl⟩

/-- The subtree is on pages below the next id. -/
def Placed (content : PageId → Option NodePage) (next : Nat) (u : BPlusTree.Rooted Bytes Bytes) :
    Prop := Stored content u.tree ∧ ∀ i ∈ u.tree.ids, i < next

theorem Placed.child {u : BPlusTree Bytes Bytes (n + 1)} (h : Placed content next ⟨n + 1, u⟩) :
    ∀ c ∈ (Branch.chain u).children, Placed content next ⟨n, c⟩ := by
  intro c hc
  refine ⟨h.1.2 c hc, fun i hi => h.2 i ?_⟩
  exact List.mem_cons_of_mem _ (List.mem_flatMap.mpr ⟨c, hc, hi⟩)

theorem Placed.follow (h : Placed content next ⟨n, t⟩) {path : List Nat}
    {u : BPlusTree.Rooted Bytes Bytes} (hu : t.follow path = some u) : Placed content next u :=
  BPlusTree.follow_invariant (fun h => h.child) h hu

/-- A leaf of the tree is a leaf page, and no other node is one. -/
theorem leafAt_placed (hq : Quiet M capacity content next room p)
    {u : BPlusTree.Rooted Bytes Bytes} (h : Placed content next u) {es : List Entry} :
    leafAt p u.tree.id = some es ↔ ∃ l : Leaf Bytes Bytes, u = ⟨0, l⟩ ∧ l.entries = es := by
  obtain ⟨n, u⟩ := u
  have hid := h.2 _ u.id_mem_ids
  cases n with
  | zero =>
      have hleaf := (leaf_quiet hq hid h.1).1
      constructor
      · intro hes
        rw [hleaf] at hes
        exact ⟨u, rfl, Option.some.inj hes⟩
      · rintro ⟨l, hl, rfl⟩
        cases hl
        exact hleaf
  | succ n =>
      have hleaf := (inner_quiet hq hid h.1.1).2
      constructor
      · intro hes
        rw [hleaf] at hes
        cases hes
      · rintro ⟨l, hl, -⟩
        cases hl

theorem innerAt_placed (hq : Quiet M capacity content next room p)
    {u : BPlusTree.Rooted Bytes Bytes} (h : Placed content next u) {entries : List InternalEntry} :
    innerAt p u.tree.id = some entries ↔ ∃ n, ∃ b : BPlusTree Bytes Bytes (n + 1), u = ⟨n + 1, b⟩ ∧
      entriesFrom BPlusTree.id none (Branch.chain b) = entries := by
  obtain ⟨n, u⟩ := u
  have hid := h.2 _ u.id_mem_ids
  cases n with
  | zero =>
      have hinner := (leaf_quiet hq hid h.1).2
      constructor
      · intro hes
        rw [hinner] at hes
        cases hes
      · rintro ⟨n, b, hb, -⟩
        cases hb
  | succ n =>
      have hinner := (inner_quiet hq hid h.1.1).1
      constructor
      · intro hes
        rw [hinner] at hes
        exact ⟨n, u, rfl, Option.some.inj hes⟩
      · rintro ⟨m, b, hb, rfl⟩
        cases hb
        exact hinner

/-- The ways down the pages are those down the tree. -/
theorem walk_placed (hq : Quiet M capacity content next room p) (h : Placed content next ⟨n, t⟩)
    (path : List Nat) : walk p t.id path = (t.follow path).map (·.tree.id) := by
  induction path generalizing n with
  | nil => rw [walk, BPlusTree.follow_nil, Option.map_some]
  | cons i path ih =>
      have hid := h.2 _ t.id_mem_ids
      cases n with
      | zero =>
          have hinner : innerAt p (BPlusTree.id t) = none := (leaf_quiet hq hid h.1).2
          rw [walk, hinner]
          rfl
      | succ n =>
          have hinner : innerAt p (BPlusTree.id t) = _ := (inner_quiet hq hid h.1.1).1
          have hentry : ((entriesFrom BPlusTree.id none (Branch.chain t))[i]?).map (·.child) =
              ((Branch.chain t).children[i]?).map BPlusTree.id := by
            rw [← List.getElem?_map, ← List.getElem?_map, children_entriesFrom]
          rw [walk, hinner, BPlusTree.follow, Option.bind_eq_bind, Option.bind_some]
          cases hc : (Branch.chain t).children[i]? with
          | none =>
              rw [hc, Option.map_none, Option.map_eq_none_iff] at hentry
              rw [hentry]
              rfl
          | some c =>
              rw [hc, Option.map_some, Option.map_eq_some_iff] at hentry
              obtain ⟨e, he, hchild⟩ := hentry
              rw [he, Option.bind_eq_bind, Option.bind_some, hchild]
              exact ih (h.child c (List.mem_of_getElem? hc))

theorem walk_eq_some (hq : Quiet M capacity content next room p) (h : Placed content next ⟨n, t⟩)
    {path : List Nat} : walk p t.id path = some id ↔
      ∃ u, t.follow path = some u ∧ Placed content next u ∧ u.tree.id = id := by
  rw [walk_placed hq h, Option.map_eq_some_iff]
  constructor
  · rintro ⟨u, hu, rfl⟩
    exact ⟨u, hu, h.follow hu, rfl⟩
  · rintro ⟨u, hu, -, hid⟩
    exact ⟨u, hu, hid⟩

end Pages

section Separators
variable {C : Type} {P : Option Bytes → Option Bytes → C → Prop} {f : C → PageId}
  {lo hi key : Option Bytes} {ch : Chain Bytes C}

theorem keys_entriesFrom (f : C → PageId) (key : Option Bytes) (ch : Chain Bytes C) :
    (entriesFrom f key ch).map (·.key) = key :: ch.seps.map some := by
  induction ch generalizing key with
  | last c => rfl
  | cons c s rest ih => rw [entriesFrom, List.map_cons, ih, Chain.seps, List.map_cons]

/-- The child behind an entry lies between its key and that of the next entry. -/
theorem spanned_entry (h : ch.Spanned P lo hi) (hkey : ∀ s ∈ key, s ∈ lo) {i : Nat}
    {e : InternalEntry} (he : (entriesFrom f key ch)[i]? = some e) :
    ∃ c a b, ch.children[i]? = some c ∧ f c = e.child ∧ P a b c ∧ (∀ s ∈ e.key, s ∈ a) ∧
      ∀ e', (entriesFrom f key ch)[i + 1]? = some e' → e'.key = b := by
  induction ch generalizing lo key i with
  | last c =>
      cases i with
      | zero =>
          cases he
          exact ⟨c, lo, hi, rfl, rfl, h, hkey, (fun e' he' => by cases he')⟩
      | succ i => cases he
  | cons c s rest ih =>
      cases i with
      | zero =>
          cases he
          refine ⟨c, lo, some s, rfl, rfl, h.2.1, hkey, fun e' he' => ?_⟩
          rw [entriesFrom, List.getElem?_cons_succ, entriesFrom_eq_cons] at he'
          cases he'
          rfl
      | succ i =>
          rw [entriesFrom, List.getElem?_cons_succ] at he
          obtain ⟨d, a, b, hd, hchild, hP, hlow, hnext⟩ := ih h.2.2 (fun k hk => hk) he
          exact ⟨d, a, b, hd, hchild, hP, hlow, hnext⟩

end Separators

section Shape
variable {M : NodeStore S} {capacity next room fuel : Nat} {content : PageId → Option NodePage}
  {p : BufferPool S} {t : BPlusTree.Rooted Bytes Bytes} {E : Prop}

theorem TreeRep.placed (ht : TreeRep content next t) : Placed content next t :=
  ⟨ht.stored, ht.ids_lt⟩

theorem shape_of_rep (hq : Quiet M capacity content next room p) (ht : TreeRep content next t) :
    Shape p t.tree.id (t.depth + 1) := by
  have hplaced := TreeRep.placed ht
  constructor
  · intro path id hwalk
    obtain ⟨⟨n, u⟩, hu, hup, rfl⟩ := (walk_eq_some hq hplaced).mp hwalk
    cases n with
    | zero => exact .inl (Option.isSome_of_eq_some ((leafAt_placed hq hup).mpr ⟨u, rfl, rfl⟩))
    | succ n =>
        exact .inr (Option.isSome_of_eq_some ((innerAt_placed hq hup).mpr ⟨n, u, rfl, rfl⟩))
  · intro path id hwalk hleaf
    obtain ⟨u, hu, hup, rfl⟩ := (walk_eq_some hq hplaced).mp hwalk
    obtain ⟨es, hes⟩ := Option.isSome_iff_exists.mp hleaf
    obtain ⟨l, rfl, -⟩ := (leafAt_placed hq hup).mp hes
    have hdepth := BPlusTree.depth_follow hu
    rw [Nat.zero_add] at hdepth
    rw [hdepth]
  · intro path path' id hwalk hwalk'
    obtain ⟨u, hu, -, hid⟩ := (walk_eq_some hq hplaced).mp hwalk
    obtain ⟨u', hu', -, hid'⟩ := (walk_eq_some hq hplaced).mp hwalk'
    exact BPlusTree.follow_unique ht.wf.nodup hu hu' (hid.trans hid'.symm)
  · intro path id entries hwalk hinner
    obtain ⟨u, hu, hup, rfl⟩ := (walk_eq_some hq hplaced).mp hwalk
    obtain ⟨n, b, rfl, rfl⟩ := (innerAt_placed hq hup).mp hinner
    obtain ⟨lo, hi, hordered⟩ := ht.wf.ordered.follow hu
    exact ⟨(Branch.chain b).seps, keys_entriesFrom _ _ _, Chain.Spanned.seps_pairwise hordered⟩
  · intro path id entries i e path' leaf es hwalk hinner he hbelow hleaf kv hkv
    obtain ⟨u, hu, hup, rfl⟩ := (walk_eq_some hq hplaced).mp hwalk
    obtain ⟨n, b, rfl, rfl⟩ := (innerAt_placed hq hup).mp hinner
    obtain ⟨lo, hi, hordered⟩ := ht.wf.ordered.follow hu
    have hfirst : ∀ s ∈ (none : Option Bytes), s ∈ lo := fun s hs => by cases hs
    obtain ⟨c, lower, upper, hc, hchild, hcordered, hlow, hnext⟩ :=
      spanned_entry hordered hfirst he
    rw [← hchild] at hbelow
    obtain ⟨w, hw, hwp, rfl⟩ :=
      (walk_eq_some hq (hup.child c (List.mem_of_getElem? hc))).mp hbelow
    obtain ⟨l, rfl, rfl⟩ := (leafAt_placed hq hwp).mp hleaf
    have hwithin := hcordered.leaf_within hw kv hkv
    refine ⟨fun s hs => hwithin.1 s (hlow s hs), fun e' he' s hs => hwithin.2 s ?_⟩
    rw [← hnext e' he']
    exact hs

/-- `depth` goes down the leftmost way. -/
theorem depthLoop_unless (hcap : 2 ≤ capacity) {n : Nat} {t : BPlusTree Bytes Bytes n}
    (hfuel : n < fuel) (h : Quiet M capacity content next room p) (ht : Placed content next ⟨n, t⟩)
    (hE : room < n + 1 → E) (depth : Nat) :
    Proc.Unless E (depthLoop fuel t.id depth) p (fun r p' =>
      r = depth + n ∧ Quiet M capacity content next (room - (n + 1)) p') := by
  induction n generalizing fuel p room depth with
  | zero =>
      obtain ⟨fuel, rfl⟩ := Nat.exists_eq_add_of_lt hfuel
      rw [Nat.zero_add, depthLoop]
      refine visit hcap h (ht.2 _ t.id_mem_ids) ht.1 (fun hr => hE (by omega))
        (fun pg p₁ hpg h₁ => ?_)
      simp only [show pg.pageType = .btreeLeaf from hpg.hasType]
      refine Proc.Unless.bind ((unpin_clean h₁ List.not_mem_nil).unless E) (fun _ p₂ h₂ => ?_)
      exact (Proc.returns_pure ⟨rfl, h₂⟩).unless E
  | succ n ih =>
      obtain ⟨fuel, rfl⟩ := Nat.exists_eq_add_of_lt hfuel
      rw [depthLoop]
      refine visit hcap h (ht.2 _ t.id_mem_ids) ht.1.1 (fun hr => hE (by omega))
        (fun pg p₁ hpg h₁ => ?_)
      simp only [show pg.pageType = .btreeInternal from hpg.hasType, hpg.readInternalEntries]
      refine Proc.Unless.step rfl ?_
      rw [entriesFrom_eq_cons]
      refine Proc.Unless.step rfl ?_
      refine Proc.Unless.bind ((unpin_clean h₁ List.not_mem_nil).unless E) (fun _ p₂ h₂ => ?_)
      refine (ih (by omega) h₂ (ht.child _ (Chain.head_mem _)) (fun hr => hE (by omega))
        (depth + 1)).mono ?_ (fun hE => hE)
      rintro r p₃ ⟨rfl, h₃⟩
      rw [Nat.sub_sub, Nat.add_comm 1] at h₃
      exact ⟨by omega, h₃⟩

theorem depth_yields (M : NodeStore S) (hcap : 2 ≤ capacity) (ht : TreeRep content next t) :
    Yields (ε := ε) M capacity content next depth (t.depth + 1) (t.depth + 2) := by
  intro E fuel room p hfuel h hE
  rw [depth]
  refine Proc.Unless.bind (rootId_unless hcap h ht.meta_lt ht.root (fun hr => hE (by omega))) ?_
  rintro _ p₁ ⟨rfl, h₁⟩
  refine (depthLoop_unless hcap (by omega) h₁ (TreeRep.placed ht) (fun hr => hE (by omega)) 1).mono
    ?_ (fun hE => hE)
  rintro r p₂ ⟨rfl, h₂⟩
  rw [Nat.sub_sub, Nat.add_comm 1] at h₂
  exact ⟨Nat.add_comm 1 _, h₂⟩

end Shape
end BTree

open BTree in
/-- After any successful insertions and deletions on a tree that was created on any page
store, the pages form a balanced search tree whose depth is the one that `depth` returns. -/
theorem btree_balanced {S ε : Type} [PageStore S ε] (M : NodeStore S) {capacity fuel : Nat}
    (hcap : 2 ≤ capacity) (hfuel : 2 ^ 64 ≤ fuel) {s : S} (hs : M.Rep s (fun _ => none) (1, 0))
    {p₀ p : BufferPool S} (hopen : openTree s capacity = (.ok (), some p₀))
    {events : List (TreeEvent ε)} (hrun : Run (ChangeStep fuel) p₀ events p) :
    ∃ root levels, rootOf p = some root ∧ Shape p root levels ∧
      Answers (ε := ε) M p BTree.depth levels := by
  have h := (holdsMap_empty (openTree_new_ok hcap hs hopen)).changes hcap hfuel hrun
  obtain ⟨content, next, t, -, ht, hq, -⟩ := h
  exact ⟨t.tree.id, t.depth + 1, rootOf_quiet hq ht.meta_lt ht.root, shape_of_rep hq ht,
    (depth_yields M hcap ht).answers hq⟩

open BTree in
/-- The tree after two splits and a deletion. -/
theorem btree_balanced_deleted : ∃ p₀ p : BufferPool MemPageStore,
    openTree MemPageStore.new 2 = (.ok (), some p₀) ∧
    Run (ChangeStep (2 ^ 64)) p₀ threeLeavesEvents p ∧
    ∃ root levels, rootOf p = some root ∧ Shape p root levels ∧
      Answers MemPageStore.nodes p BTree.depth levels := by
  obtain ⟨p₀, p, hopen, hrun⟩ := three_leaves_run
  exact ⟨p₀, p, hopen, hrun, btree_balanced MemPageStore.nodes (le_refl 2) (le_refl (2 ^ 64))
    (MemPageStore.nodes_new 0) hopen hrun⟩

end Sietch
