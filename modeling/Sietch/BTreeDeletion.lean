import Sietch.Base.BPlusTreeFill
import Sietch.BTreePaths

/-! Empty nodes after deletions. No leaf but the root is ever empty as long as no deletion
takes one of two children from the root: such a deletion leaves a root with one child, which
is not replaced by it. -/
namespace Sietch
open ByteString Transition

namespace BTree
variable {S ε : Type} [PageStore S ε]

/-- Internal pages have a child, leaves other than the root an entry, and a root that is not
a leaf has two children. -/
structure NoEmptyNodes (p : BufferPool S) (root : PageId) : Prop where
  inner : ∀ path id entries, walk p root path = some id → innerAt p id = some entries →
    entries ≠ []
  leaf : ∀ path id, walk p root path = some id → leafAt p id = some [] → id = root
  root : ∀ entries, innerAt p root = some entries → 2 ≤ entries.length

def OnlyKeyBelow (p : BufferPool S) (id : PageId) (key : Bytes) : Prop :=
  (∃ path leaf es value, walk p id path = some leaf ∧ leafAt p leaf = some es ∧
    (key, value) ∈ es) ∧
  ∀ path leaf es, walk p id path = some leaf → leafAt p leaf = some es → ∀ kv ∈ es, kv.1 = key

/-- The root keeps two children: it is not an internal page with two entries, below one of
which the deleted key is the only one. -/
def KeepsTwoChildren (p : BufferPool S) : TreeEvent ε → Prop
  | (.delete key, _) => ∀ root entries, rootOf p = some root → innerAt p root = some entries →
      entries.length = 2 → ∀ e ∈ entries, ¬ OnlyKeyBelow p e.child key
  | _ => True

section Pages
variable {M : NodeStore S} {capacity next room n : Nat} {content : PageId → Option NodePage}
  {p : BufferPool S} {t : BPlusTree.Rooted Bytes Bytes}

theorem noEmptyNodes_iff (hq : Quiet M capacity content next room p) (ht : TreeRep content next t) :
    NoEmptyNodes p t.tree.id ↔ t.Dense := by
  have hplaced := TreeRep.placed ht
  obtain ⟨n, t⟩ := t
  constructor
  · intro h
    cases n with
    | zero => trivial
    | succ n =>
        have hinner := (innerAt_placed hq hplaced).mpr ⟨n, t, rfl, rfl⟩
        constructor
        · intro l hl hnil
          obtain ⟨path, hpath⟩ := BPlusTree.follow_leaf.mp hl
          have hleaf := (leafAt_placed hq (hplaced.follow hpath)).mpr ⟨l, rfl, hnil⟩
          have hroot := h.leaf path _
            ((walk_eq_some hq hplaced).mpr ⟨_, hpath, hplaced.follow hpath, rfl⟩) hleaf
          rw [hroot] at hleaf
          obtain ⟨m, hm, -⟩ := (leafAt_placed hq hplaced).mp hleaf
          cases hm
        · have hlen := h.root _ hinner
          rwa [length_entriesFrom] at hlen
  · intro h
    constructor
    · intro path id entries hwalk hinner
      obtain ⟨u, -, hup, rfl⟩ := (walk_eq_some hq hplaced).mp hwalk
      obtain ⟨m, b, rfl, rfl⟩ := (innerAt_placed hq hup).mp hinner
      rw [entriesFrom_eq_cons]
      exact List.cons_ne_nil _ _
    · intro path id hwalk hleaf
      obtain ⟨u, hu, hup, rfl⟩ := (walk_eq_some hq hplaced).mp hwalk
      obtain ⟨l, rfl, hnil⟩ := (leafAt_placed hq hup).mp hleaf
      cases n with
      | zero =>
          cases path with
          | nil =>
              cases hu
              rfl
          | cons i path => cases hu
      | succ n => exact absurd hnil (h.1 l (BPlusTree.follow_leaf.mpr ⟨path, hu⟩))
    · intro entries hinner
      obtain ⟨m, b, hb, rfl⟩ := (innerAt_placed hq hplaced).mp hinner
      cases hb
      rw [length_entriesFrom]
      exact h.2

theorem onlyKeyBelow_iff (hq : Quiet M capacity content next room p) {c : BPlusTree Bytes Bytes n}
    (hc : Placed content next ⟨n, c⟩) {key : Bytes} : OnlyKeyBelow p c.id key ↔
      (∃ e ∈ c.toList, e.1 = key) ∧ ∀ e ∈ c.toList, e.1 = key := by
  -- an entry of the tree is an entry of a leaf page below
  have hentry : ∀ e, e ∈ c.toList ↔ ∃ path leaf es, walk p c.id path = some leaf ∧
      leafAt p leaf = some es ∧ e ∈ es := by
    intro e
    rw [BPlusTree.toList, List.mem_flatMap]
    constructor
    · rintro ⟨l, hl, he⟩
      obtain ⟨path, hpath⟩ := BPlusTree.follow_leaf.mp hl
      exact ⟨path, _, l.entries, (walk_eq_some hq hc).mpr ⟨_, hpath, hc.follow hpath, rfl⟩,
        (leafAt_placed hq (hc.follow hpath)).mpr ⟨l, rfl, rfl⟩, he⟩
    · rintro ⟨path, leaf, es, hwalk, hleaf, he⟩
      obtain ⟨u, hu, hup, rfl⟩ := (walk_eq_some hq hc).mp hwalk
      obtain ⟨l, rfl, rfl⟩ := (leafAt_placed hq hup).mp hleaf
      exact ⟨l, BPlusTree.follow_leaf.mpr ⟨path, hu⟩, he⟩
  constructor
  · rintro ⟨⟨path, leaf, es, value, hwalk, hleaf, he⟩, hall⟩
    refine ⟨⟨(key, value), (hentry _).mpr ⟨path, leaf, es, hwalk, hleaf, he⟩, rfl⟩, ?_⟩
    intro e he
    obtain ⟨path, leaf, es, hwalk, hleaf, he⟩ := (hentry e).mp he
    exact hall path leaf es hwalk hleaf e he
  · rintro ⟨⟨⟨key', value⟩, he, rfl⟩, hall⟩
    obtain ⟨path, leaf, es, hwalk, hleaf, he⟩ := (hentry _).mp he
    refine ⟨⟨path, leaf, es, value, hwalk, hleaf, he⟩, ?_⟩
    intro path leaf es hwalk hleaf kv hkv
    exact hall kv ((hentry kv).mpr ⟨path, leaf, es, hwalk, hleaf, hkv⟩)

theorem keepsTwoChildren_iff (hq : Quiet M capacity content next room p)
    (ht : TreeRep content next t) (key : Bytes) (o : Outcome (BTreeError ε) TreeReply) :
    KeepsTwoChildren p (.delete key, o) ↔ ¬ t.Lonely key := by
  have hplaced := TreeRep.placed ht
  have hroot := rootOf_quiet hq ht.meta_lt ht.root
  obtain ⟨n, t⟩ := t
  cases n with
  | zero =>
      refine iff_of_true (fun root entries hr hinner => ?_) (fun hl => hl)
      rw [hroot] at hr
      cases hr
      obtain ⟨m, b, hb, -⟩ := (innerAt_placed hq hplaced).mp hinner
      cases hb
  | succ n =>
      have hinner := (innerAt_placed hq hplaced).mpr ⟨n, t, rfl, rfl⟩
      have hchildren := children_entriesFrom BPlusTree.id none (Branch.chain t)
      constructor
      · rintro h ⟨hlen, c, hc, hone⟩
        have hin : c.id ∈ (entriesFrom BPlusTree.id none (Branch.chain t)).map (·.child) := by
          rw [hchildren]
          exact List.mem_map_of_mem hc
        obtain ⟨e, he, hchild⟩ := List.mem_map.mp hin
        rw [← length_entriesFrom BPlusTree.id none] at hlen
        refine h _ _ hroot hinner hlen e he ?_
        rw [hchild]
        exact (onlyKeyBelow_iff hq (hplaced.child c hc)).mpr hone
      · intro h root entries hr hentries hlen e he honly
        rw [hroot] at hr
        cases hr
        rw [hinner] at hentries
        cases hentries
        have hin := List.mem_map_of_mem (f := InternalEntry.child) he
        rw [hchildren] at hin
        obtain ⟨c, hc, hchild⟩ := List.mem_map.mp hin
        rw [← hchild, onlyKeyBelow_iff hq (hplaced.child c hc)] at honly
        rw [length_entriesFrom] at hlen
        exact h ⟨hlen, c, hc, honly⟩

theorem dense_step_iff (hcap : 2 ≤ capacity) {fuel : Nat} (hfuel : 2 ^ 64 ≤ fuel)
    {p' : BufferPool S} {e : TreeEvent ε} (ht : TreeRep content next t)
    (hq : Quiet M capacity content next 0 p) (hdense : t.Dense) (hstep : ChangeStep fuel p e p') :
    ∃ content' next' t', TreeRep content' next' t' ∧ Quiet M capacity content' next' 0 p' ∧
      (t'.Dense ↔ KeepsTwoChildren p e) := by
  obtain ⟨t', next', content', hafter, ht', hq'⟩ := change_step hcap hfuel ht hq hstep
  refine ⟨content', next', t', ht', hq', ?_⟩
  obtain ⟨c, o⟩ := e
  cases c with
  | insert key value => exact iff_of_true (hdense.put hafter) trivial
  | delete key =>
      rw [keepsTwoChildren_iff hq ht]
      cases hrem : BPlusTree.remove key t with
      | none =>
          have hsame : t' = t := by
            simp only [after, hrem, Option.getD_none, Option.some.injEq, Prod.mk.injEq] at hafter
            exact hafter.1.symm
          rw [hsame]
          refine iff_of_true hdense (fun hlonely => ?_)
          have hsome := ht.wf.remove_isSome key
          rw [hrem] at hsome
          obtain ⟨n, t⟩ := t
          cases n with
          | zero => exact hlonely
          | succ n =>
              obtain ⟨-, c, hc, ⟨⟨k, v⟩, hkv, rfl⟩, -⟩ := hlonely
              have hmem : (k, v) ∈ BPlusTree.toList t := by
                rw [BPlusTree.toList_succ]
                exact List.mem_flatMap.mpr ⟨c, hc, hkv⟩
              have hfound := SortedMap.lookup_of_mem ht.wf.ordered.ascending hmem
              rw [hfound] at hsome
              cases hsome
      | some u =>
          have hsame : t' = u := by
            simp only [after, hrem, Option.getD_some, Option.some.injEq, Prod.mk.injEq] at hafter
            exact hafter.1.symm
          rw [hsame]
          exact hdense.remove_iff ht.wf.ordered hrem
  | get key =>
      cases hafter
      exact iff_of_true hdense trivial
  | scanAll =>
      cases hafter
      exact iff_of_true hdense trivial

end Pages
end BTree

open BTree

/-- After successful insertions and deletions that all keep two children at the root, one more
leaves no empty node and no small root if and only if it keeps two children too. -/
theorem no_empty_nodes_iff {S ε : Type} [PageStore S ε] (M : NodeStore S) {capacity fuel : Nat}
    (hcap : 2 ≤ capacity) (hfuel : 2 ^ 64 ≤ fuel) {s : S} (hs : M.Rep s (fun _ => none) (1, 0))
    {p₀ p p' : BufferPool S} (hopen : openTree s capacity = (.ok (), some p₀))
    {events : List (TreeEvent ε)} {e : TreeEvent ε}
    (hrun : Run (Under KeepsTwoChildren (ChangeStep fuel)) p₀ events p)
    (hstep : ChangeStep fuel p e p') :
    (∃ root, rootOf p' = some root ∧ NoEmptyNodes p' root) ↔ KeepsTwoChildren p e := by
  have hinv : ∃ content next t, TreeRep content next t ∧ Quiet M capacity content next 0 p ∧
      t.Dense := by
    refine hrun.invariant (I := fun p => ∃ content next t, TreeRep content next t ∧
      Quiet M capacity content next 0 p ∧ t.Dense) ?_ ?_
    · exact ⟨emptyContent, 2, emptyTree, treeRep_empty, openTree_new_ok hcap hs hopen, trivial⟩
    · rintro a e b ⟨content, next, t, ht, hq, hdense⟩ ⟨hkeeps, hstep⟩
      obtain ⟨content', next', t', ht', hq', hiff⟩ := dense_step_iff hcap hfuel ht hq hdense hstep
      exact ⟨content', next', t', ht', hq', hiff.mpr hkeeps⟩
  obtain ⟨content, next, t, ht, hq, hdense⟩ := hinv
  obtain ⟨content', next', t', ht', hq', hiff⟩ := dense_step_iff hcap hfuel ht hq hdense hstep
  rw [← hiff, ← noEmptyNodes_iff hq' ht']
  have hroot := rootOf_quiet hq' ht'.meta_lt ht'.root
  constructor
  · rintro ⟨root, hr, hnodes⟩
    rw [hroot] at hr
    cases hr
    exact hnodes
  · intro hnodes
    exact ⟨_, hroot, hnodes⟩

def threeLeafTree : BPlusTree.Rooted Bytes Bytes :=
  ⟨1, (⟨3, .cons ⟨1, [([1], wideValue)], 2⟩ [2] (.cons ⟨2, [([2], wideValue)], 4⟩ [3]
    (.last ⟨4, [([3], wideValue)], noSibling⟩))⟩ : Branch Bytes (Leaf Bytes Bytes))⟩

/-- The middle one of three leaves loses its only key, and the root keeps the other two. -/
theorem no_empty_nodes_three_leaves : ∃ (p₀ p p' : BufferPool MemPageStore) (root : PageId),
    openTree MemPageStore.new 2 = (.ok (), some p₀) ∧
    Run (Under KeepsTwoChildren (ChangeStep (2 ^ 64))) p₀
      (TreeCall.answered (ε := Empty) .empty (threeLeaves.take 3)) p ∧
    ChangeStep (ε := Empty) (2 ^ 64) p (.delete [2], .ok (.found true)) p' ∧
    rootOf p' = some root ∧ NoEmptyNodes p' root := by
  obtain ⟨p₀, hopen, hq₀⟩ := MemPageStore.openTree_ok (le_refl 2)
  have hafter : (threeLeaves.take 3).foldlM (fun s c => after s.1 s.2 c) (emptyTree, 2) =
      some (threeLeafTree, 5) := by
    decide +kernel
  obtain ⟨p, content, hchanges, ht, hq⟩ :=
    change_run (le_refl 2) (le_refl (2 ^ 64)) hq₀ (by decide) hafter
  obtain ⟨p', hcall, -⟩ := MemPageStore.exec_becomes (c := .delete [2]) (le_refl 2)
    (le_refl (2 ^ 64)) ht hq (m := ⟨threeLeafTree.tree.toList, ht.wf.ordered.ascending⟩) rfl
    (Option.some_ne_none _)
  have hstep : ChangeStep (ε := Empty) (2 ^ 64) p (.delete [2], .ok (.found true)) p' :=
    ⟨trivial, hcall⟩
  have hinserts : ∀ e ∈ TreeCall.answered (ε := Empty) .empty (threeLeaves.take 3),
      ∀ q : BufferPool MemPageStore, KeepsTwoChildren q e := by
    simp [threeLeaves, TreeCall.answered, KeepsTwoChildren]
  have hrun : Run (Under KeepsTwoChildren (ChangeStep (2 ^ 64))) p₀ _ p :=
    hchanges.mono_mem (fun a e _ he h => ⟨hinserts e he a, h.2⟩)
  have hkeeps : KeepsTwoChildren (ε := Empty) p (.delete [2], .ok (.found true)) :=
    (keepsTwoChildren_iff hq ht _ _).mpr (fun hlonely => absurd hlonely.1 (by decide))
  obtain ⟨root, hroot, hnodes⟩ := (no_empty_nodes_iff MemPageStore.nodes (le_refl 2)
    (le_refl (2 ^ 64)) (MemPageStore.nodes_new 0) hopen hrun hstep).mpr hkeeps
  exact ⟨p₀, p, p', root, hopen, hrun, hstep, hroot, hnodes⟩

/-- The root keeps one child when the key in its other leaf is deleted. -/
theorem deletion_leaves_small_root : ∃ (events : List (TreeEvent Empty))
    (p₀ p : BufferPool MemPageStore) (root : PageId),
    events.map Prod.fst = [.insert [1] wideValue, .insert [2] wideValue, .delete [2]] ∧
    openTree MemPageStore.new 2 = (.ok (), some p₀) ∧ Run (ChangeStep (2 ^ 64)) p₀ events p ∧
    rootOf p = some root ∧ ¬ NoEmptyNodes p root := by
  obtain ⟨p₀, hopen, hq₀⟩ := MemPageStore.openTree_ok (le_refl 2)
  have hafter : [.insert [1] wideValue, .insert [2] wideValue, .delete [2]].foldlM
      (fun s c => after s.1 s.2 c) (emptyTree, 2) =
      some (⟨1, (⟨3, .last ⟨1, [([1], wideValue)], 2⟩⟩ : Branch Bytes (Leaf Bytes Bytes))⟩, 4) := by
    decide +kernel
  obtain ⟨p, content, hrun, ht, hq⟩ :=
    change_run (le_refl 2) (le_refl (2 ^ 64)) hq₀ (by decide) hafter
  refine ⟨_, p₀, p, 3, TreeCall.map_answered _ _, hopen, hrun.mono (fun _ _ _ h => h.2),
    rootOf_quiet hq ht.meta_lt ht.root, ?_⟩
  intro hnodes
  have hdense := (noEmptyNodes_iff hq ht).mp hnodes
  exact absurd hdense.2 (by decide)

end Sietch
