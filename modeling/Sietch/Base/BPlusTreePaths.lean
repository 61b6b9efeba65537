import Sietch.Base.BPlusTreeSpec

/-! The subtrees of a B+tree, each given by the positions of the children on the way to it.
All leaves are equally far from the root, and no node is met on two ways. -/
namespace BPlusTree
variable {K V : Type}

def follow : {n : Nat} → BPlusTree K V n → List Nat → Option (Rooted K V)
  | n, t, [] => some ⟨n, t⟩
  | 0, _, _ :: _ => none
  | _ + 1, t, i :: path =>
      match (Branch.chain t).children[i]? with
      | some c => follow c path
      | none => none

@[simp] theorem follow_nil {n : Nat} (t : BPlusTree K V n) : t.follow [] = some ⟨n, t⟩ := by
  cases n <;> rfl

theorem follow_cons {n i : Nat} {t : BPlusTree K V (n + 1)} {path : List Nat} {u : Rooted K V}
    (h : t.follow (i :: path) = some u) :
    ∃ c, (Branch.chain t).children[i]? = some c ∧ c.follow path = some u := by
  rw [follow] at h
  split at h
  · rename_i c hc
    exact ⟨c, hc, h⟩
  · cases h

/-- What holds of a tree and passes from a node to its children holds of every subtree. -/
theorem follow_invariant {P : Rooted K V → Prop}
    (hP : ∀ {n} {t : BPlusTree K V (n + 1)}, P ⟨n + 1, t⟩ → ∀ c ∈ (Branch.chain t).children, P ⟨n, c⟩)
    {n : Nat} {t : BPlusTree K V n} (ht : P ⟨n, t⟩) {path : List Nat} {u : Rooted K V}
    (h : t.follow path = some u) : P u := by
  induction path generalizing n with
  | nil =>
      rw [follow_nil] at h
      cases h
      exact ht
  | cons i path ih =>
      cases n with
      | zero => cases h
      | succ n =>
          obtain ⟨c, hc, hu⟩ := follow_cons h
          exact ih (hP ht c (List.mem_of_getElem? hc)) hu

theorem depth_follow {n : Nat} {t : BPlusTree K V n} {path : List Nat} {u : Rooted K V}
    (h : t.follow path = some u) : u.depth + path.length = n := by
  induction path generalizing n with
  | nil =>
      rw [follow_nil] at h
      cases h
      rfl
  | cons i path ih =>
      cases n with
      | zero => cases h
      | succ n =>
          obtain ⟨c, -, hu⟩ := follow_cons h
          rw [List.length_cons, ← Nat.add_assoc, ih hu]

theorem ids_follow {n : Nat} {t : BPlusTree K V n} {path : List Nat} {u : Rooted K V}
    (h : t.follow path = some u) : ∀ i ∈ u.tree.ids, i ∈ t.ids := by
  refine follow_invariant (P := fun u => ∀ i ∈ u.tree.ids, i ∈ t.ids) ?_ (fun i hi => hi) h
  intro n s hs c hc i hi
  exact hs i (List.mem_cons_of_mem _ (List.mem_flatMap.mpr ⟨c, hc, hi⟩))

/-- Different positions are those of different children. -/
theorem index_of_shared_id {n : Nat} {cs : List (BPlusTree K V n)}
    (hnodup : (cs.flatMap ids).Nodup) {i j x : Nat} {c d : BPlusTree K V n} (hi : cs[i]? = some c)
    (hj : cs[j]? = some d) (hc : x ∈ c.ids) (hd : x ∈ d.ids) : i = j := by
  have hapart := (List.nodup_flatMap.mp hnodup).2
  obtain ⟨hilt, rfl⟩ := List.getElem?_eq_some_iff.mp hi
  obtain ⟨hjlt, rfl⟩ := List.getElem?_eq_some_iff.mp hj
  rcases Nat.lt_trichotomy i j with hlt | heq | hgt
  · exact absurd hd (List.pairwise_iff_getElem.mp hapart i j hilt hjlt hlt hc)
  · exact heq
  · exact absurd hc (List.pairwise_iff_getElem.mp hapart j i hjlt hilt hgt hd)

/-- No node is met on two ways down. -/
theorem follow_unique {n : Nat} {t : BPlusTree K V n} (hnodup : t.ids.Nodup)
    {path path' : List Nat} {u u' : Rooted K V} (h : t.follow path = some u)
    (h' : t.follow path' = some u') (hid : u.tree.id = u'.tree.id) : path = path' := by
  induction path generalizing n path' with
  | nil =>
      rw [follow_nil] at h
      cases h
      cases path' with
      | nil => rfl
      | cons j path' =>
          cases n with
          | zero => cases h'
          | succ n =>
              obtain ⟨d, hd, hu'⟩ := follow_cons h'
              refine absurd ?_ (List.nodup_cons.mp hnodup).1
              rw [show Branch.id t = u'.tree.id from hid]
              exact List.mem_flatMap.mpr ⟨d, List.mem_of_getElem? hd,
                ids_follow hu' _ u'.tree.id_mem_ids⟩
  | cons i path ih =>
      cases n with
      | zero => cases h
      | succ n =>
          obtain ⟨hroot, hchildren⟩ := List.nodup_cons.mp hnodup
          obtain ⟨c, hc, hu⟩ := follow_cons h
          have hin := ids_follow hu _ u.tree.id_mem_ids
          cases path' with
          | nil =>
              rw [follow_nil] at h'
              cases h'
              refine absurd ?_ hroot
              rw [show Branch.id t = u.tree.id from hid.symm]
              exact List.mem_flatMap.mpr ⟨c, List.mem_of_getElem? hc, hin⟩
          | cons j path' =>
              obtain ⟨d, hd, hu'⟩ := follow_cons h'
              have hin' := ids_follow hu' _ u'.tree.id_mem_ids
              rw [← hid] at hin'
              obtain rfl := index_of_shared_id hchildren hc hd hin hin'
              rw [hc] at hd
              cases hd
              rw [ih (List.nodup_flatMap.mp hchildren |>.1 c (List.mem_of_getElem? hc)) hu hu']

theorem follow_leaf {n : Nat} {t : BPlusTree K V n} {l : Leaf K V} :
    l ∈ t.leaves ↔ ∃ path, t.follow path = some ⟨0, l⟩ := by
  constructor
  · intro hl
    induction n with
    | zero =>
        rw [List.mem_singleton.mp hl]
        exact ⟨[], rfl⟩
    | succ n ih =>
        obtain ⟨c, hc, hl⟩ := List.mem_flatMap.mp hl
        obtain ⟨path, hpath⟩ := ih hl
        obtain ⟨i, hi⟩ := List.getElem?_of_mem hc
        exact ⟨i :: path, by rw [follow, hi]; exact hpath⟩
  · rintro ⟨path, hpath⟩
    refine follow_invariant (P := fun u => ∀ m ∈ u.tree.leaves, m ∈ t.leaves) ?_
      (fun m hm => hm) hpath l (List.mem_singleton_self _)
    intro n s hs c hc m hm
    exact hs m (List.mem_flatMap.mpr ⟨c, hc, hm⟩)

variable [LinearOrder K]

theorem Ordered.follow {n : Nat} {t : BPlusTree K V n} {lo hi : Option K} (ht : t.Ordered lo hi)
    {path : List Nat} {u : Rooted K V} (h : t.follow path = some u) :
    ∃ a b, u.tree.Ordered a b := by
  refine follow_invariant (P := fun u => ∃ a b, u.tree.Ordered a b) ?_ ⟨lo, hi, ht⟩ h
  rintro n s ⟨a, b, hs⟩ c hc
  exact Chain.Spanned.forall hs c hc

theorem Ordered.leaf_within {n : Nat} {t : BPlusTree K V n} {lo hi : Option K}
    (ht : t.Ordered lo hi) {path : List Nat} {l : Leaf K V} (h : t.follow path = some ⟨0, l⟩) :
    ∀ e ∈ l.entries, Chain.Within lo hi e.1 := by
  intro e he
  exact ht.within e (List.mem_flatMap.mpr ⟨l, follow_leaf.mpr ⟨path, h⟩, he⟩)

end BPlusTree
