import Sietch.Base.BPlusTreeHeight
import Sietch.BTreePaths
import Sietch.BTreeRoom

/-! The depth of a tree of pages. Pages that are not full are never merged, so the number of keys
in the tree does not bound its depth; the number of insertions does, logarithmically if the keys
are short. -/
namespace Sietch
open ByteString BTree
open Transition (Run)

def shortKey (bound : Nat) (key : Bytes) : Bool := key.length ≤ bound

/-- An inner page overflows with more than `2 * m - 2` short separators only. -/
theorem pageCapacity_wide {m bound : Nat} (hbound : (2 * m - 2) * (14 + bound) ≤ 4066) :
    BPlusTree.Wide pageCapacity (shortKey bound) m := by
  intro seps hseps hfull
  rw [node_weight] at hfull
  have hlight : ∀ s ∈ seps, pageWeights.sep s ≤ 14 + bound := by
    intro s hs
    have hshort := List.all_eq_true.mp hseps s hs
    simp only [shortKey, decide_eq_true_eq] at hshort
    simp only [pageWeights]
    omega
  have hweight := BPlusTree.weight_le _ hlight
  by_contra hfew
  have hless : seps.length * (14 + bound) ≤ (2 * m - 2) * (14 + bound) :=
    Nat.mul_le_mul_right _ (by omega)
  omega

def TreeCall.inserts : TreeCall → Bool
  | .insert _ _ => true
  | _ => false

def TreeCall.ShortKey (bound : Nat) : TreeCall → Prop
  | .insert key _ => key.length ≤ bound
  | _ => True

/-- The tree has been paid for by the insertions so far. -/
structure PaidFor (m bound count : Nat) (t : BPlusTree.Rooted Bytes Bytes) : Prop where
  keys : t.tree.Fits (BPlusTree.keyed (shortKey bound))
  paid : t.paid m ≤ count

namespace PaidFor
variable {m bound count next next' : Nat} {t t' : BPlusTree.Rooted Bytes Bytes}

theorem empty (m bound : Nat) : PaidFor m bound 0 emptyTree := by
  refine ⟨rfl, ?_⟩
  simp [BPlusTree.Rooted.paid, BPlusTree.credit, BPlusTree.levelCost, emptyTree]

theorem after {c : TreeCall} (h : PaidFor m bound count t) (hm : 2 ≤ m)
    (hbound : (2 * m - 2) * (14 + bound) ≤ 4066) (hshort : c.ShortKey bound)
    (hafter : BTree.after t next c = some (t', next')) :
    PaidFor m bound (count + if c.inserts then 1 else 0) t' := by
  cases c with
  | insert key value =>
      have hkey : shortKey bound key = true := decide_eq_true hshort
      have hput : BPlusTree.put pageCapacity key value t next = some (t', next') := hafter
      refine ⟨BPlusTree.keyed_put h.keys hkey hput, ?_⟩
      have hstep := BPlusTree.paid_put (pageCapacity_wide hbound) hm h.keys hkey hput
      simp only [TreeCall.inserts, if_true]
      exact hstep.trans (Nat.add_le_add_right h.paid 1)
  | delete key =>
      cases hrem : BPlusTree.remove key t with
      | none =>
          rw [BTree.after, hrem] at hafter
          cases hafter
          exact h
      | some u =>
          rw [BTree.after, hrem] at hafter
          cases hafter
          exact ⟨BPlusTree.keyed_remove h.keys hrem, (BPlusTree.paid_remove hrem).trans h.paid⟩
  | get key =>
      cases hafter
      exact h
  | scanAll =>
      cases hafter
      exact h

end PaidFor

/-- After any successful insertions and deletions, of keys that leave room for `2 * m - 2` of
them in a page, the number of levels is at most about the logarithm to the base `m` of the
number of insertions. -/
theorem btree_depth_logarithmic {S ε : Type} [PageStore S ε] (M : NodeStore S)
    {capacity fuel m bound : Nat} (hcap : 2 ≤ capacity) (hfuel : 2 ^ 64 ≤ fuel) (hm : 2 ≤ m)
    (hbound : (2 * m - 2) * (14 + bound) ≤ 4066) {s : S} (hs : M.Rep s (fun _ => none) (1, 0))
    {p₀ p : BufferPool S} (hopen : openTree s capacity = (.ok (), some p₀))
    {events : List (TreeEvent ε)} (hrun : Run (ChangeStep fuel) p₀ events p)
    (hshort : ∀ e ∈ events, e.1.ShortKey bound) :
    ∃ levels, Answers (ε := ε) M p BTree.depth (levels + 1) ∧
      m ^ levels ≤ (m - 1) * events.countP (fun e => e.1.inserts) + 1 := by
  let I : List (TreeEvent ε) → BufferPool S → Prop := fun hist q =>
    (∀ e ∈ hist, e.1.ShortKey bound) → ∃ content next t, TreeRep content next t ∧
      Quiet M capacity content next 0 q ∧ PaidFor m bound (hist.countP (fun e => e.1.inserts)) t
  have hI : I events p := by
    refine hrun.invariant_history ?_ ?_
    · intro _
      exact ⟨emptyContent, 2, emptyTree, treeRep_empty, openTree_new_ok hcap hs hopen,
        .empty m bound⟩
    · intro hist a e b ih hstep hall
      obtain ⟨hbefore, hlast⟩ := List.forall_mem_append.mp hall
      obtain ⟨content, next, t, ht, hq, hpaid⟩ := ih hbefore
      obtain ⟨t', next', content', hafter, ht', hq'⟩ := change_step hcap hfuel ht hq hstep
      refine ⟨content', next', t', ht', hq', ?_⟩
      rw [List.countP_append, List.countP_singleton]
      exact hpaid.after hm hbound (hlast e (List.mem_singleton_self e)) hafter
  obtain ⟨content, next, t, ht, hq, hpaid⟩ := hI hshort
  exact ⟨t.depth, (depth_yields M hcap ht).answers hq, BPlusTree.pow_depth_le hm hpaid.paid⟩

/-- Keys of up to 100 bytes give the base 16. -/
theorem btree_depth_logarithmic_deleted : ∃ p₀ p : BufferPool MemPageStore,
    openTree MemPageStore.new 2 = (.ok (), some p₀) ∧
    Run (ChangeStep (2 ^ 64)) p₀ threeLeavesEvents p ∧
    ∃ levels, Answers MemPageStore.nodes p BTree.depth (levels + 1) ∧ 16 ^ levels ≤ 15 * 3 + 1 := by
  obtain ⟨p₀, p, hopen, hrun⟩ := three_leaves_run
  have hshort : ∀ e ∈ threeLeavesEvents, e.1.ShortKey 100 := by
    simp [threeLeavesEvents, TreeCall.ShortKey]
  exact ⟨p₀, p, hopen, hrun, btree_depth_logarithmic MemPageStore.nodes (le_refl 2)
    (le_refl (2 ^ 64)) (by norm_num : 2 ≤ 16) (by norm_num) (MemPageStore.nodes_new 0) hopen hrun
    hshort⟩

end Sietch
