import Sietch.Base.BPlusTreeSpec

/-! Empty leaves and small roots. An insertion leaves no leaf empty; a deletion takes an
emptied leaf out with all the branches that had nothing else, but it may leave the root with
one child. -/
namespace BPlusTree
variable {K V : Type} {n : Nat}

def Filled (t : BPlusTree K V n) : Prop := ∀ l ∈ t.leaves, l.entries ≠ []

/-- No leaf is empty unless it is the root, and a root that is not a leaf has two children. -/
def Rooted.Dense : Rooted K V → Prop
  | ⟨0, _⟩ => True
  | ⟨_ + 1, t⟩ => t.Filled ∧ 2 ≤ (Branch.chain t).children.length

/-- The root has two children, and one of them holds the key and no other. -/
def Rooted.Lonely (k : K) : Rooted K V → Prop
  | ⟨0, _⟩ => False
  | ⟨_ + 1, t⟩ => (Branch.chain t).children.length = 2 ∧
      ∃ c ∈ (Branch.chain t).children, (∃ e ∈ c.toList, e.1 = k) ∧ ∀ e ∈ c.toList, e.1 = k

theorem filled_succ {t : BPlusTree K V (n + 1)} :
    t.Filled ↔ ∀ c ∈ (Branch.chain t).children, c.Filled := by
  constructor
  · intro h c hc l hl
    exact h l (List.mem_flatMap.mpr ⟨c, hc, hl⟩)
  · intro h l hl
    obtain ⟨c, hc, hl⟩ := List.mem_flatMap.mp hl
    exact h c hc l hl

theorem leaves_ne_nil (t : BPlusTree K V n) : t.leaves ≠ [] := by
  induction n with
  | zero => exact List.cons_ne_nil _ _
  | succ n ih =>
      intro hnil
      exact ih _ (List.flatMap_eq_nil_iff.mp hnil _ (Branch.chain t).head_mem)

theorem Filled.toList_ne_nil {t : BPlusTree K V n} (h : t.Filled) : t.toList ≠ [] := by
  obtain ⟨l, hl⟩ := List.exists_mem_of_ne_nil _ t.leaves_ne_nil
  intro hnil
  exact h l hl (List.flatMap_eq_nil_iff.mp hnil l hl)

variable [LinearOrder K] {k : K} {v : V} {cap : Capacity K V}
open SortedMap (lookup insertEntry eraseEntry)

theorem Ordered.child_eq_route {t : BPlusTree K V (n + 1)} {lo hi : Option K}
    (h : t.Ordered lo hi) {c : BPlusTree K V n} (hc : c ∈ (Branch.chain t).children)
    {e : K × V} (he : e ∈ c.toList) (hk : e.1 = k) : c = (Branch.chain t).route k := by
  rw [Chain.children_locate k] at hc
  rcases List.mem_append.mp hc with hc | hc
  · obtain ⟨a, b, hordered, hle⟩ := Chain.Spanned.before h k c hc
    have hlt := (hordered.within e he).2 b rfl
    rw [hk] at hlt
    exact absurd hle (not_le.mpr hlt)
  · rcases List.mem_cons.mp hc with rfl | hc
    · rfl
    · obtain ⟨a, b, hordered, hlt⟩ := Chain.Spanned.after h k c hc
      have hle := (hordered.within e he).1 a rfl
      rw [hk] at hle
      exact absurd hlt (not_lt.mpr hle)

theorem Filled.siblings {t : BPlusTree K V (n + 1)} (h : t.Filled) (k : K) :
    (∀ c ∈ ((Branch.chain t).locate k).1, c.Filled) ∧
      ((Branch.chain t).route k).Filled ∧ ∀ c ∈ ((Branch.chain t).locate k).2.2, c.Filled := by
  rw [filled_succ, Chain.children_locate k] at h
  obtain ⟨hbefore, hafter⟩ := List.forall_mem_append.mp h
  exact ⟨hbefore, (List.forall_mem_cons.mp hafter)⟩

/-- A deletion leaves no empty leaf, or it reports that nothing is left. -/
theorem Filled.delete {t t' : BPlusTree K V n} (h : t.Filled)
    (hdel : t.delete k = some (t', false)) : t'.Filled := by
  induction n with
  | zero =>
      have hdel' : Leaf.delete k t = some (t', false) := hdel
      rw [Leaf.delete] at hdel'
      split at hdel'
      · obtain ⟨hleaf, hempty⟩ := Prod.mk.inj (Option.some.inj hdel')
        intro l hl
        rw [List.mem_singleton.mp hl, ← hleaf]
        simpa using hempty
      · cases hdel'
  | succ n ih =>
      obtain ⟨hbefore, hroute, hafter⟩ := h.siblings k
      rw [BPlusTree.delete] at hdel
      split at hdel
      · cases hdel
      · rename_i c e hchild
        rw [Option.some.injEq, Branch.dismiss] at hdel
        rw [filled_succ]
        split at hdel
        · split at hdel
          · rename_i ch hdetach
            cases hdel
            rw [Chain.children_detach hdetach]
            exact List.forall_mem_append.mpr ⟨hbefore, hafter⟩
          · cases hdel
        · rename_i he
          cases hdel
          rw [Bool.not_eq_true] at he
          subst he
          rw [Chain.children_splice]
          exact List.forall_mem_append.mpr ⟨List.forall_mem_append.mpr
            ⟨hbefore, List.forall_mem_singleton.mpr (ih hroute hchild)⟩, hafter⟩

theorem toList_of_emptied {t t' : BPlusTree K V n} (hdel : t.delete k = some (t', true)) :
    t'.toList = [] := by
  obtain ⟨l', e, -, hleaves, hempty⟩ := leaves_delete hdel
  obtain ⟨hnil, hbefore, hafter⟩ := hempty rfl
  rw [toList]
  rcases hleaves with hleaves | ⟨-, hleaves⟩
  · simp [hleaves, hbefore, hafter, hnil]
  · simp [hleaves, hbefore, hafter]

section Root
variable {t t' : Rooted K V} {next next' : Nat}

theorem filled_put (h : put cap k v t next = some (t', next'))
    (hbefore : ∀ l ∈ (t.tree.locate k).1, l.entries ≠ [])
    (hafter : ∀ l ∈ (t.tree.locate k).2.2, l.entries ≠ []) : t'.tree.Filled := by
  obtain ⟨g₀, next₀, hleaf, -, hleaves⟩ := leaves_put h
  have hnew : ∀ l ∈ g₀.chain.children, l.entries ≠ [] := by
    rcases Leaf.insert_cases hleaf with ⟨-, rfl, -⟩ | ⟨left, e, right, -, hleft, -, -, rfl, -⟩
    · simp [Chain.children, SortedMap.insertEntry_ne_nil]
    · simp [Chain.children, hleft]
  intro l hl
  rw [hleaves] at hl
  rcases List.mem_append.mp hl with hl | hl
  · exact (List.mem_append.mp hl).elim (hbefore l) (hnew l)
  · exact hafter l hl

theorem insert_one_children {t u : BPlusTree K V (n + 1)}
    (h : t.insert cap k v next = some (.one u, next')) :
    (Branch.chain t).children.length ≤ (Branch.chain u).children.length := by
  rw [BPlusTree.insert] at h
  split at h
  · cases h
  · rename_i g m hchild
    rcases Branch.absorb_cases h with ⟨-, hone, -⟩ | ⟨l, s, r, -, -, -, htwo, -⟩
    · cases hone
      have hpos : 1 ≤ g.chain.children.length := by
        rw [Chain.length_children]
        exact Nat.succ_pos _
      rw [Chain.children_splice, Chain.children_locate k (Branch.chain t)]
      simp only [List.length_append, List.length_cons]
      omega
    · cases htwo

theorem Rooted.Dense.put (h : t.Dense) (hput : BPlusTree.put cap k v t next = some (t', next')) :
    t'.Dense := by
  have hfilled : t'.tree.Filled := by
    obtain ⟨n, t⟩ := t
    cases n with
    | zero => exact filled_put hput (fun l hl => by cases hl) (fun l hl => by cases hl)
    | succ n =>
        have hall := h.1
        rw [Filled, leaves_locate k] at hall
        obtain ⟨hbefore, hafter⟩ := List.forall_mem_append.mp hall
        exact filled_put hput hbefore (List.forall_mem_cons.mp hafter).2
  rcases put_cases hput with ⟨c, hins, rfl⟩ | ⟨l, s, r, m, -, -, rfl, -⟩
  · obtain ⟨n, t⟩ := t
    cases n with
    | zero => trivial
    | succ n => exact ⟨hfilled, h.2.trans (insert_one_children hins)⟩
  · exact ⟨hfilled, le_refl 2⟩

theorem remove_branch {t u : BPlusTree K V (n + 1)} {emptied : Bool}
    (htwo : 2 ≤ (Branch.chain t).children.length) (hdel : t.delete k = some (u, emptied)) :
    emptied = false ∧ ∃ c e, ((Branch.chain t).route k).delete k = some (c, e) ∧
      (Branch.chain u).children.length + (if e then 1 else 0) =
        (Branch.chain t).children.length := by
  rw [BPlusTree.delete] at hdel
  split at hdel
  · cases hdel
  · rename_i c e hchild
    rw [Option.some.injEq, Branch.dismiss] at hdel
    have hlen := congrArg List.length (Chain.children_locate k (Branch.chain t))
    rw [List.length_append, List.length_cons] at hlen
    split at hdel
    · rename_i he
      split at hdel
      · rename_i ch hdetach
        cases hdel
        refine ⟨rfl, c, e, hchild, ?_⟩
        rw [if_pos he]
        simp only [Chain.children_detach hdetach, List.length_append]
        omega
      · rename_i hdetach
        obtain ⟨d, hd⟩ := Chain.detach_eq_none hdetach
        rw [hd] at htwo
        exact absurd htwo (by simp [Chain.children])
    · rename_i he
      cases hdel
      refine ⟨rfl, c, e, hchild, ?_⟩
      rw [if_neg he]
      simp only [Chain.children_splice, List.length_append, Chain.children, List.length_singleton]
      omega

/-- A deletion keeps the tree dense unless it takes one of two children from the root. -/
theorem Rooted.Dense.remove_iff {lo hi : Option K} (h : t.Dense) (hordered : t.tree.Ordered lo hi)
    (hrem : remove k t = some t') : t'.Dense ↔ ¬ t.Lonely k := by
  obtain ⟨n, t⟩ := t
  cases n with
  | zero =>
      have hzero : t'.Dense := by
        rw [remove] at hrem
        split at hrem
        · cases hrem
        · cases hrem
          trivial
        · cases hrem
          trivial
      exact iff_of_true hzero (fun hl => hl)
  | succ n =>
      obtain ⟨hfilled, htwo⟩ := h
      rw [remove] at hrem
      split at hrem
      · cases hrem
      · rename_i u hdel
        cases (remove_branch htwo hdel).1
      · rename_i u hdel
        cases hrem
        obtain ⟨-, c, e, hchild, hlen⟩ := remove_branch htwo hdel
        have hdense : Dense ⟨n + 1, u⟩ ↔ 2 ≤ (Branch.chain u).children.length :=
          ⟨fun hd => hd.2, fun hlen => ⟨hfilled.delete hdel, hlen⟩⟩
        have hroute := Chain.Spanned.route hordered k
        have htoList := hroute.toList_delete hchild
        have hfound : ∃ e ∈ ((Branch.chain t).route k).toList, e.1 = k := by
          have hsome : (((Branch.chain t).route k).delete k).isSome := by rw [hchild]; rfl
          rw [delete_isSome, ← hroute.lookup k] at hsome
          obtain ⟨x, hx⟩ := Option.isSome_iff_exists.mp hsome
          exact ⟨(k, x), SortedMap.mem_of_lookup hx, rfl⟩
        have honly : e = true ↔ ∀ x ∈ ((Branch.chain t).route k).toList, x.1 = k := by
          constructor
          · rintro rfl x hx
            have hnil := toList_of_emptied hchild
            rw [htoList, eraseEntry, List.filter_eq_nil_iff] at hnil
            simpa using hnil x hx
          · intro hall
            cases e with
            | true => rfl
            | false =>
                refine absurd ?_ ((hfilled.siblings k).2.1.delete hchild).toList_ne_nil
                rw [htoList, eraseEntry, List.filter_eq_nil_iff]
                intro x hx
                simpa using hall x hx
        have hlonely : Lonely k ⟨n + 1, t⟩ ↔ (Branch.chain t).children.length = 2 ∧ e = true := by
          rw [honly]
          refine and_congr_right (fun _ => ⟨?_, fun hall => ?_⟩)
          · rintro ⟨d, hd, ⟨x, hx, hxk⟩, hall⟩
            rw [← hordered.child_eq_route hd hx hxk]
            exact hall
          · exact ⟨_, Chain.route_mem k _, hfound, hall⟩
        rw [hdense, hlonely]
        cases e with
        | true =>
            rw [if_pos rfl] at hlen
            simp only [and_true]
            omega
        | false =>
            rw [if_neg Bool.false_ne_true] at hlen
            simp only [Bool.false_eq_true, and_false, not_false_eq_true, iff_true]
            omega

end Root
end BPlusTree
