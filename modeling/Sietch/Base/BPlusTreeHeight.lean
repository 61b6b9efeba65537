import Sietch.Base.BPlusTreeRoom

/-! How deep a B+tree can get. Every insertion pays one. A node keeps what its children beyond
the `m`-th have paid; a split at depth `n` sets `m ^ n` free, enough for the new child of the
parent or for a new root. Deletions only lose credit, so that the depth is bounded by the number
of insertions although nodes are never merged. -/
namespace BPlusTree
variable {K V : Type}

/-- What the node and those below it have in store. -/
def credit (m : Nat) : {n : Nat} → BPlusTree K V n → Nat
  | 0, l => (Leaf.entries l).length - 1
  | n + 1, t => ((Branch.chain t).children.length - m) * m ^ n +
      ((Branch.chain t).children.map (credit m)).sum

def levelCost (m n : Nat) : Nat := ∑ i ∈ Finset.range n, m ^ i

theorem levelCost_succ (m n : Nat) : levelCost m (n + 1) = levelCost m n + m ^ n :=
  Finset.sum_range_succ ..

theorem levelCost_eq {m : Nat} (hm : 1 ≤ m) (n : Nat) : (m - 1) * levelCost m n + 1 = m ^ n := by
  induction n with
  | zero => simp [levelCost]
  | succ n ih =>
      have hstep : (m - 1) * m ^ n + m ^ n = m ^ (n + 1) := by
        rw [← Nat.succ_mul, Nat.succ_eq_add_one, Nat.sub_add_cancel hm, pow_succ']
      rw [levelCost_succ, Nat.mul_add]
      omega

def keyed (P : K → Bool) : Capacity K V where
  leaf es := es.all (fun e => P e.1)
  node seps := seps.all P
  limit := 0
  leaf_sublist hsub h := by
    rw [List.all_eq_true] at h ⊢
    exact fun e he => h e (hsub.subset he)
  node_sublist hsub h := by
    rw [List.all_eq_true] at h ⊢
    exact fun s hs => h s (hsub.subset hs)

/-- With such keys, what does not fit in a branch has `m` children for each half. -/
def Wide (cap : Capacity K V) (P : K → Bool) (m : Nat) : Prop :=
  ∀ seps : List K, seps.all P = true → ¬ cap.node seps = true → 2 * m ≤ seps.length + 1

variable [LinearOrder K] {cap : Capacity K V} {P : K → Bool} {k : K} {v : V} {m n next next' : Nat}
open SortedMap (insertEntry eraseEntry)

section Keys

theorem keyed_splice {ch seg : Chain K (BPlusTree K V n)} (hseps : ch.seps.all P = true)
    (hch : ∀ c ∈ ch.children, c.Fits (keyed P)) (hseg : seg.seps.all P = true)
    (hnew : ∀ c ∈ seg.children, c.Fits (keyed P)) :
    (ch.splice k seg).seps.all P = true ∧
      ∀ c ∈ (ch.splice k seg).children, c.Fits (keyed P) := by
  constructor
  · rw [List.all_eq_true] at hseps hseg ⊢
    intro s hs
    rcases List.mem_append.mp ((seps_splice_perm k ch seg).subset hs) with hs | hs
    · exact hseg s hs
    · exact hseps s hs
  · rw [Chain.children_locate k ch] at hch
    obtain ⟨hbefore, hafter⟩ := List.forall_mem_append.mp hch
    rw [Chain.children_splice]
    exact List.forall_mem_append.mpr ⟨List.forall_mem_append.mpr ⟨hbefore, hnew⟩,
      (List.forall_mem_cons.mp hafter).2⟩

/-- Separators are keys of entries, so they stay of the kind that is inserted. -/
theorem keyed_insert {t : BPlusTree K V n} {g : Grown K (BPlusTree K V n)}
    (ht : t.Fits (keyed P)) (hk : P k = true) (h : t.insert cap k v next = some (g, next')) :
    g.chain.seps.all P = true ∧ ∀ c ∈ g.chain.children, c.Fits (keyed P) := by
  induction n generalizing next' with
  | zero =>
      have hall : ∀ e ∈ insertEntry k v (Leaf.entries t), P e.1 = true := by
        intro e he
        rcases SortedMap.mem_insertEntry he with rfl | he
        · exact hk
        · exact List.all_eq_true.mp ht e he
      rcases Leaf.insert_cases h with ⟨-, rfl, -⟩ | ⟨left, e, right, hcut, -, -, -, rfl, -⟩
      · refine ⟨rfl, ?_⟩
        intro c hc
        rw [List.mem_singleton.mp hc]
        exact List.all_eq_true.mpr hall
      · rw [hcut] at hall
        obtain ⟨hleft, hright⟩ := List.forall_mem_append.mp hall
        refine ⟨?_, ?_⟩
        · simp [Chain.seps, hright e List.mem_cons_self]
        · intro c hc
          simp only [Grown.chain_two, Chain.children, List.mem_cons, List.not_mem_nil,
            or_false] at hc
          rcases hc with rfl | rfl
          · exact List.all_eq_true.mpr hleft
          · exact List.all_eq_true.mpr hright
  | succ n ih =>
      rw [insert] at h
      split at h
      · cases h
      · rename_i g₀ next₀ hchild
        obtain ⟨hseg, hnew⟩ := ih (ht.route k) hchild
        obtain ⟨hseps, hchildren⟩ := keyed_splice (k := k) ht.1 ht.2 hseg hnew
        rcases Branch.absorb_cases h with ⟨-, rfl, -⟩ | ⟨l, s, r, hcut, -, -, rfl, -⟩
        · refine ⟨rfl, ?_⟩
          intro c hc
          rw [List.mem_singleton.mp hc]
          exact ⟨hseps, hchildren⟩
        · rw [hcut, Chain.seps_append, List.all_append, List.all_cons, Bool.and_eq_true,
            Bool.and_eq_true] at hseps
          rw [hcut, Chain.children_append] at hchildren
          obtain ⟨hl, hr⟩ := List.forall_mem_append.mp hchildren
          refine ⟨?_, ?_⟩
          · simp [Chain.seps, hseps.2.1]
          · intro c hc
            simp only [Grown.chain_two, Chain.children, List.mem_cons, List.not_mem_nil,
              or_false] at hc
            rcases hc with rfl | rfl
            · exact ⟨hseps.1, hl⟩
            · exact ⟨hseps.2.2, hr⟩

theorem keyed_put {t t' : Rooted K V} (ht : t.tree.Fits (keyed P)) (hk : P k = true)
    (h : put cap k v t next = some (t', next')) : t'.tree.Fits (keyed P) := by
  rcases put_cases h with ⟨c, hins, rfl⟩ | ⟨l, s, r, m, hins, -, rfl, rfl⟩
  · exact (keyed_insert ht hk hins).2 c (List.mem_singleton_self c)
  · exact keyed_insert ht hk hins

theorem keyed_remove {t t' : Rooted K V} (ht : t.tree.Fits (keyed P))
    (h : remove k t = some t') : t'.tree.Fits (keyed P) := by
  obtain ⟨u, emptied, hdel, -, -, -, hfits⟩ := remove_cases h
  exact hfits _ (ht.delete hdel)

end Keys

section Credit

theorem length_insertEntry_le (k : K) (v : V) (es : List (K × V)) :
    (insertEntry k v es).length ≤ es.length + 1 := by
  induction es with
  | nil => exact le_rfl
  | cons e es ih =>
      rw [insertEntry]
      split
      · exact le_rfl
      · split
        · exact Nat.le_succ _
        · exact Nat.succ_le_succ ih

/-- What becomes of a branch that does not fit: both parts have `m` children. -/
theorem Branch.absorb_wide {C : Type} {b : Branch K C} {g : Grown K C} {g' : Grown K (Branch K C)}
    (hwide : Wide cap P m) (hm : 1 ≤ m) (hseps : (b.chain.splice k g.chain).seps.all P = true)
    (h : b.absorb cap k g next = some (g', next')) :
    g' = .one ⟨b.id, b.chain.splice k g.chain⟩ ∨
    ∃ l s r, b.chain.splice k g.chain = l.append s r ∧ m ≤ l.children.length ∧
      m ≤ r.children.length ∧ g' = .two ⟨b.id, l⟩ s ⟨next, r⟩ := by
  rw [Branch.absorb] at h
  split at h
  · cases h
    exact .inl rfl
  · rename_i hfull
    split at h
    · cases h
    · rename_i l s r hsplit
      split at h
      · cases h
        obtain ⟨hcut, hlen⟩ := Chain.splitAt_eq hsplit
        have hmany := hwide _ hseps hfull
        have hall := congrArg List.length (congrArg Chain.children hcut)
        rw [Chain.children_append, List.length_append] at hall
        rw [← Chain.length_children] at hmany
        exact .inr ⟨l, s, r, hcut, by omega, by omega, rfl⟩
      · cases h

/-- An insertion pays for what it adds, and for the child that a split gives the parent. -/
theorem credit_insert {t : BPlusTree K V n} {g : Grown K (BPlusTree K V n)}
    (hwide : Wide cap P m) (hm : 1 ≤ m) (ht : t.Fits (keyed P)) (hk : P k = true)
    (h : t.insert cap k v next = some (g, next')) :
    (g.chain.children.map (credit m)).sum + g.chain.seps.length * m ^ n ≤ credit m t + 1 := by
  induction n generalizing next' with
  | zero =>
      have hlen := length_insertEntry_le k v (Leaf.entries t)
      rcases Leaf.insert_cases h with ⟨-, rfl, -⟩ | ⟨left, e, right, hcut, hleft, -, -, rfl, -⟩
      · simp only [Grown.chain_one, Chain.children, Chain.seps, credit, List.map_cons,
          List.map_nil, List.sum_cons, List.sum_nil, List.length_nil, Nat.zero_mul]
        omega
      · have hpos := List.length_pos_of_ne_nil hleft
        rw [hcut, List.length_append, List.length_cons] at hlen
        simp only [Grown.chain_two, Chain.children, Chain.seps, credit, List.map_cons,
          List.map_nil, List.sum_cons, List.sum_nil, List.length_cons, List.length_nil, pow_zero]
        omega
  | succ n ih =>
      rw [insert] at h
      split at h
      · cases h
      · rename_i g₀ next₀ hchild
        have hpaid := ih (ht.route k) hchild
        obtain ⟨hseg, hnew⟩ := keyed_insert (ht.route k) hk hchild
        have hseps := (keyed_splice (k := k) ht.1 ht.2 hseg hnew).1
        -- the other children keep what they have, and there are as many more as separators
        have hsum : (((Branch.chain t).splice k g₀.chain).children.map (credit m)).sum +
            g₀.chain.seps.length * m ^ n ≤
              ((Branch.chain t).children.map (credit m)).sum + 1 := by
          rw [Chain.children_splice, Chain.children_locate k (Branch.chain t)]
          simp only [List.map_append, List.map_cons, List.sum_append, List.sum_cons]
          omega
        have hlen : ((Branch.chain t).splice k g₀.chain).children.length =
            (Branch.chain t).children.length + g₀.chain.seps.length := by
          rw [Chain.children_splice, Chain.children_locate k (Branch.chain t)]
          simp only [List.length_append, List.length_cons, Chain.length_children]
          omega
        generalize hch : (Branch.chain t).splice k g₀.chain = ch at *
        have hmore : (ch.children.length - m) * m ^ n ≤
            ((Branch.chain t).children.length - m) * m ^ n + g₀.chain.seps.length * m ^ n := by
          rw [← Nat.add_mul]
          exact Nat.mul_le_mul_right _ (by omega)
        have hall : (ch.children.length - m) * m ^ n + (ch.children.map (credit m)).sum ≤
            credit m t + 1 := by
          rw [credit]
          omega
        rcases Branch.absorb_wide hwide hm (hch ▸ hseps) h with rfl | ⟨l, s, r, hcut, hl, hr, rfl⟩
        · simp only [Grown.chain_one, Chain.children, Chain.seps, List.map_cons, List.map_nil,
            List.sum_cons, List.sum_nil, List.length_nil, Nat.zero_mul, Nat.add_zero]
          rw [credit, hch]
          exact hall
        · rw [hch] at hcut
          have hparts : (l.children.length - m) * m ^ n + (r.children.length - m) * m ^ n +
              m ^ (n + 1) = (ch.children.length - m) * m ^ n := by
            rw [pow_succ', ← Nat.add_mul, ← Nat.add_mul, hcut, Chain.children_append,
              List.length_append]
            congr 1
            omega
          rw [hcut, Chain.children_append, List.map_append, List.sum_append,
            ← Chain.children_append l s r, ← hcut] at hall
          simp only [Grown.chain_two, Chain.children, Chain.seps, List.map_cons, List.map_nil,
            List.sum_cons, List.sum_nil, List.length_cons, List.length_nil, Nat.zero_add,
            Nat.one_mul, Nat.add_zero]
          rw [credit, credit]
          dsimp only
          omega

theorem credit_delete {t t' : BPlusTree K V n} {emptied : Bool}
    (h : t.delete k = some (t', emptied)) : credit m t' ≤ credit m t := by
  induction n generalizing emptied with
  | zero =>
      obtain ⟨-, rfl, -⟩ := Leaf.delete_cases h
      exact Nat.sub_le_sub_right (List.length_filter_le _ _) 1
  | succ n ih =>
      rw [delete] at h
      split at h
      · cases h
      · rename_i c e hchild
        rw [Option.some.injEq] at h
        have hless := ih hchild
        rcases Branch.dismiss_cases h with ⟨rfl, -⟩ | ⟨ch, -, hdetach, rfl, -⟩
        · rw [credit, credit, Chain.children_splice, Chain.children_locate k (Branch.chain t)]
          simp only [Chain.children, List.map_append, List.map_cons, List.map_nil,
            List.sum_append, List.sum_cons, List.sum_nil, List.length_append, List.length_cons,
            List.length_nil]
          have hsame : (((Branch.chain t).locate k).1.length + (0 + 1) +
              ((Branch.chain t).locate k).2.2.length) =
              (((Branch.chain t).locate k).1.length +
                (((Branch.chain t).locate k).2.2.length + 1)) := by omega
          rw [hsame]
          omega
        · rw [credit, credit, Chain.children_detach hdetach,
            Chain.children_locate k (Branch.chain t)]
          simp only [List.map_append, List.map_cons, List.sum_append, List.sum_cons,
            List.length_append, List.length_cons]
          refine Nat.add_le_add (Nat.mul_le_mul_right _ (by omega)) (by omega)

end Credit

section Depth
variable {t t' : Rooted K V}

/-- The insertions that a tree must have had. -/
def Rooted.paid (m : Nat) (t : Rooted K V) : Nat := credit m t.tree + levelCost m t.depth

theorem paid_put (hwide : Wide cap P m) (hm : 2 ≤ m) (ht : t.tree.Fits (keyed P))
    (hk : P k = true) (h : put cap k v t next = some (t', next')) :
    t'.paid m ≤ t.paid m + 1 := by
  unfold Rooted.paid
  rcases put_cases h with ⟨c, hins, rfl⟩ | ⟨l, s, r, top, hins, -, rfl, rfl⟩
  · have hpaid := credit_insert hwide (by omega) ht hk hins
    simp only [Grown.chain_one, Chain.children, Chain.seps, List.map_cons, List.map_nil,
      List.sum_cons, List.sum_nil, List.length_nil, Nat.zero_mul] at hpaid
    dsimp only
    omega
  · have hpaid := credit_insert hwide (by omega) ht hk hins
    simp only [Grown.chain_two, Chain.children, Chain.seps, List.map_cons, List.map_nil,
      List.sum_cons, List.sum_nil, List.length_cons, List.length_nil] at hpaid
    have hroot : 2 - m = 0 := by omega
    rw [levelCost_succ, credit]
    simp only [Chain.children, List.map_cons, List.map_nil, List.sum_cons, List.sum_nil,
      List.length_cons, List.length_nil, Nat.zero_add, hroot, Nat.zero_mul]
    omega

theorem paid_remove (h : remove k t = some t') : t'.paid m ≤ t.paid m := by
  unfold Rooted.paid
  rw [remove] at h
  split at h
  · cases h
  · rename_i u hdel
    cases h
    have hless := credit_delete (m := m) hdel
    obtain ⟨n, tree⟩ := t
    cases n with
    | zero => exact Nat.add_le_add_right hless _
    | succ n =>
        obtain ⟨c, hc⟩ := chain_of_emptied hdel
        rw [credit, hc] at hless
        simp only [Chain.children, List.map_cons, List.map_nil, List.sum_cons, List.sum_nil]
          at hless
        simp only [collapse, hc, Chain.head]
        rw [levelCost_succ]
        omega
  · rename_i u hdel
    cases h
    exact Nat.add_le_add_right (credit_delete hdel) _

omit [LinearOrder K] in
/-- A tree of depth `d` has cost about `m ^ d` insertions. -/
theorem pow_depth_le (hm : 2 ≤ m) {paid : Nat} (h : t.paid m ≤ paid) :
    m ^ t.depth ≤ (m - 1) * paid + 1 := by
  have hle : levelCost m t.depth ≤ paid := by
    unfold Rooted.paid at h
    omega
  rw [← levelCost_eq (by omega)]
  exact Nat.add_le_add_right (Nat.mul_le_mul_left _ hle) 1

end Depth
end BPlusTree
