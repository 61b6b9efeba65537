import Sietch.Base.BPlusTreeSpec

/-! Trees that can always take one more entry. A node that is cut in the middle by the number
of its entries fits on both sides if the entries are light: as many of the lightest ones as
there are in half a node outweigh the heaviest one, unless that many of the heaviest fit. -/
namespace BPlusTree

/-- A weight for entries and separators, with the greatest one that is let in. -/
structure Weights (K V : Type) where
  entry : K × V → Nat
  sep : K → Nat
  maxEntry : Nat
  maxSep : Nat

section Cut
variable {α : Type} (w : α → Nat)

def weight (xs : List α) : Nat := (xs.map w).sum

@[simp] theorem weight_nil : weight w [] = 0 := rfl

@[simp] theorem weight_cons (x : α) (xs : List α) : weight w (x :: xs) = w x + weight w xs := by
  simp [weight]

@[simp] theorem weight_append (xs ys : List α) :
    weight w (xs ++ ys) = weight w xs + weight w ys := by
  simp [weight]

theorem weight_le {hi : Nat} {xs : List α} (h : ∀ x ∈ xs, w x ≤ hi) :
    weight w xs ≤ xs.length * hi := by
  induction xs with
  | nil => simp
  | cons x xs ih =>
      obtain ⟨hx, hxs⟩ := List.forall_mem_cons.mp h
      have hrest := ih hxs
      rw [weight_cons, List.length_cons, Nat.add_one_mul]
      omega

theorem le_weight {lo : Nat} {xs : List α} (h : ∀ x ∈ xs, lo ≤ w x) :
    xs.length * lo ≤ weight w xs := by
  induction xs with
  | nil => simp
  | cons x xs ih =>
      obtain ⟨hx, hxs⟩ := List.forall_mem_cons.mp h
      have hrest := ih hxs
      rw [weight_cons, List.length_cons, Nat.add_one_mul]
      omega

/-- Elements between two weights are light for a bound. -/
def Light (lo hi bound : Nat) : Prop := ∀ n, hi ≤ n * lo ∨ (n + 1) * hi ≤ bound

/-- The part of an overfull list that has at most one element more than the rest fits. -/
theorem Light.part_le {lo hi bound : Nat} (h : Light lo hi bound) {xs ys : List α}
    (hxs : ∀ x ∈ xs, w x ≤ hi) (hys : ∀ y ∈ ys, lo ≤ w y)
    (htotal : weight w xs + weight w ys ≤ bound + hi) (hlen : xs.length ≤ ys.length + 1) :
    weight w xs ≤ bound := by
  rcases h ys.length with hrest | hfew
  · have hheavy := hrest.trans (le_weight w hys)
    omega
  · have hle := weight_le w hxs
    exact hle.trans ((Nat.mul_le_mul_right hi hlen).trans hfew)

end Cut

namespace Weights
variable {K V : Type} (W : Weights K V)

def light : Capacity K V where
  leaf es := es.all (fun e => W.entry e ≤ W.maxEntry)
  node seps := seps.all (fun s => W.sep s ≤ W.maxSep)
  limit := 0
  leaf_sublist hsub h := by
    rw [List.all_eq_true] at h ⊢
    exact fun e he => h e (hsub.subset he)
  node_sublist hsub h := by
    rw [List.all_eq_true] at h ⊢
    exact fun s hs => h s (hsub.subset hs)

@[simp] theorem light_leaf {es : List (K × V)} :
    W.light.leaf es = true ↔ ∀ e ∈ es, W.entry e ≤ W.maxEntry := by
  simp [light]

@[simp] theorem light_node {seps : List K} :
    W.light.node seps = true ↔ ∀ s ∈ seps, W.sep s ≤ W.maxSep := by
  simp [light]

/-- The capacity is one of weight, for which light contents are light. -/
structure Suits (cap : Capacity K V) : Prop where
  leaf : ∃ lo bound, (∀ es, cap.leaf es = true ↔ weight W.entry es ≤ bound) ∧
    (∀ e, lo ≤ W.entry e) ∧ Light lo W.maxEntry bound
  node : ∃ lo bound, (∀ seps, cap.node seps = true ↔ weight W.sep seps ≤ bound) ∧
    (∀ s, lo ≤ W.sep s) ∧ Light lo W.maxSep bound ∧ W.maxSep ≤ bound
  key : ∀ e, W.entry e ≤ W.maxEntry → W.sep e.1 ≤ W.maxSep

end Weights

variable {K V C : Type} [LinearOrder K] {W : Weights K V} {cap : Capacity K V} {k : K} {v : V}
open SortedMap (insertEntry)

theorem weight_insertEntry (w : K × V → Nat) (k : K) (v : V) (es : List (K × V)) :
    weight w (insertEntry k v es) ≤ weight w es + w (k, v) := by
  induction es with
  | nil => simp [insertEntry]
  | cons e es ih =>
      rw [insertEntry]
      split
      · simp only [weight_cons]
        omega
      · split
        · simp only [weight_cons]
          omega
        · simp only [weight_cons]
          omega

/-- The separators after a child was replaced are the old ones and those of the new part. -/
theorem seps_splice_perm (k : K) (ch seg : Chain K C) :
    (ch.splice k seg).seps.Perm (seg.seps ++ ch.seps) := by
  induction ch with
  | last c => simp [Chain.splice, Chain.seps]
  | cons c s rest ih =>
      rw [Chain.splice]
      split
      · exact (ih.cons s).trans List.perm_middle.symm
      · rw [Chain.seps_append]
        exact List.Perm.refl _

theorem weight_perm {α : Type} (w : α → Nat) {xs ys : List α} (h : xs.Perm ys) :
    weight w xs = weight w ys := (h.map w).sum_eq

structure Grows (W : Weights K V) {n : Nat} (next next' : Nat) (g : Grown K (BPlusTree K V n)) :
    Prop where
  children : ∀ c ∈ g.chain.children, c.Fits W.light
  seps : ∀ s ∈ g.chain.seps, W.sep s ≤ W.maxSep
  count : g.chain.seps.length ≤ 1
  next : next' ≤ next + (n + 1)

theorem Leaf.insert_light (hW : W.Suits cap) {l : Leaf K V}
    (hlight : ∀ e ∈ l.entries, W.entry e ≤ W.maxEntry) (hfits : cap.leaf l.entries = true)
    (hentry : W.entry (k, v) ≤ W.maxEntry) {next : Nat} (hnext : next + 1 < cap.limit) :
    ∃ g next', l.insert cap k v next = some (g, next') ∧ Grows (n := 0) W next next' g := by
  obtain ⟨lo, bound, hcap, hlo, hcut⟩ := hW.leaf
  have hall : ∀ e ∈ insertEntry k v l.entries, W.entry e ≤ W.maxEntry := by
    intro e he
    rcases SortedMap.mem_insertEntry he with rfl | he
    · exact hentry
    · exact hlight e he
  by_cases hfit : cap.leaf (insertEntry k v l.entries) = true
  · refine ⟨_, _, by rw [Leaf.insert]; exact if_pos hfit, ?_, ?_, ?_, ?_⟩
    · exact List.forall_mem_singleton.mpr (W.light_leaf.mpr hall)
    · exact fun s hs => by cases hs
    · exact Nat.zero_le _
    · exact Nat.le_add_right _ _
  · obtain ⟨e, right, hdrop, hins⟩ := Leaf.insert_of_full (l := l) next hfit
    have hcutlist := List.take_append_drop ((insertEntry k v l.entries).length / 2)
      (insertEntry k v l.entries)
    rw [hdrop] at hcutlist
    have hlen := congrArg List.length hcutlist
    have hleft : (List.take ((insertEntry k v l.entries).length / 2)
        (insertEntry k v l.entries)).length = (insertEntry k v l.entries).length / 2 := by
      rw [List.length_take]
      omega
    have htotal := weight_insertEntry W.entry k v l.entries
    have hbound := (hcap _).mp hfits
    generalize List.take ((insertEntry k v l.entries).length / 2) (insertEntry k v l.entries) = left
      at hins hcutlist hlen hleft
    rw [← hcutlist] at hall htotal
    rw [weight_append] at htotal
    rw [List.length_append, hleft] at hlen
    obtain ⟨hallLeft, hallRight⟩ := List.forall_mem_append.mp hall
    have hloLeft : ∀ y ∈ left, lo ≤ W.entry y := fun y _ => hlo y
    have hloRight : ∀ y ∈ e :: right, lo ≤ W.entry y := fun y _ => hlo y
    have hfitLeft : cap.leaf left = true :=
      (hcap _).mpr (hcut.part_le _ hallLeft hloRight (by omega) (by omega))
    have hfitRight : cap.leaf (e :: right) = true :=
      (hcap _).mpr (hcut.part_le _ hallRight hloLeft (by omega) (by omega))
    rw [if_pos ⟨hnext, hfitLeft, hfitRight⟩] at hins
    refine ⟨_, _, hins, ?_, ?_, ?_, ?_⟩
    · exact List.forall_mem_cons.mpr ⟨W.light_leaf.mpr hallLeft,
        List.forall_mem_singleton.mpr (W.light_leaf.mpr hallRight)⟩
    · exact List.forall_mem_singleton.mpr (hW.key e (hallRight e (List.mem_cons_self ..)))
    · exact le_refl 1
    · exact le_refl _

theorem Branch.absorb_light (hW : W.Suits cap) {n : Nat} {b : Branch K (BPlusTree K V n)}
    {g : Grown K (BPlusTree K V n)} (hb : Fits (n := n + 1) W.light b)
    (hfits : cap.node b.chain.seps = true) {next next' : Nat} (hg : Grows W next next' g)
    (hnext : next' + 1 < cap.limit) :
    ∃ g' next'', b.absorb cap k g next' = some (g', next'') ∧
      Grows (n := n + 1) W next next'' g' := by
  obtain ⟨lo, bound, hcap, hlo, hcut, -⟩ := hW.node
  have hperm := seps_splice_perm k b.chain g.chain
  have hall : ∀ s ∈ (b.chain.splice k g.chain).seps, W.sep s ≤ W.maxSep := by
    intro s hs
    rcases List.mem_append.mp (hperm.mem_iff.mp hs) with hs | hs
    · exact hg.seps s hs
    · exact W.light_node.mp hb.1 s hs
  have hchildren : ∀ c ∈ (b.chain.splice k g.chain).children, Fits W.light c := by
    intro c hc
    have hold := hb.2 c
    rw [Chain.children_locate k b.chain] at hold
    rw [Chain.children_splice, List.mem_append, List.mem_append] at hc
    rcases hc with (hc | hc) | hc
    · exact hold (by simp [hc])
    · exact hg.children c hc
    · exact hold (by simp [hc])
  have htotal : weight W.sep (b.chain.splice k g.chain).seps ≤ bound + W.maxSep := by
    have hnew := (weight_le W.sep hg.seps).trans (Nat.mul_le_mul_right _ hg.count)
    have hold := (hcap _).mp hfits
    rw [weight_perm W.sep hperm, weight_append]
    omega
  have hle := hg.next
  rw [Branch.absorb]
  generalize b.chain.splice k g.chain = ch at hall hchildren htotal
  by_cases hfit : cap.node ch.seps = true
  · refine ⟨_, _, if_pos hfit, ?_, ?_, ?_, ?_⟩
    · exact List.forall_mem_singleton.mpr ⟨W.light_node.mpr hall, hchildren⟩
    · exact fun s hs => by cases hs
    · exact Nat.zero_le _
    · omega
  · rw [if_neg hfit]
    have hsome : (ch.splitAt (max (ch.children.length / 2) 1)).isSome := by
      have hpos : ch.seps ≠ [] := by
        intro hnil
        rw [hnil] at hfit
        exact hfit ((hcap []).mpr (Nat.zero_le _))
      have hlen := List.length_pos_iff.mpr hpos
      refine Chain.splitAt_isSome (by omega) ?_
      rw [Chain.length_children]
      omega
    obtain ⟨⟨l, s, r⟩, hsplit⟩ := Option.isSome_iff_exists.mp hsome
    obtain ⟨rfl, hlen⟩ := Chain.splitAt_eq hsplit
    rw [hsplit]
    rw [Chain.children_append, List.length_append, Chain.length_children, Chain.length_children]
      at hlen
    rw [Chain.seps_append] at hall htotal
    rw [Chain.children_append] at hchildren
    obtain ⟨hallLeft, hallRest⟩ := List.forall_mem_append.mp hall
    obtain ⟨hs, hallRight⟩ := List.forall_mem_cons.mp hallRest
    obtain ⟨hchl, hchr⟩ := List.forall_mem_append.mp hchildren
    rw [weight_append, weight_cons] at htotal
    have hloLeft : ∀ y ∈ s :: l.seps, lo ≤ W.sep y := fun y _ => hlo y
    have hloRight : ∀ y ∈ s :: r.seps, lo ≤ W.sep y := fun y _ => hlo y
    have hfitLeft : cap.node l.seps = true := (hcap _).mpr (hcut.part_le _ hallLeft hloRight
      (by rw [weight_cons]; omega) (by rw [List.length_cons]; omega))
    have hfitRight : cap.node r.seps = true := (hcap _).mpr (hcut.part_le _ hallRight hloLeft
      (by rw [weight_cons]; omega) (by rw [List.length_cons]; omega))
    refine ⟨_, _, if_pos ⟨hnext, hfitLeft, hfitRight⟩, ?_, ?_, ?_, ?_⟩
    · exact List.forall_mem_cons.mpr ⟨⟨W.light_node.mpr hallLeft, hchl⟩,
        List.forall_mem_singleton.mpr ⟨W.light_node.mpr hallRight, hchr⟩⟩
    · exact List.forall_mem_singleton.mpr hs
    · exact le_refl 1
    · omega

theorem insert_light (hW : W.Suits cap) {n : Nat} {t : BPlusTree K V n} (hlight : t.Fits W.light)
    (hfits : t.Fits cap) (hentry : W.entry (k, v) ≤ W.maxEntry) {next : Nat}
    (hnext : next + (n + 1) < cap.limit) :
    ∃ g next', t.insert cap k v next = some (g, next') ∧ Grows W next next' g := by
  induction n with
  | zero => exact Leaf.insert_light hW (W.light_leaf.mp hlight) hfits hentry hnext
  | succ n ih =>
      obtain ⟨g, next', hchild, hg⟩ := ih (hlight.route k) (hfits.route k) (by omega)
      have hle := hg.next
      obtain ⟨g', next'', habsorb, hg'⟩ := Branch.absorb_light hW hlight hfits.1 hg (k := k) (by omega)
      exact ⟨g', next'', by rw [BPlusTree.insert, hchild]; exact habsorb, hg'⟩

/-- A light tree takes a light entry and stays light. It gets at most one level deeper. -/
theorem put_light_bounds (hW : W.Suits cap) {t : Rooted K V} (hlight : t.tree.Fits W.light)
    (hfits : t.tree.Fits cap) (hentry : W.entry (k, v) ≤ W.maxEntry) {next : Nat}
    (hnext : next + (t.depth + 2) < cap.limit) :
    ∃ t' next', put cap k v t next = some (t', next') ∧ t'.tree.Fits W.light ∧
      t'.depth ≤ t.depth + 1 ∧ next' ≤ next + (t.depth + 2) := by
  have hbelow : next + (t.depth + 1) < cap.limit := by omega
  obtain ⟨g, next', hins, hg⟩ := insert_light hW hlight hfits hentry hbelow
  have hle := hg.next
  cases g with
  | one c =>
      refine ⟨⟨t.depth, c⟩, next', by rw [put, hins], ?_, Nat.le_succ _, by omega⟩
      exact hg.children c (List.mem_singleton_self _)
  | two l s r =>
      have hs := hg.seps s (List.mem_singleton_self _)
      obtain ⟨lo, bound, hcap, -, -, hmax⟩ := hW.node
      have hnode : cap.node [s] = true := by
        rw [hcap, weight_cons, weight_nil]
        omega
      refine ⟨_, _, (put_two hins).trans (if_pos ⟨by omega, hnode⟩), ?_, le_rfl, by omega⟩
      exact ⟨W.light_node.mpr (List.forall_mem_singleton.mpr hs), hg.children⟩

theorem put_light (hW : W.Suits cap) {t : Rooted K V} (hlight : t.tree.Fits W.light)
    (hfits : t.tree.Fits cap) (hentry : W.entry (k, v) ≤ W.maxEntry) {next : Nat}
    (hnext : next + (t.depth + 2) < cap.limit) :
    ∃ t' next', put cap k v t next = some (t', next') ∧ t'.tree.Fits W.light := by
  obtain ⟨t', next', hput, hlight', -⟩ := put_light_bounds hW hlight hfits hentry hnext
  exact ⟨t', next', hput, hlight'⟩

theorem insert_keeps_light (hW : W.Suits cap) {n : Nat} {t : BPlusTree K V n}
    (hlight : t.Fits W.light) (hentry : W.entry (k, v) ≤ W.maxEntry) {next next' : Nat}
    {g : Grown K (BPlusTree K V n)} (h : t.insert cap k v next = some (g, next')) :
    (∀ c ∈ g.chain.children, c.Fits W.light) ∧ ∀ s ∈ g.chain.seps, W.sep s ≤ W.maxSep := by
  induction n generalizing next' with
  | zero =>
      have hall : ∀ e ∈ insertEntry k v (Leaf.entries t), W.entry e ≤ W.maxEntry := by
        intro e he
        rcases SortedMap.mem_insertEntry he with rfl | he
        · exact hentry
        · exact W.light_leaf.mp hlight e he
      rcases Leaf.insert_cases h with ⟨-, rfl, -⟩ | ⟨left, e, right, heq, -, -, -, rfl, -⟩
      · exact ⟨List.forall_mem_singleton.mpr (W.light_leaf.mpr hall), fun s hs => by cases hs⟩
      · rw [heq] at hall
        obtain ⟨hleft, hright⟩ := List.forall_mem_append.mp hall
        refine ⟨List.forall_mem_cons.mpr ⟨W.light_leaf.mpr hleft, ?_⟩, ?_⟩
        · exact List.forall_mem_singleton.mpr (W.light_leaf.mpr hright)
        · exact List.forall_mem_singleton.mpr (hW.key e (hright e (List.mem_cons_self ..)))
  | succ n ih =>
      rw [insert] at h
      split at h
      · cases h
      · rename_i g₁ next₁ hchild
        obtain ⟨hchildren, hseps⟩ := ih (hlight.route k) hchild
        have hall : ∀ s ∈ ((Branch.chain t).splice k g₁.chain).seps, W.sep s ≤ W.maxSep := by
          intro s hs
          rcases List.mem_append.mp ((seps_splice_perm k _ _).mem_iff.mp hs) with hs | hs
          · exact hseps s hs
          · exact W.light_node.mp hlight.1 s hs
        have hlights : ∀ c ∈ ((Branch.chain t).splice k g₁.chain).children, Fits W.light c := by
          intro c hc
          have hold := hlight.2 c
          rw [Chain.children_locate k (Branch.chain t)] at hold
          rw [Chain.children_splice, List.mem_append, List.mem_append] at hc
          rcases hc with (hc | hc) | hc
          · exact hold (by simp [hc])
          · exact hchildren c hc
          · exact hold (by simp [hc])
        rcases Branch.absorb_cases h with ⟨-, rfl, -⟩ | ⟨l, s, r, heq, -, -, rfl, -⟩
        · exact ⟨List.forall_mem_singleton.mpr ⟨W.light_node.mpr hall, hlights⟩,
            fun s hs => by cases hs⟩
        · rw [heq, Chain.seps_append] at hall
          rw [heq, Chain.children_append] at hlights
          obtain ⟨hallLeft, hallRest⟩ := List.forall_mem_append.mp hall
          obtain ⟨hs, hallRight⟩ := List.forall_mem_cons.mp hallRest
          obtain ⟨hleft, hright⟩ := List.forall_mem_append.mp hlights
          refine ⟨List.forall_mem_cons.mpr ⟨⟨W.light_node.mpr hallLeft, hleft⟩, ?_⟩, ?_⟩
          · exact List.forall_mem_singleton.mpr ⟨W.light_node.mpr hallRight, hright⟩
          · exact List.forall_mem_singleton.mpr hs

theorem put_keeps_light (hW : W.Suits cap) {t t' : Rooted K V} (hlight : t.tree.Fits W.light)
    (hentry : W.entry (k, v) ≤ W.maxEntry) {next next' : Nat}
    (h : put cap k v t next = some (t', next')) : t'.tree.Fits W.light := by
  rcases put_cases h with ⟨c, hins, rfl⟩ | ⟨l, s, r, m, hins, -, rfl, -⟩
  · exact (insert_keeps_light hW hlight hentry hins).1 c (List.mem_singleton_self _)
  · obtain ⟨hchildren, hseps⟩ := insert_keeps_light hW hlight hentry hins
    exact ⟨W.light_node.mpr hseps, hchildren⟩

end BPlusTree
