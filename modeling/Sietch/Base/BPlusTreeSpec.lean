import Sietch.Base.BPlusTree

/-! What insertion and deletion do to a B+tree: the leaf that the key belongs to is replaced,
and all that depends on the leaves follows from that. -/

section Steps
variable {K V C : Type} [LinearOrder K] {cap : Capacity K V} {k : K} {v : V}
open SortedMap (lookup insertEntry eraseEntry)

/-- What becomes of a leaf: it fits, or it is cut in two that are not empty. -/
theorem Leaf.insert_cases {l : Leaf K V} {next next' : Nat} {g : Grown K (Leaf K V)}
    (h : l.insert cap k v next = some (g, next')) :
    (cap.leaf (insertEntry k v l.entries) ∧
      g = .one { l with entries := insertEntry k v l.entries } ∧ next' = next) ∨
    ∃ left e right, insertEntry k v l.entries = left ++ e :: right ∧ left ≠ [] ∧
      cap.leaf left ∧ cap.leaf (e :: right) ∧
      g = .two ⟨l.id, left, next⟩ e.1 ⟨next, e :: right, l.next⟩ ∧ next' = next + 1 := by
  rw [Leaf.insert] at h
  split at h
  · rename_i hfit
    cases h
    exact .inl ⟨hfit, rfl, rfl⟩
  · rename_i hfull
    split at h
    · cases h
    · rename_i e right hdrop
      split at h
      · rename_i hok
        cases h
        have hcut := List.take_append_drop ((insertEntry k v l.entries).length / 2)
          (insertEntry k v l.entries)
        rw [hdrop] at hcut
        refine .inr ⟨_, e, right, hcut.symm, fun hnil => hfull ?_, hok.2.1, hok.2.2, rfl, rfl⟩
        rw [hnil, List.nil_append] at hcut
        rw [← hcut]
        exact hok.2.2
      · cases h

/-- A leaf that does not fit is cut in the middle, if there is a number left and the halves
fit. -/
theorem Leaf.insert_of_full {l : Leaf K V} (next : Nat)
    (hfull : ¬ cap.leaf (insertEntry k v l.entries) = true) :
    ∃ e right, (insertEntry k v l.entries).drop ((insertEntry k v l.entries).length / 2) =
        e :: right ∧
      l.insert cap k v next =
        if next + 1 < cap.limit ∧
            cap.leaf ((insertEntry k v l.entries).take ((insertEntry k v l.entries).length / 2)) ∧
            cap.leaf (e :: right) then
          some (.two ⟨l.id, (insertEntry k v l.entries).take ((insertEntry k v l.entries).length / 2),
            next⟩ e.1 ⟨next, e :: right, l.next⟩, next + 1)
        else none := by
  have hpos := List.length_pos_iff.mpr (SortedMap.insertEntry_ne_nil k v l.entries)
  rw [Leaf.insert]
  simp only [if_neg hfull]
  cases hdrop : (insertEntry k v l.entries).drop ((insertEntry k v l.entries).length / 2) with
  | nil =>
      rw [List.drop_eq_nil_iff] at hdrop
      omega
  | cons e right => exact ⟨e, right, rfl, rfl⟩

theorem Leaf.insert_limit {l : Leaf K V} {next next' : Nat} {g : Grown K (Leaf K V)}
    (h : l.insert cap k v next = some (g, next')) (hle : next ≤ cap.limit) : next' ≤ cap.limit := by
  by_cases hfit : cap.leaf (insertEntry k v l.entries) = true
  · rw [Leaf.insert] at h
    simp only [if_pos hfit] at h
    cases h
    exact hle
  · obtain ⟨e, right, -, hins⟩ := Leaf.insert_of_full next hfit
    rw [hins] at h
    split at h
    · rename_i hok
      cases h
      exact hok.1.le
    · cases h

/-- What becomes of a branch. -/
theorem Branch.absorb_cases {b : Branch K C} {g : Grown K C} {g' : Grown K (Branch K C)}
    {next next' : Nat} (h : b.absorb cap k g next = some (g', next')) :
    (cap.node (b.chain.splice k g.chain).seps ∧
      g' = .one ⟨b.id, b.chain.splice k g.chain⟩ ∧ next' = next) ∨
    ∃ l s r, b.chain.splice k g.chain = l.append s r ∧ cap.node l.seps ∧ cap.node r.seps ∧
      g' = .two ⟨b.id, l⟩ s ⟨next, r⟩ ∧ next' = next + 1 := by
  rw [Branch.absorb] at h
  split at h
  · rename_i hfit
    cases h
    exact .inl ⟨hfit, rfl, rfl⟩
  · split at h
    · cases h
    · rename_i l s r hsplit
      split at h
      · rename_i hok
        cases h
        exact .inr ⟨l, s, r, (Chain.splitAt_eq hsplit).1, hok.2.1, hok.2.2, rfl, rfl⟩
      · cases h

theorem Branch.absorb_limit {b : Branch K C} {g : Grown K C} {g' : Grown K (Branch K C)}
    {next next' : Nat} (h : b.absorb cap k g next = some (g', next')) (hle : next ≤ cap.limit) :
    next' ≤ cap.limit := by
  rw [Branch.absorb] at h
  split at h
  · cases h
    exact hle
  · split at h
    · cases h
    · split at h
      · rename_i hok
        cases h
        exact hok.1.le
      · cases h

theorem Leaf.delete_cases {l l' : Leaf K V} {emptied : Bool}
    (h : l.delete k = some (l', emptied)) :
    (∃ x, lookup k l.entries = some x) ∧ l' = { l with entries := eraseEntry k l.entries } ∧
      (emptied = true → l'.entries = []) := by
  rw [Leaf.delete] at h
  split at h
  · rename_i hfound
    cases h
    exact ⟨Option.isSome_iff_exists.mp hfound, rfl, List.isEmpty_iff.mp⟩
  · cases h

/-- Either the child that the key belongs to is replaced, or it was emptied and is gone. -/
theorem Branch.dismiss_cases {b b' : Branch K C} {c : C} {emptied emptied' : Bool}
    (h : b.dismiss k c emptied = (b', emptied')) :
    (b' = ⟨b.id, b.chain.splice k (.last c)⟩ ∧
      (emptied' = true → emptied = true ∧ ∃ d, b.chain = .last d)) ∨
    ∃ ch, emptied = true ∧ b.chain.detach k = some ch ∧ b' = ⟨b.id, ch⟩ ∧ emptied' = false := by
  rw [Branch.dismiss] at h
  split at h
  · rename_i hemptied
    split at h
    · rename_i ch hdetach
      cases h
      exact .inr ⟨ch, hemptied, hdetach, rfl, rfl⟩
    · rename_i hdetach
      cases h
      obtain ⟨d, hd⟩ := Chain.detach_eq_none hdetach
      refine .inl ⟨?_, fun _ => ⟨hemptied, d, hd⟩⟩
      rw [hd]
      rfl
  · cases h
    exact .inl ⟨rfl, (fun he => by cases he)⟩

end Steps

namespace BPlusTree
variable {K V : Type} {n : Nat} {cap : Capacity K V}

theorem toList_succ (t : BPlusTree K V (n + 1)) :
    t.toList = (Branch.chain t).children.flatMap toList := by
  rw [toList, leaves, List.flatMap_assoc]
  rfl

theorem id_mem_ids (t : BPlusTree K V n) : t.id ∈ t.ids := by
  cases n with
  | zero => exact List.mem_singleton.mpr rfl
  | succ n => exact List.mem_cons_self ..

theorem leaves_sublist_ids (t : BPlusTree K V n) : (t.leaves.map (·.id)).Sublist t.ids := by
  induction n with
  | zero => exact List.Sublist.refl _
  | succ n ih =>
      refine List.Sublist.cons _ ?_
      rw [leaves, List.map_flatMap]
      induction (Branch.chain t).children with
      | nil => exact List.Sublist.refl _
      | cons c cs ihcs =>
          rw [List.flatMap_cons, List.flatMap_cons]
          exact (ih c).append ihcs

theorem leaf_mem_ids {t : BPlusTree K V n} {l : Leaf K V} (h : l ∈ t.leaves) : l.id ∈ t.ids :=
  t.leaves_sublist_ids.subset (List.mem_map_of_mem h)

section Order
variable [LinearOrder K] {k : K} {v : V} {t : BPlusTree K V n}
open SortedMap (lookup insertEntry eraseEntry)

/-- The leaf that the key belongs to. -/
def leafOf (k : K) (t : BPlusTree K V n) : Leaf K V := (t.locate k).2.1

theorem leaves_locate (k : K) (t : BPlusTree K V n) :
    t.leaves = (t.locate k).1 ++ t.leafOf k :: (t.locate k).2.2 := by
  induction n with
  | zero => rfl
  | succ n ih =>
      have hroute := ih ((Branch.chain t).route k)
      rw [leaves, Chain.children_locate k, List.flatMap_append, List.flatMap_cons, hroute]
      simp only [leafOf, locate, Chain.route, List.append_assoc, List.cons_append]

theorem leafOf_mem (k : K) (t : BPlusTree K V n) : t.leafOf k ∈ t.leaves := by
  rw [leaves_locate k t]
  simp

/-- Insertion replaces the leaf by what it becomes. -/
theorem leaves_insert {next next' : Nat} {g : Grown K (BPlusTree K V n)}
    (h : t.insert cap k v next = some (g, next')) :
    ∃ g₀ next₀, (t.leafOf k).insert cap k v next = some (g₀, next₀) ∧ next₀ ≤ next' ∧
      g.chain.children.flatMap leaves =
        (t.locate k).1 ++ g₀.chain.children ++ (t.locate k).2.2 := by
  induction n generalizing next' with
  | zero =>
      refine ⟨g, next', h, le_refl _, ?_⟩
      show g.chain.children.flatMap (fun l => [l]) = [] ++ g.chain.children ++ []
      rw [List.flatMap_singleton', List.nil_append, List.append_nil]
  | succ n ih =>
      rw [insert] at h
      split at h
      · cases h
      · rename_i g₁ next₁ hchild
        obtain ⟨g₀, next₀, hleaf, hle, hleaves⟩ := ih hchild
        have hch : ((Branch.chain t).splice k g₁.chain).children.flatMap leaves =
            (t.locate k).1 ++ g₀.chain.children ++ (t.locate k).2.2 := by
          rw [Chain.children_splice, List.flatMap_append, List.flatMap_append, hleaves]
          simp only [locate, Chain.route, List.append_assoc]
        rcases Branch.absorb_cases h with ⟨-, rfl, rfl⟩ | ⟨l, s, r, hsplit, -, -, rfl, rfl⟩
        · refine ⟨g₀, next₀, hleaf, hle, ?_⟩
          simpa [Grown.chain, Chain.children, leaves] using hch
        · rw [hsplit, Chain.children_append] at hch
          refine ⟨g₀, next₀, hleaf, hle.trans (Nat.le_succ _), ?_⟩
          simpa [Grown.chain, Chain.children, leaves] using hch

/-- Deletion replaces the leaf, or takes it out when it is empty. -/
theorem leaves_delete {t' : BPlusTree K V n} {emptied : Bool}
    (h : t.delete k = some (t', emptied)) :
    ∃ l' e, (t.leafOf k).delete k = some (l', e) ∧
      (t'.leaves = (t.locate k).1 ++ l' :: (t.locate k).2.2 ∨
        l'.entries = [] ∧ t'.leaves = (t.locate k).1 ++ (t.locate k).2.2) ∧
      (emptied = true → l'.entries = [] ∧ (t.locate k).1 = [] ∧ (t.locate k).2.2 = []) := by
  induction n generalizing emptied with
  | zero =>
      exact ⟨t', emptied, h, .inl rfl, fun he => ⟨(Leaf.delete_cases h).2.2 he, rfl, rfl⟩⟩
  | succ n ih =>
      rw [delete] at h
      split at h
      · cases h
      · rename_i c e hchild
        obtain ⟨l', e', hleaf, hleaves, hempty⟩ := ih hchild
        rw [Option.some.injEq] at h
        have hpre : (t.locate k).1 = ((Branch.chain t).locate k).1.flatMap leaves ++
            (((Branch.chain t).route k).locate k).1 := rfl
        have hpost : (t.locate k).2.2 = (((Branch.chain t).route k).locate k).2.2 ++
            ((Branch.chain t).locate k).2.2.flatMap leaves := rfl
        rcases Branch.dismiss_cases h with ⟨rfl, hemptied⟩ | ⟨ch, he, hdetach, rfl, rfl⟩
        · refine ⟨l', e', hleaf, ?_, fun he => ?_⟩
          · rw [leaves, Chain.children_splice, List.flatMap_append, List.flatMap_append, hpre, hpost]
            simp only [Chain.children, List.flatMap_singleton]
            rcases hleaves with hleaves | ⟨hnil, hleaves⟩
            · exact .inl (by rw [hleaves]; simp)
            · exact .inr ⟨hnil, by rw [hleaves]; simp⟩
          · obtain ⟨hchildEmptied, d, hd⟩ := hemptied he
            obtain ⟨hnil, hpre', hpost'⟩ := hempty hchildEmptied
            refine ⟨hnil, ?_, ?_⟩
            · rw [hpre, hpre', hd]
              rfl
            · rw [hpost, hpost', hd]
              rfl
        · obtain ⟨hnil, hpre', hpost'⟩ := hempty he
          refine ⟨l', e', hleaf, .inr ⟨hnil, ?_⟩, (fun he => by cases he)⟩
          rw [leaves, Chain.children_detach hdetach, List.flatMap_append, hpre, hpost, hpre', hpost']
          simp

theorem ordered_widens (n : Nat) :
    Chain.Widens (Ordered : Option K → Option K → BPlusTree K V n → Prop) := by
  induction n with
  | zero =>
      intro lo hi lo' hi' l hlo hhi h
      refine ⟨h.1, fun e he => ⟨fun a' ha' => ?_, fun b' hb' => ?_⟩⟩
      · obtain ⟨a, ha, hle⟩ := hlo a' ha'
        exact hle.trans ((h.2 e he).1 a ha)
      · obtain ⟨b, hb, hle⟩ := hhi b' hb'
        exact ((h.2 e he).2 b hb).trans_le hle
  | succ n ih =>
      intro lo hi lo' hi' t hlo hhi h
      exact h.mono ih hlo hhi

variable {lo hi : Option K}

theorem Ordered.within (h : t.Ordered lo hi) : ∀ e ∈ t.toList, Chain.Within lo hi e.1 := by
  induction n generalizing lo hi with
  | zero =>
      intro e he
      rw [toList, leaves, List.flatMap_singleton] at he
      exact h.2 e he
  | succ n ih =>
      rw [toList_succ]
      exact Chain.Spanned.within (fun _ _ _ hc => ih hc) h

theorem Ordered.ascending (h : t.Ordered lo hi) : SortedMap.Ascending t.toList := by
  induction n generalizing lo hi with
  | zero =>
      rw [toList, leaves, List.flatMap_singleton]
      exact h.1
  | succ n ih =>
      rw [toList_succ]
      exact Chain.Spanned.pairwise (fun _ _ _ hc => hc.within) (fun _ _ _ hc => ih hc) h

/-- The leaves before the one that the key belongs to are below the key, those after it are
above. -/
theorem Ordered.locate (h : t.Ordered lo hi) (k : K) :
    (∀ e ∈ (t.locate k).1.flatMap (·.entries), e.1 < k) ∧
      (∀ e ∈ (t.locate k).2.2.flatMap (·.entries), k < e.1) ∧
      SortedMap.Ascending (t.leafOf k).entries := by
  induction n generalizing lo hi with
  | zero => exact ⟨(fun e he => by cases he), (fun e he => by cases he), h.1⟩
  | succ n ih =>
      obtain ⟨hpre, hpost, hasc⟩ := ih (Chain.Spanned.route h k)
      refine ⟨fun e he => ?_, fun e he => ?_, hasc⟩
      · simp only [BPlusTree.locate, List.flatMap_append, List.mem_append] at he
        rcases he with he | he
        · rw [List.flatMap_assoc] at he
          obtain ⟨c, hc, he⟩ := List.mem_flatMap.mp he
          obtain ⟨a, b, hP, hb⟩ := Chain.Spanned.before h k c hc
          exact ((hP.within e he).2 b rfl).trans_le hb
        · exact hpre e he
      · simp only [BPlusTree.locate, List.flatMap_append, List.mem_append] at he
        rcases he with he | he
        · exact hpost e he
        · rw [List.flatMap_assoc] at he
          obtain ⟨c, hc, he⟩ := List.mem_flatMap.mp he
          obtain ⟨a, b, hP, hb⟩ := Chain.Spanned.after h k c hc
          exact hb.trans_le ((hP.within e he).1 a rfl)

theorem toList_locate (k : K) (t : BPlusTree K V n) :
    t.toList = (t.locate k).1.flatMap (·.entries) ++
      ((t.leafOf k).entries ++ (t.locate k).2.2.flatMap (·.entries)) := by
  rw [toList, leaves_locate k, List.flatMap_append, List.flatMap_cons]

/-- A key is looked up in the leaf that it belongs to. -/
theorem Ordered.lookup (h : t.Ordered lo hi) (k : K) :
    SortedMap.lookup k t.toList = SortedMap.lookup k (t.leafOf k).entries := by
  obtain ⟨hpre, hpost, -⟩ := h.locate k
  rw [toList_locate k t, SortedMap.lookup_between hpre hpost]

theorem Ordered.insert {next next' : Nat} {g : Grown K (BPlusTree K V n)} (h : t.Ordered lo hi)
    (hk : Chain.Within lo hi k) (hins : t.insert cap k v next = some (g, next')) :
    g.chain.Spanned Ordered lo hi := by
  induction n generalizing lo hi next' with
  | zero =>
      have hwithin : ∀ e ∈ insertEntry k v (Leaf.entries t), Chain.Within lo hi e.1 := by
        intro e he
        rcases SortedMap.mem_insertEntry he with rfl | he
        · exact hk
        · exact h.2 e he
      have hasc := h.1.insertEntry k v
      rcases Leaf.insert_cases hins with ⟨-, rfl, -⟩ | ⟨left, e, right, hcut, hne, -, -, rfl, -⟩
      · exact ⟨hasc, hwithin⟩
      · rw [hcut] at hasc hwithin
        obtain ⟨hleft, hright, hlt⟩ := List.pairwise_append.mp hasc
        have hmid := hwithin e (by simp)
        refine ⟨⟨fun a ha => ?_, hmid.2⟩, ⟨hleft, fun x hx => ⟨(hwithin x (by simp [hx])).1, ?_⟩⟩,
          hright, fun x hx => ⟨?_, (hwithin x (List.mem_append_right _ hx)).2⟩⟩
        · obtain ⟨x, hx⟩ := List.exists_mem_of_ne_nil left hne
          exact ((hwithin x (by simp [hx])).1 a ha).trans_lt (hlt x hx e (by simp))
        · rintro b hb
          cases hb
          exact hlt x hx e (by simp)
        · rintro a ha
          cases ha
          rcases List.mem_cons.mp hx with rfl | hx
          · exact le_refl _
          · exact (SortedMap.Ascending.head_lt hright hx).le
  | succ n ih =>
      rw [BPlusTree.insert] at hins
      split at hins
      · cases hins
      · rename_i g₁ next₁ hchild
        have hg := ih (Chain.Spanned.route h k) (Chain.within_slot hk _) hchild
        have hch := Chain.Spanned.splice h hg
        rcases Branch.absorb_cases hins with ⟨-, rfl, -⟩ | ⟨l, s, r, hsplit, -, -, rfl, -⟩
        · exact hch
        · rw [hsplit] at hch
          exact (Chain.spanned_append l s r).mp hch

theorem Ordered.delete {t' : BPlusTree K V n} {emptied : Bool} (h : t.Ordered lo hi)
    (hdel : t.delete k = some (t', emptied)) : t'.Ordered lo hi := by
  induction n generalizing lo hi emptied with
  | zero =>
      obtain ⟨-, rfl, -⟩ := Leaf.delete_cases hdel
      exact ⟨h.1.eraseEntry k, fun e he => h.2 e (List.mem_of_mem_filter he)⟩
  | succ n ih =>
      rw [BPlusTree.delete] at hdel
      split at hdel
      · cases hdel
      · rename_i c e hchild
        have hc := ih (Chain.Spanned.route h k) hchild
        rw [Option.some.injEq] at hdel
        rcases Branch.dismiss_cases hdel with ⟨rfl, -⟩ | ⟨ch, -, hdetach, rfl, -⟩
        · exact Chain.Spanned.splice h (show (Chain.last c).Spanned Ordered _ _ from hc)
        · exact Chain.Spanned.detach (ordered_widens n) h hdetach

/-- The left part of what a node becomes keeps its number. -/
theorem head_insert {next next' : Nat} {g : Grown K (BPlusTree K V n)}
    (h : t.insert cap k v next = some (g, next')) : g.chain.head.id = t.id := by
  cases n with
  | zero =>
      rcases Leaf.insert_cases h with ⟨-, rfl, -⟩ | ⟨left, e, right, -, -, -, -, rfl, -⟩
      · rfl
      · rfl
  | succ n =>
      rw [insert] at h
      split at h
      · cases h
      · rcases Branch.absorb_cases h with ⟨-, rfl, -⟩ | ⟨l, s, r, -, -, -, rfl, -⟩
        · rfl
        · rfl

theorem insert_limit {next next' : Nat} {g : Grown K (BPlusTree K V n)}
    (h : t.insert cap k v next = some (g, next')) (hle : next ≤ cap.limit) : next' ≤ cap.limit := by
  induction n generalizing next' with
  | zero => exact Leaf.insert_limit h hle
  | succ n ih =>
      rw [insert] at h
      split at h
      · cases h
      · rename_i g₁ next₁ hchild
        exact Branch.absorb_limit h (ih hchild)

/-- The new nodes get the numbers from `next` on. -/
theorem ids_insert {next next' : Nat} {g : Grown K (BPlusTree K V n)}
    (h : t.insert cap k v next = some (g, next')) :
    next ≤ next' ∧ (g.chain.children.flatMap ids).Perm
      (List.range' next (next' - next) ++ t.ids) := by
  induction n generalizing next' with
  | zero =>
      rcases Leaf.insert_cases h with ⟨-, rfl, rfl⟩ | ⟨left, e, right, -, -, -, -, rfl, rfl⟩
      · simp [Grown.chain, Chain.children, ids]
      · simpa [Grown.chain, Chain.children, ids] using List.Perm.swap ..
  | succ n ih =>
      rw [insert] at h
      split at h
      · cases h
      · rename_i g₁ next₁ hchild
        obtain ⟨hle, hperm⟩ := ih hchild
        -- the numbers below the branch, counted
        have hch : ∀ a, (((Branch.chain t).splice k g₁.chain).children.flatMap ids).count a =
            (List.range' next (next₁ - next)).count a +
              ((Branch.chain t).children.flatMap ids).count a := by
          intro a
          have hcount := hperm.count_eq a
          rw [List.count_append] at hcount
          rw [Chain.children_splice, Chain.children_locate k (Branch.chain t)]
          simp only [List.flatMap_append, List.flatMap_cons, List.count_append, hcount]
          omega
        rcases Branch.absorb_cases h with ⟨-, rfl, rfl⟩ | ⟨l, s, r, hsplit, -, -, rfl, rfl⟩
        · refine ⟨hle, List.perm_iff_count.mpr (fun a => ?_)⟩
          simp only [Grown.chain_one, Chain.children, ids, List.flatMap_cons, List.flatMap_nil,
            List.append_nil, List.count_append, List.count_cons, hch a]
          omega
        · refine ⟨hle.trans (Nat.le_succ _), List.perm_iff_count.mpr (fun a => ?_)⟩
          have hrange : List.range' next (next₁ + 1 - next) =
              List.range' next (next₁ - next) ++ [next₁] := by
            rw [show next₁ + 1 - next = next₁ - next + 1 by omega, List.range'_concat]
            congr 2
            omega
          have hcount := hch a
          rw [hsplit, Chain.children_append, List.flatMap_append, List.count_append] at hcount
          rw [hrange]
          simp only [Grown.chain_two, Chain.children, ids, List.flatMap_cons, List.flatMap_nil,
            List.append_nil, List.count_append, List.count_cons, List.count_nil]
          omega

theorem ids_delete {t' : BPlusTree K V n} {emptied : Bool} (h : t.delete k = some (t', emptied)) :
    t'.id = t.id ∧ t'.ids.Sublist t.ids := by
  induction n generalizing emptied with
  | zero =>
      obtain ⟨-, rfl, -⟩ := Leaf.delete_cases h
      exact ⟨rfl, List.Sublist.refl _⟩
  | succ n ih =>
      rw [delete] at h
      split at h
      · cases h
      · rename_i c e hchild
        obtain ⟨-, hsub⟩ := ih hchild
        rw [Option.some.injEq] at h
        rcases Branch.dismiss_cases h with ⟨rfl, -⟩ | ⟨ch, -, hdetach, rfl, -⟩
        · refine ⟨rfl, List.Sublist.cons_cons _ ?_⟩
          rw [Chain.children_splice, Chain.children_locate k (Branch.chain t)]
          simp only [Chain.children, List.flatMap_append, List.flatMap_cons, List.flatMap_nil,
            List.append_nil, List.append_assoc]
          exact (hsub.append_right _).append_left _
        · refine ⟨rfl, List.Sublist.cons_cons _ ?_⟩
          rw [Chain.children_detach hdetach, Chain.children_locate k (Branch.chain t)]
          simp only [List.flatMap_append, List.flatMap_cons]
          exact (List.sublist_append_right _ _).append_left _

theorem mem_ids_of_route {t : BPlusTree K V (n + 1)} {i : Nat} (k : K)
    (h : i ∈ ((Branch.chain t).route k).ids) : i ∈ t.ids :=
  List.mem_cons_of_mem _ (List.mem_flatMap.mpr ⟨_, Chain.route_mem k _, h⟩)

/-- The numbers of a branch, of the child that a key belongs to and of the other children are
apart. -/
theorem ids_apart {t : BPlusTree K V (n + 1)} (h : t.ids.Nodup) (k : K) :
    Branch.id t ∉ ((Branch.chain t).route k).ids ∧ ((Branch.chain t).route k).ids.Nodup ∧
      ∀ c, c ∈ ((Branch.chain t).locate k).1 ∨ c ∈ ((Branch.chain t).locate k).2.2 →
        ∀ i ∈ c.ids, i ≠ Branch.id t ∧ i ∉ ((Branch.chain t).route k).ids := by
  rw [ids, Chain.children_locate k, List.flatMap_append, List.flatMap_cons,
    List.nodup_cons] at h
  obtain ⟨hroot, hrest⟩ := h
  obtain ⟨-, hright, hleft⟩ := List.nodup_append'.mp hrest
  obtain ⟨hroute, -, hafter⟩ := List.nodup_append'.mp hright
  refine ⟨fun hin => hroot (by simp [hin]), hroute, fun c hc i hi => ⟨?_, fun hin => ?_⟩⟩
  · rintro rfl
    refine hroot ?_
    rcases hc with hc | hc
    · exact List.mem_append_left _ (List.mem_flatMap.mpr ⟨c, hc, hi⟩)
    · exact List.mem_append_right _ (List.mem_append_right _ (List.mem_flatMap.mpr ⟨c, hc, hi⟩))
  · rcases hc with hc | hc
    · exact hleft (List.mem_flatMap.mpr ⟨c, hc, hi⟩) (List.mem_append_left _ hin)
    · exact hafter hin (List.mem_flatMap.mpr ⟨c, hc, hi⟩)

/-- A leaf that was taken out is nowhere in the tree. -/
theorem leafOf_not_mem_ids {t' : BPlusTree K V n} {emptied : Bool} (hnodup : t.ids.Nodup)
    (h : t.delete k = some (t', emptied))
    (hgone : (t.leafOf k).id ∉ t'.leaves.map (·.id)) : (t.leafOf k).id ∉ t'.ids := by
  induction n generalizing emptied with
  | zero =>
      obtain ⟨-, rfl, -⟩ := Leaf.delete_cases h
      exact absurd (List.mem_singleton.mpr rfl) hgone
  | succ n ih =>
      obtain ⟨hroot, hroute, hothers⟩ := ids_apart hnodup k
      have hin : (t.leafOf k).id ∈ ((Branch.chain t).route k).ids :=
        leaf_mem_ids (leafOf_mem k ((Branch.chain t).route k))
      have hself : (t.leafOf k).id ≠ Branch.id t := fun heq => hroot (heq ▸ hin)
      have hother : ∀ c, c ∈ ((Branch.chain t).locate k).1 ∨ c ∈ ((Branch.chain t).locate k).2.2 →
          (t.leafOf k).id ∉ c.ids := fun c hc hmem => (hothers c hc _ hmem).2 hin
      rw [delete] at h
      split at h
      · cases h
      · rename_i c e hchild
        rw [Option.some.injEq] at h
        rcases Branch.dismiss_cases h with ⟨rfl, -⟩ | ⟨ch, -, hdetach, rfl, -⟩
        · have hchildGone : (t.leafOf k).id ∉ c.leaves.map (·.id) := by
            refine fun hmem => hgone ?_
            obtain ⟨l, hl, hid⟩ := List.mem_map.mp hmem
            refine List.mem_map.mpr ⟨l, List.mem_flatMap.mpr ⟨c, ?_, hl⟩, hid⟩
            rw [Chain.children_splice]
            simp [Chain.children]
          rw [ids, List.mem_cons, not_or, List.mem_flatMap]
          refine ⟨hself, ?_⟩
          rintro ⟨d, hd, hmem⟩
          rw [Chain.children_splice, List.mem_append, List.mem_append] at hd
          rcases hd with (hd | hd) | hd
          · exact hother d (.inl hd) hmem
          · rw [List.mem_singleton.mp hd] at hmem
            exact ih hroute hchild hchildGone hmem
          · exact hother d (.inr hd) hmem
        · rw [ids, List.mem_cons, not_or, List.mem_flatMap]
          refine ⟨hself, ?_⟩
          rintro ⟨d, hd, hmem⟩
          rw [Chain.children_detach hdetach, List.mem_append] at hd
          exact hother d hd hmem

theorem Fits.route {t : BPlusTree K V (n + 1)} (h : t.Fits cap) (k : K) :
    Fits cap ((Branch.chain t).route k) := h.2 _ (Chain.route_mem k _)

omit [LinearOrder K] in
theorem Fits.leaves (h : t.Fits cap) {l : Leaf K V} (hl : l ∈ t.leaves) : cap.leaf l.entries := by
  induction n with
  | zero =>
      rw [List.mem_singleton.mp hl]
      exact h
  | succ n ih =>
      obtain ⟨c, hc, hlc⟩ := List.mem_flatMap.mp hl
      exact ih (h.2 c hc) hlc

theorem Fits.insert {next next' : Nat} {g : Grown K (BPlusTree K V n)} (h : t.Fits cap)
    (hins : t.insert cap k v next = some (g, next')) : ∀ c ∈ g.chain.children, c.Fits cap := by
  induction n generalizing next' with
  | zero =>
      rcases Leaf.insert_cases hins with ⟨hfit, rfl, -⟩ | ⟨left, e, right, -, -, hl, hr, rfl, -⟩
      · exact List.forall_mem_singleton.mpr hfit
      · exact List.forall_mem_cons.mpr ⟨hl, List.forall_mem_singleton.mpr hr⟩
  | succ n ih =>
      rw [BPlusTree.insert] at hins
      split at hins
      · cases hins
      · rename_i g₁ next₁ hchild
        have hg := ih (h.route k) hchild
        have hch : ∀ c ∈ ((Branch.chain t).splice k g₁.chain).children, Fits cap c := by
          intro c hc
          rw [Chain.children_splice, List.mem_append, List.mem_append] at hc
          have hold := h.2 c
          rw [Chain.children_locate k (Branch.chain t)] at hold
          rcases hc with (hc | hc) | hc
          · exact hold (by simp [hc])
          · exact hg c hc
          · exact hold (by simp [hc])
        rcases Branch.absorb_cases hins with ⟨hfit, rfl, -⟩ | ⟨l, s, r, hsplit, hl, hr, rfl, -⟩
        · exact List.forall_mem_singleton.mpr ⟨hfit, hch⟩
        · rw [hsplit, Chain.children_append] at hch
          obtain ⟨hchl, hchr⟩ := List.forall_mem_append.mp hch
          exact List.forall_mem_cons.mpr ⟨⟨hl, hchl⟩, List.forall_mem_singleton.mpr ⟨hr, hchr⟩⟩

theorem Fits.delete {t' : BPlusTree K V n} {emptied : Bool} (h : t.Fits cap)
    (hdel : t.delete k = some (t', emptied)) : t'.Fits cap := by
  induction n generalizing emptied with
  | zero =>
      obtain ⟨-, rfl, -⟩ := Leaf.delete_cases hdel
      exact cap.leaf_sublist List.filter_sublist h
  | succ n ih =>
      rw [BPlusTree.delete] at hdel
      split at hdel
      · cases hdel
      · rename_i c e hchild
        have hc := ih (h.route k) hchild
        have hold := h.2
        rw [Chain.children_locate k (Branch.chain t)] at hold
        obtain ⟨hbefore, hafter⟩ := List.forall_mem_append.mp hold
        rw [Option.some.injEq] at hdel
        rcases Branch.dismiss_cases hdel with ⟨rfl, -⟩ | ⟨ch, -, hdetach, rfl, -⟩
        · refine ⟨by rw [Chain.seps_splice_last]; exact h.1, ?_⟩
          rw [Chain.children_splice]
          exact List.forall_mem_append.mpr ⟨List.forall_mem_append.mpr
            ⟨hbefore, List.forall_mem_singleton.mpr hc⟩, (List.forall_mem_cons.mp hafter).2⟩
        · refine ⟨cap.node_sublist (Chain.seps_detach hdetach) h.1, ?_⟩
          rw [Chain.children_detach hdetach]
          exact List.forall_mem_append.mpr ⟨hbefore, (List.forall_mem_cons.mp hafter).2⟩

/-- A branch that is said to be emptied has one child. -/
theorem chain_of_emptied {t t' : BPlusTree K V (n + 1)} (h : t.delete k = some (t', true)) :
    ∃ c, Branch.chain t' = .last c := by
  rw [delete] at h
  split at h
  · cases h
  · rename_i c e hchild
    rw [Option.some.injEq] at h
    rcases Branch.dismiss_cases h with ⟨rfl, hemptied⟩ | ⟨ch, -, -, -, hfalse⟩
    · obtain ⟨-, d, hd⟩ := hemptied rfl
      exact ⟨c, by rw [hd]; rfl⟩
    · cases hfalse

end Order

section Root
variable [LinearOrder K] {k : K} {v : V} {t t' : Rooted K V} {next next' : Nat}
open SortedMap (insertEntry eraseEntry)

/-- Insertion at the root is insertion, under a new root if there are two halves. -/
theorem put_cases (h : put cap k v t next = some (t', next')) :
    (∃ c, t.tree.insert cap k v next = some (.one c, next') ∧ t' = ⟨t.depth, c⟩) ∨
    ∃ l s r m, t.tree.insert cap k v next = some (.two l s r, m) ∧ cap.node [s] ∧
      t' = ⟨t.depth + 1, (⟨m, .cons l s (.last r)⟩ : Branch K (BPlusTree K V t.depth))⟩ ∧
      next' = m + 1 := by
  rw [put] at h
  split at h
  · cases h
  · rename_i c m hins
    cases h
    exact .inl ⟨c, hins, rfl⟩
  · rename_i l s r m hins
    split at h
    · rename_i hok
      cases h
      exact .inr ⟨l, s, r, m, hins, hok.2, rfl, rfl⟩
    · cases h

theorem put_two {l r : BPlusTree K V t.depth} {s : K} {m : Nat}
    (h : t.tree.insert cap k v next = some (.two l s r, m)) :
    put cap k v t next =
      if m + 1 < cap.limit ∧ cap.node [s] then
        some (⟨t.depth + 1, (⟨m, .cons l s (.last r)⟩ : Branch K (BPlusTree K V t.depth))⟩, m + 1)
      else none := by
  rw [put, h]

theorem put_limit (h : put cap k v t next = some (t', next')) (hle : next ≤ cap.limit) :
    next' ≤ cap.limit := by
  rw [put] at h
  split at h
  · cases h
  · rename_i c m hins
    cases h
    exact insert_limit hins hle
  · split at h
    · rename_i hok
      cases h
      exact hok.1.le
    · cases h

theorem leaves_put (h : put cap k v t next = some (t', next')) :
    ∃ g₀ next₀, (t.tree.leafOf k).insert cap k v next = some (g₀, next₀) ∧ next₀ ≤ next' ∧
      t'.tree.leaves = (t.tree.locate k).1 ++ g₀.chain.children ++ (t.tree.locate k).2.2 := by
  rcases put_cases h with ⟨c, hins, rfl⟩ | ⟨l, s, r, m, hins, -, rfl, rfl⟩
  · obtain ⟨g₀, next₀, hleaf, hle, hleaves⟩ := leaves_insert hins
    refine ⟨g₀, next₀, hleaf, hle, ?_⟩
    rw [← hleaves]
    simp [Chain.children]
  · obtain ⟨g₀, next₀, hleaf, hle, hleaves⟩ := leaves_insert hins
    refine ⟨g₀, next₀, hleaf, hle.trans (Nat.le_succ _), ?_⟩
    rw [← hleaves]
    simp [Chain.children, leaves]

theorem ids_put (h : put cap k v t next = some (t', next')) :
    next ≤ next' ∧ t'.tree.ids.Perm (List.range' next (next' - next) ++ t.tree.ids) := by
  rcases put_cases h with ⟨c, hins, rfl⟩ | ⟨l, s, r, m, hins, -, rfl, rfl⟩
  · obtain ⟨hle, hperm⟩ := ids_insert hins
    exact ⟨hle, by simpa [Chain.children] using hperm⟩
  · obtain ⟨hle, hperm⟩ := ids_insert hins
    refine ⟨hle.trans (Nat.le_succ _), ?_⟩
    have hrange : List.range' next (m + 1 - next) = List.range' next (m - next) ++ [m] := by
      rw [show m + 1 - next = m - next + 1 by omega, List.range'_concat]
      congr 2
      omega
    rw [hrange, List.append_assoc]
    exact (hperm.cons m).trans List.perm_middle.symm

theorem Rooted.WF.put (h : t.WF cap next) (hput : put cap k v t next = some (t', next')) :
    t'.WF cap next' := by
  obtain ⟨hle, hperm⟩ := ids_put hput
  refine ⟨?_, ?_, ?_, fun i hi => ?_⟩
  · rcases put_cases hput with ⟨c, hins, rfl⟩ | ⟨l, s, r, m, hins, -, rfl, rfl⟩
    · exact h.ordered.insert (Chain.within_none k) hins
    · exact h.ordered.insert (Chain.within_none k) hins
  · rcases put_cases hput with ⟨c, hins, rfl⟩ | ⟨l, s, r, m, hins, hs, rfl, rfl⟩
    · exact h.fits.insert hins c (by simp [Chain.children])
    · exact ⟨hs, h.fits.insert hins⟩
  · rw [hperm.nodup_iff, List.nodup_append']
    refine ⟨List.nodup_range', h.nodup, fun i hi hold => ?_⟩
    have hlt := (h.numbered i hold).2
    have hge := (List.mem_range'_1.mp hi).1
    omega
  · have hroot := h.numbered _ t.tree.id_mem_ids
    rcases List.mem_append.mp (hperm.mem_iff.mp hi) with hi | hi
    · have hrange := List.mem_range'_1.mp hi
      omega
    · have hold := h.numbered i hi
      omega

/-- Insertion is insertion in the list of entries. -/
theorem Rooted.WF.toList_put (h : t.WF cap next)
    (hput : BPlusTree.put cap k v t next = some (t', next')) :
    t'.tree.toList = insertEntry k v t.tree.toList := by
  obtain ⟨hpre, hpost, -⟩ := h.ordered.locate k
  obtain ⟨g₀, next₀, hleaf, -, hleaves⟩ := leaves_put hput
  have hg₀ : g₀.chain.children.flatMap (·.entries) = insertEntry k v (t.tree.leafOf k).entries := by
    rcases Leaf.insert_cases hleaf with ⟨-, rfl, -⟩ | ⟨left, e, right, hcut, -, -, -, rfl, -⟩
    · simp [Chain.children]
    · simp [Chain.children, hcut]
  rw [toList_locate k t.tree, SortedMap.insertEntry_between v hpre hpost, toList, hleaves,
    List.flatMap_append, List.flatMap_append, hg₀, List.append_assoc]

/-- The only child that takes the place of its parent has all that was below it. -/
theorem collapse_spec {n : Nat} {t u : BPlusTree K V n} (h : t.delete k = some (u, true)) :
    u.collapse.tree.leaves = u.leaves ∧ u.collapse.tree.ids.Sublist u.ids ∧
      (u.Ordered none none → u.collapse.tree.Ordered none none) ∧
      ∀ cap, u.Fits cap → u.collapse.tree.Fits cap := by
  cases n with
  | zero => exact ⟨rfl, List.Sublist.refl _, fun ho => ho, fun _ hf => hf⟩
  | succ n =>
      obtain ⟨c, hc⟩ := chain_of_emptied h
      simp only [collapse, leaves, ids, Ordered, Fits, hc, Chain.head, Chain.children,
        Chain.Spanned, List.flatMap_singleton, true_and]
      exact ⟨List.sublist_cons_self _ _, fun ho => ho, fun _ hf => hf.2 c (by simp)⟩

/-- Deletion at the root is deletion, whether or not the root is replaced. -/
theorem remove_cases (h : remove k t = some t') :
    ∃ u emptied, t.tree.delete k = some (u, emptied) ∧ t'.tree.leaves = u.leaves ∧
      t'.tree.ids.Sublist u.ids ∧ (u.Ordered none none → t'.tree.Ordered none none) ∧
      ∀ cap, u.Fits cap → t'.tree.Fits cap := by
  rw [remove] at h
  split at h
  · cases h
  · rename_i u hdel
    cases h
    exact ⟨u, true, hdel, collapse_spec hdel⟩
  · rename_i u hdel
    cases h
    exact ⟨u, false, hdel, rfl, List.Sublist.refl _, fun ho => ho, fun _ hf => hf⟩

theorem leaves_remove (h : remove k t = some t') :
    ∃ l' e, (t.tree.leafOf k).delete k = some (l', e) ∧
      (t'.tree.leaves = (t.tree.locate k).1 ++ l' :: (t.tree.locate k).2.2 ∨
        l'.entries = [] ∧ t'.tree.leaves = (t.tree.locate k).1 ++ (t.tree.locate k).2.2) := by
  obtain ⟨u, emptied, hdel, hleaves, -⟩ := remove_cases h
  obtain ⟨l', e, hleaf, hu, -⟩ := leaves_delete hdel
  rw [← hleaves] at hu
  exact ⟨l', e, hleaf, hu⟩

/-- The leaf of a deleted key is in its place, or nowhere in the tree. -/
theorem leafOf_not_mem_remove (hnodup : t.tree.ids.Nodup) (h : remove k t = some t')
    (hgone : (t.tree.leafOf k).id ∉ t'.tree.leaves.map (·.id)) :
    (t.tree.leafOf k).id ∉ t'.tree.ids := by
  obtain ⟨u, emptied, hdel, hleaves, hsub, -⟩ := remove_cases h
  rw [hleaves] at hgone
  exact fun hmem => leafOf_not_mem_ids hnodup hdel hgone (hsub.subset hmem)

theorem ids_remove (h : remove k t = some t') : t'.tree.ids.Sublist t.tree.ids := by
  obtain ⟨u, emptied, hdel, -, hsub, -⟩ := remove_cases h
  exact hsub.trans (ids_delete hdel).2

theorem Rooted.WF.remove (h : t.WF cap next) (hrem : BPlusTree.remove k t = some t') :
    t'.WF cap next := by
  have hids := ids_remove hrem
  obtain ⟨u, emptied, hdel, -, -, hordered, hfits⟩ := remove_cases hrem
  exact ⟨hordered (h.ordered.delete hdel), hfits cap (h.fits.delete hdel), h.nodup.sublist hids,
    fun i hi => h.numbered i (hids.subset hi)⟩

/-- Deletion is deletion from the list of entries. -/
theorem Ordered.toList_delete {n : Nat} {t t' : BPlusTree K V n} {lo hi : Option K}
    {emptied : Bool} (h : t.Ordered lo hi) (hdel : t.delete k = some (t', emptied)) :
    t'.toList = eraseEntry k t.toList := by
  obtain ⟨hpre, hpost, -⟩ := h.locate k
  obtain ⟨l', e, hleaf, hleaves, -⟩ := leaves_delete hdel
  obtain ⟨-, hl', -⟩ := Leaf.delete_cases hleaf
  have hentries : l'.entries = eraseEntry k (t.leafOf k).entries := by rw [hl']
  rw [toList_locate k t, SortedMap.eraseEntry_between hpre hpost, toList, ← hentries]
  rcases hleaves with hleaves | ⟨hnil, hleaves⟩
  · rw [hleaves, List.flatMap_append, List.flatMap_cons]
  · rw [hleaves, List.flatMap_append, hnil, List.nil_append]

theorem Rooted.WF.toList_remove (h : t.WF cap next) (hrem : BPlusTree.remove k t = some t') :
    t'.tree.toList = eraseEntry k t.tree.toList := by
  obtain ⟨u, emptied, hdel, hleaves, -⟩ := remove_cases hrem
  rw [toList, hleaves]
  exact h.ordered.toList_delete hdel

omit [LinearOrder K] in
/-- There is a node on every level. -/
theorem depth_lt_length_ids {n : Nat} (t : BPlusTree K V n) : n < t.ids.length := by
  induction n with
  | zero => exact Nat.zero_lt_one
  | succ n ih =>
      have hhead : (Branch.chain t).head.ids.Sublist ((Branch.chain t).children.flatMap ids) :=
        List.sublist_flatten_of_mem (List.mem_map_of_mem (Branch.chain t).head_mem)
      exact Nat.succ_lt_succ ((ih _).trans_le hhead.length_le)

theorem Rooted.WF.length_ids_le (h : t.WF cap next) : t.tree.ids.length ≤ next := by
  have hsub : t.tree.ids.Subperm (List.range next) :=
    List.subperm_of_subset h.nodup (fun i hi => List.mem_range.mpr (h.numbered i hi).2)
  simpa using hsub.length_le

theorem Rooted.WF.depth_lt (h : t.WF cap next) : t.depth < next :=
  (depth_lt_length_ids t.tree).trans_le h.length_ids_le

theorem delete_isSome {n : Nat} (k : K) (t : BPlusTree K V n) :
    (t.delete k).isSome = (SortedMap.lookup k (t.leafOf k).entries).isSome := by
  induction n with
  | zero =>
      rw [delete, Leaf.delete]
      split
      · rename_i h
        exact h.symm
      · rename_i h
        exact (Bool.not_eq_true _ ▸ h).symm
  | succ n ih =>
      have hroute := ih ((Branch.chain t).route k)
      rw [delete]
      split
      · rename_i hnone
        rw [hnone] at hroute
        exact hroute
      · rename_i c e hsome
        rw [hsome] at hroute
        exact hroute

/-- A key is deleted exactly when it is there. -/
theorem Rooted.WF.remove_isSome (h : t.WF cap next) (k : K) :
    (BPlusTree.remove k t).isSome = (SortedMap.lookup k t.tree.toList).isSome := by
  rw [h.ordered.lookup k, ← delete_isSome, BPlusTree.remove]
  split
  · rename_i hdel
    rw [hdel]
    rfl
  · rename_i u hdel
    rw [hdel]
    rfl
  · rename_i u hdel
    rw [hdel]
    rfl

end Root
end BPlusTree
