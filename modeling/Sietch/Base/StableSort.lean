import Mathlib

/-! A stable sort seen through a filter: the elements of one class come out as the
sort of that class alone. `insertionSort` keeps equal elements in order. -/
namespace StableSort
variable {α : Type} (r : α → α → Prop) [DecidableRel r]

theorem orderedInsert_of_forall {a : α} {l : List α} (h : ∀ b ∈ l, r a b) :
    l.orderedInsert r a = a :: l := by
  cases l with
  | nil => rfl
  | cons b l => exact List.orderedInsert_cons_of_le r l (h b (by simp))

theorem filter_orderedInsert_neg {p : α → Bool} {a : α} (ha : p a = false) (l : List α) :
    (l.orderedInsert r a).filter p = l.filter p := by
  induction l with
  | nil => simp [ha]
  | cons b l ih =>
      rw [List.orderedInsert_cons]
      split
      · rw [List.filter_cons_of_neg (by simp [ha])]
      · rw [List.filter_cons, List.filter_cons, ih]

theorem filter_orderedInsert_pos [IsTrans α r] {p : α → Bool} {a : α} (ha : p a = true)
    {l : List α} (hl : l.Pairwise r) :
    (l.orderedInsert r a).filter p = (l.filter p).orderedInsert r a := by
  induction l with
  | nil => simp [ha]
  | cons b l ih =>
      obtain ⟨hb, hl⟩ := List.pairwise_cons.mp hl
      rw [List.orderedInsert_cons]
      by_cases hab : r a b
      · have hall : ∀ c ∈ (b :: l).filter p, r a c := by
          intro c hc
          rcases List.mem_cons.mp (List.mem_of_mem_filter hc) with rfl | hc
          · exact hab
          · exact IsTrans.trans a b c hab (hb c hc)
        rw [if_pos hab, List.filter_cons_of_pos ha, orderedInsert_of_forall r hall]
      · rw [if_neg hab, List.filter_cons, List.filter_cons, ih hl]
        split
        · rw [List.orderedInsert_of_not_le r _ hab]
        · rfl

theorem filter_insertionSort [Std.Total r] [IsTrans α r] (p : α → Bool) (l : List α) :
    (l.insertionSort r).filter p = (l.filter p).insertionSort r := by
  induction l with
  | nil => rfl
  | cons a l ih =>
      rw [List.insertionSort_cons]
      cases ha : p a with
      | true =>
          rw [filter_orderedInsert_pos r ha (List.pairwise_insertionSort r l), ih,
            List.filter_cons_of_pos ha, List.insertionSort_cons]
      | false =>
          rw [filter_orderedInsert_neg r ha, ih, List.filter_cons_of_neg (by simp [ha])]

theorem orderedInsert_append {a x : α} (hx : r a x) (l : List α) :
    (l ++ [x]).orderedInsert r a = l.orderedInsert r a ++ [x] := by
  induction l with
  | nil => simp [hx]
  | cons b l ih =>
      rw [List.cons_append, List.orderedInsert_cons, List.orderedInsert_cons, ih]
      split
      · rfl
      · rfl

/-- A last element that no other one exceeds stays last. -/
theorem insertionSort_append {l : List α} {x : α} (h : ∀ a ∈ l, r a x) :
    (l ++ [x]).insertionSort r = l.insertionSort r ++ [x] := by
  induction l with
  | nil => rfl
  | cons a l ih =>
      obtain ⟨ha, hl⟩ := List.forall_mem_cons.mp h
      rw [List.cons_append, List.insertionSort_cons, ih hl, orderedInsert_append r ha,
        List.insertionSort_cons]

end StableSort
