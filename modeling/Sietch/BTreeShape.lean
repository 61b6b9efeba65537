import Sietch.Base.BPlusTreeSpec
import Sietch.BTree
import Sietch.BTreePageSpec

/-! The nodes of the B+tree on pages and as values. The entries of an internal page are a
chain, whose first child has no key; the searches and the list operations of the code are
those of chains and of sorted entry lists. -/
namespace Sietch
open ByteString
open SortedMap (lookup insertEntry eraseEntry Ascending)

section Leaves

theorem find?_eq_lookup (entries : List Entry) (key : Bytes) :
    (entries.find? (fun e => e.1 = key)).map (·.2) = lookup key entries := by
  induction entries with
  | nil => rfl
  | cons e es ih =>
      by_cases he : e.1 = key
      · simp [lookup, he]
      · rw [List.find?_cons_of_neg (by simpa using he), ih, lookup, if_neg (Ne.symm he)]

theorem lowerBound_cons (e : Entry) (es : List Entry) (key : Bytes) :
    lowerBound (e :: es) key = if e.1 < key then lowerBound es key + 1 else 0 := by
  rw [lowerBound, List.takeWhile_cons]
  by_cases he : e.1 < key
  · simp [he, lowerBound]
  · simp [he]

theorem upsert_eq (entries : List Entry) (key value : Bytes) :
    upsert entries key value = insertEntry key value entries := by
  induction entries with
  | nil => rfl
  | cons e es ih =>
      simp only [upsert, lowerBound_cons] at ih ⊢
      rw [insertEntry]
      by_cases hlt : e.1 < key
      · rw [if_pos hlt, if_neg hlt.not_gt, if_neg hlt.ne', ← ih]
        have hat : isAt (e :: es) (lowerBound es key + 1) key = isAt es (lowerBound es key) key := rfl
        rw [hat]
        split
        · rfl
        · rfl
      · rw [if_neg hlt]
        rcases (not_lt.mp hlt).lt_or_eq with hgt | heq
        · have hat : isAt (e :: es) 0 key = false := by simpa [isAt] using hgt.ne'
          rw [hat, if_pos hgt]
          rfl
        · have hat : isAt (e :: es) 0 key = true := by simpa [isAt] using heq.symm
          rw [hat, if_neg heq.not_lt, if_pos heq]
          rfl

theorem isAt_lowerBound {entries : List Entry} (h : Ascending entries) (key : Bytes) :
    isAt entries (lowerBound entries key) key = (lookup key entries).isSome := by
  induction entries with
  | nil => rfl
  | cons e es ih =>
      rw [lowerBound_cons, lookup]
      by_cases hlt : e.1 < key
      · rw [if_pos hlt, if_neg hlt.ne', ← ih h.tail]
        rfl
      · rw [if_neg hlt]
        rcases (not_lt.mp hlt).lt_or_eq with hgt | heq
        · have hnone : lookup key es = none :=
            SortedMap.lookup_eq_none.mpr (fun x hx => (hgt.trans (h.head_lt hx)).ne')
          rw [if_neg hgt.ne, hnone]
          simpa [isAt] using hgt.ne'
        · rw [if_pos heq]
          simpa [isAt] using heq.symm

theorem eraseIdx_lowerBound {entries : List Entry} (h : Ascending entries) {key : Bytes}
    (hat : isAt entries (lowerBound entries key) key = true) :
    entries.eraseIdx (lowerBound entries key) = eraseEntry key entries := by
  induction entries with
  | nil => cases hat
  | cons e es ih =>
      rw [lowerBound_cons] at hat ⊢
      by_cases hlt : e.1 < key
      · rw [if_pos hlt] at hat ⊢
        rw [List.eraseIdx_cons_succ, ih h.tail hat, eraseEntry, eraseEntry,
          List.filter_cons_of_pos (by simpa using hlt.ne)]
      · rw [if_neg hlt] at hat ⊢
        have heq : e.1 = key := by simpa [isAt] using hat
        rw [List.eraseIdx_cons_zero, eraseEntry, List.filter_cons_of_neg (by simpa using heq)]
        refine (List.filter_eq_self.mpr (fun x hx => ?_)).symm
        have hgt := h.head_lt hx
        rw [heq] at hgt
        simpa using hgt.ne'

end Leaves

section Chains
variable {C : Type} (f : C → PageId)

/-- The entries of an internal page for a chain: the first has the given key. -/
def entriesFrom (key : Option Bytes) : Chain Bytes C → List InternalEntry
  | .last c => [⟨key, f c⟩]
  | .cons c s rest => ⟨key, f c⟩ :: entriesFrom (some s) rest

variable {key : Option Bytes} {ch : Chain Bytes C} {k s : Bytes}

theorem entriesFrom_eq_cons (key : Option Bytes) (ch : Chain Bytes C) :
    entriesFrom f key ch = ⟨key, f ch.head⟩ :: (entriesFrom f key ch).drop 1 := by
  cases ch with
  | last c => rfl
  | cons c s rest => rfl

/-- Only the first entry depends on the key. -/
theorem drop_entriesFrom (key key' : Option Bytes) (ch : Chain Bytes C) :
    (entriesFrom f key ch).drop 1 = (entriesFrom f key' ch).drop 1 := by
  cases ch with
  | last c => rfl
  | cons c s rest => rfl

theorem children_entriesFrom (key : Option Bytes) (ch : Chain Bytes C) :
    (entriesFrom f key ch).map (·.child) = ch.children.map f := by
  induction ch generalizing key with
  | last c => rfl
  | cons c s rest ih => simp only [entriesFrom, Chain.children, List.map_cons, ih]

theorem children_lt {b : Nat} (key : Option Bytes) (h : ∀ c ∈ ch.children, f c < b) :
    ∀ e ∈ entriesFrom f key ch, e.child < b := by
  intro e he
  have hmem : e.child ∈ (entriesFrom f key ch).map (·.child) := List.mem_map_of_mem he
  rw [children_entriesFrom] at hmem
  obtain ⟨c, hc, heq⟩ := List.mem_map.mp hmem
  rw [← heq]
  exact h c hc

theorem length_entriesFrom (key : Option Bytes) (ch : Chain Bytes C) :
    (entriesFrom f key ch).length = ch.children.length := by
  have hlen := congrArg List.length (children_entriesFrom f key ch)
  simpa using hlen

theorem routeLoop_entriesFrom (k : Bytes) (key : Option Bytes) (ch : Chain Bytes C) (i : Nat) :
    routeLoop k ((entriesFrom f key ch).drop 1) (i + 1) i = i + ch.routeIdx k := by
  induction ch generalizing key i with
  | last c => rfl
  | cons c s rest ih =>
      rw [entriesFrom, List.drop_one, List.tail_cons, entriesFrom_eq_cons, routeLoop,
        Chain.routeIdx]
      simp only
      split
      · rw [ih (some s) (i + 1)]
        omega
      · rfl

theorem routeIndex_entriesFrom (k : Bytes) (key : Option Bytes) (ch : Chain Bytes C) :
    routeIndex (entriesFrom f key ch) k = ch.routeIdx k := by
  rw [routeIndex, routeLoop_entriesFrom, Nat.zero_add]

theorem child_routeIdx (k : Bytes) (key : Option Bytes) (ch : Chain Bytes C) :
    (entriesFrom f key ch)[ch.routeIdx k]?.map (·.child) = some (f (ch.route k)) := by
  induction ch generalizing key with
  | last c => rfl
  | cons c s rest ih =>
      rw [entriesFrom, Chain.routeIdx, Chain.route, Chain.locate]
      split
      · exact ih (some s)
      · rfl

/-- The code goes down to the child that the key belongs to. -/
theorem route_entriesFrom (k : Bytes) (key : Option Bytes) (ch : Chain Bytes C) :
    route (entriesFrom f key ch) k = some (f (ch.route k)) := by
  rw [Sietch.route, routeIndex_entriesFrom, child_routeIdx]

/-- A child in the place of another with the same number leaves the page as it is. -/
theorem entriesFrom_splice_last {c : C} (hc : f c = f (ch.route k)) (key : Option Bytes) :
    entriesFrom f key (ch.splice k (.last c)) = entriesFrom f key ch := by
  induction ch generalizing key with
  | last d =>
      rw [Chain.splice, entriesFrom, entriesFrom, hc]
      rfl
  | cons d s rest ih =>
      rw [Chain.route, Chain.locate] at hc
      rw [Chain.splice]
      split
      · rename_i hs
        rw [if_pos hs] at hc
        rw [entriesFrom, entriesFrom, ih hc]
      · rename_i hs
        rw [if_neg hs] at hc
        rw [Chain.append, entriesFrom, entriesFrom, hc]

theorem positionLoop_entriesFrom (s : Bytes) (d : C) (key : Option Bytes) (ch : Chain Bytes C)
    (i : Nat) : ∃ pos, positionLoop s ((entriesFrom f key ch).drop 1) (i + 1) = some (i + pos) ∧
      (entriesFrom f key ch).insertIdx pos ⟨some s, f d⟩ = entriesFrom f key (ch.attach s d) := by
  induction ch generalizing key i with
  | last c => exact ⟨1, rfl, rfl⟩
  | cons c j rest ih =>
      rw [Chain.attach]
      by_cases hlt : s < j
      · refine ⟨1, ?_, ?_⟩
        · rw [entriesFrom, List.drop_one, List.tail_cons, entriesFrom_eq_cons, positionLoop]
          simp only [if_pos hlt]
        · rw [if_pos hlt]
          rfl
      · obtain ⟨pos, hpos, hins⟩ := ih (some j) (i + 1)
        refine ⟨pos + 1, ?_, ?_⟩
        · rw [entriesFrom, List.drop_one, List.tail_cons, entriesFrom_eq_cons, positionLoop]
          simp only [if_neg hlt]
          rw [hpos]
          congr 1
          omega
        · rw [if_neg hlt, entriesFrom, entriesFrom, List.insertIdx_succ_cons, hins]

/-- The new separator goes where the chain takes it in. -/
theorem insertPosition_entriesFrom (s : Bytes) (d : C) (key : Option Bytes) (ch : Chain Bytes C) :
    ∃ pos, insertPosition (entriesFrom f key ch) s = some pos ∧
      (entriesFrom f key ch).insertIdx pos ⟨some s, f d⟩ = entriesFrom f key (ch.attach s d) := by
  obtain ⟨pos, hpos, hins⟩ := positionLoop_entriesFrom f s d key ch 0
  refine ⟨pos, ?_, hins⟩
  rw [entriesFrom_eq_cons, insertPosition, hpos, Nat.zero_add]

theorem entriesFrom_append (key : Option Bytes) (l : Chain Bytes C) (s : Bytes)
    (r : Chain Bytes C) :
    entriesFrom f key (l.append s r) = entriesFrom f key l ++ entriesFrom f (some s) r := by
  induction l generalizing key with
  | last c => rfl
  | cons c j rest ih => simp only [Chain.append, entriesFrom, ih, List.cons_append]

/-- The split of the page is the split of the chain. -/
theorem entriesFrom_splitAt (key : Option Bytes) {m : Nat} {l r : Chain Bytes C}
    (h : ch.splitAt m = some (l, s, r)) :
    (entriesFrom f key ch).take m = entriesFrom f key l ∧
      (entriesFrom f key ch)[m]? = some ⟨some s, f r.head⟩ ∧
      ⟨none, f r.head⟩ :: (entriesFrom f key ch).drop (m + 1) = entriesFrom f none r := by
  obtain ⟨rfl, hlen⟩ := Chain.splitAt_eq h
  rw [← length_entriesFrom f key l] at hlen
  rw [entriesFrom_append, ← hlen]
  refine ⟨List.take_left, ?_, ?_⟩
  · rw [List.getElem?_append_right (le_refl _), Nat.sub_self, entriesFrom_eq_cons]
    rfl
  · rw [← List.drop_drop, List.drop_left, drop_entriesFrom f (some s) none,
      ← entriesFrom_eq_cons]

theorem eraseIdx_entriesFrom (k : Bytes) (key : Option Bytes) (c : C) (s : Bytes)
    (ch : Chain Bytes C) :
    (entriesFrom f key (.cons c s ch)).eraseIdx (ch.routeIdx k + 1) =
      entriesFrom f key (Chain.detachAfter k c s ch) := by
  induction ch generalizing key c s with
  | last d => rfl
  | cons d j rest ih =>
      rw [Chain.detachAfter, Chain.routeIdx]
      split
      · rw [entriesFrom, List.eraseIdx_cons_succ, ih, entriesFrom]
      · rfl

/-- What `delete` writes when it drops a child that is not the only one. -/
theorem entriesFrom_detach {ch' : Chain Bytes C} (h : ch.detach k = some ch') :
    (ch.routeIdx k = 0 → ∃ second, (entriesFrom f none ch)[1]? = some second ∧
      ((entriesFrom f none ch).set 0 ⟨none, second.child⟩).eraseIdx 1 = entriesFrom f none ch') ∧
    (ch.routeIdx k ≠ 0 →
      (entriesFrom f none ch).eraseIdx (ch.routeIdx k) = entriesFrom f none ch') := by
  cases ch with
  | last c => cases h
  | cons c s rest =>
      rw [Chain.detach] at h
      rw [Chain.routeIdx]
      split at h
      · rename_i hs
        cases h
        rw [if_pos hs]
        exact ⟨fun hzero => absurd hzero (Nat.succ_ne_zero _),
          fun _ => eraseIdx_entriesFrom f k none c s rest⟩
      · rename_i hs
        cases h
        rw [if_neg hs]
        refine ⟨fun _ => ⟨⟨some s, f ch'.head⟩, ?_, ?_⟩, fun hne => absurd rfl hne⟩
        · rw [entriesFrom, List.getElem?_cons_succ, entriesFrom_eq_cons]
          rfl
        · rw [entriesFrom, List.set_cons_zero, List.eraseIdx_cons_succ, entriesFrom_eq_cons,
            List.eraseIdx_cons_zero, drop_entriesFrom f (some s) none, ← entriesFrom_eq_cons]

end Chains

section Capacity

theorem recordsFit_congr {rs ss : List Bytes} (h : rs.map List.length = ss.map List.length) :
    RecordsFit rs ↔ RecordsFit ss := by
  have hsum : ∀ xs : List Bytes, xs.map (fun r => slotLen + r.length) =
      (xs.map List.length).map (slotLen + ·) := by
    intro xs
    rw [List.map_map]
    rfl
  rw [RecordsFit, RecordsFit, hsum rs, hsum ss, h]

/-- A node fits when its page can be built; a page id is a `u64`. -/
def pageCapacity : Capacity Bytes Bytes where
  leaf es := (NodePage.leaf es noSibling).Fits
  node seps := (NodePage.inner (⟨none, noSibling⟩ :: seps.map (⟨some ·, noSibling⟩))).Fits
  limit := 2 ^ 64
  leaf_sublist hsub h := decide_eq_true
    (RecordsFit.sublist (of_decide_eq_true h) ((hsub.map _).cons_cons _))
  node_sublist hsub h := decide_eq_true
    (RecordsFit.sublist (of_decide_eq_true h) (((hsub.map _).cons_cons _).map _))

theorem leaf_fits_iff (es : List Entry) (next : PageId) :
    (NodePage.leaf es next).Fits ↔ pageCapacity.leaf es = true := by
  rw [pageCapacity]
  simp only [decide_eq_true_eq]
  exact recordsFit_congr (by simp [NodePage.records, encodeLeafSibling])

theorem length_encodeInternalEntry (key : Option Bytes) (a b : PageId) :
    (encodeInternalEntry ⟨key, a⟩).length = (encodeInternalEntry ⟨key, b⟩).length := by
  cases key with
  | none => simp [encodeInternalEntry]
  | some k => simp [encodeInternalEntry]

theorem length_records_entriesFrom {C : Type} (f : C → PageId) (key : Option Bytes)
    (ch : Chain Bytes C) :
    ((entriesFrom f key ch).map encodeInternalEntry).map List.length =
      (((⟨key, noSibling⟩ : InternalEntry) :: ch.seps.map (⟨some ·, noSibling⟩)).map
        encodeInternalEntry).map List.length := by
  induction ch generalizing key with
  | last c =>
      simp only [entriesFrom, Chain.seps, List.map_cons, List.map_nil,
        length_encodeInternalEntry key (f c) noSibling]
  | cons c s rest ih =>
      have hrest := ih (some s)
      simp only [entriesFrom, Chain.seps, List.map_cons, List.cons.injEq] at hrest ⊢
      exact ⟨length_encodeInternalEntry _ _ _, hrest⟩

theorem inner_fits_iff {C : Type} (f : C → PageId) (ch : Chain Bytes C) :
    (NodePage.inner (entriesFrom f none ch)).Fits ↔ pageCapacity.node ch.seps = true := by
  rw [pageCapacity]
  simp only [decide_eq_true_eq]
  exact recordsFit_congr (length_records_entriesFrom f none ch)

end Capacity

section Stored
variable {n : Nat} {content content' : PageId → Option NodePage}

/-- The pages hold the nodes of the tree. -/
def Stored (content : PageId → Option NodePage) : {n : Nat} → BPlusTree Bytes Bytes n → Prop
  | 0, l => content (Leaf.id l) = some (.leaf (Leaf.entries l) (Leaf.next l))
  | _ + 1, t =>
      content (Branch.id t) = some (.inner (entriesFrom BPlusTree.id none (Branch.chain t))) ∧
        ∀ c ∈ (Branch.chain t).children, Stored content c

/-- Other pages do not matter. -/
theorem Stored.frame {t : BPlusTree Bytes Bytes n} (h : Stored content t)
    (hsame : ∀ i ∈ t.ids, content' i = content i) : Stored content' t := by
  induction n with
  | zero => exact (hsame _ (List.mem_singleton_self _)).trans h
  | succ n ih =>
      refine ⟨(hsame _ (List.mem_cons_self ..)).trans h.1, fun c hc => ih (h.2 c hc) ?_⟩
      exact fun i hi => hsame i (List.mem_cons_of_mem _ (List.mem_flatMap.mpr ⟨c, hc, hi⟩))

theorem Stored.isSome {t : BPlusTree Bytes Bytes n} (h : Stored content t) :
    ∀ i ∈ t.ids, (content i).isSome := by
  induction n with
  | zero =>
      intro i hi
      rw [List.mem_singleton.mp hi, show content (Leaf.id t) = _ from h]
      rfl
  | succ n ih =>
      intro i hi
      rcases List.mem_cons.mp hi with rfl | hi
      · rw [h.1]
        rfl
      · obtain ⟨c, hc, hi⟩ := List.mem_flatMap.mp hi
        exact ih (h.2 c hc) i hi

theorem Stored.route {t : BPlusTree Bytes Bytes (n + 1)} (h : Stored content t) (k : Bytes) :
    Stored content ((Branch.chain t).route k) := h.2 _ (Chain.route_mem k _)

theorem Stored.collapse {t : BPlusTree Bytes Bytes n} (h : Stored content t) :
    Stored content t.collapse.tree := by
  cases n with
  | zero => exact h
  | succ n => exact h.2 _ (Chain.head_mem _)

theorem Stored.leaves {t : BPlusTree Bytes Bytes n} (h : Stored content t) :
    ∀ l ∈ t.leaves, content l.id = some (.leaf l.entries l.next) := by
  induction n with
  | zero =>
      intro l hl
      rw [List.mem_singleton.mp hl]
      exact h
  | succ n ih =>
      intro l hl
      obtain ⟨c, hc, hl⟩ := List.mem_flatMap.mp hl
      exact ih (h.2 c hc) l hl

end Stored
end Sietch
