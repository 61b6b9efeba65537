import Mathlib

/-! Finite maps kept as entry lists in strictly ascending key order: the model
of an ordered map that is iterated. Two maps with the same lookups are equal,
so a result about lookups is a result about iteration. -/
namespace SortedMap
variable {K V W : Type} [LinearOrder K]

/-- Keys strictly ascending. -/
def Ascending (es : List (K × V)) : Prop := es.Pairwise (fun a b => a.1 < b.1)

def lookup (k : K) : List (K × V) → Option V
  | [] => none
  | e :: es => if k = e.1 then some e.2 else lookup k es

def insertEntry (k : K) (v : V) : List (K × V) → List (K × V)
  | [] => [(k, v)]
  | e :: es =>
      if k < e.1 then (k, v) :: e :: es
      else if k = e.1 then (k, v) :: es
      else e :: insertEntry k v es

def eraseEntry (k : K) (es : List (K × V)) : List (K × V) := es.filter (fun e => e.1 ≠ k)

theorem Ascending.tail {e : K × V} {es : List (K × V)} (h : Ascending (e :: es)) :
    Ascending es := List.Pairwise.of_cons h

theorem Ascending.head_lt {e : K × V} {es : List (K × V)} (h : Ascending (e :: es))
    {x : K × V} (hx : x ∈ es) : e.1 < x.1 := List.rel_of_pairwise_cons h hx

theorem lookup_eq_none {k : K} {es : List (K × V)} :
    lookup k es = none ↔ ∀ e ∈ es, e.1 ≠ k := by
  induction es with
  | nil => simp [lookup]
  | cons e es ih =>
      simp only [lookup, List.forall_mem_cons, ← ih]
      by_cases h : k = e.1
      · simp [h]
      · simp [h, Ne.symm h]

theorem mem_of_lookup {k : K} {v : V} {es : List (K × V)} (h : lookup k es = some v) :
    (k, v) ∈ es := by
  induction es with
  | nil => cases h
  | cons e es ih =>
      simp only [lookup] at h
      split at h
      · rename_i hk
        cases h
        exact List.mem_cons.mpr (.inl (Prod.ext hk rfl))
      · exact List.mem_cons_of_mem _ (ih h)

theorem lookup_of_mem {k : K} {v : V} {es : List (K × V)} (hs : Ascending es)
    (h : (k, v) ∈ es) : lookup k es = some v := by
  induction es with
  | nil => cases h
  | cons e es ih =>
      rcases List.mem_cons.mp h with rfl | hm
      · simp [lookup]
      · have hlt : e.1 < k := hs.head_lt hm
        simp only [lookup, if_neg hlt.ne', ih hs.tail hm]

theorem lookup_append {k : K} (xs ys : List (K × V)) :
    lookup k (xs ++ ys) = (lookup k xs).or (lookup k ys) := by
  induction xs with
  | nil => simp [lookup]
  | cons x xs ih =>
      simp only [List.cons_append, lookup, ih]
      split <;> simp

/-- Keeping the entries whose keys satisfy a test. -/
theorem lookup_filter (p : K → Bool) (es : List (K × V)) (k : K) :
    lookup k (es.filter (fun e => p e.1)) = if p k then lookup k es else none := by
  induction es with
  | nil => simp [lookup]
  | cons e es ih =>
      by_cases hk : k = e.1
      · cases hp : p e.1 with
        | true => simp [lookup, hk, hp]
        | false => simp [hk, hp, hk ▸ ih]
      · rw [List.filter_cons]
        split
        · simp [lookup, hk, ih]
        · simp [lookup, hk, ih]

theorem mem_insertEntry {k : K} {v : V} {e : K × V} {es : List (K × V)}
    (h : e ∈ insertEntry k v es) : e = (k, v) ∨ e ∈ es := by
  induction es with
  | nil => simpa [insertEntry] using h
  | cons a es ih =>
      simp only [insertEntry] at h
      split at h
      · simpa using h
      · split at h
        · rcases List.mem_cons.mp h with h | h
          · exact .inl h
          · exact .inr (List.mem_cons_of_mem _ h)
        · rcases List.mem_cons.mp h with rfl | h
          · exact .inr List.mem_cons_self
          · exact (ih h).imp_right (List.mem_cons_of_mem _)

theorem mem_insertEntry_self (k : K) (v : V) (es : List (K × V)) :
    (k, v) ∈ insertEntry k v es := by
  induction es with
  | nil => exact List.mem_singleton_self _
  | cons e es ih =>
      rw [insertEntry]
      split
      · exact List.mem_cons_self
      · split
        · exact List.mem_cons_self
        · exact List.mem_cons_of_mem _ ih

theorem insertEntry_ne_nil (k : K) (v : V) (es : List (K × V)) : insertEntry k v es ≠ [] := by
  cases es with
  | nil => exact List.cons_ne_nil _ _
  | cons e es =>
      rw [insertEntry]
      split
      · exact List.cons_ne_nil _ _
      · split <;> exact List.cons_ne_nil _ _

theorem Ascending.insertEntry {es : List (K × V)} (h : Ascending es) (k : K) (v : V) :
    Ascending (insertEntry k v es) := by
  induction es with
  | nil => exact List.pairwise_singleton _ _
  | cons e es ih =>
      simp only [SortedMap.insertEntry]
      split
      · rename_i hk
        refine List.Pairwise.cons ?_ h
        intro x hx
        rcases List.mem_cons.mp hx with rfl | hx
        · exact hk
        · exact hk.trans (h.head_lt hx)
      · split
        · rename_i hk
          refine List.Pairwise.cons ?_ h.tail
          intro x hx
          exact hk ▸ h.head_lt hx
        · rename_i h1 h2
          refine List.Pairwise.cons ?_ (ih h.tail)
          intro x hx
          rcases mem_insertEntry hx with rfl | hx
          · exact lt_of_le_of_ne (not_lt.mp h1) (Ne.symm h2)
          · exact h.head_lt hx

theorem insertEntry_append {k : K} {v : V} {xs : List (K × V)} (h : ∀ e ∈ xs, e.1 < k)
    (ys : List (K × V)) : insertEntry k v (xs ++ ys) = xs ++ insertEntry k v ys := by
  induction xs with
  | nil => rfl
  | cons x xs ih =>
      obtain ⟨hx, hxs⟩ := List.forall_mem_cons.mp h
      simp only [List.cons_append, SortedMap.insertEntry, if_neg hx.not_gt, if_neg hx.ne', ih hxs]

theorem insertEntry_append_left {k : K} {v : V} (xs : List (K × V)) {ys : List (K × V)}
    (h : ∀ e ∈ ys, k < e.1) : insertEntry k v (xs ++ ys) = insertEntry k v xs ++ ys := by
  induction xs with
  | nil =>
      cases ys with
      | nil => rfl
      | cons y ys => simp only [List.nil_append, SortedMap.insertEntry, if_pos (h y (by simp)),
          List.cons_append]
  | cons x xs ih =>
      simp only [List.cons_append, SortedMap.insertEntry, ih]
      split
      · rfl
      · split <;> rfl

theorem lookup_insertEntry (k : K) (v : V) (es : List (K × V)) (j : K) :
    lookup j (insertEntry k v es) = if j = k then some v else lookup j es := by
  induction es with
  | nil => simp [SortedMap.insertEntry, lookup]
  | cons e es ih =>
      simp only [SortedMap.insertEntry]
      by_cases h1 : k < e.1
      · simp only [if_pos h1, lookup]
      · by_cases h2 : k = e.1
        · simp only [if_neg h1, if_pos h2, lookup]
          split <;> rename_i hj
          · rfl
          · rw [if_neg (fun he => hj (he.trans h2.symm))]
        · simp only [if_neg h1, if_neg h2, lookup, ih]
          by_cases hj : j = e.1
          · have hne : j ≠ k := fun he => h2 (he ▸ hj)
            simp only [if_pos hj, if_neg hne]
          · simp only [if_neg hj]

theorem Ascending.eraseEntry {es : List (K × V)} (h : Ascending es) (k : K) :
    Ascending (eraseEntry k es) := h.filter _

theorem lookup_eraseEntry (k : K) (es : List (K × V)) (j : K) :
    lookup j (eraseEntry k es) = if j = k then none else lookup j es := by
  induction es with
  | nil => simp [SortedMap.eraseEntry, lookup]
  | cons e es ih =>
      by_cases he : e.1 = k
      · have hf : SortedMap.eraseEntry k (e :: es) = SortedMap.eraseEntry k es := by
          simp [SortedMap.eraseEntry, he]
        rw [hf, ih]
        by_cases hj : j = k
        · simp [hj]
        · simp [hj, lookup, he]
      · have hf : SortedMap.eraseEntry k (e :: es) = e :: SortedMap.eraseEntry k es := by
          simp [SortedMap.eraseEntry, he]
        rw [hf]
        simp only [lookup, ih]
        by_cases hj : j = e.1
        · have hne : j ≠ k := fun h => he (hj ▸ h)
          simp only [if_pos hj, if_neg hne]
        · simp only [if_neg hj]

section Between
variable {k : K} {xs ys zs : List (K × V)}

/-- A key that is above `xs` and below `zs` is looked up, inserted and erased between them. -/
theorem lookup_between (hx : ∀ e ∈ xs, e.1 < k) (hz : ∀ e ∈ zs, k < e.1) :
    lookup k (xs ++ (ys ++ zs)) = lookup k ys := by
  have hxs : lookup k xs = none := lookup_eq_none.mpr (fun e he => (hx e he).ne)
  have hzs : lookup k zs = none := lookup_eq_none.mpr (fun e he => (hz e he).ne')
  rw [lookup_append, lookup_append, hxs, hzs, Option.none_or, Option.or_none]

theorem insertEntry_between (v : V) (hx : ∀ e ∈ xs, e.1 < k) (hz : ∀ e ∈ zs, k < e.1) :
    insertEntry k v (xs ++ (ys ++ zs)) = xs ++ (insertEntry k v ys ++ zs) := by
  rw [insertEntry_append hx, insertEntry_append_left ys hz]

theorem eraseEntry_between (hx : ∀ e ∈ xs, e.1 < k) (hz : ∀ e ∈ zs, k < e.1) :
    eraseEntry k (xs ++ (ys ++ zs)) = xs ++ (eraseEntry k ys ++ zs) := by
  have hxs : eraseEntry k xs = xs :=
    List.filter_eq_self.mpr (fun e he => by simpa using (hx e he).ne)
  have hzs : eraseEntry k zs = zs :=
    List.filter_eq_self.mpr (fun e he => by simpa using (hz e he).ne')
  rw [eraseEntry, List.filter_append, List.filter_append]
  exact congrArg₂ _ hxs (congrArg _ hzs)

end Between

/-- Ascending lists with the same members are equal. -/
theorem Ascending.eq_of_mem {xs ys : List (K × V)} (hx : Ascending xs) (hy : Ascending ys)
    (h : ∀ e, e ∈ xs ↔ e ∈ ys) : xs = ys := by
  have hnx : xs.Nodup := hx.imp (fun hab he => (he ▸ hab).false)
  have hny : ys.Nodup := hy.imp (fun hab he => (he ▸ hab).false)
  exact ((List.perm_ext_iff_of_nodup hnx hny).mpr h).eq_of_pairwise
    (fun a b _ _ hab hba => absurd hab (not_lt.mpr hba.le)) hx hy

/-- Equal lookups on ascending lists force equal lists. -/
theorem Ascending.ext {xs ys : List (K × V)} (hx : Ascending xs) (hy : Ascending ys)
    (h : ∀ k, lookup k xs = lookup k ys) : xs = ys := by
  apply hx.eq_of_mem hy
  intro e
  constructor
  · intro he
    exact mem_of_lookup ((h e.1).symm.trans (lookup_of_mem hx he))
  · intro he
    exact mem_of_lookup ((h e.1).trans (lookup_of_mem hy he))

end SortedMap

/-- An ordered map; the field keeps its entries in iteration order. -/
structure SortedMap (K V : Type) [LinearOrder K] where
  entries : List (K × V)
  ascending : SortedMap.Ascending entries

namespace SortedMap
variable {K V W : Type} [LinearOrder K]

instance [DecidableEq V] : DecidableEq (SortedMap K V) := fun a b =>
  decidable_of_iff (a.entries = b.entries) (by cases a; cases b; simp)

def empty : SortedMap K V := ⟨[], List.Pairwise.nil⟩

def get? (m : SortedMap K V) (k : K) : Option V := lookup k m.entries

def insert (m : SortedMap K V) (k : K) (v : V) : SortedMap K V :=
  ⟨insertEntry k v m.entries, m.ascending.insertEntry k v⟩

def erase (m : SortedMap K V) (k : K) : SortedMap K V :=
  ⟨eraseEntry k m.entries, m.ascending.eraseEntry k⟩

def keys (m : SortedMap K V) : List K := m.entries.map Prod.fst

@[simp] theorem get?_empty (k : K) : (empty : SortedMap K V).get? k = none := rfl

@[simp] theorem get?_insert (m : SortedMap K V) (k : K) (v : V) (j : K) :
    (m.insert k v).get? j = if j = k then some v else m.get? j :=
  lookup_insertEntry k v m.entries j

@[simp] theorem get?_erase (m : SortedMap K V) (k j : K) :
    (m.erase k).get? j = if j = k then none else m.get? j :=
  lookup_eraseEntry k m.entries j

theorem mem_entries {m : SortedMap K V} {k : K} {v : V} :
    (k, v) ∈ m.entries ↔ m.get? k = some v :=
  ⟨lookup_of_mem m.ascending, mem_of_lookup⟩

theorem mem_keys {m : SortedMap K V} {k : K} : k ∈ m.keys ↔ ∃ v, m.get? k = some v := by
  simp only [keys, List.mem_map, Prod.exists, mem_entries]
  constructor
  · rintro ⟨a, v, hv, rfl⟩
    exact ⟨v, hv⟩
  · rintro ⟨v, hv⟩
    exact ⟨k, v, hv, rfl⟩

theorem keys_pairwise (m : SortedMap K V) : m.keys.Pairwise (· < ·) :=
  List.pairwise_map.mpr m.ascending

/-- Writing the greatest key replaces the last entry. -/
theorem entries_insert_last {m : SortedMap K V} {k : K} {v : V} {es : List (K × V)}
    (h : m.entries = es ++ [(k, v)]) (w : V) : (m.insert k w).entries = es ++ [(k, w)] := by
  have hes : ∀ e ∈ es, e.1 < k := by
    intro e he
    have hasc := m.ascending
    rw [h] at hasc
    exact (List.pairwise_append.mp hasc).2.2 e he (k, v) (by simp)
  simp only [insert, h, insertEntry_append hes, insertEntry, lt_irrefl, if_false, if_true]

/-- A key above all others is added at the end. -/
theorem entries_insert_new {m : SortedMap K V} {k : K} (h : ∀ e ∈ m.entries, e.1 < k) (w : V) :
    (m.insert k w).entries = m.entries ++ [(k, w)] := by
  have hins := insertEntry_append (v := w) h []
  rw [List.append_nil] at hins
  exact hins

theorem get?_of_entries_last {m : SortedMap K V} {k : K} {v : V} {es : List (K × V)}
    (h : m.entries = es ++ [(k, v)]) : m.get? k = some v :=
  mem_entries.mp (by rw [h]; simp)

theorem le_last {m : SortedMap K V} {k : K} {v : V} {es : List (K × V)}
    (h : m.entries = es ++ [(k, v)]) {j : K} (hj : j ∈ m.keys) : j ≤ k := by
  have hasc := m.keys_pairwise
  have hkeys : m.keys = es.map Prod.fst ++ [k] := by simp [keys, h]
  rw [hkeys] at hj hasc
  rcases List.mem_append.mp hj with hj | hj
  · exact ((List.pairwise_append.mp hasc).2.2 j hj k (by simp)).le
  · exact (List.mem_singleton.mp hj).le

theorem ext_get? {a b : SortedMap K V} (h : ∀ k, a.get? k = b.get? k) : a = b := by
  have he : a.entries = b.entries := a.ascending.ext b.ascending h
  cases a
  cases b
  cases he
  rfl

theorem entries_nodup (m : SortedMap K V) : m.entries.Nodup :=
  m.ascending.imp (fun hlt heq => hlt.ne (congrArg Prod.fst heq))

/-- An entry and those of the other keys. -/
theorem entries_perm {m : SortedMap K V} {k : K} {v : V} (h : m.get? k = some v) :
    m.entries.Perm ((k, v) :: (m.erase k).entries) := by
  have hnew : (k, v) ∉ (m.erase k).entries := by
    rw [mem_entries, get?_erase, if_pos rfl]
    exact Option.some_ne_none v ∘ Eq.symm
  refine (List.perm_ext_iff_of_nodup m.entries_nodup
    (List.nodup_cons.mpr ⟨hnew, (m.erase k).entries_nodup⟩)).mpr ?_
  rintro ⟨j, x⟩
  rw [List.mem_cons, mem_entries, mem_entries, get?_erase, Prod.mk.injEq]
  by_cases hj : j = k
  · rw [if_pos hj, hj, h]
    simp [eq_comm]
  · simp [hj]

theorem erase_insert {m : SortedMap K V} {k : K} (v : V) : (m.insert k v).erase k = m.erase k := by
  refine ext_get? (fun j => ?_)
  rw [get?_erase, get?_erase, get?_insert]
  split
  · rfl
  · rfl

theorem erase_of_get?_none {m : SortedMap K V} {k : K} (h : m.get? k = none) : m.erase k = m := by
  refine ext_get? (fun j => ?_)
  rw [get?_erase]
  split
  · rename_i hj
    rw [hj, h]
  · rfl

/-- The entries selected by `f`, in key order: iteration with `filter_map`. -/
def collect (f : K → V → Option W) (es : List (K × V)) : List (K × W) :=
  es.filterMap (fun e => (f e.1 e.2).map (fun w => (e.1, w)))

theorem lookup_collect {f : K → V → Option W} {es : List (K × V)} (hs : Ascending es) (k : K) :
    lookup k (collect f es) = (lookup k es).bind (f k) := by
  induction es with
  | nil => rfl
  | cons e es ih =>
      have hrest := ih hs.tail
      by_cases hk : k = e.1
      · subst hk
        have hnone : lookup e.1 es = none := by
          rw [lookup_eq_none]
          intro x hx
          exact (hs.head_lt hx).ne'
        cases hf : f e.1 e.2 with
        | none =>
            rw [hnone] at hrest
            simpa [collect, lookup, hf] using hrest
        | some w => simp [collect, lookup, hf]
      · cases hf : f e.1 e.2 with
        | none => simpa [collect, lookup, hf, hk] using hrest
        | some w => simpa [collect, lookup, hf, hk] using hrest

theorem Ascending.collect {f : K → V → Option W} {es : List (K × V)} (hs : Ascending es) :
    Ascending (collect f es) := by
  unfold Ascending SortedMap.collect
  rw [List.pairwise_filterMap]
  refine hs.imp ?_
  intro a b hab x hx y hy
  obtain ⟨w, -, rfl⟩ := Option.map_eq_some_iff.mp hx
  obtain ⟨z, -, rfl⟩ := Option.map_eq_some_iff.mp hy
  exact hab

section Related
variable {R R' : V → W → Prop} {m m' : SortedMap K V} {f : K → Option W}

omit [LinearOrder K] in
theorem rel_mono {o : Option V} {p : Option W} (h : Option.Rel R o p)
    (hR : ∀ v w, R v w → R' v w) : Option.Rel R' o p := by
  cases h with
  | some hvw => exact .some (hR _ _ hvw)
  | none => exact .none

omit [LinearOrder K] in
theorem rel_isSome {o : Option V} {p : Option W} (h : Option.Rel R o p) : o.isSome ↔ p.isSome := by
  cases h with
  | some _ => exact ⟨fun _ => rfl, fun _ => rfl⟩
  | none => exact Iff.rfl

/-- A map that is related to a function entry by entry, after one of them changed. -/
theorem rel_update (h : ∀ k, Option.Rel R (m.get? k) (f k)) (hR : ∀ v w, R v w → R' v w)
    {k : K} {o : Option V} {p : Option W} (hm : ∀ j, m'.get? j = if j = k then o else m.get? j)
    (hnew : Option.Rel R' o p) (j : K) :
    Option.Rel R' (m'.get? j) (Function.update f k p j) := by
  rw [hm j, Function.update_apply]
  split
  · exact hnew
  · exact rel_mono (h j) hR

end Related

section Block
variable {α V W : Type} [LinearOrder α]

theorem le_of_isPrefix {p k : List α} (h : p <+: k) : p ≤ k := by
  obtain ⟨t, rfl⟩ := h
  induction p with
  | nil => exact not_lt.mp (List.not_lt_nil _)
  | cons a p ih =>
      refine not_lt.mp (fun h => ?_)
      rcases List.cons_lt_cons_iff.mp h with h | ⟨-, h⟩
      · exact lt_irrefl a h
      · exact absurd ih (not_le.mpr h)

/-- Between a key prefix and a key with it all keys have it. -/
theorem isPrefix_of_between {p x k : List α} (hk : p <+: k) (hpx : p ≤ x) (hxk : x ≤ k) :
    p <+: x := by
  obtain ⟨t, rfl⟩ := hk
  induction p generalizing x with
  | nil => exact List.nil_prefix
  | cons a p ih =>
      cases x with
      | nil => exact absurd (List.nil_lt_cons a p) (not_lt.mpr hpx)
      | cons b x =>
          have hab : a = b := by
            rcases lt_trichotomy a b with hlt | heq | hgt
            · exact absurd hxk (not_le.mpr (List.cons_lt_cons_iff.mpr (.inl hlt)))
            · exact heq
            · exact absurd hpx (not_le.mpr (List.cons_lt_cons_iff.mpr (.inl hgt)))
          subst hab
          have h1 : p ≤ x := by
            by_contra hc
            exact absurd hpx (not_le.mpr (List.cons_lt_cons_iff.mpr (.inr ⟨rfl, not_le.mp hc⟩)))
          have h2 : x ≤ p ++ t := by
            by_contra hc
            exact absurd hxk (not_le.mpr (List.cons_lt_cons_iff.mpr (.inr ⟨rfl, not_le.mp hc⟩)))
          obtain ⟨u, rfl⟩ := ih h1 h2
          exact ⟨u, rfl⟩

/-- The entries from `p` on, as long as their keys have the prefix `p`. -/
def block (p : List α) (es : List (List α × V)) : List (List α × V) :=
  (es.dropWhile (fun e => e.1 < p)).takeWhile (fun e => p.isPrefixOf e.1)

theorem block_sublist (p : List α) (es : List (List α × V)) : (block p es).Sublist es :=
  (List.takeWhile_sublist _).trans (List.dropWhile_sublist _)

/-- The block holds exactly the entries with the prefix. -/
theorem block_eq_filter {p : List α} {es : List (List α × V)} (hs : Ascending es) :
    block p es = es.filter (fun e => p.isPrefixOf e.1) := by
  induction es with
  | nil => rfl
  | cons e es ih =>
      by_cases hlt : e.1 < p
      · have hnp : p.isPrefixOf e.1 = false := by
          rw [Bool.eq_false_iff]
          intro h
          exact absurd (le_of_isPrefix (List.isPrefixOf_iff_prefix.mp h)) (not_le.mpr hlt)
        rw [List.filter_cons_of_neg (by simp [hnp]), ← ih hs.tail]
        simp [block, hlt]
      · have hdrop : ∀ l : List (List α × V), (∀ x ∈ l, p ≤ x.1) →
            l.dropWhile (fun e => e.1 < p) = l := by
          intro l hl
          cases l with
          | nil => rfl
          | cons x l => simp [not_lt.mpr (hl x (by simp))]
        have hle : ∀ x ∈ e :: es, p ≤ x.1 := by
          intro x hx
          rcases List.mem_cons.mp hx with rfl | hx
          · exact not_lt.mp hlt
          · exact (not_lt.mp hlt).trans (hs.head_lt hx).le
        cases hp : p.isPrefixOf e.1 with
        | true =>
            rw [List.filter_cons_of_pos (by simpa using hp), ← ih hs.tail]
            simp only [block, hdrop _ hle, hdrop es (fun x hx => hle x (List.mem_cons_of_mem _ hx)),
              List.takeWhile_cons, hp, if_true]
        | false =>
            have hnone : es.filter (fun e => p.isPrefixOf e.1) = [] := by
              rw [List.filter_eq_nil_iff]
              intro x hx hxp
              have hpe := isPrefix_of_between (List.isPrefixOf_iff_prefix.mp hxp) (hle e (by simp))
                (hs.head_lt hx).le
              rw [List.isPrefixOf_iff_prefix.mpr hpe] at hp
              cases hp
            rw [List.filter_cons_of_neg (by simp [hp]), hnone]
            simp [block, hdrop _ hle, hp]

/-- A prefix scan with `filter_map` is determined by what each key gives. -/
theorem lookup_collect_block {f : List α → V → Option W} {p : List α} {es : List (List α × V)}
    (hs : Ascending es) (k : List α) :
    lookup k (collect f (block p es)) = if p <+: k then (lookup k es).bind (f k) else none := by
  rw [lookup_collect (hs.sublist (block_sublist p es)), block_eq_filter hs]
  rw [lookup_filter (fun key => p.isPrefixOf key)]
  simp only [List.isPrefixOf_iff_prefix]
  split
  · rfl
  · rfl

end Block
end SortedMap
