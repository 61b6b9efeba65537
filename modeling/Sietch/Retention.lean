import Sietch.StoreSpec

/-! The records a compaction keeps, seen key by key: the stable sort of the retained
versions, whose last one is the key's newest version as long as no retained version
carries a greater sequence number. -/
namespace Sietch
open ByteString

/-- The order of `sort_by_key(|r| r.seq)`, on versions. -/
def SeqLe (a b : VersionEntry) : Prop := a.seq ≤ b.seq

instance : DecidableRel SeqLe := fun a b => inferInstanceAs (Decidable (a.seq ≤ b.seq))

instance : Std.Total SeqLe := ⟨fun a b => Nat.le_total a.seq b.seq⟩

instance : IsTrans VersionEntry SeqLe := ⟨fun _ _ _ => Nat.le_trans⟩

instance : Std.Total (fun a b : Record => a.seq ≤ b.seq) := ⟨fun a b => Nat.le_total a.seq b.seq⟩

instance : IsTrans Record (fun a b => a.seq ≤ b.seq) := ⟨fun _ _ _ => Nat.le_trans⟩

theorem retained_nil (retainFrom : Option Nat) : retained retainFrom [] = [] := by
  cases retainFrom <;> rfl

theorem filter_entries {f : List VersionEntry → List VersionEntry} (hf : f [] = [])
    {es : List (Bytes × List VersionEntry)} (hs : SortedMap.Ascending es) (key : Bytes) :
    (es.flatMap (fun e => (f e.2).map (VersionEntry.record e.1))).filter (fun r => r.key = key) =
      (f ((SortedMap.lookup key es).getD [])).map (VersionEntry.record key) := by
  induction es with
  | nil => simp [SortedMap.lookup, hf]
  | cons e es ih =>
      have hhead : ∀ k, ((f e.2).map (VersionEntry.record e.1)).filter (fun r => r.key = k) =
          if k = e.1 then (f e.2).map (VersionEntry.record e.1) else [] := by
        intro k
        split
        · rename_i hk
          rw [List.filter_eq_self]
          intro r hr
          obtain ⟨v, -, rfl⟩ := List.mem_map.mp hr
          simp [hk]
        · rename_i hk
          rw [List.filter_eq_nil_iff]
          intro r hr
          obtain ⟨v, -, rfl⟩ := List.mem_map.mp hr
          simp [Ne.symm hk]
      rw [List.flatMap_cons, List.filter_append, hhead, ih hs.tail, SortedMap.lookup]
      by_cases hk : key = e.1
      · have hnone : SortedMap.lookup key es = none := by
          rw [SortedMap.lookup_eq_none]
          intro x hx
          rw [hk]
          exact (hs.head_lt hx).ne'
        rw [if_pos hk, if_pos hk, hnone, hk]
        simp [hf]
      · rw [if_neg hk, if_neg hk, List.nil_append]

/-- The versions of a key in the new log. -/
theorem added_compacted (index : Index) (retainFrom : Option Nat) (key : Bytes) :
    Index.added (compactedRecords index retainFrom) key =
      (retained retainFrom (index.versions key)).insertionSort SeqLe := by
  rw [Index.added, compactedRecords, StableSort.filter_insertionSort,
    filter_entries (retained_nil retainFrom) index.ascending]
  have hid : Record.version ∘ VersionEntry.record key = id := by
    funext v
    exact VersionEntry.version_record key v
  rw [List.map_insertionSort (fun a b : Record => a.seq ≤ b.seq) SeqLe Record.version,
    List.map_map, hid, List.map_id]
  · rfl
  · intro a _ b _
    simp [SeqLe]

theorem mem_compactedRecords {index : Index} {retainFrom : Option Nat} {r : Record} :
    r ∈ compactedRecords index retainFrom ↔
      ∃ v ∈ retained retainFrom (index.versions r.key), r = v.record r.key := by
  have hget : ∀ {e : Bytes × List VersionEntry}, e ∈ index.entries → index.versions e.1 = e.2 := by
    intro e he
    rw [Index.versions, SortedMap.mem_entries.mp he, Option.getD_some]
  rw [compactedRecords, List.mem_insertionSort, List.mem_flatMap]
  constructor
  · rintro ⟨e, he, hr⟩
    obtain ⟨v, hv, rfl⟩ := List.mem_map.mp hr
    exact ⟨v, by rw [VersionEntry.record_key, hget he]; exact hv, by simp⟩
  · rintro ⟨v, hv, hr⟩
    cases hi : index.get? r.key with
    | none =>
        rw [Index.versions, hi, Option.getD_none, retained_nil] at hv
        cases hv
    | some versions =>
        refine ⟨(r.key, versions), SortedMap.mem_entries.mpr hi, ?_⟩
        rw [Index.versions, hi, Option.getD_some] at hv
        exact List.mem_map.mpr ⟨v, hv, hr.symm⟩

theorem mem_of_mem_retained {retainFrom : Option Nat} {versions : List VersionEntry}
    {v : VersionEntry} (h : v ∈ retained retainFrom versions) : v ∈ versions := by
  cases retainFrom with
  | none =>
      have hlast := List.mem_of_mem_filter h
      rw [Option.mem_toList] at hlast
      exact List.mem_of_getLast? hlast
  | some threshold =>
      rcases List.mem_append.mp h with h | h
      · rw [Option.mem_toList] at h
        exact List.mem_reverse.mp (List.mem_of_find?_eq_some h)
      · exact List.mem_of_mem_filter h

/-- Without a guard a key keeps its live value. -/
theorem retained_none_value (versions : List VersionEntry) :
    (retained none versions).getLast?.bind VersionEntry.value =
      versions.getLast?.bind VersionEntry.value := by
  unfold retained
  cases hlast : versions.getLast? with
  | none => rfl
  | some newest =>
      cases hvalue : newest.value with
      | none => simp [hvalue]
      | some value => simp [hvalue]

theorem retained_none_sorted (versions : List VersionEntry) :
    (retained none versions).insertionSort SeqLe = retained none versions := by
  refine List.Pairwise.insertionSort_eq (List.Pairwise.filter _ ?_)
  cases versions.getLast? with
  | none => exact .nil
  | some newest => exact List.pairwise_singleton _ newest

/-- No version at or above the threshold has a greater seq than the newest one. -/
def Unovertaken (threshold : Nat) (versions : List VersionEntry) : Prop :=
  ∀ newest, versions.getLast? = some newest → ∀ v ∈ versions, threshold ≤ v.seq →
    v.seq ≤ newest.seq

/-- With a guard the newest version of such a key is the last one written. -/
theorem retained_some_last {threshold : Nat} {versions : List VersionEntry}
    (h : Unovertaken threshold versions) :
    ((retained (some threshold) versions).insertionSort SeqLe).getLast? = versions.getLast? := by
  rcases List.eq_nil_or_concat versions with rfl | ⟨init, newest, rfl⟩
  · rfl
  · rw [List.concat_eq_append] at h ⊢
    have hle := h newest (by simp)
    by_cases hn : newest.seq < threshold
    · -- the newest version is the boundary and nothing lies above it
      have hfilter : (init ++ [newest]).filter (fun v => threshold ≤ v.seq) = [] := by
        rw [List.filter_eq_nil_iff]
        intro v hv hge
        have hge' : threshold ≤ v.seq := by simpa using hge
        have := hle v hv hge'
        omega
      simp [retained, hn, hfilter]
    · have hfilter : (init ++ [newest]).filter (fun v => threshold ≤ v.seq) =
          init.filter (fun v => threshold ≤ v.seq) ++ [newest] := by
        rw [List.filter_append]
        simp [not_lt.mp hn]
      rw [retained, hfilter, ← List.append_assoc, StableSort.insertionSort_append]
      · simp
      · intro v hv
        rcases List.mem_append.mp hv with hv | hv
        · rw [Option.mem_toList] at hv
          have hlt := List.find?_some hv
          simp only [decide_eq_true_eq] at hlt
          exact (hlt.trans_le (not_lt.mp hn)).le
        · obtain ⟨hv, hge⟩ := List.mem_filter.mp hv
          exact hle v (List.mem_append_left _ hv) (by simpa using hge)

/-- With a guard every version of a sorted list lies below a retained one. -/
theorem retained_reaches (threshold : Nat) {versions : List VersionEntry}
    (hsorted : versions.Pairwise (fun a b => a.seq ≤ b.seq)) {v : VersionEntry}
    (hv : v ∈ versions) : ∃ x ∈ retained (some threshold) versions, v.seq ≤ x.seq := by
  by_cases hge : threshold ≤ v.seq
  · refine ⟨v, List.mem_append_right _ (List.mem_filter.mpr ⟨hv, ?_⟩), le_rfl⟩
    simpa using hge
  · have hfound : (versions.reverse.find? (·.seq < threshold)).isSome := by
      rw [List.find?_isSome]
      exact ⟨v, List.mem_reverse.mpr hv, by simpa using hge⟩
    obtain ⟨x, hx⟩ := Option.isSome_iff_exists.mp hfound
    refine ⟨x, List.mem_append_left _ (by rw [hx]; simp), ?_⟩
    obtain ⟨-, before, after, hrev, hbefore⟩ := List.find?_eq_some_iff_append.mp hx
    have hmem := List.mem_reverse.mpr hv
    have hdown := List.pairwise_reverse.mpr hsorted
    rw [hrev] at hmem hdown
    rcases List.mem_append.mp hmem with hb | hb
    · exact absurd (hbefore v hb) (by simpa using hge)
    · rcases List.mem_cons.mp hb with rfl | hb
      · exact le_rfl
      · exact List.rel_of_pairwise_cons (List.pairwise_append.mp hdown).2.1 hb

section Increasing
variable {versions : List VersionEntry} (h : versions.Pairwise (fun a b => a.seq < b.seq))
include h

/-- Versions in order fall into those below a threshold and those at or above it. -/
theorem filter_lt_append_filter_le (threshold : Nat) :
    versions.filter (fun v => v.seq < threshold) ++ versions.filter (fun v => threshold ≤ v.seq) =
      versions := by
  induction versions with
  | nil => rfl
  | cons v vs ih =>
      obtain ⟨hv, hvs⟩ := List.pairwise_cons.mp h
      by_cases hlt : v.seq < threshold
      · have hge : ¬ threshold ≤ v.seq := not_le.mpr hlt
        simp [hlt, hge, ih hvs]
      · have hnone : vs.filter (fun v => v.seq < threshold) = [] := by
          rw [List.filter_eq_nil_iff]
          intro u hu
          have := hv u hu
          simp only [decide_eq_true_eq]
          omega
        have hall : vs.filter (fun v => threshold ≤ v.seq) = vs := by
          rw [List.filter_eq_self]
          intro u hu
          have := hv u hu
          simp only [decide_eq_true_eq]
          omega
        simp [hlt, not_lt.mp hlt, hnone, hall]

omit h in
/-- The version at the threshold's boundary is the last one below it. -/
theorem retained_some (threshold : Nat) (versions : List VersionEntry) :
    retained (some threshold) versions =
      (versions.filter (fun v => v.seq < threshold)).getLast?.toList ++
        versions.filter (fun v => threshold ≤ v.seq) := by
  rw [List.getLast?_filter, retained]

omit h in
theorem toList_getLast?_sublist {α : Type} (l : List α) : l.getLast?.toList.Sublist l := by
  cases hl : l.getLast? with
  | none => exact List.nil_sublist l
  | some a => exact List.singleton_sublist.mpr (List.mem_of_getLast? hl)

theorem retained_sublist (retainFrom : Option Nat) :
    (retained retainFrom versions).Sublist versions := by
  cases retainFrom with
  | none => exact List.filter_sublist.trans (toList_getLast?_sublist versions)
  | some threshold =>
      rw [retained_some]
      have hsub := (toList_getLast?_sublist (versions.filter (fun v => v.seq < threshold))).append_right
        (versions.filter (fun v => threshold ≤ v.seq))
      rwa [filter_lt_append_filter_le h] at hsub

/-- A snapshot at or above the threshold finds the same version. -/
theorem retained_find {threshold asOf : Nat} (hle : threshold ≤ asOf) :
    (retained (some threshold) versions).reverse.find? (fun v => v.seq < asOf) =
      versions.reverse.find? (fun v => v.seq < asOf) := by
  have hsplit := filter_lt_append_filter_le h threshold
  have hbelow : ∀ l : List VersionEntry, (∀ v ∈ l, v.seq < threshold) →
      l.filter (fun v => v.seq < asOf) = l := by
    intro l hl
    rw [List.filter_eq_self]
    intro v hv
    simpa using (hl v hv).trans_le hle
  have hlow : ∀ v ∈ versions.filter (fun v => v.seq < threshold), v.seq < threshold := by
    intro v hv
    simpa using (List.mem_filter.mp hv).2
  have hlast : ∀ v ∈ (versions.filter (fun v => v.seq < threshold)).getLast?.toList,
      v.seq < threshold := fun v hv => hlow v ((toList_getLast?_sublist _).subset hv)
  rw [← List.getLast?_filter, ← List.getLast?_filter, retained_some]
  nth_rewrite 3 [← hsplit]
  rw [List.filter_append, List.filter_append, hbelow _ hlow, hbelow _ hlast,
    List.getLast?_append, List.getLast?_append]
  cases (versions.filter (fun v => v.seq < threshold)).getLast? with
  | none => rfl
  | some v => rfl

theorem retained_sorted (retainFrom : Option Nat) :
    (retained retainFrom versions).insertionSort SeqLe = retained retainFrom versions := by
  refine List.Pairwise.insertionSort_eq ?_
  exact (h.sublist (retained_sublist h retainFrom)).imp (fun hlt => Nat.le_of_lt hlt)

theorem increasing_unovertaken (threshold : Nat) : Unovertaken threshold versions := by
  intro newest hlast v hv _
  obtain ⟨init, rfl⟩ := List.getLast?_eq_some_iff.mp hlast
  rcases List.mem_append.mp hv with hv | hv
  · exact ((List.pairwise_append.mp h).2.2 v hv newest (by simp)).le
  · rw [List.mem_singleton.mp hv]

end Increasing

end Sietch
