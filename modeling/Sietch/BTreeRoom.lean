import Sietch.Base.BPlusTreeRoom
import Sietch.BTreeRuns

/-! Entries that can always be inserted. A page that overflows is cut by the number of its
entries, so that both parts fit if no entry is much heavier than the others. -/
namespace Sietch
open ByteString
open Transition (Run Under)

/-- The bytes that an entry takes in a leaf, and a separator in an inner node, each with its
slot. -/
def pageWeights : BPlusTree.Weights Bytes Bytes where
  entry e := 8 + (e.1.length + e.2.length)
  sep s := 14 + s.length
  maxEntry := 176
  maxSep := 182

theorem leaf_weight (es : List Entry) :
    pageCapacity.leaf es = true ↔ BPlusTree.weight pageWeights.entry es ≤ 4066 := by
  have hsum : ((es.map encodeLeafEntry).map (fun r => slotLen + r.length)).sum =
      BPlusTree.weight pageWeights.entry es := by
    rw [List.map_map, BPlusTree.weight]
    congr 2
    funext e
    simp only [Function.comp_apply, encodeLeafEntry, List.length_append, length_leBytes, slotLen,
      pageWeights]
    omega
  rw [← leaf_fits_iff es noSibling, NodePage.Fits, RecordsFit, NodePage.records, List.map_cons,
    List.sum_cons, hsum]
  simp only [encodeLeafSibling, List.length_append, length_leBytes, slotLen, pageHeaderLen, pageSize]
  omega

theorem leaf_entry_le {es : List Entry} {key value : Bytes} (h : pageCapacity.leaf es = true)
    (hmem : (key, value) ∈ es) : key.length + value.length ≤ 4058 := by
  have hle := (leaf_weight es).mp h
  obtain ⟨xs, ys, heq⟩ := List.append_of_mem hmem
  rw [heq, BPlusTree.weight_append, BPlusTree.weight_cons] at hle
  simp only [pageWeights] at hle
  omega

theorem node_weight (seps : List Bytes) :
    pageCapacity.node seps = true ↔ BPlusTree.weight pageWeights.sep seps ≤ 4066 := by
  have hsum : (((seps.map (fun s => InternalEntry.mk (some s) noSibling)).map
      encodeInternalEntry).map (fun r => slotLen + r.length)).sum =
      BPlusTree.weight pageWeights.sep seps := by
    rw [List.map_map, List.map_map, BPlusTree.weight]
    congr 2
    funext s
    simp only [Function.comp_apply, encodeInternalEntry, List.length_append, length_leBytes, slotLen,
      pageWeights]
    omega
  rw [pageCapacity]
  simp only [decide_eq_true_eq]
  rw [NodePage.Fits, RecordsFit, NodePage.records, List.map_cons, List.map_cons, List.sum_cons, hsum]
  simp only [encodeInternalEntry, List.length_append, length_leBytes, slotLen, pageHeaderLen, pageSize]
  omega

theorem pageWeights_suits : pageWeights.Suits pageCapacity where
  leaf := by
    refine ⟨8, 4066, leaf_weight, fun e => Nat.le_add_right _ _, fun n => ?_⟩
    simp only [pageWeights]
    omega
  node := by
    refine ⟨14, 4066, node_weight, fun s => Nat.le_add_right _ _, fun n => ?_, by decide⟩
    simp only [pageWeights]
    omega
  key e he := by
    simp only [pageWeights] at he ⊢
    omega

namespace BTree
variable {capacity fuel next : Nat} {content : PageId → Option NodePage}
  {t : BPlusTree.Rooted Bytes Bytes} {p p' : BufferPool MemPageStore} {key value : Bytes}

def inserted : TreeCall → Option Entry
  | .insert key value => some (key, value)
  | _ => none

/-- An inserted entry has at most 168 bytes, and half of the page ids are free. -/
def ModestEntry (p : BufferPool MemPageStore) (entry : Option Entry) : Prop :=
  ∀ e ∈ entry, e.1.length + e.2.length ≤ 168 ∧ p.store.nextId < 2 ^ 63

def Modest (p : BufferPool MemPageStore) (e : TreeEvent Empty) : Prop := ModestEntry p (inserted e.1)

def LightTree (capacity : Nat) (p : BufferPool MemPageStore) : Prop :=
  ∃ content next t, TreeRep content next t ∧ Quiet MemPageStore.nodes capacity content next 0 p ∧
    t.tree.Fits pageWeights.light

theorem lightTree_new (hq : Quiet MemPageStore.nodes capacity emptyContent 2 0 p) :
    LightTree capacity p :=
  ⟨emptyContent, 2, emptyTree, treeRep_empty, hq, rfl⟩

theorem put_modest (ht : TreeRep content next t) (hlight : t.tree.Fits pageWeights.light)
    (hlen : key.length + value.length ≤ 168) (hnext : next < 2 ^ 63) :
    ∃ t' next', BPlusTree.put pageCapacity key value t next = some (t', next') ∧
      t'.tree.Fits pageWeights.light := by
  have hdepth := ht.wf.depth_lt
  have hlimit : next + (t.depth + 2) < pageCapacity.limit := by
    simp only [pageCapacity]
    omega
  refine BPlusTree.put_light pageWeights_suits hlight ht.wf.fits ?_ hlimit
  simp only [pageWeights]
  omega

theorem LightTree.insert (h : LightTree capacity p) (hcap : 2 ≤ capacity) (hfuel : 2 ^ 64 ≤ fuel)
    (hmodest : ModestEntry p (some (key, value))) :
    Proc.Returns (BTree.insert fuel key value) p (fun _ p' => LightTree capacity p') := by
  obtain ⟨content, next, t, ht, hq, hlight⟩ := h
  obtain ⟨hlen, hnext⟩ := hmodest _ rfl
  rw [nextId_quiet hq] at hnext
  obtain ⟨t', next', hput, hlight'⟩ := put_modest ht hlight hlen hnext
  have hroom := hq.refill (MemPageStore.nodes_roomy p.store (3 * t.depth + 5))
  refine ((insert_unless (E := False) hcap (depth_lt_fuel ht hfuel) hroom ht
    (fun hlt => lt_irrefl _ hlt) (fun hnone => by rw [hput] at hnone; cases hnone)).returns
    not_false).mono ?_
  rintro - p' ⟨u, n, content', hput', ht', hq'⟩
  rw [hput] at hput'
  cases hput'
  exact ⟨content', next', t', ht', hq'.weaken (Nat.zero_le _), hlight'⟩

theorem LightTree.delete (h : LightTree capacity p) (hcap : 2 ≤ capacity) (hfuel : 2 ^ 64 ≤ fuel)
    (key : Bytes) : Proc.Returns (BTree.delete (ε := Empty) fuel key) p
      (fun _ p' => LightTree capacity p') := by
  obtain ⟨content, next, t, ht, hq, hlight⟩ := h
  have hroom := hq.refill (MemPageStore.nodes_roomy p.store (2 * t.depth + 4))
  refine ((delete_unless (E := False) hcap (depth_lt_fuel ht hfuel) hroom ht
    (fun hlt => lt_irrefl _ hlt)).returns not_false).mono ?_
  rintro found p' (⟨-, -, hq'⟩ | ⟨t', content', hrem, -, ht', hq'⟩)
  · exact ⟨content, next, t, ht, hq'.weaken (Nat.zero_le _), hlight⟩
  · obtain ⟨u, _, hdel, -, -, -, hfits⟩ := BPlusTree.remove_cases hrem
    exact ⟨content', next, t', ht', hq'.weaken (Nat.zero_le _), hfits _ (hlight.delete hdel)⟩

theorem LightTree.step (h : LightTree capacity p) (hcap : 2 ≤ capacity) (hfuel : 2 ^ 64 ≤ fuel)
    {e : TreeEvent Empty} (hmodest : Modest p e) (hstep : ChangeStep fuel p e p') :
    LightTree capacity p' := by
  obtain ⟨hchanges, hcall⟩ := hstep
  obtain ⟨c, o⟩ := e
  cases c with
  | insert key value =>
      obtain ⟨_, q, hins, hq⟩ := h.insert hcap hfuel hmodest
      have hsame : (Outcome.ok TreeReply.done, q) = (o, p') := (Proc.bind_ok hins).symm.trans hcall
      cases hsame
      exact hq
  | delete key =>
      obtain ⟨found, q, hdel, hq⟩ := h.delete hcap hfuel key
      have hsame : (Outcome.ok (TreeReply.found found), q) = (o, p') :=
        (Proc.bind_ok hdel).symm.trans hcall
      cases hsame
      exact hq
  | get key => exact absurd hchanges (by cases o <;> exact not_false)
  | scanAll => exact absurd hchanges (by cases o <;> exact not_false)

theorem light_run (hcap : 2 ≤ capacity) (hfuel : 2 ^ 64 ≤ fuel) {p₀ : BufferPool MemPageStore}
    (hopen : openTree MemPageStore.new capacity = (.ok (), some p₀)) {events : List (TreeEvent Empty)}
    (hrun : Run (Under Modest (ChangeStep fuel)) p₀ events p) : LightTree capacity p := by
  refine hrun.invariant (I := LightTree capacity) ?_ ?_
  · exact lightTree_new (openTree_new_ok hcap (MemPageStore.nodes_new 0) hopen)
  · intro a e b hlight hstep
    exact hlight.step hcap hfuel hstep.1 hstep.2

/-- Entries of at most 168 bytes can always be inserted: after every run of successful
insertions of such entries and of deletions, `insert` returns for the next one. -/
theorem small_entries_stored (hcap : 2 ≤ capacity) (hfuel : 2 ^ 64 ≤ fuel)
    {p₀ p : BufferPool MemPageStore}
    (hopen : openTree MemPageStore.new capacity = (.ok (), some p₀)) {events : List (TreeEvent Empty)}
    (hrun : Run (Under Modest (ChangeStep fuel)) p₀ events p)
    (hlen : key.length + value.length ≤ 168) (hnext : p.store.nextId < 2 ^ 63) :
    ∃ p', insert fuel key value p = (.ok (), p') := by
  have hmodest : ModestEntry p (some (key, value)) := by
    rintro _ ⟨⟩
    exact ⟨hlen, hnext⟩
  obtain ⟨_, p', hcall, -⟩ := (light_run hcap hfuel hopen hrun).insert hcap hfuel hmodest
  exact ⟨p', hcall⟩

/-- Entries of 168 bytes, of which a page holds 23. -/
def fullEntries : List Entry :=
  (List.range 24).map (fun n => ([Fin.ofNat 256 n], List.replicate 167 0))

/-- The entries fill a leaf and make it split; the first of them is deleted again. -/
def splitBySmall : List TreeCall :=
  fullEntries.map (fun e => .insert e.1 e.2) ++ [.delete [0]]

/-- One more entry after the split. -/
theorem small_entries_stored_after_split : ∃ p₀ p p' : BufferPool MemPageStore,
    openTree MemPageStore.new 2 = (.ok (), some p₀) ∧
    Run (Under Modest (ChangeStep (2 ^ 64))) p₀ (TreeCall.answered .empty splitBySmall) p ∧
    p.store.nextId = 4 ∧ insert (2 ^ 64) [100] [2] p = (.ok (), p') := by
  obtain ⟨p₀, hopen, hq₀⟩ := MemPageStore.openTree_ok (le_refl 2)
  have hsome : (splitBySmall.foldlM (fun s c => after s.1 s.2 c) (emptyTree, 2)).any
      (fun s => decide (s.2 = 4)) = true := by
    decide +kernel
  obtain ⟨⟨t, next⟩, hafter, hids⟩ := (Option.any_eq_true ..).mp hsome
  have hnext : next = 4 := of_decide_eq_true hids
  obtain ⟨p, _, hrun, -, hq⟩ := change_run (le_refl 2) (le_refl (2 ^ 64)) hq₀ (by decide) hafter
  have hsmall : ∀ c ∈ splitBySmall, ∀ e ∈ inserted c, e.1.length + e.2.length ≤ 168 := by
    decide +kernel
  subst hnext
  have hmember : ∀ e ∈ TreeCall.answered (ε := Empty) .empty splitBySmall, e.1 ∈ splitBySmall := by
    intro e he
    rw [← TreeCall.map_answered (ε := Empty) .empty splitBySmall]
    exact List.mem_map_of_mem he
  have hall : Run (Under Modest (ChangeStep (2 ^ 64))) p₀ (TreeCall.answered .empty splitBySmall)
      p := by
    refine hrun.mono_mem ?_
    rintro a e b he ⟨hle, hstep⟩
    have hids : a.store.nextId < 2 ^ 63 := hle.trans_lt (by decide)
    exact ⟨fun x hx => ⟨hsmall _ (hmember e he) x hx, hids⟩, hstep⟩
  have hfew : p.store.nextId = 4 := nextId_quiet hq
  have hstored : ∃ p', insert (2 ^ 64) [100] [2] p = (.ok (), p') :=
    small_entries_stored (le_refl 2) (le_refl (2 ^ 64)) hopen hall (by decide)
      (by rw [hfew]; decide)
  obtain ⟨p', hcall⟩ := hstored
  exact ⟨p₀, p, p', hopen, hall, hfew, hcall⟩

/-- Three of these fill a leaf. -/
def thirdValue : Bytes := List.replicate 1340 0

def heavyValue : Bytes := List.replicate 3000 0

def thirds : Leaf Bytes Bytes :=
  ⟨1, [([2], thirdValue), ([3], thirdValue), ([4], thirdValue)], noSibling⟩

/-- A heavy entry does not go before three that fill a leaf: it shares its half of the leaf
with the first of them. -/
theorem heavy_entry_rejected : ∃ (events : List (TreeEvent Empty))
    (p₀ p : BufferPool MemPageStore),
    events.map Prod.fst = [.insert [2] thirdValue, .insert [3] thirdValue, .insert [4] thirdValue] ∧
    openTree MemPageStore.new 2 = (.ok (), some p₀) ∧ Run (ChangeStep (2 ^ 64)) p₀ events p ∧
    (∀ s < 2 ^ 64, ∃ pg, buildLeaf [([1], heavyValue)] s = .ok pg) ∧
    ∀ p', insert (2 ^ 64) [1] heavyValue p ≠ (.ok (), p') := by
  obtain ⟨p₀, hopen, hq₀⟩ := MemPageStore.openTree_ok (le_refl 2)
  have hafter : [.insert [2] thirdValue, .insert [3] thirdValue, .insert [4] thirdValue].foldlM
      (fun s c => after s.1 s.2 c) (emptyTree, 2) =
      some (⟨0, thirds⟩, 2) := by
    decide +kernel
  obtain ⟨p, content, hrun, ht, hq⟩ :=
    change_run (le_refl 2) (le_refl (2 ^ 64)) hq₀ (by decide) hafter
  refine ⟨_, p₀, p, TreeCall.map_answered _ _, hopen, hrun.mono (fun _ _ _ h => h.2), ?_, ?_⟩
  · intro s hs
    have hfits : pageCapacity.leaf [([1], heavyValue)] = true := by decide +kernel
    obtain ⟨pg, hbuild, -⟩ := NodePage.buildLeaf_ok ((leaf_fits_iff _ s).mpr hfits) hs
    exact ⟨pg, hbuild⟩
  · intro p' hcall
    obtain ⟨t', next', _, hput, -⟩ := (insert_unless (E := True) (le_refl 2) (by decide) hq ht
      (fun _ => trivial) (fun _ => trivial)).ok hcall
    have hnone : BPlusTree.put pageCapacity [1] heavyValue ⟨0, thirds⟩ 2 = none := by
      decide +kernel
    rw [hnone] at hput
    cases hput

end BTree
end Sietch
