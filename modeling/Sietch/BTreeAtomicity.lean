import Sietch.BTreeFailure
import Sietch.BTreePaths

/-! What a failed insertion leaves behind. If the first half of an overfull leaf does not fit,
the tree reads as before; if only the second half does not fit, its entries are lost. -/
namespace Sietch
open ByteString
open BufferPool (Held)
open SortedMap (insertEntry lookup)
open Transition (Run)

namespace BTree

section Pages
variable {S ε : Type} [PageStore S ε]

def leafFor (p : BufferPool S) (key : Bytes) : Nat → PageId → Option (List Entry)
  | 0, _ => none
  | fuel + 1, id =>
      match innerAt p id with
      | some entries => (route entries key).bind (leafFor p key fuel)
      | none => leafAt p id

/-- Neither the leaf of the key with the entry in it nor the first half of that leaf can be
built. -/
def LeftFull (fuel : Nat) (p : BufferPool S) (key value : Bytes) : Prop :=
  ∃ root entries, rootOf p = some root ∧ leafFor p key fuel root = some entries ∧
    (∀ s pg, buildLeaf (upsert entries key value) s ≠ .ok pg) ∧
    ∀ s pg, buildLeaf ((upsert entries key value).take
      (splitAtMidpoint (upsert entries key value))) s ≠ .ok pg

variable {M : NodeStore S} {capacity next room n fuel : Nat} {content : PageId → Option NodePage}
  {p : BufferPool S} {key value : Bytes}

theorem leafFor_quiet {t : BPlusTree Bytes Bytes n}
    (hq : Quiet M capacity content next room p) (ht : Stored content t)
    (hids : ∀ i ∈ t.ids, i < next) (hfuel : n < fuel) :
    leafFor p key fuel t.id = some (t.leafOf key).entries := by
  induction n generalizing fuel with
  | zero =>
      obtain ⟨fuel, rfl⟩ := Nat.exists_eq_add_of_lt hfuel
      obtain ⟨hleaf, hinner⟩ := leaf_quiet hq (hids _ t.id_mem_ids) ht
      rw [Nat.zero_add, leafFor]
      simp only [hinner]
      exact hleaf
  | succ n ih =>
      obtain ⟨fuel, rfl⟩ := Nat.exists_eq_add_of_lt hfuel
      have hinner := (inner_quiet hq (hids _ t.id_mem_ids) ht.1).1
      have hroute : ∀ i ∈ ((Branch.chain t).route key).ids, i < next := fun i hi =>
        hids i (BPlusTree.mem_ids_of_route key hi)
      rw [leafFor]
      simp only [hinner]
      rw [route_entriesFrom]
      exact ih (ht.route key) hroute (by omega)

theorem leaf_unbuilt {es : List Entry} (h : ∀ s pg, buildLeaf es s ≠ .ok pg) :
    ¬ pageCapacity.leaf es = true := by
  intro hfits
  obtain ⟨pg, hbuild, -⟩ :=
    NodePage.buildLeaf_ok ((leaf_fits_iff es noSibling).mpr hfits) (by decide)
  exact h noSibling pg hbuild

theorem leftFull_quiet {t : BPlusTree.Rooted Bytes Bytes}
    (hq : Quiet M capacity content next room p) (ht : TreeRep content next t)
    (hfuel : t.depth < fuel) (h : LeftFull fuel p key value) :
    ¬ pageCapacity.leaf (insertEntry key value (t.tree.leafOf key).entries) = true ∧
      ¬ pageCapacity.leaf (leftHalf key value (t.tree.leafOf key)) = true := by
  obtain ⟨root, entries, hroot, hleaf, hwhole, hleft⟩ := h
  rw [rootOf_quiet hq ht.meta_lt ht.root] at hroot
  cases hroot
  rw [leafFor_quiet hq ht.stored ht.ids_lt hfuel] at hleaf
  cases hleaf
  rw [upsert_eq] at hwhole hleft
  exact ⟨leaf_unbuilt hwhole, leaf_unbuilt hleft⟩

end Pages

/-- With enough fuel the program returns the same in both states. -/
def SameAnswer {S ε α : Type} (p p' : BufferPool S) (x : Nat → Op S ε α) : Prop :=
  ∃ a N, ∀ fuel, N ≤ fuel → (∃ q, x fuel p = (.ok a, q)) ∧ ∃ q, x fuel p' = (.ok a, q)

variable {capacity fuel next : Nat} {content : PageId → Option NodePage}
  {pins loose : List PageId} {t : BPlusTree.Rooted Bytes Bytes}
  {p p' : BufferPool MemPageStore} {key value : Bytes}

theorem YieldsOver.returns {α : Type} {x : Nat → Op MemPageStore Empty α} {a : α} {cost : Nat}
    (hx : YieldsOver MemPageStore.nodes capacity pins loose content next x a cost)
    (h : Idle MemPageStore.nodes capacity pins loose content next 0 p) (hfuel : cost ≤ fuel) :
    ∃ q, x fuel p = (.ok a, q) := by
  have hroom := h.refill (MemPageStore.nodes_roomy p.store cost)
  obtain ⟨_, q, hcall, rfl, -⟩ :=
    (hx False fuel cost p hfuel hroom (fun hlt => lt_irrefl _ hlt)).returns not_false
  exact ⟨q, hcall⟩

theorem get_yieldsOver (hpin : CanPin pins loose capacity) (ht : TreeRep content next t)
    (key : Bytes) : YieldsOver (ε := Empty) MemPageStore.nodes capacity pins loose content next
      (fun n => get n key) (lookup key t.tree.toList) (t.depth + 2) :=
  fun _ _ _ _ hn h => get_idle hpin (by omega) h ht key

theorem scanAll_yieldsOver (hpin : CanPin pins loose capacity) (ht : TreeRep content next t) :
    YieldsOver (ε := Empty) MemPageStore.nodes capacity pins loose content next scanAll
      t.tree.toList (t.tree.ids.length + 1) :=
  fun _ _ _ _ hn h => scanAll_idle hpin
    ((BPlusTree.depth_lt_length_ids t.tree).trans_le (Nat.le_of_succ_le hn)) h ht

theorem sameAnswer_of_yields {α : Type} {x : Nat → Op MemPageStore Empty α} {a : α}
    {cost cost' next' : Nat} {content' : PageId → Option NodePage}
    (hx : YieldsOver MemPageStore.nodes capacity [] [] content next x a cost)
    (hx' : YieldsOver MemPageStore.nodes capacity pins loose content' next' x a cost')
    (hq : Quiet MemPageStore.nodes capacity content next 0 p)
    (hq' : Idle MemPageStore.nodes capacity pins loose content' next' 0 p') :
    SameAnswer p p' x := by
  refine ⟨a, max cost cost', fun fuel hfuel => ?_⟩
  exact ⟨hx.returns hq (le_of_max_le_left hfuel), hx'.returns hq' (le_of_max_le_right hfuel)⟩

theorem sameAnswers (hcap : 2 ≤ capacity) (hpin : CanPin pins loose capacity) {next' : Nat}
    {content' : PageId → Option NodePage} (ht : TreeRep content next t)
    (ht' : TreeRep content' next' t) (hq : Quiet MemPageStore.nodes capacity content next 0 p)
    (hq' : Idle MemPageStore.nodes capacity pins loose content' next' 0 p') :
    (∀ k, SameAnswer p p' (fun n => get n k)) ∧ SameAnswer p p' scanAll ∧
      ∀ start stop, SameAnswer p p' (fun n => scanRange n start stop) := by
  have hnil := canPin_nil hcap
  refine ⟨fun k => ?_, ?_, fun start stop => ?_⟩
  · exact sameAnswer_of_yields (get_yieldsOver hnil ht k) (get_yieldsOver hpin ht' k) hq hq'
  · exact sameAnswer_of_yields (scanAll_yieldsOver hnil ht) (scanAll_yieldsOver hpin ht') hq hq'
  · obtain ⟨_, -, hrange⟩ := scanRange_yieldsOver MemPageStore.nodes hnil ht start stop
    obtain ⟨_, -, hrange'⟩ := scanRange_yieldsOver MemPageStore.nodes hpin ht' start stop
    exact sameAnswer_of_yields hrange hrange' hq hq'

/-- The insertion fails and leaves the tree, a blank page and two pins. -/
theorem insert_left_full (hcap : 2 ≤ capacity) (hfuel : 2 ^ 64 ≤ fuel)
    (ht : TreeRep content next t) (hq : Quiet MemPageStore.nodes capacity content next 0 p)
    (hnext : next + 1 < 2 ^ 64) (hfull : LeftFull fuel p key value) :
    Proc.Fails (insert (ε := Empty) fuel key value) p (fun p' =>
      TreeRep (Function.update content next (some (.blank .btreeLeaf))) (next + 1) t ∧
      Idle MemPageStore.nodes capacity [next, (t.tree.leafOf key).id] []
        (Function.update content next (some (.blank .btreeLeaf))) (next + 1) 0 p') := by
  have hdepth := depth_lt_fuel ht hfuel
  obtain ⟨hwhole, hleft⟩ := leftFull_quiet hq ht hdepth hfull
  have hroom := hq.refill (MemPageStore.nodes_roomy p.store (t.depth + 3))
  have hfails : Proc.Fails (insert (ε := Empty) fuel key value) p _ :=
    insert_fails hcap hdepth hroom ht (by omega) (fun pg q hpg hheld =>
      insertLeaf_left_full hcap hheld hpg (by omega) hnext hwhole hleft)
  obtain ⟨e, p', hcall, hheld⟩ := hfails
  exact ⟨e, p', hcall, ht.spare _ hnext.le, hheld.weaken (Nat.zero_le _)⟩

/-- An insertion that fails because the first half of its leaf does not fit has no effect on
what is read: after a run of successful calls, and with a third frame for the reader. -/
theorem failed_insertion_atomic (hcap : 3 ≤ capacity) (hfuel : 2 ^ 64 ≤ fuel)
    {p₀ : BufferPool MemPageStore}
    (hopen : openTree MemPageStore.new capacity = (.ok (), some p₀))
    {events : List (TreeEvent Empty)} (hrun : Run (ChangeStep fuel) p₀ events p)
    (hnext : p.store.nextId + 1 < 2 ^ 64) (hfull : LeftFull fuel p key value)
    {e : BTreeError Empty} (hfail : insert fuel key value p = (.err e, p')) :
    (∀ k, SameAnswer p p' (fun n => get n k)) ∧ SameAnswer p p' scanAll ∧
      ∀ start stop, SameAnswer p p' (fun n => scanRange n start stop) := by
  have hcap' : 2 ≤ capacity := Nat.le_of_succ_le hcap
  have hnew := openTree_new_ok hcap' (MemPageStore.nodes_new 0) hopen
  obtain ⟨content, next, t, -, ht, hq, -⟩ := (holdsMap_empty hnew).changes hcap' hfuel hrun
  rw [nextId_quiet hq] at hnext
  obtain ⟨_, q, hcall, ht', hq'⟩ := insert_left_full hcap' hfuel ht hq hnext hfull
  rw [hfail] at hcall
  cases hcall
  have hpin : CanPin [next, (t.tree.leafOf key).id] [] capacity :=
    ⟨hcap, by simp, fun i hi => by cases hi⟩
  exact sameAnswers hcap' hpin ht ht' hq hq'

theorem thirds_run : ∃ (events : List (TreeEvent Empty)) (p₀ p : BufferPool MemPageStore)
    (content : PageId → Option NodePage),
    events.map Prod.fst = [.insert [2] thirdValue, .insert [3] thirdValue, .insert [4] thirdValue] ∧
    openTree MemPageStore.new 3 = (.ok (), some p₀) ∧ Run (ChangeStep (2 ^ 64)) p₀ events p ∧
    TreeRep content 2 ⟨0, thirds⟩ ∧ Quiet MemPageStore.nodes 3 content 2 0 p := by
  have hcap : 2 ≤ 3 := by decide
  obtain ⟨p₀, hopen, hq₀⟩ := MemPageStore.openTree_ok hcap
  have hafter : [.insert [2] thirdValue, .insert [3] thirdValue, .insert [4] thirdValue].foldlM
      (fun s c => after s.1 s.2 c) (emptyTree, 2) = some (⟨0, thirds⟩, 2) := by
    decide +kernel
  obtain ⟨p, content, hrun, ht, hq⟩ := change_run hcap (le_refl (2 ^ 64)) hq₀ (by decide) hafter
  exact ⟨_, p₀, p, content, TreeCall.map_answered _ _, hopen, hrun.mono (fun _ _ _ h => h.2), ht, hq⟩

theorem unbuilt_of_full {es : List Entry} (h : ¬ pageCapacity.leaf es = true) :
    ∀ s pg, buildLeaf es s ≠ .ok pg := by
  intro s pg hbuild
  obtain ⟨need, free, hfull⟩ :=
    NodePage.buildLeaf_full (fun hf => h ((leaf_fits_iff es s).mp hf))
  rw [hfull] at hbuild
  cases hbuild

/-- A heavy entry before three that fill a leaf. -/
theorem failed_insertion_atomic_heavy : ∃ (p₀ p p' : BufferPool MemPageStore)
    (e : BTreeError Empty), openTree MemPageStore.new 3 = (.ok (), some p₀) ∧
    LeftFull (2 ^ 64) p [1] heavyValue ∧ insert (2 ^ 64) [1] heavyValue p = (.err e, p') ∧
    SameAnswer p p' scanAll := by
  obtain ⟨events, p₀, p, content, -, hopen, hrun, ht, hq⟩ := thirds_run
  have hleaf : leafFor p [1] (2 ^ 64) 1 = some thirds.entries :=
    leafFor_quiet hq ht.stored ht.ids_lt (by decide)
  have hfull : LeftFull (2 ^ 64) p [1] heavyValue :=
    ⟨1, thirds.entries, rootOf_quiet hq ht.meta_lt ht.root, hleaf,
      unbuilt_of_full (by decide +kernel), unbuilt_of_full (by decide +kernel)⟩
  have hnext : p.store.nextId + 1 < 2 ^ 64 := by
    rw [nextId_quiet hq]
    decide
  obtain ⟨e, p', hcall, -⟩ :=
    insert_left_full (by decide) (le_refl (2 ^ 64)) ht hq (by decide) hfull
  exact ⟨p₀, p, p', e, hopen, hfull, hcall, (failed_insertion_atomic (le_refl 3)
    (le_refl (2 ^ 64)) hopen hrun hnext hfull hcall).2.1⟩

def thirdsCut : BPlusTree Bytes Bytes 0 :=
  (⟨1, leftHalf [5] heavyValue thirds, 2⟩ : Leaf Bytes Bytes)

/-- A heavy entry after three that fill a leaf: the second half does not fit, and the third
entry is lost with it. -/
theorem failed_insertion_loses_entry : ∃ (events : List (TreeEvent Empty))
    (p₀ p p' q q' : BufferPool MemPageStore) (e : BTreeError Empty),
    events.map Prod.fst = [.insert [2] thirdValue, .insert [3] thirdValue, .insert [4] thirdValue] ∧
    openTree MemPageStore.new 3 = (.ok (), some p₀) ∧ Run (ChangeStep (2 ^ 64)) p₀ events p ∧
    insert (2 ^ 64) [5] heavyValue p = (.err e, p') ∧
    get (2 ^ 64) [4] p = (.ok (some thirdValue), q) ∧ get (2 ^ 64) [4] p' = (.ok none, q') := by
  obtain ⟨events, p₀, p, content, hcalls, hopen, hrun, ht, hq⟩ := thirds_run
  have hcap : 2 ≤ 3 := by decide
  have hroom := hq.refill (MemPageStore.nodes_roomy p.store 3)
  have hfails : Proc.Fails (insert (ε := Empty) (2 ^ 64) [5] heavyValue) p _ :=
    insert_fails hcap (by decide) hroom ht (by decide) (fun pg s hpg hheld =>
      insertLeaf_right_full hcap hheld hpg (by decide) (by decide) (by decide +kernel)
        (by decide +kernel) (by decide +kernel))
  obtain ⟨e, p', hcall, hheld⟩ := hfails
  obtain ⟨q, hbefore⟩ := (get_yieldsOver (canPin_nil hcap) ht [4]).returns hq
    (show 2 ≤ 2 ^ 64 by decide)
  -- the leaf is on its page with the first half only
  have hpin : CanPin [2, 1] [1] 3 := ⟨by decide, by decide, by decide⟩
  have hread : Proc.Unless False (get (ε := Empty) (2 ^ 64) [4]) p' (fun r _ => r = none) := by
    have hmeta : Function.update (Function.update content 2 (some (.blank .btreeLeaf))) 1
        (some (.leaf (leftHalf [5] heavyValue thirds) 2)) metaPageId = some (.root 1) := ht.root
    have hroom' := hheld.refill (MemPageStore.nodes_roomy p'.store 2)
    rw [get]
    refine Proc.Unless.bind (rootId_idle hpin hroom' (by decide) hmeta (fun hr => by cases hr)) ?_
    rintro _ p₁ ⟨rfl, h₁⟩
    have hstored : Stored (Function.update (Function.update content 2 (some (.blank .btreeLeaf))) 1
        (some (.leaf (leftHalf [5] heavyValue thirds) 2))) thirdsCut := Function.update_self ..
    have hids : ∀ i ∈ thirdsCut.ids, i < 3 := by decide
    refine (getRecursive_idle hpin [4] (by decide) h₁ hstored hids
      (fun hr => absurd hr (by decide))).mono ?_ (fun hE => hE)
    rintro r p₂ ⟨rfl, -⟩
    decide +kernel
  obtain ⟨_, q', hafter, rfl⟩ := hread.returns not_false
  exact ⟨events, p₀, p, p', q, q', e, hcalls, hopen, hrun, hcall, hbefore, hafter⟩

end BTree
end Sietch
