import Sietch.BTreeFailure
import Sietch.BTreePaths
import Sietch.TreeSessions

/-! The pins of the B+tree. Every operation that returns has released its pins, and an insertion
that fails in a leaf has not. -/
namespace Sietch
open ByteString
open BufferPool (Held)
open Transition (Run Under)

inductive BTreeCall where
  | insert (key value : Bytes)
  | delete (key : Bytes)
  | get (key : Bytes)
  | scanAll
  | scanRange (start stop : Bytes)
  | depth
  | flush
  deriving DecidableEq, Repr

/-- The call, without what it returns. -/
def BTreeCall.exec {S ε : Type} [PageStore S ε] (fuel : Nat) : BTreeCall → BTree.Op S ε Unit
  | insert key value => BTree.insert fuel key value
  | delete key => do let _ ← BTree.delete fuel key
  | get key => do let _ ← BTree.get fuel key
  | scanAll => do let _ ← BTree.scanAll fuel
  | scanRange start stop => do let _ ← BTree.scanRange fuel start stop
  | depth => do let _ ← BTree.depth fuel
  | flush => BTree.flush

abbrev BTreeEvent (ε : Type) := BTreeCall × Outcome (BTreeError ε) Unit

def CallStep {S ε : Type} [PageStore S ε] (fuel : Nat) (p : BufferPool S) (e : BTreeEvent ε)
    (p' : BufferPool S) : Prop := e.1.exec fuel p = (e.2, p')

def PinsReleased {S : Type} (p : BufferPool S) : Prop := ∀ f ∈ p.frames, f.pinCount = 0

namespace BTree

section Frames
variable {S ε : Type} [PageStore S ε] {M : NodeStore S} {capacity next room : Nat}
  {content : PageId → Option NodePage} {pins loose : List PageId} {p : BufferPool S}

theorem pinsReleased_quiet (hq : Quiet M capacity content next room p) : PinsReleased p := by
  obtain ⟨-, disk, hrep⟩ := hq
  intro f hf
  obtain ⟨idx, hidx⟩ := List.mem_iff_getElem?.mp hf
  have hframe := hrep.wf.frame?_of_frame hidx (by simp)
  rw [(hrep.cached _ f hframe).pinned]
  exact List.count_nil

theorem not_pinsReleased (h : Held M.toNumberedStore capacity content pins loose next room p)
    {id : PageId} (hid : id ∈ pins) : ¬ PinsReleased p := by
  obtain ⟨-, disk, hrep⟩ := h
  intro hall
  obtain ⟨f, hf⟩ := hrep.frame_of_pinned hid
  obtain ⟨idx, -, hidx, hpage⟩ := hrep.wf.frame?_eq_some.mp hf
  have hzero := hall f (List.mem_of_getElem? hidx)
  rw [(hrep.cached id f hf).pinned, hpage, List.count_eq_zero] at hzero
  exact hzero hid

end Frames

variable {capacity fuel next : Nat} {content : PageId → Option NodePage}
  {t : BPlusTree.Rooted Bytes Bytes} {p p' : BufferPool MemPageStore}

def insertedBy : BTreeCall → Option Entry
  | .insert key value => some (key, value)
  | _ => none

def ModestCall (p : BufferPool MemPageStore) (e : BTreeEvent Empty) : Prop :=
  ModestEntry p (insertedBy e.1)

theorem light_read {α : Type} {x : Nat → Op MemPageStore Empty α} {a : α} {cost : Nat}
    (hx : Yields MemPageStore.nodes capacity content next x a cost) (hfuel : cost ≤ fuel)
    (ht : TreeRep content next t) (hq : Quiet MemPageStore.nodes capacity content next 0 p)
    (hlight : t.tree.Fits pageWeights.light) :
    Proc.Returns (do let _ ← x fuel) p (fun _ p' => LightTree capacity p') := by
  have hroom := hq.refill (MemPageStore.nodes_roomy p.store cost)
  have hread := (hx False fuel cost p hfuel hroom (fun hlt => lt_irrefl _ hlt)).returns not_false
  refine hread.bind (fun _ p' h' => Proc.returns_pure ?_)
  exact ⟨content, next, t, ht, h'.2.weaken (Nat.zero_le _), hlight⟩

theorem light_call (hcap : 2 ≤ capacity) (hfuel : 2 ^ 66 ≤ fuel) (h : LightTree capacity p)
    {c : BTreeCall} {o : Outcome (BTreeError Empty) Unit} (hmodest : ModestCall p (c, o)) :
    Proc.Returns (c.exec fuel) p (fun _ p' => LightTree capacity p') := by
  have hfuel' : 2 ^ 64 ≤ fuel := le_trans (by norm_num) hfuel
  obtain ⟨content, next, t, ht, hq, hlight⟩ := id h
  have hlimit := ht.limit
  have hdepth := ht.wf.depth_lt
  cases c with
  | insert key value => exact h.insert hcap hfuel' hmodest
  | delete key =>
      exact (h.delete hcap hfuel' key).bind (fun _ _ hlight' => Proc.returns_pure hlight')
  | get key =>
      have hyields : Yields (ε := Empty) MemPageStore.nodes capacity content next
          (fun n => BTree.get n key) _ (t.depth + 2) :=
        fun E n room p hn h => get_unless hcap (by omega) h ht key
      exact light_read hyields (by omega) ht hq hlight
  | scanAll =>
      have hids := BPlusTree.depth_lt_length_ids t.tree
      have hlen := ht.wf.length_ids_le
      have hyields : Yields (ε := Empty) MemPageStore.nodes capacity content next
          BTree.scanAll _ (t.tree.ids.length + 1) :=
        fun E n room p hn h => scanAll_unless hcap (by omega) h ht
      exact light_read hyields (by omega) ht hq hlight
  | scanRange start stop =>
      obtain ⟨cost, hcost, hyields⟩ :=
        scanRange_yieldsOver MemPageStore.nodes (canPin_nil hcap) ht start stop
      exact light_read hyields (by omega) ht hq hlight
  | depth => exact light_read (depth_yields MemPageStore.nodes hcap ht) (by omega) ht hq hlight
  | flush =>
      have hroom := hq.refill (MemPageStore.nodes_roomy p.store capacity)
      refine ((flush_unless (E := False) hroom (fun hlt => lt_irrefl _ hlt)).returns
        not_false).mono (fun _ p' h' => ?_)
      exact ⟨content, next, t, ht, h'.1.weaken (Nat.zero_le _), hlight⟩

/-- While the inserted entries have at most 168 bytes, no page is pinned after any call, and
no call finds the pool exhausted. -/
theorem pins_released (hcap : 2 ≤ capacity) (hfuel : 2 ^ 66 ≤ fuel) {p₀ : BufferPool MemPageStore}
    (hopen : openTree MemPageStore.new capacity = (.ok (), some p₀))
    {events : List (BTreeEvent Empty)} (hrun : Run (Under ModestCall (CallStep fuel)) p₀ events p) :
    PinsReleased p ∧ ∀ e ∈ events, ∀ n, e.2 ≠ .err (.buffer (.poolExhausted n)) := by
  have hinv : LightTree capacity p ∧ ∀ e ∈ events, e.2 = .ok () := by
    refine hrun.invariant_history (I := fun hist q =>
      LightTree capacity q ∧ ∀ e ∈ hist, e.2 = .ok ()) ?_ ?_
    · exact ⟨lightTree_new (openTree_new_ok hcap (MemPageStore.nodes_new 0) hopen),
        List.forall_mem_nil _⟩
    · intro hist a e b hinv hstep
      obtain ⟨c, o⟩ := e
      obtain ⟨_, q, hcall, hlight⟩ := light_call hcap hfuel hinv.1 hstep.1
      have hsame : (o, b) = (.ok (), q) := hstep.2.symm.trans hcall
      cases hsame
      refine ⟨hlight, fun e he => ?_⟩
      rcases List.mem_append.mp he with hold | hnew
      · exact hinv.2 e hold
      · rw [List.mem_singleton.mp hnew]
  obtain ⟨⟨content, next, t, -, hq, -⟩, hok⟩ := hinv
  refine ⟨pinsReleased_quiet hq, fun e he n herr => ?_⟩
  rw [hok e he] at herr
  cases herr

theorem insert_run (hcap : 2 ≤ capacity) (hfuel : 2 ^ 64 ≤ fuel) (ht : TreeRep content next t)
    (hq : Quiet MemPageStore.nodes capacity content next 0 p) {entries : List Entry}
    {t' : BPlusTree.Rooted Bytes Bytes} {next' : Nat}
    (h : entries.foldlM (fun s e => BPlusTree.put pageCapacity e.1 e.2 s.1 s.2) (t, next) =
      some (t', next')) :
    ∃ p' content',
      Run (Under (fun q _ => q.store.nextId ≤ next') (CallStep fuel)) p
        (entries.map (fun e => (BTreeCall.insert e.1 e.2, .ok ()))) p' ∧
      TreeRep content' next' t' ∧ Quiet MemPageStore.nodes capacity content' next' 0 p' ∧
      next ≤ next' := by
  induction entries generalizing t next content p with
  | nil =>
      cases h
      exact ⟨p, content, .nil, ht, hq, le_rfl⟩
  | cons e entries ih =>
      rw [List.foldlM_cons] at h
      obtain ⟨⟨t₁, next₁⟩, hput, hrest⟩ := Option.bind_eq_some_iff.mp h
      have hroom := hq.refill (MemPageStore.nodes_roomy p.store (3 * t.depth + 5))
      obtain ⟨_, p₁, hcall, u, n, content₁, hput₁, ht₁, hq₁⟩ :=
        (insert_unless (E := False) hcap (depth_lt_fuel ht hfuel) hroom ht
          (fun hlt => lt_irrefl _ hlt) (fun hnone => by rw [hput] at hnone; cases hnone)).returns
          not_false
      rw [hput] at hput₁
      cases hput₁
      obtain ⟨p', content', hrun, ht', hq', hle⟩ := ih ht₁ (hq₁.weaken (Nat.zero_le _)) hrest
      have hnext : next ≤ next₁ := (BPlusTree.ids_put hput).1
      have hids : p.store.nextId ≤ next' := (nextId_quiet hq).trans_le (hnext.trans hle)
      have hfirst : Run (Under (fun q _ => q.store.nextId ≤ next') (CallStep fuel)) p
          [(.insert e.1 e.2, .ok ())] p₁ := Run.nil.snoc ⟨hids, hcall⟩
      exact ⟨p', content', hfirst.append hrun, ht', hq', hnext.trans hle⟩

/-- Entries fill a leaf until it splits, and the tree is flushed. -/
theorem pins_released_split_flush : ∃ p₀ p₁ p : BufferPool MemPageStore,
    openTree MemPageStore.new 2 = (.ok (), some p₀) ∧
    Run (Under ModestCall (CallStep (2 ^ 66))) p₀
      (fullEntries.map (fun e => (.insert e.1 e.2, .ok ()))) p₁ ∧ p₁.store.nextId = 4 ∧
    CallStep (ε := Empty) (2 ^ 66) p₁ (.flush, .ok ()) p ∧ PinsReleased p := by
  obtain ⟨p₀, hopen, hq₀⟩ := MemPageStore.openTree_ok (le_refl 2)
  have hsome : (fullEntries.foldlM (fun s e => BPlusTree.put pageCapacity e.1 e.2 s.1 s.2)
      (emptyTree, 2)).any (fun s => decide (s.2 = 4)) = true := by
    decide +kernel
  obtain ⟨⟨t, next⟩, hput, hids⟩ := (Option.any_eq_true ..).mp hsome
  have hnext : next = 4 := of_decide_eq_true hids
  subst hnext
  have hfuel : 2 ^ 64 ≤ 2 ^ 66 := by norm_num
  obtain ⟨p₁, _, hinserts, -, hq₁, -⟩ := insert_run (le_refl 2) hfuel treeRep_empty hq₀ hput
  have hsmall : ∀ e ∈ fullEntries, e.1.length + e.2.length ≤ 168 := by
    decide +kernel
  have hlens : ∀ e ∈ fullEntries.map (fun e => ((.insert e.1 e.2, .ok ()) : BTreeEvent Empty)),
      ∀ x ∈ insertedBy e.1, x.1.length + x.2.length ≤ 168 := by
    intro e he x hx
    obtain ⟨y, hy, rfl⟩ := List.mem_map.mp he
    cases hx
    exact hsmall y hy
  have hmodest : Run (Under ModestCall (CallStep (2 ^ 66))) p₀
      (fullEntries.map (fun e => (.insert e.1 e.2, .ok ()))) p₁ := by
    refine hinserts.mono_mem ?_
    rintro a e b he ⟨hle, hstep⟩
    have hfree : a.store.nextId < 2 ^ 63 := hle.trans_lt (by decide)
    exact ⟨fun x hx => ⟨hlens e he x hx, hfree⟩, hstep⟩
  have hflush : ModestCall p₁ (.flush, .ok ()) := fun x hx => by cases hx
  have hroom := hq₁.refill (MemPageStore.nodes_roomy p₁.store 2)
  obtain ⟨_, p, hcall, -⟩ :=
    (flush_unless (E := False) hroom (fun hlt => lt_irrefl _ hlt)).returns not_false
  have hstep : CallStep (2 ^ 66) p₁ (.flush, .ok ()) p := hcall
  exact ⟨p₀, p₁, p, hopen, hmodest, nextId_quiet hq₁, hstep,
    (pins_released (le_refl 2) (le_refl (2 ^ 66)) hopen (hmodest.snoc ⟨hflush, hstep⟩)).1⟩

/-- An insertion that fails because of the first half of a leaf keeps two pages pinned. -/
theorem failed_insertion_keeps_pins : ∃ (p₀ p : BufferPool MemPageStore)
    (e : BTreeError Empty), openTree MemPageStore.new 2 = (.ok (), some p₀) ∧
    Run (CallStep (2 ^ 66)) p₀ [(.insert [2] thirdValue, .ok ()), (.insert [3] thirdValue, .ok ()),
      (.insert [4] thirdValue, .ok ()), (.insert [1] heavyValue, .err e)] p ∧
    ¬ PinsReleased p := by
  obtain ⟨p₀, hopen, hq₀⟩ := MemPageStore.openTree_ok (le_refl 2)
  have hput : [([2], thirdValue), ([3], thirdValue), ([4], thirdValue)].foldlM
      (fun s e => BPlusTree.put pageCapacity e.1 e.2 s.1 s.2) (emptyTree, 2) =
      some (⟨0, thirds⟩, 2) := by
    decide +kernel
  have hfuel : 2 ^ 64 ≤ 2 ^ 66 := by norm_num
  obtain ⟨p, content, hrun, ht, hq, -⟩ := insert_run (le_refl 2) hfuel treeRep_empty hq₀ hput
  have hfails : Proc.Fails (insert (2 ^ 66) [1] heavyValue) p _ :=
    insert_fails (le_refl 2) (by decide) (hq.refill (MemPageStore.nodes_roomy p.store 3)) ht
      (by decide) (fun pg q hpg hheld => insertLeaf_left_full (le_refl 2) hheld hpg (by decide)
        (by decide) (by decide +kernel) (by decide +kernel))
  obtain ⟨e, p', hcall, hheld⟩ := hfails
  have hstep : CallStep (2 ^ 66) p (.insert [1] heavyValue, .err e) p' := hcall
  have hinserts := hrun.mono (fun _ _ _ h => h.2)
  exact ⟨p₀, p', e, hopen, hinserts.snoc hstep, not_pinsReleased hheld (List.mem_cons_self ..)⟩

end BTree
end Sietch
