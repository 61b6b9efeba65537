import Sietch.Base.Run
import Sietch.BTreeOps

/-! Whole runs of a B+tree: its calls are those of a sorted map. -/
namespace Sietch
open ByteString Transition
open SortedMap (lookup)

inductive TreeCall where
  | insert (key value : Bytes)
  | delete (key : Bytes)
  | get (key : Bytes)
  | scanAll
  deriving DecidableEq, Repr

inductive TreeReply where
  | done
  | found (b : Bool)
  | value (v : Option Bytes)
  | entries (es : List Entry)
  deriving DecidableEq, Repr

namespace TreeCall
variable {S ε : Type} [PageStore S ε]

def exec (fuel : Nat) : TreeCall → BTree.Op S ε TreeReply
  | insert key value => do BTree.insert fuel key value; return .done
  | delete key => do return .found (← BTree.delete fuel key)
  | get key => do return .value (← BTree.get fuel key)
  | scanAll => do return .entries (← BTree.scanAll fuel)

/-- What the call returns and does on the map that the tree stands for. -/
def refer (m : SortedMap Bytes Bytes) : TreeCall → TreeReply × SortedMap Bytes Bytes
  | insert key value => (.done, m.insert key value)
  | delete key => (.found (m.get? key).isSome, m.erase key)
  | get key => (.value (m.get? key), m)
  | scanAll => (.entries m.entries, m)

end TreeCall

abbrev TreeEvent (ε : Type) := TreeCall × Outcome (BTreeError ε) TreeReply

def TreeStep {S ε : Type} [PageStore S ε] (fuel : Nat) (p : BufferPool S) (e : TreeEvent ε)
    (p' : BufferPool S) : Prop := e.1.exec fuel p = (e.2, p')

def ReferStep {ε : Type} (m : SortedMap Bytes Bytes) (e : TreeEvent ε)
    (m' : SortedMap Bytes Bytes) : Prop :=
  e.2 = .ok (e.1.refer m).1 ∧ m' = (e.1.refer m).2

namespace BTree
variable {S ε : Type} [PageStore S ε] {M : NodeStore S} {capacity fuel room first next : Nat}
  {content : PageId → Option NodePage} {t : BPlusTree.Rooted Bytes Bytes}
  {m m' : SortedMap Bytes Bytes} {p p' : BufferPool S} {E : Prop}

/-- Between two calls the pool holds a tree with the entries of the map. The ids below
`first` are in use. -/
def HoldsMap (M : NodeStore S) (capacity first room : Nat) (m : SortedMap Bytes Bytes)
    (p : BufferPool S) : Prop :=
  ∃ content next t, first ≤ next ∧ TreeRep content next t ∧
    Quiet M capacity content next room p ∧ t.tree.toList = m.entries

theorem HoldsMap.mono {first' : Nat} (h : HoldsMap M capacity first room m p)
    (hle : first' ≤ first) : HoldsMap M capacity first' room m p := by
  obtain ⟨content, next, t, hfirst, h⟩ := h
  exact ⟨content, next, t, hle.trans hfirst, h⟩

theorem depth_lt_fuel (ht : TreeRep content next t) (hfuel : 2 ^ 64 ≤ fuel) : t.depth < fuel :=
  ht.wf.depth_lt.trans_le (ht.limit.trans hfuel)

/-- The tree with the next free id after a call, if the call can be made. -/
def after (t : BPlusTree.Rooted Bytes Bytes) (next : Nat) :
    TreeCall → Option (BPlusTree.Rooted Bytes Bytes × Nat)
  | .insert key value => BPlusTree.put pageCapacity key value t next
  | .delete key => some ((BPlusTree.remove key t).getD t, next)
  | _ => some (t, next)

/-- The pool holds the tree that a call makes, with the entries of the map. -/
def Becomes (M : NodeStore S) (capacity room : Nat) (t : BPlusTree.Rooted Bytes Bytes) (next : Nat)
    (c : TreeCall) (m : SortedMap Bytes Bytes) (p : BufferPool S) : Prop :=
  ∃ t' next' content', after t next c = some (t', next') ∧ next ≤ next' ∧
    TreeRep content' next' t' ∧ Quiet M capacity content' next' room p ∧ t'.tree.toList = m.entries

theorem Becomes.holds {c : TreeCall} (h : Becomes M capacity room t next c m p) :
    HoldsMap M capacity next room m p := by
  obtain ⟨t', next', content', -, hle, ht', hq', hm⟩ := h
  exact ⟨content', next', t', hle, ht', hq', hm⟩

/-- A call returns what the map does and makes the tree that it should, unless there is no
room for an entry or for the writes. -/
theorem exec_becomes_unless (hcap : 2 ≤ capacity) (ht : TreeRep content next t)
    (hm : t.tree.toList = m.entries) (c : TreeCall) : ∃ cost, ∀ fuel room p, 2 ^ 64 ≤ fuel →
    Quiet M capacity content next room p → (room < cost → E) → (after t next c = none → E) →
    Proc.Unless E (c.exec fuel) p (fun r p' => r = (c.refer m).1 ∧
      Becomes M capacity (room - cost) t next c (c.refer m).2 p') := by
  cases c with
  | insert key value =>
      refine ⟨3 * t.depth + 5, fun fuel room p hfuel h hE hnone => ?_⟩
      refine Proc.Unless.bind (insert_unless hcap (depth_lt_fuel ht hfuel) h ht hE hnone) ?_
      rintro - p' ⟨t', next', content', hput, ht', h'⟩
      have hnext := (BPlusTree.ids_put hput).1
      refine (Proc.returns_pure ⟨rfl, t', next', content', hput, hnext, ht', h', ?_⟩).unless E
      rw [ht.wf.toList_put hput, hm]
      rfl
  | delete key =>
      refine ⟨2 * t.depth + 4, fun fuel room p hfuel h hE _ => ?_⟩
      refine Proc.Unless.bind (delete_unless hcap (depth_lt_fuel ht hfuel) h ht hE) ?_
      have hsome := ht.wf.remove_isSome key
      rw [hm] at hsome
      rintro found p' (⟨hrem, rfl, h'⟩ | ⟨t', content', hrem, rfl, ht', h'⟩)
      · rw [hrem] at hsome
        have hnone : m.get? key = none := Option.isNone_iff_eq_none.mp (by
          rw [← Option.not_isSome, SortedMap.get?, ← hsome]
          rfl)
        refine (Proc.returns_pure ⟨?_, t, next, content, ?_, le_rfl, ht, h', ?_⟩).unless E
        · rw [TreeCall.refer, hnone]
          rfl
        · rw [after, hrem]
          rfl
        · rw [hm, TreeCall.refer, SortedMap.erase_of_get?_none hnone]
      · rw [hrem] at hsome
        refine (Proc.returns_pure ⟨?_, t', next, content', ?_, le_rfl, ht', h', ?_⟩).unless E
        · rw [TreeCall.refer, SortedMap.get?, ← hsome]
          rfl
        · rw [after, hrem]
          rfl
        · rw [ht.wf.toList_remove hrem, hm]
          rfl
  | get key =>
      refine ⟨t.depth + 2, fun fuel room p hfuel h hE _ => ?_⟩
      refine Proc.Unless.bind (get_unless hcap (depth_lt_fuel ht hfuel) h ht key hE) ?_
      rintro _ p' ⟨rfl, h'⟩
      refine (Proc.returns_pure ⟨?_, t, next, content, rfl, le_rfl, ht, h', hm⟩).unless E
      rw [hm]
      rfl
  | scanAll =>
      refine ⟨t.tree.ids.length + 1, fun fuel room p hfuel h hE _ => ?_⟩
      refine Proc.Unless.bind (scanAll_unless hcap (depth_lt_fuel ht hfuel) h ht hE) ?_
      rintro _ p' ⟨rfl, h'⟩
      refine (Proc.returns_pure ⟨?_, t, next, content, rfl, le_rfl, ht, h', hm⟩).unless E
      rw [hm]
      rfl

theorem exec_unless (hcap : 2 ≤ capacity) (ht : TreeRep content next t)
    (hm : t.tree.toList = m.entries) (c : TreeCall) : ∃ cost, ∀ fuel room p, 2 ^ 64 ≤ fuel →
    Quiet M capacity content next room p → (room < cost → E) → (after t next c = none → E) →
    Proc.Unless E (c.exec fuel) p (fun r p' => r = (c.refer m).1 ∧
      HoldsMap M capacity next (room - cost) (c.refer m).2 p') := by
  obtain ⟨cost, hexec⟩ := exec_becomes_unless (M := M) (E := E) hcap ht hm c
  refine ⟨cost, fun fuel room p hfuel h hE hnone => ?_⟩
  exact (hexec fuel room p hfuel h hE hnone).mono (fun _ _ h' => ⟨h'.1, h'.2.holds⟩) (fun hE => hE)

theorem after_eq_none {c : TreeCall} (h : after t next c = none) : ∃ k v, c = .insert k v := by
  cases c with
  | insert k v => exact ⟨k, v, rfl⟩
  | delete k => cases h
  | get k => cases h
  | scanAll => cases h

theorem HoldsMap.step (hcap : 2 ≤ capacity) (hfuel : 2 ^ 64 ≤ fuel) (h : HoldsMap M capacity first 0 m p)
    {c : TreeCall} {r : TreeReply} (hcall : c.exec fuel p = (.ok r, p')) :
    r = (c.refer m).1 ∧ HoldsMap M capacity first 0 (c.refer m).2 p' := by
  obtain ⟨content, next, t, hfirst, ht, hq, hm⟩ := h
  obtain ⟨cost, hexec⟩ := exec_unless (M := M) (E := True) hcap ht hm c
  have hpost := (hexec fuel 0 p hfuel hq (fun _ => trivial) (fun _ => trivial)).ok hcall
  rw [Nat.zero_sub] at hpost
  exact ⟨hpost.1, hpost.2.mono hfirst⟩

theorem openTree_eq (s : S) (hcap : 2 ≤ capacity) : ∃ p, BufferPool.new (ε := ε) s capacity = .ok p ∧
    openTree (ε := ε) s capacity = ((setUp p).1, some (setUp p).2) := by
  have hnew : BufferPool.new (ε := ε) s capacity = .ok ⟨s, capacity, [], .empty, 0⟩ := by
    rw [BufferPool.new, if_pos (Nat.zero_lt_of_lt hcap)]
  refine ⟨_, hnew, ?_⟩
  rw [openTree, hnew]

theorem holdsMap_empty (h : Quiet M capacity emptyContent 2 room p) :
    HoldsMap M capacity 2 room .empty p :=
  ⟨emptyContent, 2, emptyTree, le_rfl, treeRep_empty, h, rfl⟩

theorem openTree_new (hcap : 2 ≤ capacity) {s : S} (hs : M.Rep s (fun _ => none) (1, room)) :
    ∃ p, openTree (ε := ε) s capacity = ((setUp p).1, some (setUp p).2) ∧
      Proc.Unless (room < 2) setUp p (fun _ p' => Quiet M capacity emptyContent 2 (room - 2) p') := by
  obtain ⟨p, hnew, hopen⟩ := openTree_eq (ε := ε) s hcap
  exact ⟨p, hopen, setUp_new hcap (BufferPool.new_held hs hnew) (fun hr => hr)⟩

theorem openTree_new_ok (hcap : 2 ≤ capacity) {s : S} (hs : M.Rep s (fun _ => none) (1, 0))
    (hopen : openTree (ε := ε) s capacity = (.ok (), some p)) :
    Quiet M capacity emptyContent 2 0 p := by
  obtain ⟨p₁, heq, hsetUp⟩ := openTree_new hcap hs
  rw [hopen] at heq
  obtain ⟨hok, hp⟩ := Prod.mk.inj heq
  cases Option.some.inj hp
  exact hsetUp.ok (Prod.ext hok.symm rfl)

/-- A call returns when the store has room and an entry can be inserted. -/
theorem exec_becomes (hcap : 2 ≤ capacity) (ht : TreeRep content next t)
    (hq : Quiet M capacity content next 0 p) (hm : t.tree.toList = m.entries) {c : TreeCall}
    (hc : after t next c ≠ none) : ∃ cost, ∀ fuel room, 2 ^ 64 ≤ fuel → cost ≤ room →
    M.Roomy p.store room → ∃ p', c.exec fuel p = (.ok (c.refer m).1, p') ∧
      Becomes M capacity (room - cost) t next c (c.refer m).2 p' := by
  obtain ⟨cost, hexec⟩ := exec_becomes_unless (M := M) (E := False) hcap ht hm c
  refine ⟨cost, fun fuel room hfuel hle hroom => ?_⟩
  obtain ⟨r, p', hcall, rfl, h'⟩ := (hexec fuel room p hfuel (hq.refill hroom)
    (fun hlt => absurd hlt hle.not_gt) hc).returns not_false
  exact ⟨p', hcall, h'⟩

theorem exec_returns (hcap : 2 ≤ capacity) (ht : TreeRep content next t)
    (hq : Quiet M capacity content next 0 p) (hm : t.tree.toList = m.entries) {c : TreeCall}
    (hc : after t next c ≠ none) : ∃ cost, ∀ fuel room, 2 ^ 64 ≤ fuel → cost ≤ room →
    M.Roomy p.store room → ∃ p', c.exec fuel p = (.ok (c.refer m).1, p') ∧
      HoldsMap M capacity next (room - cost) (c.refer m).2 p' := by
  obtain ⟨cost, hexec⟩ := exec_becomes hcap ht hq hm hc
  refine ⟨cost, fun fuel room hfuel hle hroom => ?_⟩
  obtain ⟨p', hcall, h'⟩ := hexec fuel room hfuel hle hroom
  exact ⟨p', hcall, h'.holds⟩

end BTree

def MemPageStore.nodes : NodeStore MemPageStore where
  toNumberedStore := MemPageStore.numbered NodePage.Shown NodePage.blank NodePage.shown_new
  shows_iff := Iff.rfl
  blank_eq _ := rfl

theorem MemPageStore.nodes_roomy (s : MemPageStore) (room : Nat) :
    MemPageStore.nodes.Roomy s room := fun h => h

theorem MemPageStore.exec_becomes {capacity fuel next : Nat} {content : PageId → Option NodePage}
    {t : BPlusTree.Rooted Bytes Bytes} {m : SortedMap Bytes Bytes} {p : BufferPool MemPageStore}
    (hcap : 2 ≤ capacity) (hfuel : 2 ^ 64 ≤ fuel) (ht : TreeRep content next t)
    (hq : BTree.Quiet MemPageStore.nodes capacity content next 0 p)
    (hm : t.tree.toList = m.entries) {c : TreeCall} (hc : BTree.after t next c ≠ none) :
    ∃ p', c.exec fuel p = (.ok (c.refer m).1, p') ∧
      BTree.Becomes MemPageStore.nodes capacity 0 t next c (c.refer m).2 p' := by
  obtain ⟨cost, hexec⟩ := BTree.exec_becomes hcap ht hq hm hc
  have hcall := hexec fuel cost hfuel le_rfl (MemPageStore.nodes_roomy _ _)
  rwa [Nat.sub_self] at hcall

theorem MemPageStore.exec_returns {capacity fuel next : Nat} {content : PageId → Option NodePage}
    {t : BPlusTree.Rooted Bytes Bytes} {m : SortedMap Bytes Bytes} {p : BufferPool MemPageStore}
    (hcap : 2 ≤ capacity) (hfuel : 2 ^ 64 ≤ fuel) (ht : TreeRep content next t)
    (hq : BTree.Quiet MemPageStore.nodes capacity content next 0 p)
    (hm : t.tree.toList = m.entries) {c : TreeCall} (hc : BTree.after t next c ≠ none) :
    ∃ p', c.exec fuel p = (.ok (c.refer m).1, p') ∧
      BTree.HoldsMap MemPageStore.nodes capacity next 0 (c.refer m).2 p' := by
  obtain ⟨cost, hexec⟩ := BTree.exec_returns hcap ht hq hm hc
  have hcall := hexec fuel cost hfuel le_rfl (MemPageStore.nodes_roomy _ _)
  rwa [Nat.sub_self] at hcall

theorem MemPageStore.nodes_new (room : Nat) :
    MemPageStore.nodes.Rep MemPageStore.new (fun _ => none) (1, room) :=
  ⟨rfl, fun _ => .none⟩

theorem MemPageStore.openTree_ok {capacity : Nat} (hcap : 2 ≤ capacity) :
    ∃ p₀, BTree.openTree MemPageStore.new capacity = (.ok (), some p₀) ∧
      BTree.Quiet MemPageStore.nodes capacity BTree.emptyContent 2 0 p₀ := by
  obtain ⟨p, hopen, hsetUp⟩ := BTree.openTree_new hcap (MemPageStore.nodes_new 2)
  obtain ⟨_, p₀, hset, h₀⟩ := hsetUp.returns (lt_irrefl 2)
  exact ⟨p₀, by rw [hopen, hset], h₀⟩

theorem BTree.nextId_quiet {capacity next : Nat} {content : PageId → Option NodePage}
    {p : BufferPool MemPageStore} (hq : BTree.Quiet MemPageStore.nodes capacity content next 0 p) :
    p.store.nextId = next := by
  obtain ⟨-, disk, hrep⟩ := hq
  exact hrep.stored.1

/-- The calls with the replies of the map. -/
def TreeCall.answered {ε : Type} (m : SortedMap Bytes Bytes) : List TreeCall → List (TreeEvent ε)
  | [] => []
  | c :: calls => (c, .ok (c.refer m).1) :: answered (c.refer m).2 calls

theorem TreeCall.map_answered {ε : Type} (m : SortedMap Bytes Bytes) (calls : List TreeCall) :
    (TreeCall.answered (ε := ε) m calls).map Prod.fst = calls := by
  induction calls generalizing m with
  | nil => rfl
  | cons c calls ih => exact congrArg (c :: ·) (ih _)

/-- Calls that the tree can take make a run, in which ids are only added. -/
theorem MemPageStore.run_returns {capacity fuel next next' : Nat}
    {content : PageId → Option NodePage} {t t' : BPlusTree.Rooted Bytes Bytes}
    {m : SortedMap Bytes Bytes} {p : BufferPool MemPageStore} (hcap : 2 ≤ capacity)
    (hfuel : 2 ^ 64 ≤ fuel) (ht : TreeRep content next t)
    (hq : BTree.Quiet MemPageStore.nodes capacity content next 0 p)
    (hm : t.tree.toList = m.entries) {calls : List TreeCall}
    (h : calls.foldlM (fun s c => BTree.after s.1 s.2 c) (t, next) = some (t', next')) :
    ∃ p' content', Run (Under (fun q _ => q.store.nextId ≤ next') (TreeStep fuel)) p
        (TreeCall.answered m calls) p' ∧ TreeRep content' next' t' ∧
      BTree.Quiet MemPageStore.nodes capacity content' next' 0 p' ∧ next ≤ next' := by
  induction calls generalizing t next content m p with
  | nil =>
      cases h
      exact ⟨p, content, .nil, ht, hq, le_rfl⟩
  | cons c calls ih =>
      rw [List.foldlM_cons] at h
      obtain ⟨⟨t₁, next₁⟩, hafter, hrest⟩ := Option.bind_eq_some_iff.mp h
      obtain ⟨p₁, hcall, t₂, next₂, content₁, hafter₂, hnext, ht₁, hq₁, hm₁⟩ :=
        MemPageStore.exec_becomes hcap hfuel ht hq hm (c := c)
          (by rw [hafter]; exact Option.some_ne_none _)
      rw [hafter] at hafter₂
      cases hafter₂
      obtain ⟨p', content', hrun, ht', hq', hle⟩ := ih ht₁ hq₁ hm₁ hrest
      have hids : p.store.nextId ≤ next' := (BTree.nextId_quiet hq).trans_le (hnext.trans hle)
      have hfirst : Run (Under (fun q _ => q.store.nextId ≤ next') (TreeStep fuel)) p
          [(c, .ok (c.refer m).1)] p₁ := Run.nil.snoc ⟨hids, hcall⟩
      exact ⟨p', content', hfirst.append hrun, ht', hq', hnext.trans hle⟩

section Runs
variable {S ε : Type} [PageStore S ε] {capacity fuel first : Nat}
open BTree

/-- No insertion of the run failed. -/
def InsertsOk (events : List (TreeEvent ε)) : Prop :=
  ∀ e ∈ events, ∀ key value, e.1 = .insert key value → e.2.isOk

theorem BTree.HoldsMap.mem_step (hcap : 2 ≤ capacity) (hfuel : 2 ^ 64 ≤ fuel)
    {m : SortedMap Bytes Bytes} {p p' : BufferPool MemPageStore}
    (h : HoldsMap MemPageStore.nodes capacity first 0 m p) {e : TreeEvent Empty} (hok : InsertsOk [e])
    (hstep : TreeStep fuel p e p') :
    ∃ m', ReferStep m e m' ∧ HoldsMap MemPageStore.nodes capacity first 0 m' p' := by
  obtain ⟨c, o⟩ := e
  have hcall : c.exec fuel p = (o, p') := hstep
  obtain ⟨content, next, t, hfirst, ht, hq, hm⟩ := h
  by_cases hc : after t next c = none
  · obtain ⟨k, v, rfl⟩ := after_eq_none hc
    have hins := hok _ (List.mem_singleton_self _) k v rfl
    cases o with
    | ok r =>
        obtain ⟨rfl, h'⟩ := HoldsMap.step hcap hfuel ⟨content, next, t, hfirst, ht, hq, hm⟩ hcall
        exact ⟨_, ⟨rfl, rfl⟩, h'⟩
    | err x => cases hins
    | panic => cases hins
  · obtain ⟨p'', hcall', h'⟩ := MemPageStore.exec_returns hcap hfuel ht hq hm hc
    rw [hcall] at hcall'
    cases hcall'
    exact ⟨_, ⟨rfl, rfl⟩, h'.mono hfirst⟩

/-- The B+tree is a sorted map: `open` succeeds on an empty store, and in every run in which
no insertion fails the calls have the outcomes of a sorted map, `scan_all` returning its
entries in ascending order. -/
theorem btree_refines_map (hcap : 2 ≤ capacity) (hfuel : 2 ^ 64 ≤ fuel) :
    ∃ p₀, openTree MemPageStore.new capacity = (.ok (), some p₀) ∧
      ∀ events p, Run (TreeStep fuel) p₀ events p → InsertsOk events →
        ∃ m, Run ReferStep .empty events m := by
  obtain ⟨p₀, hopen, h₀⟩ := MemPageStore.openTree_ok hcap
  refine ⟨p₀, hopen, fun events p hrun hok => ?_⟩
  let I : List (TreeEvent Empty) → BufferPool MemPageStore → Prop := fun hist p =>
    InsertsOk hist → ∃ m, Run ReferStep .empty hist m ∧ HoldsMap MemPageStore.nodes capacity 2 0 m p
  have hI : I events p := by
    refine hrun.invariant_history (fun _ => ⟨.empty, .nil, holdsMap_empty h₀⟩) (fun hist a e b ih hstep hok => ?_)
    obtain ⟨m, hm, ha⟩ := ih (fun x hx => hok x (List.mem_append_left _ hx))
    obtain ⟨m', hstep', hb⟩ := ha.mem_step hcap hfuel
      (fun x hx => hok x (List.mem_append_right _ hx)) hstep
    exact ⟨m', hm.snoc hstep', hb⟩
  obtain ⟨m, hm, -⟩ := hI hok
  exact ⟨m, hm⟩

/-- The second of these makes the leaf split. -/
def wideValue : Bytes := List.replicate 2500 0

/-- A leaf splits, and one of the halves is emptied again. -/
def splitAndEmptied : List (TreeEvent Empty) :=
  [(.insert [1] wideValue, .ok .done), (.insert [2] wideValue, .ok .done),
    (.get [1], .ok (.value (some wideValue))), (.delete [1], .ok (.found true)),
    (.get [1], .ok (.value none)), (.scanAll, .ok (.entries [([2], wideValue)]))]

/-- A pool of two frames. -/
theorem btree_refines_map_split : ∃ p₀ p : BufferPool MemPageStore, ∃ m,
    openTree MemPageStore.new 2 = (.ok (), some p₀) ∧
    Run (TreeStep (2 ^ 64)) p₀ splitAndEmptied p ∧ Run ReferStep .empty splitAndEmptied m := by
  obtain ⟨p₀, hopen, hall⟩ := btree_refines_map (le_refl 2) (le_refl (2 ^ 64))
  have h₀ := openTree_new_ok (le_refl 2) (MemPageStore.nodes_new 0) hopen
  have hsome : ((splitAndEmptied.map Prod.fst).foldlM (fun s c => after s.1 s.2 c)
      (emptyTree, 2)).isSome = true := by
    decide +kernel
  obtain ⟨_, hafter⟩ := Option.isSome_iff_exists.mp hsome
  obtain ⟨p, _, hrun, -⟩ := MemPageStore.run_returns (le_refl 2) (le_refl (2 ^ 64)) treeRep_empty h₀
    (m := .empty) rfl hafter
  have hsteps : Run (TreeStep (2 ^ 64)) p₀ splitAndEmptied p := hrun.mono (fun _ _ _ h => h.2)
  have hok : InsertsOk splitAndEmptied := by
    simp [InsertsOk, splitAndEmptied, Outcome.isOk]
  obtain ⟨m, hm⟩ := hall _ p hsteps hok
  exact ⟨p₀, p, m, hopen, hsteps, hm⟩

def TreeEvent.Changes : TreeEvent ε → Prop
  | (.insert _ _, .ok _) => True
  | (.delete _, .ok _) => True
  | _ => False

theorem TreeEvent.Changes.ok {e : TreeEvent ε} (h : e.Changes) : ∃ r, e.2 = .ok r := by
  obtain ⟨c, o⟩ := e
  cases o with
  | ok r => exact ⟨r, rfl⟩
  | err x => cases c <;> cases h
  | panic => cases c <;> cases h

abbrev ChangeStep (fuel : Nat) : BufferPool S → TreeEvent ε → BufferPool S → Prop :=
  Under (fun _ e => e.Changes) (TreeStep fuel)

theorem BTree.HoldsMap.changes {M : NodeStore S} (hcap : 2 ≤ capacity) (hfuel : 2 ^ 64 ≤ fuel)
    {m : SortedMap Bytes Bytes} {p p' : BufferPool S} {events : List (TreeEvent ε)}
    (h : HoldsMap M capacity first 0 m p) (hrun : Run (ChangeStep fuel) p events p') :
    HoldsMap M capacity first 0 (events.foldl (fun m e => (e.1.refer m).2) m) p' := by
  refine hrun.invariant_history (I := fun hist q =>
    HoldsMap M capacity first 0 (hist.foldl (fun m e => (e.1.refer m).2) m) q) h ?_
  intro hist a e b ha hstep
  obtain ⟨hchanges, hcall⟩ := hstep
  obtain ⟨r, hr⟩ := hchanges.ok
  rw [TreeStep, hr] at hcall
  rw [List.foldl_append]
  exact (ha.step hcap hfuel hcall).2

theorem BTree.change_step {M : NodeStore S} (hcap : 2 ≤ capacity) (hfuel : 2 ^ 64 ≤ fuel)
    {content : PageId → Option NodePage} {next : Nat} {t : BPlusTree.Rooted Bytes Bytes}
    {p p' : BufferPool S} {e : TreeEvent ε} (ht : TreeRep content next t)
    (hq : Quiet M capacity content next 0 p) (hstep : ChangeStep fuel p e p') :
    ∃ t' next' content', after t next e.1 = some (t', next') ∧ TreeRep content' next' t' ∧
      Quiet M capacity content' next' 0 p' := by
  obtain ⟨hchanges, hcall⟩ := hstep
  obtain ⟨r, hr⟩ := hchanges.ok
  rw [TreeStep, hr] at hcall
  obtain ⟨cost, hexec⟩ := exec_becomes_unless (M := M) (E := True) hcap ht
    (m := ⟨t.tree.toList, ht.wf.ordered.ascending⟩) rfl e.1
  obtain ⟨-, t', next', content', hafter, -, ht', hq', -⟩ :=
    (hexec fuel 0 p hfuel hq (fun _ => trivial) (fun _ => trivial)).ok hcall
  rw [Nat.zero_sub] at hq'
  exact ⟨t', next', content', hafter, ht', hq'⟩

def TreeCall.changes : TreeCall → Bool
  | .insert _ _ | .delete _ => true
  | .get _ | .scanAll => false

omit [PageStore S ε] in
theorem TreeCall.changes_ok {c : TreeCall} (h : c.changes = true) (r : TreeReply) :
    TreeEvent.Changes (ε := ε) (c, .ok r) := by
  cases c with
  | insert key value => trivial
  | delete key => trivial
  | get key => cases h
  | scanAll => cases h

omit [PageStore S ε] in
theorem TreeCall.changes_answered {calls : List TreeCall} (m : SortedMap Bytes Bytes)
    (hcalls : ∀ c ∈ calls, c.changes = true) :
    ∀ e ∈ TreeCall.answered (ε := ε) m calls, e.Changes := by
  induction calls generalizing m with
  | nil => exact List.forall_mem_nil _
  | cons c calls ih =>
      obtain ⟨hc, hrest⟩ := List.forall_mem_cons.mp hcalls
      exact List.forall_mem_cons.mpr ⟨TreeCall.changes_ok hc _, ih _ hrest⟩

theorem BTree.change_run (hcap : 2 ≤ capacity) (hfuel : 2 ^ 64 ≤ fuel) {calls : List TreeCall}
    {t' : BPlusTree.Rooted Bytes Bytes} {next' : Nat} {p₀ : BufferPool MemPageStore}
    (hq₀ : Quiet MemPageStore.nodes capacity emptyContent 2 0 p₀)
    (hcalls : ∀ c ∈ calls, c.changes = true)
    (h : calls.foldlM (fun s c => after s.1 s.2 c) (emptyTree, 2) = some (t', next')) :
    ∃ p content,
      Run (Under (fun q _ => q.store.nextId ≤ next') (ChangeStep fuel)) p₀
        (TreeCall.answered .empty calls) p ∧
      TreeRep content next' t' ∧ Quiet MemPageStore.nodes capacity content next' 0 p := by
  obtain ⟨p, content, hrun, ht, hq, -⟩ := MemPageStore.run_returns hcap hfuel treeRep_empty hq₀
    (m := .empty) rfl h
  refine ⟨p, content, hrun.mono_mem ?_, ht, hq⟩
  rintro a e b he ⟨hids, hstep⟩
  exact ⟨hids, TreeCall.changes_answered _ hcalls e he, hstep⟩

section Reads
variable {α : Type} {M : NodeStore S} {m : SortedMap Bytes Bytes} {p : BufferPool S}
  {content : PageId → Option NodePage} {next : Nat}

/-- With enough fuel a program returns nothing but the value, and it does return if the store
has room for the dirty pages that may be evicted. -/
def Answers (M : NodeStore S) (p : BufferPool S) (x : Nat → BTree.Op S ε α) (a : α) : Prop :=
  ∃ N, ∀ fuel, N ≤ fuel → (∀ r p', x fuel p = (.ok r, p') → r = a) ∧
    (M.Roomy p.store N → ∃ p', x fuel p = (.ok a, p'))

theorem BTree.Yields.answers {x : Nat → BTree.Op S ε α} {a : α} {cost : Nat}
    (hx : Yields M capacity content next x a cost) (hq : Quiet M capacity content next 0 p) :
    Answers M p x a := by
  refine ⟨cost, fun fuel hfuel => ⟨fun r p' hcall => ?_, fun hroom => ?_⟩⟩
  · exact ((hx True fuel 0 p hfuel hq (fun _ => trivial)).ok hcall).1
  · obtain ⟨_, p', hcall, rfl, -⟩ := (hx False fuel cost p hfuel (hq.refill hroom)
      (fun hlt => absurd hlt (lt_irrefl _))).returns not_false
    exact ⟨p', hcall⟩

theorem BTree.HoldsMap.get (hcap : 2 ≤ capacity) (h : HoldsMap M capacity first 0 m p)
    (key : Bytes) : Answers (ε := ε) M p (fun n => get n key) (m.get? key) := by
  obtain ⟨content, next, t, -, ht, hq, hm⟩ := h
  rw [SortedMap.get?, ← hm]
  have hyields : Yields (ε := ε) M capacity content next (fun n => BTree.get n key) _ (t.depth + 2) :=
    fun E n room p hn h => get_unless hcap (by omega) h ht key
  exact hyields.answers hq

theorem BTree.HoldsMap.scanAll (hcap : 2 ≤ capacity) (h : HoldsMap M capacity first 0 m p) :
    Answers (ε := ε) M p scanAll m.entries := by
  obtain ⟨content, next, t, -, ht, hq, hm⟩ := h
  rw [← hm]
  have hyields : Yields (ε := ε) M capacity content next BTree.scanAll _ (t.tree.ids.length + 1) :=
    fun E n room p hn h => scanAll_unless hcap
      ((BPlusTree.depth_lt_length_ids t.tree).trans_le (Nat.le_of_succ_le hn)) h ht
  exact hyields.answers hq

theorem BTree.HoldsMap.scanRange (hcap : 2 ≤ capacity) (h : HoldsMap M capacity first 0 m p)
    (start stop : Bytes) : Answers (ε := ε) M p (fun n => scanRange n start stop)
      (m.entries.filter (inRange start stop)) := by
  obtain ⟨content, next, t, -, ht, hq, hm⟩ := h
  obtain ⟨cost, hyields⟩ := scanRange_yields (ε := ε) M hcap ht start stop
  rw [← hm]
  exact hyields.answers hq

end Reads

/-- After any successful insertions and deletions on a tree that was created on any page
store, `scan_range` comes to an end and returns the entries of `scan_all` in the range. -/
theorem scan_range_eq_scan_all (M : NodeStore S) (hcap : 2 ≤ capacity) (hfuel : 2 ^ 64 ≤ fuel)
    {s : S} (hs : M.Rep s (fun _ => none) (1, 0)) {p₀ p : BufferPool S}
    (hopen : openTree s capacity = (.ok (), some p₀)) {events : List (TreeEvent ε)}
    (hrun : Run (ChangeStep fuel) p₀ events p) (start stop : Bytes) :
    ∃ entries, Answers (ε := ε) M p scanAll entries ∧
      Answers (ε := ε) M p (fun n => scanRange n start stop)
        (entries.filter (fun e => start ≤ e.1 ∧ e.1 < stop)) := by
  have h := (holdsMap_empty (openTree_new_ok hcap hs hopen)).changes hcap hfuel hrun
  refine ⟨_, h.scanAll hcap, ?_⟩
  have hfilter : (fun e : Entry => decide (start ≤ e.1 ∧ e.1 < stop)) = inRange start stop := by
    funext e
    exact Bool.decide_and _ _
  rw [hfilter]
  exact h.scanRange hcap start stop

/-- Two leaves split, and one of the three is emptied again. -/
def threeLeaves : List TreeCall :=
  [.insert [1] wideValue, .insert [2] wideValue, .insert [3] wideValue, .delete [2]]

def threeLeavesEvents : List (TreeEvent Empty) :=
  [(.insert [1] wideValue, .ok .done), (.insert [2] wideValue, .ok .done),
    (.insert [3] wideValue, .ok .done), (.delete [2], .ok (.found true))]

/-- The tree then has the first and the last of the leaves. -/
theorem three_leaves_run : ∃ (p₀ p : BufferPool MemPageStore),
    openTree MemPageStore.new 2 = (.ok (), some p₀) ∧
    Run (ChangeStep (2 ^ 64)) p₀ threeLeavesEvents p := by
  obtain ⟨p₀, hopen, hq₀⟩ := MemPageStore.openTree_ok (le_refl 2)
  have hsome : (threeLeaves.foldlM (fun s c => after s.1 s.2 c) (emptyTree, 2)).isSome = true := by
    decide +kernel
  obtain ⟨_, hafter⟩ := Option.isSome_iff_exists.mp hsome
  obtain ⟨p, _, hrun, -⟩ := change_run (le_refl 2) (le_refl (2 ^ 64)) hq₀ (by decide) hafter
  exact ⟨p₀, p, hopen, hrun.mono (fun _ _ _ h => h.2)⟩

/-- A range from the first leaf to the last, over the one that was emptied. -/
theorem scan_range_eq_scan_all_deleted : ∃ (p₀ p : BufferPool MemPageStore) (entries : List Entry),
    openTree MemPageStore.new 2 = (.ok (), some p₀) ∧
    Run (ChangeStep (2 ^ 64)) p₀ threeLeavesEvents p ∧
    Answers MemPageStore.nodes p scanAll entries ∧
    Answers MemPageStore.nodes p (fun n => scanRange n [1] [4])
      (entries.filter (fun e => [1] ≤ e.1 ∧ e.1 < [4])) := by
  obtain ⟨p₀, p, hopen, hrun⟩ := three_leaves_run
  obtain ⟨entries, hall, hrange⟩ := scan_range_eq_scan_all MemPageStore.nodes (le_refl 2)
    (le_refl (2 ^ 64)) (MemPageStore.nodes_new 0) hopen hrun [1] [4]
  exact ⟨p₀, p, entries, hopen, hrun, hall, hrange⟩

end Runs
end Sietch
