import Sietch.BTreeRoom
import Sietch.IndexedStore
import Sietch.StoreRuns
import Sietch.TreeSessions

/-! The tree of an indexed store. Its map has the last record of every key, and its sentinel
says how many records of the log it has. The calls on the tree return unless `E` holds: when
`E` is true the rules are of partial correctness, and when it is false the tree must have room
for the calls, and be light for an insertion. The tree is light when `small` is true, for which
the entries must be small. -/
namespace Sietch
open ByteString
open BTree (Quiet)

/-- Room for a number of calls on a tree, and for `spare` writes after them. -/
structure Ready (capacity calls spare : Nat) (t : BPlusTree.Rooted Bytes Bytes)
    (next room : Nat) : Prop where
  frames : 2 ≤ capacity
  ids : next + calls * (t.depth + calls + 2) < 2 ^ 64
  writes : calls * (3 * (t.depth + calls) + 5) + spare ≤ room

namespace Ready
variable {capacity calls spare next room : Nat} {t : BPlusTree.Rooted Bytes Bytes}
  {content : PageId → Option NodePage} {key value : Bytes}

theorem mono {calls' spare' : Nat} (h : Ready capacity calls' spare' t next room)
    (hcalls : calls ≤ calls') (hspare : spare ≤ spare') : Ready capacity calls spare t next room := by
  have hids := h.ids
  have hwrites := h.writes
  refine ⟨h.frames, ?_, ?_⟩
  · have hmul := Nat.mul_le_mul hcalls
      (show t.depth + calls + 2 ≤ t.depth + calls' + 2 by omega)
    omega
  · have hmul := Nat.mul_le_mul hcalls
      (show 3 * (t.depth + calls) + 5 ≤ 3 * (t.depth + calls') + 5 by omega)
    omega

theorem of_depth_le {bound : Nat} (hcap : 2 ≤ capacity) (hdepth : t.depth ≤ bound)
    (hids : next + calls * (bound + calls + 2) < 2 ^ 64)
    (hwrites : calls * (3 * (bound + calls) + 5) + spare ≤ room) :
    Ready capacity calls spare t next room := by
  refine ⟨hcap, ?_, ?_⟩
  · have hmul := Nat.mul_le_mul_left calls
      (show t.depth + calls + 2 ≤ bound + calls + 2 by omega)
    omega
  · have hmul := Nat.mul_le_mul_left calls
      (show 3 * (t.depth + calls) + 5 ≤ 3 * (bound + calls) + 5 by omega)
    omega

theorem call (h : Ready capacity (calls + 1) spare t next room)
    {t' : BPlusTree.Rooted Bytes Bytes} {next' room' : Nat} (hdepth : t'.depth ≤ t.depth + 1)
    (hnext : next' ≤ next + (t.depth + 2)) (hroom : room ≤ room' + (3 * t.depth + 5)) :
    Ready capacity calls spare t' next' room' := by
  have hids := h.ids
  have hwrites := h.writes
  rw [Nat.succ_mul] at hids hwrites
  refine ⟨h.frames, ?_, ?_⟩
  · have hmul := Nat.mul_le_mul_left calls
      (show t'.depth + calls + 2 ≤ t.depth + (calls + 1) + 2 by omega)
    omega
  · have hmul := Nat.mul_le_mul_left calls
      (show 3 * (t'.depth + calls) + 5 ≤ 3 * (t.depth + (calls + 1)) + 5 by omega)
    omega

theorem read (h : Ready capacity (calls + 1) spare t next room) :
    Ready capacity calls spare t next (room - (t.depth + 2)) :=
  h.call (Nat.le_succ _) (Nat.le_add_right _ _) (by omega)

theorem room_le (h : Ready capacity (calls + 1) spare t next room) : 3 * t.depth + 5 ≤ room := by
  have hwrites := h.writes
  rw [Nat.succ_mul] at hwrites
  omega

theorem put (h : Ready capacity (calls + 1) spare t next room) (ht : TreeRep content next t)
    (hlight : t.tree.Fits pageWeights.light) (hlen : key.length + value.length ≤ 168) :
    ∃ t' next', BPlusTree.put pageCapacity key value t next = some (t', next') ∧
      Ready capacity calls spare t' next' (room - (3 * t.depth + 5)) := by
  have hids := h.ids
  rw [Nat.succ_mul] at hids
  have hlimit : next + (t.depth + 2) < pageCapacity.limit := by
    simp only [pageCapacity]
    omega
  have hentry : pageWeights.entry (key, value) ≤ pageWeights.maxEntry := by
    simp only [pageWeights]
    omega
  obtain ⟨t', next', hput, -, hdepth, hnext⟩ :=
    BPlusTree.put_light_bounds pageWeights_suits hlight ht.wf.fits hentry hlimit
  exact ⟨t', next', hput, h.call hdepth hnext (by omega)⟩

end Ready

section Service
variable {S ε : Type} [PageStore S ε] {M : NodeStore S} {small E : Prop}
  {capacity calls spare fuel : Nat} {m : SortedMap Bytes Bytes} {p : BufferPool S}
  {key value : Bytes}

/-- The pool holds a tree with the entries of the map. -/
def Serves (M : NodeStore S) (small E : Prop) (capacity calls spare : Nat)
    (m : SortedMap Bytes Bytes) (p : BufferPool S) : Prop :=
  0 < capacity ∧ ∃ content next t room, (small → t.tree.Fits pageWeights.light) ∧
    (E ∨ Ready capacity calls spare t next room) ∧ TreeRep content next t ∧
    Quiet M capacity content next room p ∧ t.tree.toList = m.entries

theorem Serves.mono {calls' spare' : Nat} (h : Serves M small E capacity calls' spare' m p)
    (hcalls : calls ≤ calls') (hspare : spare ≤ spare') :
    Serves M small E capacity calls spare m p := by
  obtain ⟨hpos, content, next, t, room, hlight, hready, hrest⟩ := h
  refine ⟨hpos, content, next, t, room, hlight, hready.imp_right (fun hr => ?_), hrest⟩
  exact hr.mono hcalls hspare

/-- Nothing has to be ready for rules of partial correctness. -/
theorem Serves.free {calls' spare' : Nat} (h : Serves M small True capacity calls' spare' m p)
    (calls spare : Nat) : Serves M small True capacity calls spare m p := by
  obtain ⟨hpos, content, next, t, room, hlight, -, hrest⟩ := h
  exact ⟨hpos, content, next, t, room, hlight, .inl trivial, hrest⟩

theorem Serves.insert (h : Serves M small E capacity (calls + 1) spare m p) (hfuel : 2 ^ 64 ≤ fuel)
    (hkind : E ∨ small) (hlen : small → key.length + value.length ≤ 168) :
    Proc.Unless E (BTree.insert fuel key value) p (fun _ p' =>
      Serves M small E capacity calls spare (m.insert key value) p') := by
  obtain ⟨hpos, content, next, t, room, hlight, hready, ht, hq, hm⟩ := h
  have hput : E ∨ ∃ t' next',
      BPlusTree.put pageCapacity key value t next = some (t', next') ∧
      Ready capacity calls spare t' next' (room - (3 * t.depth + 5)) := by
    rcases hkind with hE | hsmall
    · exact .inl hE
    · exact hready.imp_right (fun hr => hr.put ht (hlight hsmall) (hlen hsmall))
  have htwo : capacity < 2 → E := fun hlt =>
    hready.resolve_right (fun hr => absurd hr.frames hlt.not_ge)
  have hroom : room < 3 * t.depth + 5 → E := fun hlt =>
    hready.resolve_right (fun hr => absurd hr.room_le hlt.not_ge)
  refine (BTree.insert_short hpos htwo (BTree.depth_lt_fuel ht hfuel) hq ht hroom
    (fun hnone => hput.resolve_right ?_)).mono ?_ (fun hE => hE)
  · rintro ⟨t', next', hsome, -⟩
    rw [hnone] at hsome
    cases hsome
  · rintro - p' ⟨t', next', content', hput', ht', hq'⟩
    refine ⟨hpos, content', next', t', _, fun hsmall => ?_, ?_, ht', hq', ?_⟩
    · refine BPlusTree.put_keeps_light pageWeights_suits (hlight hsmall) ?_ hput'
      have hle := hlen hsmall
      simp only [pageWeights]
      omega
    · refine hput.imp_right ?_
      rintro ⟨u, n, hsame, hr⟩
      rw [hput'] at hsame
      cases hsame
      exact hr
    · rw [ht.wf.toList_put hput', hm]
      rfl

theorem Serves.get (h : Serves M small E capacity (calls + 1) spare m p) (hfuel : 2 ^ 64 ≤ fuel)
    (key : Bytes) :
    Proc.Unless E (BTree.get fuel key) p (fun r p' => r = m.get? key ∧
      Serves M small E capacity calls spare m p') := by
  obtain ⟨hpos, content, next, t, room, hlight, hready, ht, hq, hm⟩ := h
  have hroom : room < t.depth + 2 → E := fun hlt =>
    hready.resolve_right (fun hr => absurd hr.room_le (by omega))
  refine (BTree.get_idle (BTree.canPin_pos hpos) (BTree.depth_lt_fuel ht hfuel) hq ht key hroom).mono
    ?_ (fun hE => hE)
  rintro r p' ⟨rfl, hq'⟩
  refine ⟨by rw [hm]; rfl, hpos, content, next, t, _, hlight, ?_, ht, hq', hm⟩
  exact hready.imp_right Ready.read

theorem Serves.entry_le (h : Serves M small E capacity calls spare m p)
    (hmem : (key, value) ∈ m.entries) : key.length + value.length ≤ 4058 := by
  obtain ⟨-, content, next, t, room, -, -, ht, -, hm⟩ := h
  rw [← hm] at hmem
  obtain ⟨l, hl, hmem⟩ := List.mem_flatMap.mp hmem
  exact leaf_entry_le (ht.wf.fits.leaves hl) hmem

end Service

section Durable
variable {S L D ε : Type} [PageStore S ε] {T : DurableStore S L D} {small E : Prop}
  {capacity calls spare fuel : Nat} {m : SortedMap Bytes Bytes} {p q : BufferPool S} {s : S} {d : D}
  {l : L}

/-- The store has the pages of a tree with the entries of the map, or none yet. -/
def Stocked (M : NodeStore S) (small : Prop) (m : SortedMap Bytes Bytes) (s : S) : Prop :=
  (M.Rep s (fun _ => none) (1, 0) ∧ m = .empty) ∨
    ∃ content next t, (small → t.tree.Fits pageWeights.light) ∧ M.Rep s content (next, 0) ∧
      TreeRep content next t ∧ t.tree.toList = m.entries

def Stocks (T : DurableStore S L D) (small : Prop) (m : SortedMap Bytes Bytes) (d : D) : Prop :=
  ∀ l, ∃ s, T.openStore l d = .ok s ∧ Stocked T.toNodeStore small m s

theorem stocks_fresh (T : DurableStore S L D) (small : Prop) : Stocks T small .empty T.fresh := by
  intro l
  obtain ⟨s, hopen, hs⟩ := T.open_fresh l
  exact ⟨s, hopen, .inl ⟨hs, rfl⟩⟩

theorem Serves.flush (h : Serves T.toNodeStore small E capacity calls (spare + capacity) m p) :
    Proc.Unless E BTree.flush p (fun _ p' =>
      Serves T.toNodeStore small E capacity calls spare m p' ∧
      Stocks T small m (T.files p'.store)) := by
  obtain ⟨hpos, content, next, t, room, hlight, hready, ht, hq, hm⟩ := h
  have hroom : room < capacity → E := by
    intro hlt
    refine hready.resolve_right (fun hr => ?_)
    have hwrites := hr.writes
    omega
  refine (BTree.flush_unless hq hroom).mono ?_ (fun hE => hE)
  rintro - p' ⟨hq', hs⟩
  constructor
  · refine ⟨hpos, content, next, t, _, hlight, hready.imp_right (fun hr => ?_), ht, hq', hm⟩
    exact ⟨hr.frames, hr.ids, by have hwrites := hr.writes; omega⟩
  · intro l
    obtain ⟨s, hopen, hs'⟩ := T.reopen (T.weaken (Nat.zero_le _) hs)
      (Nat.zero_lt_of_lt ht.meta_lt) ht.full l
    exact ⟨s, hopen, .inr ⟨content, next, t, hlight, hs', ht, hm⟩⟩

/-- The counters of the store are far from their ends: it has room for what a tree in it
needs for a number of calls after it was opened. -/
def Spacious (M : NodeStore S) (capacity calls spare : Nat) (s : S) : Prop :=
  2 ≤ capacity ∧ ∃ room, M.Roomy s room ∧ ∀ content next, M.Rep s content (next, 0) →
    next + 1 + calls * (next + 1 + calls + 2) < 2 ^ 64 ∧
      calls * (3 * (next + 1 + calls) + 5) + spare + 2 ≤ room

theorem Spacious.mono {M : NodeStore S} {calls' spare' : Nat}
    (h : Spacious M capacity calls' spare' s) (hcalls : calls ≤ calls') (hspare : spare ≤ spare') :
    Spacious M capacity calls spare s := by
  obtain ⟨hcap, room, hroomy, hall⟩ := h
  refine ⟨hcap, room, hroomy, fun content next hrep => ?_⟩
  obtain ⟨hids, hwrites⟩ := hall content next hrep
  have hmul := Nat.mul_le_mul hcalls
    (show next + 1 + calls + 2 ≤ next + 1 + calls' + 2 by omega)
  have hmul' := Nat.mul_le_mul hcalls
    (show 3 * (next + 1 + calls) + 5 ≤ 3 * (next + 1 + calls') + 5 by omega)
  constructor
  · omega
  · omega

theorem openTree_cases (hpos : 0 < capacity) (s : S) :
    ∃ p, BufferPool.new (ε := ε) s capacity = .ok p ∧
      BTree.openTree (ε := ε) s capacity = ((BTree.setUp p).1, some (BTree.setUp p).2) := by
  have hnew : BufferPool.new (ε := ε) s capacity = .ok ⟨s, capacity, [], .empty, 0⟩ := by
    rw [BufferPool.new, if_pos hpos]
  refine ⟨_, hnew, ?_⟩
  rw [BTree.openTree, hnew]

theorem Stocked.setUp {M : NodeStore S} (h : Stocked M small m s)
    (hspace : E ∨ Spacious M capacity calls spare s) (hpos : 0 < capacity)
    (hnew : BufferPool.new (ε := ε) s capacity = .ok p) :
    Proc.Unless E BTree.setUp p (fun _ p' => Serves M small E capacity calls spare m p') := by
  have hroomy : ∃ room, M.Roomy s room ∧ (room < 2 → E) ∧ (E ∨ 2 ≤ capacity ∧
      ∀ content next, M.Rep s content (next, 0) →
        next + 1 + calls * (next + 1 + calls + 2) < 2 ^ 64 ∧
          calls * (3 * (next + 1 + calls) + 5) + spare + 2 ≤ room) := by
    rcases hspace with hE | ⟨hcap, room, hroomy, hall⟩
    · exact ⟨0, fun hs => hs, fun _ => hE, .inl hE⟩
    · refine ⟨room, hroomy, fun hlt => ?_, .inr ⟨hcap, hall⟩⟩
      rcases h with ⟨hs, -⟩ | ⟨content, next, t, -, hs, -⟩
      · have hle := (hall _ _ hs).2
        omega
      · have hle := (hall _ _ hs).2
        omega
  obtain ⟨room, hroomy, htight, hready⟩ := hroomy
  have htwo : capacity < 2 → E := fun hlt =>
    hready.resolve_right (fun hr => absurd hr.1 hlt.not_ge)
  rcases h with ⟨hs, rfl⟩ | ⟨content, next, t, hlight, hs, ht, hm⟩
  · refine (BTree.setUp_new_short hpos htwo (BufferPool.new_held (hroomy hs) hnew) htight).mono
      (fun _ p' hq => ?_) (fun hE => hE)
    refine ⟨hpos, _, 2, BTree.emptyTree, _, fun _ => rfl, ?_, BTree.treeRep_empty, hq, rfl⟩
    refine hready.imp_right (fun ⟨hcap, hall⟩ => ?_)
    obtain ⟨hids, hwrites⟩ := hall _ _ hs
    exact .of_depth_le hcap (Nat.zero_le _) hids (by omega)
  · have hone : room = 0 → E := fun hzero => htight (by omega)
    refine (BTree.setUp_existing_short hpos (BufferPool.new_held (hroomy hs) hnew) ht hone).mono
      (fun _ p' hq => ?_) (fun hE => hE)
    refine ⟨hpos, content, next, t, _, hlight, ?_, ht, hq, hm⟩
    refine hready.imp_right (fun ⟨hcap, hall⟩ => ?_)
    obtain ⟨hids, hwrites⟩ := hall _ _ hs
    have hdepth := ht.wf.depth_lt
    exact .of_depth_le hcap (show t.depth ≤ next + 1 by omega) (by omega) (by omega)

/-- The room that the store of a pool has is room for the tree. -/
theorem Spacious.quiet {M : NodeStore S} {content : PageId → Option NodePage} {next room : Nat}
    (h : Spacious M capacity calls spare p.store) (hq : Quiet M capacity content next room p) :
    ∃ room', Quiet M capacity content next room' p ∧
      next + 1 + calls * (next + 1 + calls + 2) < 2 ^ 64 ∧
      calls * (3 * (next + 1 + calls) + 5) + spare + 2 ≤ room' := by
  obtain ⟨-, room', hroomy, hall⟩ := h
  obtain ⟨-, disk, hrep⟩ := id hq
  exact ⟨room', hq.refill hroomy, hall disk next (M.weaken (Nat.zero_le _) hrep.stored)⟩

theorem Serves.ready {M : NodeStore S} {calls' spare' : Nat}
    (h : Serves M small True capacity calls' spare' m p)
    (hspace : Spacious M capacity calls spare p.store) :
    Serves M small False capacity calls spare m p := by
  obtain ⟨hpos, content, next, t, room, hlight, -, ht, hq, hm⟩ := h
  obtain ⟨room', hq', hids, hwrites⟩ := hspace.quiet hq
  have hdepth := ht.wf.depth_lt
  refine ⟨hpos, content, next, t, room', hlight, .inr ?_, ht, hq', hm⟩
  exact .of_depth_le hspace.1 (show t.depth ≤ next + 1 by omega) (by omega) (by omega)

/-- A scan fetches every page of the tree, of which there are fewer than page ids. -/
theorem Serves.scanAll {M : NodeStore S} (h : Serves M small True capacity calls spare m p)
    (hfuel : 2 ^ 64 ≤ fuel) (hspace : E ∨ Spacious M capacity 1 0 p.store) :
    Proc.Unless E (BTree.scanAll fuel) p (fun r p' => r = m.entries ∧
      Serves M small True capacity calls spare m p') := by
  obtain ⟨hpos, content, next, t, room, hlight, -, ht, hq, hm⟩ := h
  have henough : ∃ room', Quiet M capacity content next room' p ∧
      (room' < t.tree.ids.length + 1 → E) := by
    rcases hspace with hE | hspace
    · exact ⟨room, hq, fun _ => hE⟩
    · obtain ⟨room', hq', -, hwrites⟩ := hspace.quiet hq
      have hlen := ht.wf.length_ids_le
      exact ⟨room', hq', fun hlt => absurd hlt (by omega)⟩
  obtain ⟨room', hq', hroom⟩ := henough
  refine (BTree.scanAll_idle (BTree.canPin_pos hpos) (BTree.depth_lt_fuel ht hfuel) hq' ht
    hroom).mono ?_ (fun hE => hE)
  rintro r p' ⟨rfl, hq''⟩
  exact ⟨hm, hpos, content, next, t, _, hlight, .inl trivial, ht, hq'', hm⟩

end Durable
end Sietch
