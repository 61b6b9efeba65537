import Sietch.BufferPoolSpec

/-! Which frame the clock evicts. The hand passes over pinned frames and over frames whose
reference bit is set, clearing the bit; whatever the pins, the bits and the position of the
hand are, two turns and one frame are enough to find the victim. -/
namespace Sietch

def Frame.passed (f : Frame) : Frame := if 0 < f.pinCount then f else { f with refBit := false }

def Frame.unmarked (f : Frame) : Frame := { f with refBit := false }

theorem Frame.passed_unmarked (f : Frame) : f.passed.unmarked = f.unmarked := by
  unfold Frame.passed
  split
  · rfl
  · rfl

namespace BufferPool
variable {S ε : Type}

def clockOrder (p : BufferPool S) : List Nat :=
  (List.range p.capacity).map (fun k => (p.clockHand + k) % p.capacity)

def firstInOrder (p : BufferPool S) (good : Frame → Bool) : Option Nat :=
  p.clockOrder.find? (fun idx => (p.frames[idx]?).any good)

/-- What the clock should evict: the first unpinned frame whose reference bit is clear, or
the first unpinned frame if there is none. -/
def victim? (p : BufferPool S) : Option Nat :=
  (p.firstInOrder (fun f => f.pinCount = 0 && !f.refBit)).or
    (p.firstInOrder (fun f => f.pinCount = 0))

def tick (p : BufferPool S) : BufferPool S :=
  { p with
    clockHand := (p.clockHand + 1) % p.capacity
    frames := p.frames.modify p.clockHand Frame.passed }

def Passes (p : BufferPool S) : Prop :=
  ∃ f, p.frames[p.clockHand]? = some f ∧ (0 < f.pinCount ∨ f.refBit = true)

section Scan
variable {p : BufferPool S} {f : Frame} {k : Nat}

theorem modify_eq_set {idx : Nat} (hf : p.frames[idx]? = some f) :
    p.frames.modify idx Frame.passed = p.frames.set idx f.passed := by
  rw [List.modify_eq_set_getElem?, hf]
  rfl

theorem clock_pass [PageStore S ε] (n : Nat) (h : p.Passes) :
    clock (n + 1) p = clock n p.tick := by
  obtain ⟨f, hf, hpass⟩ := h
  rw [clock, tick, modify_eq_set hf]
  simp only [hf]
  by_cases hpin : 0 < f.pinCount
  · have hsame : p.frames.set p.clockHand f.passed = p.frames := by
      obtain ⟨hlt, rfl⟩ := List.getElem?_eq_some_iff.mp hf
      rw [Frame.passed, if_pos hpin, List.set_getElem_self]
    rw [if_pos hpin, hsame]
  · rw [if_neg hpin, if_pos (hpass.resolve_left hpin), Frame.passed, if_neg hpin]

theorem clock_passes [PageStore S ε] (n k : Nat) (h : ∀ j < k, (tick^[j] p).Passes) :
    clock (n + k) p = clock n (tick^[k] p) := by
  induction k generalizing p with
  | zero => rfl
  | succ k ih =>
      have hfirst : p.Passes := h 0 (by omega)
      have hrest : ∀ j < k, (tick^[j] p.tick).Passes := by
        intro j hj
        exact h (j + 1) (by omega)
      exact (clock_pass (n + k) hfirst).trans (ih hrest)

/-- Passing over frames changes the hand and the reference bits only. -/
structure Scanned (p q : BufferPool S) : Prop where
  store : q.store = p.store
  capacity : q.capacity = p.capacity
  pageTable : q.pageTable = p.pageTable
  frames : q.frames.map Frame.unmarked = p.frames.map Frame.unmarked

theorem tick_scanned (p : BufferPool S) : Scanned p p.tick where
  store := rfl
  capacity := rfl
  pageTable := rfl
  frames := by
    apply List.ext_getElem?
    intro i
    simp only [tick, List.getElem?_map, List.getElem?_modify, Option.map_eq_map, Option.map_map]
    congr 1
    funext f
    dsimp only [Function.comp]
    split
    · exact f.passed_unmarked
    · rfl

theorem iterate_tick_scanned (p : BufferPool S) (k : Nat) : Scanned p (tick^[k] p) := by
  induction k with
  | zero => exact ⟨rfl, rfl, rfl, rfl⟩
  | succ k ih =>
      have hstep := tick_scanned (tick^[k] p)
      rw [Function.iterate_succ_apply']
      exact ⟨hstep.store.trans ih.store, hstep.capacity.trans ih.capacity,
        hstep.pageTable.trans ih.pageTable, hstep.frames.trans ih.frames⟩

theorem Scanned.frame {q : BufferPool S} (h : Scanned p q) {i : Nat} :
    (q.frames[i]?).map Frame.unmarked = (p.frames[i]?).map Frame.unmarked := by
  have heq := congrArg (fun fs : List Frame => fs[i]?) h.frames
  simpa only [List.getElem?_map] using heq

theorem iterate_tick_hand (hhand : p.clockHand < p.capacity) (k : Nat) :
    (tick^[k] p).clockHand = (p.clockHand + k) % p.capacity := by
  induction k with
  | zero => exact (Nat.mod_eq_of_lt hhand).symm
  | succ k ih =>
      have hcap := (iterate_tick_scanned p k).capacity
      rw [Function.iterate_succ_apply', tick, ih, hcap, Nat.mod_add_mod, Nat.add_assoc]

theorem hand_eq_iff {n h i k : Nat} (hh : h < n) (hi : i < n) (hk : k < n) :
    (h + k) % n = i ↔ handDistance n h i = k := by
  simp only [handDistance]
  rcases Nat.lt_or_ge (h + k) n with hin | hout
  · rw [Nat.mod_eq_of_lt hin]
    split <;> omega
  · rw [Nat.mod_eq_sub_mod hout, Nat.mod_eq_of_lt (by omega)]
    split <;> omega

/-- Within one turn, the frames that the hand has come to are passed and the others are as
they were. -/
theorem iterate_tick_frame (hhand : p.clockHand < p.capacity) (hk : k ≤ p.capacity) {i : Nat}
    (hi : i < p.capacity) :
    (tick^[k] p).frames[i]? = (p.frames[i]?).map (fun f =>
      if handDistance p.capacity p.clockHand i < k then f.passed else f) := by
  induction k with
  | zero => simp
  | succ k ih =>
      have hdist := hand_eq_iff hhand hi (by omega : k < p.capacity)
      rw [Function.iterate_succ_apply', tick]
      simp only [List.getElem?_modify, Option.map_eq_map]
      rw [iterate_tick_hand hhand, ih (by omega), Option.map_map]
      congr 1
      funext f
      dsimp only [Function.comp]
      by_cases heq : (p.clockHand + k) % p.capacity = i
      · have hat := hdist.mp heq
        rw [if_pos heq, if_neg (by omega), if_pos (by omega)]
      · have hnot : handDistance p.capacity p.clockHand i ≠ k := fun hat => heq (hdist.mpr hat)
        rw [if_neg heq]
        by_cases hlt : handDistance p.capacity p.clockHand i < k
        · rw [if_pos hlt, if_pos (by omega)]
        · rw [if_neg hlt, if_neg (by omega)]

/-- The pool when the victim has left the table, written to the store first if it was
dirty. -/
structure Evicted [PageStore S ε] (p : BufferPool S) (f : Frame) (q : BufferPool S) : Prop where
  store : q.store = if f.dirty then (PageStore.writePage f.pageId f.page p.store).2 else p.store
  capacity : q.capacity = p.capacity
  pageTable : q.pageTable = p.pageTable.erase f.pageId
  frames : q.frames.map Frame.unmarked = p.frames.map Frame.unmarked

theorem evict_eq [PageStore S ε] (idx : Nat) (hwrite : f.dirty = true → ∃ s,
    PageStore.writePage f.pageId f.page p.store = (.ok (), s)) :
    evict idx f p = (.ok idx, { p with
      store := if f.dirty then (PageStore.writePage f.pageId f.page p.store).2 else p.store
      pageTable := p.pageTable.erase f.pageId }) := by
  cases hd : f.dirty with
  | false =>
      simp only [evict, hd]
      rfl
  | true =>
      obtain ⟨s, hs⟩ := hwrite hd
      have hcall : onStore (PageStore.writePage f.pageId f.page) p =
          (.ok (), { p with store := s }) := by
        rw [onStore, Proc.mapErr, Proc.focus, hs]
      simp only [evict, hd, if_true]
      rw [Proc.bind_ok hcall, hs]
      rfl

theorem clock_stop [PageStore S ε] (n : Nat) (hf : p.frames[p.clockHand]? = some f)
    (hpin : f.pinCount = 0) (href : f.refBit = false) :
    clock (n + 1) p =
      evict p.clockHand f { p with clockHand := (p.clockHand + 1) % p.capacity } := by
  rw [clock]
  simp only [hf]
  rw [if_neg (by omega), if_neg (by simp [href])]

theorem clock_stops [PageStore S ε] (n : Nat) (hhand : p.clockHand < p.capacity)
    (hpass : ∀ j < k, (tick^[j] p).Passes) {g : Frame}
    (hg : (tick^[k] p).frames[(p.clockHand + k) % p.capacity]? = some g) (hpin : g.pinCount = 0)
    (href : g.refBit = false) (hwrite : g.dirty = true → ∃ s,
      PageStore.writePage g.pageId g.page p.store = (.ok (), s)) :
    ∃ q, clock (n + 1 + k) p = (.ok ((p.clockHand + k) % p.capacity), q) ∧ Evicted p g q := by
  have hscan := iterate_tick_scanned p k
  have hat := iterate_tick_hand hhand k
  rw [← hat] at hg
  rw [clock_passes (n + 1) k hpass, clock_stop n hg hpin href, hat, evict_eq]
  · refine ⟨_, rfl, ?_, hscan.capacity, ?_, hscan.frames⟩
    · simp only [hscan.store]
    · simp only [hscan.pageTable]
  · simpa only [hscan.store] using hwrite

end Scan

section Victim
variable {p : BufferPool S} {good : Frame → Bool} {idx : Nat}

theorem firstInOrder_some (h : p.firstInOrder good = some idx) :
    ∃ k < p.capacity, idx = (p.clockHand + k) % p.capacity ∧
      (p.frames[(p.clockHand + k) % p.capacity]?).any good = true ∧
      ∀ j < k, (p.frames[(p.clockHand + j) % p.capacity]?).any good = false := by
  rw [firstInOrder, clockOrder, List.find?_map] at h
  obtain ⟨k, hk, rfl⟩ := Option.map_eq_some_iff.mp h
  rw [List.find?_range_eq_some] at hk
  obtain ⟨hgood, hlt, hbefore⟩ := hk
  refine ⟨k, List.mem_range.mp hlt, rfl, hgood, ?_⟩
  intro j hj
  simpa using hbefore j hj

theorem firstInOrder_none (hhand : p.clockHand < p.capacity)
    (hfull : p.frames.length = p.capacity) (h : p.firstInOrder good = none) :
    ∀ f ∈ p.frames, good f = false := by
  intro f hf
  obtain ⟨i, hi, rfl⟩ := List.getElem_of_mem hf
  have hi' : i < p.capacity := by omega
  have hdist : handDistance p.capacity p.clockHand i < p.capacity := by
    simp only [handDistance]
    split <;> omega
  have hat := (hand_eq_iff hhand hi' hdist).mpr rfl
  have hmem : i ∈ p.clockOrder :=
    List.mem_map.mpr ⟨_, List.mem_range.mpr hdist, hat⟩
  have hnone := List.find?_eq_none.mp h i hmem
  rw [List.getElem?_eq_getElem hi, Option.any_some] at hnone
  simpa using hnone

theorem Scanned.evicted [PageStore S ε] {q r : BufferPool S} {f g : Frame} (h : Scanned p q)
    (hfg : g.unmarked = f.unmarked) (he : Evicted q g r) : Evicted p f r := by
  obtain ⟨pageId, page, pinCount, dirty, refBit⟩ := f
  obtain ⟨pageId', page', pinCount', dirty', refBit'⟩ := g
  cases hfg
  refine ⟨?_, he.capacity.trans h.capacity, ?_, he.frames.trans h.frames⟩
  · rw [he.store, h.store]
  · rw [he.pageTable, h.pageTable]

section Turns
variable [PageStore S ε] {f : Frame} (hhand : p.clockHand < p.capacity)
  (hfull : p.frames.length = p.capacity)
include hhand

theorem iterate_tick_first {k : Nat} (hk : k < p.capacity) :
    (tick^[k] p).frames[(p.clockHand + k) % p.capacity]? =
      p.frames[(p.clockHand + k) % p.capacity]? := by
  have hi := Nat.mod_lt (p.clockHand + k) (by omega : 0 < p.capacity)
  have hdist := (hand_eq_iff hhand hi hk).mp rfl
  rw [iterate_tick_frame hhand (by omega) hi, hdist]
  simp

include hfull

theorem frame_in_order (k : Nat) :
    ∃ f ∈ p.frames, p.frames[(p.clockHand + k) % p.capacity]? = some f := by
  have hi : (p.clockHand + k) % p.capacity < p.frames.length := by
    rw [hfull]
    exact Nat.mod_lt _ (by omega)
  exact ⟨_, List.getElem_mem hi, List.getElem?_eq_getElem hi⟩

/-- The hand passes over every frame of a turn that has no unpinned frame with a clear bit. -/
theorem passes_first {k : Nat} (hk : k < p.capacity)
    (h : (p.frames[(p.clockHand + k) % p.capacity]?).any
      (fun f => f.pinCount = 0 && !f.refBit) = false) : (tick^[k] p).Passes := by
  obtain ⟨f, -, hf⟩ := frame_in_order hhand hfull k
  rw [hf, Option.any_some] at h
  refine ⟨f, ?_, ?_⟩
  · rw [iterate_tick_hand hhand, iterate_tick_first hhand hk]
    exact hf
  · by_cases hpin : 0 < f.pinCount
    · exact .inl hpin
    · have hzero : f.pinCount = 0 := by omega
      simp only [hzero, decide_true, Bool.true_and, Bool.not_eq_false'] at h
      exact .inr h

theorem clock_exhausted (hpinned : ∀ f ∈ p.frames, 0 < f.pinCount) (n : Nat) :
    ∃ q, clock n p = (.err (.poolExhausted p.capacity), q) := by
  have hpass : ∀ j < n, (tick^[j] p).Passes := by
    intro j _
    have hscan := iterate_tick_scanned p j
    obtain ⟨f, hmem, hf⟩ := frame_in_order hhand hfull j
    have hframe := hscan.frame (i := (p.clockHand + j) % p.capacity)
    rw [hf, Option.map_some] at hframe
    obtain ⟨g, hg, heq⟩ := Option.map_eq_some_iff.mp hframe
    have hpins := congrArg Frame.pinCount heq
    simp only [Frame.unmarked] at hpins
    refine ⟨g, ?_, .inl ?_⟩
    · rw [iterate_tick_hand hhand]
      exact hg
    · rw [hpins]
      exact hpinned f hmem
  have hrun : clock n p = clock 0 (tick^[n] p) := by
    have hall := clock_passes (ε := ε) 0 n hpass
    rwa [Nat.zero_add] at hall
  rw [hrun, ← (iterate_tick_scanned p n).capacity]
  exact ⟨_, rfl⟩

variable (hwrite : ∀ f ∈ p.frames, f.dirty = true → ∃ s,
  PageStore.writePage f.pageId f.page p.store = (.ok (), s))
include hwrite

theorem clock_clear {idx : Nat}
    (h : p.firstInOrder (fun f => f.pinCount = 0 && !f.refBit) = some idx) :
    ∃ f q, p.frames[idx]? = some f ∧ clock (2 * p.capacity + 1) p = (.ok idx, q) ∧
      Evicted p f q := by
  obtain ⟨k, hk, rfl, hgood, hbefore⟩ := firstInOrder_some h
  obtain ⟨f, hmem, hf⟩ := frame_in_order hhand hfull k
  rw [hf, Option.any_some, Bool.and_eq_true, decide_eq_true_iff, Bool.not_eq_true'] at hgood
  have hpass : ∀ j < k, (tick^[j] p).Passes := by
    intro j hj
    exact passes_first hhand hfull (by omega) (hbefore j hj)
  have hat : (tick^[k] p).frames[(p.clockHand + k) % p.capacity]? = some f := by
    rw [iterate_tick_first hhand hk]
    exact hf
  obtain ⟨q, hclock, hq⟩ := clock_stops (2 * p.capacity - k) hhand hpass hat hgood.1 hgood.2
    (hwrite f hmem)
  have hfuel : 2 * p.capacity - k + 1 + k = 2 * p.capacity + 1 := by omega
  rw [hfuel] at hclock
  exact ⟨f, q, hf, hclock, hq⟩

/-- If all unpinned frames have their bit set, the first turn clears the bits and the second
stops at the first of them. -/
theorem clock_second {idx : Nat}
    (hnone : p.firstInOrder (fun f => f.pinCount = 0 && !f.refBit) = none)
    (h : p.firstInOrder (fun f => f.pinCount = 0) = some idx) :
    ∃ f q, p.frames[idx]? = some f ∧ clock (2 * p.capacity + 1) p = (.ok idx, q) ∧
      Evicted p f q := by
  obtain ⟨k, hk, rfl, hgood, hbefore⟩ := firstInOrder_some h
  obtain ⟨f, hmem, hf⟩ := frame_in_order hhand hfull k
  rw [hf, Option.any_some, decide_eq_true_iff] at hgood
  have hturn : ∀ j < p.capacity, (tick^[j] p).Passes := by
    intro j hj
    obtain ⟨g, hg, hat⟩ := frame_in_order hhand hfull j
    refine passes_first hhand hfull hj ?_
    rw [hat]
    exact firstInOrder_none hhand hfull hnone g hg
  have hscan := iterate_tick_scanned p p.capacity
  have hpassed : ∀ i < p.capacity,
      (tick^[p.capacity] p).frames[i]? = (p.frames[i]?).map Frame.passed := by
    intro i hi
    have hdist : handDistance p.capacity p.clockHand i < p.capacity := by
      simp only [handDistance]
      split <;> omega
    rw [iterate_tick_frame hhand (Nat.le_refl _) hi]
    simp only [if_pos hdist]
  have hhand' : (tick^[p.capacity] p).clockHand = p.clockHand := by
    rw [iterate_tick_hand hhand, Nat.add_mod_right, Nat.mod_eq_of_lt hhand]
  have hclock : clock (2 * p.capacity + 1) p = clock (p.capacity - k + 1 + k)
      (tick^[p.capacity] p) := by
    have hrun := clock_passes (ε := ε) (p.capacity - k + 1 + k) p.capacity hturn
    have hfuel : p.capacity - k + 1 + k + p.capacity = 2 * p.capacity + 1 := by omega
    rwa [hfuel] at hrun
  rw [hclock]
  -- from here on the pool is the one after the first turn, whose hand is where it was
  generalize tick^[p.capacity] p = p' at hscan hpassed hhand' ⊢
  have hcap := hscan.capacity
  have hfull' : p'.frames.length = p'.capacity := by
    have hlen := congrArg List.length hscan.frames
    rw [List.length_map, List.length_map] at hlen
    omega
  have hat : ∀ j, p'.frames[(p'.clockHand + j) % p'.capacity]? =
      (p.frames[(p.clockHand + j) % p.capacity]?).map Frame.passed := by
    intro j
    rw [hhand', hcap]
    exact hpassed _ (Nat.mod_lt _ (by omega))
  have hpass : ∀ j < k, (tick^[j] p').Passes := by
    intro j hj
    refine passes_first (by omega) hfull' (by omega) ?_
    obtain ⟨g, -, hg⟩ := frame_in_order hhand hfull j
    have hpinned := hbefore j hj
    rw [hg, Option.any_some, decide_eq_false_iff_not] at hpinned
    rw [hat, hg, Option.map_some, Option.any_some, Frame.passed, if_pos (by omega)]
    simp [hpinned]
  have hstop : (tick^[k] p').frames[(p'.clockHand + k) % p'.capacity]? = some f.passed := by
    rw [iterate_tick_first (by omega) (by omega), hat, hf, Option.map_some]
  have hclear : f.passed = f.unmarked := by
    rw [Frame.passed, if_neg (by omega)]
    rfl
  rw [hclear] at hstop
  obtain ⟨q, hq, hevicted⟩ := clock_stops (p.capacity - k) (by omega) hpass hstop hgood rfl
    (by rw [hscan.store]; exact hwrite f hmem)
  rw [hhand', hcap] at hq
  have hsame : f.unmarked.unmarked = f.unmarked := rfl
  exact ⟨f, q, hf, hq, hscan.evicted hsame hevicted⟩

theorem clock_victim {idx : Nat} (h : p.victim? = some idx) :
    ∃ f q, p.frames[idx]? = some f ∧ clock (2 * p.capacity + 1) p = (.ok idx, q) ∧
      Evicted p f q := by
  rw [victim?] at h
  cases hclear : p.firstInOrder (fun f => f.pinCount = 0 && !f.refBit) with
  | some i =>
      rw [hclear] at h
      cases h
      exact clock_clear hhand hfull hwrite hclear
  | none =>
      rw [hclear, Option.none_or] at h
      exact clock_second hhand hfull hwrite hclear h

end Turns

theorem victim_none (hhand : p.clockHand < p.capacity) (hfull : p.frames.length = p.capacity)
    (h : p.victim? = none) : ∀ f ∈ p.frames, 0 < f.pinCount := by
  rw [victim?, Option.or_eq_none_iff] at h
  intro f hf
  have hpin := firstInOrder_none hhand hfull h.2 f hf
  rw [decide_eq_false_iff_not] at hpin
  omega

end Victim

/-- `find_frame_for` on any pool: it reports exhaustion exactly when the pool is at capacity
with every frame pinned, grows a pool below capacity by a fresh frame, and otherwise evicts
the victim, after writing it to the store if it is dirty. -/
theorem findFrameFor_evicts_victim [PageStore S ε] (p : BufferPool S) (id : PageId)
    (hhand : p.clockHand < p.capacity) (hlen : p.frames.length ≤ p.capacity)
    (hwrite : ∀ f ∈ p.frames, f.dirty = true → ∃ s,
      PageStore.writePage f.pageId f.page p.store = (.ok (), s)) :
    ((∃ n q, findFrameFor id p = (.err (.poolExhausted n), q)) ↔
      p.frames.length = p.capacity ∧ ∀ f ∈ p.frames, 0 < f.pinCount) ∧
    (p.frames.length < p.capacity → findFrameFor id p = (.ok p.frames.length,
      { p with frames := p.frames ++ [⟨id, Page.new .data, 0, false, false⟩] })) ∧
    (p.frames.length = p.capacity → (∃ f ∈ p.frames, f.pinCount = 0) →
      ∃ idx f q, p.victim? = some idx ∧ p.frames[idx]? = some f ∧
        findFrameFor id p = (.ok idx, q) ∧ Evicted p f q) := by
  have hclock : p.frames.length = p.capacity →
      findFrameFor id p = clock (2 * p.capacity + 1) p := by
    intro hfull
    rw [findFrameFor, if_neg (by omega)]
  have hgrow : p.frames.length < p.capacity → findFrameFor id p = (.ok p.frames.length,
      { p with frames := p.frames ++ [⟨id, Page.new .data, 0, false, false⟩] }) := by
    intro hlt
    rw [findFrameFor, if_pos hlt]
  have hevict : p.frames.length = p.capacity → (∃ f ∈ p.frames, f.pinCount = 0) →
      ∃ idx f q, p.victim? = some idx ∧ p.frames[idx]? = some f ∧
        findFrameFor id p = (.ok idx, q) ∧ Evicted p f q := by
    rintro hfull ⟨g, hg, hpin⟩
    cases hvictim : p.victim? with
    | none =>
        have hpinned := victim_none hhand hfull hvictim g hg
        omega
    | some idx =>
        obtain ⟨f, q, hf, hq, hevicted⟩ := clock_victim hhand hfull hwrite hvictim
        exact ⟨idx, f, q, rfl, hf, (hclock hfull).trans hq, hevicted⟩
  refine ⟨⟨?_, ?_⟩, hgrow, hevict⟩
  · rintro ⟨n, q, hfail⟩
    have hfull : p.frames.length = p.capacity := by
      by_contra hne
      rw [hgrow (by omega)] at hfail
      cases hfail
    refine ⟨hfull, ?_⟩
    intro f hf
    by_contra hpin
    obtain ⟨idx, g, q', -, -, hok, -⟩ := hevict hfull ⟨f, hf, by omega⟩
    rw [hok] at hfail
    cases hfail
  · rintro ⟨hfull, hpinned⟩
    obtain ⟨q, hq⟩ := clock_exhausted hhand hfull hpinned (2 * p.capacity + 1)
    exact ⟨_, q, (hclock hfull).trans hq⟩

/-- Two frames with their bits set, the first of them pinned: the second is evicted on the
second turn. -/
theorem findFrameFor_evicts_victim_marked :
    let p : BufferPool MemPageStore := ⟨.new, 2,
      [⟨1, Page.new .data, 1, true, true⟩, ⟨2, Page.new .data, 0, true, true⟩], .empty, 1⟩
    p.clockHand < p.capacity ∧ p.victim? = some 1 ∧ ∃ q, findFrameFor 3 p = (.ok 1, q) := by
  intro p
  have hwrite : ∀ f ∈ p.frames, f.dirty = true → ∃ s,
      PageStore.writePage f.pageId f.page p.store = (.ok (), s) := by
    intro f _ _
    exact ⟨_, rfl⟩
  have hmain := findFrameFor_evicts_victim p 3 (by decide) (by decide) hwrite
  obtain ⟨idx, f, q, hvictim, -, hok, -⟩ := hmain.2.2 rfl ⟨_, .tail _ (.head _), rfl⟩
  have hidx : p.victim? = some 1 := by decide
  rw [hidx] at hvictim
  cases hvictim
  exact ⟨by decide, hidx, q, hok⟩

end BufferPool
end Sietch
