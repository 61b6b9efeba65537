import Sietch.BufferPool

/-! What a buffer pool stands for: the content of every page, whether it is cached or
only in the store, and the pins that the client holds. The calls that do not reach the
store are specified here on that view. -/
namespace Sietch
namespace BufferPool
variable {S ε α : Type}

def frame? (p : BufferPool S) (id : PageId) : Option Frame :=
  (p.pageTable.get? id).bind (p.frames[·]?)

/-- The page table and the frames are in one-to-one correspondence, except for a frame
that was just freed and that the caller is about to overwrite. -/
structure WF (p : BufferPool S) (hole : Option Nat) : Prop where
  positive : 0 < p.capacity
  bounded : p.frames.length ≤ p.capacity
  hand : p.clockHand < p.capacity
  table : ∀ id idx, p.pageTable.get? id = some idx ↔
    hole ≠ some idx ∧ ∃ f, p.frames[idx]? = some f ∧ f.pageId = id

section WellFormed
variable {p : BufferPool S} {hole : Option Nat} {id : PageId} {idx : Nat} {f g : Frame}

theorem WF.frame?_eq_some (h : WF p hole) : p.frame? id = some f ↔
    ∃ idx, p.pageTable.get? id = some idx ∧ p.frames[idx]? = some f ∧ f.pageId = id := by
  rw [frame?, Option.bind_eq_some_iff]
  constructor
  · rintro ⟨idx, hidx, hf⟩
    obtain ⟨-, g, hg, hid⟩ := (h.table id idx).mp hidx
    rw [hf] at hg
    cases hg
    exact ⟨idx, hidx, hf, hid⟩
  · rintro ⟨idx, hidx, hf, -⟩
    exact ⟨idx, hidx, hf⟩

theorem WF.pageId_eq (h : WF p hole) (hf : p.frame? id = some f) : f.pageId = id := by
  obtain ⟨-, -, -, hid⟩ := h.frame?_eq_some.mp hf
  exact hid

theorem WF.frame?_of_frame (h : WF p hole) (hidx : p.frames[idx]? = some f)
    (hhole : hole ≠ some idx) : p.frame? f.pageId = some f :=
  h.frame?_eq_some.mpr ⟨idx, (h.table _ _).mpr ⟨hhole, f, hidx, rfl⟩, hidx, rfl⟩

theorem WF.frame?_eq_none (h : WF p hole) : p.frame? id = none ↔ p.pageTable.get? id = none := by
  constructor
  · intro hnone
    cases hget : p.pageTable.get? id with
    | none => rfl
    | some idx =>
        obtain ⟨-, f, hf, hid⟩ := (h.table id idx).mp hget
        have hsome : p.frame? id = some f := h.frame?_eq_some.mpr ⟨idx, hget, hf, hid⟩
        rw [hnone] at hsome
        cases hsome
  · intro hnone
    rw [frame?, hnone]
    rfl

theorem WF.set (h : WF p hole) (hidx : p.frames[idx]? = some f) (hg : g.pageId = f.pageId) :
    WF { p with frames := p.frames.set idx g } hole := by
  have hlt := (List.getElem?_eq_some_iff.mp hidx).1
  refine ⟨h.positive, by simpa using h.bounded, h.hand, fun id j => ?_⟩
  simp only [h.table id j, List.getElem?_set]
  by_cases hj : idx = j
  · subst hj
    rw [if_pos rfl, if_pos hlt, hidx]
    simp [hg]
  · simp [hj]

theorem WF.frame?_set (h : WF p hole) (hidx : p.frames[idx]? = some f)
    (hg : g.pageId = f.pageId) (hhole : hole ≠ some idx) :
    frame? { p with frames := p.frames.set idx g } =
      Function.update p.frame? f.pageId (some g) := by
  funext j
  have hset := h.set hidx hg
  by_cases hj : j = f.pageId
  · subst hj
    rw [Function.update_self, ← hg]
    refine hset.frame?_of_frame ?_ hhole
    have hlt := (List.getElem?_eq_some_iff.mp hidx).1
    exact List.getElem?_set_self hlt
  · rw [Function.update_of_ne hj]
    simp only [frame?]
    cases hget : p.pageTable.get? j with
    | none => rfl
    | some k =>
        have hne : idx ≠ k := by
          rintro rfl
          obtain ⟨-, g', hg', hid⟩ := (h.table j idx).mp hget
          rw [hidx] at hg'
          cases hg'
          exact hj hid.symm
        simp [List.getElem?_set_ne hne]

theorem WF.frameOf_eq (h : WF p hole) (hf : p.frame? id = some f) :
    ∃ idx, frameOf (ε := ε) id p = (.ok (some (idx, f)), p) ∧ p.frames[idx]? = some f ∧
      hole ≠ some idx := by
  obtain ⟨idx, hget, hidx, -⟩ := h.frame?_eq_some.mp hf
  exact ⟨idx, by rw [frameOf, hget]; simp only [hidx], hidx, ((h.table _ _).mp hget).1⟩

theorem WF.frameOf_none (h : WF p hole) (hf : p.frame? id = none) :
    frameOf (ε := ε) id p = (.ok none, p) := by
  rw [frameOf, h.frame?_eq_none.mp hf]

theorem WF.erase (h : WF p none) (hidx : p.frames[idx]? = some f) :
    WF { p with pageTable := p.pageTable.erase f.pageId } (some idx) := by
  refine ⟨h.positive, h.bounded, h.hand, fun id j => ?_⟩
  simp only [SortedMap.get?_erase]
  by_cases hid : id = f.pageId
  · subst hid
    have hin : p.pageTable.get? f.pageId = some idx :=
      (h.table _ _).mpr ⟨by simp, f, hidx, rfl⟩
    simp only [if_true, reduceCtorEq, ne_eq, Option.some.injEq, false_iff, not_and]
    rintro hne ⟨g, hg, hid⟩
    have hj := (h.table f.pageId j).mpr ⟨by simp, g, hg, hid⟩
    rw [hin] at hj
    exact hne (Option.some.inj hj)
  · rw [if_neg hid, h.table]
    constructor
    · rintro ⟨-, g, hg, hgid⟩
      refine ⟨?_, g, hg, hgid⟩
      rintro hj
      cases hj
      rw [hidx] at hg
      cases hg
      exact hid hgid.symm
    · rintro ⟨-, g, hg, hgid⟩
      exact ⟨by simp, g, hg, hgid⟩

theorem frame?_erase (p : BufferPool S) (id : PageId) :
    frame? { p with pageTable := p.pageTable.erase id } = Function.update p.frame? id none := by
  funext j
  by_cases hj : j = id
  · subst hj
    simp [frame?]
  · simp [frame?, hj]

theorem WF.fill (h : WF p (some idx)) (hlt : idx < p.frames.length)
    (hnew : p.frame? f.pageId = none) :
    WF { p with frames := p.frames.set idx f, pageTable := p.pageTable.insert f.pageId idx }
      none := by
  have hget := h.frame?_eq_none.mp hnew
  refine ⟨h.positive, by simpa using h.bounded, h.hand, fun id j => ?_⟩
  simp only [SortedMap.get?_insert, List.getElem?_set]
  by_cases hid : id = f.pageId
  · subst hid
    simp only [if_true, Option.some.injEq, ne_eq, reduceCtorEq, not_false_eq_true, true_and]
    constructor
    · rintro rfl
      exact ⟨f, by simp [hlt], rfl⟩
    · rintro ⟨g, hg, hgid⟩
      by_contra hne
      rw [if_neg hne] at hg
      have hin : p.pageTable.get? f.pageId = some j :=
        (h.table _ _).mpr ⟨by simpa using hne, g, hg, hgid⟩
      rw [hget] at hin
      cases hin
  · rw [if_neg hid, h.table]
    by_cases hj : idx = j
    · subst hj
      simp only [ne_eq, not_true_eq_false, false_and, if_true, hlt, Option.some.injEq,
        exists_eq_left', reduceCtorEq, not_false_eq_true, true_and, false_iff]
      exact fun hf => hid hf.symm
    · simp [hj]

theorem WF.frame?_fill (h : WF p (some idx)) (hlt : idx < p.frames.length)
    (hnew : p.frame? f.pageId = none) :
    frame? { p with frames := p.frames.set idx f, pageTable := p.pageTable.insert f.pageId idx } =
      Function.update p.frame? f.pageId (some f) := by
  funext j
  by_cases hj : j = f.pageId
  · subst hj
    rw [Function.update_self]
    exact (h.fill hlt hnew).frame?_of_frame (List.getElem?_set_self hlt) (by simp)
  · rw [Function.update_of_ne hj]
    simp only [frame?, SortedMap.get?_insert, if_neg hj]
    cases hget : p.pageTable.get? j with
    | none => rfl
    | some k =>
        have hne : idx ≠ k := fun heq => ((h.table j k).mp hget).1 (by rw [heq])
        simp [List.getElem?_set_ne hne]

end WellFormed

section OnStore
variable {p : BufferPool S}

theorem onStore_ends {x : Proc S ε α} {Q : α → S → Prop} {R : S → Prop} {P : Prop}
    (h : Proc.Ends x p.store Q R P) :
    Proc.Ends (onStore x) p (fun a p' => ∃ s, Q a s ∧ p' = { p with store := s })
      (fun p' => ∃ s, R s ∧ p' = { p with store := s }) P := by
  refine Proc.Ends.mapErr ?_ _
  rw [Proc.Ends] at h ⊢
  rw [Proc.focus]
  cases hx : x p.store with
  | mk o s =>
      rw [hx] at h
      cases o with
      | ok a => exact ⟨s, h, rfl⟩
      | err e => exact ⟨s, h, rfl⟩
      | panic => exact h

end OnStore

/-- The content of every page, the pins of the client with their multiplicity, the pages
it changed without having marked them dirty yet, and the ids that were ever used.
`budget` is what else is known of the store. -/
structure View (O β : Type) where
  content : PageId → Option O
  pins : List PageId
  loose : List PageId
  known : PageId → Prop
  budget : β

namespace View
variable {O β : Type}

def pin (v : View O β) (id : PageId) : View O β := { v with pins := id :: v.pins }

def give (v : View O β) (id : PageId) (o : O) : View O β :=
  { v with content := Function.update v.content id (some o), loose := id :: v.loose }

def unpin (v : View O β) (id : PageId) (dirtied : Bool) : View O β :=
  { v with pins := v.pins.erase id,
           loose := if dirtied then v.loose.filter (· ≠ id) else v.loose }

end View

structure View.Agree {O β : Type} (v w : View O β) (id : PageId) : Prop where
  content : w.content id = v.content id
  pins : w.pins.count id = v.pins.count id
  loose : id ∈ w.loose ↔ id ∈ v.loose

section Rep
variable {O β : Type}

/-- A frame agrees with the view; `disk` is what the store holds. -/
structure FrameRep (M : StoreView S O β) (disk : PageId → Option O) (v : View O β) (f : Frame) :
    Prop where
  shown : M.Shows f.page ((v.content f.pageId).getD (M.blank .data))
  pinned : f.pinCount = v.pins.count f.pageId
  dirty : f.dirty = true → (v.content f.pageId).isSome
  clean : f.dirty = false → f.pageId ∉ v.loose → disk f.pageId = v.content f.pageId
  known : v.known f.pageId

structure Rep (M : StoreView S O β) (disk : PageId → Option O) (hole : Option Nat)
    (v : View O β) (p : BufferPool S) : Prop where
  wf : p.WF hole
  cached : ∀ id f, p.frame? id = some f → FrameRep M disk v f
  uncached : ∀ id, p.frame? id = none → disk id = v.content id ∧ id ∉ v.pins
  loose : ∀ id ∈ v.loose, id ∈ v.pins
  writable : ∀ id, v.known id → M.Writable id
  stored : M.Rep p.store disk v.budget

variable {M : StoreView S O β} {disk disk' : PageId → Option O} {hole hole' : Option Nat}
  {v w : View O β} {p p' : BufferPool S} {id : PageId} {f : Frame}

theorem FrameRep.agree (h : FrameRep M disk v f) (hv : v.Agree w f.pageId)
    (hdisk : disk' f.pageId = disk f.pageId) (hknown : ∀ id, v.known id → w.known id) :
    FrameRep M disk' w f where
  shown := by rw [hv.content]; exact h.shown
  pinned := by rw [hv.pins]; exact h.pinned
  dirty hd := by rw [hv.content]; exact h.dirty hd
  clean hd hl := by rw [hdisk, hv.content]; exact h.clean hd (fun hin => hl (hv.loose.mpr hin))
  known := hknown _ h.known

/-- A call that changes the frame and the view of one page only. -/
theorem Rep.change (h : Rep M disk hole v p) {i : PageId} {g : Option Frame}
    (hwf : p'.WF hole') (hframe : p'.frame? = Function.update p.frame? i g)
    (hagree : ∀ id, id ≠ i → v.Agree w id ∧ disk' id = disk id)
    (hknown : ∀ id, v.known id → w.known id) (hwritable : ∀ id, w.known id → M.Writable id)
    (hsome : ∀ f, g = some f → FrameRep M disk' w f)
    (hnone : g = none → disk' i = w.content i ∧ i ∉ w.pins)
    (hloose : ∀ id ∈ w.loose, id ∈ w.pins) (hstored : M.Rep p'.store disk' w.budget) :
    Rep M disk' hole' w p' := by
  refine ⟨hwf, fun id f hf => ?_, fun id hf => ?_, hloose, hwritable, hstored⟩
  · by_cases hid : id = i
    · subst hid
      rw [hframe, Function.update_self] at hf
      exact hsome f hf
    · rw [hframe, Function.update_of_ne hid] at hf
      have hpid := h.wf.pageId_eq hf
      rw [← hpid] at hid
      exact (h.cached id f hf).agree (hagree _ hid).1 (hagree _ hid).2 hknown
  · by_cases hid : id = i
    · subst hid
      rw [hframe, Function.update_self] at hf
      exact hnone hf
    · rw [hframe, Function.update_of_ne hid] at hf
      obtain ⟨hdisk, hpins⟩ := h.uncached id hf
      obtain ⟨hv, hd⟩ := hagree id hid
      refine ⟨by rw [hd, hv.content, hdisk], fun hin => hpins ?_⟩
      rw [← List.count_pos_iff, ← hv.pins]
      exact List.count_pos_iff.mpr hin

theorem Rep.rebudget (h : Rep M disk hole v p) {s : S} {b : β} (hs : M.Rep s disk b) :
    Rep M disk hole { v with budget := b } { p with store := s } :=
  ⟨⟨h.wf.positive, h.wf.bounded, h.wf.hand, h.wf.table⟩,
    fun id f hf => (h.cached id f hf).agree ⟨rfl, rfl, Iff.rfl⟩ rfl (fun _ hk => hk), h.uncached,
    h.loose, h.writable, hs⟩

theorem Rep.learn (h : Rep M disk hole v p) {known : PageId → Prop}
    (hknown : ∀ i, v.known i → known i) (hwritable : ∀ i, known i → M.Writable i) :
    Rep M disk hole { v with known } p :=
  ⟨h.wf, fun id f hf => (h.cached id f hf).agree ⟨rfl, rfl, Iff.rfl⟩ rfl hknown, h.uncached,
    h.loose, hwritable, h.stored⟩

theorem Rep.frame_of_pinned (h : Rep M disk hole v p) (hid : id ∈ v.pins) :
    ∃ f, p.frame? id = some f := by
  cases hf : p.frame? id with
  | none => exact absurd hid (h.uncached id hf).2
  | some f => exact ⟨f, rfl⟩

theorem Rep.tick (h : Rep M disk hole v p) {hand : Nat} (hhand : hand < p.capacity) :
    Rep M disk hole v { p with clockHand := hand } :=
  ⟨⟨h.wf.positive, h.wf.bounded, hhand, h.wf.table⟩, h.cached, h.uncached, h.loose,
    h.writable, h.stored⟩

theorem Rep.setFrame (h : Rep M disk none v p) {idx : Nat} {g : Frame}
    (hidx : p.frames[idx]? = some f) (hg : g.pageId = f.pageId)
    (hagree : ∀ id, id ≠ f.pageId → v.Agree w id) (hknown : w.known = v.known)
    (hbudget : w.budget = v.budget) (hnew : FrameRep M disk w g)
    (hloose : ∀ id ∈ w.loose, id ∈ w.pins) :
    Rep M disk none w { p with frames := p.frames.set idx g } := by
  refine h.change (h.wf.set hidx hg) (h.wf.frame?_set hidx hg (by simp))
    (fun id hid => ⟨hagree id hid, rfl⟩) (fun id hid => by rw [hknown]; exact hid)
    (fun id hid => h.writable id (by rw [← hknown]; exact hid)) ?_
    (fun hnone => by cases hnone) hloose ?_
  · rintro g' hg'
    cases hg'
    exact hnew
  · rw [hbudget]
    exact h.stored

/-- The reference bit is the clock's own. -/
theorem Rep.clearRefBit (h : Rep M disk none v p) {idx : Nat} (hidx : p.frames[idx]? = some f) :
    Rep M disk none v { p with frames := p.frames.set idx { f with refBit := false } } := by
  have hold := h.cached _ f (h.wf.frame?_of_frame hidx (by simp))
  exact h.setFrame hidx rfl (fun id _ => ⟨rfl, rfl, Iff.rfl⟩) rfl rfl
    ⟨hold.shown, hold.pinned, hold.dirty, hold.clean, hold.known⟩ h.loose

theorem Rep.unpinned (h : Rep M disk none v p) {idx : Nat} (hidx : p.frames[idx]? = some f)
    (hpin : f.pinCount = 0) : f.pageId ∉ v.pins ∧ f.pageId ∉ v.loose := by
  have hold := h.cached _ f (h.wf.frame?_of_frame hidx (by simp))
  have hnot : f.pageId ∉ v.pins := by
    rw [← List.count_eq_zero, ← hold.pinned]
    exact hpin
  exact ⟨hnot, fun hl => hnot (h.loose _ hl)⟩

theorem Rep.evicted (h : Rep M disk none v p) {idx : Nat} (hidx : p.frames[idx]? = some f)
    (hpin : f.pinCount = 0) {s : S} {b : β}
    (hdisk : disk' = Function.update disk f.pageId (v.content f.pageId))
    (hs : M.Rep s disk' b) :
    Rep M disk' (some idx) { v with budget := b }
      { p with store := s, pageTable := p.pageTable.erase f.pageId } := by
  have hwf := h.wf.erase hidx
  refine h.change ⟨hwf.positive, hwf.bounded, hwf.hand, hwf.table⟩ (frame?_erase p f.pageId)
    (fun id hid => ⟨⟨rfl, rfl, Iff.rfl⟩, ?_⟩) (fun _ hk => hk) h.writable
    (fun g hg => by cases hg) (fun _ => ?_) h.loose hs
  · rw [hdisk, Function.update_of_ne hid]
  · rw [hdisk, Function.update_self]
    exact ⟨rfl, (h.unpinned hidx hpin).1⟩

theorem Rep.flushed (h : Rep M disk none v p) {idx : Nat} (hidx : p.frames[idx]? = some f)
    {o : O} (ho : v.content f.pageId = some o) {s : S} {b : β}
    (hs : M.Rep s (Function.update disk f.pageId (some o)) b) :
    Rep M (Function.update disk f.pageId (some o)) none { v with budget := b }
      { p with store := s, frames := p.frames.set idx { f with dirty := false } } := by
  have hold := h.cached _ f (h.wf.frame?_of_frame hidx (by simp))
  have hwf := h.wf.set (g := { f with dirty := false }) hidx rfl
  refine h.change ⟨hwf.positive, hwf.bounded, hwf.hand, hwf.table⟩
    (h.wf.frame?_set (g := { f with dirty := false }) hidx rfl (by simp))
    (fun i hi => ⟨⟨rfl, rfl, Iff.rfl⟩, Function.update_of_ne hi _ _⟩) (fun _ hk => hk) h.writable
    ?_ (fun hg => by cases hg) h.loose hs
  rintro g hg
  cases hg
  refine ⟨hold.shown, hold.pinned, (fun hd => by cases hd), fun _ _ => ?_, hold.known⟩
  rw [Function.update_self]
  exact ho.symm

def Shrinks (p p' : BufferPool S) : Prop :=
  ∀ id, p.pageTable.get? id = none → p'.pageTable.get? id = none

theorem shrinks_erase (p : BufferPool S) (s : S) (i : PageId) :
    p.Shrinks { p with store := s, pageTable := p.pageTable.erase i } := by
  intro id hid
  simp only [SortedMap.get?_erase, hid, ite_self]

theorem WF.pageIds_nodup (h : WF p none) : (p.frames.map (·.pageId)).Nodup := by
  rw [List.nodup_iff_getElem?_ne_getElem?]
  intro i j hij hj heq
  rw [List.length_map] at hj
  have hi : i < p.frames.length := by omega
  simp only [List.getElem?_map, List.getElem?_eq_getElem hi, List.getElem?_eq_getElem hj,
    Option.map_some, Option.some.injEq] at heq
  have hgi := (h.table _ i).mpr ⟨by simp, _, List.getElem?_eq_getElem hi, rfl⟩
  have hgj := (h.table _ j).mpr ⟨by simp, _, List.getElem?_eq_getElem hj, rfl⟩
  rw [heq, hgj] at hgi
  have := Option.some.inj hgi
  omega

/-- A client that holds fewer pins than there are frames leaves a frame free. -/
theorem Rep.exists_unpinned (h : Rep M disk none v p) (hpins : v.pins.length < p.frames.length) :
    ∃ (j : Nat) (g : Frame), p.frames[j]? = some g ∧ g.pinCount = 0 := by
  by_contra hall
  have hsub : p.frames.map (·.pageId) ⊆ v.pins := by
    intro id hid
    obtain ⟨g, hg, rfl⟩ := List.mem_map.mp hid
    obtain ⟨j, hj⟩ := List.mem_iff_getElem?.mp hg
    have hold := h.cached _ g (h.wf.frame?_of_frame hj (by simp))
    rw [← List.count_pos_iff, ← hold.pinned]
    exact Nat.pos_of_ne_zero (fun hz => hall ⟨j, g, hj, hz⟩)
  have hle := (h.wf.pageIds_nodup.subperm hsub).length_le
  rw [List.length_map] at hle
  omega

theorem WF.grow (h : WF p none) (hlt : p.frames.length < p.capacity) (f : Frame) :
    WF { p with frames := p.frames ++ [f] } (some p.frames.length) := by
  refine ⟨h.positive, by simpa using hlt, h.hand, fun id j => ?_⟩
  simp only [h.table id j]
  rcases Nat.lt_trichotomy j p.frames.length with hj | rfl | hj
  · rw [List.getElem?_append_left hj]
    simp [Nat.ne_of_gt hj]
  · simp
  · have hout : (p.frames ++ [f])[j]? = none := List.getElem?_eq_none (by simp; omega)
    have hout' : p.frames[j]? = none := List.getElem?_eq_none (by omega)
    simp [hout, hout']

theorem Rep.grow (h : Rep M disk none v p) (hlt : p.frames.length < p.capacity) (f : Frame) :
    Rep M disk (some p.frames.length) v { p with frames := p.frames ++ [f] } := by
  have hframe : frame? { p with frames := p.frames ++ [f] } = p.frame? := by
    funext id
    simp only [frame?]
    cases hget : p.pageTable.get? id with
    | none => rfl
    | some j =>
        obtain ⟨-, g, hg, -⟩ := (h.wf.table id j).mp hget
        have hj := (List.getElem?_eq_some_iff.mp hg).1
        simp [List.getElem?_append_left hj]
  refine ⟨h.wf.grow hlt f, fun id g hg => ?_, fun id hid => ?_, h.loose, h.writable,
    h.stored⟩
  · rw [hframe] at hg
    exact h.cached id g hg
  · rw [hframe] at hid
    exact h.uncached id hid

/-- The caller's page in the free frame. -/
theorem install_returns {i : Nat} (h : Rep M disk (some i) v p) (hi : i < p.frames.length)
    (hnew : p.pageTable.get? f.pageId = none) (hagree : ∀ id, id ≠ f.pageId → v.Agree w id)
    (hknown : ∀ id, v.known id → w.known id) (hwritable : ∀ id, w.known id → M.Writable id)
    (hbudget : w.budget = v.budget) (hf : FrameRep M disk w f)
    (hloose : ∀ id ∈ w.loose, id ∈ w.pins) :
    Proc.Returns (install (ε := ε) i f) p
      (fun _ p' => p'.capacity = p.capacity ∧ Rep M disk none w p') := by
  have hnone := h.wf.frame?_eq_none.mpr hnew
  refine ⟨(), _, if_pos hi, rfl, ?_⟩
  refine h.change (h.wf.fill hi hnone) (h.wf.frame?_fill hi hnone)
    (fun id hid => ⟨hagree id hid, rfl⟩) hknown hwritable ?_ (fun hg => by cases hg) hloose ?_
  · rintro g hg
    cases hg
    exact hf
  · rw [hbudget]
    exact h.stored

theorem setFrame_returns {idx : Nat} {g : Frame}
    (h : Rep M disk none v { p with frames := p.frames.set idx g }) :
    Proc.Returns (setFrame (ε := ε) idx g) p
      (fun _ p' => p'.capacity = p.capacity ∧ Rep M disk none v p') := ⟨(), _, rfl, rfl, h⟩

theorem Rep.pinFrame (h : Rep M disk none v p) {idx : Nat} (hidx : p.frames[idx]? = some f)
    (hlt : f.pinCount + 1 < 2 ^ 32) :
    Proc.Returns (pinFrame (ε := ε) idx) p (fun _ p' => p'.capacity = p.capacity ∧
      Rep M disk none (v.pin f.pageId) p') := by
  have hold := h.cached _ f (h.wf.frame?_of_frame hidx (by simp))
  have hset := h.setFrame (g := { f with pinCount := f.pinCount + 1, refBit := true })
    (w := v.pin f.pageId) hidx rfl
    (fun i hi => ⟨rfl, List.count_cons_of_ne (Ne.symm hi), Iff.rfl⟩) rfl rfl
    ⟨hold.shown, by simp [View.pin, hold.pinned], hold.dirty, hold.clean, hold.known⟩
    (fun i hi => List.mem_cons_of_mem _ (h.loose i hi))
  refine (setFrame_returns hset).of_eq ?_
  rw [BufferPool.pinFrame]
  simp only [hidx, if_pos hlt]
  rfl

theorem Rep.page (h : Rep M disk none v p) (hid : id ∈ v.pins) :
    ∃ pg, page (ε := ε) id p = (.ok (some pg), p) ∧
      M.Shows pg ((v.content id).getD (M.blank .data)) := by
  obtain ⟨f, hf⟩ := h.frame_of_pinned hid
  obtain ⟨idx, hframe, -⟩ := h.wf.frameOf_eq (ε := ε) hf
  have hshown := (h.cached id f hf).shown
  rw [h.wf.pageId_eq hf] at hshown
  refine ⟨f.page, ?_, hshown⟩
  rw [BufferPool.page, Proc.bind_ok hframe]
  rfl

theorem Rep.pageMut (h : Rep M disk none v p) (hid : id ∈ v.pins) {new : Page} {o : O}
    (hnew : M.Shows new o) :
    Proc.Returns (pageMut (ε := ε) id new) p (fun _ p' => p'.capacity = p.capacity ∧
      Rep M disk none (v.give id o) p') := by
  obtain ⟨f, hf⟩ := h.frame_of_pinned hid
  obtain ⟨idx, hframe, hidx, -⟩ := h.wf.frameOf_eq (ε := ε) hf
  have hold := h.cached id f hf
  have hpid := h.wf.pageId_eq hf
  subst hpid
  have hset := h.setFrame (g := { f with page := new }) (w := v.give f.pageId o) hidx rfl
    (fun i hi => ⟨Function.update_of_ne hi _ _, rfl, by simp [View.give, hi]⟩) rfl rfl
    ⟨by simpa [View.give] using hnew, hold.pinned, by simp [View.give], by simp [View.give],
      hold.known⟩
    (by simpa [View.give, hid] using h.loose)
  refine (setFrame_returns hset).of_eq ?_
  rw [BufferPool.pageMut, Proc.bind_ok hframe]
  rfl

/-- `unpin`. The last pin of a page that the client changed is released as dirtied. -/
theorem Rep.unpin (h : Rep M disk none v p) (hid : id ∈ v.pins) {dirtied : Bool}
    (hdirty : dirtied = true → (v.content id).isSome)
    (hclean : dirtied = false → id ∈ v.loose → id ∈ v.pins.erase id) :
    Proc.Returns (unpin (ε := ε) id dirtied) p (fun _ p' => p'.capacity = p.capacity ∧
      Rep M disk none (v.unpin id dirtied) p') := by
  obtain ⟨f, hf⟩ := h.frame_of_pinned hid
  obtain ⟨idx, hframe, hidx, -⟩ := h.wf.frameOf_eq (ε := ε) hf
  have hold := h.cached id f hf
  have hpid := h.wf.pageId_eq hf
  subst hpid
  have hpos : f.pinCount ≠ 0 := by
    have hcount := List.count_pos_iff.mpr hid
    have hpinned := hold.pinned
    omega
  have hloose : ∀ i, i ≠ f.pageId →
      (i ∈ (v.unpin f.pageId dirtied).loose ↔ i ∈ v.loose) := by
    intro i hi
    cases dirtied with
    | true => simp [View.unpin, hi]
    | false => simp [View.unpin]
  have hset := h.setFrame (w := v.unpin f.pageId dirtied)
    (g := { f with pinCount := f.pinCount - 1, dirty := f.dirty || dirtied }) hidx rfl
    (fun i hi => ⟨rfl, List.count_erase_of_ne hi, hloose i hi⟩) rfl rfl
    ⟨hold.shown, by simp [View.unpin, hold.pinned], ?_, ?_, hold.known⟩ (fun i hi => ?_)
  · refine (setFrame_returns hset).of_eq ?_
    rw [BufferPool.unpin, Proc.bind_ok hframe]
    simp only [if_neg hpos]
  · intro hd
    rcases (Bool.or_eq_true _ _).mp hd with hd | hd
    · exact hold.dirty hd
    · exact hdirty hd
  · intro hd hl
    obtain ⟨hwas, rfl⟩ := Bool.or_eq_false_iff.mp hd
    exact hold.clean hwas hl
  · by_cases hi' : i = f.pageId
    · subst hi'
      cases dirtied with
      | true => simp [View.unpin] at hi
      | false => exact hclean rfl hi
    · exact (List.mem_erase_of_ne hi').mpr (h.loose i ((hloose i hi').mp hi))

end Rep
end BufferPool
end Sietch
