import Sietch.BufferPoolInv

/-! The calls of a buffer pool over a store, each specified by what it does to the view: when
it succeeds, whatever it evicts, and when it fails. The second part is for a client of a
store that numbers its pages and does not fail while it may be written. -/
namespace Sietch
namespace BufferPool
variable {S ε : Type} [PageStore S ε] {O β : Type} {M : StoreModel S O β}
  {disk : PageId → Option O} {v : View O β} {p : BufferPool S} {id : PageId} {f : Frame}
  {capacity : Nat}

def Sees (M : StoreModel S O β) (capacity : Nat) (v : View O β) (p : BufferPool S) : Prop :=
  p.capacity = capacity ∧ ∃ disk, Rep M.toStoreView disk none v p

def View.spent (M : StoreModel S O β) (v : View O β) : View O β :=
  { v with budget := M.spend v.budget }

theorem Rep.spent {hole : Option Nat} (h : Rep M.toStoreView disk hole v p) :
    Rep M.toStoreView disk hole (v.spent M) p := h.rebudget (M.weaken h.stored)

theorem Rep.sees (h : Rep M.toStoreView disk none v p) : Sees M p.capacity v p := ⟨rfl, disk, h⟩

/-- The victim is in the store when it leaves the table, or stays where it is. -/
theorem evict_ends (h : Rep M.toStoreView disk none v p) {idx : Nat}
    (hidx : p.frames[idx]? = some f) (hpin : f.pinCount = 0) :
    Proc.Ends (evict idx f) p
      (fun i p' => i = idx ∧ p'.frames = p.frames ∧ p'.capacity = p.capacity ∧ p.Shrinks p' ∧
        ∃ disk', Rep M.toStoreView disk' (some idx) (v.spent M) p')
      (fun p' => Sees M p.capacity v p' ∧ M.Fails v.budget) (M.Halts v.budget) := by
  have hold := h.cached _ f (h.wf.frame?_of_frame hidx (by simp))
  cases hd : f.dirty with
  | false =>
      have hclean := hold.clean hd (h.unpinned hidx hpin).2
      have hsame : disk = Function.update disk f.pageId (v.content f.pageId) := by
        rw [← hclean, Function.update_eq_self]
      refine Proc.Returns.ends ⟨idx, { p with pageTable := p.pageTable.erase f.pageId }, ?_, rfl,
        rfl, rfl, shrinks_erase p p.store f.pageId, disk,
        h.evicted hidx hpin hsame (M.weaken h.stored)⟩ _ _
      simp only [evict, hd]
      rfl
  | true =>
      obtain ⟨o, ho⟩ := Option.isSome_iff_exists.mp (hold.dirty hd)
      have hshown := hold.shown
      rw [ho, Option.getD_some] at hshown
      simp only [evict, hd, if_true]
      refine (onStore_ends (M.write h.stored hshown (h.writable _ hold.known))).bind ?_ ?_
      · rintro _ ⟨s, ⟨hs, hfail⟩, rfl⟩
        exact ⟨(h.rebudget hs).sees, hfail⟩
      · rintro - _ ⟨s, hs, rfl⟩
        have hrep := h.evicted hidx hpin (by rw [ho]) hs
        exact ⟨rfl, rfl, rfl, shrinks_erase p s f.pageId, _, hrep⟩

/-- Steps of the hand from `h` to `j` on a clock of `n` frames. -/
def handDistance (n h j : Nat) : Nat := if h ≤ j then j - h else j + n - h

theorem handDistance_step {n h j : Nat} (hh : h < n) (hj : j < n) (hne : h ≠ j) :
    handDistance n ((h + 1) % n) j + 1 = handDistance n h j := by
  simp only [handDistance]
  rcases Nat.lt_or_ge (h + 1) n with hin | hout
  · rw [Nat.mod_eq_of_lt hin]
    split <;> split <;> omega
  · rw [show h + 1 = n by omega, Nat.mod_self]
    split <;> split <;> omega

/-- A step from `j` itself starts a new turn. -/
theorem handDistance_turn {n j : Nat} (hj : j < n) :
    handDistance n ((j + 1) % n) j + 1 = n ∧ handDistance n j j = 0 := by
  simp only [handDistance, Nat.le_refl, if_true, Nat.sub_self, and_true]
  rcases Nat.lt_or_ge (j + 1) n with hin | hout
  · rw [Nat.mod_eq_of_lt hin]
    split <;> omega
  · rw [show j + 1 = n by omega, Nat.mod_self]
    split <;> omega

/-- The number of frames that the clock may look at before it stops at frame `j`: it comes
there within one turn, and if the reference bit was set, again within the next. -/
def patience (p : BufferPool S) (j : Nat) (g : Frame) : Nat :=
  handDistance p.capacity p.clockHand j + if g.refBit then p.capacity else 0

/-- The clock ends at a victim, or fails: because the store failed, or because it gave up
before it could reach a frame that is not pinned. -/
theorem clock_ends (n : Nat) (h : Rep M.toStoreView disk none v p)
    (hfull : p.frames.length = p.capacity) :
    Proc.Ends (clock n) p
      (fun i p' => i < p'.frames.length ∧ p'.capacity = p.capacity ∧ p.Shrinks p' ∧
        ∃ disk', Rep M.toStoreView disk' (some i) (v.spent M) p')
      (fun p' => Sees M p.capacity v p' ∧ (M.Fails v.budget ∨
        ∀ j g, p.frames[j]? = some g → g.pinCount = 0 → n ≤ p.patience j g))
      (M.Halts v.budget) := by
  induction n generalizing p with
  | zero => exact ⟨h.sees, .inr (fun _ _ _ _ => Nat.zero_le _)⟩
  | succ n ih =>
      have hhand := h.wf.hand
      have hlt : p.clockHand < p.frames.length := by omega
      have htick := h.tick (Nat.mod_lt (p.clockHand + 1) h.wf.positive)
      cases hidx : p.frames[p.clockHand]? with
      | none => exact absurd (List.getElem?_eq_none_iff.mp hidx) (by omega)
      | some f =>
        by_cases hpos : 0 < f.pinCount
        · -- a pinned frame is passed over
          refine ((ih htick hfull).mono (fun _ _ hQ => hQ) ?_ (fun hP => hP)).of_eq ?_
          · rintro p' ⟨hsees, hfail⟩
            refine ⟨hsees, hfail.imp_right (fun hpat j g hj hg => ?_)⟩
            have hjlt := (List.getElem?_eq_some_iff.mp hj).1
            have hne : p.clockHand ≠ j := by
              rintro rfl
              rw [hidx] at hj
              cases hj
              omega
            have hd := handDistance_step hhand (by omega) hne
            have hle := hpat j g hj hg
            simp only [patience] at hle ⊢
            omega
          · rw [clock]
            simp only [hidx, if_pos hpos]
        · by_cases href : f.refBit = true
          · have hclear := htick.clearRefBit hidx
            refine ((ih hclear (by simpa using hfull)).mono (fun _ _ hQ => hQ) ?_
              (fun hP => hP)).of_eq ?_
            · rintro p' ⟨hsees, hfail⟩
              refine ⟨hsees, hfail.imp_right (fun hpat j g hj hg => ?_)⟩
              have hjlt := (List.getElem?_eq_some_iff.mp hj).1
              by_cases hne : p.clockHand = j
              · -- the second turn: the bit is clear when the hand comes back
                subst hne
                rw [hidx] at hj
                cases hj
                have hle := hpat p.clockHand _ (List.getElem?_set_self hlt) hg
                have hd := handDistance_turn hhand
                simp only [patience, href, if_true, Bool.false_eq_true, if_false] at hle ⊢
                omega
              · have hle := hpat j g (by rw [List.getElem?_set_ne hne]; exact hj) hg
                have hd := handDistance_step hhand (by omega) hne
                simp only [patience] at hle ⊢
                omega
            · rw [clock]
              simp only [hidx, if_neg hpos, if_pos href]
          · refine ((evict_ends htick hidx (by omega)).mono ?_ ?_ (fun hP => hP)).of_eq ?_
            · rintro i p' ⟨rfl, hframes, hcap, hshrink, hrep⟩
              exact ⟨by rw [hframes]; exact hlt, hcap, hshrink, hrep⟩
            · rintro p' ⟨hsees, hfail⟩
              exact ⟨hsees, .inl hfail⟩
            · rw [clock]
              simp only [hidx, if_neg hpos, if_neg href]

/-- A frame is found for a client that holds fewer pins than there are frames. -/
theorem findFrameFor_ends (h : Rep M.toStoreView disk none v p) (id : PageId) :
    Proc.Ends (findFrameFor id) p
      (fun i p' => i < p'.frames.length ∧ p'.capacity = p.capacity ∧ p.Shrinks p' ∧
        ∃ disk', Rep M.toStoreView disk' (some i) (v.spent M) p')
      (fun p' => Sees M p.capacity v p' ∧ (M.Fails v.budget ∨ p.capacity ≤ v.pins.length))
      (M.Halts v.budget) := by
  by_cases hlt : p.frames.length < p.capacity
  · rw [Proc.Ends, findFrameFor, if_pos hlt]
    exact ⟨by simp, rfl, fun _ hid => hid, disk, (h.grow hlt _).spent⟩
  · have hfull : p.frames.length = p.capacity := le_antisymm h.wf.bounded (by omega)
    refine ((clock_ends (2 * p.capacity + 1) h hfull).mono (fun _ _ hQ => hQ) ?_
      (fun hP => hP)).of_eq ?_
    · rintro p' ⟨hsees, hfail⟩
      refine ⟨hsees, hfail.imp_right (fun hpat => ?_)⟩
      by_contra hpins
      obtain ⟨j, g, hj, hpin⟩ := h.exists_unpinned (by omega)
      have hjlt := (List.getElem?_eq_some_iff.mp hj).1
      have hhand := h.wf.hand
      have hle := hpat j g hj hpin
      simp only [patience, handDistance] at hle
      split at hle <;> split at hle <;> omega
    · rw [findFrameFor, if_neg hlt]

def View.fetched (M : StoreModel S O β) (v : View O β) (id : PageId) : View O β :=
  { v.pin id with known := fun i => i = id ∨ v.known i, budget := M.spend v.budget }

theorem fetch_ends (h : Sees M capacity v p) (hid : M.Writable id) :
    Proc.Ends (fetch id) p (fun _ p' => Sees M capacity (v.fetched M id) p')
      (fun p' => Sees M capacity v p' ∧ (M.Fails v.budget ∨ capacity ≤ v.pins.length))
      (M.Halts v.budget ∨ 2 ^ 32 ≤ v.pins.count id + 1) := by
  obtain ⟨rfl, disk, h⟩ := h
  have hwritable : ∀ i, i = id ∨ v.known i → M.Writable i := by
    rintro i (rfl | hi)
    · exact hid
    · exact h.writable i hi
  rw [fetch]
  refine Proc.Ends.of_eq ?_ (Proc.bind_ok (show Proc.get p = (.ok p, p) from rfl))
  cases hget : p.pageTable.get? id with
  | some idx =>
      obtain ⟨-, f, hidx, rfl⟩ := (h.wf.table id idx).mp hget
      have hold := h.cached _ f (h.wf.frame?_of_frame hidx (by simp))
      by_cases hlt : f.pinCount + 1 < 2 ^ 32
      · refine ((h.pinFrame (ε := ε) hidx hlt).mono ?_).ends _ _
        rintro - p' ⟨hcap, hrep⟩
        exact ⟨hcap, disk, (hrep.learn (fun _ hk => .inr hk) hwritable).spent⟩
      · rw [Proc.Ends]
        simp only [pinFrame, hidx, if_neg hlt]
        rw [← hold.pinned]
        omega
  | none =>
      simp only
      obtain ⟨hdisk, hnot⟩ := h.uncached id (h.wf.frame?_eq_none.mpr hget)
      rcases M.read h.stored hid with ⟨page, hread, hshows⟩ | ⟨e, hread, hfail⟩
      · have hcall : onStore (fun s => (PageStore.readPage s id, s)) p = (.ok page, p) := by
          simp only [onStore, Proc.mapErr, Proc.focus, hread]
        refine Proc.Ends.of_eq ?_ (Proc.bind_ok hcall)
        refine ((findFrameFor_ends h id).mono (fun _ _ hQ => hQ) (fun _ hR => hR)
          .inl).bind (fun _ hR => hR) ?_
        rintro i p' ⟨hi, hcap, hshrink, disk', hrep⟩
        obtain ⟨hdisk', -⟩ := hrep.uncached id (hrep.wf.frame?_eq_none.mpr (hshrink id hget))
        refine ((install_returns (ε := ε)
          (f := ⟨id, page.getD (Page.new .data), 1, false, true⟩) (w := v.fetched M id) hrep hi
          (hshrink id hget)
          (fun j hj => ⟨rfl, List.count_cons_of_ne (Ne.symm hj), Iff.rfl⟩) (fun _ hk => .inr hk)
          hwritable rfl ⟨?_, ?_, (fun hd => by cases hd), fun _ _ => hdisk', .inl rfl⟩
          (fun j hj => List.mem_cons_of_mem _ (h.loose j hj))).mono ?_).ends _ _
        · rw [hdisk] at hshows
          exact hshows
        · have hzero : v.pins.count id = 0 := List.count_eq_zero.mpr hnot
          simp only [View.fetched, View.pin, List.count_cons_self, hzero]
        · rintro - p'' ⟨hcap', hrep'⟩
          exact ⟨hcap'.trans hcap, disk', hrep'⟩
      · have hcall : onStore (fun s => (PageStore.readPage s id, s)) p = (.err (.store e), p) := by
          simp only [onStore, Proc.mapErr, Proc.focus, hread]
        rw [Proc.Ends, Proc.bind_err hcall]
        exact ⟨h.sees, .inl hfail⟩

def View.created (M : StoreModel S O β) (v : View O β) (id : PageId) (t : PageType) (b : β) :
    View O β :=
  { v with content := Function.update v.content id (some (M.blank t)), pins := id :: v.pins,
           known := fun i => i = id ∨ v.known i, budget := b }

theorem newPage_ends (h : Sees M capacity v p) (t : PageType) {N : PageId → β → Prop} {P : Prop}
    (halloc : ∀ disk, M.Rep p.store disk v.budget → Proc.Ends PageStore.allocatePageId p.store
      (fun id s => ¬ v.known id ∧ M.Writable id ∧
        ∃ b, M.Rep s disk b ∧ N id b ∧ (M.Fails b → M.Fails v.budget) ∧ (M.Halts b → P))
      (fun _ => False) P) :
    Proc.Ends (newPage t) p
      (fun id p' => ∃ b, N id b ∧ Sees M capacity (v.created M id t (M.spend b)) p')
      (fun p' => (∃ id b, N id b ∧ Sees M capacity { v with budget := b } p') ∧
        (M.Fails v.budget ∨ capacity ≤ v.pins.length)) P := by
  obtain ⟨rfl, disk, h⟩ := h
  rw [newPage]
  refine (onStore_ends (halloc disk h.stored)).bind (fun _ hfalse => ?_) ?_
  · obtain ⟨_, hfalse, -⟩ := hfalse
    exact hfalse.elim
  rintro id _ ⟨s, ⟨hknown, hid, b, hs, hN, hfails, hhalts⟩, rfl⟩
  have hwritable : ∀ i, i = id ∨ v.known i → M.Writable i := by
    rintro i (rfl | hi)
    · exact hid
    · exact h.writable i hi
  have hget : p.pageTable.get? id = none := by
    rw [← h.wf.frame?_eq_none]
    cases hf : p.frame? id with
    | none => rfl
    | some f =>
        have hin := (h.cached id f hf).known
        rw [h.wf.pageId_eq hf] at hin
        exact absurd hin hknown
  have hrep := h.rebudget hs
  refine ((findFrameFor_ends hrep id).mono (fun _ _ hQ => hQ) ?_ hhalts).bind
    (fun _ hR => hR) ?_
  · rintro p' ⟨hsees, hfail⟩
    exact ⟨⟨id, b, hN, hsees⟩, hfail.imp_left hfails⟩
  rintro i p' ⟨hi, hcap, hshrink, disk', hrep'⟩
  have hnot := (h.uncached id (h.wf.frame?_eq_none.mpr hget)).2
  refine Proc.Returns.ends ((install_returns (ε := ε) (f := ⟨id, Page.new t, 1, true, true⟩)
    (w := v.created M id t (M.spend b)) hrep' hi (hshrink id hget)
    (fun j hj => ⟨Function.update_of_ne hj _ _, List.count_cons_of_ne (Ne.symm hj), Iff.rfl⟩)
    (fun _ hk => .inr hk) hwritable rfl
    ⟨?_, ?_, fun _ => ?_, (fun hd => by cases hd), .inl rfl⟩
    (fun j hj => List.mem_cons_of_mem _ (h.loose j hj))).bind ?_) _ _
  · simp only [View.created, Function.update_self, Option.getD_some]
    exact M.shows_new t
  · have hzero : v.pins.count id = 0 := List.count_eq_zero.mpr hnot
    simp only [View.created, List.count_cons_self, hzero]
  · simp only [View.created, Function.update_self, Option.isSome_some]
  · rintro - p'' ⟨hcap', hrep''⟩
    exact Proc.returns_pure ⟨b, hN, hcap'.trans hcap, disk', hrep''⟩

theorem page_sees (h : Sees M capacity v p) (hid : id ∈ v.pins) :
    ∃ pg, page (ε := ε) id p = (.ok (some pg), p) ∧
      M.Shows pg ((v.content id).getD (M.blank .data)) := by
  obtain ⟨-, disk, h⟩ := h
  exact h.page hid

theorem pageMut_returns (h : Sees M capacity v p) (hid : id ∈ v.pins) {new : Page} {o : O}
    (hnew : M.Shows new o) :
    Proc.Returns (pageMut (ε := ε) id new) p (fun _ p' => Sees M capacity (v.give id o) p') := by
  obtain ⟨rfl, disk, h⟩ := h
  refine (h.pageMut (ε := ε) hid hnew).mono ?_
  rintro - p' ⟨hcap, hrep⟩
  exact ⟨hcap, disk, hrep⟩

theorem unpin_returns (h : Sees M capacity v p) (hid : id ∈ v.pins) {dirtied : Bool}
    (hdirty : dirtied = true → (v.content id).isSome)
    (hclean : dirtied = false → id ∈ v.loose → id ∈ v.pins.erase id) :
    Proc.Returns (unpin (ε := ε) id dirtied) p
      (fun _ p' => Sees M capacity (v.unpin id dirtied) p') := by
  obtain ⟨rfl, disk, h⟩ := h
  refine (h.unpin (ε := ε) hid hdirty hclean).mono ?_
  rintro - p' ⟨hcap, hrep⟩
  exact ⟨hcap, disk, hrep⟩

theorem unpin_unheld (h : Sees M capacity v p) (hid : id ∉ v.pins) (dirtied : Bool) :
    unpin (ε := ε) id dirtied p = (.err (.notPinned id), p) := by
  obtain ⟨-, disk, h⟩ := h
  rw [unpin]
  cases hf : p.frame? id with
  | none =>
      rw [Proc.bind_ok (h.wf.frameOf_none hf)]
      rfl
  | some f =>
      obtain ⟨idx, hframe, -⟩ := h.wf.frameOf_eq (ε := ε) hf
      have hzero : f.pinCount = 0 := by
        rw [(h.cached id f hf).pinned, h.wf.pageId_eq hf]
        exact List.count_eq_zero.mpr hid
      rw [Proc.bind_ok hframe]
      simp only [if_pos hzero]
      rfl

/-- `flush` brings the store up to date for one page, unless the client is still changing
it. -/
theorem flush_ends (h : Rep M.toStoreView disk none v p) (id : PageId) :
    Proc.Ends (flush id) p
      (fun _ p' => p'.capacity = p.capacity ∧
        (∀ i, p.frame? i ≠ none → p'.frame? i ≠ none) ∧
        ∃ disk', Rep M.toStoreView disk' none (v.spent M) p' ∧
          (∀ i, disk i = v.content i → disk' i = v.content i) ∧
          (id ∉ v.loose → disk' id = v.content id))
      (fun p' => Sees M p.capacity v p' ∧ (M.Fails v.budget ∨ p.frame? id = none))
      (M.Halts v.budget) := by
  rw [flush]
  cases hf : p.frame? id with
  | none =>
      refine Proc.Ends.of_eq ?_ (Proc.bind_ok (h.wf.frameOf_none hf))
      exact ⟨h.sees, .inr rfl⟩
  | some f =>
      obtain ⟨idx, hframe, hidx, -⟩ := h.wf.frameOf_eq (ε := ε) hf
      have hold := h.cached id f hf
      have hpid := h.wf.pageId_eq hf
      subst hpid
      refine Proc.Ends.of_eq ?_ (Proc.bind_ok hframe)
      cases hd : f.dirty with
      | false =>
          simp only [hd]
          exact ⟨rfl, fun _ hi => hi, disk, h.spent, fun _ hi => hi, fun hl => hold.clean hd hl⟩
      | true =>
          obtain ⟨o, ho⟩ := Option.isSome_iff_exists.mp (hold.dirty hd)
          have hshown := hold.shown
          rw [ho, Option.getD_some] at hshown
          simp only [hd, if_true]
          refine (onStore_ends (M.write h.stored hshown (h.writable _ hold.known))).bind ?_ ?_
          · rintro _ ⟨s, ⟨hs, hfail⟩, rfl⟩
            exact ⟨(h.rebudget hs).sees, .inl hfail⟩
          · rintro - _ ⟨s, hs, rfl⟩
            refine ⟨rfl, fun i hi => ?_, _, h.flushed hidx ho hs, fun i hi => ?_, fun _ => ?_⟩
            · have hupdate := congrFun
                (h.wf.frame?_set (g := { f with dirty := false }) hidx rfl (by simp)) i
              refine ne_of_eq_of_ne (hupdate.trans (Function.update_apply ..)) ?_
              split
              · simp
              · exact hi
            · by_cases hne : i = f.pageId
              · subst hne
                rw [Function.update_self, ho]
              · rw [Function.update_of_ne hne, hi]
            · rw [Function.update_self, ho]

def View.spentBy (M : StoreModel S O β) (v : View O β) (n : Nat) : View O β :=
  { v with budget := M.spend^[n] v.budget }

theorem flushEach_ends (ids : List PageId) (h : Rep M.toStoreView disk none v p)
    (hids : ∀ i ∈ ids, p.frame? i ≠ none) :
    Proc.Ends (flushEach ids) p
      (fun _ p' => p'.capacity = p.capacity ∧
        ∃ disk', Rep M.toStoreView disk' none (v.spentBy M ids.length) p' ∧
          ∀ i, disk i = v.content i ∨ i ∈ ids ∧ i ∉ v.loose → disk' i = v.content i)
      (fun p' => ∃ n, Sees M p.capacity (v.spentBy M n) p' ∧ M.Fails (M.spend^[n] v.budget))
      (∃ n < ids.length, M.Halts (M.spend^[n] v.budget)) := by
  induction ids generalizing v disk p with
  | nil => exact ⟨rfl, disk, h, fun i hi => hi.resolve_right (fun hin => by cases hin.1)⟩
  | cons i ids ih =>
      rw [flushEach]
      refine ((flush_ends h i).mono (fun _ _ hQ => hQ) ?_
        (fun hP => ⟨0, by simp, hP⟩)).bind (fun _ hR => hR) ?_
      · rintro p' ⟨hsees, hfail⟩
        exact ⟨0, hsees, hfail.resolve_right (hids i (List.mem_cons_self ..))⟩
      rintro - p₁ ⟨hcap, hkeep, disk₁, hrep, hsame, hnew⟩
      refine (ih hrep (fun j hj => hkeep j (hids j (List.mem_cons_of_mem _ hj)))).mono ?_ ?_ ?_
      · rintro - p₂ ⟨hcap₂, disk₂, hrep₂, hdisk₂⟩
        refine ⟨hcap₂.trans hcap, disk₂, hrep₂, fun j hj => hdisk₂ j ?_⟩
        rcases hj with hj | ⟨hj, hl⟩
        · exact .inl (hsame j hj)
        · rcases List.mem_cons.mp hj with rfl | hj
          · exact .inl (hnew hl)
          · exact .inr ⟨hj, hl⟩
      · rintro p₂ ⟨n, ⟨hcap₂, hrep₂⟩, hfail⟩
        exact ⟨n + 1, ⟨hcap₂.trans hcap, hrep₂⟩, hfail⟩
      · rintro ⟨n, hn, hhalt⟩
        exact ⟨n + 1, Nat.succ_lt_succ hn, hhalt⟩

theorem flushAll_ends (h : Sees M capacity v p) :
    Proc.Ends flushAll p
      (fun _ p' => p'.capacity = capacity ∧ ∃ n disk', n ≤ capacity ∧
        Rep M.toStoreView disk' none (v.spentBy M n) p' ∧ (v.loose = [] → disk' = v.content))
      (fun p' => ∃ n, Sees M capacity (v.spentBy M n) p' ∧ M.Fails (M.spend^[n] v.budget))
      (∃ n < capacity, M.Halts (M.spend^[n] v.budget)) := by
  obtain ⟨rfl, disk, h⟩ := h
  have hlen : (p.frames.map (·.pageId)).length ≤ p.capacity := by
    rw [List.length_map]
    exact h.wf.bounded
  have hframes : ∀ i ∈ p.frames.map (·.pageId), p.frame? i ≠ none := by
    intro i hi
    obtain ⟨f, hf, rfl⟩ := List.mem_map.mp hi
    obtain ⟨idx, hidx⟩ := List.mem_iff_getElem?.mp hf
    rw [h.wf.frame?_of_frame hidx (by simp)]
    simp
  refine ((flushEach_ends _ h hframes).mono ?_ (fun _ hR => hR) ?_).of_eq rfl
  · rintro - p' ⟨hcap, disk', hrep, hdisk⟩
    refine ⟨hcap, _, disk', hlen, hrep, fun hloose => ?_⟩
    funext i
    refine hdisk i ?_
    cases hf : p.frame? i with
    | none => exact .inl (h.uncached i hf).1
    | some f =>
        obtain ⟨idx, -, hidx, hid⟩ := h.wf.frame?_eq_some.mp hf
        exact .inr ⟨List.mem_map.mpr ⟨f, List.mem_of_getElem? hidx, hid⟩, by simp [hloose]⟩
  · rintro ⟨n, hn, hhalt⟩
    exact ⟨n, hn.trans_le hlen, hhalt⟩

theorem new_sees {s : S} {content : PageId → Option O} {b : β} {known : PageId → Prop}
    (hs : M.Rep s content b) (hknown : ∀ i, known i → M.Writable i)
    (hnew : new (ε := ε) s capacity = .ok p) :
    Sees M capacity ⟨content, [], [], known, b⟩ p := by
  rw [new] at hnew
  split at hnew
  · rename_i hcap
    cases hnew
    refine ⟨rfl, content, ⟨hcap, Nat.zero_le _, hcap, fun id idx => by simp⟩, fun id f hf => ?_,
      fun id _ => ⟨rfl, List.not_mem_nil⟩, fun id hid => hid, hknown, hs⟩
    cases hf
  · cases hnew

section Held
variable {M : NumberedStore S O} {content : PageId → Option O} {pins loose : List PageId}
  {next room : Nat} {E : Prop}

/-- What a client of a numbered store holds: it knows the content of all pages, its pins, the
pages it is changing, the next id and a number of writes that the store has room for. -/
def Held (M : NumberedStore S O) (capacity : Nat) (content : PageId → Option O)
    (pins loose : List PageId) (next room : Nat) (p : BufferPool S) : Prop :=
  Sees M.toModel capacity ⟨content, pins, loose, (· < next), (next, room)⟩ p

theorem Held.weaken {room' : Nat} (h : Held M capacity content pins loose next room p)
    (hle : room' ≤ room) : Held M capacity content pins loose next room' p := by
  obtain ⟨hcap, disk, hrep⟩ := h
  exact ⟨hcap, disk, hrep.rebudget (M.weaken hle hrep.stored)⟩

/-- The room of the store is room for its client. -/
theorem Held.refill {room' : Nat} (h : Held M capacity content pins loose next room p)
    (hroom : M.Roomy p.store room') : Held M capacity content pins loose next room' p := by
  obtain ⟨hcap, disk, hrep⟩ := h
  exact ⟨hcap, disk, hrep.rebudget (hroom (M.weaken (Nat.zero_le _) hrep.stored))⟩

theorem Held.fetch (h : Held M capacity content pins loose next room p)
    (hpins : pins.length < capacity) (hcount : pins.length + 1 < 2 ^ 32) (hid : id < next)
    (hE : room = 0 → E) :
    Proc.Unless E (fetch id) p
      (fun _ p' => Held M capacity content (id :: pins) loose next (room - 1) p') := by
  have hwritable : M.Writable id := by
    obtain ⟨-, disk, hrep⟩ := h
    exact hrep.writable id hid
  refine (fetch_ends h hwritable).mono (fun _ p' hsees => ?_) (fun _ hfail => ?_) (fun hhalt => ?_)
  · have hknown : (fun i => i = id ∨ i < next) = (· < next) := by
      funext i
      exact propext ⟨fun hi => hi.elim (fun heq => heq ▸ hid) (fun hlt => hlt), .inr⟩
    rw [View.fetched, View.pin] at hsees
    simp only [hknown] at hsees
    exact hsees
  · rcases hfail.2 with hfail | hfull
    · exact False.elim hfail
    · exact absurd hfull (not_le.mpr hpins)
  · rcases hhalt with hroom | hmany
    · exact hE hroom
    · have hle := List.count_le_length (a := id) (l := pins)
      exact absurd hmany (by simp only; omega)

theorem Held.newPage_short (h : Held M capacity content pins loose next room p)
    (hpins : capacity ≤ pins.length → E) (hE : room = 0 → E) (hlimit : 2 ^ 64 ≤ next + 1 → E)
    (t : PageType) :
    Proc.Unless E (newPage t) p (fun id p' => id = next ∧ next + 1 < 2 ^ 64 ∧
      Held M capacity (Function.update content next (some (M.blank t))) (next :: pins) loose
        (next + 1) (room - 1) p') := by
  refine (newPage_ends h t (P := room = 0 ∨ 2 ^ 64 ≤ next + 1)
    (N := fun i b => i = next ∧ next + 1 < 2 ^ 64 ∧ b = (next + 1, room))
    (fun disk hdisk => ?_)).mono (fun i p' hsees => ?_) (fun _ hfail => ?_) (fun hhalt => ?_)
  · refine (M.allocate hdisk).mono (fun i s hs => ?_) (fun _ hfalse => hfalse) .inr
    obtain ⟨rfl, hlt, hs⟩ := hs
    exact ⟨lt_irrefl i, M.writable hs i (Nat.lt_succ_self i), _, hs, ⟨rfl, hlt, rfl⟩,
      fun hf => hf, .inl⟩
  · obtain ⟨b, ⟨rfl, hlt, rfl⟩, hsees⟩ := hsees
    have hknown : (fun j => j = i ∨ j < i) = (· < i + 1) := by
      funext j
      rw [Nat.lt_succ_iff_lt_or_eq, or_comm]
    rw [View.created] at hsees
    simp only [hknown] at hsees
    exact ⟨rfl, hlt, hsees⟩
  · rcases hfail.2 with hfail | hfull
    · exact False.elim hfail
    · exact hpins hfull
  · exact hhalt.elim hE hlimit

theorem Held.newPage (h : Held M capacity content pins loose next room p)
    (hpins : pins.length < capacity) (hE : room = 0 → E) (hlimit : 2 ^ 64 ≤ next + 1 → E)
    (t : PageType) :
    Proc.Unless E (newPage t) p (fun id p' => id = next ∧ next + 1 < 2 ^ 64 ∧
      Held M capacity (Function.update content next (some (M.blank t))) (next :: pins) loose
        (next + 1) (room - 1) p') :=
  h.newPage_short (fun hfull => absurd hfull (not_le.mpr hpins)) hE hlimit t

theorem Held.page (h : Held M capacity content pins loose next room p) (hid : id ∈ pins) :
    ∃ pg, BufferPool.page (ε := ε) id p = (.ok (some pg), p) ∧
      M.Shows pg ((content id).getD (M.blank .data)) := page_sees h hid

theorem Held.pageMut (h : Held M capacity content pins loose next room p) (hid : id ∈ pins)
    {new : Page} {o : O} (hnew : M.Shows new o) :
    Proc.Returns (pageMut (ε := ε) id new) p (fun _ p' =>
      Held M capacity (Function.update content id (some o)) pins (id :: loose) next room p') :=
  pageMut_returns h hid hnew

theorem Held.release (h : Held M capacity content pins loose next room p) (hid : id ∈ pins)
    (hloose : id ∉ loose) :
    Proc.Returns (unpin (ε := ε) id false) p (fun _ p' =>
      Held M capacity content (pins.erase id) loose next room p') :=
  unpin_returns h hid (fun hd => by cases hd) (fun _ hin => absurd hin hloose)

/-- One of several pins of a page is released clean, also while the page is being changed. -/
theorem Held.releaseShared (h : Held M capacity content pins loose next room p) (hid : id ∈ pins)
    (hshared : id ∈ loose → id ∈ pins.erase id) :
    Proc.Returns (unpin (ε := ε) id false) p (fun _ p' =>
      Held M capacity content (pins.erase id) loose next room p') :=
  unpin_returns h hid (fun hd => by cases hd) (fun _ hin => hshared hin)

theorem Held.releaseDirty (h : Held M capacity content pins loose next room p) (hid : id ∈ pins)
    (hsome : (content id).isSome) :
    Proc.Returns (unpin (ε := ε) id true) p (fun _ p' =>
      Held M capacity content (pins.erase id) (loose.filter (· ≠ id)) next room p') :=
  unpin_returns h hid (fun _ => hsome) (fun hd => by cases hd)

theorem spend_iterate (n next room : Nat) :
    (M.toModel.spend)^[n] (next, room) = (next, room - n) := by
  induction n with
  | zero => rfl
  | succ n ih =>
      rw [Function.iterate_succ_apply', ih]
      show (next, room - n - 1) = (next, room - (n + 1))
      rw [Nat.sub_sub]

theorem Held.flushAll (h : Held M capacity content pins [] next room p)
    (hE : room < capacity → E) :
    Proc.Unless E flushAll p (fun _ p' =>
      Held M capacity content pins [] next (room - capacity) p' ∧
        M.Rep p'.store content (next, room - capacity)) := by
  refine (flushAll_ends h).mono (fun _ p' hend => ?_) (fun _ hfail => ?_) (fun hhalt => ?_)
  · obtain ⟨hcap, n, disk, hn, hrep, hdisk⟩ := hend
    have hdisk := hdisk rfl
    subst hdisk
    rw [View.spentBy, spend_iterate] at hrep
    have hstored := M.weaken (show room - capacity ≤ room - n by omega) hrep.stored
    exact ⟨⟨hcap, _, hrep.rebudget hstored⟩, hstored⟩
  · obtain ⟨n, -, hfalse⟩ := hfail
    exact False.elim hfalse
  · obtain ⟨n, hn, hhalt⟩ := hhalt
    rw [spend_iterate] at hhalt
    have hzero : room - n = 0 := hhalt
    exact hE (by omega)

theorem new_held {s : S} (hs : M.Rep s content (next, room))
    (hnew : new (ε := ε) s capacity = .ok p) : Held M capacity content [] [] next room p :=
  new_sees hs (M.writable hs) hnew

end Held
end BufferPool
end Sietch
