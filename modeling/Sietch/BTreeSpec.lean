import Sietch.BTreeShape
import Sietch.BufferPoolSpec

/-! The operations of the B+tree on pages do what those of the tree do. They start and end
without pins, and fail only if the operation on the tree does, or if the store cannot be
written any more. -/
namespace Sietch
open ByteString
open BufferPool (Held)
open SortedMap (lookup insertEntry eraseEntry Ascending)

/-- A numbered store of the pages of a B+tree. -/
structure NodeStore (S : Type) {ε : Type} [PageStore S ε] extends NumberedStore S NodePage where
  shows_iff : ∀ {p o}, Shows p o ↔ NodePage.Shown p o
  blank_eq : ∀ t, blank t = .blank t

namespace BTree

attribute [local irreducible] pageCapacity Page.new

variable {S ε : Type} [PageStore S ε] {M : NodeStore S} {capacity : Nat}
  {content : PageId → Option NodePage} {pins loose : List PageId} {next room : Nat}
  {p : BufferPool S} {id : PageId} {o : NodePage} {E : Prop}

/-- The client of the pool is the tree, between two operations. -/
abbrev Quiet (M : NodeStore S) (capacity : Nat) (content : PageId → Option NodePage)
    (next room : Nat) (p : BufferPool S) : Prop :=
  Held M.toNumberedStore capacity content [] [] next room p

/-- The same, with pins that earlier operations have left behind, some of them on pages that
were changed. -/
abbrev Idle (M : NodeStore S) (capacity : Nat) (pins loose : List PageId)
    (content : PageId → Option NodePage) (next room : Nat) (p : BufferPool S) : Prop :=
  Held M.toNumberedStore capacity content pins loose next room p

structure CanPin (pins loose : List PageId) (capacity : Nat) : Prop where
  frames : pins.length < capacity
  count : pins.length + 1 < 2 ^ 32
  loose : ∀ i ∈ loose, i ∈ pins

theorem canPin_pos (hpos : 0 < capacity) : CanPin [] [] capacity :=
  ⟨hpos, by simp, fun _ hi => hi⟩

theorem canPin_nil (hcap : 2 ≤ capacity) : CanPin [] [] capacity :=
  canPin_pos (Nat.lt_of_lt_of_le Nat.zero_lt_two hcap)

section Rules
variable {α : Type} {Q : α → BufferPool S → Prop}

omit [PageStore S ε] in
theorem pageOf_eq {pg : Page} (hpage : BufferPool.page (ε := ε) id p = (.ok (some pg), p)) :
    pageOf (ε := ε) id p = (.ok pg, p) := by
  have hcall : onPool (BufferPool.page (ε := ε) id) p = (.ok (some pg), p) := by
    rw [onPool, Proc.mapErr, hpage]
  rw [pageOf, Proc.bind_ok hcall]
  rfl

theorem pageOf_held (h : Held M.toNumberedStore capacity content pins loose next room p)
    (hid : id ∈ pins) (ho : content id = some o) :
    ∃ pg, pageOf (ε := ε) id p = (.ok pg, p) ∧ NodePage.Shown pg o := by
  obtain ⟨pg, hpage, hshown⟩ := h.page (ε := ε) hid
  rw [ho, Option.getD_some, M.shows_iff] at hshown
  exact ⟨pg, pageOf_eq hpage, hshown⟩

theorem pageOf_blank (h : Held M.toNumberedStore capacity content pins loose next room p)
    (hid : id ∈ pins) (ho : content id = none) :
    ∃ pg, pageOf (ε := ε) id p = (.ok pg, p) ∧ NodePage.Shown pg (.blank .data) := by
  obtain ⟨pg, hpage, hshown⟩ := h.page (ε := ε) hid
  rw [ho, Option.getD_none, M.blank_eq, M.shows_iff] at hshown
  exact ⟨pg, pageOf_eq hpage, hshown⟩

theorem fetch_idle (hpin : CanPin pins loose capacity) (h : Idle M capacity pins loose content next room p)
    (hid : id < next) (hE : room = 0 → E) :
    Proc.Unless E (fetch (ε := ε) id) p (fun _ p' =>
      Idle M capacity (id :: pins) loose content next (room - 1) p') :=
  Proc.Ends.mapErr (h.fetch hpin.frames hpin.count hid hE) _

theorem fetch_quiet (hcap : 2 ≤ capacity) (h : Quiet M capacity content next room p)
    (hid : id < next) (hE : room = 0 → E) :
    Proc.Unless E (fetch (ε := ε) id) p (fun _ p' =>
      Held M.toNumberedStore capacity content [id] [] next (room - 1) p') :=
  fetch_idle (canPin_nil hcap) h hid hE

theorem visit_idle (hpin : CanPin pins loose capacity) (h : Idle M capacity pins loose content next room p)
    (hid : id < next) (ho : content id = some o) (hE : room = 0 → E) {f : Page → Op S ε α}
    (hf : ∀ pg p', NodePage.Shown pg o →
      Idle M capacity (id :: pins) loose content next (room - 1) p' → Proc.Unless E (f pg) p' Q) :
    Proc.Unless E (fetch id >>= fun _ => pageOf id >>= f) p Q := by
  refine Proc.Unless.bind (fetch_idle hpin h hid hE) (fun _ p' h' => ?_)
  obtain ⟨pg, hpage, hshown⟩ := pageOf_held (ε := ε) h' (List.mem_cons_self ..) ho
  exact Proc.Unless.step hpage (hf pg p' hshown h')

theorem visit (hcap : 2 ≤ capacity) (h : Quiet M capacity content next room p) (hid : id < next)
    (ho : content id = some o) (hE : room = 0 → E) {f : Page → Op S ε α}
    (hf : ∀ pg p', NodePage.Shown pg o →
      Held M.toNumberedStore capacity content [id] [] next (room - 1) p' →
      Proc.Unless E (f pg) p' Q) :
    Proc.Unless E (fetch id >>= fun _ => pageOf id >>= f) p Q :=
  visit_idle (canPin_nil hcap) h hid ho hE hf

theorem assign_held (h : Held M.toNumberedStore capacity content pins loose next room p)
    (hid : id ∈ pins) {new : Page} (hnew : NodePage.Shown new o) :
    Proc.Returns (assign (ε := ε) id new) p (fun _ p' => Held M.toNumberedStore capacity
      (Function.update content id (some o)) pins (id :: loose) next room p') :=
  (h.pageMut hid (M.shows_iff.mpr hnew)).mapErr _

theorem unpin_clean (h : Held M.toNumberedStore capacity content (id :: pins) loose
    next room p) (hid : id ∉ loose) :
    Proc.Returns (unpin (ε := ε) id false) p (fun _ p' =>
      Held M.toNumberedStore capacity content pins loose next room p') := by
  have hrel := h.release (ε := ε) (List.mem_cons_self ..) hid
  rw [List.erase_cons_head] at hrel
  exact hrel.mapErr _

theorem unpin_shared (hpin : CanPin pins loose capacity)
    (h : Idle M capacity (id :: pins) loose content next room p) :
    Proc.Returns (unpin (ε := ε) id false) p (fun _ p' =>
      Idle M capacity pins loose content next room p') := by
  have hrel := h.releaseShared (ε := ε) (List.mem_cons_self ..) (fun hin => by
    rw [List.erase_cons_head]
    exact hpin.loose id hin)
  rw [List.erase_cons_head] at hrel
  exact hrel.mapErr _

theorem unpin_dirty (h : Held M.toNumberedStore capacity content (id :: pins) loose
    next room p) (hsome : (content id).isSome) :
    Proc.Returns (unpin (ε := ε) id true) p (fun _ p' => Held M.toNumberedStore capacity
      content pins (loose.filter (· ≠ id)) next room p') := by
  have hrel := h.releaseDirty (ε := ε) (List.mem_cons_self ..) hsome
  rw [List.erase_cons_head] at hrel
  exact hrel.mapErr _

theorem newPage_short (h : Held M.toNumberedStore capacity content pins loose next room p)
    (hpins : capacity ≤ pins.length → E) (hE : room = 0 → E) (hlimit : 2 ^ 64 ≤ next + 1 → E)
    (t : PageType) {f : PageId → Op S ε α}
    (hf : next + 1 < 2 ^ 64 → ∀ p', Held M.toNumberedStore capacity
      (Function.update content next (some (.blank t))) (next :: pins) loose (next + 1) (room - 1) p' →
      Proc.Unless E (f next) p' Q) :
    Proc.Unless E (newPage t >>= f) p Q := by
  refine Proc.Unless.bind (Proc.Ends.mapErr (h.newPage_short hpins hE hlimit t) _) ?_
  rintro _ p' ⟨rfl, hlt, h'⟩
  rw [M.blank_eq] at h'
  exact hf hlt p' h'

theorem newPage_held (h : Held M.toNumberedStore capacity content pins loose next room p)
    (hpins : pins.length < capacity) (hE : room = 0 → E) (hlimit : 2 ^ 64 ≤ next + 1 → E)
    (t : PageType) {f : PageId → Op S ε α}
    (hf : next + 1 < 2 ^ 64 → ∀ p', Held M.toNumberedStore capacity
      (Function.update content next (some (.blank t))) (next :: pins) loose (next + 1) (room - 1) p' →
      Proc.Unless E (f next) p' Q) :
    Proc.Unless E (newPage t >>= f) p Q :=
  newPage_short h (fun hfull => absurd hfull (not_le.mpr hpins)) hE hlimit t hf

omit [PageStore S ε] in
theorem rebuilt_leaf {es : List Entry} {sibling : PageId} (hsibling : sibling < 2 ^ 64)
    (hE : ¬ pageCapacity.leaf es = true → E) {f : Page → Op S ε α}
    (hf : pageCapacity.leaf es = true → ∀ pg, NodePage.Shown pg (.leaf es sibling) →
      Proc.Unless E (f pg) p Q) :
    Proc.Unless E (rebuilt (buildLeaf es sibling) >>= f) p Q := by
  by_cases hfit : pageCapacity.leaf es = true
  · obtain ⟨pg, hbuild, hshown⟩ := NodePage.buildLeaf_ok ((leaf_fits_iff es sibling).mpr hfit) hsibling
    rw [hbuild]
    exact Proc.Unless.step rfl (hf hfit pg hshown)
  · obtain ⟨need, free, hbuild⟩ :=
      NodePage.buildLeaf_full (fun hf => hfit ((leaf_fits_iff es sibling).mp hf))
    rw [hbuild]
    exact hE hfit

omit [PageStore S ε] in
theorem rebuilt_inner {C : Type} {g : C → PageId} {ch : Chain Bytes C}
    (hids : ∀ c ∈ ch.children, g c < 2 ^ 64) (hE : ¬ pageCapacity.node ch.seps = true → E)
    {f : Page → Op S ε α}
    (hf : pageCapacity.node ch.seps = true → ∀ pg,
      NodePage.Shown pg (.inner (entriesFrom g none ch)) → Proc.Unless E (f pg) p Q) :
    Proc.Unless E (rebuilt (buildInternal (entriesFrom g none ch)) >>= f) p Q := by
  by_cases hfit : pageCapacity.node ch.seps = true
  · obtain ⟨pg, hbuild, hshown⟩ :=
      NodePage.buildInternal_ok ((inner_fits_iff g ch).mpr hfit) (children_lt g none hids)
    rw [hbuild]
    exact Proc.Unless.step rfl (hf hfit pg hshown)
  · obtain ⟨need, free, hbuild⟩ :=
      NodePage.buildInternal_full (fun hf => hfit ((inner_fits_iff g ch).mp hf))
    rw [hbuild]
    exact hE hfit

end Rules

section Get
variable {n fuel : Nat} {t : BPlusTree Bytes Bytes n}

theorem getRecursive_idle (hpin : CanPin pins loose capacity) (key : Bytes) (hfuel : n < fuel)
    (h : Idle M capacity pins loose content next room p) (ht : Stored content t)
    (hids : ∀ i ∈ t.ids, i < next) (hE : room < n + 1 → E) :
    Proc.Unless E (getRecursive key fuel t.id) p (fun r p' =>
      r = lookup key (t.leafOf key).entries ∧ Idle M capacity pins loose content next (room - (n + 1)) p') := by
  induction n generalizing fuel p room with
  | zero =>
      obtain ⟨fuel, rfl⟩ := Nat.exists_eq_add_of_lt hfuel
      rw [Nat.zero_add, getRecursive]
      refine visit_idle hpin h (hids _ t.id_mem_ids) ht (fun hr => hE (by omega)) (fun pg p₁ hpg h₁ => ?_)
      simp only [show pg.pageType = .btreeLeaf from hpg.hasType, hpg.readLeafEntries]
      refine Proc.Unless.step rfl ?_
      refine Proc.Unless.bind ((unpin_shared hpin h₁).unless E) (fun _ p₂ h₂ => ?_)
      exact (Proc.returns_pure ⟨find?_eq_lookup _ _, h₂⟩).unless E
  | succ n ih =>
      obtain ⟨fuel, rfl⟩ := Nat.exists_eq_add_of_lt hfuel
      rw [getRecursive]
      refine visit_idle hpin h (hids _ t.id_mem_ids) ht.1 (fun hr => hE (by omega))
        (fun pg p₁ hpg h₁ => ?_)
      simp only [show pg.pageType = .btreeInternal from hpg.hasType, hpg.readInternalEntries]
      refine Proc.Unless.step rfl ?_
      rw [route_entriesFrom]
      refine Proc.Unless.step rfl ?_
      refine Proc.Unless.bind ((unpin_shared hpin h₁).unless E) (fun _ p₂ h₂ => ?_)
      have hroute : ∀ i ∈ ((Branch.chain t).route key).ids, i < next := fun i hi =>
        hids i (BPlusTree.mem_ids_of_route key hi)
      refine (ih (by omega) h₂ (ht.route key) hroute (fun hr => hE (by omega))).mono ?_ (fun hE => hE)
      rintro r p₃ ⟨hr, h₃⟩
      exact ⟨hr, by rwa [Nat.sub_sub, Nat.add_comm 1] at h₃⟩

end Get
section Insert
variable {n fuel : Nat} {key value : Bytes}

def promoted {C : Type} (f : C → PageId) : Grown Bytes C → Option (Bytes × PageId)
  | .one _ => none
  | .two _ s r => some (s, f r)

/-- A full leaf is split, for which a second frame is needed. -/
theorem insertLeaf_short (htwo : capacity < 2 → E) {l : Leaf Bytes Bytes} {pg : Page}
    (h : Held M.toNumberedStore capacity content [l.id] [] next room p)
    (hpg : NodePage.Shown pg (.leaf l.entries l.next)) (hid : l.id < next)
    (hE : room = 0 → E) (hnone : l.insert pageCapacity key value next = none → E) :
    Proc.Unless E (insertLeaf key value l.id pg) p (fun r p' => ∃ g next' content',
      l.insert pageCapacity key value next = some (g, next') ∧ r = promoted Leaf.id g ∧
      Quiet M capacity content' next' (room - 1) p' ∧
      (∀ c ∈ g.chain.children, content' c.id = some (.leaf c.entries c.next)) ∧
      ∀ i, i ≠ l.id → (i < next ∨ next' ≤ i) → content' i = content i) := by
  have hsib : l.next < 2 ^ 64 := hpg.ids l.next (List.mem_singleton_self _)
  rw [insertLeaf, hpg.readLeafSibling, hpg.readLeafEntries]
  refine Proc.Unless.step rfl (Proc.Unless.step rfl ?_)
  rw [upsert_eq]
  simp only
  by_cases hfit : pageCapacity.leaf (insertEntry key value l.entries) = true
  · -- the leaf has room for the entry
    obtain ⟨new, hbuild, hnew⟩ := NodePage.buildLeaf_ok ((leaf_fits_iff _ l.next).mpr hfit) hsib
    simp only [hbuild]
    refine Proc.Unless.bind ((assign_held h (List.mem_singleton_self _) hnew).unless E)
      (fun _ p₁ h₁ => Proc.Unless.step rfl ?_)
    refine Proc.Unless.bind ((unpin_dirty h₁ (by simp)).unless E) (fun _ p₂ h₂ => ?_)
    refine (Proc.returns_pure ⟨.one { l with entries := insertEntry key value l.entries }, next, _,
      ?_, rfl, (by simpa using h₂.weaken (Nat.sub_le room 1)), ?_, ?_⟩).unless E
    · rw [Leaf.insert, if_pos hfit]
    · simp [Chain.children]
    · intro i hi _
      exact Function.update_of_ne hi _ _
  · -- the entries go to two leaves
    obtain ⟨e, right, hdrop, hins⟩ := Leaf.insert_of_full (l := l) next hfit
    obtain ⟨need, free, hbuild⟩ :=
      NodePage.buildLeaf_full (fun hf => hfit ((leaf_fits_iff _ l.next).mp hf))
    simp only [hbuild, splitAtMidpoint]
    rw [hdrop]
    generalize (insertEntry key value l.entries).take
      ((insertEntry key value l.entries).length / 2) = left at hins ⊢
    rw [hins] at hnone ⊢
    have hlimit : pageCapacity.limit = 2 ^ 64 := by rw [pageCapacity]
    have hne : next ≠ l.id := (ne_of_lt hid).symm
    refine newPage_short h (fun hfull => htwo (Nat.lt_succ_of_le hfull)) hE
      (fun hlt => hnone (if_neg fun hok => ?_)) _ (fun hlt p₁ h₁ => ?_)
    · rw [hlimit] at hok
      omega
    refine rebuilt_leaf (Nat.lt_of_succ_lt hlt) (fun hno => hnone (if_neg fun hok => hno hok.2.1))
      (fun hleft pg₁ hpg₁ => ?_)
    refine Proc.Unless.bind ((assign_held h₁ (by simp) hpg₁).unless E) (fun _ p₂ h₂ => ?_)
    refine rebuilt_leaf hsib (fun hno => hnone (if_neg fun hok => hno hok.2.2))
      (fun hright pg₂ hpg₂ => ?_)
    refine Proc.Unless.bind ((assign_held h₂ (by simp) hpg₂).unless E)
      (fun _ p₃ h₃ => Proc.Unless.step rfl ?_)
    refine Proc.Unless.bind ((unpin_dirty h₃ (by simp)).unless E)
      (fun _ p₄ h₄ => Proc.Unless.step rfl ?_)
    refine Proc.Unless.bind ((unpin_dirty h₄ (by simp [hne.symm])).unless E) (fun _ p₅ h₅ => ?_)
    refine (Proc.returns_pure ⟨_, next + 1, _, if_pos ⟨by rw [hlimit]; exact hlt, hleft, hright⟩,
      rfl, (by simpa [hne.symm] using h₅), ?_, ?_⟩).unless E
    · simp [Chain.children, hne.symm]
    · rintro i hi hfree
      have hnew : i ≠ next := hfree.elim (fun hlt => hlt.ne) (fun hle => (Nat.lt_of_succ_le hle).ne')
      simp [hi, hnew]

theorem insertChild_short (hone : 0 < capacity) (htwo : capacity < 2 → E) {C : Type} {f : C → PageId} {b : Branch Bytes C}
    {g : Grown Bytes C} {entries : List InternalEntry} {sep : Bytes} {newChild : PageId} {pos : Nat}
    (h : Quiet M capacity content next room p) (hid : b.id < next)
    (hb : content b.id = some (.inner entries)) (hpos : insertPosition entries sep = some pos)
    (hins : entries.insertIdx pos ⟨some sep, newChild⟩ =
      entriesFrom f none (b.chain.splice key g.chain))
    (hids : ∀ c ∈ (b.chain.splice key g.chain).children, f c < 2 ^ 64)
    (hE : room < 2 → E) (hnone : b.absorb pageCapacity key g next = none → E) :
    Proc.Unless E (insertChild b.id sep newChild) p (fun r p' => ∃ g' next' content',
      b.absorb pageCapacity key g next = some (g', next') ∧ r = promoted Branch.id g' ∧
      Quiet M capacity content' next' (room - 2) p' ∧
      (∀ c ∈ g'.chain.children, content' c.id = some (.inner (entriesFrom f none c.chain))) ∧
      ∀ i, i ≠ b.id → (i < next ∨ next' ≤ i) → content' i = content i) := by
  rw [insertChild]
  refine visit_idle (canPin_pos hone) h hid hb (fun hr => hE (by omega)) (fun pg p₁ hpg h₁ => ?_)
  rw [hpg.readInternalEntries]
  refine Proc.Unless.step rfl ?_
  rw [hpos]
  refine Proc.Unless.step rfl ?_
  rw [hins]
  rw [Branch.absorb] at hnone ⊢
  generalize b.chain.splice key g.chain = ch at hids hnone ⊢
  simp only
  by_cases hfit : pageCapacity.node ch.seps = true
  · obtain ⟨new, hbuild, hnew⟩ :=
      NodePage.buildInternal_ok ((inner_fits_iff f ch).mpr hfit) (children_lt f none hids)
    simp only [hbuild]
    refine Proc.Unless.bind ((assign_held h₁ (List.mem_singleton_self _) hnew).unless E)
      (fun _ p₂ h₂ => Proc.Unless.step rfl ?_)
    refine Proc.Unless.bind ((unpin_dirty h₂ (by simp)).unless E) (fun _ p₃ h₃ => ?_)
    refine (Proc.returns_pure ⟨.one ⟨b.id, ch⟩, next, _, if_pos hfit, rfl,
      (by simpa using h₃.weaken (show room - 2 ≤ room - 1 by omega)), ?_, ?_⟩).unless E
    · simp [Chain.children]
    · intro i hi _
      exact Function.update_of_ne hi _ _
  · obtain ⟨need, free, hbuild⟩ :=
      NodePage.buildInternal_full (fun hf => hfit ((inner_fits_iff f ch).mp hf))
    simp only [if_neg hfit] at hnone ⊢
    simp only [hbuild, splitAtMidpoint, length_entriesFrom]
    cases hsplit : ch.splitAt (max (ch.children.length / 2) 1) with
    | none =>
        -- there is nothing to promote
        have hshort : ¬ max (ch.children.length / 2) 1 ≤ ch.seps.length := by
          intro hle
          have hsome := Chain.splitAt_isSome (show 0 < max (ch.children.length / 2) 1 by omega) hle
          rw [hsplit] at hsome
          cases hsome
        have hget : (entriesFrom f none ch)[max (ch.children.length / 2) 1]? = none := by
          rw [List.getElem?_eq_none_iff, length_entriesFrom, Chain.length_children]
          rw [Chain.length_children] at hshort
          omega
        rw [hsplit] at hnone
        rw [hget]
        exact hnone rfl
    | some parts =>
        obtain ⟨l, s, r⟩ := parts
        obtain ⟨htake, hget, hdrop⟩ := entriesFrom_splitAt f none hsplit
        rw [hsplit] at hnone
        simp only at hnone ⊢
        rw [hget]
        refine Proc.Unless.step rfl (Proc.Unless.step rfl ?_)
        rw [htake, hdrop]
        obtain ⟨rfl, -⟩ := Chain.splitAt_eq hsplit
        rw [Chain.children_append] at hids
        obtain ⟨hidsl, hidsr⟩ := List.forall_mem_append.mp hids
        have hlimit : pageCapacity.limit = 2 ^ 64 := by rw [pageCapacity]
        have hne : next ≠ b.id := (ne_of_lt hid).symm
        refine rebuilt_inner hidsl (fun hno => hnone (if_neg fun hok => hno hok.2.1))
          (fun hleft pg₁ hpg₁ => ?_)
        refine Proc.Unless.bind ((assign_held h₁ (by simp) hpg₁).unless E) (fun _ p₂ h₂ => ?_)
        refine newPage_short h₂ (fun hfull => htwo (Nat.lt_succ_of_le hfull)) (fun hr => hE (by omega))
          (fun hlt => hnone (if_neg fun hok => ?_)) _ (fun hlt p₃ h₃ => ?_)
        · rw [hlimit] at hok
          omega
        refine rebuilt_inner hidsr (fun hno => hnone (if_neg fun hok => hno hok.2.2))
          (fun hright pg₂ hpg₂ => ?_)
        refine Proc.Unless.bind ((assign_held h₃ (by simp) hpg₂).unless E) (fun _ p₄ h₄ => ?_)
        refine Proc.Unless.bind ((unpin_dirty h₄ (by simp)).unless E)
          (fun _ p₅ h₅ => Proc.Unless.step rfl ?_)
        refine Proc.Unless.bind ((unpin_dirty h₅ (by simp [hne.symm])).unless E)
          (fun _ p₆ h₆ => ?_)
        refine (Proc.returns_pure ⟨_, next + 1, _,
          if_pos ⟨by rw [hlimit]; exact hlt, hleft, hright⟩, rfl,
          (by simpa [hne.symm, Nat.sub_sub] using h₆), ?_, ?_⟩).unless E
        · simp [Chain.children, hne.symm]
        · rintro i hi hfree
          have hnew : i ≠ next :=
            hfree.elim (fun hlt => hlt.ne) (fun hle => (Nat.lt_of_succ_le hle).ne')
          simp [hi, hnew]

/-- After the child has changed, the new children of the branch are stored, apart from the
branch itself. -/
theorem stored_splice {t : BPlusTree Bytes Bytes (n + 1)} {content' : PageId → Option NodePage}
    {g : Grown Bytes (BPlusTree Bytes Bytes n)} {next' : Nat} (ht : Stored content t)
    (hnodup : t.ids.Nodup) (hids : ∀ i ∈ t.ids, i < next)
    (hins : ((Branch.chain t).route key).insert pageCapacity key value next = some (g, next'))
    (hg : ∀ c ∈ g.chain.children, Stored content' c)
    (hframe : ∀ i, i ∉ ((Branch.chain t).route key).ids → (i < next ∨ next' ≤ i) →
      content' i = content i) :
    ∀ c ∈ ((Branch.chain t).splice key g.chain).children,
      Stored content' c ∧ ∀ i ∈ c.ids, i ≠ Branch.id t ∧ i < next' := by
  obtain ⟨hroot, -, hothers⟩ := BPlusTree.ids_apart hnodup key
  obtain ⟨hle, hperm⟩ := BPlusTree.ids_insert hins
  have hchild : ∀ c ∈ (Branch.chain t).children, ∀ i ∈ c.ids, i < next := fun c hc i hi =>
    hids i (List.mem_cons_of_mem _ (List.mem_flatMap.mpr ⟨c, hc, hi⟩))
  have hother : ∀ c, c ∈ ((Branch.chain t).locate key).1 ∨ c ∈ ((Branch.chain t).locate key).2.2 →
      Stored content' c ∧ ∀ i ∈ c.ids, i ≠ Branch.id t ∧ i < next' := by
    intro c hc
    have hmem : c ∈ (Branch.chain t).children := by
      rw [Chain.children_locate key]
      rcases hc with hc | hc
      · exact List.mem_append_left _ hc
      · exact List.mem_append_right _ (List.mem_cons_of_mem _ hc)
    refine ⟨(ht.2 c hmem).frame (fun i hi => ?_), fun i hi => ⟨(hothers c hc i hi).1, ?_⟩⟩
    · exact hframe i (hothers c hc i hi).2 (.inl (hchild c hmem i hi))
    · exact (hchild c hmem i hi).trans_le hle
  intro c hc
  rw [Chain.children_splice, List.mem_append, List.mem_append] at hc
  rcases hc with (hc | hc) | hc
  · exact hother c (.inl hc)
  · refine ⟨hg c hc, fun i hi => ?_⟩
    have hmem := hperm.mem_iff.mp (List.mem_flatMap.mpr ⟨c, hc, hi⟩)
    rcases List.mem_append.mp hmem with hnew | hold
    · obtain ⟨hge, hlt⟩ := List.mem_range'_1.mp hnew
      have hroot_lt := hids _ t.id_mem_ids
      exact ⟨(hroot_lt.trans_le hge).ne', hlt.trans_le (by omega)⟩
    · refine ⟨fun heq => hroot (heq ▸ hold), ?_⟩
      exact (hchild _ (Chain.route_mem key _) i hold).trans_le hle
  · exact hother c (.inr hc)

/-- `insert_recursive` does what insertion in the tree does, and touches no other page. -/
theorem insertRecursive_short (hone : 0 < capacity) (htwo : capacity < 2 → E) {t : BPlusTree Bytes Bytes n}
    {lo hi : Option Bytes} (hfuel : n < fuel) (h : Quiet M capacity content next room p)
    (ht : Stored content t) (hordered : t.Ordered lo hi) (hk : Chain.Within lo hi key)
    (hfits : t.Fits pageCapacity) (hnodup : t.ids.Nodup) (hids : ∀ i ∈ t.ids, i < next)
    (hlimit : next ≤ 2 ^ 64) (hE : room < 3 * n + 2 → E)
    (hnone : t.insert pageCapacity key value next = none → E) :
    Proc.Unless E (insertRecursive key value fuel t.id) p (fun r p' => ∃ g next' content',
      t.insert pageCapacity key value next = some (g, next') ∧ r = promoted BPlusTree.id g ∧
      Quiet M capacity content' next' (room - (3 * n + 2)) p' ∧
      (∀ c ∈ g.chain.children, Stored content' c) ∧
      ∀ i, i ∉ t.ids → (i < next ∨ next' ≤ i) → content' i = content i) := by
  induction n generalizing fuel p room lo hi with
  | zero =>
      obtain ⟨fuel, rfl⟩ := Nat.exists_eq_add_of_lt hfuel
      rw [Nat.zero_add, insertRecursive]
      refine visit_idle (canPin_pos hone) h (hids _ t.id_mem_ids) ht (fun hr => hE (by omega)) (fun pg p₁ hpg h₁ => ?_)
      simp only [show pg.pageType = .btreeLeaf from hpg.hasType]
      refine (insertLeaf_short htwo h₁ hpg (hids _ t.id_mem_ids) (fun hr => hE (by omega))
        hnone).mono ?_ (fun hE => hE)
      rintro r p₂ ⟨g, next', content', hins, hr, h₂, hstored, hframe⟩
      refine ⟨g, next', content', hins, hr, by rwa [Nat.sub_sub] at h₂, hstored, fun i hi => ?_⟩
      exact hframe i (fun heq => hi (List.mem_singleton.mpr heq))
  | succ n ih =>
      obtain ⟨fuel, rfl⟩ := Nat.exists_eq_add_of_lt hfuel
      rw [insertRecursive]
      refine visit_idle (canPin_pos hone) h (hids _ t.id_mem_ids) ht.1 (fun hr => hE (by omega))
        (fun pg p₁ hpg h₁ => ?_)
      simp only [show pg.pageType = .btreeInternal from hpg.hasType, hpg.readInternalEntries]
      refine Proc.Unless.step rfl ?_
      rw [route_entriesFrom]
      refine Proc.Unless.step rfl ?_
      refine Proc.Unless.bind ((unpin_clean h₁ List.not_mem_nil).unless E) (fun _ p₂ h₂ => ?_)
      obtain ⟨hroot, hrouteNodup, -⟩ := BPlusTree.ids_apart hnodup key
      have hrouteIds : ∀ i ∈ ((Branch.chain t).route key).ids, i < next := fun i hi =>
        hids i (BPlusTree.mem_ids_of_route key hi)
      have hslot := Chain.within_slot hk (Branch.chain t)
      refine Proc.Unless.bind (ih (by omega) h₂ (ht.route key) (Chain.Spanned.route hordered key)
        hslot (hfits.route key) hrouteNodup hrouteIds (fun hr => hE (by omega))
        (fun hchild => hnone (by rw [BPlusTree.insert, hchild]))) ?_
      rintro r p₃ ⟨g, next₁, content₁, hins, rfl, h₃, hg, hframe⟩
      have hstored := stored_splice ht hnodup hids hins hg hframe
      have hrootId := hids _ t.id_mem_ids
      have hpage : content₁ (Branch.id t) = content (Branch.id t) := hframe _ hroot (.inl hrootId)
      rw [ht.1] at hpage
      have hspan := (Chain.Spanned.route hordered key).insert hslot hins
      rw [BPlusTree.insert, hins] at hnone ⊢
      simp only at hnone ⊢
      cases g with
      | one c =>
          -- the page of the branch stays as it is
          have hsame := entriesFrom_splice_last BPlusTree.id
            (show c.id = _ from BPlusTree.head_insert hins) none
          have hfit : pageCapacity.node ((Branch.chain t).splice key (Chain.last c)).seps = true := by
            rw [Chain.seps_splice_last]
            exact hfits.1
          refine (Proc.returns_pure ⟨.one ⟨Branch.id t, (Branch.chain t).splice key (.last c)⟩, next₁,
            content₁, ?_, rfl, h₃.weaken (by omega), ?_, fun i hi => ?_⟩).unless E
          · rw [Branch.absorb]
            exact if_pos hfit
          · refine List.forall_mem_singleton.mpr ⟨?_, fun d hd => (hstored d hd).1⟩
            simp only [hsame]
            exact hpage
          · exact hframe i (fun hin => hi (List.mem_cons_of_mem _
              (List.mem_flatMap.mpr ⟨_, Chain.route_mem key _, hin⟩)))
      | two c s d =>
          have hle := (BPlusTree.ids_insert hins).1
          have hlimit₁ := BPlusTree.insert_limit hins (by rw [pageCapacity]; exact hlimit)
          rw [show pageCapacity.limit = 2 ^ 64 by rw [pageCapacity]] at hlimit₁
          have hsame := entriesFrom_splice_last BPlusTree.id
            (show c.id = _ from BPlusTree.head_insert hins) none
          have hattach := Chain.Spanned.attach_splice hordered (c := c) (d := d) hspan.1.1 hspan.1.2
          obtain ⟨pos, hpos, hinsert⟩ := insertPosition_entriesFrom BPlusTree.id s d none
            ((Branch.chain t).splice key (.last c))
          rw [hsame, hattach] at hinsert
          rw [hsame] at hpos
          refine (insertChild_short hone htwo (b := t) (g := .two c s d) h₃ (hrootId.trans_le hle) hpage
            hpos hinsert (fun e he => ?_) (fun hr => hE (by omega)) hnone).mono ?_ (fun hE => hE)
          · exact ((hstored e he).2 _ e.id_mem_ids).2.trans_le hlimit₁
          rintro r p₄ ⟨g', next', content', habsorb, hr, h₄, hpages, hframe'⟩
          have hkeep : ∀ e ∈ ((Branch.chain t).splice key (.cons c s (.last d))).children,
              Stored content' e := fun e he =>
            (hstored e he).1.frame (fun i hi =>
              hframe' i ((hstored e he).2 i hi).1 (.inl ((hstored e he).2 i hi).2))
          refine ⟨g', next', content', habsorb, hr, h₄.weaken (by omega), ?_, fun i hi hfree => ?_⟩
          · rcases Branch.absorb_cases habsorb with ⟨-, rfl, -⟩ | ⟨l, j, r, hsplit, -, -, rfl, -⟩
            · exact List.forall_mem_singleton.mpr ⟨hpages _ (by simp [Chain.children]), hkeep⟩
            · rw [Grown.chain_two] at hsplit
              rw [hsplit, Chain.children_append] at hkeep
              obtain ⟨hl, hr⟩ := List.forall_mem_append.mp hkeep
              exact List.forall_mem_cons.mpr ⟨⟨hpages _ (by simp [Chain.children]), hl⟩,
                List.forall_mem_singleton.mpr ⟨hpages _ (by simp [Chain.children]), hr⟩⟩
          · have hnext' : next₁ ≤ next' := by
              rcases Branch.absorb_cases habsorb with ⟨-, -, rfl⟩ | ⟨l, j, r, -, -, -, -, rfl⟩
              · exact le_refl _
              · exact Nat.le_succ _
            rw [hframe' i (fun heq => hi (heq ▸ t.id_mem_ids))
              (hfree.imp (fun hlt => hlt.trans_le hle) (fun hge => hge))]
            refine hframe i (fun hin => hi (List.mem_cons_of_mem _
              (List.mem_flatMap.mpr ⟨_, Chain.route_mem key _, hin⟩))) ?_
            exact hfree.imp (fun hlt => hlt) (fun hge => hnext'.trans hge)

end Insert
section Delete
variable {n fuel : Nat} {key : Bytes}

theorem isSome_update {content : PageId → Option NodePage} {id : PageId} (o : NodePage)
    (i : PageId) (h : (content i).isSome) : (Function.update content id (some o) i).isSome := by
  rw [Function.update_apply]
  split
  · rfl
  · exact h

theorem deleteLeaf_unless {l : Leaf Bytes Bytes} {pg : Page}
    (h : Held M.toNumberedStore capacity content [l.id] [] next room p)
    (hpg : NodePage.Shown pg (.leaf l.entries l.next)) (hasc : Ascending l.entries)
    (hfits : pageCapacity.leaf l.entries = true) :
    Proc.Unless E (deleteLeaf (ε := ε) key l.id pg) p (fun r p' =>
      (l.delete key = none ∧ r.1 = false ∧ Quiet M capacity content next room p') ∨
      ∃ l' emptied, l.delete key = some (l', emptied) ∧ r = (true, emptied) ∧
        Quiet M capacity (Function.update content l.id (some (.leaf l'.entries l'.next))) next room
          p') := by
  have hsib : l.next < 2 ^ 64 := hpg.ids l.next (List.mem_singleton_self _)
  rw [deleteLeaf, hpg.readLeafSibling, hpg.readLeafEntries]
  refine Proc.Unless.step rfl (Proc.Unless.step rfl ?_)
  have hfound := isAt_lowerBound hasc key
  cases hat : isAt l.entries (lowerBound l.entries key) key with
  | false =>
      rw [hat] at hfound
      simp only [hat]
      refine Proc.Unless.bind ((unpin_clean h List.not_mem_nil).unless E) (fun _ p₁ h₁ => ?_)
      refine (Proc.returns_pure (.inl ⟨?_, rfl, h₁⟩)).unless E
      rw [Leaf.delete, ← hfound]
      rfl
  | true =>
      rw [hat] at hfound
      have herase := eraseIdx_lowerBound hasc hat
      simp only [hat, if_true, herase]
      have hsub : (eraseEntry key l.entries).Sublist l.entries := List.filter_sublist
      refine rebuilt_leaf hsib (fun hno => absurd (pageCapacity.leaf_sublist hsub hfits) hno)
        (fun _ new hnew => ?_)
      refine Proc.Unless.bind ((assign_held h (List.mem_singleton_self _) hnew).unless E)
        (fun _ p₁ h₁ => ?_)
      refine Proc.Unless.bind ((unpin_dirty h₁ (by simp)).unless E) (fun _ p₂ h₂ => ?_)
      refine (Proc.returns_pure (.inr ⟨{ l with entries := eraseEntry key l.entries }, _, ?_, rfl,
        (by simpa using h₂)⟩)).unless E
      rw [Leaf.delete, ← hfound]
      rfl

/-- The parent drops the child that the key belongs to, unless it is the only one. -/
theorem dropChild_unless (hcap : 2 ≤ capacity) {C : Type} {f : C → PageId} {id : PageId}
    {ch : Chain Bytes C} (h : Quiet M capacity content next room p) (hid : id < next)
    (hb : content id = some (.inner (entriesFrom f none ch)))
    (hfits : pageCapacity.node ch.seps = true) (hE : room = 0 → E) :
    Proc.Unless E (dropChild id (ch.routeIdx key)) p (fun r p' =>
      (ch.detach key = none ∧ r = (true, true) ∧ Quiet M capacity content next (room - 1) p') ∨
      ∃ ch', ch.detach key = some ch' ∧ r = (true, false) ∧ Quiet M capacity
        (Function.update content id (some (.inner (entriesFrom f none ch')))) next (room - 1) p') := by
  rw [dropChild]
  refine visit hcap h hid hb hE (fun pg p₁ hpg h₁ => ?_)
  have hids : ∀ c ∈ ch.children, f c < 2 ^ 64 := by
    intro c hc
    refine hpg.ids _ ?_
    rw [NodePage.ids, children_entriesFrom]
    exact List.mem_map_of_mem hc
  rw [hpg.readInternalEntries]
  refine Proc.Unless.step rfl ?_
  rw [length_entriesFrom]
  cases hdetach : ch.detach key with
  | none =>
      obtain ⟨c, rfl⟩ := Chain.detach_eq_none hdetach
      simp only [Chain.routeIdx, Chain.children, List.length_singleton, and_self, if_true]
      refine Proc.Unless.bind ((unpin_clean h₁ List.not_mem_nil).unless E) (fun _ p₂ h₂ => ?_)
      exact (Proc.returns_pure (.inl ⟨trivial, rfl, h₂⟩)).unless E
  | some ch' =>
      obtain ⟨hfirst, hother⟩ := entriesFrom_detach f hdetach
      have hmany : ¬ (ch.routeIdx key = 0 ∧ ch.children.length = 1) := by
        rintro ⟨-, hlen⟩
        cases ch with
        | last c => cases hdetach
        | cons c s rest =>
            rw [Chain.length_children, Chain.seps] at hlen
            cases hlen
      have hwrite : Proc.Unless E (rebuilt (buildInternal (entriesFrom f none ch')) >>= fun new =>
          assign (ε := ε) id new >>= fun _ => unpin id true >>= fun _ =>
            pure (true, (entriesFrom f none ch').isEmpty)) p₁ (fun r p' =>
          (some ch' = none ∧ r = (true, true) ∧ Quiet M capacity content next (room - 1) p') ∨
          ∃ ch'', some ch' = some ch'' ∧ r = (true, false) ∧ Quiet M capacity
            (Function.update content id (some (.inner (entriesFrom f none ch'')))) next (room - 1)
            p') := by
        refine rebuilt_inner (fun c hc => hids c ?_) (fun hno => absurd
          (pageCapacity.node_sublist (Chain.seps_detach hdetach) hfits) hno) (fun _ new hnew => ?_)
        · rw [Chain.children_detach hdetach] at hc
          rw [Chain.children_locate key]
          rcases List.mem_append.mp hc with hc | hc
          · exact List.mem_append_left _ hc
          · exact List.mem_append_right _ (List.mem_cons_of_mem _ hc)
        refine Proc.Unless.bind ((assign_held h₁ (List.mem_singleton_self _) hnew).unless E)
          (fun _ p₂ h₂ => ?_)
        refine Proc.Unless.bind ((unpin_dirty h₂ (by simp)).unless E) (fun _ p₃ h₃ => ?_)
        refine (Proc.returns_pure (.inr ⟨ch', rfl, ?_, (by simpa using h₃)⟩)).unless E
        rw [entriesFrom_eq_cons]
        rfl
      simp only [if_neg hmany]
      by_cases hzero : ch.routeIdx key = 0
      · obtain ⟨second, hsecond, herase⟩ := hfirst hzero
        simp only [if_pos hzero, hsecond]
        refine Proc.Unless.step rfl (Proc.Unless.step rfl ?_)
        rw [herase]
        exact hwrite
      · simp only [if_neg hzero]
        refine Proc.Unless.step rfl ?_
        rw [hother hzero]
        exact hwrite

/-- `delete_recursive` does what deletion in the tree does, and touches no other page. The
leaf is on its page, also when it is not in the tree any more. -/
theorem deleteRecursive_unless (hcap : 2 ≤ capacity) {t : BPlusTree Bytes Bytes n}
    {lo hi : Option Bytes} (hfuel : n < fuel) (h : Quiet M capacity content next room p)
    (ht : Stored content t) (hordered : t.Ordered lo hi) (hfits : t.Fits pageCapacity)
    (hnodup : t.ids.Nodup) (hids : ∀ i ∈ t.ids, i < next) (hE : room < 2 * n + 1 → E) :
    Proc.Unless E (deleteRecursive key fuel t.id) p (fun r p' =>
      (t.delete key = none ∧ r.1 = false ∧ (r.2 = true → n = 0) ∧
        Quiet M capacity content next (room - (2 * n + 1)) p') ∨
      ∃ t' emptied content', t.delete key = some (t', emptied) ∧ r = (true, emptied) ∧
        Quiet M capacity content' next (room - (2 * n + 1)) p' ∧ Stored content' t' ∧
        (∀ l' e, (t.leafOf key).delete key = some (l', e) →
          content' l'.id = some (.leaf l'.entries l'.next)) ∧
        (∀ i, (content i).isSome → (content' i).isSome) ∧
        ∀ i, i ∉ t.ids → content' i = content i) := by
  induction n generalizing fuel p room lo hi with
  | zero =>
      obtain ⟨fuel, rfl⟩ := Nat.exists_eq_add_of_lt hfuel
      rw [Nat.zero_add, deleteRecursive]
      refine visit hcap h (hids _ t.id_mem_ids) ht (fun hr => hE (by omega)) (fun pg p₁ hpg h₁ => ?_)
      simp only [show pg.pageType = .btreeLeaf from hpg.hasType]
      refine (deleteLeaf_unless h₁ hpg hordered.1 hfits).mono ?_ (fun hE => hE)
      rintro r p₂ (⟨hdel, hr, h₂⟩ | ⟨l', emptied, hdel, hr, h₂⟩)
      · exact .inl ⟨hdel, hr, fun _ => trivial, h₂⟩
      · have hid : l'.id = Leaf.id t := by
          rw [(Leaf.delete_cases hdel).2.1]
        refine .inr ⟨l', emptied, _, hdel, hr, h₂, ?_, ?_, isSome_update _, fun i hi => ?_⟩
        · show Function.update content (Leaf.id t) _ (Leaf.id l') = _
          rw [hid, Function.update_self]
        · intro l'' e hdel'
          have heq := hdel'.symm.trans hdel
          cases heq
          rw [hid, Function.update_self]
        · exact Function.update_of_ne (fun heq => hi (List.mem_singleton.mpr heq)) _ _
  | succ n ih =>
      obtain ⟨fuel, rfl⟩ := Nat.exists_eq_add_of_lt hfuel
      rw [deleteRecursive]
      refine visit hcap h (hids _ t.id_mem_ids) ht.1 (fun hr => hE (by omega))
        (fun pg p₁ hpg h₁ => ?_)
      simp only [show pg.pageType = .btreeInternal from hpg.hasType, hpg.readInternalEntries]
      refine Proc.Unless.step rfl ?_
      rw [route_entriesFrom, routeIndex_entriesFrom]
      refine Proc.Unless.step rfl ?_
      refine Proc.Unless.bind ((unpin_clean h₁ List.not_mem_nil).unless E) (fun _ p₂ h₂ => ?_)
      obtain ⟨hroot, hrouteNodup, hothers⟩ := BPlusTree.ids_apart hnodup key
      have hrouteIn : ∀ i ∈ ((Branch.chain t).route key).ids, i ∈ t.ids := fun i hi =>
        BPlusTree.mem_ids_of_route key hi
      refine Proc.Unless.bind (ih (by omega) h₂ (ht.route key) (Chain.Spanned.route hordered key)
        (hfits.route key) hrouteNodup (fun i hi => hids i (hrouteIn i hi))
        (fun hr => hE (by omega))) ?_
      rintro ⟨found, childEmptied⟩ p₃ (⟨hdel, hr, -, h₃⟩ | ⟨c, emptied, content₁, hdel, hr, h₃, hc,
        hleaf, hsome, hframe⟩)
      · simp only at hr
        subst hr
        refine (Proc.returns_pure (.inl ⟨?_, rfl, (fun hd => by cases hd), h₃.weaken (by omega)⟩)).unless
          E
        rw [BPlusTree.delete, hdel]
      · cases hr
        have hold : ∀ d, d ∈ ((Branch.chain t).locate key).1 ∨
            d ∈ ((Branch.chain t).locate key).2.2 → Stored content₁ d := by
          intro d hd
          have hmem : d ∈ (Branch.chain t).children := by
            rw [Chain.children_locate key]
            rcases hd with hd | hd
            · exact List.mem_append_left _ hd
            · exact List.mem_append_right _ (List.mem_cons_of_mem _ hd)
          exact (ht.2 d hmem).frame (fun i hi => hframe i (hothers d hd i hi).2)
        have hpage : content₁ (Branch.id t) = content (Branch.id t) := hframe _ hroot
        rw [ht.1] at hpage
        have hroute : t.delete key = some (Branch.dismiss key t c childEmptied) := by
          rw [BPlusTree.delete, hdel]
        -- the child is kept, in its place
        have hkeep : Stored (n := n + 1) content₁
            ⟨Branch.id t, (Branch.chain t).splice key (.last c)⟩ := by
          refine ⟨?_, fun d hd => ?_⟩
          · simp only [entriesFrom_splice_last BPlusTree.id (BPlusTree.ids_delete hdel).1 none]
            exact hpage
          · rw [Chain.children_splice, List.mem_append, List.mem_append] at hd
            rcases hd with (hd | hd) | hd
            · exact hold d (.inl hd)
            · rw [List.mem_singleton.mp hd]
              exact hc
            · exact hold d (.inr hd)
        have hframe₁ : ∀ i, i ∉ t.ids → content₁ i = content i := fun i hi =>
          hframe i (fun hin => hi (hrouteIn i hin))
        cases childEmptied with
        | false =>
            exact (Proc.returns_pure (.inr ⟨_, _, content₁, hroute, rfl, h₃.weaken (by omega), hkeep,
              hleaf, hsome, hframe₁⟩)).unless E
        | true =>
            refine (dropChild_unless hcap h₃ (hids _ t.id_mem_ids) hpage hfits.1
              (fun hr => hE (by omega))).mono ?_ (fun hE => hE)
            rintro r p₄ (⟨hdetach, rfl, h₄⟩ | ⟨ch', hdetach, rfl, h₄⟩)
            · have hdismiss : Branch.dismiss key t c true = (⟨Branch.id t, .last c⟩, true) := by
                rw [Branch.dismiss, if_pos rfl, hdetach]
              refine .inr ⟨_, _, content₁, hroute.trans (congrArg some hdismiss), rfl,
                h₄.weaken (by omega), ?_, hleaf, hsome, hframe₁⟩
              obtain ⟨d, hd⟩ := Chain.detach_eq_none hdetach
              rw [hd] at hkeep
              exact hkeep
            · have hdismiss : Branch.dismiss key t c true = (⟨Branch.id t, ch'⟩, false) := by
                rw [Branch.dismiss, if_pos rfl, hdetach]
              refine .inr ⟨_, _, _, hroute.trans (congrArg some hdismiss), rfl,
                h₄.weaken (by omega), ⟨Function.update_self .., fun d hd => ?_⟩, fun l' e hl' => ?_,
                fun i hi => isSome_update _ i (hsome i hi), fun i hi => ?_⟩
              · rw [Chain.children_detach hdetach, List.mem_append] at hd
                exact (hold d hd).frame (fun i hi => Function.update_of_ne (hothers d hd i hi).1 _ _)
              · have hid : l'.id = (((Branch.chain t).route key).leafOf key).id := by
                  rw [(Leaf.delete_cases hl').2.1]
                  rfl
                have hin : l'.id ∈ ((Branch.chain t).route key).ids := by
                  rw [hid]
                  exact BPlusTree.leaf_mem_ids (BPlusTree.leafOf_mem key _)
                have hne : l'.id ≠ Branch.id t := fun heq => hroot (heq ▸ hin)
                exact (Function.update_of_ne hne _ _).trans (hleaf l' e hl')
              · have hne : i ≠ Branch.id t := fun heq => hi (heq ▸ t.id_mem_ids)
                exact (Function.update_of_ne hne _ _).trans (hframe₁ i hi)

end Delete

section Scan
variable {n fuel : Nat}

theorem scanChildren_idle {scan : PageId → Op S ε (List Entry)}
    {cs : List (BPlusTree Bytes Bytes n)}
    (hscan : ∀ c ∈ cs, ∀ {room p}, Idle M capacity pins loose content next room p →
      (room < c.ids.length → E) → Proc.Unless E (scan c.id) p (fun out p' => out = c.toList ∧
        Idle M capacity pins loose content next (room - c.ids.length) p'))
    (h : Idle M capacity pins loose content next room p) (hE : room < (cs.flatMap BPlusTree.ids).length → E) :
    Proc.Unless E (scanChildren scan (cs.map BPlusTree.id)) p (fun out p' =>
      out = cs.flatMap BPlusTree.toList ∧
      Idle M capacity pins loose content next (room - (cs.flatMap BPlusTree.ids).length) p') := by
  induction cs generalizing room p with
  | nil => exact (Proc.returns_pure ⟨rfl, h⟩).unless E
  | cons c cs ih =>
      simp only [List.flatMap_cons, List.length_append] at hE ⊢
      rw [List.map_cons, scanChildren]
      refine Proc.Unless.bind (hscan c (List.mem_cons_self ..) h (fun hr => hE (by omega))) ?_
      rintro _ p₁ ⟨rfl, h₁⟩
      refine Proc.Unless.bind (ih (fun d hd => hscan d (List.mem_cons_of_mem _ hd)) h₁
        (fun hr => hE (by omega))) ?_
      rintro _ p₂ ⟨rfl, h₂⟩
      rw [Nat.sub_sub] at h₂
      exact (Proc.returns_pure ⟨rfl, h₂⟩).unless E

theorem scanRecursive_idle (hpin : CanPin pins loose capacity) {t : BPlusTree Bytes Bytes n} (hfuel : n < fuel)
    (h : Idle M capacity pins loose content next room p) (ht : Stored content t)
    (hids : ∀ i ∈ t.ids, i < next) (hE : room < t.ids.length → E) :
    Proc.Unless E (scanRecursive fuel t.id) p (fun out p' => out = t.toList ∧
      Idle M capacity pins loose content next (room - t.ids.length) p') := by
  induction n generalizing fuel p room with
  | zero =>
      obtain ⟨fuel, rfl⟩ := Nat.exists_eq_add_of_lt hfuel
      rw [Nat.zero_add, scanRecursive]
      refine visit_idle hpin h (hids _ t.id_mem_ids) ht
        (fun hr => hE (by rw [hr]; exact Nat.zero_lt_one)) (fun pg p₁ hpg h₁ => ?_)
      simp only [show pg.pageType = .btreeLeaf from hpg.hasType, hpg.readLeafEntries]
      refine Proc.Unless.step rfl ?_
      refine Proc.Unless.bind ((unpin_shared hpin h₁).unless E) (fun _ p₂ h₂ => ?_)
      refine (Proc.returns_pure ⟨?_, h₂⟩).unless E
      rw [BPlusTree.toList, BPlusTree.leaves, List.flatMap_singleton]
  | succ n ih =>
      obtain ⟨fuel, rfl⟩ := Nat.exists_eq_add_of_lt hfuel
      rw [scanRecursive]
      rw [BPlusTree.ids, List.length_cons] at hE ⊢
      refine visit_idle hpin h (hids _ t.id_mem_ids) ht.1 (fun hr => hE (by omega))
        (fun pg p₁ hpg h₁ => ?_)
      simp only [show pg.pageType = .btreeInternal from hpg.hasType, hpg.readInternalEntries]
      refine Proc.Unless.step rfl ?_
      refine Proc.Unless.bind ((unpin_shared hpin h₁).unless E) (fun _ p₂ h₂ => ?_)
      rw [children_entriesFrom]
      refine (scanChildren_idle (fun c hc room p hq hr => ?_) h₂ (fun hr => hE (by omega))).mono ?_
        (fun hE => hE)
      · exact ih (by omega) hq (ht.2 c hc) (fun i hi => hids i
          (List.mem_cons_of_mem _ (List.mem_flatMap.mpr ⟨c, hc, hi⟩))) hr
      · rintro out p₃ ⟨rfl, h₃⟩
        rw [Nat.sub_sub, Nat.add_comm 1] at h₃
        exact ⟨(BPlusTree.toList_succ t).symm, h₃⟩

end Scan
end BTree
end Sietch
