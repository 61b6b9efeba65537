import Sietch.BTreeRoom

/-! Insertions that fail. A leaf that overflows is cut in two, and the insertion gives up when
one of the parts does not fit: before it has changed the leaf if it is the left one, and after
that if it is the right one. Either way it keeps its pins on the leaf and on the new page. -/
namespace Sietch
open ByteString
open BufferPool (Held)
open SortedMap (insertEntry lookup)
open Transition (Run Under)

namespace BTree

attribute [local irreducible] pageCapacity Page.new

section Fail
variable {S ε : Type} [PageStore S ε] {M : NodeStore S} {capacity : Nat}
  {content : PageId → Option NodePage} {next room fuel : Nat} {p : BufferPool S}
  {key value : Bytes} {R : BufferPool S → Prop}

/-- The first half of the entries that the leaf would have. -/
def leftHalf (key value : Bytes) (l : Leaf Bytes Bytes) : List Entry :=
  (insertEntry key value l.entries).take ((insertEntry key value l.entries).length / 2)

def rightHalf (key value : Bytes) (l : Leaf Bytes Bytes) : List Entry :=
  (insertEntry key value l.entries).drop ((insertEntry key value l.entries).length / 2)

omit [PageStore S ε] in
theorem rebuilt_full {es : List Entry} {sibling : PageId} (hfull : ¬ pageCapacity.leaf es = true)
    (hR : R p) {α : Type} {f : Page → Op S ε α} :
    Proc.Fails (rebuilt (buildLeaf es sibling) >>= f) p R := by
  obtain ⟨need, free, hbuild⟩ :=
    NodePage.buildLeaf_full (fun hf => hfull ((leaf_fits_iff es sibling).mp hf))
  rw [hbuild]
  exact Proc.Fails.bind ⟨_, p, rfl, hR⟩

theorem newPage_fails {pins loose : List PageId}
    (h : Held M.toNumberedStore capacity content pins loose next room p)
    (hpins : pins.length < capacity) (hroom : 0 < room) (hnext : next + 1 < 2 ^ 64) (t : PageType)
    {α : Type} {f : PageId → Op S ε α}
    (hf : ∀ p', Held M.toNumberedStore capacity
      (Function.update content next (some (.blank t))) (next :: pins) loose (next + 1) (room - 1) p' →
      Proc.Fails (f next) p' R) :
    Proc.Fails (newPage t >>= f) p R := by
  have hnew : Proc.Unless False (newPage (ε := ε) t) p _ :=
    Proc.Ends.mapErr (h.newPage hpins (fun hr => by omega) (fun hlt => by omega) t) _
  refine Proc.Returns.bind_fails (Proc.Unless.returns hnew not_false) ?_
  rintro _ p₁ ⟨rfl, -, h₁⟩
  rw [M.blank_eq] at h₁
  exact hf p₁ h₁

/-- The left part does not fit: nothing but a blank page was added. -/
theorem insertLeaf_left_full (hcap : 2 ≤ capacity) {l : Leaf Bytes Bytes} {pg : Page}
    (h : Held M.toNumberedStore capacity content [l.id] [] next room p)
    (hpg : NodePage.Shown pg (.leaf l.entries l.next)) (hroom : 0 < room)
    (hnext : next + 1 < 2 ^ 64)
    (hfull : ¬ pageCapacity.leaf (insertEntry key value l.entries) = true)
    (hleft : ¬ pageCapacity.leaf (leftHalf key value l) = true) :
    Proc.Fails (insertLeaf key value l.id pg) p (fun p' => Held M.toNumberedStore capacity
      (Function.update content next (some (.blank .btreeLeaf))) [next, l.id] [] (next + 1)
      (room - 1) p') := by
  obtain ⟨need, free, hbuild⟩ :=
    NodePage.buildLeaf_full (fun hf => hfull ((leaf_fits_iff _ l.next).mp hf))
  rw [insertLeaf, hpg.readLeafSibling, hpg.readLeafEntries]
  refine Proc.Fails.step rfl (Proc.Fails.step rfl ?_)
  rw [upsert_eq]
  simp only [hbuild, splitAtMidpoint]
  exact newPage_fails h hcap hroom hnext _ (fun p₁ h₁ => rebuilt_full hleft h₁)

/-- The right part does not fit: the leaf has lost it, and its link leads to a blank page. -/
theorem insertLeaf_right_full (hcap : 2 ≤ capacity) {l : Leaf Bytes Bytes} {pg : Page}
    (h : Held M.toNumberedStore capacity content [l.id] [] next room p)
    (hpg : NodePage.Shown pg (.leaf l.entries l.next)) (hroom : 0 < room)
    (hnext : next + 1 < 2 ^ 64)
    (hfull : ¬ pageCapacity.leaf (insertEntry key value l.entries) = true)
    (hleft : pageCapacity.leaf (leftHalf key value l) = true)
    (hright : ¬ pageCapacity.leaf (rightHalf key value l) = true) :
    Proc.Fails (insertLeaf key value l.id pg) p (fun p' => Held M.toNumberedStore capacity
      (Function.update (Function.update content next (some (.blank .btreeLeaf))) l.id
        (some (.leaf (leftHalf key value l) next))) [next, l.id] [l.id] (next + 1)
      (room - 1) p') := by
  obtain ⟨need, free, hbuild⟩ :=
    NodePage.buildLeaf_full (fun hf => hfull ((leaf_fits_iff _ l.next).mp hf))
  rw [insertLeaf, hpg.readLeafSibling, hpg.readLeafEntries]
  refine Proc.Fails.step rfl (Proc.Fails.step rfl ?_)
  rw [upsert_eq]
  simp only [hbuild, splitAtMidpoint]
  refine newPage_fails h hcap hroom hnext _ (fun p₁ h₁ => ?_)
  obtain ⟨pg₁, hbuild₁, hpg₁⟩ := NodePage.buildLeaf_ok
    ((leaf_fits_iff (leftHalf key value l) next).mpr hleft) (Nat.lt_of_succ_lt hnext)
  rw [leftHalf] at hbuild₁
  rw [hbuild₁]
  refine Proc.Fails.step rfl ((assign_held h₁ (by simp) hpg₁).bind_fails (fun _ p₂ h₂ => ?_))
  exact rebuilt_full hright h₂

theorem visit_fails (hcap : 2 ≤ capacity) (h : Quiet M capacity content next room p)
    (hroom : 0 < room) {id : PageId} (hid : id < next) {o : NodePage} (ho : content id = some o)
    {α : Type} {f : Page → Op S ε α}
    (hf : ∀ pg p', NodePage.Shown pg o →
      Held M.toNumberedStore capacity content [id] [] next (room - 1) p' → Proc.Fails (f pg) p' R) :
    Proc.Fails (fetch id >>= fun _ => pageOf id >>= f) p R := by
  have hfetch := fetch_quiet (ε := ε) (E := False) hcap h hid (fun hr => by omega)
  refine (hfetch.returns not_false).bind_fails (fun _ p' h' => ?_)
  obtain ⟨pg, hpage, hshown⟩ := pageOf_held (ε := ε) h' (List.mem_singleton_self _) ho
  exact Proc.Fails.step hpage (hf pg p' hshown h')

theorem insertRecursive_fails (hcap : 2 ≤ capacity) {n : Nat} {t : BPlusTree Bytes Bytes n}
    (hfuel : n < fuel) (h : Quiet M capacity content next room p) (ht : Stored content t)
    (hids : ∀ i ∈ t.ids, i < next) (hroom : n + 1 ≤ room)
    (hleaf : ∀ pg q, NodePage.Shown pg (.leaf (t.leafOf key).entries (t.leafOf key).next) →
      Held M.toNumberedStore capacity content [(t.leafOf key).id] [] next (room - (n + 1)) q →
      Proc.Fails (insertLeaf (ε := ε) key value (t.leafOf key).id pg) q R) :
    Proc.Fails (insertRecursive (ε := ε) key value fuel t.id) p R := by
  induction n generalizing fuel p room with
  | zero =>
      obtain ⟨fuel, rfl⟩ := Nat.exists_eq_add_of_lt hfuel
      rw [Nat.zero_add, insertRecursive]
      refine visit_fails hcap h hroom (hids _ t.id_mem_ids) ht (fun pg p₁ hpg h₁ => ?_)
      simp only [show pg.pageType = .btreeLeaf from hpg.hasType]
      exact hleaf pg p₁ hpg h₁
  | succ n ih =>
      obtain ⟨fuel, rfl⟩ := Nat.exists_eq_add_of_lt hfuel
      rw [insertRecursive]
      refine visit_fails hcap h (by omega) (hids _ t.id_mem_ids) ht.1 (fun pg p₁ hpg h₁ => ?_)
      simp only [show pg.pageType = .btreeInternal from hpg.hasType, hpg.readInternalEntries]
      refine Proc.Fails.step rfl ?_
      rw [route_entriesFrom]
      refine Proc.Fails.step rfl ((unpin_clean h₁ List.not_mem_nil).bind_fails (fun _ p₂ h₂ => ?_))
      have hroute : ∀ i ∈ ((Branch.chain t).route key).ids, i < next := fun i hi =>
        hids i (BPlusTree.mem_ids_of_route key hi)
      refine (ih (by omega) h₂ (ht.route key) hroute (by omega) (fun pg q hpg hq => ?_)).bind
      refine hleaf pg q hpg ?_
      rwa [Nat.sub_sub, Nat.add_comm 1] at hq

theorem insert_fails {t : BPlusTree.Rooted Bytes Bytes} (hcap : 2 ≤ capacity)
    (hfuel : t.depth < fuel) (h : Quiet M capacity content next room p)
    (ht : TreeRep content next t) (hroom : t.depth + 2 ≤ room)
    (hleaf : ∀ pg q,
      NodePage.Shown pg (.leaf (t.tree.leafOf key).entries (t.tree.leafOf key).next) →
      Held M.toNumberedStore capacity content [(t.tree.leafOf key).id] [] next
        (room - (t.depth + 2)) q →
      Proc.Fails (insertLeaf (ε := ε) key value (t.tree.leafOf key).id pg) q R) :
    Proc.Fails (insert (ε := ε) fuel key value) p R := by
  have hroot := rootId_unless (ε := ε) (E := False) hcap h ht.meta_lt ht.root (fun hr => by omega)
  rw [insert]
  refine (hroot.returns not_false).bind_fails ?_
  rintro _ p₁ ⟨rfl, h₁⟩
  refine (insertRecursive_fails hcap hfuel h₁ ht.stored ht.ids_lt (by omega)
    (fun pg q hpg hq => ?_)).bind
  refine hleaf pg q hpg ?_
  rwa [Nat.sub_sub, Nat.add_comm 1] at hq

end Fail
end BTree

theorem TreeRep.spare {content : PageId → Option NodePage} {next : Nat}
    {t : BPlusTree.Rooted Bytes Bytes} (h : TreeRep content next t) (o : NodePage)
    (hnext : next + 1 ≤ 2 ^ 64) :
    TreeRep (Function.update content next (some o)) (next + 1) t := by
  have hold : ∀ i, i < next → Function.update content next (some o) i = content i :=
    fun i hi => Function.update_of_ne hi.ne _ _
  refine ⟨?_, ?_, ?_, hnext, fun i => ?_, ?_⟩
  · rw [hold _ h.meta_lt]
    exact h.root
  · exact h.stored.frame (fun i hi => hold i (h.ids_lt i hi))
  · exact ⟨h.wf.ordered, h.wf.fits, h.wf.nodup, fun i hi =>
      ⟨(h.wf.numbered i hi).1, Nat.lt_succ_of_lt (h.wf.numbered i hi).2⟩⟩
  · rcases eq_or_ne i next with rfl | hi
    · simp
    · rw [Function.update_of_ne hi, h.full]
      exact ⟨Nat.lt_succ_of_lt, fun hlt => lt_of_le_of_ne (Nat.le_of_lt_succ hlt) hi⟩
  · exact h.linked.mono (fun i hi _ => ⟨⟨hi.1, Nat.lt_succ_of_lt hi.2⟩, hold i hi.2⟩)

end Sietch
