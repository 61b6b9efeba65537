import Sietch.BTreeLinks
import Sietch.BTreeSpec

/-! The operations of the B+tree from its meta page on. -/
namespace Sietch
open ByteString
open BufferPool (Held)
open SortedMap (lookup insertEntry eraseEntry Ascending)

/-- The pages hold a tree: the meta page names the root, the nodes are well formed and on
their pages, exactly the ids below `next` are in use, and the leaves are linked. -/
structure TreeRep (content : PageId → Option NodePage) (next : Nat)
    (t : BPlusTree.Rooted Bytes Bytes) : Prop where
  root : content metaPageId = some (.root t.tree.id)
  stored : Stored content t.tree
  wf : t.WF pageCapacity next
  limit : next ≤ 2 ^ 64
  full : ∀ i, (content i).isSome ↔ i < next
  linked : Linked content (Dead t next) noSibling t.tree.leaves

namespace TreeRep
variable {content content' : PageId → Option NodePage} {next next' : Nat}
  {t t' : BPlusTree.Rooted Bytes Bytes} {key value : Bytes}

theorem ids_lt (h : TreeRep content next t) : ∀ i ∈ t.tree.ids, i < next :=
  fun i hi => (h.wf.numbered i hi).2

theorem meta_lt (h : TreeRep content next t) : metaPageId < next :=
  (h.full metaPageId).mp (by rw [h.root]; rfl)

theorem meta_not_mem (h : TreeRep content next t) : metaPageId ∉ t.tree.ids :=
  fun hin => lt_irrefl _ (h.wf.numbered _ hin).1

theorem put (h : TreeRep content next t)
    (hput : BPlusTree.put pageCapacity key value t next = some (t', next'))
    (hroot : content' metaPageId = some (.root t'.tree.id)) (hstored : Stored content' t'.tree)
    (hframe : ∀ i, i ∉ t.tree.ids → i ≠ metaPageId → (i < next ∨ next' ≤ i) →
      content' i = content i) : TreeRep content' next' t' := by
  have hlimit := BPlusTree.put_limit hput (by rw [pageCapacity]; exact h.limit)
  rw [show pageCapacity.limit = 2 ^ 64 by rw [pageCapacity]] at hlimit
  obtain ⟨hle, hperm⟩ := BPlusTree.ids_put hput
  have hwf := h.wf.put hput
  refine ⟨hroot, hstored, hwf, hlimit, fun i => ?_, h.linked.put hput hframe⟩
  by_cases hmeta : i = metaPageId
  · subst hmeta
    rw [hroot]
    simpa using h.meta_lt.trans_le hle
  by_cases hin : i ∈ t'.tree.ids
  · exact iff_of_true (hstored.isSome i hin) (hwf.numbered i hin).2
  · have hout : i ∉ t.tree.ids := fun hi => hin (hperm.mem_iff.mpr (List.mem_append_right _ hi))
    have hfree : i < next ∨ next' ≤ i := by
      by_contra hmid
      rw [not_or, not_lt, not_le] at hmid
      refine hin (hperm.mem_iff.mpr (List.mem_append_left _ (List.mem_range'_1.mpr ⟨hmid.1, ?_⟩)))
      rw [Nat.add_sub_cancel' hle]
      exact hmid.2
    rw [hframe i hout hmeta hfree, h.full]
    exact ⟨fun hlt => hlt.trans_le hle, fun hlt => hfree.resolve_right (not_le.mpr hlt)⟩

theorem remove (h : TreeRep content next t) (hrem : BPlusTree.remove key t = some t')
    (hroot : content' metaPageId = some (.root t'.tree.id)) (hstored : Stored content' t'.tree)
    (hleaf : ∀ l' e, (t.tree.leafOf key).delete key = some (l', e) →
      content' l'.id = some (.leaf l'.entries l'.next))
    (hsome : ∀ i, (content i).isSome → (content' i).isSome)
    (hframe : ∀ i, i ∉ t.tree.ids → i ≠ metaPageId → content' i = content i) :
    TreeRep content' next t' := by
  refine ⟨hroot, hstored, h.wf.remove hrem, h.limit, fun i => ?_,
    h.linked.remove h.wf hrem hleaf hframe⟩
  by_cases hmeta : i = metaPageId
  · subst hmeta
    rw [hroot]
    simpa using h.meta_lt
  by_cases hin : i ∈ t.tree.ids
  · exact iff_of_true (hsome i (h.stored.isSome i hin)) (h.ids_lt i hin)
  · rw [hframe i hin hmeta, h.full]

end TreeRep

namespace BTree

attribute [local irreducible] pageCapacity Page.new

variable {S ε : Type} [PageStore S ε] {M : NodeStore S} {capacity : Nat}
  {content : PageId → Option NodePage} {pins loose : List PageId} {next room fuel : Nat}
  {p : BufferPool S} {E : Prop} {t : BPlusTree.Rooted Bytes Bytes} {key value : Bytes}

theorem rootId_idle (hpin : CanPin pins loose capacity) (h : Idle M capacity pins loose content next room p)
    {root : PageId} (hmeta : metaPageId < next) (hroot : content metaPageId = some (.root root))
    (hE : room = 0 → E) :
    Proc.Unless E rootId p (fun r p' => r = root ∧ Idle M capacity pins loose content next (room - 1) p') := by
  rw [rootId]
  refine visit_idle hpin h hmeta hroot hE (fun pg p₁ hpg h₁ => ?_)
  have hlt : root < 2 ^ (8 * 8) := hpg.ids root (List.mem_singleton_self _)
  rw [hpg.root_get]
  refine Proc.Unless.step rfl ?_
  rw [if_pos (length_leBytes 8 root)]
  refine Proc.Unless.bind ((unpin_shared hpin h₁).unless E) (fun _ p₂ h₂ => ?_)
  exact (Proc.returns_pure ⟨ofLeBytes_leBytes hlt, h₂⟩).unless E

theorem rootId_unless (hcap : 2 ≤ capacity) (h : Quiet M capacity content next room p)
    {root : PageId} (hmeta : metaPageId < next) (hroot : content metaPageId = some (.root root))
    (hE : room = 0 → E) :
    Proc.Unless E rootId p (fun r p' => r = root ∧ Quiet M capacity content next (room - 1) p') :=
  rootId_idle (canPin_nil hcap) h hmeta hroot hE

theorem setRootId_short (hpos : 0 < capacity) (h : Quiet M capacity content next room p)
    {root : PageId} (hmeta : metaPageId < next) (hlt : root < 2 ^ 64) (hE : room = 0 → E) :
    Proc.Unless E (setRootId root) p (fun _ p' => Quiet M capacity
      (Function.update content metaPageId (some (.root root))) next (room - 1) p') := by
  rw [setRootId]
  refine Proc.Unless.bind (fetch_idle (canPin_pos hpos) h hmeta hE) (fun _ p₁ h₁ => ?_)
  obtain ⟨pg, hinsert, hpg⟩ := (NodePage.shown_new .metaPage).insert_root hlt
  rw [hinsert]
  refine Proc.Unless.step rfl ?_
  refine Proc.Unless.bind ((assign_held h₁ (List.mem_singleton_self _) hpg).unless E)
    (fun _ p₂ h₂ => ?_)
  refine ((unpin_dirty h₂ (by simp)).mono (fun _ p₃ h₃ => ?_)).unless E
  simpa using h₃

theorem setRootId_unless (hcap : 2 ≤ capacity) (h : Quiet M capacity content next room p)
    {root : PageId} (hmeta : metaPageId < next) (hlt : root < 2 ^ 64) (hE : room = 0 → E) :
    Proc.Unless E (setRootId root) p (fun _ p' => Quiet M capacity
      (Function.update content metaPageId (some (.root root))) next (room - 1) p') :=
  setRootId_short (by omega) h hmeta hlt hE

theorem get_idle (hpin : CanPin pins loose capacity) (hfuel : t.depth < fuel)
    (h : Idle M capacity pins loose content next room p) (ht : TreeRep content next t) (key : Bytes)
    (hE : room < t.depth + 2 → E) :
    Proc.Unless E (get fuel key) p (fun r p' => r = lookup key t.tree.toList ∧
      Idle M capacity pins loose content next (room - (t.depth + 2)) p') := by
  rw [get]
  refine Proc.Unless.bind (rootId_idle hpin h ht.meta_lt ht.root (fun hr => hE (by omega))) ?_
  rintro _ p₁ ⟨rfl, h₁⟩
  refine (getRecursive_idle hpin key hfuel h₁ ht.stored ht.ids_lt (fun hr => hE (by omega))).mono
    ?_ (fun hE => hE)
  rintro r p₂ ⟨rfl, h₂⟩
  rw [Nat.sub_sub, Nat.add_comm 1] at h₂
  exact ⟨(ht.wf.ordered.lookup key).symm, h₂⟩

theorem get_unless (hcap : 2 ≤ capacity) (hfuel : t.depth < fuel)
    (h : Quiet M capacity content next room p) (ht : TreeRep content next t) (key : Bytes)
    (hE : room < t.depth + 2 → E) :
    Proc.Unless E (get fuel key) p (fun r p' => r = lookup key t.tree.toList ∧
      Quiet M capacity content next (room - (t.depth + 2)) p') :=
  get_idle (canPin_nil hcap) hfuel h ht key hE

theorem scanAll_idle (hpin : CanPin pins loose capacity) (hfuel : t.depth < fuel)
    (h : Idle M capacity pins loose content next room p) (ht : TreeRep content next t)
    (hE : room < t.tree.ids.length + 1 → E) :
    Proc.Unless E (scanAll fuel) p (fun out p' => out = t.tree.toList ∧
      Idle M capacity pins loose content next (room - (t.tree.ids.length + 1)) p') := by
  rw [scanAll]
  refine Proc.Unless.bind (rootId_idle hpin h ht.meta_lt ht.root (fun hr => hE (by omega))) ?_
  rintro _ p₁ ⟨rfl, h₁⟩
  refine (scanRecursive_idle hpin hfuel h₁ ht.stored ht.ids_lt (fun hr => hE (by omega))).mono
    ?_ (fun hE => hE)
  rintro out p₂ ⟨rfl, h₂⟩
  rw [Nat.sub_sub, Nat.add_comm 1] at h₂
  exact ⟨rfl, h₂⟩

theorem scanAll_unless (hcap : 2 ≤ capacity) (hfuel : t.depth < fuel)
    (h : Quiet M capacity content next room p) (ht : TreeRep content next t)
    (hE : room < t.tree.ids.length + 1 → E) :
    Proc.Unless E (scanAll fuel) p (fun out p' => out = t.tree.toList ∧
      Quiet M capacity content next (room - (t.tree.ids.length + 1)) p') :=
  scanAll_idle (canPin_nil hcap) hfuel h ht hE

/-- `insert` returns if and only if the tree takes the entry, while the store may be
written. -/
theorem insert_short (hpos : 0 < capacity) (htwo : capacity < 2 → E) (hfuel : t.depth < fuel)
    (h : Quiet M capacity content next room p) (ht : TreeRep content next t)
    (hE : room < 3 * t.depth + 5 → E)
    (hnone : BPlusTree.put pageCapacity key value t next = none → E) :
    Proc.Unless E (insert fuel key value) p (fun _ p' => ∃ t' next' content',
      BPlusTree.put pageCapacity key value t next = some (t', next') ∧
      TreeRep content' next' t' ∧
      Quiet M capacity content' next' (room - (3 * t.depth + 5)) p') := by
  rw [insert]
  refine Proc.Unless.bind (rootId_idle (canPin_pos hpos) h ht.meta_lt ht.root (fun hr => hE (by omega))) ?_
  rintro _ p₁ ⟨rfl, h₁⟩
  refine Proc.Unless.bind (insertRecursive_short hpos htwo hfuel h₁ ht.stored ht.wf.ordered
    (Chain.within_none key) ht.wf.fits ht.wf.nodup ht.ids_lt ht.limit (fun hr => hE (by omega))
    (fun hins => hnone (by rw [BPlusTree.put, hins]))) ?_
  rintro _ p₂ ⟨g, next₁, content₁, hins, rfl, h₂, hg, hframe⟩
  have hle := (BPlusTree.ids_insert hins).1
  have hmeta : content₁ metaPageId = some (.root t.tree.id) :=
    (hframe _ ht.meta_not_mem (.inl ht.meta_lt)).trans ht.root
  have hhead := BPlusTree.head_insert hins
  cases g with
  | one c =>
      have hput : BPlusTree.put pageCapacity key value t next = some (⟨t.depth, c⟩, next₁) := by
        rw [BPlusTree.put, hins]
      refine (Proc.returns_pure ⟨⟨t.depth, c⟩, next₁, content₁, hput, ?_, h₂.weaken (by omega)⟩).unless E
      refine ht.put hput ?_ (hg c (List.mem_singleton_self _)) (fun i hi _ => hframe i hi)
      rw [hmeta]
      exact congrArg (some ∘ NodePage.root) hhead.symm
  | two l s r =>
      have hlimit : pageCapacity.limit = 2 ^ 64 := by rw [pageCapacity]
      have hle₁ := BPlusTree.insert_limit hins (by rw [hlimit]; exact ht.limit)
      rw [hlimit] at hle₁
      have hput := BPlusTree.put_two hins
      rw [hlimit] at hput
      have hold : ∀ c ∈ [l, r], ∀ i ∈ c.ids, 0 < i ∧ i < next₁ := by
        intro c hc i hi
        have hmem := (BPlusTree.ids_insert hins).2.mem_iff.mp (List.mem_flatMap.mpr ⟨c, hc, hi⟩)
        rcases List.mem_append.mp hmem with hnew | hin
        · have hrange := List.mem_range'_1.mp hnew
          have hpos : 0 < next := ht.meta_lt
          omega
        · exact ⟨(ht.wf.numbered i hin).1, (ht.wf.numbered i hin).2.trans_le hle⟩
      have hl := hold l (by simp) _ l.id_mem_ids
      have hr := hold r (by simp) _ r.id_mem_ids
      have hroot : entriesFrom BPlusTree.id none (.cons l s (.last r)) =
          [⟨none, t.tree.id⟩, ⟨some s, r.id⟩] := by
        rw [← hhead]
        rfl
      have hne : next₁ ≠ metaPageId := (ht.meta_lt.trans_le hle).ne'
      refine newPage_held h₂ hpos (fun hr => hE (by omega))
        (fun hlt => hnone (hput.trans (if_neg fun hok => ?_))) _ (fun hlt p₃ h₃ => ?_)
      · omega
      rw [← hroot]
      refine rebuilt_inner (fun c hc => ?_)
        (fun hno => hnone (hput.trans (if_neg fun hok => hno hok.2))) (fun hfit pg hpg => ?_)
      · exact (hold c hc _ c.id_mem_ids).2.trans_le hle₁
      refine Proc.Unless.bind ((assign_held h₃ (by simp) hpg).unless E) (fun _ p₄ h₄ => ?_)
      refine Proc.Unless.bind ((unpin_dirty h₄ (by simp)).unless E) (fun _ p₅ h₅ => ?_)
      have h₅' : Quiet M capacity (Function.update content₁ next₁
          (some (.inner (entriesFrom BPlusTree.id none (.cons l s (.last r)))))) (next₁ + 1)
          (room - (3 * t.depth + 4)) p₅ := by
        simpa using h₅.weaken (show room - (3 * t.depth + 4) ≤ _ by omega)
      refine (setRootId_short hpos h₅' (ht.meta_lt.trans_le (hle.trans (Nat.le_succ _)))
        (Nat.lt_of_succ_lt hlt) (fun hr => hE (by omega))).mono ?_ (fun hE => hE)
      rintro _ p₆ h₆
      have hput' := hput.trans (if_pos ⟨hlt, hfit⟩)
      refine ⟨_, _, _, hput', ht.put hput' (Function.update_self ..) ?_ (fun i hi hmeta hfree => ?_),
        h₆.weaken (by omega)⟩
      · refine ⟨?_, fun c hc => (hg c hc).frame (fun i hi => ?_)⟩
        · rw [Function.update_of_ne hne, Function.update_self]
        · have hi' := hold c hc i hi
          have hmeta : i ≠ metaPageId := hi'.1.ne'
          rw [Function.update_of_ne hmeta, Function.update_of_ne hi'.2.ne]
      · have hnew : i ≠ next₁ :=
          hfree.elim (fun hlt => (hlt.trans_le hle).ne) (fun hge => (Nat.lt_of_succ_le hge).ne')
        rw [Function.update_of_ne hmeta, Function.update_of_ne hnew]
        exact hframe i hi (hfree.imp_right (fun hge => (Nat.le_succ _).trans hge))

theorem insert_unless (hcap : 2 ≤ capacity) (hfuel : t.depth < fuel)
    (h : Quiet M capacity content next room p) (ht : TreeRep content next t)
    (hE : room < 3 * t.depth + 5 → E)
    (hnone : BPlusTree.put pageCapacity key value t next = none → E) :
    Proc.Unless E (insert fuel key value) p (fun _ p' => ∃ t' next' content',
      BPlusTree.put pageCapacity key value t next = some (t', next') ∧
      TreeRep content' next' t' ∧
      Quiet M capacity content' next' (room - (3 * t.depth + 5)) p') :=
  insert_short (by omega) (fun hlt => absurd hlt hcap.not_gt) hfuel h ht hE hnone

theorem shrinkRoot_unless (hcap : 2 ≤ capacity) {n : Nat} {u : BPlusTree Bytes Bytes n}
    (h : Quiet M capacity content next room p) (hu : Stored content u) (hid : u.id < next)
    (hmeta : metaPageId < next) (hroot : content metaPageId = some (.root u.id))
    (hE : room < 2 → E) :
    Proc.Unless E (shrinkRoot u.id) p (fun _ p' => Quiet M capacity
      (Function.update content metaPageId (some (.root u.collapse.tree.id))) next (room - 2) p') := by
  rw [shrinkRoot]
  cases n with
  | zero =>
      refine visit hcap h hid hu (fun hr => hE (by omega)) (fun pg p₁ hpg h₁ => ?_)
      simp only [show pg.pageType = .btreeLeaf from hpg.hasType]
      refine ((unpin_clean h₁ List.not_mem_nil).mono (fun _ p₂ h₂ => ?_)).unless E
      have hsame : Function.update content metaPageId (some (.root (Leaf.id u))) = content := by
        rw [show some (NodePage.root (Leaf.id u)) = content metaPageId from hroot.symm,
          Function.update_eq_self]
      rw [show u.collapse.tree.id = Leaf.id u from rfl, hsame]
      exact h₂.weaken (by omega)
  | succ n =>
      refine visit hcap h hid hu.1 (fun hr => hE (by omega)) (fun pg p₁ hpg h₁ => ?_)
      have hlt : (Branch.chain u).head.id < 2 ^ 64 := by
        refine hpg.ids _ ?_
        rw [NodePage.ids, entriesFrom_eq_cons]
        exact List.mem_cons_self ..
      simp only [show pg.pageType = .btreeInternal from hpg.hasType, hpg.readInternalEntries]
      refine Proc.Unless.step rfl ?_
      rw [entriesFrom_eq_cons]
      refine Proc.Unless.step rfl ?_
      refine Proc.Unless.bind ((unpin_clean h₁ List.not_mem_nil).unless E) (fun _ p₂ h₂ => ?_)
      refine (setRootId_unless hcap h₂ hmeta hlt (fun hr => hE (by omega))).mono (fun _ p₃ h₃ => ?_)
        (fun hE => hE)
      rw [Nat.sub_sub] at h₃
      exact h₃

/-- `delete` says whether the key was there, and it is not there any more. -/
theorem delete_unless (hcap : 2 ≤ capacity) (hfuel : t.depth < fuel)
    (h : Quiet M capacity content next room p) (ht : TreeRep content next t)
    (hE : room < 2 * t.depth + 4 → E) :
    Proc.Unless E (delete fuel key) p (fun found p' =>
      (BPlusTree.remove key t = none ∧ found = false ∧
        Quiet M capacity content next (room - (2 * t.depth + 4)) p') ∨
      ∃ t' content', BPlusTree.remove key t = some t' ∧ found = true ∧ TreeRep content' next t' ∧
        Quiet M capacity content' next (room - (2 * t.depth + 4)) p') := by
  rw [delete]
  refine Proc.Unless.bind (rootId_unless hcap h ht.meta_lt ht.root (fun hr => hE (by omega))) ?_
  rintro _ p₁ ⟨rfl, h₁⟩
  refine Proc.Unless.bind (deleteRecursive_unless hcap hfuel h₁ ht.stored ht.wf.ordered ht.wf.fits
    ht.wf.nodup ht.ids_lt (fun hr => hE (by omega))) ?_
  rintro ⟨found, emptied⟩ p₂ (⟨hdel, hfound, hleaf, h₂⟩ | ⟨u, e, content₁, hdel, hr, h₂, hu, hleaf,
    hsome, hframe⟩)
  · simp only at hfound hleaf
    subst hfound
    have hrem : BPlusTree.remove key t = none := by
      rw [BPlusTree.remove, hdel]
    cases emptied with
    | false => exact (Proc.returns_pure (.inl ⟨hrem, rfl, h₂.weaken (by omega)⟩)).unless E
    | true =>
        -- an empty leaf is at the root
        obtain ⟨depth, tree⟩ := t
        obtain rfl : depth = 0 := hleaf rfl
        refine Proc.Unless.bind (shrinkRoot_unless hcap h₂ ht.stored (ht.ids_lt _ tree.id_mem_ids)
          ht.meta_lt ht.root (fun hr => hE (by omega))) (fun _ p₃ h₃ => ?_)
        refine (Proc.returns_pure (.inl ⟨hrem, rfl, ?_⟩)).unless E
        rw [show some (NodePage.root tree.collapse.tree.id) = content metaPageId from ht.root.symm,
          Function.update_eq_self] at h₃
        exact h₃.weaken (by omega)
  · cases hr
    have hid := (BPlusTree.ids_delete hdel).1
    have hmeta : content₁ metaPageId = some (.root u.id) := by
      rw [hframe _ ht.meta_not_mem, ht.root, hid]
    cases emptied with
    | false =>
        have hrem : BPlusTree.remove key t = some ⟨t.depth, u⟩ := by
          rw [BPlusTree.remove, hdel]
        refine (Proc.returns_pure (.inr ⟨_, content₁, hrem, rfl, ?_, h₂.weaken (by omega)⟩)).unless E
        exact ht.remove hrem hmeta hu hleaf hsome (fun i hi _ => hframe i hi)
    | true =>
        have hrem : BPlusTree.remove key t = some u.collapse := by
          rw [BPlusTree.remove, hdel]
        have huid : u.id < next := by
          rw [hid]
          exact ht.ids_lt _ t.tree.id_mem_ids
        rw [← hid]
        refine Proc.Unless.bind (shrinkRoot_unless hcap h₂ hu huid ht.meta_lt hmeta
          (fun hr => hE (by omega))) (fun _ p₃ h₃ => ?_)
        refine (Proc.returns_pure (.inr ⟨_, _, hrem, rfl, ?_, h₃.weaken (by omega)⟩)).unless E
        have hother : ∀ i ∈ t.tree.ids, i ≠ metaPageId := fun i hi => (ht.wf.numbered i hi).1.ne'
        refine ht.remove hrem (Function.update_self ..) (hu.collapse.frame (fun i hi => ?_))
          (fun l' e hl' => ?_) (fun i hi => isSome_update _ i (hsome i hi)) (fun i hi hne => ?_)
        · have hin := (BPlusTree.ids_delete hdel).2.subset ((BPlusTree.collapse_spec hdel).2.1.subset hi)
          exact Function.update_of_ne (hother i hin) _ _
        · have hlid : l'.id = (t.tree.leafOf key).id := by
            rw [(Leaf.delete_cases hl').2.1]
          have hin : l'.id ∈ t.tree.ids := by
            rw [hlid]
            exact BPlusTree.leaf_mem_ids (BPlusTree.leafOf_mem key t.tree)
          rw [Function.update_of_ne (hother _ hin), hleaf l' e hl']
        · rw [Function.update_of_ne hne, hframe i hi]

section Range
variable {start stop : Bytes}

def inRange (start stop : Bytes) (e : Entry) : Bool := start ≤ e.1 && e.1 < stop

/-- A leaf is scanned up to the first key that is not below the end. -/
theorem rangeOf_spec (start stop : Bytes) {entries : List Entry} (h : Ascending entries) :
    (rangeOf start stop entries).1 = entries.filter (inRange start stop) ∧
      ((rangeOf start stop entries).2 = true → ∃ e ∈ entries, stop ≤ e.1) := by
  induction entries with
  | nil => exact ⟨rfl, (fun hd => by cases hd)⟩
  | cons e es ih =>
      rw [rangeOf]
      by_cases hstop : stop ≤ e.1
      · rw [if_pos hstop]
        refine ⟨(List.filter_eq_nil_iff.mpr (fun x hx => ?_)).symm, fun _ => ⟨e, by simp, hstop⟩⟩
        have hle : stop ≤ x.1 := by
          rcases List.mem_cons.mp hx with rfl | hx
          · exact hstop
          · exact hstop.trans (h.head_lt hx).le
        simp [inRange, hle]
      · obtain ⟨hout, hend⟩ := ih h.tail
        have hlt := not_le.mp hstop
        rw [if_neg hstop]
        refine ⟨?_, fun hd => ?_⟩
        · rw [List.filter_cons, ← hout]
          by_cases hstart : start ≤ e.1
          · simp [inRange, hstart, hlt]
          · simp [inRange, hstart]
        · obtain ⟨x, hx, hle⟩ := hend hd
          exact ⟨x, List.mem_cons_of_mem _ hx, hle⟩

/-- `scan_leaves` from a link on, which may be absent. -/
def scanFrom (start stop : Bytes) (fuel : Nat) (link : PageId) : Op S ε (List Entry) :=
  if link = noSibling then pure [] else scanLeaves start stop fuel link

theorem scanLeaves_idle (hpin : CanPin pins loose capacity) {id link : PageId} {entries : List Entry}
    {rest : List Entry} {cost : Nat} (hid : id < next)
    (hpage : content id = some (.leaf entries link)) (hasc : Ascending (entries ++ rest))
    (hrest : ∀ {room p}, Idle M capacity pins loose content next room p → (room < cost → E) →
      Proc.Unless E (scanFrom (ε := ε) start stop fuel link) p (fun out p' =>
        out = rest.filter (inRange start stop) ∧ Idle M capacity pins loose content next (room - cost) p'))
    (h : Idle M capacity pins loose content next room p) (hE : room < cost + 1 → E) :
    Proc.Unless E (scanLeaves (ε := ε) start stop (fuel + 1) id) p (fun out p' =>
      out = (entries ++ rest).filter (inRange start stop) ∧
      Idle M capacity pins loose content next (room - (cost + 1)) p') := by
  obtain ⟨hentries, -, hlt⟩ := List.pairwise_append.mp hasc
  obtain ⟨hout, hend⟩ := rangeOf_spec start stop hentries
  rw [scanLeaves]
  refine visit_idle hpin h hid hpage (fun hr => hE (by omega)) (fun pg p₁ hpg h₁ => ?_)
  rw [hpg.readLeafEntries]
  refine Proc.Unless.step rfl ?_
  rw [hpg.readLeafSibling]
  refine Proc.Unless.step rfl ?_
  refine Proc.Unless.bind ((unpin_shared hpin h₁).unless E) (fun _ p₂ h₂ => ?_)
  rw [List.filter_append, ← hout]
  cases hreached : (rangeOf start stop entries).2 with
  | true =>
      -- no later key is below the end
      obtain ⟨e, he, hle⟩ := hend hreached
      have hnil : rest.filter (inRange start stop) = [] := by
        refine List.filter_eq_nil_iff.mpr (fun x hx => ?_)
        simp [inRange, hle.trans (hlt e he x hx).le]
      simp only [hreached, true_or, if_true]
      refine (Proc.returns_pure ⟨?_, h₂.weaken (by omega)⟩).unless E
      rw [hnil, List.append_nil]
  | false =>
      have hmore := hrest h₂ (fun hr => hE (by omega))
      rw [scanFrom] at hmore
      simp only [hreached, Bool.false_eq_true, false_or]
      by_cases hlink : link = noSibling
      · rw [if_pos hlink] at hmore ⊢
        obtain ⟨hnil, h₃⟩ := hmore
        refine (Proc.returns_pure ⟨?_, h₂.weaken (by omega)⟩).unless E
        rw [← hnil, List.append_nil]
      · rw [if_neg hlink] at hmore ⊢
        refine Proc.Unless.bind hmore ?_
        rintro out p₃ ⟨rfl, h₃⟩
        rw [Nat.sub_sub, Nat.add_comm 1] at h₃
        exact (Proc.returns_pure ⟨rfl, h₃⟩).unless E

/-- The program reads a value from the pages, within a number of steps and writes. -/
def Yields {α : Type} (M : NodeStore S) (capacity : Nat) (content : PageId → Option NodePage)
    (next : Nat) (x : Nat → Op S ε α) (a : α) (cost : Nat) : Prop :=
  ∀ (E : Prop) fuel room p, cost ≤ fuel → Quiet M capacity content next room p →
    (room < cost → E) → Proc.Unless E (x fuel) p (fun r p' =>
      r = a ∧ Quiet M capacity content next (room - cost) p')

/-- The same, over pins that were left behind. -/
def YieldsOver {α : Type} (M : NodeStore S) (capacity : Nat) (pins loose : List PageId)
    (content : PageId → Option NodePage) (next : Nat) (x : Nat → Op S ε α) (a : α) (cost : Nat) :
    Prop :=
  ∀ (E : Prop) fuel room p, cost ≤ fuel → Idle M capacity pins loose content next room p →
    (room < cost → E) → Proc.Unless E (x fuel) p (fun r p' =>
      r = a ∧ Idle M capacity pins loose content next (room - cost) p')

def ScansOver (M : NodeStore S) (capacity : Nat) (pins loose : List PageId)
    (content : PageId → Option NodePage) (next : Nat) (start stop : Bytes) (link : PageId)
    (entries : List Entry) (cost : Nat) : Prop :=
  YieldsOver M capacity pins loose content next (fun fuel => scanFrom start stop fuel link)
    (entries.filter (inRange start stop)) cost

theorem ScansOver.leaf (hpin : CanPin pins loose capacity) {id link : PageId}
    {entries rest : List Entry} {cost : Nat} (hne : id ≠ noSibling) (hid : id < next)
    (hpage : content id = some (.leaf entries link)) (hasc : Ascending (entries ++ rest))
    (h : ScansOver M capacity pins loose content next start stop link rest cost) :
    ScansOver M capacity pins loose content next start stop id (entries ++ rest) (cost + 1) := by
  intro E fuel room p hfuel hq hE
  obtain ⟨fuel, rfl⟩ := Nat.exists_eq_add_of_le' (Nat.one_le_of_lt hfuel)
  simp only [scanFrom, if_neg hne]
  exact scanLeaves_idle hpin hid hpage hasc
    (fun hq hE => h E fuel _ _ (Nat.le_of_succ_le_succ hfuel) hq hE) hq hE

/-- Dead pages add nothing but steps. -/
theorem ScansOver.leads (hpin : CanPin pins loose capacity) {Dead : PageId → Prop}
    (hdead : ∀ i, Dead i → i < next) {a b : PageId} (hab : Leads content Dead a b)
    {entries : List Entry} (hasc : Ascending entries) {cost : Nat}
    (hlen : ChainLength content b cost)
    (h : ScansOver M capacity pins loose content next start stop b entries cost) :
    ∃ cost', ChainLength content a cost' ∧
      ScansOver M capacity pins loose content next start stop a entries cost' := by
  induction hab with
  | here => exact ⟨cost, hlen, h⟩
  | skip hne hd hpage _ ih =>
      obtain ⟨cost', hlen', h'⟩ := ih hlen h
      exact ⟨cost' + 1, .cons hne hpage hlen', h'.leaf hpin hne (hdead _ hd) hpage hasc⟩

/-- The linked leaves are scanned from the first on, in as many steps as there are pages in
the chain. -/
theorem scansOver_linked (M : NodeStore S) (start stop : Bytes) (hpin : CanPin pins loose capacity)
    {Dead : PageId → Prop} (hdead : ∀ i, Dead i → i < next) (ls : List (Leaf Bytes Bytes))
    (hids : ∀ l ∈ ls, 0 < l.id ∧ l.id < next)
    (hpages : ∀ l ∈ ls, content l.id = some (.leaf l.entries l.next))
    (hlinked : Linked content Dead noSibling ls) (hasc : Ascending (ls.flatMap (·.entries))) :
    ∃ cost, ChainLength content (firstId noSibling ls) cost ∧
      ScansOver M capacity pins loose content next start stop (firstId noSibling ls)
        (ls.flatMap (·.entries)) cost := by
  induction ls with
  | nil =>
      refine ⟨0, .nil, fun E fuel room p _ hq _ => ?_⟩
      simp only [scanFrom, firstId, if_true]
      exact (Proc.returns_pure ⟨rfl, hq⟩).unless E
  | cons l rest ih =>
      rw [List.flatMap_cons] at hasc ⊢
      have hrest := (List.pairwise_append.mp hasc).2.1
      obtain ⟨cost, hlen, hscan⟩ := ih (fun m hm => hids m (List.mem_cons_of_mem _ hm))
        (fun m hm => hpages m (List.mem_cons_of_mem _ hm)) hlinked.2 hrest
      obtain ⟨cost', hlen', hscan'⟩ := hscan.leads hpin hdead hlinked.1 hrest hlen
      have hl := hids l (List.mem_cons_self ..)
      have hpage := hpages l (List.mem_cons_self ..)
      exact ⟨cost' + 1, .cons hl.1.ne' hpage hlen', hscan'.leaf hpin hl.1.ne' hl.2 hpage hasc⟩

theorem findLeafForKey_idle (hpin : CanPin pins loose capacity) (key : Bytes) {n : Nat}
    {t : BPlusTree Bytes Bytes n} (hfuel : n < fuel) (h : Idle M capacity pins loose content next room p)
    (ht : Stored content t) (hids : ∀ i ∈ t.ids, i < next) (hE : room < n + 1 → E) :
    Proc.Unless E (findLeafForKey key fuel t.id) p (fun r p' =>
      r = (t.leafOf key).id ∧ Idle M capacity pins loose content next (room - (n + 1)) p') := by
  induction n generalizing fuel p room with
  | zero =>
      obtain ⟨fuel, rfl⟩ := Nat.exists_eq_add_of_lt hfuel
      rw [Nat.zero_add, findLeafForKey]
      refine visit_idle hpin h (hids _ t.id_mem_ids) ht (fun hr => hE (by omega)) (fun pg p₁ hpg h₁ => ?_)
      simp only [show pg.pageType = .btreeLeaf from hpg.hasType]
      refine Proc.Unless.bind ((unpin_shared hpin h₁).unless E) (fun _ p₂ h₂ => ?_)
      exact (Proc.returns_pure ⟨rfl, h₂⟩).unless E
  | succ n ih =>
      obtain ⟨fuel, rfl⟩ := Nat.exists_eq_add_of_lt hfuel
      rw [findLeafForKey]
      refine visit_idle hpin h (hids _ t.id_mem_ids) ht.1 (fun hr => hE (by omega))
        (fun pg p₁ hpg h₁ => ?_)
      simp only [show pg.pageType = .btreeInternal from hpg.hasType, hpg.readInternalEntries]
      refine Proc.Unless.step rfl ?_
      rw [route_entriesFrom]
      refine Proc.Unless.step rfl ?_
      refine Proc.Unless.bind ((unpin_shared hpin h₁).unless E) (fun _ p₂ h₂ => ?_)
      have hroute : ∀ i ∈ ((Branch.chain t).route key).ids, i < next := fun i hi =>
        hids i (BPlusTree.mem_ids_of_route key hi)
      refine (ih (by omega) h₂ (ht.route key) hroute (fun hr => hE (by omega))).mono ?_ (fun hE => hE)
      rintro r p₃ ⟨hr, h₃⟩
      exact ⟨hr, by rwa [Nat.sub_sub, Nat.add_comm 1] at h₃⟩

/-- `scan_range` returns the entries of the tree in the range, in fewer steps than twice the
pages. -/
theorem scanRange_yieldsOver (M : NodeStore S) (hpin : CanPin pins loose capacity) (ht : TreeRep content next t)
    (start stop : Bytes) : ∃ cost ≤ next + (t.depth + 2), YieldsOver M capacity pins loose content next
      (fun fuel => scanRange fuel start stop) (t.tree.toList.filter (inRange start stop)) cost := by
  have hleaves := BPlusTree.leaves_locate start t.tree
  have hsub : ∀ l ∈ t.tree.leafOf start :: (t.tree.locate start).2.2, l ∈ t.tree.leaves := by
    intro l hl
    rw [hleaves]
    exact List.mem_append_right _ hl
  have hlinked := ht.linked
  have hasc := ht.wf.ordered.ascending
  rw [hleaves, linked_append] at hlinked
  rw [BPlusTree.toList, hleaves, List.flatMap_append] at hasc
  obtain ⟨cost, hlen, hscan⟩ := scansOver_linked M start stop hpin (fun i hi => hi.2)
    (t.tree.leafOf start :: (t.tree.locate start).2.2)
    (fun l hl => ht.wf.numbered _ (BPlusTree.leaf_mem_ids (hsub l hl)))
    (fun l hl => ht.stored.leaves l (hsub l hl)) hlinked.2 (List.pairwise_append.mp hasc).2.1
  have hbefore : ((t.tree.locate start).1.flatMap (·.entries)).filter (inRange start stop) = [] := by
    refine List.filter_eq_nil_iff.mpr (fun e he => ?_)
    simp [inRange, ((ht.wf.ordered.locate start).1 e he)]
  have hall : t.tree.toList.filter (inRange start stop) =
      ((t.tree.leafOf start :: (t.tree.locate start).2.2).flatMap (·.entries)).filter
        (inRange start stop) := by
    rw [BPlusTree.toList, hleaves, List.flatMap_append, List.filter_append, hbefore,
      List.nil_append]
  have hcost := hlen.le (fun i hi => (ht.full i).mp hi)
  refine ⟨cost + (t.depth + 2), Nat.add_le_add_right hcost _, fun E fuel room p hfuel h hE => ?_⟩
  simp only [scanRange]
  refine Proc.Unless.bind (rootId_idle hpin h ht.meta_lt ht.root (fun hr => hE (by omega))) ?_
  rintro _ p₁ ⟨rfl, h₁⟩
  refine Proc.Unless.bind (findLeafForKey_idle hpin start (by omega) h₁ ht.stored ht.ids_lt
    (fun hr => hE (by omega))) ?_
  rintro _ p₂ ⟨rfl, h₂⟩
  have hleaf : (t.tree.leafOf start).id ≠ noSibling :=
    (ht.wf.numbered _ (BPlusTree.leaf_mem_ids (BPlusTree.leafOf_mem start t.tree))).1.ne'
  have hmore : Proc.Unless E (scanFrom start stop fuel (t.tree.leafOf start).id) p₂ _ :=
    hscan E fuel _ p₂ (by omega) h₂ (fun hr => hE (by omega))
  rw [scanFrom, if_neg hleaf] at hmore
  refine hmore.mono ?_ (fun hE => hE)
  rintro out p₃ ⟨rfl, h₃⟩
  exact ⟨hall.symm, h₃.weaken (by omega)⟩

theorem scanRange_yields (M : NodeStore S) (hcap : 2 ≤ capacity) (ht : TreeRep content next t)
    (start stop : Bytes) : ∃ cost, Yields M capacity content next
      (fun fuel => scanRange fuel start stop) (t.tree.toList.filter (inRange start stop)) cost := by
  obtain ⟨cost, -, hyields⟩ := scanRange_yieldsOver (ε := ε) M (canPin_nil hcap) ht start stop
  exact ⟨cost, hyields⟩

end Range
section Open

/-- A tree with nothing in it, whose root is the first page after the meta page. -/
def emptyTree : BPlusTree.Rooted Bytes Bytes := ⟨0, (⟨1, [], noSibling⟩ : Leaf Bytes Bytes)⟩

def emptyContent : PageId → Option NodePage :=
  Function.update (Function.update (fun _ => none) 1 (some (.leaf [] noSibling))) metaPageId
    (some (.root 1))

theorem treeRep_empty : TreeRep emptyContent 2 emptyTree where
  root := rfl
  stored := rfl
  wf := {
    ordered := ⟨List.Pairwise.nil, (fun e he => by cases he)⟩
    fits := (leaf_fits_iff [] noSibling).mp (by decide)
    nodup := List.nodup_singleton _
    numbered := by simp [emptyTree, BPlusTree.ids] }
  limit := by norm_num
  full := by
    intro i
    rw [emptyContent, Function.update_apply, Function.update_apply]
    by_cases hzero : i = metaPageId
    · subst hzero
      simp [metaPageId]
    · by_cases hone : i = 1
      · simp [hone, metaPageId]
      · have hlt : ¬ i < 2 := by
          intro hlt
          have hcases : i = 0 ∨ i = 1 := by
            rcases Nat.lt_succ_iff_lt_or_eq.mp hlt with h | h
            · exact .inl (Nat.lt_one_iff.mp h)
            · exact .inr h
          exact hcases.elim hzero hone
        simp [hzero, hone, hlt]
  linked := ⟨.here _, trivial⟩

/-- `open` on a store without pages creates an empty tree. -/
theorem setUp_new_short (hpos : 0 < capacity) (htwo : capacity < 2 → E) (h : Quiet M capacity (fun _ => none) 1 room p)
    (hE : room < 2 → E) :
    Proc.Unless E setUp p (fun _ p' => Quiet M capacity emptyContent 2 (room - 2) p') := by
  rw [setUp]
  refine Proc.Unless.bind (fetch_idle (canPin_pos hpos) h Nat.zero_lt_one (fun hr => hE (by omega)))
    (fun _ p₁ h₁ => ?_)
  obtain ⟨pg₁, hpage₁, hpg₁⟩ := pageOf_blank (ε := ε) h₁ (List.mem_singleton_self _) rfl
  refine Proc.Unless.step hpage₁ ?_
  have hslots : pg₁.slotIds = .ok [] := hpg₁.rep.slotIds
  rw [hslots]
  refine Proc.Unless.step rfl ?_
  refine newPage_short h₁ (fun hfull => htwo (Nat.lt_succ_of_le hfull)) (fun hr => hE (by omega))
    (fun hlt => absurd hlt (by norm_num)) _ (fun _ p₂ h₂ => ?_)
  refine rebuilt_leaf (by norm_num [noSibling])
    (fun hno => absurd ((leaf_fits_iff [] noSibling).mp (by decide)) hno) (fun _ pg₂ hpg₂ => ?_)
  refine Proc.Unless.bind ((assign_held h₂ (by simp) hpg₂).unless E) (fun _ p₃ h₃ => ?_)
  refine Proc.Unless.bind ((unpin_dirty h₃ (by simp)).unless E) (fun _ p₄ h₄ => ?_)
  obtain ⟨pg₃, hpage₃, hpg₃⟩ := pageOf_blank (ε := ε) h₄ (List.mem_singleton_self _) rfl
  refine Proc.Unless.step hpage₃ ?_
  obtain ⟨pg₄, hinsert, hpg₄⟩ := hpg₃.insert_root (show (1 : Nat) < 2 ^ 64 by norm_num)
  rw [hinsert]
  refine Proc.Unless.step rfl ?_
  refine Proc.Unless.bind ((assign_held h₄ (by simp) hpg₄).unless E) (fun _ p₅ h₅ => ?_)
  refine ((unpin_dirty h₅ (by simp)).mono (fun _ p₆ h₆ => ?_)).unless E
  rw [emptyContent]
  simpa [Nat.sub_sub] using h₆

theorem setUp_new (hcap : 2 ≤ capacity) (h : Quiet M capacity (fun _ => none) 1 room p)
    (hE : room < 2 → E) :
    Proc.Unless E setUp p (fun _ p' => Quiet M capacity emptyContent 2 (room - 2) p') :=
  setUp_new_short (by omega) (fun hlt => absurd hlt hcap.not_gt) h hE

theorem setUp_existing_short (hpos : 0 < capacity) (h : Quiet M capacity content next room p)
    (ht : TreeRep content next t) (hE : room = 0 → E) :
    Proc.Unless E setUp p (fun _ p' => Quiet M capacity content next (room - 1) p') := by
  rw [setUp]
  refine visit_idle (canPin_pos hpos) h ht.meta_lt ht.root hE (fun pg p₁ hpg h₁ => ?_)
  have hslots : pg.slotIds = .ok [0] := hpg.rep.slotIds
  rw [hslots]
  refine Proc.Unless.step rfl ?_
  refine ((unpin_dirty h₁ (by rw [ht.root]; rfl)).mono (fun _ p₂ h₂ => ?_)).unless E
  simpa using h₂

theorem setUp_existing (hcap : 2 ≤ capacity) (h : Quiet M capacity content next room p)
    (ht : TreeRep content next t) (hE : room = 0 → E) :
    Proc.Unless E setUp p (fun _ p' => Quiet M capacity content next (room - 1) p') :=
  setUp_existing_short (by omega) h ht hE

end Open
end BTree
end Sietch
