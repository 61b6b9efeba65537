import Sietch.BTreeShape

/-! The sibling links of the leaves. A deletion takes an emptied leaf out of the tree and
leaves its page and the links to it as they are, so the link of a leaf leads to the next leaf
by way of any number of dead pages, all of them empty. -/
namespace Sietch
open ByteString
open SortedMap (insertEntry eraseEntry)

/-- The link `a` leads to `b` by way of dead pages. -/
inductive Leads (content : PageId → Option NodePage) (Dead : PageId → Prop) :
    PageId → PageId → Prop where
  | here (a : PageId) : Leads content Dead a a
  | skip {a b c : PageId} : a ≠ noSibling → Dead a → content a = some (.leaf [] c) →
      Leads content Dead c b → Leads content Dead a b

def firstId (stop : PageId) : List (Leaf Bytes Bytes) → PageId
  | [] => stop
  | l :: _ => l.id

/-- The link of each leaf leads to the next one. -/
def Linked (content : PageId → Option NodePage) (Dead : PageId → Prop) (stop : PageId) :
    List (Leaf Bytes Bytes) → Prop
  | [] => True
  | l :: rest => Leads content Dead l.next (firstId stop rest) ∧ Linked content Dead stop rest

/-- The links from a page on end after this many leaves. -/
inductive ChainLength (content : PageId → Option NodePage) : PageId → Nat → Prop where
  | nil : ChainLength content noSibling 0
  | cons {a b : PageId} {entries : List Entry} {n : Nat} : a ≠ noSibling →
      content a = some (.leaf entries b) → ChainLength content b n → ChainLength content a (n + 1)

section Links
variable {content content' : PageId → Option NodePage} {Dead Dead' : PageId → Prop}
  {a b c stop : PageId} {ls : List (Leaf Bytes Bytes)}

theorem ChainLength.unique {m n : Nat} (hm : ChainLength content a m)
    (hn : ChainLength content a n) : m = n := by
  induction hm generalizing n with
  | nil =>
      cases hn with
      | nil => rfl
      | cons hne _ _ => exact absurd rfl hne
  | cons hne hpage _ ih =>
      cases hn with
      | nil => exact absurd rfl hne
      | cons _ hpage' hrest =>
          rw [hpage] at hpage'
          cases hpage'
          rw [ih hrest]

/-- The leaves of a chain are different pages, as their chains have different lengths. -/
theorem ChainLength.pages {n : Nat} (h : ChainLength content a n) :
    ∃ ids : List PageId, ids.length = n ∧ ids.Nodup ∧ (∀ i ∈ ids, (content i).isSome) ∧
      ∀ i ∈ ids, ∃ m ≤ n, ChainLength content i m := by
  induction h with
  | nil => exact ⟨[], rfl, List.nodup_nil, by simp, by simp⟩
  | @cons a b entries n hne hpage hrest ih =>
      obtain ⟨ids, hlen, hnodup, hsome, hshort⟩ := ih
      have hself : ChainLength content a (n + 1) := .cons hne hpage hrest
      refine ⟨a :: ids, by rw [List.length_cons, hlen], List.nodup_cons.mpr ⟨?_, hnodup⟩, ?_, ?_⟩
      · intro hin
        obtain ⟨m, hm, hchain⟩ := hshort a hin
        have heq := hself.unique hchain
        omega
      · exact List.forall_mem_cons.mpr ⟨by rw [hpage]; rfl, hsome⟩
      · refine List.forall_mem_cons.mpr ⟨⟨n + 1, le_rfl, hself⟩, fun i hi => ?_⟩
        obtain ⟨m, hm, hchain⟩ := hshort i hi
        exact ⟨m, Nat.le_succ_of_le hm, hchain⟩

theorem ChainLength.le {n next : Nat} (h : ChainLength content a n)
    (hfull : ∀ i, (content i).isSome → i < next) : n ≤ next := by
  obtain ⟨ids, rfl, hnodup, hsome, -⟩ := h.pages
  have hsub : ids ⊆ List.range next := fun i hi => List.mem_range.mpr (hfull i (hsome i hi))
  have hle := (hnodup.subperm hsub).length_le
  rwa [List.length_range] at hle

theorem Leads.trans (hab : Leads content Dead a b) (hbc : Leads content Dead b c) :
    Leads content Dead a c := by
  induction hab with
  | here => exact hbc
  | skip hne hdead hpage _ ih => exact .skip hne hdead hpage (ih hbc)

theorem Leads.mono (hdead : ∀ i, Dead i → i ≠ noSibling → Dead' i ∧ content' i = content i)
    (h : Leads content Dead a b) : Leads content' Dead' a b := by
  induction h with
  | here => exact .here _
  | skip hne ha hpage _ ih =>
      obtain ⟨ha', hsame⟩ := hdead _ ha hne
      exact .skip hne ha' (hsame.trans hpage) ih

theorem Linked.mono (hdead : ∀ i, Dead i → i ≠ noSibling → Dead' i ∧ content' i = content i)
    (h : Linked content Dead stop ls) : Linked content' Dead' stop ls := by
  induction ls with
  | nil => trivial
  | cons l rest ih => exact ⟨h.1.mono hdead, ih h.2⟩

theorem linked_append (xs ys : List (Leaf Bytes Bytes)) :
    Linked content Dead stop (xs ++ ys) ↔
      Linked content Dead (firstId stop ys) xs ∧ Linked content Dead stop ys := by
  induction xs with
  | nil => exact (and_iff_right trivial).symm
  | cons x xs ih =>
      have hfirst : firstId stop (xs ++ ys) = firstId (firstId stop ys) xs := by
        cases xs with
        | nil => rfl
        | cons y xs => rfl
      simp only [List.cons_append, Linked, ih, hfirst, and_assoc]

theorem Linked.leads (h : Linked content Dead stop ls) {l : Leaf Bytes Bytes} (hl : l ∈ ls) :
    ∃ b, Leads content Dead l.next b ∧ (b = stop ∨ ∃ m ∈ ls, m.id = b) := by
  induction ls with
  | nil => cases hl
  | cons x rest ih =>
      rcases List.mem_cons.mp hl with rfl | hl
      · refine ⟨_, h.1, ?_⟩
        cases rest with
        | nil => exact .inl rfl
        | cons y rest => exact .inr ⟨y, by simp, rfl⟩
      · obtain ⟨b, hb, hend⟩ := ih h.2 hl
        exact ⟨b, hb, hend.imp_right (fun ⟨m, hm, heq⟩ => ⟨m, List.mem_cons_of_mem _ hm, heq⟩)⟩

theorem Linked.extend (h : Linked content Dead b ls) (hbc : Leads content Dead b c) :
    Linked content Dead c ls := by
  induction ls with
  | nil => trivial
  | cons l rest ih =>
      refine ⟨?_, ih h.2⟩
      cases rest with
      | nil => exact h.1.trans hbc
      | cons m rest => exact h.1

end Links

section Steps
variable {content content' : PageId → Option NodePage} {next next' : Nat}
  {t t' : BPlusTree.Rooted Bytes Bytes} {key value : Bytes}

def Dead (t : BPlusTree.Rooted Bytes Bytes) (next : Nat) (i : PageId) : Prop :=
  i ∉ t.tree.ids ∧ i < next

/-- A new leaf is linked in after the one that it was split from. -/
theorem Linked.put {cap : Capacity Bytes Bytes}
    (h : Linked content (Dead t next) noSibling t.tree.leaves)
    (hput : BPlusTree.put cap key value t next = some (t', next'))
    (hframe : ∀ i, i ∉ t.tree.ids → i ≠ metaPageId → (i < next ∨ next' ≤ i) →
      content' i = content i) :
    Linked content' (Dead t' next') noSibling t'.tree.leaves := by
  obtain ⟨hle, hperm⟩ := BPlusTree.ids_put hput
  obtain ⟨g, next₀, hleaf, -, hleaves⟩ := BPlusTree.leaves_put hput
  have hkeep : Linked content' (Dead t' next') noSibling t.tree.leaves := by
    refine h.mono ?_
    rintro i ⟨hi, hlt⟩ hne
    refine ⟨⟨fun hin => ?_, hlt.trans_le hle⟩, hframe i hi hne (.inl hlt)⟩
    rcases List.mem_append.mp (hperm.mem_iff.mp hin) with hnew | hold
    · exact absurd (List.mem_range'_1.mp hnew).1 (not_le.mpr hlt)
    · exact hi hold
  rw [BPlusTree.leaves_locate key, linked_append] at hkeep
  obtain ⟨hpre, hnext, hpost⟩ := hkeep
  rw [hleaves, List.append_assoc, linked_append]
  rcases Leaf.insert_cases hleaf with ⟨-, rfl, -⟩ | ⟨left, e, right, -, -, -, -, rfl, -⟩
  · exact ⟨hpre, hnext, hpost⟩
  · exact ⟨hpre, .here _, hnext, hpost⟩

theorem Linked.remove {cap : Capacity Bytes Bytes} (hwf : t.WF cap next)
    (h : Linked content (Dead t next) noSibling t.tree.leaves)
    (hrem : BPlusTree.remove key t = some t')
    (hleaf : ∀ l' e, (t.tree.leafOf key).delete key = some (l', e) →
      content' l'.id = some (.leaf l'.entries l'.next))
    (hframe : ∀ i, i ∉ t.tree.ids → i ≠ metaPageId → content' i = content i) :
    Linked content' (Dead t' next) noSibling t'.tree.leaves := by
  have hids := BPlusTree.ids_remove hrem
  obtain ⟨l', e, hdel, hleaves⟩ := BPlusTree.leaves_remove hrem
  have hkeep : Linked content' (Dead t' next) noSibling t.tree.leaves := by
    refine h.mono ?_
    rintro i ⟨hi, hlt⟩ hne
    exact ⟨⟨fun hin => hi (hids.subset hin), hlt⟩, hframe i hi hne⟩
  rw [BPlusTree.leaves_locate key, linked_append] at hkeep
  obtain ⟨hpre, hnext, hpost⟩ := hkeep
  have hl' := (Leaf.delete_cases hdel).2.1
  have hpage := hleaf l' e hdel
  rcases hleaves with hleaves | ⟨hnil, hleaves⟩
  · rw [hleaves, linked_append]
    subst hl'
    exact ⟨hpre, hnext, hpost⟩
  · -- the page of the leaf is dead now, and its link is followed
    have hmem := BPlusTree.leaf_mem_ids (BPlusTree.leafOf_mem key t.tree)
    have hgone : (t.tree.leafOf key).id ∉ t'.tree.ids := by
      refine BPlusTree.leafOf_not_mem_remove hwf.nodup hrem (fun hin => ?_)
      have hnodup : (t.tree.leaves.map (·.id)).Nodup :=
        hwf.nodup.sublist (BPlusTree.leaves_sublist_ids t.tree)
      rw [BPlusTree.leaves_locate key t.tree, List.map_append, List.map_cons] at hnodup
      rw [hleaves, List.map_append] at hin
      exact (List.nodup_cons.mp (List.nodup_middle.mp hnodup)).1 hin
    rw [hnil, hl'] at hpage
    rw [hleaves, linked_append]
    refine ⟨hpre.extend (.skip ?_ ⟨hgone, (hwf.numbered _ hmem).2⟩ hpage hnext), hpost⟩
    exact (hwf.numbered _ hmem).1.ne'

end Steps
end Sietch
