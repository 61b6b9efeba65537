import Mathlib

/-! A sequence of children with a separator between each two: the inside of a node of a
search tree. A key belongs to the last child whose separator is not above it. -/

inductive Chain (K C : Type) where
  | last (c : C)
  | cons (c : C) (k : K) (rest : Chain K C)
  deriving DecidableEq, Repr

namespace Chain
variable {K C D : Type}

def children : Chain K C → List C
  | last c => [c]
  | cons c _ rest => c :: rest.children

def seps : Chain K C → List K
  | last _ => []
  | cons _ k rest => k :: rest.seps

def head : Chain K C → C
  | last c => c
  | cons c _ _ => c

def append : Chain K C → K → Chain K C → Chain K C
  | last c, k, right => cons c k right
  | cons c j rest, k, right => cons c j (rest.append k right)

/-- The first `m` children, the separator after them, and the other children. -/
def splitAt : Nat → Chain K C → Option (Chain K C × K × Chain K C)
  | 0, _ => none
  | _ + 1, last _ => none
  | 1, cons c k rest => some (last c, k, rest)
  | m + 2, cons c k rest => (splitAt (m + 1) rest).map (fun p => (cons c k p.1, p.2))

section Order
variable [LinearOrder K]

/-- The children before the one that the key belongs to, that one, and those after it. -/
def locate (k : K) : Chain K C → List C × C × List C
  | last c => ([], c, [])
  | cons c s rest =>
      if s ≤ k then
        let (before, d, after) := rest.locate k
        (c :: before, d, after)
      else ([], c, rest.children)

def route (k : K) (ch : Chain K C) : C := (ch.locate k).2.1

def routeIdx (k : K) : Chain K C → Nat
  | last _ => 0
  | cons _ s rest => if s ≤ k then rest.routeIdx k + 1 else 0

/-- A chain in the place of the child that the key belongs to. -/
def splice (k : K) : Chain K C → Chain K C → Chain K C
  | last _, seg => seg
  | cons c s rest, seg => if s ≤ k then cons c s (rest.splice k seg) else seg.append s rest

/-- A separator and a child after it, before the first separator that is greater. -/
def attach (s : K) (d : C) : Chain K C → Chain K C
  | last c => cons c s (last d)
  | cons c k rest => if s < k then cons c s (cons d k rest) else cons c k (rest.attach s d)

/-- A child, its separator and what follows, without the child after it that the key belongs
to. The separator goes that stands before the child. -/
def detachAfter (k : K) (c : C) (s : K) : Chain K C → Chain K C
  | last _ => last c
  | cons d s' rest => if s' ≤ k then cons c s (detachAfter k d s' rest) else cons c s' rest

/-- The chain without the child that the key belongs to. The first child goes with the
separator after it; an only child stays. -/
def detach (k : K) : Chain K C → Option (Chain K C)
  | last _ => none
  | cons c s rest => if s ≤ k then some (detachAfter k c s rest) else some rest

end Order

section Shape
variable {ch : Chain K C}

theorem head_mem (ch : Chain K C) : ch.head ∈ ch.children := by
  cases ch with
  | last c => exact List.mem_cons_self ..
  | cons c k rest => exact List.mem_cons_self ..

theorem children_append (left : Chain K C) (k : K) (right : Chain K C) :
    (left.append k right).children = left.children ++ right.children := by
  induction left with
  | last c => rfl
  | cons c j rest ih => simp only [append, children, ih, List.cons_append]

theorem seps_append (left : Chain K C) (k : K) (right : Chain K C) :
    (left.append k right).seps = left.seps ++ k :: right.seps := by
  induction left with
  | last c => rfl
  | cons c j rest ih => simp only [append, seps, ih, List.cons_append]

theorem length_children (ch : Chain K C) : ch.children.length = ch.seps.length + 1 := by
  induction ch with
  | last c => rfl
  | cons c k rest ih => simp only [children, seps, List.length_cons, ih]

/-- A split cuts a chain in two. -/
theorem splitAt_eq {m : Nat} {l r : Chain K C} {k : K} (h : splitAt m ch = some (l, k, r)) :
    ch = l.append k r ∧ l.children.length = m := by
  induction m, ch using splitAt.induct generalizing l with
  | case1 ch => rw [splitAt] at h; cases h
  | case2 m c => rw [splitAt] at h; cases h
  | case3 c j rest =>
      rw [splitAt] at h
      cases h
      exact ⟨rfl, rfl⟩
  | case4 m c j rest ih =>
      rw [splitAt, Option.map_eq_some_iff] at h
      obtain ⟨⟨l', k', r'⟩, hsplit, heq⟩ := h
      cases heq
      obtain ⟨hrest, hlen⟩ := ih hsplit
      rw [hrest]
      exact ⟨rfl, by simp only [children, List.length_cons, hlen]⟩

theorem splitAt_isSome {m : Nat} (hm : 0 < m) (hlt : m ≤ ch.seps.length) :
    (splitAt m ch).isSome := by
  induction m, ch using splitAt.induct with
  | case1 ch => exact absurd hm (lt_irrefl _)
  | case2 m c => exact absurd hlt (Nat.not_succ_le_zero _)
  | case3 c j rest => rfl
  | case4 m c j rest ih =>
      rw [splitAt, Option.isSome_map]
      exact ih (Nat.succ_pos _) (Nat.le_of_succ_le_succ hlt)

end Shape

section Route
variable [LinearOrder K] {k : K} {ch : Chain K C}

theorem children_locate (k : K) (ch : Chain K C) :
    ch.children = (ch.locate k).1 ++ ch.route k :: (ch.locate k).2.2 := by
  induction ch with
  | last c => rfl
  | cons c s rest ih =>
      rw [children, route, locate]
      split
      · rw [ih]
        rfl
      · rfl

theorem route_mem (k : K) (ch : Chain K C) : ch.route k ∈ ch.children := by
  rw [children_locate k ch]
  simp

theorem children_splice (k : K) (seg ch : Chain K C) :
    (ch.splice k seg).children = (ch.locate k).1 ++ seg.children ++ (ch.locate k).2.2 := by
  induction ch with
  | last c => simp [splice, locate]
  | cons c s rest ih =>
      rw [splice, locate]
      split
      · simp only [children, ih, List.cons_append]
      · simp only [children_append, List.nil_append]

theorem seps_splice_last (k : K) (c : C) (ch : Chain K C) :
    (ch.splice k (last c)).seps = ch.seps := by
  induction ch with
  | last d => rfl
  | cons d s rest ih =>
      rw [splice]
      split
      · simp only [seps, ih]
      · rfl

theorem children_detachAfter (k : K) (c : C) (s : K) (ch : Chain K C) :
    (detachAfter k c s ch).children = c :: ((ch.locate k).1 ++ (ch.locate k).2.2) := by
  induction ch generalizing c s with
  | last d => rfl
  | cons d s' rest ih =>
      rw [detachAfter, locate]
      split
      · simp only [children, ih, List.cons_append]
      · rfl

theorem children_detach {ch' : Chain K C} (h : ch.detach k = some ch') :
    ch'.children = (ch.locate k).1 ++ (ch.locate k).2.2 := by
  cases ch with
  | last c => cases h
  | cons c s rest =>
      rw [detach] at h
      rw [locate]
      split at h
      · rename_i hs
        cases h
        rw [if_pos hs]
        exact children_detachAfter k c s rest
      · rename_i hs
        cases h
        rw [if_neg hs]
        rfl

theorem seps_detachAfter (k : K) (c : C) (s : K) (ch : Chain K C) :
    (detachAfter k c s ch).seps.Sublist (s :: ch.seps) := by
  induction ch generalizing c s with
  | last d => exact List.nil_sublist _
  | cons d s' rest ih =>
      rw [detachAfter]
      split
      · exact (ih d s').cons_cons s
      · exact List.sublist_cons_self _ _

theorem seps_detach {ch' : Chain K C} (h : ch.detach k = some ch') :
    ch'.seps.Sublist ch.seps := by
  cases ch with
  | last c => cases h
  | cons c s rest =>
      rw [detach] at h
      split at h
      · cases h
        exact seps_detachAfter k c s rest
      · cases h
        exact List.sublist_cons_self _ _

theorem detach_eq_none (h : ch.detach k = none) : ∃ c, ch = last c := by
  cases ch with
  | last c => exact ⟨c, rfl⟩
  | cons c s rest =>
      rw [detach] at h
      split at h
      · cases h
      · cases h

end Route

section Bounds
variable [LinearOrder K]

/-- The keys at or above the lower bound and below the upper one; an absent bound does not
bind. -/
def Within (lo hi : Option K) (k : K) : Prop := (∀ a ∈ lo, a ≤ k) ∧ ∀ b ∈ hi, k < b

/-- The separators in increasing order strictly between the bounds, with each child between
the separators around it. -/
def Spanned (P : Option K → Option K → C → Prop) (lo hi : Option K) : Chain K C → Prop
  | last c => P lo hi c
  | cons c s rest =>
      ((∀ a ∈ lo, a < s) ∧ ∀ b ∈ hi, s < b) ∧ P lo (some s) c ∧ Spanned P (some s) hi rest

/-- The bounds of the child that the key belongs to. -/
def slot (k : K) (lo hi : Option K) : Chain K C → Option K × Option K
  | last _ => (lo, hi)
  | cons _ s rest => if s ≤ k then slot k (some s) hi rest else (lo, some s)

def Widens (P : Option K → Option K → C → Prop) : Prop :=
  ∀ ⦃lo hi lo' hi' : Option K⦄ ⦃c : C⦄, (∀ a' ∈ lo', ∃ a ∈ lo, a' ≤ a) →
    (∀ b' ∈ hi', ∃ b ∈ hi, b ≤ b') → P lo hi c → P lo' hi' c

variable {P : Option K → Option K → C → Prop} {lo hi : Option K} {k : K} {ch : Chain K C}

theorem within_none (k : K) : Within none none k := ⟨by simp, by simp⟩

theorem within_slot (h : Within lo hi k) (ch : Chain K C) :
    Within (ch.slot k lo hi).1 (ch.slot k lo hi).2 k := by
  induction ch generalizing lo with
  | last c => exact h
  | cons c s rest ih =>
      rw [slot]
      split
      · rename_i hs
        exact ih ⟨fun a ha => by cases ha; exact hs, h.2⟩
      · rename_i hs
        exact ⟨h.1, fun b hb => by cases hb; exact not_le.mp hs⟩

theorem Spanned.route (h : ch.Spanned P lo hi) (k : K) :
    P (ch.slot k lo hi).1 (ch.slot k lo hi).2 (ch.route k) := by
  induction ch generalizing lo with
  | last c => exact h
  | cons c s rest ih =>
      rw [slot, Chain.route, locate]
      split
      · exact ih h.2.2
      · exact h.2.1

theorem Spanned.forall (h : ch.Spanned P lo hi) : ∀ c ∈ ch.children, ∃ a b, P a b c := by
  induction ch generalizing lo with
  | last c => exact fun d hd => by rw [List.mem_singleton.mp hd]; exact ⟨_, _, h⟩
  | cons c s rest ih =>
      intro d hd
      rcases List.mem_cons.mp hd with rfl | hd
      · exact ⟨_, _, h.2.1⟩
      · exact ih h.2.2 d hd

theorem Spanned.seps_above (h : ch.Spanned P lo hi) : ∀ s ∈ ch.seps, ∀ a ∈ lo, a < s := by
  induction ch generalizing lo with
  | last c => exact fun s hs => by cases hs
  | cons c j rest ih =>
      intro s hs a ha
      have hj := h.1.1 a ha
      rcases List.mem_cons.mp hs with rfl | hs
      · exact hj
      · exact hj.trans (ih h.2.2 s hs j rfl)

theorem Spanned.seps_pairwise (h : ch.Spanned P lo hi) : ch.seps.Pairwise (· < ·) := by
  induction ch generalizing lo with
  | last c => exact List.Pairwise.nil
  | cons c j rest ih =>
      exact List.pairwise_cons.mpr ⟨fun s hs => h.2.2.seps_above s hs j rfl, ih h.2.2⟩

/-- The children before the one that the key belongs to are below the key. -/
theorem Spanned.before (h : ch.Spanned P lo hi) (k : K) :
    ∀ c ∈ (ch.locate k).1, ∃ a b, P a (some b) c ∧ b ≤ k := by
  induction ch generalizing lo with
  | last c => exact fun d hd => by cases hd
  | cons c s rest ih =>
      intro d hd
      rw [locate] at hd
      split at hd
      · rename_i hs
        rcases List.mem_cons.mp hd with rfl | hd
        · exact ⟨_, _, h.2.1, hs⟩
        · exact ih h.2.2 d hd
      · cases hd

/-- The bounds of a chain may be wider than those of its children need. -/
theorem Spanned.forall_above (h : ch.Spanned P (some k) hi) :
    ∀ c ∈ ch.children, ∃ a b, P (some a) b c ∧ k ≤ a := by
  induction ch generalizing k with
  | last c => exact fun d hd => by rw [List.mem_singleton.mp hd]; exact ⟨_, _, h, le_refl k⟩
  | cons c s rest ih =>
      intro d hd
      rcases List.mem_cons.mp hd with rfl | hd
      · exact ⟨_, _, h.2.1, le_refl k⟩
      · obtain ⟨a, b, hP, ha⟩ := ih h.2.2 d hd
        exact ⟨a, b, hP, (h.1.1 k rfl).le.trans ha⟩

theorem Spanned.after (h : ch.Spanned P lo hi) (k : K) :
    ∀ c ∈ (ch.locate k).2.2, ∃ a b, P (some a) b c ∧ k < a := by
  induction ch generalizing lo with
  | last c => exact fun d hd => by cases hd
  | cons c s rest ih =>
      intro d hd
      rw [locate] at hd
      split at hd
      · exact ih h.2.2 d hd
      · rename_i hs
        obtain ⟨a, b, hP, ha⟩ := h.2.2.forall_above d hd
        exact ⟨a, b, hP, (not_le.mp hs).trans_le ha⟩

theorem spanned_append (left : Chain K C) (k : K) (right : Chain K C) :
    (left.append k right).Spanned P lo hi ↔
      ((∀ a ∈ lo, a < k) ∧ ∀ b ∈ hi, k < b) ∧ left.Spanned P lo (some k) ∧
        right.Spanned P (some k) hi := by
  induction left generalizing lo with
  | last c => exact Iff.rfl
  | cons c j rest ih =>
      simp only [append, Spanned, ih, Option.mem_some_iff, forall_eq']
      constructor
      · rintro ⟨⟨hloj, hjhi⟩, hc, ⟨hjk, hkhi⟩, hrest, hright⟩
        exact ⟨⟨fun a ha => (hloj a ha).trans hjk, hkhi⟩, ⟨⟨hloj, hjk⟩, hc, hrest⟩, hright⟩
      · rintro ⟨⟨hlok, hkhi⟩, ⟨⟨hloj, hjk⟩, hc, hrest⟩, hright⟩
        exact ⟨⟨hloj, fun b hb => hjk.trans (hkhi b hb)⟩, hc, ⟨hjk, hkhi⟩, hrest, hright⟩

/-- What stands between the bounds of a child may take its place. -/
theorem Spanned.splice (h : ch.Spanned P lo hi) {seg : Chain K C}
    (hseg : seg.Spanned P (ch.slot k lo hi).1 (ch.slot k lo hi).2) :
    (ch.splice k seg).Spanned P lo hi := by
  induction ch generalizing lo with
  | last c => exact hseg
  | cons c s rest ih =>
      rw [slot] at hseg
      rw [Chain.splice]
      split at hseg
      · rename_i hs
        rw [if_pos hs]
        exact ⟨h.1, h.2.1, ih h.2.2 hseg⟩
      · rename_i hs
        rw [if_neg hs]
        exact (spanned_append seg s rest).mpr ⟨h.1, hseg, h.2.2⟩

/-- What the children hold between their bounds is between the bounds of the chain. -/
theorem Spanned.within {X : Type} {f : C → List X} {key : X → K}
    (hP : ∀ ⦃a b c⦄, P a b c → ∀ x ∈ f c, Within a b (key x)) (h : ch.Spanned P lo hi) :
    ∀ x ∈ ch.children.flatMap f, Within lo hi (key x) := by
  induction ch generalizing lo with
  | last c => simpa [children] using hP h
  | cons c s rest ih =>
      intro x hx
      rw [children, List.flatMap_cons, List.mem_append] at hx
      rcases hx with hx | hx
      · obtain ⟨hlo, hhi⟩ := hP h.2.1 x hx
        exact ⟨hlo, fun b hb => (hhi s rfl).trans (h.1.2 b hb)⟩
      · obtain ⟨hlo, hhi⟩ := ih h.2.2 x hx
        exact ⟨fun a ha => (h.1.1 a ha).le.trans (hlo s rfl), hhi⟩

/-- And it is in increasing order if it is so in each child. -/
theorem Spanned.pairwise {X : Type} {f : C → List X} {key : X → K}
    (hP : ∀ ⦃a b c⦄, P a b c → ∀ x ∈ f c, Within a b (key x))
    (hsorted : ∀ ⦃a b c⦄, P a b c → (f c).Pairwise (fun x y => key x < key y))
    (h : ch.Spanned P lo hi) :
    (ch.children.flatMap f).Pairwise (fun x y => key x < key y) := by
  induction ch generalizing lo with
  | last c => simpa [children] using hsorted h
  | cons c s rest ih =>
      rw [children, List.flatMap_cons, List.pairwise_append]
      refine ⟨hsorted h.2.1, ih h.2.2, fun x hx y hy => ?_⟩
      exact ((hP h.2.1 x hx).2 s rfl).trans_le ((h.2.2.within hP y hy).1 s rfl)

theorem Spanned.lower_lt (h : ch.Spanned P lo hi) {s : K}
    (hs : ∀ a ∈ (ch.slot k lo hi).1, a < s) : ∀ a ∈ lo, a < s := by
  induction ch generalizing lo with
  | last c => exact hs
  | cons c s' rest ih =>
      rw [slot] at hs
      split at hs
      · exact fun a ha => (h.1.1 a ha).trans (ih h.2.2 hs s' rfl)
      · exact hs

/-- A separator between the bounds of the split child is attached right after it. -/
theorem Spanned.attach_splice (h : ch.Spanned P lo hi) {s : K} {c d : C}
    (hlo : ∀ a ∈ (ch.slot k lo hi).1, a < s) (hhi : ∀ b ∈ (ch.slot k lo hi).2, s < b) :
    (ch.splice k (last c)).attach s d = ch.splice k (cons c s (last d)) := by
  induction ch generalizing lo with
  | last e => rfl
  | cons e s' rest ih =>
      rw [slot] at hlo hhi
      rw [Chain.splice, Chain.splice]
      by_cases hs : s' ≤ k
      · rw [if_pos hs] at hlo hhi ⊢
        have hlt := h.2.2.lower_lt hlo s' rfl
        rw [if_pos hs, attach, if_neg hlt.le.not_gt, ih h.2.2 hlo hhi]
      · rw [if_neg hs] at hlo hhi ⊢
        rw [if_neg hs, append, attach, if_pos (hhi s' rfl)]
        rfl

/-- A chain whose children allow wider bounds allows them itself. -/
theorem Spanned.mono (hP : Widens P) {lo' hi' : Option K} (hlo : ∀ a' ∈ lo', ∃ a ∈ lo, a' ≤ a)
    (hhi : ∀ b' ∈ hi', ∃ b ∈ hi, b ≤ b') (h : ch.Spanned P lo hi) : ch.Spanned P lo' hi' := by
  induction ch generalizing lo lo' with
  | last c => exact hP hlo hhi h
  | cons c s rest ih =>
      refine ⟨⟨fun a' ha' => ?_, fun b' hb' => ?_⟩, ?_, ?_⟩
      · obtain ⟨a, ha, hle⟩ := hlo a' ha'
        exact hle.trans_lt (h.1.1 a ha)
      · obtain ⟨b, hb, hle⟩ := hhi b' hb'
        exact (h.1.2 b hb).trans_le hle
      · exact hP hlo (fun b hb => ⟨b, hb, le_refl b⟩) h.2.1
      · exact ih (fun a ha => ⟨a, ha, le_refl a⟩) h.2.2

theorem Spanned.detachAfter (hP : Widens P) {c : C} {s : K}
    (hs : (∀ a ∈ lo, a < s) ∧ ∀ b ∈ hi, s < b) (hc : P lo (some s) c)
    (h : ch.Spanned P (some s) hi) : (Chain.detachAfter k c s ch).Spanned P lo hi := by
  induction ch generalizing lo c s with
  | last d =>
      exact hP (fun a ha => ⟨a, ha, le_refl a⟩) (fun b hb => ⟨s, rfl, (hs.2 b hb).le⟩) hc
  | cons d s' rest ih =>
      have hlt := h.1.1 s rfl
      rw [Chain.detachAfter]
      split
      · exact ⟨hs, hc, ih h.1 h.2.1 h.2.2⟩
      · refine ⟨⟨fun a ha => (hs.1 a ha).trans hlt, h.1.2⟩, ?_, h.2.2⟩
        exact hP (fun a ha => ⟨a, ha, le_refl a⟩)
          (fun b hb => by cases hb; exact ⟨s, rfl, hlt.le⟩) hc

/-- The neighbour of a child that is taken out takes over its keys. -/
theorem Spanned.detach (hP : Widens P) {ch' : Chain K C} (h : ch.Spanned P lo hi)
    (hdetach : ch.detach k = some ch') : ch'.Spanned P lo hi := by
  cases ch with
  | last c => cases hdetach
  | cons c s rest =>
      rw [Chain.detach] at hdetach
      split at hdetach
      · cases hdetach
        exact h.2.2.detachAfter hP h.1 h.2.1
      · cases hdetach
        exact h.2.2.mono hP (fun a ha => ⟨s, rfl, (h.1.1 a ha).le⟩)
          (fun b hb => ⟨b, hb, le_refl b⟩)

end Bounds
end Chain
