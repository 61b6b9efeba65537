import Sietch.Base.Isolation

/-! Isolated transactions on a machine that may be killed. A restart ends the open transactions;
when it interrupts a commit, the writes up to some key may have become durable. -/
namespace Isolation
open Transition
variable {I K V : Type}

/-- The part of the transaction that a killed commit leaves: its writes up to some key. -/
structure Survives [LE K] (t t' : Txn K V) : Prop where
  began : t'.began = t.began
  kept : ∃ keep : Set K, IsLowerSet keep ∧ (∀ k ∈ keep, t'.writes k = t.writes k) ∧
    ∀ k, k ∉ keep → t'.writes k = none

inductive LifeEvent (I K V : Type) where
  | call (e : Event I K V) (r : Reply K V)
  | restart
  | killed (id : I)

namespace Survives
variable [LE K] {t t' : Txn K V} {committed : List (Txn K V)}

theorem isSome (h : Survives t t') {k : K} (hk : (t'.writes k).isSome) : (t.writes k).isSome := by
  obtain ⟨keep, -, hkept, hlost⟩ := h.kept
  by_cases hmem : k ∈ keep
  · rwa [← hkept k hmem]
  · rw [hlost k hmem] at hk
    cases hk

theorem no_conflict (h : Survives t t') (hnone : ∀ k, ¬ t.Conflict committed k) (k : K) :
    ¬ t'.Conflict committed k := by
  rintro ⟨hk, c, hc, hw⟩
  rw [h.began] at hc
  exact hnone k ⟨h.isSome hk, c, hc, hw⟩

end Survives

namespace Ledger
variable [LE K] [LT K] [DecidableEq I] [DecidableEq K]

inductive LifeStep : Ledger I K V → LifeEvent I K V → Ledger I K V → Prop where
  | call {L L' e r} : Step L (e, r) L' → LifeStep L (.call e r) L'
  | restart {L} : LifeStep L .restart ⟨L.committed, fun _ => none⟩
  | killed {L id t t'} : L.active id = some t → (∀ k, ¬ t.Conflict L.committed k) →
      Survives t t' → LifeStep L (.killed id) ⟨L.committed ++ [t'], fun _ => none⟩

variable {L L' : Ledger I K V}

theorem Ordered.life {e : LifeEvent I K V} (h : L.Ordered) (hs : LifeStep L e L') :
    L'.Ordered := by
  cases hs with
  | call hs => exact h.step hs
  | restart =>
      refine ⟨?_, h.disjoint⟩
      intro id t ht
      cases ht
  | killed _ hnone hsurvives =>
      refine ⟨?_, h.disjoint_snoc (hsurvives.no_conflict hnone)⟩
      intro id t ht
      cases ht

theorem ordered_life {events : List (LifeEvent I K V)}
    (h : Run LifeStep Ledger.empty events L) : L.Ordered := by
  refine h.invariant ⟨?_, ?_⟩ (fun _ _ _ hi hs => hi.life hs)
  · intro id t ht
    cases ht
  · intro i j t u k _ hi
    cases hi

/-- What is committed stays committed, whatever happens to the machine. -/
theorem committed_life {events : List (LifeEvent I K V)} (h : Run LifeStep L events L') :
    L.committed <+: L'.committed := by
  induction h with
  | nil => exact List.prefix_rfl
  | snoc _ hs ih =>
      cases hs with
      | call hs => exact ih.trans hs.committed
      | restart => exact ih
      | killed _ _ _ => exact ih.trans (List.prefix_append _ _)

end Ledger
end Isolation
