import Mathlib

/-! Results of code that can return an error or stop in a panic, and stateful
code whose state survives an error: what a failed call leaves behind is data,
not an exception. -/

inductive Outcome (ε α : Type) where
  | ok (a : α)
  | err (e : ε)
  | panic
  deriving DecidableEq, Repr

namespace Outcome
variable {ε α β : Type}

def bind (x : Outcome ε α) (f : α → Outcome ε β) : Outcome ε β :=
  match x with
  | .ok a => f a
  | .err e => .err e
  | .panic => .panic

instance : Monad (Outcome ε) where
  pure := .ok
  bind := Outcome.bind

@[simp] theorem pure_eq (a : α) : (pure a : Outcome ε α) = .ok a := rfl

@[simp] theorem ok_bind (a : α) (f : α → Outcome ε β) : (Outcome.ok a >>= f) = f a := rfl

@[simp] theorem err_bind (e : ε) (f : α → Outcome ε β) : (Outcome.err e >>= f) = .err e := rfl

@[simp] theorem panic_bind (f : α → Outcome ε β) : (Outcome.panic >>= f) = .panic := rfl

theorem bind_eq_ok {x : Outcome ε α} {f : α → Outcome ε β} {b : β} :
    (x >>= f) = .ok b ↔ ∃ a, x = .ok a ∧ f a = .ok b := by
  cases x with
  | ok a => simp
  | err e => simp
  | panic => simp

/-- The value, if there is one. -/
def toOption : Outcome ε α → Option α
  | .ok a => some a
  | _ => none

@[simp] theorem toOption_ok (a : α) : (Outcome.ok a : Outcome ε α).toOption = some a := rfl

def isOk : Outcome ε α → Bool
  | .ok _ => true
  | _ => false

/-- The value and the state of a call that returns Ok. -/
def returned {σ : Type} : Outcome ε α × σ → Option (α × σ)
  | (.ok a, s) => some (a, s)
  | _ => none

theorem returned_eq_some {σ : Type} {r : Outcome ε α × σ} {x : α × σ} :
    returned r = some x ↔ r = (.ok x.1, x.2) := by
  obtain ⟨o, s⟩ := r
  cases o with
  | ok a => simp [returned, Prod.ext_iff]
  | err e => simp [returned]
  | panic => simp [returned]

end Outcome
