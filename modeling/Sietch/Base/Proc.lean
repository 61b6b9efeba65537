import Sietch.Base.Outcome

/-! Stateful code that can fail: it turns a state into an outcome and the state it
leaves, also after an error or a panic. The rules are of total correctness: a program
returns from a state with a postcondition, or does so unless something else is the case,
or ends with one postcondition for each kind of outcome. -/

def Proc (σ ε α : Type) : Type := σ → Outcome ε α × σ

namespace Proc
variable {σ τ ε ε' α β γ : Type}

def bind (x : Proc σ ε α) (f : α → Proc σ ε β) : Proc σ ε β := fun s =>
  match x s with
  | (.ok a, s') => f a s'
  | (.err e, s') => (.err e, s')
  | (.panic, s') => (.panic, s')

instance : Monad (Proc σ ε) where
  pure a := fun s => (.ok a, s)
  bind := Proc.bind

/-- A computation that does not touch the state. -/
def lift (o : Outcome ε α) : Proc σ ε α := fun s => (o, s)

def halt : Proc σ ε α := fun s => (.panic, s)

def fail (e : ε) : Proc σ ε α := fun s => (.err e, s)

def get : Proc σ ε σ := fun s => (.ok s, s)

def set (s : σ) : Proc σ ε Unit := fun _ => (.ok (), s)

/-- `unwrap` of an optional value. -/
def unwrap : Option α → Proc σ ε α
  | some a => pure a
  | none => halt

/-- The `?` conversion of an error. -/
def mapErr (f : ε → ε') (x : Proc σ ε α) : Proc σ ε' α := fun s =>
  match x s with
  | (.ok a, s') => (.ok a, s')
  | (.err e, s') => (.err (f e), s')
  | (.panic, s') => (.panic, s')

/-- A program on one field of a larger state. -/
def focus (view : τ → σ) (put : τ → σ → τ) (x : Proc σ ε α) : Proc τ ε α := fun t =>
  match x (view t) with
  | (o, s) => (o, put t s)

/-- The program ends without error or panic, and `Q` holds of its result and of the
state it leaves. -/
def Returns (x : Proc σ ε α) (s : σ) (Q : α → σ → Prop) : Prop :=
  ∃ a s', x s = (.ok a, s') ∧ Q a s'

/-- The program ends with `Q` when it returns and with `R` when it fails, and panics only if
`P` holds. -/
def Ends (x : Proc σ ε α) (s : σ) (Q : α → σ → Prop) (R : σ → Prop) (P : Prop) : Prop :=
  match x s with
  | (.ok a, s') => Q a s'
  | (.err _, s') => R s'
  | (.panic, _) => P

/-- The program returns with `Q`, unless `E` holds. -/
def Unless (E : Prop) (x : Proc σ ε α) (s : σ) (Q : α → σ → Prop) : Prop :=
  Ends x s Q (fun _ => E) E

/-- Whatever its outcome, the program maintains `I` of the state. -/
def Maintains (I : σ → Prop) (x : Proc σ ε α) : Prop := ∀ s, I s → I (x s).2

/-- The program fails, and `R` holds of the state it leaves. -/
def Fails (x : Proc σ ε α) (s : σ) (R : σ → Prop) : Prop := ∃ e s', x s = (.err e, s') ∧ R s'

section Rules
variable {s : σ} {Q : α → σ → Prop} {P : β → σ → Prop} {x : Proc σ ε α} {f : α → Proc σ ε β}

theorem returns_pure {a : α} (h : Q a s) : Returns (pure a : Proc σ ε α) s Q := ⟨a, s, rfl, h⟩

theorem returns_lift {o : Outcome ε α} {a : α} (ho : o = .ok a) (h : Q a s) :
    Returns (lift o) s Q := ⟨a, s, by rw [lift, ho], h⟩

theorem Returns.mono (h : Returns x s Q) {Q' : α → σ → Prop} (hQ : ∀ a s', Q a s' → Q' a s') :
    Returns x s Q' := by
  obtain ⟨a, s', hx, ha⟩ := h
  exact ⟨a, s', hx, hQ a s' ha⟩

/-- The postcondition depends on the outcome and the state left only. -/
theorem Returns.of_eq {y : Proc σ ε α} {t : σ} (h : Returns y t Q) (hxy : x s = y t) :
    Returns x s Q := by
  obtain ⟨a, s', hy, ha⟩ := h
  exact ⟨a, s', hxy.trans hy, ha⟩

theorem bind_ok {a : α} {s' : σ} (h : x s = (.ok a, s')) : (x >>= f) s = f a s' := by
  have hbind : (x >>= f) s = Proc.bind x f s := rfl
  rw [hbind, Proc.bind, h]

theorem bind_err {e : ε} {s' : σ} (h : x s = (.err e, s')) : (x >>= f) s = (.err e, s') := by
  have hbind : (x >>= f) s = Proc.bind x f s := rfl
  rw [hbind, Proc.bind, h]

theorem get_bind {g : σ → Proc σ ε β} : (get >>= g) s = g s s := rfl

theorem lift_bind {o : Outcome ε α} {a : α} (ho : o = .ok a) : (lift o >>= f) s = f a s :=
  bind_ok (by rw [lift, ho])

theorem Returns.bind (h : Returns x s Q) (hf : ∀ a s', Q a s' → Returns (f a) s' P) :
    Returns (x >>= f) s P := by
  obtain ⟨a, s', hx, ha⟩ := h
  obtain ⟨b, s'', hb, hP⟩ := hf a s' ha
  exact ⟨b, s'', by rw [bind_ok hx, hb], hP⟩

theorem Fails.bind {R : σ → Prop} (h : Fails x s R) : Fails (x >>= f) s R := by
  obtain ⟨e, s', hx, hR⟩ := h
  exact ⟨e, s', bind_err hx, hR⟩

theorem Fails.step {R : σ → Prop} {a : α} {s' : σ} (hx : x s = (.ok a, s'))
    (hf : Fails (f a) s' R) : Fails (x >>= f) s R := by
  obtain ⟨e, s'', hfa, hR⟩ := hf
  exact ⟨e, s'', by rw [bind_ok hx, hfa], hR⟩

/-- What comes after a program that returns may fail. -/
theorem Returns.bind_fails {R : σ → Prop} (h : Returns x s Q)
    (hf : ∀ a s', Q a s' → Fails (f a) s' R) : Fails (x >>= f) s R := by
  obtain ⟨a, s', hx, ha⟩ := h
  exact Fails.step hx (hf a s' ha)

theorem Returns.mapErr (h : Returns x s Q) (g : ε → ε') : Returns (x.mapErr g) s Q := by
  obtain ⟨a, s', hx, ha⟩ := h
  exact ⟨a, s', by rw [Proc.mapErr, hx], ha⟩

theorem Returns.ends (h : Returns x s Q) (R : σ → Prop) (P : Prop) : Ends x s Q R P := by
  obtain ⟨a, s', hx, hQ⟩ := h
  rw [Ends, hx]
  exact hQ

theorem Ends.of_eq {y : Proc σ ε α} {t : σ} {R : σ → Prop} {P : Prop} (h : Ends y t Q R P)
    (hxy : x s = y t) : Ends x s Q R P := by
  rw [Ends, hxy]
  exact h

theorem Ends.bind {R R' : σ → Prop} {P' : Prop} {S : β → σ → Prop} (h : Ends x s Q R P')
    (hR : ∀ s', R s' → R' s') (hf : ∀ a s', Q a s' → Ends (f a) s' S R' P') :
    Ends (x >>= f) s S R' P' := by
  have hbind : (x >>= f) s = Proc.bind x f s := rfl
  rw [Ends] at h
  cases hx : x s with
  | mk o t =>
      rw [hx] at h
      cases o with
      | ok a =>
          exact (hf a t h).of_eq (bind_ok hx)
      | err e =>
          rw [Ends, bind_err hx]
          exact hR t h
      | panic =>
          rw [Ends, hbind, Proc.bind, hx]
          exact h

theorem Ends.mono {R R' : σ → Prop} {P P' : Prop} {Q' : α → σ → Prop} (h : Ends x s Q R P)
    (hQ : ∀ a s', Q a s' → Q' a s') (hR : ∀ s', R s' → R' s') (hP : P → P') :
    Ends x s Q' R' P' := by
  rw [Ends] at h ⊢
  cases hx : x s with
  | mk o t =>
      rw [hx] at h
      cases o with
      | ok a => exact hQ a t h
      | err e => exact hR t h
      | panic => exact hP h

theorem Ends.ok {R : σ → Prop} {P : Prop} {a : α} {s' : σ} (h : Ends x s Q R P)
    (hx : x s = (.ok a, s')) : Q a s' := by
  rw [Ends, hx] at h
  exact h

theorem Ends.err {R : σ → Prop} {P : Prop} {e : ε} {s' : σ} (h : Ends x s Q R P)
    (hx : x s = (.err e, s')) : R s' := by
  rw [Ends, hx] at h
  exact h

theorem Ends.panic {R : σ → Prop} {P : Prop} {s' : σ} (h : Ends x s Q R P)
    (hx : x s = (.panic, s')) : P := by
  rw [Ends, hx] at h
  exact h

theorem Returns.unless (h : Returns x s Q) (E : Prop) : Unless E x s Q := h.ends _ _

theorem Unless.bind {E : Prop} (h : Unless E x s Q) (hf : ∀ a s', Q a s' → Unless E (f a) s' P) :
    Unless E (x >>= f) s P := Ends.bind h (fun _ hE => hE) hf

/-- A step whose outcome is known. -/
theorem Unless.step {E : Prop} {a : α} {s' : σ} (hx : x s = (.ok a, s'))
    (hf : Unless E (f a) s' P) : Unless E (x >>= f) s P := Ends.of_eq hf (bind_ok hx)

theorem Unless.mono {E E' : Prop} {Q' : α → σ → Prop} (h : Unless E x s Q)
    (hQ : ∀ a s', Q a s' → Q' a s') (hE : E → E') : Unless E' x s Q' :=
  Ends.mono h hQ (fun _ => hE) hE

theorem Unless.returns {E : Prop} (h : Unless E x s Q) (hE : ¬ E) : Returns x s Q := by
  rw [Unless, Ends] at h
  cases hx : x s with
  | mk o t =>
      rw [hx] at h
      cases o with
      | ok a => exact ⟨a, t, hx, h⟩
      | err e => exact absurd h hE
      | panic => exact absurd h hE

theorem Ends.mapErr {R : σ → Prop} {P : Prop} (h : Ends x s Q R P) (g : ε → ε') :
    Ends (x.mapErr g) s Q R P := by
  rw [Ends] at h ⊢
  rw [Proc.mapErr]
  cases hx : x s with
  | mk o t =>
      rw [hx] at h
      cases o with
      | ok a => exact h
      | err e => exact h
      | panic => exact h

/-- A program on one field leaves the others as they are. -/
theorem Unless.focus {E : Prop} {t : τ} {view : τ → σ} (h : Unless E x (view t) Q)
    (put : τ → σ → τ) :
    Unless E (x.focus view put) t (fun a t' => ∃ s', Q a s' ∧ t' = put t s') := by
  rw [Unless, Ends] at h ⊢
  rw [Proc.focus]
  cases hx : x (view t) with
  | mk o s' =>
      rw [hx] at h
      cases o with
      | ok a => exact ⟨s', h, rfl⟩
      | err e => exact h
      | panic => exact h

end Rules

section Maintains
variable {I : σ → Prop} {x : Proc σ ε α} {f : α → Proc σ ε β}

theorem maintains_pure (a : α) : Maintains I (pure a : Proc σ ε α) := fun _ h => h

theorem maintains_lift (o : Outcome ε α) : Maintains I (lift o : Proc σ ε α) := fun _ h => h

theorem maintains_halt : Maintains I (halt : Proc σ ε α) := fun _ h => h

theorem maintains_fail (e : ε) : Maintains I (fail e : Proc σ ε α) := fun _ h => h

theorem maintains_get : Maintains I (get : Proc σ ε σ) := fun _ h => h

theorem maintains_unwrap (o : Option α) : Maintains I (unwrap o : Proc σ ε α) := by
  cases o with
  | none => exact maintains_halt
  | some a => exact maintains_pure a

theorem Maintains.bind (hx : Maintains I x) (hf : ∀ a, Maintains I (f a)) :
    Maintains I (x >>= f) := by
  intro s h
  have hbind : (x >>= f) s = Proc.bind x f s := rfl
  have hkept := hx s h
  rw [hbind, Proc.bind]
  cases hs : x s with
  | mk o s' =>
      rw [hs] at hkept
      cases o with
      | ok a => exact hf a s' hkept
      | err e => exact hkept
      | panic => exact hkept

theorem Maintains.mapErr (hx : Maintains I x) (g : ε → ε') : Maintains I (x.mapErr g) := by
  intro s h
  have hkept := hx s h
  rw [Proc.mapErr]
  cases hs : x s with
  | mk o s' =>
      rw [hs] at hkept
      cases o with
      | ok a => exact hkept
      | err e => exact hkept
      | panic => exact hkept

theorem Maintains.focus {J : τ → Prop} {view : τ → σ} {put : τ → σ → τ} (hx : Maintains I x)
    (hview : ∀ t, J t → I (view t)) (hput : ∀ t s, J t → I s → J (put t s)) :
    Maintains J (x.focus view put) :=
  fun t h => hput t _ h (hx _ (hview t h))

end Maintains
end Proc
