import Mathlib

/-! Labelled transition systems: runs, and the rule that a property of the
start which every step keeps holds at the end of every run. -/
namespace Transition
variable {S E : Type}

/-- The runs of a step relation, newest step last. -/
inductive Run (step : S → E → S → Prop) (start : S) : List E → S → Prop where
  | nil : Run step start [] start
  | snoc {es : List E} {s t : S} {e : E} :
      Run step start es s → step s e t → Run step start (es ++ [e]) t

variable {step : S → E → S → Prop} {start s t : S} {es : List E}

theorem Run.invariant {I : S → Prop} (h : Run step start es s) (h0 : I start)
    (hstep : ∀ a e b, I a → step a e b → I b) : I s := by
  induction h with
  | nil => exact h0
  | snoc _ hs ih => exact hstep _ _ _ ih hs

theorem Run.invariant_history {I : List E → S → Prop} (h : Run step start es s) (h0 : I [] start)
    (hstep : ∀ hist a e b, I hist a → step a e b → I (hist ++ [e]) b) : I es s := by
  induction h with
  | nil => exact h0
  | snoc _ hs ih => exact hstep _ _ _ _ ih hs

theorem Run.append {fs : List E} (h : Run step start es s) (k : Run step s fs t) :
    Run step start (es ++ fs) t := by
  induction k with
  | nil => simpa using h
  | snoc _ hs ih => simpa only [List.append_assoc] using ih.snoc hs

theorem Run.mono_mem {step' : S → E → S → Prop} (h : Run step start es s)
    (hstep : ∀ a e b, e ∈ es → step a e b → step' a e b) : Run step' start es s := by
  induction h with
  | nil => exact .nil
  | snoc _ hs ih =>
      refine (ih ?_).snoc (hstep _ _ _ (by simp) hs)
      exact fun a e b he => hstep a e b (List.mem_append_left _ he)

theorem Run.mono {step' : S → E → S → Prop} (hstep : ∀ a e b, step a e b → step' a e b)
    (h : Run step start es s) : Run step' start es s :=
  h.mono_mem (fun a e b _ => hstep a e b)

/-- Every step is matched by a step of another system; an event without a counterpart
there leaves its state as it is. -/
def Simulates {T F : Type} (step : S → E → S → Prop) (spec : T → F → T → Prop)
    (label : E → Option F) (R : S → T → Prop) : Prop :=
  ∀ a A e b, R a A → step a e b →
    (∃ f B, label e = some f ∧ spec A f B ∧ R b B) ∨ (label e = none ∧ R b A)

theorem Simulates.run {T F : Type} {spec : T → F → T → Prop} {label : E → Option F}
    {R : S → T → Prop} (hsim : Simulates step spec label R) (h : Run step start es s) {A : T}
    (hR : R start A) : ∃ B, Run spec A (es.filterMap label) B ∧ R s B := by
  induction h with
  | nil => exact ⟨A, .nil, hR⟩
  | @snoc es s t e _ hs ih =>
      obtain ⟨B, hrun, hB⟩ := ih
      rw [List.filterMap_append]
      rcases hsim s B e t hB hs with ⟨f, C, hf, hspec, hC⟩ | ⟨hnone, hC⟩
      · refine ⟨C, ?_, hC⟩
        simpa [hf] using hrun.snoc hspec
      · refine ⟨B, ?_, hC⟩
        simpa [hnone] using hrun

/-- Steps that meet a condition on the state they start from. -/
def Under (cond : S → E → Prop) (step : S → E → S → Prop) : S → E → S → Prop :=
  fun a e b => cond a e ∧ step a e b

/-- The steps of a partial function, for the events that are allowed. -/
def Computed (allowed : E → Prop) (f : S → E → Option S) : S → E → S → Prop :=
  fun a e b => allowed e ∧ f a e = some b

theorem Run.of_foldlM {allowed : E → Prop} {f : S → E → Option S} (hes : ∀ e ∈ es, allowed e)
    (h : es.foldlM f s = some t) : Run (Computed allowed f) s es t := by
  induction es using List.reverseRecOn generalizing t with
  | nil =>
      cases h
      exact .nil
  | append_singleton es e ih =>
      rw [List.foldlM_append] at h
      obtain ⟨u, hu, he⟩ := Option.bind_eq_some_iff.mp h
      rw [List.foldlM_cons] at he
      obtain ⟨v, hv, hvt⟩ := Option.bind_eq_some_iff.mp he
      cases hvt
      exact (ih (fun a ha => hes a (List.mem_append_left _ ha)) hu).snoc ⟨hes e (by simp), hv⟩

end Transition
