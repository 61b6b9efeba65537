import Mathlib

/-! Programs over durable state, each a list of atomic actions chosen from the
state it starts in. A crash cuts the list anywhere. Triples have a crash
condition beside the postcondition: what every cut of the program leaves. -/

/-- The actions a program performs when started in a state. -/
def Script (S A : Type) : Type := S → List A

namespace Script
variable {S A B : Type} (act : A → S → S)

/-- The state after a list of actions. -/
def exec (as : List A) (s : S) : S := as.foldl (fun s a => act a s) s

/-- The state after the whole program. -/
def final (p : Script S A) (s : S) : S := exec act (p s) s

/-- The states a crash inside the program can leave. -/
def Cut (p : Script S A) (s t : S) : Prop := ∃ n, t = exec act ((p s).take n) s

def skip : Script S A := fun _ => []

def one (a : A) : Script S A := fun _ => [a]

def seq (p q : Script S A) : Script S A := fun s => p s ++ q (final act p s)

def cond (b : S → Bool) (p q : Script S A) : Script S A := fun s => if b s then p s else q s

/-- One action for each element of a list read off the state at the start. -/
def each (f : S → List B) (g : B → A) : Script S A := fun s => (f s).map g

theorem exec_append (as bs : List A) (s : S) :
    exec act (as ++ bs) s = exec act bs (exec act as s) := by
  simp [exec]

theorem final_seq (p q : Script S A) (s : S) :
    final act (seq act p q) s = final act q (final act p s) := by
  simp [final, seq, exec_append]

theorem final_cond (b : S → Bool) (p q : Script S A) (s : S) :
    final act (cond b p q) s = if b s then final act p s else final act q s := by
  unfold final cond
  split
  · rfl
  · rfl

/-- From `pre` the program ends in `post`, and every cut of it is in `crash`. -/
def Triple (pre : S → Prop) (p : Script S A) (post crash : S → Prop) : Prop :=
  ∀ s, pre s → post (final act p s) ∧ ∀ t, Cut act p s t → crash t

variable {act} {pre post crash : S → Prop} {p q : Script S A}

theorem Triple.skip (hpost : ∀ s, pre s → post s) (hcrash : ∀ s, pre s → crash s) :
    Triple act pre skip post crash := by
  intro s hs
  refine ⟨hpost s hs, ?_⟩
  rintro t ⟨n, rfl⟩
  cases n with
  | zero => exact hcrash s hs
  | succ n => exact hcrash s hs

theorem Triple.one {a : A} (hstart : ∀ s, pre s → crash s) (hend : ∀ s, pre s → crash (act a s))
    (hpost : ∀ s, pre s → post (act a s)) : Triple act pre (one a) post crash := by
  intro s hs
  refine ⟨hpost s hs, ?_⟩
  rintro t ⟨n, rfl⟩
  cases n with
  | zero => exact hstart s hs
  | succ n => simpa [Script.one, exec] using hend s hs

/-- A cut of a sequence is a cut of its first part or, after that, of its second. -/
theorem Triple.seq (mid : S → Prop) (hp : Triple act pre p mid crash) (hq : Triple act mid q post crash) :
    Triple act pre (seq act p q) post crash := by
  intro s hs
  obtain ⟨hmid, hcut⟩ := hp s hs
  obtain ⟨hpost, hcut'⟩ := hq _ hmid
  refine ⟨by rw [final_seq]; exact hpost, ?_⟩
  rintro t ⟨n, rfl⟩
  by_cases hn : n ≤ (p s).length
  · apply hcut
    exact ⟨n, by rw [Script.seq, List.take_append_of_le_length hn]⟩
  · apply hcut'
    refine ⟨n - (p s).length, ?_⟩
    rw [Script.seq, List.take_append, List.take_of_length_le (by omega), exec_append]
    rfl

theorem Triple.cond {b : S → Bool} (hp : Triple act (fun s => pre s ∧ b s = true) p post crash)
    (hq : Triple act (fun s => pre s ∧ b s = false) q post crash) :
    Triple act pre (cond b p q) post crash := by
  intro s hs
  cases hb : b s with
  | true => simpa only [final, Cut, Script.cond, hb, if_true] using hp s ⟨hs, hb⟩
  | false => simpa only [final, Cut, Script.cond, hb, Bool.false_eq_true, if_false] using hq s ⟨hs, hb⟩

theorem Triple.weaken {pre' post' crash' : S → Prop} (h : Triple act pre p post crash)
    (hpre : ∀ s, pre' s → pre s) (hpost : ∀ s, post s → post' s)
    (hcrash : ∀ s, crash s → crash' s) : Triple act pre' p post' crash' := by
  intro s hs
  obtain ⟨h1, h2⟩ := h s (hpre s hs)
  exact ⟨hpost _ h1, fun t ht => hcrash t (h2 t ht)⟩

theorem Triple.either {pre' : S → Prop} (h : Triple act pre p post crash)
    (h' : Triple act pre' p post crash) :
    Triple act (fun s => pre s ∨ pre' s) p post crash := by
  intro s hs
  rcases hs with hs | hs
  · exact h s hs
  · exact h' s hs

/-- The loop rule: an invariant of the elements already handled. -/
theorem Triple.each {f : S → List B} {g : B → A} (inv : S → List B → S → Prop)
    (hstart : ∀ s, pre s → inv s [] s)
    (hstep : ∀ s, pre s → ∀ done b rest t, f s = done ++ b :: rest → inv s done t →
      inv s (done ++ [b]) (act (g b) t))
    (hpost : ∀ s t, pre s → inv s (f s) t → post t)
    (hcrash : ∀ s t done rest, pre s → f s = done ++ rest → inv s done t → crash t) :
    Triple act pre (each f g) post crash := by
  intro s hs
  have hall : ∀ done rest, f s = done ++ rest → inv s done (exec act (done.map g) s) := by
    intro done
    induction done using List.reverseRecOn with
    | nil => exact fun _ _ => hstart s hs
    | append_singleton done b ih =>
        intro rest hf
        rw [List.append_assoc] at hf
        have hdone := ih ([b] ++ rest) hf
        rw [List.map_append, exec_append]
        exact hstep s hs done b rest _ hf hdone
  refine ⟨hpost s _ hs (hall (f s) [] (by simp)), ?_⟩
  rintro t ⟨n, rfl⟩
  have hsplit := (List.take_append_drop n (f s)).symm
  have hcut := hall _ _ hsplit
  rw [List.map_take] at hcut
  exact hcrash s _ _ _ hs hsplit hcut

end Script
