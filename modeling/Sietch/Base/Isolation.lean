import Sietch.Base.Run

/-! Snapshot isolation, first committer wins. A ledger keeps the transactions committed
so far, in commit order, and for every open transaction how many were committed when it
began and what it has written since. -/
namespace Isolation
open Transition
variable {I K V : Type}

/-- Buffered writes; `some none` is a delete. -/
abbrev Writes (K V : Type) := K → Option (Option V)

structure Txn (K V : Type) where
  began : Nat
  writes : Writes K V

structure Ledger (I K V : Type) where
  committed : List (Txn K V)
  active : I → Option (Txn K V)

def Ledger.empty : Ledger I K V := ⟨[], fun _ => none⟩

def overlay (writes : Writes K V) (state : K → Option V) : K → Option V :=
  fun k => (writes k).getD (state k)

/-- The fold of the write sets in commit order. -/
def stateAfter (txns : List (Txn K V)) : K → Option V :=
  txns.foldl (fun state t => overlay t.writes state) (fun _ => none)

namespace Txn

/-- What the transaction reads: its own last write, or else the value that the
transactions committed before its begin have left. -/
def view (t : Txn K V) (committed : List (Txn K V)) : K → Option V :=
  overlay t.writes (stateAfter (committed.take t.began))

/-- The key was committed by another transaction since this one began. -/
def Overwritten (t : Txn K V) (committed : List (Txn K V)) (k : K) : Prop :=
  ∃ c ∈ committed.drop t.began, (c.writes k).isSome

def Conflict (t : Txn K V) (committed : List (Txn K V)) (k : K) : Prop :=
  (t.writes k).isSome ∧ t.Overwritten committed k

end Txn

inductive Event (I K V : Type) where
  | begin (id : I)
  | get (id : I) (k : K)
  | put (id : I) (k : K) (v : V)
  | delete (id : I) (k : K)
  | commit (id : I)
  | abort (id : I)
  deriving DecidableEq, Repr

inductive Reply (K V : Type) where
  | done
  | value (v : Option V)
  | conflict (k : K)
  deriving DecidableEq, Repr

section State

@[simp] theorem stateAfter_nil : stateAfter ([] : List (Txn K V)) = fun _ => none := rfl

theorem stateAfter_append (ts us : List (Txn K V)) :
    stateAfter (ts ++ us) = us.foldl (fun state t => overlay t.writes state) (stateAfter ts) :=
  List.foldl_append

theorem stateAfter_snoc (ts : List (Txn K V)) (t : Txn K V) :
    stateAfter (ts ++ [t]) = overlay t.writes (stateAfter ts) := stateAfter_append ts [t]

theorem foldl_overlay_untouched {ts : List (Txn K V)} {k : K} (state : K → Option V)
    (h : ∀ t ∈ ts, ¬ (t.writes k).isSome) :
    ts.foldl (fun state t => overlay t.writes state) state k = state k := by
  induction ts generalizing state with
  | nil => rfl
  | cons t ts ih =>
      obtain ⟨ht, hts⟩ := List.forall_mem_cons.mp h
      rw [List.foldl_cons, ih _ hts, overlay, Option.not_isSome_iff_eq_none.mp ht]
      rfl

/-- The ledger of a store that holds a state already, as if one transaction had written it. -/
def Ledger.holding (state : K → Option V) : Ledger I K V :=
  ⟨[⟨0, fun k => (state k).map some⟩], fun _ => none⟩

theorem stateAfter_holding (state : K → Option V) :
    stateAfter (Ledger.holding state : Ledger I K V).committed = state := by
  funext k
  show ((state k).map some).getD none = state k
  cases state k with
  | none => rfl
  | some v => rfl

/-- A key that nobody has committed since the begin still has the value of the begin. -/
theorem stateAfter_take {t : Txn K V} {committed : List (Txn K V)} {k : K}
    (h : ¬ t.Overwritten committed k) :
    stateAfter committed k = stateAfter (committed.take t.began) k := by
  have hsplit := stateAfter_append (committed.take t.began) (committed.drop t.began)
  rw [List.take_append_drop] at hsplit
  rw [hsplit, foldl_overlay_untouched]
  intro c hc hw
  exact h ⟨c, hc, hw⟩

end State

namespace Ledger

/-- The answers that snapshot isolation allows. A commit fails at its least key in
conflict. -/
def Permits [LT K] (L : Ledger I K V) : Event I K V × Reply K V → Prop
  | (.begin id, .done) => L.active id = none
  | (.get id k, .value v) => ∃ t, L.active id = some t ∧ v = t.view L.committed k
  | (.put id _ _, .done) => ∃ t, L.active id = some t
  | (.delete id _, .done) => ∃ t, L.active id = some t
  | (.commit id, .done) => ∃ t, L.active id = some t ∧ ∀ k, ¬ t.Conflict L.committed k
  | (.commit id, .conflict k) => ∃ t, L.active id = some t ∧ t.Conflict L.committed k ∧
      ∀ j, j < k → ¬ t.Conflict L.committed j
  | (.abort id, .done) => ∃ t, L.active id = some t
  | _ => False

/-- Snapshot isolation leaves the answer to an event no choice. -/
theorem Permits.unique [LinearOrder K] {L : Ledger I K V} {e : Event I K V} {r r' : Reply K V}
    (h : L.Permits (e, r)) (h' : L.Permits (e, r')) : r = r' := by
  cases e with
  | get id k =>
      cases r with
      | value v =>
          cases r' with
          | value v' =>
              obtain ⟨t, ht, rfl⟩ := h
              obtain ⟨t', ht', rfl⟩ := h'
              rw [ht] at ht'
              cases ht'
              rfl
          | _ => cases h'
      | _ => cases h
  | commit id =>
      cases r with
      | done =>
          cases r' with
          | done => rfl
          | conflict k =>
              obtain ⟨t, ht, hnone⟩ := h
              obtain ⟨t', ht', hk, -⟩ := h'
              rw [ht] at ht'
              cases ht'
              exact absurd hk (hnone k)
          | value v => cases h'
      | conflict k =>
          obtain ⟨t, ht, hk, hleast⟩ := h
          cases r' with
          | done =>
              obtain ⟨t', ht', hnone⟩ := h'
              rw [ht] at ht'
              cases ht'
              exact absurd hk (hnone k)
          | conflict k' =>
              obtain ⟨t', ht', hk', hleast'⟩ := h'
              rw [ht] at ht'
              cases ht'
              have hle : k' ≤ k := not_lt.mp (fun hlt => hleast' k hlt hk)
              have hge : k ≤ k' := not_lt.mp (fun hlt => hleast k' hlt hk')
              rw [le_antisymm hge hle]
          | value v => cases h'
      | value v => cases h
  | _ =>
      cases r with
      | done =>
          cases r' with
          | done => rfl
          | _ => cases h'
      | _ => cases h

variable [DecidableEq I] [DecidableEq K]

def write (L : Ledger I K V) (id : I) (k : K) (v : Option V) : Ledger I K V :=
  { L with active := Function.update L.active id ((L.active id).map (fun t =>
    { t with writes := Function.update t.writes k (some v) })) }

def start (L : Ledger I K V) (id : I) : Ledger I K V :=
  { L with active := Function.update L.active id (some ⟨L.committed.length, fun _ => none⟩) }

def close (L : Ledger I K V) (id : I) : Ledger I K V :=
  { L with active := Function.update L.active id none }

/-- The ledger after an event that was answered so. -/
def note (L : Ledger I K V) : Event I K V × Reply K V → Ledger I K V
  | (.begin id, _) => L.start id
  | (.get _ _, _) => L
  | (.put id k v, _) => L.write id k (some v)
  | (.delete id k, _) => L.write id k none
  | (.commit id, .done) => ⟨L.committed ++ (L.active id).toList, (L.close id).active⟩
  | (.commit id, _) => L.close id
  | (.abort id, _) => L.close id

def Step [LT K] (L : Ledger I K V) (e : Event I K V × Reply K V) (L' : Ledger I K V) : Prop :=
  L.Permits e ∧ L' = L.note e

variable {L L' : Ledger I K V}

/-- A run only follows the ledger's bookkeeping. -/
theorem Step.run_note [LT K] {hist : List (Event I K V × Reply K V)}
    (h : Run Step L hist L') : L' = hist.foldl note L := by
  induction h with
  | nil => rfl
  | snoc _ hs ih =>
      rw [List.foldl_append, ← ih]
      exact hs.2

/-- Runs from one ledger on the same events get the same answers. -/
theorem Step.run_unique [LinearOrder K] {hist hist' : List (Event I K V × Reply K V)}
    {M M' : Ledger I K V} (h : Run Step L hist M) (h' : Run Step L hist' M')
    (he : hist.map Prod.fst = hist'.map Prod.fst) : hist = hist' := by
  induction h generalizing hist' M' with
  | nil => exact (List.map_eq_nil_iff.mp he.symm).symm
  | @snoc hist M₁ M₂ e hrun hs ih =>
      cases h' with
      | nil => simp at he
      | @snoc hist₁ N₁ N₂ e' hrun' hs' =>
          rw [List.map_append, List.map_append] at he
          obtain ⟨hmap, hlast⟩ := List.append_inj' he rfl
          have hsame := ih hrun' hmap
          subst hsame
          have hstate : M₁ = N₁ := (Step.run_note hrun).trans (Step.run_note hrun').symm
          subst hstate
          obtain ⟨e, r⟩ := e
          obtain ⟨e', r'⟩ := e'
          have hevent : e = e' := by simpa using hlast
          subst hevent
          rw [hs.1.unique hs'.1]

theorem Step.committed [LT K] {e : Event I K V × Reply K V} (hs : Step L e L') :
    L.committed <+: L'.committed := by
  obtain ⟨-, rfl⟩ := hs
  obtain ⟨e, r⟩ := e
  cases e with
  | commit id =>
      cases r with
      | done => exact List.prefix_append _ _
      | value v => exact List.prefix_rfl
      | conflict k => exact List.prefix_rfl
  | _ => exact List.prefix_rfl

/-- No open transaction began in the future, and a committed one began after every
earlier one that wrote a common key. -/
structure Ordered (L : Ledger I K V) : Prop where
  began : ∀ id t, L.active id = some t → t.began ≤ L.committed.length
  disjoint : ∀ (i j : Nat) (t u : Txn K V) (k : K), i < j → L.committed[i]? = some t →
    L.committed[j]? = some u → (t.writes k).isSome → (u.writes k).isSome → i < u.began

omit [DecidableEq I] [DecidableEq K] in
/-- A transaction without a conflict may be committed. -/
theorem Ordered.disjoint_snoc (h : L.Ordered) {t : Txn K V}
    (hnone : ∀ k, ¬ t.Conflict L.committed k) (i j : Nat) (u v : Txn K V) (k : K) (hij : i < j)
    (hi : (L.committed ++ [t])[i]? = some u) (hj : (L.committed ++ [t])[j]? = some v)
    (hu : (u.writes k).isSome) (hv : (v.writes k).isSome) : i < v.began := by
  have hjlt : j < (L.committed ++ [t]).length := (List.getElem?_eq_some_iff.mp hj).1
  rw [List.length_append, List.length_singleton] at hjlt
  have hilt : i < L.committed.length := by omega
  rw [List.getElem?_append_left hilt] at hi
  by_cases hlast : j < L.committed.length
  · rw [List.getElem?_append_left hlast] at hj
    exact h.disjoint i j u v k hij hi hj hu hv
  · have hjeq : j = L.committed.length := by omega
    rw [hjeq, List.getElem?_concat_length] at hj
    cases hj
    -- The earlier writer is not among those committed since the begin.
    by_contra hge
    refine hnone k ⟨hv, u, ?_, hu⟩
    rw [List.mem_iff_getElem?]
    refine ⟨i - t.began, ?_⟩
    rw [List.getElem?_drop, Nat.add_sub_cancel' (not_lt.mp hge)]
    exact hi

omit [DecidableEq K] in
theorem active_update {id : I} {o : Option (Txn K V)} {P : Txn K V → Prop}
    (h : ∀ id t, L.active id = some t → P t) (ho : ∀ t, o = some t → P t) :
    ∀ id' t, Function.update L.active id o id' = some t → P t := by
  intro id' t ht
  rw [Function.update_apply] at ht
  split at ht
  · exact ho t ht
  · exact h id' t ht

theorem Ordered.write (h : L.Ordered) (id : I) (k : K) (v : Option V) :
    (L.write id k v).Ordered := by
  refine ⟨active_update h.began ?_, h.disjoint⟩
  intro t ht
  obtain ⟨u, hu, rfl⟩ := Option.map_eq_some_iff.mp ht
  exact h.began id u hu

omit [DecidableEq K] in
theorem Ordered.close (h : L.Ordered) (id : I) : (L.close id).Ordered := by
  refine ⟨active_update h.began ?_, h.disjoint⟩
  intro t ht
  cases ht

theorem Ordered.step [LT K] {e : Event I K V × Reply K V} (h : L.Ordered) (hs : Step L e L') :
    L'.Ordered := by
  obtain ⟨hp, rfl⟩ := hs
  obtain ⟨e, r⟩ := e
  cases e with
  | begin id =>
      refine ⟨active_update h.began ?_, h.disjoint⟩
      intro t ht
      cases ht
      exact le_rfl
  | get id k => exact h
  | put id k v => exact h.write id k (some v)
  | delete id k => exact h.write id k none
  | commit id =>
      cases r with
      | done =>
          obtain ⟨t, ht, hnone⟩ := hp
          have hcommitted : (L.note (.commit id, .done)).committed = L.committed ++ [t] := by
            simp only [note, ht, Option.toList_some]
          refine ⟨?_, ?_⟩
          · rw [hcommitted, List.length_append]
            intro id' u hu
            exact ((h.close id).began id' u hu).trans (Nat.le_add_right _ _)
          · rw [hcommitted]
            exact h.disjoint_snoc hnone
      | value v => exact h.close id
      | conflict k => exact h.close id
  | abort id => exact h.close id

theorem ordered_run [LT K] {hist : List (Event I K V × Reply K V)}
    (h : Run Step Ledger.empty hist L) : L.Ordered := by
  refine h.invariant ⟨?_, ?_⟩ (fun _ _ _ hi hs => hi.step hs)
  · intro id t ht
    cases ht
  · intro i j t u k _ hi
    cases hi

/-- Clients of a counter: each transaction writes the counter once, with the increment of
the value it sees, and commits. -/
def Increments (counter : K) (inc : Option V → V) (L : Ledger I K V) :
    Event I K V × Reply K V → Prop
  | (.put id k v, _) => k = counter ∧ ∀ t, L.active id = some t →
      t.writes counter = none ∧ v = inc (t.view L.committed counter)
  | (.delete _ _, _) => False
  | (.commit id, _) => ∀ t, L.active id = some t → (t.writes counter).isSome
  | _ => True

/-- A commit that succeeded. -/
def commits : Event I K V × Reply K V → Bool
  | (.commit _, .done) => true
  | _ => false

/-- What the open transactions have written to the counter. -/
structure Counting (counter : K) (inc : Option V → V) (L : Ledger I K V) : Prop where
  began : ∀ id t, L.active id = some t → t.began ≤ L.committed.length
  writes : ∀ id t, L.active id = some t → t.writes counter = none ∨
    t.writes counter = some (some (inc (stateAfter (L.committed.take t.began) counter)))

section Counter
variable {counter : K} {inc : Option V → V}

omit [DecidableEq K] in
theorem Counting.close (h : L.Counting counter inc) (id : I) :
    (L.close id).Counting counter inc := by
  refine ⟨active_update h.began ?_, active_update h.writes ?_⟩
  · intro t ht
    cases ht
  · intro t ht
    cases ht

omit [DecidableEq K] in
theorem Counting.start (h : L.Counting counter inc) (id : I) :
    (L.start id).Counting counter inc := by
  refine ⟨active_update h.began ?_, active_update h.writes ?_⟩
  · intro t ht
    cases ht
    exact le_rfl
  · intro t ht
    cases ht
    exact .inl rfl

theorem Counting.put (h : L.Counting counter inc) {id : I} {t : Txn K V}
    (ht : L.active id = some t) (hnew : t.writes counter = none) :
    (L.write id counter (some (inc (t.view L.committed counter)))).Counting counter inc := by
  refine ⟨active_update h.began ?_, active_update h.writes ?_⟩
  · intro u hu
    obtain ⟨v, hv, rfl⟩ := Option.map_eq_some_iff.mp hu
    exact h.began id v hv
  · intro u hu
    rw [ht] at hu
    cases hu
    have hview : t.view L.committed counter = stateAfter (L.committed.take t.began) counter := by
      rw [Txn.view, overlay, hnew]
      rfl
    exact .inr ((Function.update_self counter _ t.writes).trans
      (congrArg (fun v => some (some (inc v))) hview))

omit [DecidableEq K] in
/-- A commit raises the counter by one increment: the value that the transaction saw is
still the current one. -/
theorem Counting.commit (h : L.Counting counter inc) {id : I} {t : Txn K V}
    (ht : L.active id = some t) (hw : (t.writes counter).isSome)
    (hnone : ∀ k, ¬ t.Conflict L.committed k) :
    stateAfter (L.committed ++ [t]) counter = some (inc (stateAfter L.committed counter)) ∧
      Counting counter inc ⟨L.committed ++ [t], (L.close id).active⟩ := by
  constructor
  · have hcurrent := stateAfter_take (fun ho => hnone counter ⟨hw, ho⟩)
    rcases h.writes id t ht with hwrite | hwrite
    · rw [hwrite] at hw
      cases hw
    · rw [stateAfter_snoc, overlay, hwrite, hcurrent]
      rfl
  · constructor
    · intro id' u hu
      rw [List.length_append]
      exact ((h.close id).began id' u hu).trans (Nat.le_add_right _ _)
    · intro id' u hu
      have htake : (L.committed ++ [t]).take u.began = L.committed.take u.began :=
        List.take_append_of_le_length ((h.close id).began id' u hu)
      simp only [htake]
      exact (h.close id).writes id' u hu

theorem Counting.step [LT K] {e : Event I K V × Reply K V} {count : Option V → Nat}
    (hinc : ∀ v, count (some (inc v)) = count v + 1) (h : L.Counting counter inc)
    (hc : L.Increments counter inc e) (hs : Step L e L') :
    L'.Counting counter inc ∧ count (stateAfter L'.committed counter) =
      count (stateAfter L.committed counter) + [e].countP commits := by
  obtain ⟨hp, rfl⟩ := hs
  obtain ⟨e, r⟩ := e
  cases e with
  | begin id => exact ⟨h.start id, rfl⟩
  | get id k => exact ⟨h, rfl⟩
  | put id k v =>
      cases r with
      | done =>
          obtain ⟨t, ht⟩ := hp
          obtain ⟨rfl, hput⟩ := hc
          obtain ⟨hnew, rfl⟩ := hput t ht
          exact ⟨h.put ht hnew, rfl⟩
      | value v => exact hp.elim
      | conflict k => exact hp.elim
  | delete id k => exact hc.elim
  | commit id =>
      cases r with
      | done =>
          obtain ⟨t, ht, hnone⟩ := hp
          obtain ⟨hvalue, hcounting⟩ := h.commit ht (hc t ht) hnone
          have hnote : L.note (.commit id, .done) =
              ⟨L.committed ++ [t], (L.close id).active⟩ := by
            simp only [note, ht, Option.toList_some]
          rw [hnote]
          refine ⟨hcounting, ?_⟩
          rw [hvalue, hinc]
          rfl
      | value v => exact ⟨h.close id, rfl⟩
      | conflict k => exact ⟨h.close id, rfl⟩
  | abort id => exact ⟨h.close id, rfl⟩

/-- No increment is lost: the counter grows by the number of successful commits. -/
theorem increments_counted [LT K] {count : Option V → Nat}
    (hinc : ∀ v, count (some (inc v)) = count v + 1) {hist : List (Event I K V × Reply K V)}
    (hidle : ∀ id, L.active id = none) (h : Run (Under (Increments counter inc) Step) L hist L') :
    count (stateAfter L'.committed counter) =
      count (stateAfter L.committed counter) + hist.countP commits := by
  have hstart : L.Counting counter inc := by
    constructor
    · intro id t ht
      rw [hidle] at ht
      cases ht
    · intro id t ht
      rw [hidle] at ht
      cases ht
  have hcounting : L'.Counting counter inc ∧ count (stateAfter L'.committed counter) =
      count (stateAfter L.committed counter) + hist.countP commits := by
    refine h.invariant_history (I := fun hist L' => L'.Counting counter inc ∧
      count (stateAfter L'.committed counter) =
        count (stateAfter L.committed counter) + hist.countP commits) ⟨hstart, rfl⟩ ?_
    intro hist M e M' hM hs
    obtain ⟨hcounting, hcount⟩ := hM.1.step hinc hs.1 hs.2
    refine ⟨hcounting, ?_⟩
    rw [hcount, hM.2, List.countP_append, Nat.add_assoc]
  exact hcounting.2

end Counter

end Ledger

end Isolation
