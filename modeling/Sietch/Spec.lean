import Sietch.StoreSpec

/-! What a store is for: a map from keys to values, changed by puts and deletes. The
index refines it through the newest version of each key. -/
namespace Sietch
open ByteString

/-- The live values of a store. -/
abbrev KeyState := Bytes → Option Bytes

def LogOp.newValue : LogOp → Option Bytes
  | .put _ value => some value
  | .delete _ => none

namespace KeyState

def apply (state : KeyState) (op : LogOp) : KeyState := Function.update state op.key op.newValue

def applyAll (state : KeyState) (ops : List LogOp) : KeyState := ops.foldl apply state

@[simp] theorem applyAll_nil (state : KeyState) : state.applyAll [] = state := rfl

theorem applyAll_append (state : KeyState) (ops more : List LogOp) :
    state.applyAll (ops ++ more) = (state.applyAll ops).applyAll more := by
  simp [applyAll]

theorem applyAll_untouched (state : KeyState) {ops : List LogOp} {key : Bytes}
    (h : ∀ op ∈ ops, op.key ≠ key) : state.applyAll ops key = state key := by
  induction ops generalizing state with
  | nil => rfl
  | cons op ops ih =>
      obtain ⟨hop, hops⟩ := List.forall_mem_cons.mp h
      have hcons : state.applyAll (op :: ops) = (state.apply op).applyAll ops := rfl
      rw [hcons, ih _ hops, apply, Function.update_of_ne hop.symm]

theorem applyAll_last (state : KeyState) (before : List LogOp) (op : LogOp) {after : List LogOp}
    (h : ∀ o ∈ after, o.key ≠ op.key) :
    state.applyAll (before ++ op :: after) op.key = op.newValue := by
  have hcons : state.applyAll (before ++ op :: after) =
      ((state.applyAll before).apply op).applyAll after := by
    rw [applyAll_append]
    rfl
  rw [hcons, applyAll_untouched _ h, apply, Function.update_self]

/-- A key is not written by the operations, or one of them is the last to write it. -/
theorem exists_last_write (ops : List LogOp) (key : Bytes) :
    (∀ op ∈ ops, op.key ≠ key) ∨ ∃ before op after, ops = before ++ op :: after ∧ op.key = key ∧
      ∀ o ∈ after, o.key ≠ key := by
  induction ops with
  | nil => exact .inl (by simp)
  | cons op ops ih =>
      rcases ih with h | ⟨before, last, after, rfl, hkey, hafter⟩
      · by_cases hop : op.key = key
        · exact .inr ⟨[], op, ops, rfl, hop, h⟩
        · exact .inl (List.forall_mem_cons.mpr ⟨hop, h⟩)
      · exact .inr ⟨op :: before, last, after, rfl, hkey, hafter⟩

/-- Every last write of a key repeats the value that the key has. -/
def Repeats (state : KeyState) (ops : List LogOp) : Prop :=
  ∀ before op after, ops = before ++ op :: after → (∀ o ∈ after, o.key ≠ op.key) →
    op.newValue = state op.key

theorem applyAll_eq_self_iff (state : KeyState) (ops : List LogOp) :
    state.applyAll ops = state ↔ state.Repeats ops := by
  constructor
  · rintro h before op after rfl hafter
    rw [← applyAll_last state before op hafter, h]
  · intro h
    funext key
    rcases exists_last_write ops key with hnone | ⟨before, op, after, rfl, rfl, hafter⟩
    · exact applyAll_untouched state hnone
    · rw [applyAll_last state before op hafter, h before op after rfl hafter]

end KeyState

/-- The live values that an index gives. -/
def Index.live (index : Index) : KeyState :=
  fun key => (index.versions key).getLast?.bind VersionEntry.value

theorem Store.get_live (s : Store) : s.get = s.index.live := by
  funext key
  exact s.get_eq key

theorem LogOp.record_version (seq : Nat) (op : LogOp) :
    (op.record seq).version = ⟨seq, op.newValue⟩ := by
  cases op <;> rfl

theorem Index.live_push (index : Index) (seq : Nat) (op : LogOp) :
    (index.push op.key ⟨seq, op.newValue⟩).live = index.live.apply op := by
  funext key
  rw [live, versions_push, KeyState.apply, Function.update_apply]
  split
  · simp
  · rfl

/-- Pushing the records of a batch applies its operations. -/
theorem Index.live_pushAll (index : Index) (seq : Nat) (ops : List LogOp) :
    (index.pushAll (Log.numberRecords seq ops)).live = index.live.applyAll ops := by
  induction ops generalizing index seq with
  | nil => rfl
  | cons op ops ih =>
      have hcons : index.pushAll (Log.numberRecords seq (op :: ops)) =
          (index.push (op.record seq).key (op.record seq).version).pushAll
            (Log.numberRecords (seq + 1) ops) := rfl
      rw [hcons, ih, Log.record_key, op.record_version, live_push]
      rfl

theorem Store.Wrote.live {ops : List LogOp} {dir dir' : StoreDir} {s s' : Store}
    (h : Store.Wrote ops dir s dir' s') : s'.get = KeyState.applyAll s.get ops := by
  rw [Store.get_live, Store.get_live, h.index, Index.live_pushAll]

theorem Index.replay_append (rs ss : List Record) :
    Index.replay (rs ++ ss) = (Index.replay rs).pushAll ss := by
  simp [replay, pushAll]

end Sietch
