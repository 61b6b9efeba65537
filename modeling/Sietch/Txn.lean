import Sietch.Base.Isolation
import Sietch.Snapshots
import Sietch.Spec

/-! Transactions over a shared store: reads through a held snapshot, writes buffered in
key order, and a commit that fails on the first key written since the snapshot. -/
namespace Sietch
open ByteString Isolation

inductive TxnError where
  | conflict (key : Bytes)
  | store (e : StoreError)
  deriving DecidableEq, Repr

/-- A buffered delete has no value. -/
structure Transaction where
  snapshot : Snapshot
  writes : SortedMap Bytes (Option Bytes)
  deriving DecidableEq

def TransactionalStore.begin (s : Store) : Transaction × Store :=
  let (snapshot, s) := s.holdSnapshot
  (⟨snapshot, SortedMap.empty⟩, s)

namespace Transaction

def get (t : Transaction) (s : Store) (key : Bytes) : Option Bytes :=
  match t.writes.get? key with
  | some buffered => buffered
  | none => s.getAt key t.snapshot

def put (t : Transaction) (key value : Bytes) : Transaction :=
  { t with writes := t.writes.insert key (some value) }

def delete (t : Transaction) (key : Bytes) : Transaction :=
  { t with writes := t.writes.insert key none }

/-- The newest version of the key is not below the snapshot. -/
def overwritten (t : Transaction) (s : Store) (key : Bytes) : Bool :=
  (s.latestSeq key).any (fun latest => decide (t.snapshot.asOfSeq ≤ latest))

/-- The key at which the loop of `commit` returns. -/
def conflict? (t : Transaction) (s : Store) : Option Bytes := t.writes.keys.find? (t.overwritten s)

def writeOp : Bytes × Option Bytes → LogOp
  | (key, some value) => .put key value
  | (key, none) => .delete key

def ops (t : Transaction) : List LogOp := t.writes.entries.map writeOp

/-- `commit`. The guard is dropped with the transaction on every path. -/
def commit (crc32 : Checksum) (io : Io) (dir : StoreDir) (s : Store) (t : Transaction) :
    Outcome TxnError Unit × Store × StoreDir :=
  if t.writes.entries = [] then (.ok (), s.dropGuard t.snapshot, dir)
  else
    match t.conflict? s with
    | some key => (.err (.conflict key), s.dropGuard t.snapshot, dir)
    | none =>
        match s.applyBatch crc32 io dir t.ops with
        | (.ok (), s, dir) => (.ok (), s.dropGuard t.snapshot, dir)
        | (.err e, s, dir) => (.err (.store e), s.dropGuard t.snapshot, dir)
        | (.panic, s, dir) => (.panic, s.dropGuard t.snapshot, dir)

def abort (t : Transaction) (s : Store) : Store := s.dropGuard t.snapshot

@[simp] theorem writeOp_key (e : Bytes × Option Bytes) : (writeOp e).key = e.1 := by
  obtain ⟨key, value⟩ := e
  cases value <;> rfl

@[simp] theorem writeOp_newValue (e : Bytes × Option Bytes) : (writeOp e).newValue = e.2 := by
  obtain ⟨key, value⟩ := e
  cases value <;> rfl

theorem applyAll_entries {es : List (Bytes × Option Bytes)} (h : SortedMap.Ascending es)
    (state : KeyState) :
    state.applyAll (es.map writeOp) = overlay (fun key => SortedMap.lookup key es) state := by
  induction es generalizing state with
  | nil => rfl
  | cons e es ih =>
      have hcons : state.applyAll ((e :: es).map writeOp) =
          (state.apply (writeOp e)).applyAll (es.map writeOp) := rfl
      rw [hcons, ih h.tail]
      funext key
      simp only [overlay, KeyState.apply, writeOp_key, writeOp_newValue, SortedMap.lookup]
      by_cases hkey : key = e.1
      · have hnone : SortedMap.lookup key es = none := by
          rw [SortedMap.lookup_eq_none]
          intro e' he'
          rw [hkey]
          exact (h.head_lt he').ne'
        rw [hnone, if_pos hkey, hkey]
        exact Function.update_self e.1 e.2 state
      · rw [if_neg hkey, Function.update_of_ne hkey]

/-- A commit applies the buffered writes. -/
theorem applyAll_ops (t : Transaction) (state : KeyState) :
    state.applyAll t.ops = overlay t.writes.get? state := applyAll_entries t.writes.ascending state

theorem mem_ops_key {t : Transaction} {key : Bytes} :
    (∃ op ∈ t.ops, op.key = key) ↔ (t.writes.get? key).isSome := by
  rw [Option.isSome_iff_exists]
  constructor
  · rintro ⟨op, hop, rfl⟩
    obtain ⟨e, he, rfl⟩ := List.mem_map.mp hop
    exact ⟨e.2, by rw [writeOp_key]; exact SortedMap.mem_entries.mp he⟩
  · rintro ⟨value, hvalue⟩
    exact ⟨writeOp (key, value), List.mem_map_of_mem (SortedMap.mem_entries.mpr hvalue),
      writeOp_key _⟩

theorem conflict?_none {t : Transaction} {s : Store} (h : t.conflict? s = none) {key : Bytes}
    (hkey : (t.writes.get? key).isSome) : t.overwritten s key = false := by
  have hmem : key ∈ t.writes.keys := SortedMap.mem_keys.mpr (Option.isSome_iff_exists.mp hkey)
  simpa using List.find?_eq_none.mp h key hmem

/-- The reported key is the least one in conflict. -/
theorem conflict?_some {t : Transaction} {s : Store} {key : Bytes}
    (h : t.conflict? s = some key) : (t.writes.get? key).isSome ∧ t.overwritten s key = true ∧
      ∀ other < key, (t.writes.get? other).isSome → t.overwritten s other = false := by
  obtain ⟨hkey, before, after, hkeys, hbefore⟩ := List.find?_eq_some_iff_append.mp h
  have hmem : key ∈ t.writes.keys := by rw [hkeys]; simp
  refine ⟨Option.isSome_iff_exists.mpr (SortedMap.mem_keys.mp hmem), hkey, ?_⟩
  intro other hlt hother
  have hmem' : other ∈ t.writes.keys := SortedMap.mem_keys.mpr (Option.isSome_iff_exists.mp hother)
  have hasc := t.writes.keys_pairwise
  rw [hkeys] at hmem' hasc
  rcases List.mem_append.mp hmem' with hb | hb
  · simpa using hbefore other hb
  · have hle : key ≤ other := by
      rcases List.mem_cons.mp hb with rfl | hb
      · exact le_rfl
      · exact (List.rel_of_pairwise_cons (List.pairwise_append.mp hasc).2.1 hb).le
    exact absurd hlt (not_lt.mpr hle)

/-- The buffered writes can be recorded. -/
def Fits (t : Transaction) : Prop := ∀ op ∈ t.ops, op.Fits

theorem Fits.insert {t : Transaction} (h : t.Fits) {key : Bytes} {value : Option Bytes}
    (hnew : (writeOp (key, value)).Fits) :
    Fits { t with writes := t.writes.insert key value } := by
  intro op hop
  obtain ⟨e, he, rfl⟩ := List.mem_map.mp hop
  rcases SortedMap.mem_insertEntry he with rfl | he
  · exact hnew
  · exact h _ (List.mem_map_of_mem he)

section Commit
variable {crc32 : Checksum} {dir dir' : StoreDir} {s s' : Store} {t : Transaction}

/-- An acknowledged commit: no key is in conflict, and the writes, if there are any,
went in as one batch before the guard was dropped. -/
theorem commit_ok (h : t.commit crc32 .done dir s = (.ok (), s', dir')) :
    t.conflict? s = none ∧ ∃ s₁, s' = s₁.dropGuard t.snapshot ∧
      (t.ops = [] ∧ s₁ = s ∧ dir' = dir ∨
        s.write crc32 .done dir (.batch t.ops) = (.ok (), s₁, dir')) := by
  unfold commit at h
  split at h
  · rename_i hempty
    cases h
    refine ⟨?_, s, rfl, .inl ⟨?_, rfl, rfl⟩⟩
    · rw [conflict?, SortedMap.keys, hempty]
      rfl
    · rw [ops, hempty]
      rfl
  · split at h
    · cases h
    · rename_i hnone
      split at h
      · rename_i s₁ dir₁ hb
        cases h
        exact ⟨hnone, s₁, rfl, .inr hb⟩
      · cases h
      · cases h

theorem commit_conflict {key : Bytes}
    (h : t.commit crc32 .done dir s = (.err (.conflict key), s', dir')) :
    t.conflict? s = some key ∧ s' = s.dropGuard t.snapshot ∧ dir' = dir := by
  unfold commit at h
  split at h
  · cases h
  · split at h
    · rename_i hkey
      cases h
      exact ⟨hkey, rfl, rfl⟩
    · split at h
      · cases h
      · cases h
      · cases h

/-- What a commit does to the index and to the counter. -/
theorem commit_index (h : t.commit crc32 .done dir s = (.ok (), s', dir')) :
    s'.index = s.index.pushAll (Log.numberRecords s.log.nextSeq t.ops) ∧
      s'.log.nextSeq = s.log.nextSeq + t.ops.length := by
  obtain ⟨-, s₁, rfl, hcase⟩ := commit_ok h
  obtain ⟨hindex, hlog⟩ := dropGuard_index s₁ t.snapshot
  rw [hindex, hlog]
  rcases hcase with ⟨hops, rfl, -⟩ | hw
  · rw [hops]
    exact ⟨rfl, rfl⟩
  · have hwrote := (Store.write_append hw).2
    exact ⟨hwrote.index, hwrote.nextSeq⟩

/-- A transaction without a conflict commits, and one with a conflict is told so. -/
theorem commit_answers (crc32 : Checksum) (dir : StoreDir) {s : Store}
    {t : Transaction} (hroom : t.conflict? s = none → s.log.nextSeq + t.ops.length < 2 ^ 64) :
    ∃ s' dir', t.commit crc32 .done dir s = (.ok (), s', dir') ∨
      ∃ key, t.commit crc32 .done dir s = (.err (.conflict key), s', dir') := by
  unfold commit
  split
  · exact ⟨_, _, .inl rfl⟩
  · cases hconflict : t.conflict? s with
    | some key => exact ⟨_, _, .inr ⟨key, rfl⟩⟩
    | none =>
        obtain ⟨log', dir', happend⟩ :=
          Log.appendBatch_room (hroom hconflict) crc32 dir.main
        simp only [Store.applyBatch, happend]
        exact ⟨_, _, .inl rfl⟩

end Commit

end Transaction
end Sietch
