import Sietch.Base.Serial
import Sietch.TxnRuns

/-! Transactions that write what they read are serializable: the store gives the same answers,
and ends in the same state, when the committed transactions run one after another. -/
namespace Sietch
open ByteString Isolation Transition

noncomputable def keysWritten (committed : List (Txn Bytes Bytes)) : Nat :=
  (committed.map (fun t => Set.ncard {key | (t.writes key).isSome})).sum

theorem keysWritten_snoc (committed : List (Txn Bytes Bytes)) (t : Txn Bytes Bytes) :
    keysWritten (committed ++ [t]) =
      keysWritten committed + Set.ncard {key | (t.writes key).isSome} := by
  simp [keysWritten]

theorem keysWritten_prefix {ts us : List (Txn Bytes Bytes)} (h : ts <+: us) :
    keysWritten ts ≤ keysWritten us := by
  obtain ⟨more, rfl⟩ := h
  simp [keysWritten]

theorem keysWritten_congr {ts us : List (Txn Bytes Bytes)}
    (h : ts.map Txn.writes = us.map Txn.writes) : keysWritten ts = keysWritten us := by
  have hmap : ∀ ts : List (Txn Bytes Bytes), keysWritten ts =
      ((ts.map Txn.writes).map (fun writes => Set.ncard {key | (writes key).isSome})).sum := by
    intro ts
    rw [List.map_map]
    rfl
  rw [hmap, hmap, h]

theorem Transaction.length_ops (t : Transaction) :
    t.ops.length = Set.ncard {key | (t.writes.get? key).isSome} := by
  have hkeys : {key | (t.writes.get? key).isSome} = (t.writes.keys.toFinset : Set Bytes) := by
    ext key
    rw [Set.mem_ofPred_eq, Option.isSome_iff_exists, ← SortedMap.mem_keys]
    simp
  have hnodup : t.writes.keys.Nodup := t.writes.keys_pairwise.imp (fun h => h.ne)
  rw [hkeys, Set.ncard_coe_finset, List.toFinset_card_of_nodup hnodup]
  simp [ops, SortedMap.keys]

theorem Transaction.commit_room {crc32 : Checksum} {dir dir' : StoreDir} {s s' : Store}
    {t : Transaction} (h : t.commit crc32 .done dir s = (.ok (), s', dir'))
    (hroom : s.log.nextSeq < 2 ^ 64) : s'.log.nextSeq < 2 ^ 64 := by
  rw [(commit_index h).2]
  obtain ⟨-, s₁, rfl, ⟨hops, -, -⟩ | hw⟩ := commit_ok h
  · rw [hops]
    exact hroom
  · exact (Store.write_append hw).2.bound

/-- The counter moves by a commit only, and then by the number of keys written. -/
theorem TxnWorld.CallStep.counter {crc32 : Checksum} {w w' : TxnWorld} {e : TxnCall}
    {r : TxnReply} (hs : w.CallStep crc32 (e, r) w') :
    (∃ id t, e = .commit id ∧ r = .done ∧ w.txns.get? id = some t ∧
        w'.store.log.nextSeq = w.store.log.nextSeq + t.ops.length ∧
        (w.store.log.nextSeq < 2 ^ 64 → w'.store.log.nextSeq < 2 ^ 64)) ∨
      ((∀ id, e = .commit id → r ≠ .done) ∧ w'.store.log.nextSeq = w.store.log.nextSeq) := by
  cases hs.effect with
  | began => exact .inr ⟨by simp, rfl⟩
  | read => exact .inr ⟨by simp, rfl⟩
  | buffered key value =>
      cases value with
      | some value => exact .inr ⟨by simp [writeCall], rfl⟩
      | none => exact .inr ⟨by simp [writeCall], rfl⟩
  | committed ht hc =>
      exact .inl ⟨_, _, rfl, rfl, ht, (Transaction.commit_index hc).2, Transaction.commit_room hc⟩
  | @refused _ _ t | @aborted _ t =>
      exact .inr ⟨by simp, congrArg Log.nextSeq (dropGuard_index w.store t.snapshot).2⟩

/-- The store is in step with the ledger, and its counter counts the keys written. -/
structure Counts (w : TxnWorld) (L : TxnLedger) : Prop where
  inStep : InStep w L
  counter : w.store.log.nextSeq = keysWritten L.committed
  room : w.store.log.nextSeq < 2 ^ 64

namespace Counts
variable {crc32 : Checksum} {w w' : TxnWorld} {L L' : TxnLedger}

theorem start : Counts TxnWorld.start Ledger.empty := ⟨start_inStep, rfl, by decide⟩

theorem step {e : TxnCall} {r : TxnReply} (h : Counts w L) (hs : w.CallStep crc32 (e, r) w') :
    L.Permits (e, r) ∧ Counts w' (L.note (e, r)) := by
  obtain ⟨htracks, hbelow⟩ := h.inStep
  obtain ⟨hpermits, htracks'⟩ := htracks.step hs (fun _ _ => hbelow)
  have hinStep : InStep w' (L.note (e, r)) := ⟨htracks', hbelow.step hs⟩
  rcases hs.counter with ⟨id, t, rfl, rfl, ht, hcounter, hroom⟩ | ⟨hother, hcounter⟩
  · obtain ⟨u, hu, htu⟩ := htracks.opened ht
    have hnote : (L.note (.commit id, .done)).committed = L.committed ++ [u] := by
      simp only [Ledger.note, hu, Option.toList_some]
    refine ⟨hpermits, hinStep, ?_, hroom h.room⟩
    rw [hnote, keysWritten_snoc, hcounter, h.counter, t.length_ops, htu.writes]
  · refine ⟨hpermits, hinStep, ?_, by rw [hcounter]; exact h.room⟩
    rw [hcounter, h.counter]
    cases e with
    | commit id =>
        cases r with
        | done => exact absurd rfl (hother id rfl)
        | value v => rfl
        | conflict key => rfl
    | _ => rfl

theorem run {hist : List (TxnCall × TxnReply)}
    (hrun : Run (TxnWorld.CallStep crc32) TxnWorld.start hist w) :
    ∃ L, Run Ledger.Step Ledger.empty hist L ∧ Counts w L := by
  induction hrun with
  | nil => exact ⟨_, .nil, start⟩
  | snoc _ hs ih =>
      obtain ⟨L, hspec, hcounts⟩ := ih
      obtain ⟨hpermits, hcounts'⟩ := hcounts.step hs
      exact ⟨_, hspec.snoc ⟨hpermits, rfl⟩, hcounts'⟩

theorem answers {e : TxnCall} {r : TxnReply} (h : Counts w L) (hs : Ledger.Step L (e, r) L')
    (hroom : keysWritten L'.committed < 2 ^ 64) (crc32 : Checksum) :
    ∃ w', w.CallStep crc32 (e, r) w' ∧ Counts w' L' := by
  obtain ⟨hpermits, rfl⟩ := hs
  have hspace : ∀ id t, (e, r) = (.commit id, .done) → w.txns.get? id = some t →
      w.store.log.nextSeq + t.ops.length < 2 ^ 64 := by
    intro id t he ht
    cases he
    obtain ⟨u, hu, htu⟩ := h.inStep.1.opened ht
    have hnote : (L.note (.commit id, .done)).committed = L.committed ++ [u] := by
      simp only [Ledger.note, hu, Option.toList_some]
    rwa [hnote, keysWritten_snoc, htu.writes, ← t.length_ops, ← h.counter] at hroom
  obtain ⟨w', hcall⟩ := h.inStep.1.answers hpermits hspace
    (fun _ _ => h.inStep.2) crc32
  exact ⟨w', hcall, (h.step hcall).2⟩

/-- A run of the ledger whose writes the counter has room for is a run of the store. -/
theorem follow {hist : List (TxnCall × TxnReply)} (hrun : Run Ledger.Step Ledger.empty hist L)
    (hroom : keysWritten L.committed < 2 ^ 64) (crc32 : Checksum) :
    ∃ w, Run (TxnWorld.CallStep crc32) TxnWorld.start hist w ∧ Counts w L := by
  induction hrun with
  | nil => exact ⟨_, .nil, start⟩
  | snoc _ hs ih =>
      have hless := keysWritten_prefix hs.committed
      obtain ⟨w, hw, hcounts⟩ := ih (hless.trans_lt hroom)
      obtain ⟨w', hcall, hcounts'⟩ := hcounts.answers hs hroom crc32
      exact ⟨w', hw.snoc hcall, hcounts'⟩

end Counts

/-- Transactions that write every key they take from their snapshot are serializable: run one
after another in commit order, the committed transactions get the answers that they got, and
they leave the same state. -/
theorem transactions_serializable {crc32 : Checksum} {hist : List (TxnCall × TxnReply)}
    {w : TxnWorld} (hrun : Run (TxnWorld.CallStep crc32) TxnWorld.start hist w)
    (hreads : WritesReads Scripts.empty hist = true) :
    ∃ w', Run (TxnWorld.CallStep crc32) TxnWorld.start (serialize hist) w' ∧
      w'.store.get = w.store.get := by
  obtain ⟨L, hspec, hcounts⟩ := Counts.run hrun
  obtain ⟨committed, hserial, hwrites⟩ := serialize_run hspec hreads
  have hroom : keysWritten committed < 2 ^ 64 := by
    rw [keysWritten_congr hwrites, ← hcounts.counter]
    exact hcounts.room
  obtain ⟨w', hrun', hcounts'⟩ := Counts.follow hserial hroom crc32
  refine ⟨w', hrun', ?_⟩
  rw [hcounts'.inStep.1.state, hcounts.inStep.1.state]
  exact stateAfter_congr hwrites

/-- Overlapping clients that write what they read; one of them fails and tries again. -/
def overlappingClients : List (TxnCall × TxnReply) :=
  [(.begin 0, .done), (.begin 1, .done), (.get 1 [1], .value none), (.get 0 [1], .value none),
    (.put 0 [1] [5], .done), (.put 1 [1] [9], .done), (.commit 0, .done),
    (.commit 1, .conflict [1]), (.begin 1, .done), (.get 1 [1], .value (some [5])),
    (.begin 0, .done), (.put 0 [2] [7], .done), (.put 1 [1] [6], .done), (.commit 0, .done),
    (.commit 1, .done)]

theorem overlappingClients_serializable :
    ∃ w w', Run (TxnWorld.CallStep crc32Ieee) TxnWorld.start overlappingClients w ∧
      Run (TxnWorld.CallStep crc32Ieee) TxnWorld.start (serialize overlappingClients) w' ∧
      w'.store.get = w.store.get := by
  obtain ⟨w, hw⟩ : ∃ w,
      overlappingClients.foldlM (TxnWorld.answer crc32Ieee) TxnWorld.start = some w :=
    Option.isSome_iff_exists.mp (by decide +kernel)
  have hrun := TxnWorld.run_of_answers hw
  obtain ⟨w', hrun', hstate⟩ := transactions_serializable hrun (by decide +kernel)
  exact ⟨w, w', hrun, hrun', hstate⟩

end Sietch
