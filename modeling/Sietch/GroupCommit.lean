import Sietch.StoreRuns

/-! Group commit: a list of writes that is cut into calls in any way leaves the same index,
the same next sequence number and the same records for the next open. -/
namespace Sietch
open ByteString Transition

def Acknowledged (crc32 : Checksum) (a : StoreDir × Store) (call : Call) (b : StoreDir × Store) :
    Prop := a.2.write crc32 .done a.1 call = (.ok (), b.2, b.1)

section Splits
variable {crc32 : Checksum} {a b : StoreDir × Store} {calls : List Call} {records : List Record}

/-- What a run of writes has done depends on the list of all its operations only. -/
theorem writes_index (h : Run (Acknowledged crc32) a calls b) :
    b.2.index = a.2.index.pushAll (Log.numberRecords a.2.log.nextSeq (calls.flatMap Call.ops)) ∧
      b.2.log.nextSeq = a.2.log.nextSeq + (calls.flatMap Call.ops).length := by
  induction h with
  | nil => exact ⟨rfl, rfl⟩
  | snoc _ hcall ih =>
      obtain ⟨hindex, hseq⟩ := ih
      have hwrote := (Store.write_append hcall).2
      rw [List.flatMap_append, List.flatMap_singleton, List.length_append]
      constructor
      · rw [hwrote.index, hindex, hseq, Log.numberRecords_append, Index.pushAll, Index.pushAll,
          Index.pushAll, List.foldl_append]
      · rw [hwrote.nextSeq, hseq, Nat.add_assoc]

theorem writes_disk (h : Run (Acknowledged crc32) a calls b)
    (hlog : Holds crc32 a.1.main (some a.2.log) records)
    (hfit : ∀ op ∈ calls.flatMap Call.ops, op.Fits) :
    Holds crc32 b.1.main (some b.2.log)
      (records ++ Log.numberRecords a.2.log.nextSeq (calls.flatMap Call.ops)) := by
  induction h with
  | nil => simpa [Log.numberRecords] using hlog
  | snoc hrun hcall ih =>
      rw [List.flatMap_append, List.flatMap_singleton] at hfit ⊢
      have hbefore := ih (fun op hop => hfit op (List.mem_append_left _ hop))
      have hafter := Store.write_disk (fun op hop => hfit op (List.mem_append_right _ hop))
        hcall hbefore
      rw [(writes_index hrun).2] at hafter
      rw [Log.numberRecords_append, ← List.append_assoc]
      exact hafter

end Splits

/-- Two ways of cutting a list of writes into calls agree, on every store whose log is in
step with its files and for keys and values whose lengths the records can state. -/
theorem group_commit_agrees {crc32 : Checksum} {a b c : StoreDir × Store} {records : List Record}
    (hlog : Holds crc32 a.1.main (some a.2.log) records) {calls calls' : List Call}
    (hsame : calls.flatMap Call.ops = calls'.flatMap Call.ops)
    (hfit : ∀ op ∈ calls.flatMap Call.ops, op.Fits)
    (hb : Run (Acknowledged crc32) a calls b) (hc : Run (Acknowledged crc32) a calls' c) :
    b.2.index = c.2.index ∧ b.2.log.nextSeq = c.2.log.nextSeq ∧
      ∀ maxBytes, ∃ report report' log log' dir dir',
        Log.openWithSegmentSize crc32 b.1.main maxBytes = (.ok (log, report), dir) ∧
        Log.openWithSegmentSize crc32 c.1.main maxBytes = (.ok (log', report'), dir') ∧
        report.records = report'.records := by
  obtain ⟨hindex, hseq⟩ := writes_index hb
  obtain ⟨hindex', hseq'⟩ := writes_index hc
  have hdisk := writes_disk hb hlog hfit
  have hdisk' := writes_disk hc hlog (hsame ▸ hfit)
  refine ⟨?_, ?_, fun maxBytes => ?_⟩
  · rw [hindex, hindex', hsame]
  · rw [hseq, hseq', hsame]
  · obtain ⟨log, torn, dir, hopen, -⟩ := hdisk.opens maxBytes
    obtain ⟨log', torn', dir', hopen', -⟩ := hdisk'.opens maxBytes
    refine ⟨_, _, log, log', dir, dir', hopen, hopen', ?_⟩
    rw [hsame]

section Example

def smallStore : Store := ⟨⟨40, [], 0, ⟨0, 0⟩, 0⟩, .empty, false, .empty⟩

def smallDir : StoreDir := { StoreDir.empty with main := SortedMap.empty.insert 0 [] }

def twoOps : List LogOp := [.put [1] [2], .put [3] [4]]

/-- Both puts in one batch, or one after the other in two segments. -/
theorem group_commit_agrees_two_segments :
    ∃ b c, Run (Acknowledged crc32Ieee) (smallDir, smallStore) [.batch twoOps] b ∧
      Run (Acknowledged crc32Ieee) (smallDir, smallStore) [.put [1] [2], .put [3] [4]] c ∧
      b.2.log.activeId = 0 ∧ c.2.log.activeId = 1 ∧ b.2.index = c.2.index := by
  let w := smallStore.write crc32Ieee .done smallDir (.batch twoOps)
  let w₁ := smallStore.write crc32Ieee .done smallDir (.put [1] [2])
  let w₂ := w₁.2.1.write crc32Ieee .done w₁.2.2 (.put [3] [4])
  have hb : Run (Acknowledged crc32Ieee) (smallDir, smallStore) [.batch twoOps] (w.2.2, w.2.1) :=
    Run.nil.snoc (show Acknowledged crc32Ieee _ _ _ by unfold Acknowledged; decide +kernel)
  have hc : Run (Acknowledged crc32Ieee) (smallDir, smallStore) [.put [1] [2], .put [3] [4]]
      (w₂.2.2, w₂.2.1) :=
    (Run.nil.snoc (show Acknowledged crc32Ieee _ _ (w₁.2.2, w₁.2.1) by
      unfold Acknowledged; decide +kernel)).snoc
      (show Acknowledged crc32Ieee _ _ _ by unfold Acknowledged; decide +kernel)
  have hrunning : Running crc32Ieee smallDir.main smallStore.log [] [] :=
    ⟨⟨rfl, by simp, by simp, inert_nil crc32Ieee⟩, rfl, rfl, rfl⟩
  have hlog : Holds crc32Ieee smallDir.main (some smallStore.log) [] := .live hrunning
  have hsame : [Call.batch twoOps].flatMap Call.ops =
      [Call.put [1] [2], Call.put [3] [4]].flatMap Call.ops := rfl
  have hfit : ∀ op ∈ [Call.batch twoOps].flatMap Call.ops, op.Fits := by
    simp [twoOps, Call.ops, LogOp.Fits]
  exact ⟨_, _, hb, hc, by decide +kernel, by decide +kernel,
    (group_commit_agrees hlog hsame hfit hb hc).1⟩

/-- A put fails with one byte of it in the file. Afterwards a batch of two puts leaves a log
that opens without any record, and the same puts one after the other leave one that does not
open. -/
theorem group_commit_differs_after_failure :
    let torn := smallStore.put crc32Ieee (.writeFails 1) smallDir [107] [118]
    let batch := torn.2.1.applyBatch crc32Ieee .done torn.2.2 twoOps
    let first := torn.2.1.put crc32Ieee .done torn.2.2 [1] [2]
    let second := first.2.1.put crc32Ieee .done first.2.2 [3] [4]
    torn.1 = .err (.log .io) ∧ batch.1 = .ok () ∧ first.1 = .ok () ∧ second.1 = .ok () ∧
      (∃ log dir, Log.openWithSegmentSize crc32Ieee batch.2.2.main 40 =
        (.ok (log, ⟨[], true⟩), dir)) ∧
      Log.openWithSegmentSize crc32Ieee second.2.2.main 40 =
        (.err (.sealedSegmentCorrupted 0), second.2.2.main) := by
  refine ⟨by decide +kernel, by decide +kernel, by decide +kernel, by decide +kernel,
    ⟨⟨40, [], 0, ⟨0, 0⟩, 0⟩, SortedMap.empty.insert 0 [], ?_⟩, ?_⟩
  · decide +kernel
  · decide +kernel

end Example
end Sietch
