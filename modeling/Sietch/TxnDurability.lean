import Sietch.Base.Restarts
import Sietch.BatchCrash
import Sietch.TxnRuns

/-! Transactions on a machine that is killed and restarted at any time, also inside a commit.
The store opens again with the transactions that were committed, and of an interrupted commit
with its writes up to some key. -/
namespace Sietch
open ByteString Isolation Transition

/-- A call with its answer, a kill between two calls, or a kill inside the commit of a
transaction. Each kill is followed by an open, which lists the directory as `l` says. -/
inductive TxnLife where
  | call (e : TxnCall) (r : TxnReply)
  | restart (l : Listing)
  | killed (id : Nat) (cut : Cut) (l : Listing)

namespace TxnLife

def label : TxnLife → LifeEvent Nat Bytes Bytes
  | .call e r => .call e r
  | .restart _ => .restart
  | .killed id _ _ => .killed id

def Allowed : TxnLife → Prop
  | .call e _ => CallFits e
  | _ => True

end TxnLife

def TxnWorld.crashDir (crc32 : Checksum) (w : TxnWorld) (t : Transaction) (cut : Cut) : StoreDir :=
  { w.dir with main := (Call.batch t.ops).crashDir crc32 cut w.dir.main w.store.log }

inductive TxnLifeStep (crc32 : Checksum) : TxnWorld → TxnLife → TxnWorld → Prop where
  | call {w w' e r} : TxnLife.Allowed (.call e r) → w.CallStep crc32 (e, r) w' →
      TxnLifeStep crc32 w (.call e r) w'
  | restart {w l s dir} : Store.openStore crc32 l w.dir = (.ok s, dir) →
      TxnLifeStep crc32 w (.restart l) ⟨dir, s, SortedMap.empty⟩
  | killed {w id cut l t s dir} : w.txns.get? id = some t → t.conflict? w.store = none →
      Store.openStore crc32 l (w.crashDir crc32 t cut) = (.ok s, dir) →
      TxnLifeStep crc32 w (.killed id cut l) ⟨dir, s, SortedMap.empty⟩

/-- A call appends the writes of a transaction to the log, or does not touch it. -/
theorem TxnWorld.CallStep.disk {crc32 : Checksum} {w w' : TxnWorld} {e : TxnCall × TxnReply}
    (hs : w.CallStep crc32 e w') :
    (w'.dir = w.dir ∧ w'.store.log = w.store.log ∧ w'.store.index = w.store.index) ∨
      ∃ id t s, w.txns.get? id = some t ∧ w'.store = Store.dropGuard s t.snapshot ∧
        w.store.write crc32 .done w.dir (.batch t.ops) = (.ok (), s, w'.dir) := by
  have hdropped : ∀ snapshot : Snapshot, (w.store.dropGuard snapshot).log = w.store.log ∧
      (w.store.dropGuard snapshot).index = w.store.index :=
    fun snapshot => (dropGuard_index w.store snapshot).symm
  cases hs.effect with
  | began => exact .inl ⟨rfl, rfl, rfl⟩
  | read => exact .inl ⟨rfl, rfl, rfl⟩
  | buffered => exact .inl ⟨rfl, rfl, rfl⟩
  | committed ht hc =>
      obtain ⟨-, s, rfl, hcase⟩ := Transaction.commit_ok hc
      rcases hcase with ⟨-, rfl, rfl⟩ | hw
      · exact .inl ⟨rfl, hdropped _⟩
      · exact .inr ⟨_, _, s, ht, rfl, hw⟩
  | refused => exact .inl ⟨rfl, hdropped _⟩
  | aborted => exact .inl ⟨rfl, hdropped _⟩

/-- The store is in step with the ledger, and the log on disk with the store. -/
structure Durable (crc32 : Checksum) (w : TxnWorld) (L : TxnLedger) : Prop where
  inStep : InStep w L
  clean : w.dir.Clean
  disk : ∃ records, Holds crc32 w.dir.main (some w.store.log) records ∧
    w.store.index = Index.replay records
  fits : ∀ id t, w.txns.get? id = some t → t.Fits

namespace Durable
variable {crc32 : Checksum} {w w' : TxnWorld} {L : TxnLedger}

theorem opened {dir dir' : StoreDir} {log : Option Log} {records : List Record} {l : Listing}
    {s : Store} {committed : List (Txn Bytes Bytes)} (hclean : dir.Clean)
    (hh : Holds crc32 dir.main log records)
    (hopen : Store.openStore crc32 l dir = (.ok s, dir'))
    (hlive : (Index.replay records).live = stateAfter committed) :
    Durable crc32 ⟨dir', s, SortedMap.empty⟩ ⟨committed, fun _ => none⟩ := by
  obtain ⟨store, d, ho, hinv, hindex⟩ := openStore_holds hclean hh l
  rw [hopen, Prod.mk.injEq, Outcome.ok.injEq] at ho
  obtain ⟨rfl, rfl⟩ := ho
  refine ⟨⟨⟨?_, fun _ => .none⟩, ?_⟩, hinv.clean, ⟨records, hinv.disk, hindex⟩, ?_⟩
  · exact (Store.get_live s).trans (by rw [hindex, hlive])
  · exact newestBelow_replay hindex hinv.disk.nextSeq
  · intro id t ht
    cases ht

theorem restart {l : Listing} {s : Store} {dir : StoreDir} (h : Durable crc32 w L)
    (hopen : Store.openStore crc32 l w.dir = (.ok s, dir)) :
    Durable crc32 ⟨dir, s, SortedMap.empty⟩ ⟨L.committed, fun _ => none⟩ := by
  obtain ⟨records, hh, hindex⟩ := h.disk
  apply opened h.clean hh hopen
  rw [← hindex, ← Store.get_live, h.inStep.1.state]

/-- The writes whose records are in the file are the first ones in key order. -/
theorem survives {t : Transaction} {u : Txn Bytes Bytes} (hu : u.writes = t.writes.get?) (m : Nat) :
    Survives u ⟨u.began, fun key => SortedMap.lookup key (t.writes.entries.take m)⟩ := by
  have hasc := t.writes.ascending
  rw [← List.take_append_drop m t.writes.entries] at hasc
  have hcross := (List.pairwise_append.mp hasc).2.2
  refine ⟨rfl, {key | ∀ e ∈ t.writes.entries.drop m, key < e.1}, ?_, ?_, ?_⟩
  · intro key other hle hkey e he
    exact hle.trans_lt (hkey e he)
  · intro key hkey
    have hlater : SortedMap.lookup key (t.writes.entries.drop m) = none := by
      rw [SortedMap.lookup_eq_none]
      intro e he
      exact (hkey e he).ne'
    rw [hu, SortedMap.get?]
    nth_rewrite 2 [← List.take_append_drop m t.writes.entries]
    rw [SortedMap.lookup_append, hlater, Option.or_none]
  · intro key hkey
    obtain ⟨e, he, hle⟩ : ∃ e ∈ t.writes.entries.drop m, e.1 ≤ key := by
      simpa using hkey
    show SortedMap.lookup key (t.writes.entries.take m) = none
    rw [SortedMap.lookup_eq_none]
    intro e' he'
    exact ((hcross e' he' e he).trans_le hle).ne

/-- A kill inside a commit leaves some of the first records of its writes. -/
theorem crashed {id : Nat} {t : Transaction} (h : Durable crc32 w L)
    (ht : w.txns.get? id = some t) (cut : Cut) :
    (w.crashDir crc32 t cut).Clean ∧ ∃ records m, w.store.index = Index.replay records ∧
      Holds crc32 (w.crashDir crc32 t cut).main none
        (records ++ (Log.numberRecords w.store.log.nextSeq t.ops).take m) := by
  obtain ⟨records, hh, hindex⟩ := h.disk
  have hfits : ∀ op ∈ (Call.batch t.ops).ops, op.Fits := h.fits id t ht
  obtain ⟨m, hcrashed⟩ := hh.crashed hfits cut
  exact ⟨h.clean, records, m, hindex, hcrashed⟩

theorem killed {id : Nat} {cut : Cut} {l : Listing} {t : Transaction} {s : Store} {dir : StoreDir}
    (h : Durable crc32 w L) (ht : w.txns.get? id = some t) (hnone : t.conflict? w.store = none)
    (hopen : Store.openStore crc32 l (w.crashDir crc32 t cut) = (.ok s, dir)) :
    ∃ L', Ledger.LifeStep L (.killed id) L' ∧
      Durable crc32 ⟨dir, s, SortedMap.empty⟩ L' := by
  obtain ⟨hclean, records, m, hindex, hcrashed⟩ := h.crashed ht cut
  obtain ⟨u, hu, htu⟩ := h.inStep.1.opened ht
  have hsurvives := survives htu.writes m
  refine ⟨_, .killed hu ?_ hsurvives, opened hclean hcrashed hopen ?_⟩
  · rintro key ⟨hkey, hover⟩
    rw [htu.writes] at hkey
    have hfalse := Transaction.conflict?_none hnone hkey
    rw [(htu.overwritten key).mpr hover] at hfalse
    cases hfalse
  · have htake : t.ops.take m = (t.writes.entries.take m).map Transaction.writeOp :=
      List.map_take.symm
    have hasc : SortedMap.Ascending (t.writes.entries.take m) :=
      t.writes.ascending.sublist (List.take_sublist _ _)
    rw [numberRecords_take, Index.replay_append, Index.live_pushAll, htake,
      Transaction.applyAll_entries hasc, ← hindex, ← Store.get_live, h.inStep.1.state,
      stateAfter_snoc]

theorem call {e : TxnCall} {r : TxnReply} (h : Durable crc32 w L)
    (hallowed : TxnLife.Allowed (.call e r)) (hs : w.CallStep crc32 (e, r) w') :
    Ledger.Step L (e, r) (L.note (e, r)) ∧ Durable crc32 w' (L.note (e, r)) := by
  obtain ⟨htracks, hbelow⟩ := h.inStep
  obtain ⟨hpermits, htracks'⟩ := htracks.step hs (fun _ _ => hbelow)
  have hfits := hs.fits hallowed h.fits
  obtain ⟨records, hh, hindex⟩ := h.disk
  refine ⟨⟨hpermits, rfl⟩, ⟨htracks', hbelow.step hs⟩, ?_, ?_, hfits⟩
  · rcases hs.disk with ⟨hdir, -, -⟩ | ⟨id, t, s, -, -, hw⟩
    · rw [hdir]
      exact h.clean
    · rw [(Store.write_append hw).2.scratch]
      exact h.clean
  · rcases hs.disk with ⟨hdir, hlog, hsame⟩ | ⟨id, t, s, ht, hstore, hw⟩
    · rw [hdir, hlog, hsame]
      exact ⟨records, hh, hindex⟩
    · obtain ⟨hdropIndex, hdropLog⟩ := dropGuard_index s t.snapshot
      have hops : ∀ op ∈ (Call.batch t.ops).ops, op.Fits := h.fits id t ht
      refine ⟨records ++ Log.numberRecords w.store.log.nextSeq t.ops, ?_, ?_⟩
      · rw [hstore, hdropLog]
        exact Store.write_disk hops hw hh
      · rw [hstore, hdropIndex, (Store.write_append hw).2.index, hindex, Index.replay_append]
        rfl

theorem start (crc32 : Checksum) : Durable crc32 TxnWorld.start Ledger.empty where
  inStep := start_inStep
  clean := ⟨rfl, rfl, rfl, rfl⟩
  disk := ⟨[], .live (freshLog_running crc32), rfl⟩
  fits := by
    intro id t ht
    cases ht

theorem step {e : TxnLife} (h : Durable crc32 w L) (hs : TxnLifeStep crc32 w e w') :
    ∃ L', Ledger.LifeStep L e.label L' ∧ Durable crc32 w' L' := by
  cases hs with
  | call hallowed hs =>
      obtain ⟨hstep, h'⟩ := h.call hallowed hs
      exact ⟨_, .call hstep, h'⟩
  | restart hopen => exact ⟨_, .restart, h.restart hopen⟩
  | killed ht hnone hopen => exact h.killed ht hnone hopen

theorem run {events : List TxnLife} (h : Durable crc32 w L)
    (hrun : Run (TxnLifeStep crc32) w events w') :
    ∃ L', Run Ledger.LifeStep L (events.map TxnLife.label) L' ∧ Durable crc32 w' L' := by
  induction hrun with
  | nil => exact ⟨L, .nil, h⟩
  | snoc _ hs ih =>
      obtain ⟨L₁, hrun₁, h₁⟩ := ih
      obtain ⟨L₂, hstep, h₂⟩ := h₁.step hs
      refine ⟨L₂, ?_, h₂⟩
      rw [List.map_append]
      exact hrun₁.snoc hstep

end Durable

/-- Transactions are isolated and durable on a machine that is killed at any time. There is a
ledger of write sets that only grows: those of the acknowledged commits whole, and of a commit
that was killed the writes up to some key. Every answer is the one that snapshot isolation gives
over it, the store holds the fold of its write sets and so does every store opened from the
files, and transactions in it that wrote a common key did not overlap. A store killed inside a
commit opens too. -/
theorem transactions_survive_kills {crc32 : Checksum} {events more : List TxnLife}
    {w w' : TxnWorld} (hrun : Run (TxnLifeStep crc32) TxnWorld.start events w)
    (hmore : Run (TxnLifeStep crc32) w more w') :
    ∃ L L' : TxnLedger, Run Ledger.LifeStep Ledger.empty (events.map TxnLife.label) L ∧
      Run Ledger.LifeStep L (more.map TxnLife.label) L' ∧ L.committed <+: L'.committed ∧
      w'.store.get = stateAfter L'.committed ∧
      (∀ l, ∃ s dir, Store.openStore crc32 l w'.dir = (.ok s, dir) ∧
        s.get = stateAfter L'.committed) ∧
      (∀ id t cut l, w'.txns.get? id = some t →
        ∃ s dir, Store.openStore crc32 l (w'.crashDir crc32 t cut) = (.ok s, dir)) ∧
      ∀ (i j : Nat) t u key, i < j → L'.committed[i]? = some t → L'.committed[j]? = some u →
        (t.writes key).isSome → (u.writes key).isSome → i < u.began := by
  obtain ⟨L, hL, hdurable⟩ := (Durable.start crc32).run hrun
  obtain ⟨L', hL', hdurable'⟩ := hdurable.run hmore
  refine ⟨L, L', hL, hL', Ledger.committed_life hL', hdurable'.inStep.1.state, ?_, ?_,
    (Ledger.ordered_life (hL.append hL')).disjoint⟩
  · intro l
    obtain ⟨records, hh, -⟩ := hdurable'.disk
    obtain ⟨s, dir, hopen, -⟩ := openStore_holds hdurable'.clean hh l
    exact ⟨s, dir, hopen, (hdurable'.restart hopen).inStep.1.state⟩
  · intro id t cut l ht
    obtain ⟨hclean, records, m, -, hcrashed⟩ := hdurable'.crashed ht cut
    obtain ⟨s, dir, hopen, -⟩ := openStore_holds hclean hcrashed l
    exact ⟨s, dir, hopen⟩

theorem callRun_life {crc32 : Checksum} {w w' : TxnWorld} {calls : List (TxnCall × TxnReply)}
    (hfits : ∀ e ∈ calls, CallFits e.1) (hrun : Run (TxnWorld.CallStep crc32) w calls w') :
    Run (TxnLifeStep crc32) w (calls.map (fun e => .call e.1 e.2)) w' := by
  induction hrun with
  | nil => exact .nil
  | @snoc calls a b e _ hs ih =>
      have hfit := hfits e (List.mem_append_right _ (List.mem_singleton_self e))
      rw [List.map_append]
      exact (ih (fun e he => hfits e (List.mem_append_left _ he))).snoc (.call hfit hs)

def twoWrites : List (TxnCall × TxnReply) :=
  [(.begin 0, .done), (.put 0 [1] [5], .done), (.put 0 [2] [6], .done)]

def killedInCommit : List TxnLife :=
  twoWrites.map (fun e => .call e.1 e.2) ++ [.killed 0 (.atByte 24) .ascending]

/-- A transaction of two writes is killed in its commit, with the first record and a byte of
the second in the file: the ledger of the run has the first write. -/
theorem transactions_survive_kill_in_commit :
    ∃ w, Run (TxnLifeStep crc32Ieee) TxnWorld.start killedInCommit w ∧
      w.store.get [1] = some [5] ∧ w.store.get [2] = none ∧
      ∃ L, Run Ledger.LifeStep Ledger.empty (killedInCommit.map TxnLife.label) L ∧
        w.store.get = stateAfter L.committed := by
  have hcheck : (twoWrites.foldlM (TxnWorld.answer crc32Ieee) TxnWorld.start).any (fun w =>
      (w.txns.get? 0).any (fun t => decide (t.conflict? w.store = none) &&
        (Store.reopened crc32Ieee (w.crashDir crc32Ieee t (.atByte 24))).any (fun s =>
          decide (s.get [1] = some [5]) && decide (s.get [2] = none)))) = true := by
    decide +kernel
  simp only [Option.any_eq_true, Bool.and_eq_true, decide_eq_true_eq] at hcheck
  obtain ⟨w, hw, t, ht, hconflict, s, hs, hfirst, hsecond⟩ := hcheck
  have hfits : ∀ e ∈ twoWrites, CallFits e.1 := by simp [twoWrites, CallFits, LogOp.Fits]
  have hcalls := callRun_life hfits (TxnWorld.run_of_answers hw)
  obtain ⟨dir, hopen⟩ := Store.reopened_some hs
  have hrun : Run (TxnLifeStep crc32Ieee) TxnWorld.start killedInCommit
      ⟨dir, s, SortedMap.empty⟩ := hcalls.snoc (.killed ht hconflict hopen)
  obtain ⟨L₀, L, hnone, hledger, -, hstate, -⟩ := transactions_survive_kills .nil hrun
  exact ⟨_, hrun, hfirst, hsecond, L, hnone.append hledger, hstate⟩

end Sietch
