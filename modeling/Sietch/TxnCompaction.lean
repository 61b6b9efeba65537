import Sietch.StoreOpen
import Sietch.TxnRuns

/-! Compactions between the calls of transactions. A compaction may set the counter back
below versions that the index keeps; commits are answered as without it as long as no
transaction begins in that state, on every store that was opened with its versions in order. -/
namespace Sietch
open ByteString Isolation Transition

inductive TxnEvent where
  | call (e : TxnCall × TxnReply)
  | compact (l : Listing)

def TxnEvent.call? : TxnEvent → Option (TxnCall × TxnReply)
  | .call e => some e
  | .compact _ => none

def TxnEvent.isWrite : TxnEvent → Bool
  | .call (.put _ _ _, _) => true
  | .call (.delete _ _, _) => true
  | _ => false

def TxnEvent.Fair : TxnEvent → Prop
  | .call _ => True
  | .compact l => l.Fair

namespace TxnWorld

def follow (crc32 : Checksum) (w : TxnWorld) : TxnEvent → Option TxnWorld
  | .call e => w.answer crc32 e
  | .compact l =>
      match w.store.compact crc32 l w.dir with
      | (.ok _, store, dir) => some { w with store, dir }
      | _ => none

def TxnStep (crc32 : Checksum) : TxnWorld → TxnEvent → TxnWorld → Prop :=
  Computed TxnEvent.Fair (follow crc32)

/-- When a transaction begins, the newest version of every key is below the counter.
Keys and values can be stated in a record header. -/
def AheadAtBegin (w : TxnWorld) : TxnEvent → Prop
  | .call (.begin _, _) => w.store.NewestBelow
  | .call (e, _) => CallFits e
  | .compact _ => True

def HasSeq (w : TxnWorld) (seq : Nat) : Prop := ∃ key, ∃ v ∈ w.store.index.versions key, v.seq = seq

/-- What keeps the counter above the versions while transactions are open. -/
structure Sorted (w : TxnWorld) : Prop where
  sorted : w.store.Ordered
  ahead : ∀ id t, w.txns.get? id = some t → ∀ key, ∀ v ∈ w.store.index.versions key,
    v.seq < w.store.log.nextSeq
  top : ∀ seq, w.store.log.nextSeq = seq + 1 → w.HasSeq seq
  taken : ∀ id t, w.txns.get? id = some t → ∀ seq, t.snapshot.asOfSeq = seq + 1 → w.HasSeq seq

end TxnWorld

section Calls
variable {crc32 : Checksum} {w w' : TxnWorld} {e : TxnCall × TxnReply}

theorem TxnWorld.AheadAtBegin.below (h : w.AheadAtBegin (.call e)) (id : Nat)
    (he : e.1 = .begin id) : w.store.NewestBelow := by
  obtain ⟨e, r⟩ := e
  cases he
  exact h

theorem TxnWorld.AheadAtBegin.fits (h : w.AheadAtBegin (.call e)) : CallFits e.1 := by
  obtain ⟨e, r⟩ := e
  cases e with
  | begin id => trivial
  | _ => exact h

theorem TxnWorld.CallStep.snapshot (hs : w.CallStep crc32 e w') {id : Nat} {t : Transaction}
    (ht : w'.txns.get? id = some t) :
    (∃ t₀, w.txns.get? id = some t₀ ∧ t₀.snapshot = t.snapshot) ∨
      (e.1 = .begin id ∧ t.snapshot = w.store.snapshot) := by
  rcases hs.opened ht with hold | ⟨hbegin, rfl⟩ | ⟨t₀, key, value, ht₀, -, rfl⟩
  · exact .inl ⟨t, hold, rfl⟩
  · exact .inr ⟨hbegin, rfl⟩
  · exact .inl ⟨t₀, ht₀, rfl⟩

theorem TxnWorld.HasSeq.mono {seq : Nat} (h : w.HasSeq seq)
    (hsub : ∀ key, ∀ v ∈ w.store.index.versions key, v ∈ w'.store.index.versions key) :
    w'.HasSeq seq := by
  obtain ⟨key, v, hv, hseq⟩ := h
  exact ⟨key, v, hsub key v hv, hseq⟩

/-- In a sorted list the newest version has the greatest seq. -/
theorem TxnWorld.Sorted.below (h : w.Sorted) (hbelow : w.store.NewestBelow) (key : Bytes) :
    ∀ v ∈ w.store.index.versions key, v.seq < w.store.log.nextSeq := by
  intro v hv
  have hsorted := h.sorted key
  rcases List.eq_nil_or_concat (w.store.index.versions key) with hnil | ⟨init, newest, hlist⟩
  · rw [hnil] at hv
    cases hv
  · rw [List.concat_eq_append] at hlist
    have hnewest := hbelow key newest (by rw [hlist]; simp)
    rw [hlist] at hv hsorted
    rcases List.mem_append.mp hv with hv | hv
    · exact ((List.pairwise_append.mp hsorted).2.2 v hv newest (by simp)).trans_lt hnewest
    · rw [List.mem_singleton.mp hv]
      exact hnewest

theorem TxnWorld.Sorted.step (h : w.Sorted) (hs : w.CallStep crc32 e w')
    (hbelow : ∀ id, e.1 = .begin id → w.store.NewestBelow) : w'.Sorted := by
  have hkept : ∀ key, ∀ v ∈ w.store.index.versions key, v ∈ w'.store.index.versions key := by
    intro key v hv
    rcases hs.index with ⟨hindex, -⟩ | ⟨id, t, -, -, hindex, -⟩
    · rw [hindex]
      exact hv
    · rw [hindex, Index.versions_pushAll]
      exact List.mem_append_left _ hv
  refine ⟨?_, ?_, ?_, ?_⟩
  · intro key
    rcases hs.index with ⟨hindex, -⟩ | ⟨id, t, ht, -, hindex, -⟩
    · rw [hindex]
      exact h.sorted key
    · rw [hindex, Index.versions_pushAll, List.pairwise_append]
      have hnew := Index.added_pairwise (Log.numberRecords_pairwise w.store.log.nextSeq t.ops) key
      refine ⟨h.sorted key, hnew.imp Nat.le_of_lt, ?_⟩
      intro a ha b hb
      exact ((h.ahead id t ht key a ha).trans_le (Index.added_seq hb).1).le
  · intro id t ht key v hv
    rcases hs.index with ⟨hindex, hcounter⟩ | ⟨id', t', ht', -, hindex, hcounter⟩
    · rw [hindex] at hv
      rw [hcounter]
      rcases hs.snapshot ht with ⟨t₀, ht₀, -⟩ | ⟨hbegin, -⟩
      · exact h.ahead id t₀ ht₀ key v hv
      · exact h.below (hbelow id hbegin) key v hv
    · rw [hindex, Index.versions_pushAll] at hv
      rw [hcounter]
      rcases List.mem_append.mp hv with hv | hv
      · exact (h.ahead id' t' ht' key v hv).trans_le (Nat.le_add_right _ _)
      · exact (Index.added_seq hv).2
  · intro seq hseq
    rcases hs.index with ⟨-, hcounter⟩ | ⟨id, t, -, -, hindex, hcounter⟩
    · exact (h.top seq (hcounter.symm.trans hseq)).mono hkept
    · by_cases hops : t.ops = []
      · rw [hops, List.length_nil, Nat.add_zero] at hcounter
        exact (h.top seq (hcounter.symm.trans hseq)).mono hkept
      · have hne : Log.numberRecords w.store.log.nextSeq t.ops ≠ [] := by
          intro hnil
          apply hops
          rw [← List.length_eq_zero_iff, ← Log.length_numberRecords w.store.log.nextSeq, hnil]
          rfl
        obtain ⟨r, hr, htop⟩ := exists_top_seq hne
        rw [Log.nextSeqOf_numberRecords hops, ← hcounter, hseq] at htop
        refine ⟨r.key, r.version, ?_, ?_⟩
        · rw [hindex, Index.versions_pushAll]
          exact List.mem_append_right _ (Index.mem_added.mpr ⟨r, hr, rfl, rfl⟩)
        · rw [Record.version_seq]
          exact (Nat.succ_injective htop).symm
  · intro id t ht seq hseq
    rcases hs.snapshot ht with ⟨t₀, ht₀, hsame⟩ | ⟨-, hsnapshot⟩
    · exact (h.taken id t₀ ht₀ seq (by rw [hsame]; exact hseq)).mono hkept
    · rw [hsnapshot] at hseq
      exact (h.top seq hseq).mono hkept

end Calls

def heldBy (txns : SortedMap Nat Transaction) : List Nat :=
  txns.entries.map (fun e => e.2.snapshot.asOfSeq)

/-- A store with open transactions whose counter is in order. -/
structure TxnWorld.Inv (crc32 : Checksum) (records : List Record) (w : TxnWorld) : Prop where
  store : w.store.Inv crc32 records w.dir (heldBy w.txns)
  fits : ∀ id t, w.txns.get? id = some t → t.Fits
  sorted : w.Sorted

section Held
variable {txns : SortedMap Nat Transaction} {id : Nat} {t : Transaction}

theorem heldBy_erase (ht : txns.get? id = some t) :
    (heldBy txns).Perm (t.snapshot.asOfSeq :: heldBy (txns.erase id)) :=
  (SortedMap.entries_perm ht).map (fun e : Nat × Transaction => e.2.snapshot.asOfSeq)

theorem heldBy_insert (txns : SortedMap Nat Transaction) (id : Nat) (t : Transaction) :
    (heldBy (txns.insert id t)).Perm (t.snapshot.asOfSeq :: heldBy (txns.erase id)) := by
  have hget : (txns.insert id t).get? id = some t := by simp
  have hperm := heldBy_erase hget
  rw [SortedMap.erase_insert] at hperm
  exact hperm

theorem heldBy_begin (hnone : txns.get? id = none) (t : Transaction) :
    (heldBy txns ++ [t.snapshot.asOfSeq]).Perm (heldBy (txns.insert id t)) := by
  have hperm := heldBy_insert txns id t
  rw [SortedMap.erase_of_get?_none hnone] at hperm
  exact (List.perm_append_singleton _ _).trans hperm.symm

theorem heldBy_buffer (ht : txns.get? id = some t) (t' : Transaction)
    (hsame : t'.snapshot = t.snapshot) : (heldBy txns).Perm (heldBy (txns.insert id t')) := by
  have hperm := heldBy_insert txns id t'
  rw [hsame] at hperm
  exact (heldBy_erase ht).trans hperm.symm

end Held

namespace TxnWorld.Inv
variable {crc32 : Checksum} {records : List Record} {w w' : TxnWorld}

theorem store_step (h : w.Inv crc32 records) {e : TxnCall × TxnReply}
    (hs : w.CallStep crc32 e w') :
    ∃ records', w'.store.Inv crc32 records' w'.dir (heldBy w'.txns) := by
  cases hs.effect with
  | began hnone =>
      have hheld := heldBy_begin hnone ⟨w.store.snapshot, SortedMap.empty⟩
      exact ⟨records, h.store.hold.perm hheld⟩
  | read => exact ⟨records, h.store⟩
  | buffered key value ht => exact ⟨records, h.store.perm (heldBy_buffer ht _ rfl)⟩
  | @committed id t _ _ ht hc =>
      obtain ⟨-, s₁, rfl, hcase⟩ := Transaction.commit_ok hc
      rcases hcase with ⟨-, rfl, rfl⟩ | hw
      · exact ⟨records, h.store.drop (heldBy_erase ht)⟩
      · have hfits : ∀ op ∈ (Call.batch t.ops).ops, op.Fits := h.fits id t ht
        exact ⟨_, (h.store.write hfits hw).drop (heldBy_erase ht)⟩
  | refused ht => exact ⟨records, h.store.drop (heldBy_erase ht)⟩
  | aborted ht => exact ⟨records, h.store.drop (heldBy_erase ht)⟩

theorem step (h : w.Inv crc32 records) {e : TxnCall × TxnReply} (hs : w.CallStep crc32 e w')
    (hc : w.AheadAtBegin (.call e)) : ∃ records', w'.Inv crc32 records' := by
  obtain ⟨records', hstore⟩ := h.store_step hs
  exact ⟨records', hstore, hs.fits hc.fits h.fits, h.sorted.step hs hc.below⟩

theorem compact (h : w.Inv crc32 records) {l : Listing}
    (hs : TxnStep crc32 w (.compact l) w') :
    w'.store.index = w.store.index ∧ w'.txns = w.txns ∧
      (∀ id t, w.txns.get? id = some t → t.snapshot.asOfSeq ≤ w'.store.log.nextSeq) ∧
      ∃ records', w'.Inv crc32 records' := by
  obtain ⟨hl, hfollow⟩ := hs
  obtain ⟨report, log, dir', hc, hinv⟩ := h.store.compact hl
  simp only [follow, hc, Option.some.injEq] at hfollow
  subst hfollow
  have hnext := hinv.disk.nextSeq
  have hahead : ∀ id t, w.txns.get? id = some t → ∀ key, ∀ v ∈ w.store.index.versions key,
      v.seq < log.nextSeq := by
    intro id t ht key v hv
    cases ho : w.store.oldestHeldSnapshotSeq with
    | none =>
        have hmem : t.snapshot.asOfSeq ∈ heldBy w.txns :=
          (heldBy_erase ht).mem_iff.mpr (List.mem_cons_self ..)
        rw [h.store.registry.unheld.mp ho] at hmem
        cases hmem
    | some threshold =>
        obtain ⟨x, hx, hle⟩ := retained_reaches threshold (h.sorted.sorted key) hv
        have hrecord : x.record key ∈
            compactedRecords w.store.index w.store.oldestHeldSnapshotSeq := by
          rw [mem_compactedRecords, VersionEntry.record_key, ho]
          exact ⟨x, hx, rfl⟩
        have hlt := seq_lt_nextSeqOf hrecord
        rw [VersionEntry.record_seq, ← hnext] at hlt
        exact hle.trans_lt hlt
  have htop : ∀ seq, log.nextSeq = seq + 1 → w.HasSeq seq := by
    intro seq hseq
    rw [hnext] at hseq
    by_cases hne : compactedRecords w.store.index w.store.oldestHeldSnapshotSeq = []
    · rw [hne] at hseq
      cases hseq
    · obtain ⟨r, hr, hr'⟩ := exists_top_seq hne
      obtain ⟨v, hv, hrecord⟩ := mem_compactedRecords.mp hr
      refine ⟨r.key, v, mem_of_mem_retained hv, ?_⟩
      have hvseq : r.seq = v.seq := by rw [hrecord, VersionEntry.record_seq]
      omega
  refine ⟨rfl, rfl, ?_, _, hinv, h.fits, h.sorted.sorted, hahead, htop, h.sorted.taken⟩
  intro id t ht
  cases hseq : t.snapshot.asOfSeq with
  | zero => exact Nat.zero_le _
  | succ seq =>
      obtain ⟨key, v, hv, rfl⟩ := h.sorted.taken id t ht seq hseq
      exact hahead id t ht key v hv

end TxnWorld.Inv

theorem Tracks.compact {crc32 : Checksum} {w w' : TxnWorld} {L : TxnLedger} {l : Listing}
    {records : List Record} (h : Tracks w L) (hinv : w.Inv crc32 records)
    (hs : TxnWorld.TxnStep crc32 w (.compact l) w') :
    Tracks w' L ∧ ∃ records', w'.Inv crc32 records' := by
  obtain ⟨hindex, htxns, hcounter, hinv'⟩ := hinv.compact hs
  refine ⟨⟨?_, ?_⟩, hinv'⟩
  · have hget : w'.store.get = w.store.get := by
      rw [Store.get_live, Store.get_live, hindex]
    exact hget.trans h.state
  · intro id
    rw [htxns]
    cases ht : w.txns.get? id with
    | none =>
        rw [h.closed ht]
        exact .none
    | some t =>
        obtain ⟨u, hu, htu⟩ := h.opened ht
        rw [hu]
        exact .some (htu.of_index hindex (hcounter id t ht))

theorem txnStep_simulates (crc32 : Checksum) :
    Simulates (Under TxnWorld.AheadAtBegin (TxnWorld.TxnStep crc32)) Ledger.Step TxnEvent.call?
      (fun w L => Tracks w L ∧ ∃ records, w.Inv crc32 records) := by
  rintro w L e w' ⟨hL, records, hinv⟩ ⟨hc, hs⟩
  cases e with
  | call e =>
      have hcall := TxnWorld.answer_eq_some.mp hs.2
      obtain ⟨hpermits, hL'⟩ := hL.step hcall hc.below
      exact .inl ⟨e, L.note e, rfl, ⟨hpermits, rfl⟩, hL', hinv.step hcall hc⟩
  | compact l =>
      obtain ⟨htracks, hinv'⟩ := hL.compact hinv hs
      exact .inr ⟨rfl, htracks, hinv'⟩

def buffered (txns : SortedMap Nat Transaction) : Nat :=
  (txns.entries.map (fun e => e.2.ops.length)).sum

section Buffered
variable {txns : SortedMap Nat Transaction} {id : Nat} {t : Transaction}

theorem buffered_erase (ht : txns.get? id = some t) :
    buffered txns = t.ops.length + buffered (txns.erase id) :=
  ((SortedMap.entries_perm ht).map (fun e : Nat × Transaction => e.2.ops.length)).sum_eq

theorem buffered_insert (txns : SortedMap Nat Transaction) (id : Nat) (t : Transaction) :
    buffered (txns.insert id t) = t.ops.length + buffered (txns.erase id) := by
  have hget : (txns.insert id t).get? id = some t := by simp
  rw [buffered_erase hget, SortedMap.erase_insert]

theorem length_ops_insert (t : Transaction) (key : Bytes) (value : Option Bytes) :
    (Transaction.ops { t with writes := t.writes.insert key value }).length ≤
      t.ops.length + 1 := by
  have hget : (t.writes.insert key value).get? key = some value := by simp
  have hperm := (SortedMap.entries_perm hget).length_eq
  rw [SortedMap.erase_insert, List.length_cons] at hperm
  have herase : (t.writes.erase key).entries.length ≤ t.writes.entries.length :=
    List.length_filter_le _ _
  unfold Transaction.ops
  rw [List.length_map, List.length_map, hperm]
  exact Nat.succ_le_succ herase

theorem buffered_write (ht : txns.get? id = some t) (key : Bytes) (value : Option Bytes) :
    buffered (txns.insert id { t with writes := t.writes.insert key value }) ≤
      buffered txns + 1 := by
  have hlength := length_ops_insert t key value
  rw [buffered_insert, buffered_erase ht]
  omega

end Buffered

/-- The counter and the buffered writes together grow by the write calls only. -/
theorem TxnWorld.CallStep.spends {crc32 : Checksum} {w w' : TxnWorld} {e : TxnCall × TxnReply}
    (hs : w.CallStep crc32 e w') :
    w'.store.log.nextSeq + buffered w'.txns ≤ w.store.log.nextSeq + buffered w.txns +
      [TxnEvent.call e].countP TxnEvent.isWrite := by
  cases hs.effect with
  | @began id hnone =>
      show w.store.log.nextSeq + buffered (w.txns.insert id _) ≤ _
      rw [buffered_insert, SortedMap.erase_of_get?_none hnone]
      simp [Transaction.ops, SortedMap.empty]
  | read => exact Nat.le_add_right _ _
  | buffered key value ht =>
      have hspent := Nat.add_le_add_left (buffered_write ht key value) w.store.log.nextSeq
      cases value with
      | some value => exact hspent
      | none => exact hspent
  | committed ht hc =>
      have hspent := buffered_erase ht
      have hcounter := (Transaction.commit_index hc).2
      dsimp only
      omega
  | @refused _ _ t ht | @aborted _ t ht =>
      have hspent := buffered_erase ht
      have hcounter := congrArg Log.nextSeq (dropGuard_index w.store t.snapshot).2
      dsimp only
      omega

/-- A store with compactions, and one without that has answered the same calls. -/
structure Shadows (crc32 : Checksum) (w u : TxnWorld) (L : TxnLedger) : Prop where
  tracked : Tracks w L
  inv : ∃ records, w.Inv crc32 records
  shadow : InStep u L

namespace Shadows
variable {crc32 : Checksum} {w w' u : TxnWorld} {L : TxnLedger}

theorem call {e : TxnCall × TxnReply} (h : Shadows crc32 w u L) (hs : w.CallStep crc32 e w')
    (hc : w.AheadAtBegin (.call e))
    (hroom : u.store.log.nextSeq + buffered u.txns < 2 ^ 64) :
    ∃ u', u.CallStep crc32 e u' ∧ Shadows crc32 w' u' (L.note e) := by
  obtain ⟨htracks, hbelow⟩ := h.shadow
  obtain ⟨records, hinv⟩ := h.inv
  obtain ⟨hpermits, htracked⟩ := h.tracked.step hs hc.below
  have hspace : ∀ id t, e = (.commit id, .done) → u.txns.get? id = some t →
      u.store.log.nextSeq + t.ops.length < 2 ^ 64 := by
    intro id t _ ht
    have hspent := buffered_erase ht
    omega
  obtain ⟨u', hanswer⟩ := htracks.answers hpermits hspace (fun _ _ => hbelow) crc32
  have hshadow := (htracks.step hanswer (fun _ _ => hbelow)).2
  exact ⟨u', hanswer, htracked, hinv.step hs hc, hshadow, hbelow.step hanswer⟩

end Shadows

/-- Without the compactions every call is answered as with them, while the counter has room. -/
theorem shadow_run {crc32 : Checksum} {w₀ w : TxnWorld} {L₀ : TxnLedger} {hist : List TxnEvent}
    (h₀ : Shadows crc32 w₀ w₀ L₀)
    (hrun : Run (Under TxnWorld.AheadAtBegin (TxnWorld.TxnStep crc32)) w₀ hist w)
    (hroom : w₀.store.log.nextSeq + buffered w₀.txns + hist.countP TxnEvent.isWrite < 2 ^ 64) :
    ∃ u L, Run (TxnWorld.CallStep crc32) w₀ (hist.filterMap TxnEvent.call?) u ∧
      Shadows crc32 w u L ∧ u.store.log.nextSeq + buffered u.txns ≤
        w₀.store.log.nextSeq + buffered w₀.txns + hist.countP TxnEvent.isWrite := by
  induction hrun with
  | nil => exact ⟨w₀, L₀, .nil, h₀, Nat.le_add_right _ _⟩
  | @snoc hist a b e _ hs ih =>
      rw [List.countP_append] at hroom
      obtain ⟨u, L, hu, hshadows, hspent⟩ := ih (by omega)
      rw [List.filterMap_append, List.countP_append]
      cases e with
      | call e =>
          have hcall := TxnWorld.answer_eq_some.mp hs.2.2
          obtain ⟨u', hanswer, hshadows'⟩ := hshadows.call hcall hs.1 (by omega)
          have hspends := hanswer.spends
          exact ⟨u', _, hu.snoc hanswer, hshadows', by omega⟩
      | compact l =>
          refine ⟨u, L, ?_, ?_, by omega⟩
          · rw [show [TxnEvent.compact l].filterMap TxnEvent.call? = [] from rfl, List.append_nil]
            exact hu
          · obtain ⟨records, hinv⟩ := hshadows.inv
            obtain ⟨htracked, hinv'⟩ := hshadows.tracked.compact hinv hs.2
            exact ⟨htracked, hinv', hshadows.shadow⟩

section Opened
variable {crc32 : Checksum} {l : Listing} {dir₀ dir : StoreDir} {store : Store}

theorem opened_shadows (hopen : Store.openStore crc32 l dir₀ = (.ok store, dir))
    (hbackup : dir.backup = none) (hordered : store.Ordered) :
    Shadows crc32 ⟨dir, store, SortedMap.empty⟩ ⟨dir, store, SortedMap.empty⟩
      (Ledger.holding store.get) := by
  obtain ⟨records, hinv, hindex⟩ := openStore_inv hopen hbackup
  have hnext : store.log.nextSeq = nextSeqOf records := hinv.disk.nextSeq
  have htracks : Tracks ⟨dir, store, SortedMap.empty⟩ (Ledger.holding store.get) :=
    ⟨(stateAfter_holding store.get).symm, fun _ => .none⟩
  refine ⟨htracks, ⟨records, hinv, ?_, hordered, ?_, ?_, ?_⟩,
    htracks, newestBelow_replay hindex hnext⟩
  · intro id t ht
    cases ht
  · intro id t ht
    cases ht
  · intro seq hseq
    have hlog : nextSeqOf records = seq + 1 := hnext.symm.trans hseq
    by_cases hne : records = []
    · rw [hne] at hlog
      cases hlog
    · obtain ⟨r, hr, htop⟩ := exists_top_seq hne
      refine ⟨r.key, r.version, ?_, ?_⟩
      · show r.version ∈ store.index.versions r.key
        rw [hindex, Index.versions_replay]
        exact Index.mem_added.mpr ⟨r, hr, rfl, rfl⟩
      · rw [Record.version_seq]
        omega
  · intro id t ht
    cases ht

end Opened

/-- Compactions are invisible to transactions in every run in which no transaction begins
while the newest version of some key is not below the counter. With the compactions taken out
the calls are still answered, unless the counter ends, and every call gets the same answer. -/
theorem compaction_invisible_to_transactions {crc32 : Checksum} {l : Listing} {store : Store}
    {dir₀ dir : StoreDir} (hopen : Store.openStore crc32 l dir₀ = (.ok store, dir))
    (hbackup : dir.backup = none) (hordered : store.Ordered) {hist : List TxnEvent} {w : TxnWorld}
    (hrun : Run (Under TxnWorld.AheadAtBegin (TxnWorld.TxnStep crc32))
      ⟨dir, store, SortedMap.empty⟩ hist w) :
    (store.log.nextSeq + hist.countP TxnEvent.isWrite < 2 ^ 64 →
      ∃ w', Run (TxnWorld.CallStep crc32) ⟨dir, store, SortedMap.empty⟩
        (hist.filterMap TxnEvent.call?) w') ∧
    ∀ calls w', Run (TxnWorld.CallStep crc32) ⟨dir, store, SortedMap.empty⟩ calls w' →
      calls.map Prod.fst = (hist.filterMap TxnEvent.call?).map Prod.fst →
      calls = hist.filterMap TxnEvent.call? := by
  have hstart := opened_shadows hopen hbackup hordered
  constructor
  · intro hroom
    obtain ⟨u, -, hu, -⟩ := shadow_run hstart hrun hroom
    exact ⟨u, hu⟩
  · intro calls w' hcalls hsame
    obtain ⟨L, hL, -⟩ := (txnStep_simulates crc32).run hrun ⟨hstart.tracked, hstart.inv⟩
    obtain ⟨L', hL', -⟩ := (callStep_simulates crc32).run hcalls hstart.shadow
    rw [List.filterMap_some] at hL'
    exact Ledger.Step.run_unique hL' hL hsame

theorem callRun_ahead {crc32 : Checksum} {w w' : TxnWorld} {calls : List (TxnCall × TxnReply)}
    (hbelow : w.store.NewestBelow) (hfits : ∀ e ∈ calls, CallFits e.1)
    (hrun : Run (TxnWorld.CallStep crc32) w calls w') :
    Run (Under TxnWorld.AheadAtBegin (TxnWorld.TxnStep crc32)) w (calls.map TxnEvent.call) w' ∧
      w'.store.NewestBelow := by
  induction hrun with
  | nil => exact ⟨.nil, hbelow⟩
  | @snoc calls a b e _ hs ih =>
      obtain ⟨hrun', hbelow'⟩ := ih (fun e he => hfits e (List.mem_append_left _ he))
      have hahead : a.AheadAtBegin (.call e) := by
        have hfit := hfits e (List.mem_append_right _ (List.mem_singleton_self e))
        obtain ⟨e, r⟩ := e
        cases e with
        | begin id => exact hbelow'
        | _ => exact hfit
      rw [List.map_append]
      exact ⟨hrun'.snoc ⟨hahead, trivial, TxnWorld.answer_eq_some.mpr hs⟩, hbelow'.step hs⟩

/-- Three transactions overlap. The second commits a write of the first one's key. -/
def overlap : List (TxnCall × TxnReply) :=
  [(.begin 1, .done), (.begin 2, .done), (.begin 3, .done), (.put 2 [1] [6], .done),
    (.commit 2, .done), (.put 1 [1] [7], .done), (.put 3 [2] [8], .done)]

/-- So the first one fails and the third one commits, also after a compaction. -/
def outcomes : List (TxnCall × TxnReply) := [(.commit 1, .conflict [1]), (.commit 3, .done)]

def compactedOverlap : List TxnEvent :=
  overlap.map TxnEvent.call ++ [.compact .ascending] ++ outcomes.map TxnEvent.call

/-- The store opened again after a put of the key, as `TransactionalStore::open` returns it. -/
def reopenedAfterPut : Option TxnWorld :=
  (StoreWorld.exec crc32Ieee StoreWorld.start (.write (.put [1] [5]))).bind (fun w =>
    match Store.openStore crc32Ieee .ascending w.dir with
    | (.ok s, dir) => some ⟨dir, s, SortedMap.empty⟩
    | _ => none)

theorem reopenedAfterPut_opened {w₀ : TxnWorld} (h : reopenedAfterPut = some w₀) :
    ∃ dir₀, Store.openStore crc32Ieee .ascending dir₀ = (.ok w₀.store, w₀.dir) ∧
      w₀.txns = SortedMap.empty ∧ w₀.dir.backup = none ∧ w₀.store.Ordered := by
  obtain ⟨w, hexec, hreopen⟩ := Option.bind_eq_some_iff.mp h
  have hput : StoreStep crc32Ieee StoreWorld.start (.write (.put [1] [5])) w :=
    ⟨by simp [StoreEvent.Allowed, Call.ops, LogOp.Fits], hexec⟩
  obtain ⟨store, dir, hopen, hbackup, hordered⟩ := reopened_ordered
    (openStore_empty crc32Ieee .ascending) rfl (fun _ => List.Pairwise.nil)
    (Run.nil.snoc hput) .ascending
  rw [hopen] at hreopen
  cases hreopen
  exact ⟨w.dir, hopen, rfl, hbackup, hordered⟩

/-- A compaction between the commits of overlapping transactions. -/
theorem compaction_between_commits :
    ∃ w₀ w w', reopenedAfterPut = some w₀ ∧
      Run (Under TxnWorld.AheadAtBegin (TxnWorld.TxnStep crc32Ieee)) w₀ compactedOverlap w ∧
      Run (TxnWorld.CallStep crc32Ieee) w₀ (overlap ++ outcomes) w' := by
  have hcheck : (reopenedAfterPut.bind (fun w₀ =>
      (overlap.foldlM (TxnWorld.answer crc32Ieee) w₀).bind (fun w₁ =>
        (w₁.follow crc32Ieee (.compact .ascending)).bind (fun w₂ =>
          outcomes.foldlM (TxnWorld.answer crc32Ieee) w₂)))).isSome = true := by
    decide +kernel
  obtain ⟨w, hw⟩ := Option.isSome_iff_exists.mp hcheck
  obtain ⟨w₀, hopened, hw⟩ := Option.bind_eq_some_iff.mp hw
  obtain ⟨w₁, hfirst, hw⟩ := Option.bind_eq_some_iff.mp hw
  obtain ⟨w₂, hcompact, hlast⟩ := Option.bind_eq_some_iff.mp hw
  obtain ⟨dir₀, hopen, htxns, hbackup, hordered⟩ := reopenedAfterPut_opened hopened
  obtain ⟨dir, store, txns⟩ := w₀
  cases htxns
  have hfits : ∀ e ∈ overlap, CallFits e.1 := by simp [overlap, CallFits, LogOp.Fits]
  obtain ⟨hbefore, -⟩ := callRun_ahead (opened_shadows hopen hbackup hordered).shadow.2 hfits
    (TxnWorld.run_of_answers hfirst)
  rw [outcomes, List.foldlM_cons] at hlast
  obtain ⟨w₃, hconflict, hlast⟩ := Option.bind_eq_some_iff.mp hlast
  rw [List.foldlM_cons] at hlast
  obtain ⟨w₄, hcommit, hlast⟩ := Option.bind_eq_some_iff.mp hlast
  cases hlast
  have hafter : Run (Under TxnWorld.AheadAtBegin (TxnWorld.TxnStep crc32Ieee)) w₂
      (outcomes.map TxnEvent.call) w :=
    .snoc (.snoc .nil ⟨trivial, trivial, hconflict⟩) ⟨trivial, trivial, hcommit⟩
  have hswapped : Run (Under TxnWorld.AheadAtBegin (TxnWorld.TxnStep crc32Ieee)) w₁
      [.compact .ascending] w₂ := .snoc .nil ⟨trivial, Listing.ascending_fair, hcompact⟩
  have hrun : Run (Under TxnWorld.AheadAtBegin (TxnWorld.TxnStep crc32Ieee))
      ⟨dir, store, SortedMap.empty⟩ compactedOverlap w := (hbefore.append hswapped).append hafter
  obtain ⟨hanswered, -⟩ := compaction_invisible_to_transactions hopen hbackup hordered hrun
  have hnext : reopenedAfterPut.all (fun w₀ => decide (w₀.store.log.nextSeq = 1)) = true := by
    decide +kernel
  rw [hopened, Option.all_some, decide_eq_true_eq] at hnext
  have hroom : store.log.nextSeq + compactedOverlap.countP TxnEvent.isWrite < 2 ^ 64 := by
    rw [hnext]
    decide
  obtain ⟨w', hw'⟩ := hanswered hroom
  exact ⟨_, w, w', hopened, hrun, hw'⟩

def putThenDelete : List (TxnCall × TxnReply) :=
  [(.begin 0, .done), (.put 0 [0] [7], .done), (.put 0 [1] [5], .done), (.commit 0, .done),
    (.begin 0, .done), (.delete 0 [1], .done), (.commit 0, .done)]

def putAgain (reply : TxnReply) : List (TxnCall × TxnReply) :=
  [(.begin 0, .done), (.put 0 [1] [9], .done), (.commit 0, reply)]

def compactedRun : List TxnEvent :=
  putThenDelete.map TxnEvent.call ++ TxnEvent.compact .ascending ::
    (putAgain (.conflict [1])).map TxnEvent.call

/-- A compaction after the delete sets the counter back below the tombstone: the only
open transaction fails on a key that nobody else has committed since its begin. -/
theorem compaction_causes_conflict :
    (∃ w, Run (TxnWorld.TxnStep crc32Ieee) TxnWorld.start compactedRun w) ∧
    (∃ w, Run (TxnWorld.CallStep crc32Ieee) TxnWorld.start
      (putThenDelete ++ putAgain .done) w) ∧
    (putThenDelete ++ putAgain .done).map Prod.fst =
      (compactedRun.filterMap TxnEvent.call?).map Prod.fst := by
  refine ⟨?_, ?_, rfl⟩
  · obtain ⟨w, hw⟩ : ∃ w, compactedRun.foldlM (TxnWorld.follow crc32Ieee) TxnWorld.start =
        some w := Option.isSome_iff_exists.mp (by decide +kernel)
    have hfair : ∀ e ∈ compactedRun, e.Fair := by
      intro e he
      rcases List.mem_append.mp he with he | he
      · obtain ⟨c, -, rfl⟩ := List.mem_map.mp he
        trivial
      · rcases List.mem_cons.mp he with rfl | he
        · exact Listing.ascending_fair
        · obtain ⟨c, -, rfl⟩ := List.mem_map.mp he
          trivial
    exact ⟨w, .of_foldlM hfair hw⟩
  · obtain ⟨w, hw⟩ : ∃ w, (putThenDelete ++ putAgain .done).foldlM
        (TxnWorld.answer crc32Ieee) TxnWorld.start = some w :=
      Option.isSome_iff_exists.mp (by decide +kernel)
    exact ⟨w, TxnWorld.run_of_answers hw⟩

end Sietch
