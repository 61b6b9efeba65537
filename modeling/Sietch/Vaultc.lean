import Sietch.Base.Utf8
import Sietch.BatchCrash
import Sietch.LogSegments

/-! The command line tool. Every command is a process that opens the store, does one thing and
ends, by itself, with an error or killed. Over any sequence of processes the directory is a
table of texts, and a torn tail is reported once. -/
namespace Sietch
open ByteString Transition Utf8

def Whole (crc32 : Checksum) (dir : SegmentDir) : Prop := ∀ f ∈ dir.entries, ¬ Torn crc32 f.2

section Single
variable {crc32 : Checksum} {dir : SegmentDir} {log : Log} {old : List (Nat × List Record)}
  {active records : List Record}

theorem Running.whole (h : Running crc32 dir log old active) : Whole crc32 dir := by
  have hall : ∀ rs : List Record, (∀ r ∈ rs, r.Fits) → ¬ Torn crc32 (encodeAll crc32 rs) := by
    intro rs hrs
    have hrecover := recover_encodeAll crc32 hrs (inert_nil crc32)
    rw [List.append_nil] at hrecover
    simp [Torn, hrecover]
  intro f hf
  rw [h.disk.entries] at hf
  rcases List.mem_append.mp hf with hf | hf
  · obtain ⟨s, hs, rfl⟩ := List.mem_map.mp hf
    apply hall
    intro r hr
    exact h.disk.fits r (List.mem_append_left _ (List.mem_flatMap.mpr ⟨s, hs, hr⟩))
  · obtain rfl := List.mem_singleton.mp hf
    rw [List.append_nil]
    exact hall _ h.disk.active_fits

/-- A batch that is in the file with all its bytes looks like an acknowledged one. -/
theorem Running.appendBatch_all (h : Running crc32 dir log old active) {io : Io}
    {ops : List LogOp} (hn : log.nextSeq + ops.length < 2 ^ 64)
    (hall : (encodeAll crc32 (Log.numberRecords log.nextSeq ops)).length ≤
      io.budget (encodeAll crc32 (Log.numberRecords log.nextSeq ops)).length) :
    (log.appendBatch crc32 io dir ops).2.2 = (log.appendBatch crc32 .done dir ops).2.2 := by
  obtain ⟨old', active', hr, -⟩ := h.rollOver (Log.totalLen (Log.numberRecords log.nextSeq ops))
  rcases hroll : log.rollOverIfNeeded dir (Log.totalLen (Log.numberRecords log.nextSeq ops)) with
    ⟨log', dir'⟩
  rw [hroll] at hr
  have hfile := Segment.appendBatch_disk crc32 hr.file hr.pos
  rw [Log.appendBatch_files crc32 io hn hroll, Log.appendBatch_files crc32 .done hn hroll,
    (hfile io _).1, (hfile .done _).1, List.take_of_length_le hall]
  simp only [Io.budget, List.take_length]

/-- A call for one record, however far it gets: the record is there or not, and a torn tail is
left only if it is not. -/
theorem Holds.single (h : Holds crc32 dir (some log) records) {op : LogOp} (hop : op.Fits)
    (io : Io) :
    Holds crc32 (log.appendBatch crc32 io dir [op]).2.2 none records ∨
      Holds crc32 (log.appendBatch crc32 io dir [op]).2.2 none
          (records ++ [op.record log.nextSeq]) ∧
        Whole crc32 (log.appendBatch crc32 io dir [op]).2.2 := by
  have hops : ∀ o ∈ [op], o.Fits := by simpa using hop
  obtain ⟨old, active, hr, rfl⟩ := h.running
  by_cases hn : log.nextSeq + [op].length < 2 ^ 64
  · by_cases hall : (encodeAll crc32 (Log.numberRecords log.nextSeq [op])).length ≤
        io.budget (encodeAll crc32 (Log.numberRecords log.nextSeq [op])).length
    · obtain ⟨log', dir', old', active', happend, hr', hrecords, -⟩ :=
        hr.appendBatch_done hops hn
      rw [hr.appendBatch_all hn hall, happend]
      right
      refine ⟨?_, hr'.whole⟩
      have hrest := (Holds.live hr').rest
      rw [hrecords] at hrest
      exact hrest
    · obtain ⟨old', id', active', tail, hdisk, hrecords⟩ := hr.appendBatch_disk io hops hn
      have hnone : wholeRecords (Log.numberRecords log.nextSeq [op])
          (io.budget (encodeAll crc32 (Log.numberRecords log.nextSeq [op])).length) = 0 := by
        simp only [Log.numberRecords, encodeAll_cons, encodeAll_nil, List.append_nil,
          Record.length_encode] at hall ⊢
        simp only [wholeRecords, if_neg hall]
      rw [hnone, List.take_zero, List.append_nil] at hrecords
      left
      rw [← hrecords]
      exact .resting hdisk
  · have hsame : (log.appendBatch crc32 io dir [op]).2.2 = dir := by
      rw [Log.appendBatch, if_pos (not_lt.mp hn)]
    rw [hsame]
    exact .inl h.rest

end Single

namespace Vaultc

inductive Command where
  | put (key value : Text)
  | get (key : Text)
  | delete (key : Text)
  | scan (keyPrefix : Text)
  | status
  deriving DecidableEq

def ascii (s : String) : Bytes := s.toList.map (fun c => Fin.ofNat 256 c.toNat)

/-- The lines that `main` prints once the store is open. -/
def respond (crc32 : Checksum) (io : Io) (dir : StoreDir) (s : Store) :
    Command → Outcome StoreError (List Bytes) × StoreDir
  | .put key value =>
      let r := s.put crc32 io dir key.val value.val
      (r.1 >>= fun _ => .ok [ascii "ok"], r.2.2)
  | .get key =>
      (.ok [match s.get key.val with
        | some v => lossy v
        | none => ascii "(not found)"], dir)
  | .delete key =>
      let r := s.delete crc32 io dir key.val
      (r.1 >>= fun _ => .ok [ascii "ok"], r.2.2)
  | .scan keyPrefix =>
      (.ok ((s.scan keyPrefix.val).map fun e => lossy e.1 ++ ascii " = " ++ lossy e.2), dir)
  | .status =>
      (.ok [ascii "recovered_from_torn_tail: " ++
        ascii (if s.recoveredFromTornTail then "true" else "false")], dir)

def main (crc32 : Checksum) (io : Io) (l : Listing) (dir : StoreDir) (c : Command) :
    Outcome StoreError (List Bytes) × StoreDir :=
  match Store.openStore crc32 l dir with
  | (.ok s, dir') => respond crc32 io dir' s c
  | (.err e, dir') => (.err e, dir')
  | (.panic, dir') => (.panic, dir')

def Command.op : Command → Option LogOp
  | .put key value => some (.put key.val value.val)
  | .delete key => some (.delete key.val)
  | _ => none

def Command.Fits (c : Command) : Prop := ∀ op ∈ c.op, op.Fits

/-- A process that ends as it should, with what it printed, or one that does not. -/
inductive Event where
  | exited (c : Command) (lines : List Bytes)
  | interrupted (c : Command)

/-- A process may stop with an error or a panic; be killed before it changes anything, or with
the store open; or be killed inside its write, with `io` saying how far that got. -/
inductive Step (crc32 : Checksum) : StoreDir → Event → StoreDir → Prop where
  | exited {dir l c lines dir'} : c.Fits → main crc32 .done l dir c = (.ok lines, dir') →
      Step crc32 dir (.exited c lines) dir'
  | failed {dir io l c r dir'} : c.Fits → main crc32 io l dir c = (r, dir') →
      (∀ lines, r ≠ .ok lines) → Step crc32 dir (.interrupted c) dir'
  | killedFirst {dir c} : Step crc32 dir (.interrupted c) dir
  | killedOpened {dir l c} :
      Step crc32 dir (.interrupted c) (Store.openStore crc32 l dir).2
  | killedWriting {dir io l c op s dir'} : c.Fits → c.op = some op →
      Store.openStore crc32 l dir = (.ok s, dir') → Step crc32 dir (.interrupted c)
        { dir' with main := (s.log.appendBatch crc32 io dir'.main [op]).2.2 }

/-- The table, and whether the next process finds a torn tail. -/
structure Vault where
  entries : SortedMap Text Text
  torn : Bool

def Vault.start : Vault := ⟨SortedMap.empty, false⟩

def Command.effect (m : SortedMap Text Text) : Command → SortedMap Text Text
  | .put key value => m.insert key value
  | .delete key => m.erase key
  | _ => m

def Vault.answer (v : Vault) : Command → List Bytes
  | .put _ _ | .delete _ => [ascii "ok"]
  | .get key => [((v.entries.get? key).map Subtype.val).getD (ascii "(not found)")]
  | .scan keyPrefix => (v.entries.entries.filter fun e => keyPrefix.val.isPrefixOf e.1.val).map
      fun e => e.1.val ++ ascii " = " ++ e.2.val
  | .status => [ascii "recovered_from_torn_tail: " ++ ascii (if v.torn then "true" else "false")]

/-- A process that ends well answers from the table and leaves no torn tail. Another one has
done its whole work, or none of it; then a torn tail can be left by a write, or from before. -/
inductive VaultStep : Vault → Event → Vault → Prop where
  | exited {v c} : VaultStep v (.exited c (v.answer c)) ⟨c.effect v.entries, false⟩
  | done {v c} : VaultStep v (.interrupted c) ⟨c.effect v.entries, false⟩
  | notDone {v c torn} : (torn = true → v.torn = true ∨ c.op.isSome) →
      VaultStep v (.interrupted c) ⟨v.entries, torn⟩

def shown (m : SortedMap Text Text) : KeyState :=
  fun key => if h : valid key = true then (m.get? ⟨key, h⟩).map Subtype.val else none

section Shown
variable (m : SortedMap Text Text)

@[simp] theorem shown_text (key : Text) : shown m key.val = (m.get? key).map Subtype.val := by
  simp [shown, key.property]

theorem shown_effect (c : Command) {op : LogOp} (hop : c.op = some op) :
    shown (c.effect m) = (shown m).apply op := by
  funext k
  by_cases hk : valid k = true
  · have htext : ∀ key : Text, (⟨k, hk⟩ : Text) = key ↔ k = key.val := fun key => Subtype.ext_iff
    cases c with
    | put key value =>
        cases hop
        simp only [shown, dif_pos hk, Command.effect, SortedMap.get?_insert, KeyState.apply,
          Function.update_apply, LogOp.key, LogOp.newValue, htext]
        split <;> rfl
    | delete key =>
        cases hop
        simp only [shown, dif_pos hk, Command.effect, SortedMap.get?_erase, KeyState.apply,
          Function.update_apply, LogOp.key, LogOp.newValue, htext]
        split <;> rfl
    | _ => cases hop
  · have hother : ∀ key : Text, k ≠ key.val := by
      rintro key rfl
      exact hk key.property
    cases c with
    | put key value =>
        cases hop
        simp [shown, dif_neg hk, KeyState.apply, LogOp.key, hother key]
    | delete key =>
        cases hop
        simp [shown, dif_neg hk, KeyState.apply, LogOp.key, hother key]
    | _ => cases hop

theorem effect_read {c : Command} (hop : c.op = none) : c.effect m = m := by
  cases c with
  | put key value => cases hop
  | delete key => cases hop
  | _ => rfl

theorem scan_shown {s : Store} (hs : s.get = shown m) (keyPrefix : Bytes) :
    s.scan keyPrefix = (m.entries.filter fun e => keyPrefix.isPrefixOf e.1.val).map
      fun e => (e.1.val, e.2.val) := by
  have hasc : SortedMap.Ascending ((m.entries.filter fun e => keyPrefix.isPrefixOf e.1.val).map
      fun e => (e.1.val, e.2.val)) := by
    unfold SortedMap.Ascending
    rw [List.pairwise_map]
    exact (m.ascending.filter _).imp fun h => h
  apply (s.scan_ascending keyPrefix).eq_of_mem hasc
  rintro ⟨k, v⟩
  rw [Store.mem_scan, hs, List.mem_map]
  constructor
  · rintro ⟨hinit, hget⟩
    unfold shown at hget
    split at hget
    · rename_i hk
      obtain ⟨value, hvalue, rfl⟩ := Option.map_eq_some_iff.mp hget
      refine ⟨(⟨k, hk⟩, value), List.mem_filter.mpr ⟨SortedMap.mem_entries.mpr hvalue, ?_⟩, rfl⟩
      exact List.isPrefixOf_iff_prefix.mpr hinit
    · cases hget
  · rintro ⟨⟨key, value⟩, hmem, heq⟩
    obtain ⟨hmem, hinit⟩ := List.mem_filter.mp hmem
    cases heq
    refine ⟨List.isPrefixOf_iff_prefix.mp hinit, ?_⟩
    rw [shown_text, SortedMap.mem_entries.mp hmem]
    rfl

end Shown

structure Inv (crc32 : Checksum) (dir : StoreDir) (v : Vault) : Prop where
  clean : dir.Clean
  disk : ∃ records, Holds crc32 dir.main none records ∧
    (Index.replay records).live = shown v.entries
  torn : v.torn = true ↔ ¬ Whole crc32 dir.main

/-- An open store on the table, with the torn tail cut off. -/
structure Ready (crc32 : Checksum) (dir : StoreDir) (s : Store) (v : Vault) : Prop where
  clean : dir.Clean
  get : s.get = shown v.entries
  torn : s.recoveredFromTornTail = v.torn
  whole : Whole crc32 dir.main
  disk : ∃ records, Holds crc32 dir.main (some s.log) records ∧ s.index = Index.replay records

variable {crc32 : Checksum} {dir dir' : StoreDir} {s : Store} {v : Vault} {c : Command}

theorem Inv.opens (h : Inv crc32 dir v) (l : Listing) :
    ∃ s dir', Store.openStore crc32 l dir = (.ok s, dir') ∧ Ready crc32 dir' s v := by
  obtain ⟨records, hh, hlive⟩ := h.disk
  obtain ⟨s, dir', hopen, hinv, hindex⟩ := openStore_holds h.clean hh l
  refine ⟨s, dir', hopen, hinv.clean, ?_, ?_, ?_, records, hinv.disk, hindex⟩
  · rw [Store.get_live, hindex, hlive]
  · have hreport := hopen
    simp only [Store.openStore, settle_clean h.clean] at hreport
    split at hreport
    · rename_i log report main hlog
      cases hreport
      have htorn := (open_accepts hlog).2.torn
      rw [Bool.eq_iff_iff, htorn, h.torn]
      simp [Whole]
    · cases hreport
    · cases hreport
  · obtain ⟨old, active, hr, -⟩ := hinv.disk.running
    exact hr.whole

namespace Ready

theorem inv (h : Ready crc32 dir s v) : Inv crc32 dir ⟨v.entries, false⟩ := by
  obtain ⟨records, hh, hindex⟩ := h.disk
  refine ⟨h.clean, ⟨records, hh.rest, ?_⟩, ?_⟩
  · rw [← hindex, ← Store.get_live, h.get]
  · simpa using h.whole

theorem written (h : Ready crc32 dir s v) (hfits : c.Fits) {op : LogOp} (hop : c.op = some op)
    (io : Io) :
    ∃ v', VaultStep v (.interrupted c) v' ∧
      Inv crc32 { dir with main := (s.log.appendBatch crc32 io dir.main [op]).2.2 } v' := by
  obtain ⟨records, hh, hindex⟩ := h.disk
  have hlive : (Index.replay records).live = shown v.entries := by
    rw [← hindex, ← Store.get_live, h.get]
  rcases hh.single (hfits op hop) io with hnone | ⟨hdone, hwhole⟩
  · classical
    refine ⟨⟨v.entries, decide (¬ Whole crc32 _)⟩, .notDone ?_, h.clean, ⟨records, hnone, hlive⟩,
      decide_eq_true_iff⟩
    intro _
    right
    rw [hop]
    rfl
  · refine ⟨⟨c.effect v.entries, false⟩, .done, h.clean, ⟨_, hdone, ?_⟩, ?_⟩
    · have happly := Index.live_pushAll (Index.replay records) s.log.nextSeq [op]
      rw [← Index.replay_append] at happly
      rw [shown_effect _ c hop, ← hlive]
      exact happly
    · simpa using hwhole

theorem reads (h : Ready crc32 dir s v) (hop : c.op = none) (io : Io) :
    respond crc32 io dir s c = (.ok (v.answer c), dir) := by
  cases c with
  | put key value => cases hop
  | delete key => cases hop
  | get key =>
      simp only [respond, Vault.answer, h.get, shown_text]
      cases v.entries.get? key with
      | none => rfl
      | some value => simp [lossy_valid value.property]
  | scan keyPrefix =>
      simp only [respond, Vault.answer, scan_shown v.entries h.get, List.map_map]
      congr 2
      apply List.map_congr_left
      intro e _
      simp [lossy_valid e.1.property, lossy_valid e.2.property]
  | status => simp only [respond, Vault.answer, h.torn]

/-- A command that writes does so by one append. It prints its line if there was a number left
for the record. -/
theorem writes (s : Store) (v : Vault) {op : LogOp} (hop : c.op = some op) (io : Io) :
    ∃ r, respond crc32 io dir s c =
        (r, { dir with main := (s.log.appendBatch crc32 io dir.main [op]).2.2 }) ∧
      ∀ lines, r = .ok lines → lines = v.answer c ∧ s.log.nextSeq + 1 < 2 ^ 64 := by
  have happly : ∃ r : Outcome StoreError Unit, ∃ s', s.applyBatch crc32 io dir [op] =
      (r, s', { dir with main := (s.log.appendBatch crc32 io dir.main [op]).2.2 }) ∧
        (r = .ok () → s.log.nextSeq + 1 < 2 ^ 64) := by
    rw [Store.applyBatch]
    rcases happend : s.log.appendBatch crc32 io dir.main [op] with ⟨out, log, main⟩
    cases out with
    | ok records => exact ⟨_, _, rfl, fun _ => (Log.appendBatch_ok happend).2⟩
    | err e => exact ⟨_, _, rfl, fun h => by cases h⟩
    | panic => exact ⟨_, _, rfl, fun h => by cases h⟩
  obtain ⟨r, s', hr, hroom⟩ := happly
  have hline : ∀ lines, (r >>= fun _ => Outcome.ok [ascii "ok"]) = .ok lines →
      lines = [ascii "ok"] ∧ s.log.nextSeq + 1 < 2 ^ 64 := by
    intro lines hlines
    obtain ⟨_, hok, hlines⟩ := Outcome.bind_eq_ok.mp hlines
    cases hlines
    exact ⟨rfl, hroom hok⟩
  cases c with
  | put key value =>
      cases hop
      exact ⟨_, by simp only [respond, Store.put_eq, hr], hline⟩
  | delete key =>
      cases hop
      exact ⟨_, by simp only [respond, Store.delete_eq, hr], hline⟩
  | _ => cases hop

theorem acked (h : Ready crc32 dir s v) (hfits : c.Fits) {op : LogOp} (hop : c.op = some op)
    (hn : s.log.nextSeq + 1 < 2 ^ 64) :
    Inv crc32 { dir with main := (s.log.appendBatch crc32 .done dir.main [op]).2.2 }
      ⟨c.effect v.entries, false⟩ := by
  obtain ⟨records, hh, hindex⟩ := h.disk
  obtain ⟨old, active, hr, rfl⟩ := hh.running
  have hops : ∀ o ∈ [op], o.Fits := by simpa using hfits op hop
  obtain ⟨log', main, old', active', happend, hr', hrecords, -⟩ := hr.appendBatch_done hops hn
  have hlive := Index.live_pushAll s.index s.log.nextSeq [op]
  rw [happend]
  refine ⟨h.clean, ⟨_, (Holds.live hr').rest, ?_⟩, ?_⟩
  · rw [hrecords, Index.replay_append, ← hindex, hlive, ← Store.get_live, h.get,
      shown_effect _ c hop]
    rfl
  · simpa using hr'.whole

end Ready

theorem Inv.start (crc32 : Checksum) : Inv crc32 StoreDir.empty Vault.start := by
  refine ⟨⟨rfl, rfl, rfl, rfl⟩, ⟨[], .fresh, ?_⟩, ?_⟩
  · funext key
    simp [shown, Vault.start, Index.live, Index.replay, Index.pushAll, Index.versions]
  · simp [Vault.start, Whole, StoreDir.empty, SortedMap.empty]

theorem Inv.step {e : Event} (h : Inv crc32 dir v) (hs : Step crc32 dir e dir') :
    ∃ v', VaultStep v e v' ∧ Inv crc32 dir' v' := by
  cases hs with
  | @exited l c lines _ hfits hmain =>
      obtain ⟨s, d, hopen, hready⟩ := h.opens l
      simp only [main, hopen] at hmain
      cases hop : c.op with
      | none =>
          rw [hready.reads hop] at hmain
          cases hmain
          refine ⟨_, .exited, ?_⟩
          rw [effect_read _ hop]
          exact hready.inv
      | some op =>
          obtain ⟨r, hrespond, hlines⟩ := Ready.writes s v hop .done
          rw [hrespond] at hmain
          cases hmain
          obtain ⟨rfl, hn⟩ := hlines lines rfl
          exact ⟨_, .exited, hready.acked hfits hop hn⟩
  | @failed io l c r _ hfits hmain hnot =>
      obtain ⟨s, d, hopen, hready⟩ := h.opens l
      simp only [main, hopen] at hmain
      cases hop : c.op with
      | none =>
          rw [hready.reads hop] at hmain
          cases hmain
          exact absurd rfl (hnot _)
      | some op =>
          obtain ⟨r', hrespond, -⟩ := Ready.writes s v hop io
          rw [hrespond] at hmain
          cases hmain
          exact hready.written hfits hop io
  | killedFirst => exact ⟨v, .notDone .inl, h⟩
  | @killedOpened l c =>
      obtain ⟨s, d, hopen, hready⟩ := h.opens l
      rw [hopen]
      exact ⟨_, .notDone (fun hfalse => by cases hfalse), hready.inv⟩
  | @killedWriting io l c op s d hfits hop hopen =>
      obtain ⟨s', d', hopen', hready⟩ := h.opens l
      rw [hopen] at hopen'
      cases hopen'
      exact hready.written hfits hop io

theorem Inv.run {events : List Event} (hrun : Run (Step crc32) StoreDir.empty events dir) :
    ∃ v, Run VaultStep Vault.start events v ∧ Inv crc32 dir v := by
  induction hrun with
  | nil => exact ⟨_, .nil, .start crc32⟩
  | snoc _ hstep ih =>
      obtain ⟨v, hv, hinv⟩ := ih
      obtain ⟨v', hstep', hinv'⟩ := hinv.step hstep
      exact ⟨v', hv.snoc hstep', hinv'⟩

end Vaultc

/-- The tool is a table of texts. Whatever processes ran, and however they ended, their output
is that of a table on which every command that ended well was carried out, and of the others
each was or was not. The table says that the tail is torn exactly if some file goes on after its
records, which only a write that was not carried out can leave. The next command that reads
answers from that table. -/
theorem vaultc_refines {crc32 : Checksum} {events : List Vaultc.Event} {dir : StoreDir}
    (hrun : Run (Vaultc.Step crc32) StoreDir.empty events dir) :
    ∃ v, Run Vaultc.VaultStep Vaultc.Vault.start events v ∧
      (v.torn = true ↔ ¬ Whole crc32 dir.main) ∧
      ∀ (l : Listing) (c : Vaultc.Command), c.op = none →
        ∃ dir', Vaultc.main crc32 .done l dir c = (.ok (v.answer c), dir') ∧
          Run Vaultc.VaultStep Vaultc.Vault.start (events ++ [.exited c (v.answer c)])
            ⟨v.entries, false⟩ := by
  obtain ⟨v, hv, hinv⟩ := Vaultc.Inv.run hrun
  refine ⟨v, hv, hinv.torn, ?_⟩
  intro l c hop
  obtain ⟨s, dir', hopen, hready⟩ := hinv.opens l
  refine ⟨dir', ?_, ?_⟩
  · rw [Vaultc.main, hopen]
    exact hready.reads hop .done
  · have hstep : Vaultc.VaultStep v (.exited c (v.answer c)) ⟨c.effect v.entries, false⟩ :=
      .exited
    rw [Vaultc.effect_read _ hop] at hstep
    exact hv.snoc hstep

namespace Vaultc

def letter (n : Nat) (h : valid [Fin.ofNat 256 n] = true) : Text := ⟨[Fin.ofNat 256 n], h⟩

/-- A put; a second one that does not end; and `status`, which tells of a torn tail. -/
def killedPut : List Event :=
  [.exited (.put (letter 107 rfl) (letter 118 rfl)) [ascii "ok"],
    .interrupted (.put (letter 107 rfl) (letter 119 rfl)),
    .exited .status [ascii "recovered_from_torn_tail: " ++ ascii "true"]]

end Vaultc

set_option maxRecDepth 100000 in
/-- The second put is killed at its ninth byte; the first value is still there. -/
theorem vaultc_refines_killed_put :
    ∃ dir v, Run (Vaultc.Step crc32Ieee) StoreDir.empty Vaultc.killedPut dir ∧
      Run Vaultc.VaultStep Vaultc.Vault.start Vaultc.killedPut v ∧
      (v.torn = true ↔ ¬ Whole crc32Ieee dir.main) ∧
      v.answer (.get (Vaultc.letter 107 rfl)) = [[118]] := by
  have hfits : ∀ n h, (Vaultc.Command.put (Vaultc.letter 107 rfl) (Vaultc.letter n h)).Fits := by
    simp [Vaultc.Command.Fits, Vaultc.Command.op, LogOp.Fits, Vaultc.letter]
  have hone : Run (Vaultc.Step crc32Ieee) StoreDir.empty (Vaultc.killedPut.take 1) _ :=
    .snoc .nil (.exited (l := .ascending) (hfits 118 rfl) rfl)
  have htwo : Run (Vaultc.Step crc32Ieee) StoreDir.empty (Vaultc.killedPut.take 2) _ :=
    .snoc hone (@Vaultc.Step.killedWriting crc32Ieee _ (.writeFails 9) .ascending _ _ _ _
      (hfits 119 rfl) rfl rfl)
  have hrun : Run (Vaultc.Step crc32Ieee) StoreDir.empty Vaultc.killedPut _ :=
    .snoc htwo (.exited (l := .ascending) (by simp [Vaultc.Command.Fits, Vaultc.Command.op]) rfl)
  obtain ⟨v, hv, htorn, hreads⟩ := vaultc_refines hrun
  refine ⟨_, v, hrun, hv, htorn, ?_⟩
  obtain ⟨dir', hmain, -⟩ := hreads .ascending (.get (Vaultc.letter 107 rfl)) rfl
  have hprinted := congrArg Prod.fst hmain
  exact (Outcome.ok.inj hprinted).symm

end Sietch
