import Sietch.Base.Isolation

/-! Serial histories. Snapshot isolation alone allows write skew; when every transaction also
writes the keys that it reads from its snapshot, a history has the answers of the serial one in
which the committed transactions run one after another, in commit order. -/
namespace Isolation
open Transition
variable {I K V : Type}

abbrev Answered (I K V : Type) := Event I K V × Reply K V

def Event.client : Event I K V → I
  | .begin id | .get id _ | .put id _ _ | .delete id _ | .commit id | .abort id => id

def Event.key? : Event I K V → Option K
  | .put _ k _ | .delete _ k => some k
  | _ => none

def writtenKeys (script : List (Answered I K V)) : List K := script.filterMap (fun e => e.1.key?)

/-- The keys that a script reads before it writes them: what it takes from the snapshot. -/
def fetchedKeys [DecidableEq K] : List K → List (Answered I K V) → List K
  | _, [] => []
  | own, (.get _ k, _) :: script =>
      if k ∈ own then fetchedKeys own script else k :: fetchedKeys own script
  | own, e :: script => fetchedKeys (own ++ e.1.key?.toList) script

/-- The calls of every open transaction, and those of the committed ones in commit order. -/
structure Scripts (I K V : Type) where
  current : I → List (Answered I K V)
  finished : List (Answered I K V)

namespace Scripts
variable [DecidableEq I]

def empty : Scripts I K V := ⟨fun _ => [], []⟩

def note (s : Scripts I K V) (e : Answered I K V) : Scripts I K V :=
  let script := s.current e.1.client ++ [e]
  match e with
  | (.commit id, .done) => ⟨Function.update s.current id [], s.finished ++ script⟩
  | (.commit id, _) => { s with current := Function.update s.current id [] }
  | (.abort id, _) => { s with current := Function.update s.current id [] }
  | _ => { s with current := Function.update s.current e.1.client script }

/-- A commit by a transaction that has written all keys it took from its snapshot. -/
def writesReads [DecidableEq K] (s : Scripts I K V) : Answered I K V → Bool
  | (.commit id, .done) =>
      (fetchedKeys [] (s.current id)).all (fun k => decide (k ∈ writtenKeys (s.current id)))
  | _ => true

end Scripts

variable [DecidableEq I]

/-- The committed transactions of the history, one after another. -/
def serialize (hist : List (Answered I K V)) : List (Answered I K V) :=
  (hist.foldl Scripts.note Scripts.empty).finished

/-- Every transaction that commits has written the keys it took from its snapshot. -/
def WritesReads [DecidableEq K] : Scripts I K V → List (Answered I K V) → Bool
  | _, [] => true
  | s, e :: hist => s.writesReads e && WritesReads (s.note e) hist

variable [DecidableEq K]

theorem WritesReads_snoc (s : Scripts I K V) (hist : List (Answered I K V)) (e : Answered I K V) :
    WritesReads s (hist ++ [e]) =
      (WritesReads s hist && (hist.foldl Scripts.note s).writesReads e) := by
  induction hist generalizing s with
  | nil => simp [WritesReads]
  | cons e' hist ih =>
      simp only [List.cons_append, WritesReads, ih, List.foldl_cons, Bool.and_assoc]

omit [DecidableEq I] in
theorem fetchedKeys_snoc (own : List K) (script : List (Answered I K V)) (e : Answered I K V) :
    fetchedKeys own (script ++ [e]) =
      fetchedKeys own script ++ fetchedKeys (own ++ writtenKeys script) [e] := by
  induction script generalizing own with
  | nil => simp [fetchedKeys, writtenKeys]
  | cons e' script ih =>
      obtain ⟨e', r'⟩ := e'
      have hwritten : own ++ writtenKeys ((e', r') :: script) =
          own ++ e'.key?.toList ++ writtenKeys script := by
        cases h : e'.key? with
        | none => simp [writtenKeys, h]
        | some k => simp [writtenKeys, h]
      rw [hwritten, List.cons_append]
      cases e' with
      | get id k =>
          have hkey : own ++ (Event.get id k : Event I K V).key?.toList = own := by
            simp [Event.key?]
          rw [hkey, fetchedKeys, fetchedKeys, ih]
          split <;> rfl
      | _ => exact ih _

omit [DecidableEq I] [DecidableEq K] in
theorem writtenKeys_snoc (script : List (Answered I K V)) (e : Answered I K V) :
    writtenKeys (script ++ [e]) = writtenKeys script ++ e.1.key?.toList := by
  unfold writtenKeys
  rw [List.filterMap_append]
  cases h : e.1.key? with
  | none => simp [h]
  | some k => simp [h]

omit [DecidableEq I] [DecidableEq K] in
theorem stateAfter_congr {ts us : List (Txn K V)} (h : ts.map Txn.writes = us.map Txn.writes) :
    stateAfter ts = stateAfter us := by
  have hfold : ∀ ts : List (Txn K V), stateAfter ts =
      (ts.map Txn.writes).foldl (fun state writes => overlay writes state) (fun _ => none) := by
    intro ts
    rw [List.foldl_map]
    rfl
  rw [hfold, hfold, h]

section Replay
variable [LT K]

def quiet (committed : List (Txn K V)) : Ledger I K V := ⟨committed, fun _ => none⟩

/-- One transaction is open, and nothing was committed since its begin. -/
def solo (committed : List (Txn K V)) (id : I) (writes : Writes K V) : Ledger I K V :=
  ⟨committed, Function.update (fun _ => none) id (some ⟨committed.length, writes⟩)⟩

/-- What the calls of an open transaction amount to: they get the same answers again wherever
the keys taken from the snapshot have the values they had there. -/
structure Scripted (script : List (Answered I K V)) (id : I) (writes : Writes K V)
    (base : K → Option V) : Prop where
  written : ∀ k, (writes k).isSome ↔ k ∈ writtenKeys script
  replays : ∀ committed, (∀ k ∈ fetchedKeys [] script, stateAfter committed k = base k) →
    Run Ledger.Step (quiet committed) script (solo committed id writes)

variable {script : List (Answered I K V)} {id : I} {writes : Writes K V} {base : K → Option V}

omit [LT K] [DecidableEq K] in
theorem solo_active (committed : List (Txn K V)) :
    (solo committed id writes : Ledger I K V).active id = some ⟨committed.length, writes⟩ := by
  simp [solo]

theorem scripted_begin (id : I) (base : K → Option V) :
    Scripted [(.begin id, .done)] id (fun _ => none) base where
  written := by simp [writtenKeys, Event.key?]
  replays := by
    intro committed _
    exact Run.nil.snoc ⟨rfl, rfl⟩

theorem Scripted.get (h : Scripted script id writes base) (k : K) :
    Scripted (script ++ [(.get id k, .value (overlay writes base k))]) id writes base where
  written := by
    intro j
    rw [writtenKeys_snoc, h.written j]
    simp [Event.key?]
  replays := by
    intro committed hbase
    rw [fetchedKeys_snoc] at hbase
    refine (h.replays committed (fun j hj => hbase j (List.mem_append_left _ hj))).snoc ⟨?_, rfl⟩
    refine ⟨_, solo_active committed, ?_⟩
    rw [Txn.view]
    show overlay writes base k = overlay writes (stateAfter (committed.take committed.length)) k
    rw [List.take_length]
    unfold overlay
    cases hk : writes k with
    | some v => rfl
    | none =>
        -- the key is not an own write, so that it is one of those taken from the snapshot
        have hfetched : k ∉ writtenKeys script := by
          rw [← h.written k, hk]
          simp
        have hsame := hbase k (by simp [fetchedKeys, hfetched])
        rw [Option.getD_none, Option.getD_none, hsame]

theorem Scripted.write (h : Scripted script id writes base) (k : K) (v : Option V)
    {e : Event I K V} (hkey : e.key? = some k) (hfetched : ∀ own, fetchedKeys own [(e, .done)] = [])
    (hpermits : ∀ L : Ledger I K V, L.Permits (e, .done) ↔ ∃ t, L.active id = some t)
    (hnote : ∀ L : Ledger I K V, L.note (e, .done) = L.write id k v) :
    Scripted (script ++ [(e, .done)]) id (Function.update writes k (some v)) base where
  written := by
    intro j
    rw [writtenKeys_snoc]
    by_cases hj : j = k
    · simp [hj, hkey]
    · simp [hj, hkey, h.written j]
  replays := by
    intro committed hbase
    rw [fetchedKeys_snoc, hfetched, List.append_nil] at hbase
    refine (h.replays committed hbase).snoc ⟨(hpermits _).mpr ⟨_, solo_active committed⟩, ?_⟩
    rw [hnote, Ledger.write, solo_active]
    simp [solo]

theorem Scripted.commit (h : Scripted script id writes base) {committed : List (Txn K V)}
    (hbase : ∀ k ∈ fetchedKeys [] script, stateAfter committed k = base k) :
    Run Ledger.Step (quiet committed) (script ++ [(.commit id, .done)])
      (quiet (committed ++ [⟨committed.length, writes⟩])) := by
  refine (h.replays committed hbase).snoc ⟨⟨_, solo_active committed, ?_⟩, ?_⟩
  · rintro k ⟨-, c, hc, -⟩
    simp [solo] at hc
  · simp only [Ledger.note, solo_active, Ledger.close]
    simp [solo, quiet]

end Replay

/-- A client without a transaction has no calls; one with a transaction can replay its calls
from the state of its snapshot. -/
inductive Follows [LT K] (committed : List (Txn K V)) (id : I) :
    Option (Txn K V) → List (Answered I K V) → Prop where
  | idle : Follows committed id none []
  | running {t script} : t.began ≤ committed.length →
      Scripted script id t.writes (stateAfter (committed.take t.began)) →
      Follows committed id (some t) script

/-- The history so far can be replayed: its committed transactions serially, and every open
transaction on its own. -/
structure Serializes [LT K] (L : Ledger I K V) (s : Scripts I K V) : Prop where
  clients : ∀ id, Follows L.committed id (L.active id) (s.current id)
  serial : ∃ committed, Run Ledger.Step Ledger.empty s.finished (quiet committed) ∧
    committed.map Txn.writes = L.committed.map Txn.writes

namespace Follows
variable [LT K] {committed : List (Txn K V)} {active : I → Option (Txn K V)}
  {current : I → List (Answered I K V)} {id : I}

theorem update {o : Option (Txn K V)} {script : List (Answered I K V)}
    (h : ∀ id, Follows committed id (active id) (current id)) (hid : Follows committed id o script)
    (id' : I) :
    Follows committed id' (Function.update active id o id')
      (Function.update current id script id') := by
  by_cases hsame : id' = id
  · subst hsame
    rw [Function.update_self, Function.update_self]
    exact hid
  · rw [Function.update_of_ne hsame, Function.update_of_ne hsame]
    exact h id'

theorem later {o : Option (Txn K V)} {script : List (Answered I K V)}
    (h : Follows committed id o script) (more : List (Txn K V)) :
    Follows (committed ++ more) id o script := by
  cases h with
  | idle => exact .idle
  | running hbegan hscript =>
      refine .running ?_ ?_
      · rw [List.length_append]
        exact hbegan.trans (Nat.le_add_right _ _)
      · rw [List.take_append_of_le_length hbegan]
        exact hscript

theorem open' {t : Txn K V} {script : List (Answered I K V)}
    (h : Follows committed id (some t) script) : t.began ≤ committed.length ∧
      Scripted script id t.writes (stateAfter (committed.take t.began)) := by
  cases h with
  | running hbegan hscript => exact ⟨hbegan, hscript⟩

theorem closed {script : List (Answered I K V)} (h : Follows committed id none script) :
    script = [] := by
  cases h with
  | idle => rfl

end Follows

namespace Serializes
variable [LT K] {L L' : Ledger I K V} {s : Scripts I K V} {id : I}

theorem empty : Serializes (Ledger.empty : Ledger I K V) Scripts.empty :=
  ⟨fun _ => .idle, [], .nil, rfl⟩

theorem entry (h : Serializes L s) {t : Txn K V} (ht : L.active id = some t) :
    t.began ≤ L.committed.length ∧
      Scripted (s.current id) id t.writes (stateAfter (L.committed.take t.began)) := by
  have hid := h.clients id
  rw [ht] at hid
  exact hid.open'

theorem write (h : Serializes L s) {e : Event I K V} {k : K} {v : Option V}
    (hkey : e.key? = some k) (hfetched : ∀ own, fetchedKeys own [(e, .done)] = [])
    (hpermits : ∀ L : Ledger I K V, L.Permits (e, .done) ↔ ∃ t, L.active id = some t)
    (hnote : ∀ L : Ledger I K V, L.note (e, .done) = L.write id k v)
    (hp : ∃ t, L.active id = some t) :
    Serializes (L.note (e, .done))
      ⟨Function.update s.current id (s.current id ++ [(e, .done)]), s.finished⟩ := by
  obtain ⟨t, ht⟩ := hp
  obtain ⟨hbegan, hscript⟩ := h.entry ht
  rw [hnote, Ledger.write, ht]
  exact ⟨Follows.update h.clients
    (.running hbegan (hscript.write k v hkey hfetched hpermits hnote)), h.serial⟩

theorem close (h : Serializes L s) (id : I) :
    Serializes (L.close id) ⟨Function.update s.current id [], s.finished⟩ :=
  ⟨Follows.update h.clients .idle, h.serial⟩

/-- A commit is replayed at the end: no key that it took from its snapshot has changed since,
for it has written them all. -/
theorem commit (h : Serializes L s) {t : Txn K V} (ht : L.active id = some t)
    (hnone : ∀ k, ¬ t.Conflict L.committed k)
    (hreads : ∀ k ∈ fetchedKeys [] (s.current id), k ∈ writtenKeys (s.current id)) :
    Serializes ⟨L.committed ++ [t], (L.close id).active⟩
      ⟨Function.update s.current id [], s.finished ++ (s.current id ++ [(.commit id, .done)])⟩ := by
  obtain ⟨-, hscript⟩ := h.entry ht
  obtain ⟨committed, hrun, hwrites⟩ := h.serial
  refine ⟨fun id' => (Follows.update h.clients .idle id').later [t], ?_⟩
  have hbase : ∀ k ∈ fetchedKeys [] (s.current id),
      stateAfter committed k = stateAfter (L.committed.take t.began) k := by
    intro k hk
    have hwritten : (t.writes k).isSome := (hscript.written k).mpr (hreads k hk)
    rw [stateAfter_congr hwrites]
    exact stateAfter_take (fun hover => hnone k ⟨hwritten, hover⟩)
  refine ⟨_, hrun.append (hscript.commit hbase), ?_⟩
  rw [List.map_append, List.map_append, hwrites]
  rfl

theorem step {e : Answered I K V} (h : Serializes L s) (hs : Ledger.Step L e L')
    (hreads : s.writesReads e = true) : Serializes L' (s.note e) := by
  obtain ⟨hp, rfl⟩ := hs
  obtain ⟨e, r⟩ := e
  cases e with
  | begin id =>
      cases r with
      | done =>
          have hidle : s.current id = [] := by
            have hid := h.clients id
            rw [show L.active id = none from hp] at hid
            exact hid.closed
          refine ⟨Follows.update h.clients (.running le_rfl ?_), h.serial⟩
          rw [Event.client, hidle]
          exact scripted_begin id _
      | value v => exact hp.elim
      | conflict k => exact hp.elim
  | get id k =>
      cases r with
      | value v =>
          obtain ⟨t, ht, rfl⟩ := hp
          obtain ⟨hbegan, hscript⟩ := h.entry ht
          refine ⟨?_, h.serial⟩
          have hsame : Function.update L.active id (some t) = L.active := by
            rw [← ht, Function.update_eq_self]
          have hclients := Follows.update h.clients (.running hbegan (hscript.get k))
          rw [hsame] at hclients
          exact hclients
      | done => exact hp.elim
      | conflict k => exact hp.elim
  | put id k v =>
      cases r with
      | done => exact h.write rfl (fun _ => rfl) (fun _ => Iff.rfl) (fun _ => rfl) hp
      | value v => exact hp.elim
      | conflict k => exact hp.elim
  | delete id k =>
      cases r with
      | done => exact h.write rfl (fun _ => rfl) (fun _ => Iff.rfl) (fun _ => rfl) hp
      | value v => exact hp.elim
      | conflict k => exact hp.elim
  | commit id =>
      cases r with
      | done =>
          obtain ⟨t, ht, hnone⟩ := hp
          have hnote : L.note (.commit id, .done) = ⟨L.committed ++ [t], (L.close id).active⟩ := by
            simp only [Ledger.note, ht, Option.toList_some]
          rw [hnote]
          apply h.commit ht hnone
          simpa [Scripts.writesReads] using hreads
      | value v => exact hp.elim
      | conflict k => exact h.close id
  | abort id =>
      cases r with
      | done => exact h.close id
      | value v => exact hp.elim
      | conflict k => exact hp.elim

theorem run {hist : List (Answered I K V)} (hrun : Run Ledger.Step Ledger.empty hist L)
    (hreads : WritesReads Scripts.empty hist = true) :
    Serializes L (hist.foldl Scripts.note Scripts.empty) := by
  induction hrun with
  | nil => exact empty
  | snoc _ hs ih =>
      rw [WritesReads_snoc, Bool.and_eq_true] at hreads
      rw [List.foldl_append]
      exact (ih hreads.1).step hs hreads.2

end Serializes

/-- The serial history gets the answers that the interleaved one got, and commits the same
writes. -/
theorem serialize_run [LT K] {L : Ledger I K V} {hist : List (Answered I K V)}
    (hrun : Run Ledger.Step Ledger.empty hist L)
    (hreads : WritesReads Scripts.empty hist = true) :
    ∃ committed, Run Ledger.Step Ledger.empty (serialize hist) (quiet committed) ∧
      committed.map Txn.writes = L.committed.map Txn.writes :=
  (Serializes.run hrun hreads).serial

end Isolation
