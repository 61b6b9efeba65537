import Sietch.IndexedTree

/-! What the calls of an indexed store do: the tree indexes the records of the log, up to the
number that its sentinel states. -/
namespace Sietch
open ByteString
open SortedMap (lookup)

theorem userKey_injective : Function.Injective userKey := fun _ _ h => (List.cons.inj h).2

theorem userKey_ne_sentinel (key : Bytes) : userKey key ≠ lastIndexedSeqKey := by
  intro h
  have hns : nsUser = nsMeta := (List.cons.inj h).1
  exact absurd hns (by decide)

theorem indexValue_eq (r : Record) : indexValue r = encodeIndexValue r.version.value := by
  obtain ⟨ty, seq, key, value⟩ := r
  cases ty with
  | put => rfl
  | delete => rfl

@[simp] theorem decode_encode {ε : Type} (v : Option Bytes) :
    decodeIndexValue (ε := ε) (encodeIndexValue v) = .ok v := by
  cases v with
  | none => rfl
  | some v => rfl

/-- What the records say last about a key: nothing, that it was deleted, or its value. -/
def lastValue (records : List Record) (key : Bytes) : Option (Option Bytes) :=
  (Index.added records key).getLast?.map VersionEntry.value

theorem lastValue_snoc (records : List Record) (r : Record) (key : Bytes) :
    lastValue (records ++ [r]) key =
      if key = r.key then some r.version.value else lastValue records key := by
  rw [lastValue, Index.added_append, Index.added_cons, Index.added_nil]
  split
  · simp
  · rw [List.append_nil]
    rfl

/-- The map holds the last value of every key and the sentinel, and nothing else. -/
structure Indexes (records : List Record) (sentinel : Option Nat) (m : SortedMap Bytes Bytes) :
    Prop where
  user : ∀ key, m.get? (userKey key) = (lastValue records key).map encodeIndexValue
  sentinel : m.get? lastIndexedSeqKey = sentinel.map (leBytes 8)
  keys : ∀ e ∈ m.entries, e.1 = lastIndexedSeqKey ∨ ∃ key, e.1 = userKey key

namespace Indexes
variable {records : List Record} {sentinel : Option Nat} {m : SortedMap Bytes Bytes}

theorem empty : Indexes [] none .empty := ⟨fun _ => rfl, rfl, fun _ he => by cases he⟩

theorem mem_insert {k v : Bytes} {e : Entry} (he : e ∈ (m.insert k v).entries) :
    e = (k, v) ∨ e ∈ m.entries := SortedMap.mem_insertEntry he

theorem apply (h : Indexes records sentinel m) (r : Record) :
    Indexes (records ++ [r]) sentinel (m.insert (userKey r.key) (indexValue r)) where
  user key := by
    rw [SortedMap.get?_insert, lastValue_snoc, h.user, indexValue_eq]
    simp only [userKey_injective.eq_iff]
    split
    · rfl
    · rfl
  sentinel := by
    rw [SortedMap.get?_insert, if_neg (userKey_ne_sentinel r.key).symm, h.sentinel]
  keys e he := by
    rcases mem_insert he with rfl | he
    · exact .inr ⟨r.key, rfl⟩
    · exact h.keys e he

theorem mark (h : Indexes records sentinel m) (n : Nat) :
    Indexes records (some n) (m.insert lastIndexedSeqKey (leBytes 8 n)) where
  user key := by
    rw [SortedMap.get?_insert, if_neg (userKey_ne_sentinel key), h.user]
  sentinel := by
    rw [SortedMap.get?_insert, if_pos rfl]
    rfl
  keys e he := by
    rcases mem_insert he with rfl | he
    · exact .inl rfl
    · exact h.keys e he

end Indexes

/-- A record of which key and value are small enough for the tree, with the namespace and the
tag. -/
def Record.Modest (r : Record) : Prop := r.key.length + r.value.length ≤ 166

theorem Record.Modest.entry {r : Record} (h : r.Modest) :
    (userKey r.key).length + (indexValue r).length ≤ 168 := by
  have hvalue : (indexValue r).length ≤ r.value.length + 1 := by
    rw [indexValue]
    split
    · exact le_rfl
    · exact Nat.le_add_left _ _
  have hkey : (userKey r.key).length = r.key.length + 1 := rfl
  unfold Record.Modest at h
  omega

theorem Record.Modest.fits {op : LogOp} {n : Nat} (h : (op.record n).Modest) : op.Fits := by
  unfold Record.Modest at h
  cases op with
  | put key value =>
      have hle : key.length + value.length ≤ 166 := h
      constructor
      · omega
      · omega
  | delete key =>
      have hle : key.length + 0 ≤ 166 := h
      have hlt : key.length < 2 ^ 32 := by omega
      exact hlt

section Reconcile
variable {S ε : Type} [PageStore S ε] {M : NodeStore S} {small E : Prop}
  {capacity calls spare fuel kept : Nat} {m : SortedMap Bytes Bytes} {p : BufferPool S}
  {records rest : List Record} {sentinel : Option Nat}

def ServesIndex (M : NodeStore S) (small E : Prop) (capacity calls spare : Nat) (records : List Record)
    (sentinel : Option Nat) (p : BufferPool S) : Prop :=
  ∃ m, Serves M small E capacity calls spare m p ∧ Indexes records sentinel m

theorem applyRecordToIndex_unless {r : Record}
    (h : ServesIndex M small E capacity (calls + 1) spare records sentinel p) (hfuel : 2 ^ 64 ≤ fuel)
    (hkind : E ∨ small) (hr : small → r.Modest) :
    Proc.Unless E (applyRecordToIndex fuel r) p (fun _ p' =>
      ServesIndex M small E capacity calls spare (records ++ [r]) sentinel p') := by
  obtain ⟨m, hserves, hi⟩ := h
  rw [applyRecordToIndex]
  exact (hserves.insert hfuel hkind (fun hsmall => (hr hsmall).entry)).mono
    (fun _ p' h' => ⟨_, h', hi.apply r⟩) (fun hE => hE)

theorem readLastIndexedSeq_unless
    (h : ServesIndex M small E capacity (calls + 1) spare records sentinel p) (hfuel : 2 ^ 64 ≤ fuel)
    (hlt : ∀ n, sentinel = some n → n < 2 ^ 64) :
    Proc.Unless E (readLastIndexedSeq fuel) p (fun n p' => n = sentinel.getD 0 ∧
      ServesIndex M small E capacity calls spare records sentinel p') := by
  obtain ⟨m, hserves, hi⟩ := h
  rw [readLastIndexedSeq]
  refine Proc.Unless.bind (hserves.get hfuel lastIndexedSeqKey) ?_
  rintro r p' ⟨rfl, h'⟩
  rw [hi.sentinel]
  cases sentinel with
  | none => exact (Proc.returns_pure ⟨rfl, m, h', hi⟩).unless E
  | some n =>
      simp only [Option.map_some, length_leBytes, if_true]
      refine (Proc.returns_pure ⟨?_, m, h', hi⟩).unless E
      rw [ofLeBytes_leBytes (by simpa using hlt n rfl)]
      rfl

theorem applyRecordsFrom_unless {start done : Nat}
    (h : ServesIndex M small E capacity (calls + (rest.filter (start ≤ ·.seq)).length) spare records
      sentinel p) (hfuel : 2 ^ 64 ≤ fuel)
    (hrest : ∀ r ∈ rest.filter (start ≤ ·.seq), (E ∨ small) ∧ (small → r.Modest)) :
    Proc.Unless E (applyRecordsFrom fuel start rest done) p (fun n p' =>
      n = done + (rest.filter (start ≤ ·.seq)).length ∧
      ServesIndex M small E capacity calls spare (records ++ rest.filter (start ≤ ·.seq)) sentinel p') := by
  induction rest generalizing records done p with
  | nil =>
      refine (Proc.returns_pure ⟨rfl, ?_⟩).unless E
      rw [List.filter_nil, List.append_nil]
      exact h
  | cons r rest ih =>
      rw [applyRecordsFrom]
      by_cases hseq : start ≤ r.seq
      · have hcons : (r :: rest).filter (start ≤ ·.seq) = r :: rest.filter (start ≤ ·.seq) :=
          List.filter_cons_of_pos (by simpa using hseq)
        rw [hcons] at h hrest ⊢
        rw [if_pos hseq]
        obtain ⟨hr, hrest⟩ := List.forall_mem_cons.mp hrest
        refine Proc.Unless.bind (applyRecordToIndex_unless h hfuel hr.1 hr.2) (fun _ p' h' => ?_)
        refine (ih h' hrest).mono ?_ (fun hE => hE)
        rintro n p'' ⟨rfl, h''⟩
        rw [List.append_assoc] at h''
        refine ⟨?_, h''⟩
        rw [List.length_cons]
        omega
      · have hcons : (r :: rest).filter (start ≤ ·.seq) = rest.filter (start ≤ ·.seq) :=
          List.filter_cons_of_neg (by simpa using hseq)
        rw [hcons] at h hrest ⊢
        rw [if_neg hseq]
        exact ih h hrest

end Reconcile

/-- The records from a number on are those after the first ones. -/
theorem Numbered.filter_seq {records : List Record} (h : Numbered records) (start : Nat) :
    records.filter (start ≤ ·.seq) = records.drop start := by
  have hfirst : (records.take start).filter (start ≤ ·.seq) = [] := by
    rw [List.filter_eq_nil_iff]
    intro r hr
    have hseq := List.mem_map_of_mem (f := Record.seq) hr
    rw [h.take start] at hseq
    have hlt := List.mem_range.mp hseq
    have hlen := List.length_take_le start records
    simp only [decide_eq_true_eq]
    omega
  have hlast : (records.drop start).filter (start ≤ ·.seq) = records.drop start := by
    rw [List.filter_eq_self]
    intro r hr
    have hseq := List.mem_map_of_mem (f := Record.seq) hr
    rw [List.map_drop, h, List.range_eq_range', List.drop_range', Nat.zero_add] at hseq
    simpa using (List.mem_range'_1.mp hseq).1
  conv_lhs => rw [← List.take_append_drop start records]
  rw [List.filter_append, hfirst, hlast, List.nil_append]

section Flushed
variable {S L D ε : Type} [PageStore S ε] {T : DurableStore S L D} {small E : Prop}
  {capacity calls spare fuel nextSeq : Nat} {p : BufferPool S} {d : D}
  {records logged : List Record} {sentinel : Option Nat}

/-- The directory opens with the pages of a tree that indexes the records. -/
def StocksIndex (T : DurableStore S L D) (small : Prop) (records : List Record)
    (sentinel : Option Nat) (d : D) : Prop := ∃ m, Stocks T small m d ∧ Indexes records sentinel m

theorem stocksIndex_fresh (T : DurableStore S L D) (small : Prop) : StocksIndex T small [] none T.fresh :=
  ⟨.empty, stocks_fresh T small, .empty⟩

theorem ServesIndex.mono {calls' spare' : Nat} {M : NodeStore S}
    (h : ServesIndex M small E capacity calls' spare' records sentinel p) (hcalls : calls ≤ calls')
    (hspare : spare ≤ spare') : ServesIndex M small E capacity calls spare records sentinel p := by
  obtain ⟨m, hserves, hi⟩ := h
  exact ⟨m, hserves.mono hcalls hspare, hi⟩

theorem flushSentinel_unless
    (h : ServesIndex T.toNodeStore small E capacity (calls + 1) (spare + capacity) records sentinel p)
    (hfuel : 2 ^ 64 ≤ fuel) (hkind : E ∨ small) :
    Proc.Unless E (flushSentinel fuel nextSeq) p (fun _ p' =>
      ServesIndex T.toNodeStore small E capacity calls spare records (some nextSeq) p' ∧
      StocksIndex T small records (some nextSeq) (T.files p'.store)) := by
  obtain ⟨m, hserves, hi⟩ := h
  have hlen : lastIndexedSeqKey.length + (leBytes 8 nextSeq).length ≤ 168 := by
    rw [length_leBytes]
    decide
  rw [flushSentinel]
  refine Proc.Unless.bind (hserves.insert hfuel hkind (fun _ => hlen)) (fun _ p₁ h₁ => ?_)
  refine h₁.flush.mono ?_ (fun hE => hE)
  rintro - p₂ ⟨h₂, hstocks⟩
  exact ⟨⟨_, h₂, hi.mark nextSeq⟩, _, hstocks, hi.mark nextSeq⟩

/-- `open` applies the records from the sentinel on. If there are any, they are all in the
directory afterwards. -/
theorem reconcile_unless (nextSeq : Nat) {todo : List Record}
    (htodo : logged.filter (sentinel.getD 0 ≤ ·.seq) = todo)
    (h : ServesIndex T.toNodeStore small E capacity (calls + 2 + todo.length) (spare + capacity) records
      sentinel p) (hfuel : 2 ^ 64 ≤ fuel) (hlt : ∀ n, sentinel = some n → n < 2 ^ 64)
    (hkind : E ∨ todo = [] ∨ small) (hmodest : ∀ r ∈ todo, small → r.Modest) :
    Proc.Unless E (reconcile fuel logged nextSeq) p (fun n p' => n = todo.length ∧
      ((todo = [] ∧ ServesIndex T.toNodeStore small E capacity calls spare records sentinel p') ∨
        todo ≠ [] ∧ ServesIndex T.toNodeStore small E capacity calls spare (records ++ todo) (some nextSeq) p' ∧
          StocksIndex T small (records ++ todo) (some nextSeq) (T.files p'.store))) := by
  rw [reconcile]
  have hfirst : ServesIndex T.toNodeStore small E capacity (calls + 1 + todo.length + 1)
      (spare + capacity) records sentinel p := h.mono (by omega) le_rfl
  refine Proc.Unless.bind (readLastIndexedSeq_unless hfirst hfuel hlt) ?_
  rintro _ p₁ ⟨rfl, h₁⟩
  subst htodo
  have hkind' (hne : logged.filter (sentinel.getD 0 ≤ ·.seq) ≠ []) : E ∨ small :=
    hkind.imp_right (fun hor => hor.resolve_left hne)
  refine Proc.Unless.bind (applyRecordsFrom_unless h₁ hfuel
    (fun r hr => ⟨hkind' (List.ne_nil_of_mem hr), hmodest r hr⟩)) ?_
  rintro n p₂ ⟨hn, h₂⟩
  rw [Nat.zero_add] at hn
  subst hn
  by_cases hnil : logged.filter (sentinel.getD 0 ≤ ·.seq) = []
  · rw [hnil, List.append_nil] at h₂
    rw [hnil]
    exact (Proc.returns_pure ⟨rfl, .inl ⟨rfl, h₂.mono (Nat.le_succ _) (Nat.le_add_right _ _)⟩⟩).unless E
  · rw [if_pos (List.length_pos_iff.mpr hnil)]
    refine Proc.Unless.bind (flushSentinel_unless h₂ hfuel (hkind' hnil)) (fun _ p₃ h₃ => ?_)
    exact (Proc.returns_pure ⟨rfl, .inr ⟨hnil, h₃⟩⟩).unless E

end Flushed

theorem Holds.append {crc32 : Checksum} {dir : SegmentDir} {log : Log} {records : List Record}
    {op : LogOp} (h : Holds crc32 dir (some log) records) (hfit : op.Fits)
    (hn : log.nextSeq + 1 < 2 ^ 64) :
    ∃ log' dir', log.append crc32 .done dir (op.record log.nextSeq) =
        (.ok (op.record log.nextSeq), log', dir') ∧
      Holds crc32 dir' (some log') (records ++ [op.record log.nextSeq]) ∧
      log'.nextSeq = log.nextSeq + 1 := by
  cases h with
  | live hr =>
      have hops : ∀ o ∈ [op], o.Fits := by simpa using hfit
      obtain ⟨log', dir', old', active', he, hr', hrec, hseq, -⟩ := hr.appendBatch_done hops hn
      refine ⟨log', dir', ?_, ?_, hseq⟩
      · simp only [Log.append, Log.opOf_record, he]
        rfl
      · have hnum : Log.numberRecords log.nextSeq [op] = [op.record log.nextSeq] := rfl
        rw [← hnum, ← hrec]
        exact .live hr'

theorem Log.append_ok {crc32 : Checksum} {io : Io} {dir dir' : SegmentDir} {log log' : Log}
    {op : LogOp} {r : Record}
    (h : log.append crc32 io dir (op.record log.nextSeq) = (.ok r, log', dir')) :
    r = op.record log.nextSeq ∧ log.nextSeq + 1 < 2 ^ 64 := by
  have hexec := Log.append_exec crc32 io dir log op
  rw [h] at hexec
  obtain ⟨hrecords, hn⟩ := Log.appendBatch_ok hexec.symm
  exact ⟨(List.cons.inj hrecords).1, hn⟩

namespace IndexedStore
variable {S L D ε : Type} [PageStore S ε] {T : DurableStore S L D} {small E : Prop}
  {crc32 : Checksum} {capacity calls spare fuel : Nat} {s : IndexedStore S} {records : List Record}
  {sentinel : Option Nat}

omit [PageStore S ε] in
theorem onIndex_unless {α : Type} {x : BTree.Op S ε α} {Q : α → BufferPool S → Prop}
    (h : Proc.Unless E x s.index Q) :
    Proc.Unless E (onIndex x) s (fun a s' => ∃ p', Q a p' ∧ s' = { s with index := p' }) :=
  Proc.Ends.mapErr (h.focus _) _

/-- A put or a delete, as it is appended to the log and applied to the tree. -/
def write (crc32 : Checksum) (fuel : Nat) (op : LogOp) : Op S ε Unit := do
  let record ← onLog (fun dir log => log.append crc32 .done dir (op.record log.nextSeq))
  applyAndAdvance fuel record

theorem put_eq_write (key value : Bytes) :
    put (S := S) crc32 fuel key value = write crc32 fuel (.put key value) := rfl

theorem delete_eq_write (key : Bytes) :
    delete (S := S) crc32 fuel key = write crc32 fuel (.delete key) := rfl

/-- The tree has all records of the log and its directory the first of them, up to the last
checkpoint. Those since then are fewer than the interval. -/
structure Tracks (crc32 : Checksum) (T : DurableStore S L D) (small E : Prop)
    (capacity calls spare : Nat) (records : List Record) (sentinel : Option Nat) (saved : D)
    (s : IndexedStore S) : Prop where
  log : Holds crc32 s.logDir (some s.log) records
  numbered : Numbered records
  limit : records.length < 2 ^ 64
  index : ServesIndex T.toNodeStore small E capacity calls spare records sentinel s.index
  saved : StocksIndex T small (records.take (sentinel.getD 0)) sentinel saved
  pending : records.length = sentinel.getD 0 + s.pendingSinceCheckpoint
  interval : s.pendingSinceCheckpoint < s.checkpointInterval

def flushedDir (T : DurableStore S L D) (saved : D) (s : IndexedStore S) : D :=
  if s.pendingSinceCheckpoint = 0 then T.files s.index.store else saved

variable {saved : D}

theorem Tracks.free {calls' spare' : Nat}
    (h : Tracks crc32 T small True capacity calls' spare' records sentinel saved s) (calls spare : Nat) :
    Tracks crc32 T small True capacity calls spare records sentinel saved s := by
  obtain ⟨m, hserves, hi⟩ := h.index
  exact { h with index := ⟨m, hserves.free calls spare, hi⟩ }

theorem Tracks.capacity_eq
    (h : Tracks crc32 T small E capacity calls spare records sentinel saved s) :
    s.index.capacity = capacity := by
  obtain ⟨_, ⟨-, _, _, _, _, -, -, -, hq, -⟩, -⟩ := h.index
  exact hq.1

theorem Tracks.nextSeq (h : Tracks crc32 T small E capacity calls spare records sentinel saved s) :
    s.log.nextSeq = records.length := by
  rw [h.log.nextSeq, h.numbered.nextSeq]

omit [PageStore S ε] in
theorem setPending_returns {n : Nat} {Q : Unit → IndexedStore S → Prop}
    (h : Q () { s with pendingSinceCheckpoint := n }) :
    Proc.Returns (setPending (ε := ε) n) s Q := ⟨(), _, rfl, h⟩

theorem checkpoint_unless (hlog : Holds crc32 s.logDir (some s.log) records)
    (hnumbered : Numbered records) (hlimit : records.length < 2 ^ 64)
    (hindex : ServesIndex T.toNodeStore small E capacity (calls + 1) (spare + capacity) records sentinel
      s.index) (hinterval : 0 < s.checkpointInterval) (hfuel : 2 ^ 64 ≤ fuel) (hkind : E ∨ small) :
    Proc.Unless E (checkpoint fuel) s (fun _ s' => s'.pendingSinceCheckpoint = 0 ∧
      s'.checkpointInterval = s.checkpointInterval ∧ Tracks crc32 T small E capacity calls spare records
        (some records.length) (T.files s'.index.store) s') := by
  have hseq : s.log.nextSeq = records.length := by rw [hlog.nextSeq, hnumbered.nextSeq]
  rw [IndexedStore.checkpoint]
  refine Proc.Unless.step rfl ?_
  rw [hseq]
  refine Proc.Unless.bind (onIndex_unless (flushSentinel_unless hindex hfuel hkind)) ?_
  rintro - s' ⟨p', ⟨hindex', hsaved⟩, rfl⟩
  refine (setPending_returns ⟨rfl, rfl, hlog, hnumbered, hlimit, hindex', ?_, rfl,
    hinterval⟩).unless E
  rw [Option.getD_some, List.take_length]
  exact hsaved

theorem fits_of_indexed {M : NodeStore S} {p : BufferPool S} {op : LogOp} {n : Nat}
    (h : ServesIndex M small E capacity calls spare (records ++ [op.record n]) sentinel p) : op.Fits := by
  obtain ⟨m, hserves, hi⟩ := h
  have hget := hi.user op.key
  have hkey : op.key = (op.record n).key := by
    cases op with
    | put key value => rfl
    | delete key => rfl
  rw [lastValue_snoc, if_pos hkey, Option.map_some, ← indexValue_eq] at hget
  have hle := hserves.entry_le (SortedMap.mem_entries.mpr hget)
  cases op with
  | put key value =>
      have hlen : (userKey key).length + (indexValue (Record.put n key value)).length =
          key.length + 1 + (value.length + 1) := rfl
      have hle' : key.length + 1 + (value.length + 1) ≤ 4058 := hlen ▸ hle
      constructor
      · omega
      · omega
  | delete key =>
      have hle' : key.length + 1 + 1 ≤ 4058 := hle
      have hlt : key.length < 2 ^ 32 := by omega
      exact hlt

omit [PageStore S ε] in
theorem onLog_unless {append : SegmentDir → Log → Outcome LogError Record × Log × SegmentDir}
    (h : E ∨ ∃ r log' dir', append s.logDir s.log = (.ok r, log', dir')) :
    Proc.Unless E (onLog (ε := ε) append) s (fun r s' => ∃ log' dir',
      append s.logDir s.log = (.ok r, log', dir') ∧ s' = { s with log := log', logDir := dir' }) := by
  rw [Proc.Unless, Proc.Ends, onLog]
  rcases hcall : append s.logDir s.log with ⟨o, log', dir'⟩
  rw [hcall] at h
  cases o with
  | ok r => exact ⟨log', dir', rfl, rfl⟩
  | err e =>
      refine h.resolve_right ?_
      rintro ⟨r, log₁, dir₁, hok⟩
      cases hok
  | panic =>
      refine h.resolve_right ?_
      rintro ⟨r, log₁, dir₁, hok⟩
      cases hok

/-- A write adds its record to the log and to the tree, whatever records the tree has, and
ends there or with a checkpoint. -/
theorem write_unless {indexed : List Record} {op : LogOp} {Q : Unit → IndexedStore S → Prop}
    (hlog : Holds crc32 s.logDir (some s.log) records) (hnumbered : Numbered records)
    (hindex : ServesIndex T.toNodeStore small E capacity (calls + 1) spare indexed sentinel s.index)
    (hfuel : 2 ^ 64 ≤ fuel) (hop : small → (op.record records.length).Modest)
    (hnext : E ∨ small ∧ records.length + 1 < 2 ^ 64)
    (hrest : ∀ s', s'.pendingSinceCheckpoint = s.pendingSinceCheckpoint + 1 →
      s'.checkpointInterval = s.checkpointInterval → op.Fits →
      records.length + 1 < 2 ^ 64 →
      Holds crc32 s'.logDir (some s'.log) (records ++ [op.record records.length]) →
      ServesIndex T.toNodeStore small E capacity calls spare
        (indexed ++ [op.record records.length]) sentinel s'.index →
      Proc.Unless E (if s'.checkpointInterval ≤ s'.pendingSinceCheckpoint then checkpoint fuel
        else pure ()) s' Q) :
    Proc.Unless E (write crc32 fuel op) s Q := by
  have hseq : s.log.nextSeq = records.length := by rw [hlog.nextSeq, hnumbered.nextSeq]
  have happends : E ∨ ∃ r log' dir',
      s.log.append crc32 .done s.logDir (op.record s.log.nextSeq) = (.ok r, log', dir') := by
    refine hnext.imp_right (fun ⟨hsmall, hlt⟩ => ?_)
    obtain ⟨log', dir', hcall, -⟩ := hlog.append (hop hsmall).fits (by rw [hseq]; exact hlt)
    exact ⟨_, log', dir', hcall⟩
  rw [IndexedStore.write]
  refine Proc.Unless.bind (onLog_unless happends) ?_
  rintro r s₁ ⟨log', dir', happend, rfl⟩
  obtain ⟨rfl, hlt⟩ := Log.append_ok happend
  rw [hseq] at hlt happend ⊢
  have hkind : E ∨ small := hnext.imp_right And.left
  rw [applyAndAdvance]
  refine Proc.Unless.bind (onIndex_unless (applyRecordToIndex_unless hindex hfuel hkind hop)) ?_
  rintro - s₂ ⟨p', hindex', rfl⟩
  have hfit : op.Fits := fits_of_indexed hindex'
  obtain ⟨log₁, dir₁, happend₁, hlog', -⟩ := hlog.append hfit (by rw [hseq]; exact hlt)
  rw [hseq, happend] at happend₁
  cases happend₁
  rw [hseq] at hlog'
  refine Proc.Unless.step rfl (Proc.Unless.step rfl ?_)
  exact hrest ⟨dir', log', p', s.reconciledRecords, s.recoveredFromTornTail, s.checkpointInterval,
    s.pendingSinceCheckpoint + 1⟩ rfl rfl hfit hlt hlog' hindex'

/-- A write adds its record to the log and to the tree, and to the directory of the tree if
it ends with a checkpoint. -/
theorem Tracks.write
    (h : Tracks crc32 T small E capacity (calls + 2) (spare + capacity) records sentinel saved s)
    (hfuel : 2 ^ 64 ≤ fuel) {op : LogOp} (hop : small → (op.record records.length).Modest)
    (hnext : E ∨ small ∧ records.length + 1 < 2 ^ 64) :
    Proc.Unless E (write crc32 fuel op) s (fun _ s' => op.Fits ∧
      s'.checkpointInterval = s.checkpointInterval ∧
      (s'.pendingSinceCheckpoint = if s.checkpointInterval ≤ s.pendingSinceCheckpoint + 1 then 0
        else s.pendingSinceCheckpoint + 1) ∧
      ∃ sentinel', Tracks crc32 T small E capacity calls spare (records ++ [op.record records.length])
        sentinel' (flushedDir T saved s') s') := by
  refine write_unless h.log h.numbered h.index hfuel hop hnext ?_
  intro s' hpending hint hfit hlt hlog hindex
  have hnumbered : Numbered (records ++ [op.record records.length]) := h.numbered.append [op]
  have hlimit : (records ++ [op.record records.length]).length < 2 ^ 64 := by simpa using hlt
  have hsince := h.pending
  rw [← hpending, ← hint]
  by_cases hfull : s'.checkpointInterval ≤ s'.pendingSinceCheckpoint
  · rw [if_pos hfull, if_pos hfull]
    have hpos : 0 < s'.checkpointInterval := hint ▸ Nat.zero_lt_of_lt h.interval
    refine (checkpoint_unless hlog hnumbered hlimit hindex hpos hfuel
      (hnext.imp_right And.left)).mono ?_ (fun hE => hE)
    rintro - s'' ⟨hzero, hint', htracks⟩
    rw [flushedDir, if_pos hzero]
    exact ⟨hfit, hint', hzero, _, htracks⟩
  · rw [if_neg hfull, if_neg hfull]
    refine (Proc.returns_pure ⟨hfit, rfl, rfl, sentinel, hlog, hnumbered, hlimit,
      hindex.mono (Nat.le_succ _) (Nat.le_add_right _ _), ?_, ?_, not_le.mp hfull⟩).unless E
    · rw [flushedDir, if_neg (by omega), List.take_append_of_le_length (by omega)]
      exact h.saved
    · rw [List.length_append, hsince, List.length_singleton, hpending]
      rfl

theorem Tracks.checkpoint
    (h : Tracks crc32 T small E capacity (calls + 1) (spare + capacity) records sentinel saved s)
    (hfuel : 2 ^ 64 ≤ fuel) (hkind : E ∨ small) :
    Proc.Unless E (checkpoint fuel) s (fun _ s' => s'.pendingSinceCheckpoint = 0 ∧
      s'.checkpointInterval = s.checkpointInterval ∧ Tracks crc32 T small E capacity calls spare records
        (some records.length) (T.files s'.index.store) s') :=
  checkpoint_unless h.log h.numbered h.limit h.index (Nat.zero_lt_of_lt h.interval) hfuel hkind

theorem lastValue_join (records : List Record) (key : Bytes) :
    (lastValue records key).join = (Index.added records key).getLast?.bind VersionEntry.value := by
  rw [lastValue]
  cases (Index.added records key).getLast? with
  | none => rfl
  | some v => rfl

theorem get_unless {M : NodeStore S}
    (h : ServesIndex M small E capacity (calls + 1) spare records sentinel s.index)
    (hfuel : 2 ^ 64 ≤ fuel) (key : Bytes) :
    Proc.Unless E (get fuel key) s (fun r s' => r = (lastValue records key).join ∧
      ∃ p', s' = { s with index := p' } ∧
        ServesIndex M small E capacity calls spare records sentinel p') := by
  obtain ⟨m, hserves, hi⟩ := h
  rw [IndexedStore.get]
  refine Proc.Unless.bind (onIndex_unless (hserves.get hfuel (userKey key))) ?_
  rintro r s' ⟨p', ⟨rfl, h'⟩, rfl⟩
  rw [hi.user]
  cases lastValue records key with
  | none => exact (Proc.returns_pure ⟨rfl, p', rfl, m, h', hi⟩).unless E
  | some v => exact (Proc.returns_lift (decode_encode v) ⟨rfl, p', rfl, m, h', hi⟩).unless E

theorem Tracks.get (h : Tracks crc32 T small E capacity (calls + 1) spare records sentinel saved s)
    (hfuel : 2 ^ 64 ≤ fuel) (key : Bytes) :
    Proc.Unless E (get fuel key) s (fun r s' => r = (lastValue records key).join ∧
      s'.pendingSinceCheckpoint = s.pendingSinceCheckpoint ∧
      s'.checkpointInterval = s.checkpointInterval ∧
      Tracks crc32 T small E capacity calls spare records sentinel saved s') := by
  refine (get_unless h.index hfuel key).mono ?_ (fun hE => hE)
  rintro r _ ⟨hr, p', rfl, hindex⟩
  exact ⟨hr, rfl, rfl, h.log, h.numbered, h.limit, hindex, h.saved, h.pending, h.interval⟩

theorem encodeIndexValue_injective : Function.Injective encodeIndexValue := by
  intro a b h
  have hok : (Outcome.ok a : Outcome Empty (Option Bytes)) = .ok b := by
    rw [← decode_encode a, ← decode_encode b, h]
  exact Outcome.ok.inj hok

omit [PageStore S ε] in
theorem liveWithPrefix_sentinel (keyPrefix v : Bytes) (es : List Entry) :
    liveWithPrefix (ε := ε) keyPrefix ((lastIndexedSeqKey, v) :: es) =
      liveWithPrefix keyPrefix es := by
  rw [lastIndexedSeqKey, metaKey, liveWithPrefix, if_pos (by decide)]

omit [PageStore S ε] in
theorem liveWithPrefix_user (keyPrefix key : Bytes) (v : Option Bytes) (es : List Entry) :
    liveWithPrefix (ε := ε) keyPrefix ((userKey key, encodeIndexValue v) :: es) =
      if keyPrefix <+: key then do
        let out ← liveWithPrefix keyPrefix es
        return match v with
          | some value => (key, value) :: out
          | none => out
      else liveWithPrefix keyPrefix es := by
  rw [userKey, liveWithPrefix, if_neg (by decide)]
  by_cases hp : keyPrefix <+: key
  · rw [if_neg (by simpa using hp), if_pos hp, decode_encode]
    rfl
  · have hfalse : keyPrefix.isPrefixOf key = false :=
      Bool.eq_false_iff.mpr (fun h => hp (List.isPrefixOf_iff_prefix.mp h))
    rw [if_pos (by rw [hfalse]; rfl), if_neg hp]

/-- The loop of `scan` collects the live keys with the prefix, in order. -/
theorem liveWithPrefix_ok (keyPrefix : Bytes) {es : List Entry} (hasc : SortedMap.Ascending es)
    (hes : ∀ e ∈ es, e.1 = lastIndexedSeqKey ∨ ∃ key v, e = (userKey key, encodeIndexValue v)) :
    ∃ out, liveWithPrefix (ε := ε) keyPrefix es = .ok out ∧ SortedMap.Ascending out ∧
      ∀ k v, (k, v) ∈ out ↔ keyPrefix <+: k ∧ (userKey k, encodeIndexValue (some v)) ∈ es := by
  induction es with
  | nil => exact ⟨[], rfl, .nil, fun k v => by simp⟩
  | cons e es ih =>
      obtain ⟨he, hrest⟩ := List.forall_mem_cons.mp hes
      obtain ⟨out, hout, hasc', hmem⟩ := ih hasc.tail hrest
      -- an entry that is not collected
      have hskip (hne : ∀ k v, keyPrefix <+: k → (userKey k, encodeIndexValue (some v)) ≠ e) (k v) :
          (k, v) ∈ out ↔ keyPrefix <+: k ∧ (userKey k, encodeIndexValue (some v)) ∈ e :: es := by
        rw [hmem, List.mem_cons]
        exact and_congr_right (fun hp => ⟨.inr, fun h => h.resolve_left (hne k v hp)⟩)
      rcases he with hsentinel | ⟨key, v, rfl⟩
      · refine ⟨out, ?_, hasc', hskip (fun k v _ heq => ?_)⟩
        · obtain ⟨k, v⟩ := e
          have hk : k = lastIndexedSeqKey := hsentinel
          rw [hk, liveWithPrefix_sentinel, hout]
        · rw [← heq] at hsentinel
          exact userKey_ne_sentinel k hsentinel
      rw [liveWithPrefix_user]
      by_cases hp : keyPrefix <+: key
      · rw [if_pos hp, hout]
        cases v with
        | none =>
            refine ⟨out, rfl, hasc', hskip (fun k v _ heq => ?_)⟩
            cases encodeIndexValue_injective (Prod.mk.inj heq).2
        | some v =>
            refine ⟨(key, v) :: out, rfl, List.pairwise_cons.mpr ⟨fun e' he' => ?_, hasc'⟩, ?_⟩
            · have hlt := hasc.head_lt ((hmem e'.1 e'.2).mp he').2
              exact (List.cons_lt_cons_iff.mp hlt).resolve_left (lt_irrefl _) |>.2
            · intro k w
              rw [List.mem_cons, List.mem_cons, hmem]
              constructor
              · rintro (heq | ⟨hk, hin⟩)
                · cases heq
                  exact ⟨hp, .inl rfl⟩
                · exact ⟨hk, .inr hin⟩
              · rintro ⟨hk, heq | hin⟩
                · obtain ⟨hkey, hvalue⟩ := Prod.mk.inj heq
                  cases userKey_injective hkey
                  cases encodeIndexValue_injective hvalue
                  exact .inl rfl
                · exact .inr ⟨hk, hin⟩
      · rw [if_neg hp]
        refine ⟨out, hout, hasc', hskip (fun k v hk heq => ?_)⟩
        cases userKey_injective (Prod.mk.inj heq).1
        exact hp hk

/-- `scan` returns the keys with the prefix that have a value, in ascending order. -/
theorem Tracks.scan (h : Tracks crc32 T small True capacity calls spare records sentinel saved s)
    (hfuel : 2 ^ 64 ≤ fuel) (keyPrefix : Bytes)
    (hspace : E ∨ Spacious T.toNodeStore capacity 1 0 s.index.store) :
    Proc.Unless E (scan fuel keyPrefix) s (fun r s' => SortedMap.Ascending r ∧
      (∀ k v, (k, v) ∈ r ↔ keyPrefix <+: k ∧ (lastValue records k).join = some v) ∧
      s'.pendingSinceCheckpoint = s.pendingSinceCheckpoint ∧
      s'.checkpointInterval = s.checkpointInterval ∧
      Tracks crc32 T small True capacity calls spare records sentinel saved s') := by
  obtain ⟨m, hserves, hi⟩ := h.index
  have hes : ∀ e ∈ m.entries, e.1 = lastIndexedSeqKey ∨
      ∃ key v, e = (userKey key, encodeIndexValue v) := by
    intro e he
    refine (hi.keys e he).imp_right ?_
    rintro ⟨key, hkey⟩
    have hget : m.get? (userKey key) = some e.2 := SortedMap.mem_entries.mp (by rwa [← hkey])
    rw [hi.user] at hget
    obtain ⟨v, -, hv⟩ := Option.map_eq_some_iff.mp hget
    exact ⟨key, v, Prod.ext hkey hv.symm⟩
  obtain ⟨out, hout, hasc, hmem⟩ := liveWithPrefix_ok (ε := ε) keyPrefix m.ascending hes
  rw [IndexedStore.scan]
  refine Proc.Unless.bind (onIndex_unless (hserves.scanAll hfuel hspace)) ?_
  rintro r s' ⟨p', ⟨rfl, h'⟩, rfl⟩
  rw [hout]
  refine Proc.Unless.step rfl ?_
  have hsort : out.insertionSort (fun a b => a.1 ≤ b.1) = out :=
    List.Pairwise.insertionSort_eq (hasc.imp (fun hab => hab.le))
  rw [hsort]
  refine (Proc.returns_pure ⟨hasc, fun k v => ?_, rfl, rfl, h.log, h.numbered, h.limit, ⟨m, h', hi⟩,
    h.saved, h.pending, h.interval⟩).unless E
  rw [hmem, SortedMap.mem_entries, hi.user]
  refine and_congr_right (fun _ => ?_)
  cases lastValue records k with
  | none => simp
  | some w => simp [encodeIndexValue_injective.eq_iff]

/-- The counters of a heap page store that are far enough from their ends. -/
theorem spacious_heap {pages : HeapPageStore crc32} {room : Nat} (hcap : 2 ≤ capacity)
    (hids : pages.nextPageId + 1 + calls * (pages.nextPageId + 1 + calls + 2) < 2 ^ 64)
    (hroom : calls * (3 * (pages.nextPageId + 1 + calls) + 5) + spare + 2 ≤ room)
    (hheap : pages.heapLen + pageSize * room < 2 ^ 64)
    (hlog : pages.locationLog.nextSeq + room < 2 ^ 64) :
    Spacious (HeapPageStore.durable crc32).toNodeStore capacity calls spare pages := by
  refine ⟨hcap, room, fun h => ?_, fun content next h => ?_⟩
  · exact HeapPageStore.Kept.mk h.held h.nextId h.limit (.inr ⟨hheap, hlog⟩)
  · have hnext : pages.nextPageId = next := h.nextId
    rw [hnext] at hids hroom
    exact ⟨hids, hroom⟩

theorem spacious_unwritten {dir : HeapDir} (hempty : dir.heap = []) {log : Option Log}
    (hlog : Holds crc32 dir.locations log []) {pages : HeapPageStore crc32}
    (hopen : HeapPageStore.openStore crc32 dir = .ok pages) (hcap : 2 ≤ capacity)
    (hids : 2 + calls * (2 + calls + 2) < 2 ^ 64)
    (hroom : pageSize * (calls * (3 * (2 + calls) + 5) + spare + 2) < 2 ^ 64) :
    Spacious (HeapPageStore.durable crc32).toNodeStore capacity calls spare pages := by
  obtain ⟨s, hopen', hkept⟩ := HeapPageStore.kept_unwritten NodePage.Shown hempty hlog
  rw [hopen] at hopen'
  cases hopen'
  have hkept := hkept _ hroom
  have hnext := hkept.nextId
  obtain ⟨hheap, hlog⟩ := hkept.counters.resolve_left (Nat.succ_ne_zero _)
  exact spacious_heap hcap (by rw [hnext]; exact hids) (by rw [hnext]) hheap hlog

theorem spacious_fresh {pages : HeapPageStore crc32}
    (hopen : HeapPageStore.openStore crc32 ⟨[], .empty⟩ = .ok pages) (hcap : 2 ≤ capacity)
    (hids : 2 + calls * (2 + calls + 2) < 2 ^ 64)
    (hroom : pageSize * (calls * (3 * (2 + calls) + 5) + spare + 2) < 2 ^ 64) :
    Spacious (HeapPageStore.durable crc32).toNodeStore capacity calls spare pages :=
  spacious_unwritten rfl .fresh hopen hcap hids hroom

/-- `open` on a log with some records and a tree with possibly others: it applies the records
from the sentinel on, and flushes the tree if there are any. -/
theorem openWithOptions_unless {dir : IndexedDir} {log₀ : Option Log} {logged todo : List Record}
    (interval calls spare : Nat) (hlog₀ : Holds crc32 dir.log log₀ logged)
    (hindex : StocksIndex (HeapPageStore.durable crc32) small records sentinel dir.index)
    (hlt : ∀ n, sentinel = some n → n < 2 ^ 64)
    (htodo : logged.filter (sentinel.getD 0 ≤ ·.seq) = todo) (hfuel : 2 ^ 64 ≤ fuel)
    (hspace : E ∨ (todo = [] ∨ small) ∧
      ∀ pages, HeapPageStore.openStore crc32 dir.index = .ok pages →
        Spacious (HeapPageStore.durable crc32).toNodeStore capacity (calls + 2 + todo.length)
          (spare + capacity) pages)
    (hmodest : ∀ r ∈ todo, small → r.Modest) :
    Proc.Unless E (fun dir => openWithOptions crc32 fuel dir capacity interval) dir (fun s dir' =>
      dir' = ⟨s.logDir, s.index.store.dir⟩ ∧ s.checkpointInterval = max interval 1 ∧
      s.pendingSinceCheckpoint = 0 ∧ s.reconciledRecords = todo.length ∧
      Holds crc32 s.logDir (some s.log) logged ∧
      ((todo = [] ∧ ServesIndex (HeapPageStore.durable crc32).toNodeStore small E capacity calls spare
          records sentinel s.index) ∨
        todo ≠ [] ∧ ServesIndex (HeapPageStore.durable crc32).toNodeStore small E capacity calls spare
          (records ++ todo) (some (nextSeqOf logged)) s.index ∧
        StocksIndex (HeapPageStore.durable crc32) small (records ++ todo) (some (nextSeqOf logged))
          s.index.store.dir)) := by
  obtain ⟨log, torn, logDir, hopen, hlog, hseq⟩ := hlog₀.opens defaultSegmentMaxBytes
  have hopen' : Log.openDefault crc32 dir.log = (.ok (log, ⟨logged, torn⟩), logDir) := hopen
  obtain ⟨m, hstocks, hi⟩ := hindex
  obtain ⟨pages, hpages, hstocked⟩ := hstocks ()
  have hpages' : HeapPageStore.openStore crc32 dir.index = .ok pages := hpages
  have hspace' : E ∨ Spacious (HeapPageStore.durable crc32).toNodeStore capacity
      (calls + 2 + todo.length) (spare + capacity) pages :=
    hspace.imp_right (fun hroom => hroom.2 pages hpages')
  simp only [Proc.Unless, Proc.Ends, openWithOptions, hopen', hpages']
  by_cases hpos : 0 < capacity
  · obtain ⟨p₀, hnew, htree⟩ := openTree_cases (ε := HeapPageStoreError) hpos pages
    have hsetUp := hstocked.setUp (ε := HeapPageStoreError) hspace' hpos hnew
    rw [htree]
    rcases hq : BTree.setUp (ε := HeapPageStoreError) p₀ with ⟨o, q⟩
    cases o with
    | err e => exact hsetUp.err hq
    | panic => exact hsetUp.panic hq
    | ok u =>
        have hrec := reconcile_unless (T := HeapPageStore.durable crc32) (nextSeqOf logged) htodo
          ⟨m, hsetUp.ok hq, hi⟩ hfuel hlt (hspace.imp_right And.left) hmodest
        rw [hseq]
        rcases hr : reconcile fuel logged (nextSeqOf logged) q with ⟨o, q'⟩
        simp only [hr]
        cases o with
        | err e => exact hrec.err hr
        | panic => exact hrec.panic hr
        | ok n =>
            obtain ⟨rfl, hcases⟩ := hrec.ok hr
            exact ⟨rfl, rfl, rfl, rfl, hlog, hcases⟩
  · have htree : BTree.openTree (ε := HeapPageStoreError) pages capacity = (.panic, none) := by
      rw [BTree.openTree, BufferPool.new, if_neg hpos]
    rw [htree]
    exact hspace'.resolve_right (fun hs => absurd hs.1 (by omega))

/-- What `open` usually finds: a log with the records, and a tree with the first of them, as
many as its sentinel states. -/
structure Recoverable (crc32 : Checksum) (small : Prop) (records : List Record)
    (sentinel : Option Nat) (dir : IndexedDir) : Prop where
  log : ∃ log, Holds crc32 dir.log log records
  numbered : Numbered records
  limit : records.length < 2 ^ 64
  index : StocksIndex (HeapPageStore.durable crc32) small (records.take (sentinel.getD 0)) sentinel
    dir.index
  kept : sentinel.getD 0 ≤ records.length

theorem Recoverable.opens {dir : IndexedDir} (h : Recoverable crc32 small records sentinel dir)
    (interval calls spare : Nat) (hfuel : 2 ^ 64 ≤ fuel)
    (hspace : E ∨ (records.length ≤ sentinel.getD 0 ∨ small) ∧
      ∀ pages, HeapPageStore.openStore crc32 dir.index = .ok pages →
        Spacious (HeapPageStore.durable crc32).toNodeStore capacity
          (calls + 2 + (records.length - sentinel.getD 0)) (spare + capacity) pages)
    (hmodest : ∀ r ∈ records.drop (sentinel.getD 0), small → r.Modest) :
    Proc.Unless E (fun dir => openWithOptions crc32 fuel dir capacity interval) dir (fun s dir' =>
      dir' = ⟨s.logDir, s.index.store.dir⟩ ∧ s.checkpointInterval = max interval 1 ∧
      s.pendingSinceCheckpoint = 0 ∧ s.reconciledRecords = records.length - sentinel.getD 0 ∧
      ∃ sentinel', Tracks crc32 (HeapPageStore.durable crc32) small E capacity calls spare records
        sentinel' (if s.reconciledRecords = 0 then dir.index else s.index.store.dir) s) := by
  obtain ⟨log₀, hlog₀⟩ := h.log
  have hlt : ∀ n, sentinel = some n → n < 2 ^ 64 := by
    rintro n rfl
    exact h.kept.trans_lt h.limit
  have hdrop : (records.drop (sentinel.getD 0)).length = records.length - sentinel.getD 0 :=
    List.length_drop
  rw [← hdrop, ← List.drop_eq_nil_iff] at hspace
  refine (openWithOptions_unless interval calls spare hlog₀ h.index hlt
    (h.numbered.filter_seq (sentinel.getD 0)) hfuel hspace hmodest).mono ?_ (fun hE => hE)
  rintro s dir' ⟨hdir, hint, hzero, hcount, hlog, hcases⟩
  refine ⟨hdir, hint, hzero, hcount.trans hdrop, ?_⟩
  have hpos : s.pendingSinceCheckpoint < s.checkpointInterval := by
    rw [hzero, hint]
    omega
  rcases hcases with ⟨hnil, hserves⟩ | ⟨hne, hserves, hstocks⟩
  · have hle := List.drop_eq_nil_iff.mp hnil
    rw [List.take_of_length_le hle] at hserves
    rw [hcount, hnil, if_pos List.length_nil]
    refine ⟨sentinel, hlog, h.numbered, h.limit, hserves, h.index, ?_, hpos⟩
    rw [hzero]
    exact le_antisymm hle h.kept
  · rw [List.take_append_drop, h.numbered.nextSeq] at hserves hstocks
    rw [hcount, if_neg (fun hnone => hne (List.length_eq_zero_iff.mp hnone))]
    refine ⟨some records.length, hlog, h.numbered, h.limit, hserves, ?_, ?_, hpos⟩
    · rw [Option.getD_some, List.take_length]
      exact hstocks
    · rw [hzero]
      rfl

end IndexedStore
end Sietch
