import Sietch.Base.Bytes

/-! The on-disk record format: a 21-byte header (type, seq, lengths, checksum)
followed by key and value. The checksum is a parameter; nothing below depends on
which function it is. -/
namespace Sietch
open ByteString

/-- The `crc32fast::hash` of the source, any fixed function to a u32. -/
abbrev Checksum := Bytes → Fin (2 ^ 32)

/-- The CRC-32 that `crc32fast` computes (reflected polynomial EDB88320), for
concrete runs. -/
def crc32Ieee (bytes : Bytes) : Fin (2 ^ 32) :=
  let bit (c : BitVec 32) : BitVec 32 :=
    if c &&& 1#32 = 1#32 then (c >>> 1) ^^^ 0xEDB88320#32 else c >>> 1
  let byte (c : BitVec 32) (b : Byte) : BitVec 32 :=
    Nat.repeat bit 8 (c ^^^ BitVec.ofNat 32 b.val)
  (bytes.foldl byte 0xFFFFFFFF#32 ^^^ 0xFFFFFFFF#32).toFin

example : (crc32Ieee [49, 50, 51, 52, 53, 54, 55, 56, 57]).val = 0xCBF43926 := by decide +kernel

def headerLen : Nat := 21

inductive RecordType where
  | put
  | delete
  deriving DecidableEq, Repr

structure Record where
  recordType : RecordType
  seq : Nat
  key : Bytes
  value : Bytes
  deriving DecidableEq, Repr

namespace Record

def put (seq : Nat) (key value : Bytes) : Record := ⟨.put, seq, key, value⟩

def delete (seq : Nat) (key : Bytes) : Record := ⟨.delete, seq, key, []⟩

def encodedLen (r : Record) : Nat := headerLen + r.key.length + r.value.length

def checksumInput (recordType : Byte) (seq : Nat) (key value : Bytes) : Bytes :=
  [recordType] ++ leBytes 8 seq ++ leBytes 4 key.length ++ leBytes 4 value.length ++ key ++ value

def typeByte : RecordType → Byte
  | .put => 0
  | .delete => 1

def encode (crc32 : Checksum) (r : Record) : Bytes :=
  let recordType := typeByte r.recordType
  let crc := crc32 (checksumInput recordType r.seq r.key r.value)
  [recordType] ++ leBytes 8 r.seq ++ leBytes 4 r.key.length ++ leBytes 4 r.value.length ++
    leBytes 4 crc.val ++ r.key ++ r.value

/-- The ranges of the source's field types: a u64 seq, and lengths below the
2^32 that the header can state. -/
structure Fits (r : Record) : Prop where
  seq : r.seq < 2 ^ 64
  key : r.key.length < 2 ^ 32
  value : r.value.length < 2 ^ 32

end Record

inductive DecodeOutcome where
  | ok (r : Record) (len : Nat)
  | incomplete
  | checksumMismatch
  deriving DecidableEq, Repr

/-- One record from the start of `buf`. -/
def decode (crc32 : Checksum) (buf : Bytes) : DecodeOutcome :=
  if buf.length < headerLen then .incomplete
  else
    let recordTypeByte := buf.headD 0
    let seq := ofLeBytes (slice buf 1 9)
    let keyLen := ofLeBytes (slice buf 9 13)
    let valueLen := ofLeBytes (slice buf 13 17)
    let storedCrc := ofLeBytes (slice buf 17 21)
    let totalLen := headerLen + keyLen + valueLen
    if buf.length < totalLen then .incomplete
    else
      let key := slice buf headerLen (headerLen + keyLen)
      let value := slice buf (headerLen + keyLen) totalLen
      let computedCrc := crc32 (Record.checksumInput recordTypeByte seq key value)
      if computedCrc.val ≠ storedCrc then .checksumMismatch
      else if recordTypeByte = 0 then .ok ⟨.put, seq, key, value⟩ totalLen
      else if recordTypeByte = 1 then .ok ⟨.delete, seq, key, value⟩ totalLen
      else .checksumMismatch

namespace Record
variable (crc32 : Checksum) (r : Record)

theorem length_encode : (r.encode crc32).length = r.encodedLen := by
  simp only [encode, encodedLen, headerLen, List.length_append, length_leBytes,
    List.length_singleton]

def header : Bytes :=
  [typeByte r.recordType] ++ leBytes 8 r.seq ++ leBytes 4 r.key.length ++
    leBytes 4 r.value.length ++
    leBytes 4 (crc32 (checksumInput (typeByte r.recordType) r.seq r.key r.value)).val

theorem length_header : (r.header crc32).length = headerLen := by
  simp only [header, headerLen, List.length_append, length_leBytes, List.length_singleton]

theorem encode_eq_header : r.encode crc32 = r.header crc32 ++ r.key ++ r.value := rfl

theorem encodedLen_pos : 0 < r.encodedLen := by
  simp only [encodedLen, headerLen]
  omega

theorem encode_ne_nil : r.encode crc32 ≠ [] := by
  intro h
  have hlen := length_encode crc32 r
  rw [h] at hlen
  have hpos := r.encodedLen_pos
  simp only [List.length_nil] at hlen
  omega

theorem encode_head (t : Bytes) : (r.encode crc32 ++ t).headD 0 = typeByte r.recordType := rfl

end Record

/-- What the header slices of a buffer that starts with an encoding hold. -/
structure HeaderOf (crc32 : Checksum) (r : Record) (buf : Bytes) : Prop where
  type : buf.headD 0 = Record.typeByte r.recordType
  seq : slice buf 1 9 = leBytes 8 r.seq
  keyLen : slice buf 9 13 = leBytes 4 r.key.length
  valueLen : slice buf 13 17 = leBytes 4 r.value.length
  crc : slice buf 17 21 =
    leBytes 4 (crc32 (Record.checksumInput (Record.typeByte r.recordType) r.seq r.key r.value)).val

theorem headerOf_encode (crc32 : Checksum) (r : Record) (t : Bytes) :
    HeaderOf crc32 r (r.encode crc32 ++ t) := by
  let ty := [Record.typeByte r.recordType]
  constructor
  · exact Record.encode_head crc32 r t
  · exact slice_of_parts (a := ty) (c := _)
      (by simp only [Record.encode, List.append_assoc]; rfl) rfl (by simp)
  · exact slice_of_parts (a := ty ++ leBytes 8 r.seq) (c := _)
      (by simp only [Record.encode, List.append_assoc]; rfl) (by simp [ty]) (by simp)
  · exact slice_of_parts (a := ty ++ leBytes 8 r.seq ++ leBytes 4 r.key.length) (c := _)
      (by simp only [Record.encode, List.append_assoc]; rfl) (by simp [ty]) (by simp)
  · exact slice_of_parts (c := _)
      (a := ty ++ leBytes 8 r.seq ++ leBytes 4 r.key.length ++ leBytes 4 r.value.length)
      (by simp only [Record.encode, List.append_assoc]; rfl) (by simp [ty]) (by simp)

/-- The header survives any cut that leaves it whole. -/
theorem headerOf_take (crc32 : Checksum) {r : Record} {n : Nat} (hn : headerLen ≤ n) :
    HeaderOf crc32 r ((r.encode crc32).take n) := by
  have h := headerOf_encode crc32 r []
  rw [List.append_nil] at h
  have hn' : 21 ≤ n := hn
  refine ⟨?_, ?_, ?_, ?_, ?_⟩
  · obtain ⟨m, rfl⟩ : ∃ m, n = m + 1 := ⟨n - 1, by omega⟩
    exact h.type
  all_goals rw [slice_take (by omega)]
  · exact h.seq
  · exact h.keyLen
  · exact h.valueLen
  · exact h.crc

/-- The total length that the header of a fitting record announces. -/
theorem HeaderOf.totalLen {crc32 : Checksum} {r : Record} {buf : Bytes}
    (h : HeaderOf crc32 r buf) (hr : r.Fits) :
    headerLen + ofLeBytes (slice buf 9 13) + ofLeBytes (slice buf 13 17) = r.encodedLen := by
  rw [h.keyLen, h.valueLen, ofLeBytes_leBytes hr.key, ofLeBytes_leBytes hr.value]
  rfl

theorem decode_encode_append (crc32 : Checksum) {r : Record} (hr : r.Fits) (t : Bytes) :
    decode crc32 (r.encode crc32 ++ t) = .ok r r.encodedLen := by
  have h := headerOf_encode crc32 r t
  have hlen : (r.encode crc32 ++ t).length = r.encodedLen + t.length := by
    rw [List.length_append, Record.length_encode]
  have hkey : slice (r.encode crc32 ++ t) headerLen (headerLen + r.key.length) = r.key :=
    slice_of_parts (a := r.header crc32) (c := r.value ++ t)
      (by rw [r.encode_eq_header, List.append_assoc]) (r.length_header crc32) rfl
  have hvalue : slice (r.encode crc32 ++ t) (headerLen + r.key.length) r.encodedLen = r.value :=
    slice_of_parts (a := r.header crc32 ++ r.key) (c := t) (by rw [r.encode_eq_header])
      (by rw [List.length_append, r.length_header crc32]) rfl
  have hk : ofLeBytes (leBytes 4 r.key.length) = r.key.length := ofLeBytes_leBytes hr.key
  have hv : ofLeBytes (leBytes 4 r.value.length) = r.value.length := ofLeBytes_leBytes hr.value
  have hs : ofLeBytes (leBytes 8 r.seq) = r.seq := ofLeBytes_leBytes hr.seq
  have hc : ∀ x : Fin (2 ^ 32), ofLeBytes (leBytes 4 x.val) = x.val :=
    fun x => ofLeBytes_leBytes x.isLt
  have htot : headerLen + r.key.length + r.value.length = r.encodedLen := rfl
  have hge : headerLen ≤ r.encodedLen := by simp only [Record.encodedLen]; omega
  unfold decode
  rw [if_neg (by omega)]
  simp only [h.type, h.seq, h.keyLen, h.valueLen, h.crc, hk, hv, hs, hc, htot, hkey, hvalue]
  rw [if_neg (by omega), if_neg (by simp)]
  obtain ⟨ty, seq, key, value⟩ := r
  cases ty with
  | put => rfl
  | delete => rfl

/-- A cut strictly inside a record is seen as an incomplete record, whatever the
checksum function. -/
theorem decode_take_incomplete (crc32 : Checksum) {r : Record} (hr : r.Fits) {n : Nat}
    (hn : n < r.encodedLen) : decode crc32 ((r.encode crc32).take n) = .incomplete := by
  have hlen : ((r.encode crc32).take n).length = n := by
    rw [List.length_take, Record.length_encode]
    omega
  unfold decode
  by_cases hh : n < headerLen
  · rw [if_pos (by omega)]
  · have htot := (headerOf_take crc32 (not_lt.mp hh)).totalLen hr
    rw [if_neg (by omega)]
    simp only [htot]
    rw [if_pos (by omega)]

/-- What an accepted buffer looks like: it starts with the encoding of the record
it was decoded to. -/
theorem decode_ok {crc32 : Checksum} {b : Bytes} {r : Record} {n : Nat}
    (h : decode crc32 b = .ok r n) :
    n = r.encodedLen ∧ n ≤ b.length ∧ r.encode crc32 = b.take n ∧ r.Fits := by
  unfold decode at h
  split at h
  · cases h
  rename_i h21
  simp only at h
  split at h
  · cases h
  rename_i htot
  split at h
  · cases h
  rename_i hcrc
  have hlen21 : 21 ≤ b.length := not_lt.mp h21
  have hK : ofLeBytes (slice b 9 13) < 2 ^ 32 := ofLeBytes_slice_lt 9 4 (by omega)
  have hV : ofLeBytes (slice b 13 17) < 2 ^ 32 := ofLeBytes_slice_lt 13 4 (by omega)
  have hS : ofLeBytes (slice b 1 9) < 2 ^ 64 := ofLeBytes_slice_lt 1 8 (by omega)
  have hcrc' := not_not.mp hcrc
  set K := ofLeBytes (slice b 9 13) with hKdef
  set V := ofLeBytes (slice b 13 17) with hVdef
  have hkl : (slice b headerLen (headerLen + K)).length = K := by
    simp only [length_slice]
    omega
  have hvl : (slice b (headerLen + K) (headerLen + K + V)).length = V := by
    simp only [length_slice]
    omega
  have accepted : ∀ ty : RecordType, b.headD 0 = Record.typeByte ty →
      r = ⟨ty, ofLeBytes (slice b 1 9), slice b headerLen (headerLen + K),
        slice b (headerLen + K) (headerLen + K + V)⟩ → n = headerLen + K + V →
      n = r.encodedLen ∧ n ≤ b.length ∧ r.encode crc32 = b.take n ∧ r.Fits := by
    intro ty hty hr hn
    subst hr hn
    refine ⟨?_, by omega, ?_, ⟨hS, hkl.trans_lt hK, hvl.trans_lt hV⟩⟩
    · simp only [Record.encodedLen, hkl, hvl]
    · have hhead : [b.headD 0] = slice b 0 1 := by
        cases b with
        | nil => simp at hlen21
        | cons x xs => rfl
      simp only [Record.encode, hkl, hvl, ← hty, hcrc']
      -- every field equals the slice it was read from, and adjacent slices join up
      rw [hKdef, hVdef, leBytes_ofLeBytes_slice 1 8 (by omega),
        leBytes_ofLeBytes_slice 9 4 (by omega),
        leBytes_ofLeBytes_slice 13 4 (by omega),
        leBytes_ofLeBytes_slice 17 4 (by omega), ← hKdef, ← hVdef, hhead,
        slice_append_slice (by omega) (by omega), slice_append_slice (by omega) (by omega),
        slice_append_slice (by omega) (by omega), slice_append_slice (by omega) (by omega),
        show headerLen = 17 + 4 from rfl, slice_append_slice (by omega) (by omega),
        slice_append_slice (by omega) (by omega)]
      rfl
  split at h
  · rename_i h0
    cases h
    exact accepted .put h0 rfl rfl
  · split at h
    · rename_i h1
      cases h
      exact accepted .delete h1 rfl rfl
    · cases h

/-- No encoding of a fitting record is a proper prefix of another one. -/
theorem encode_prefix_free (crc32 : Checksum) {r r' : Record} (hr : r.Fits) (hr' : r'.Fits)
    (h : r.encode crc32 <+: r'.encode crc32) : r = r' := by
  obtain ⟨t, ht⟩ := h
  have hfirst := decode_encode_append crc32 hr t
  have hsecond := decode_encode_append crc32 hr' []
  rw [List.append_nil, ← ht, hfirst] at hsecond
  cases hsecond
  rfl

/-- The format loses nothing and accepts nothing else: a record is read back whatever
follows it, a proper prefix of it is incomplete, and an accepted buffer starts with the
encoding of the record it was decoded to. -/
theorem record_format_inverse (crc32 : Checksum) :
    (∀ r : Record, r.Fits → ∀ t, decode crc32 (r.encode crc32 ++ t) = .ok r r.encodedLen) ∧
      (∀ r : Record, r.Fits → ∀ p, p <+: r.encode crc32 → p ≠ r.encode crc32 →
        decode crc32 p = .incomplete) ∧
      (∀ b r n, decode crc32 b = .ok r n →
        n ≤ b.length ∧ n = r.encodedLen ∧ r.encode crc32 = b.take n) ∧
      (∀ r r' : Record, r.Fits → r'.Fits → r ≠ r' →
        r.encode crc32 ≠ r'.encode crc32 ∧ ¬ r.encode crc32 <+: r'.encode crc32) := by
  refine ⟨fun r hr => decode_encode_append crc32 hr, ?_, ?_, ?_⟩
  · intro r hr p hp hne
    have hcut := List.prefix_iff_eq_take.mp hp
    have hlt : p.length < r.encodedLen := by
      rw [← Record.length_encode crc32]
      exact lt_of_le_of_ne hp.length_le (fun heq => hne (hp.eq_of_length heq))
    rw [hcut]
    exact decode_take_incomplete crc32 hr hlt
  · intro b r n hb
    obtain ⟨hn, hle, htake, -⟩ := decode_ok hb
    exact ⟨hle, hn, htake⟩
  · intro r r' hr hr' hne
    have hnot : ¬ r.encode crc32 <+: r'.encode crc32 :=
      fun hp => hne (encode_prefix_free crc32 hr hr' hp)
    exact ⟨fun heq => hnot (heq ▸ List.prefix_rfl), hnot⟩

theorem record_format_inverse_delete :
    (Record.delete 7 [1, 2]).Fits ∧
      decode crc32Ieee ((Record.delete 7 [1, 2]).encode crc32Ieee ++ [9]) =
        .ok (Record.delete 7 [1, 2]) 23 :=
  have hfits : (Record.delete 7 [1, 2]).Fits := ⟨by decide, by decide, by decide⟩
  ⟨hfits, (record_format_inverse crc32Ieee).1 _ hfits [9]⟩

end Sietch
