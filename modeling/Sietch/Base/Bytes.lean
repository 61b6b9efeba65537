import Mathlib

/-! Byte strings: fixed-width little-endian integers, slices, and writes at an
offset of a buffer. Widths and offsets are natural numbers; a value too large
for its width is reduced, as an `as` cast reduces it. -/
namespace ByteString

abbrev Byte := Fin 256
abbrev Bytes := List Byte

/-- The literals of a byte share this instance. -/
instance byteNeZero : NeZero 256 := ⟨by decide⟩

/-- The `w` low bytes of `n`, least significant first. -/
def leBytes : Nat → Nat → Bytes
  | 0, _ => []
  | w+1, n => Fin.ofNat 256 n :: leBytes w (n / 256)

def ofLeBytes : Bytes → Nat
  | [] => 0
  | b :: bs => b.val + 256 * ofLeBytes bs

@[simp] theorem length_leBytes (w n : Nat) : (leBytes w n).length = w := by
  induction w generalizing n with
  | zero => rfl
  | succ w ih => simp only [leBytes, List.length_cons, ih]

theorem ofLeBytes_leBytes_mod (w n : Nat) : ofLeBytes (leBytes w n) = n % 256 ^ w := by
  induction w generalizing n with
  | zero => simp [leBytes, ofLeBytes, Nat.mod_one]
  | succ w ih =>
      simp only [leBytes, ofLeBytes, ih, Fin.ofNat]
      rw [Nat.pow_succ, Nat.mul_comm _ 256, Nat.mod_mul]

theorem ofLeBytes_leBytes {w n : Nat} (h : n < 256 ^ w) : ofLeBytes (leBytes w n) = n := by
  rw [ofLeBytes_leBytes_mod, Nat.mod_eq_of_lt h]

theorem ofLeBytes_lt (bs : Bytes) : ofLeBytes bs < 256 ^ bs.length := by
  induction bs with
  | nil => simp [ofLeBytes]
  | cons b bs ih =>
      simp only [ofLeBytes, List.length_cons, Nat.pow_succ]
      have hb := b.isLt
      omega

/-- Reading is canonical: the bytes are the encoding of the value read. -/
theorem leBytes_ofLeBytes (bs : Bytes) : leBytes bs.length (ofLeBytes bs) = bs := by
  induction bs with
  | nil => rfl
  | cons b bs ih =>
      have hb := b.isLt
      have hmod : (b.val + 256 * ofLeBytes bs) % 256 = b.val := by omega
      have hdiv : (b.val + 256 * ofLeBytes bs) / 256 = ofLeBytes bs := by omega
      simp only [List.length_cons, ofLeBytes, leBytes, hdiv, ih, Fin.ofNat, hmod]

/-- Big-endian bytes. -/
def beBytes (w n : Nat) : Bytes := (leBytes w n).reverse

def ofBeBytes (bs : Bytes) : Nat := ofLeBytes bs.reverse

@[simp] theorem length_beBytes (w n : Nat) : (beBytes w n).length = w := by
  rw [beBytes, List.length_reverse, length_leBytes]

theorem ofBeBytes_beBytes {w n : Nat} (h : n < 256 ^ w) : ofBeBytes (beBytes w n) = n := by
  rw [ofBeBytes, beBytes, List.reverse_reverse, ofLeBytes_leBytes h]

theorem beBytes_ofBeBytes (bs : Bytes) : beBytes bs.length (ofBeBytes bs) = bs := by
  have hle := leBytes_ofLeBytes bs.reverse
  rw [List.length_reverse] at hle
  rw [beBytes, ofBeBytes, hle, List.reverse_reverse]

/-- The bytes of the half-open range `lo..hi`. -/
def slice (b : Bytes) (lo hi : Nat) : Bytes := (b.take hi).drop lo

@[simp] theorem length_slice (b : Bytes) (lo hi : Nat) :
    (slice b lo hi).length = min hi b.length - lo := by
  simp [slice]

theorem slice_append_left {a b : Bytes} {lo hi : Nat} (h : hi ≤ a.length) :
    slice (a ++ b) lo hi = slice a lo hi := by
  simp [slice, List.take_append_of_le_length h]

theorem slice_append_right {a b : Bytes} {lo hi : Nat} (h : a.length ≤ lo) :
    slice (a ++ b) lo hi = slice b (lo - a.length) (hi - a.length) := by
  simp only [slice, List.take_append, List.drop_append]
  have ha : (List.take hi a).drop lo = [] := by
    apply List.drop_eq_nil_of_le
    simp only [List.length_take]
    omega
  rw [ha, List.nil_append]
  by_cases hh : a.length ≤ hi
  · congr 1
    simp only [List.length_take]
    omega
  · have hz : hi - a.length = 0 := by omega
    simp [hz]

theorem slice_append_middle (a b c : Bytes) :
    slice (a ++ b ++ c) a.length (a.length + b.length) = b := by
  rw [slice_append_left (by simp), slice_append_right le_rfl]
  simp [slice]

/-- A field is read back wherever the buffer is cut around it. -/
theorem slice_of_parts {buf a b c : Bytes} {lo hi : Nat} (h : buf = a ++ b ++ c)
    (hlo : a.length = lo) (hhi : lo + b.length = hi) : slice buf lo hi = b := by
  subst h hlo hhi
  exact slice_append_middle a b c

theorem slice_take {b : Bytes} {lo hi n : Nat} (h : hi ≤ n) :
    slice (b.take n) lo hi = slice b lo hi := by
  simp only [slice, List.take_take, Nat.min_eq_left h]

theorem slice_append_slice {b : Bytes} {lo mid hi : Nat} (h1 : lo ≤ mid) (h2 : mid ≤ hi) :
    slice b lo mid ++ slice b mid hi = slice b lo hi := by
  simp only [slice]
  rw [← List.take_append_drop (mid - lo) ((b.take hi).drop lo), List.drop_drop]
  congr 1
  · rw [List.take_drop, List.take_take]
    congr 2
    omega
  · congr 1
    omega

/-- A little-endian field of a long enough buffer is canonical. -/
theorem leBytes_ofLeBytes_slice {b : Bytes} (lo w : Nat) (h : lo + w ≤ b.length) :
    leBytes w (ofLeBytes (slice b lo (lo + w))) = slice b lo (lo + w) := by
  have hw : (slice b lo (lo + w)).length = w := by
    simp only [length_slice]
    omega
  simpa only [hw] using leBytes_ofLeBytes (slice b lo (lo + w))

theorem ofLeBytes_slice_lt {b : Bytes} (lo w : Nat) (h : lo + w ≤ b.length) :
    ofLeBytes (slice b lo (lo + w)) < 256 ^ w := by
  have hw : (slice b lo (lo + w)).length = w := by
    simp only [length_slice]
    omega
  simpa only [hw] using ofLeBytes_lt (slice b lo (lo + w))

/-- `d` written over `b` from offset `pos` on, past its end if need be. -/
def writeAt (b : Bytes) (pos : Nat) (d : Bytes) : Bytes :=
  b.take pos ++ List.replicate (pos - b.length) 0 ++ d ++ b.drop (pos + d.length)

/-- A buffer cut or zero-filled to `n` bytes. -/
def setLen (b : Bytes) (n : Nat) : Bytes := b.take n ++ List.replicate (n - b.length) 0

theorem setLen_of_le {b : Bytes} {n : Nat} (h : n ≤ b.length) : setLen b n = b.take n := by
  simp [setLen, Nat.sub_eq_zero_of_le h]

theorem writeAt_end (b d : Bytes) : writeAt b b.length d = b ++ d := by
  simp [writeAt, List.drop_eq_nil_of_le]

theorem writeAt_inside {b d : Bytes} {pos : Nat} (h : pos + d.length ≤ b.length) :
    writeAt b pos d = b.take pos ++ d ++ b.drop (pos + d.length) := by
  have hz : pos - b.length = 0 := by omega
  simp [writeAt, hz]

theorem length_writeAt {b d : Bytes} {pos : Nat} (h : pos + d.length ≤ b.length) :
    (writeAt b pos d).length = b.length := by
  rw [writeAt_inside h]
  simp only [List.length_append, List.length_take, List.length_drop]
  omega

theorem getElem?_writeAt {b d : Bytes} {pos : Nat} (h : pos + d.length ≤ b.length) (i : Nat) :
    (writeAt b pos d)[i]? =
      if pos ≤ i ∧ i < pos + d.length then d[i - pos]? else b[i]? := by
  rw [writeAt_inside h, List.append_assoc]
  have hp : (List.take pos b).length = pos := by simp only [List.length_take]; omega
  by_cases h1 : i < pos
  · rw [List.getElem?_append_left (by omega), List.getElem?_take_of_lt h1, if_neg (by omega)]
  · rw [List.getElem?_append_right (by omega), hp]
    by_cases h2 : i < pos + d.length
    · rw [List.getElem?_append_left (by omega), if_pos ⟨by omega, h2⟩]
    · rw [List.getElem?_append_right (by omega), List.getElem?_drop, if_neg (by omega)]
      congr 1
      omega

/-- The `len` bytes from offset `pos`. -/
def readAt (b : Bytes) (pos len : Nat) : Bytes := (b.drop pos).take len

theorem getElem?_readAt (b : Bytes) (pos len i : Nat) :
    (readAt b pos len)[i]? = if i < len then b[pos + i]? else none := by
  simp only [readAt, List.getElem?_take, List.getElem?_drop]

theorem readAt_append_left {a : Bytes} {pos len : Nat} (b : Bytes) (h : pos + len ≤ a.length) :
    readAt (a ++ b) pos len = readAt a pos len := by
  rw [readAt, readAt, List.drop_append_of_le_length (by omega), List.take_append_of_le_length]
  rw [List.length_drop]
  omega

theorem readAt_append_right (a b : Bytes) : readAt (a ++ b) a.length b.length = b := by
  rw [readAt, List.drop_left, List.take_length]

theorem readAt_take {b : Bytes} {pos len n : Nat} (h : pos + len ≤ n) :
    readAt (b.take n) pos len = readAt b pos len := by
  rw [readAt, readAt, List.drop_take, List.take_take, min_eq_left (by omega)]

theorem readAt_writeAt_same {b d : Bytes} {pos : Nat} (h : pos + d.length ≤ b.length) :
    readAt (writeAt b pos d) pos d.length = d := by
  apply List.ext_getElem?
  intro i
  rw [getElem?_readAt]
  split
  · rw [getElem?_writeAt h, if_pos ⟨by omega, by omega⟩]
    congr 1
    omega
  · exact (List.getElem?_eq_none (by omega)).symm

theorem length_readAt {b : Bytes} {pos len : Nat} (h : pos + len ≤ b.length) :
    (readAt b pos len).length = len := by
  rw [readAt, List.length_take, List.length_drop]
  omega

/-- Writing back what was read changes nothing. -/
theorem writeAt_readAt {b : Bytes} {pos len : Nat} (h : pos + len ≤ b.length) :
    writeAt b pos (readAt b pos len) = b := by
  have hlen := length_readAt h
  rw [writeAt_inside (by rw [hlen]; exact h), hlen, readAt, ← List.drop_drop, List.append_assoc,
    List.take_append_drop, List.take_append_drop]

theorem readAt_writeAt_disjoint {b d : Bytes} {pos at' len : Nat}
    (h : pos + d.length ≤ b.length) (hd : at' + len ≤ pos ∨ pos + d.length ≤ at') :
    readAt (writeAt b pos d) at' len = readAt b at' len := by
  apply List.ext_getElem?
  intro i
  rw [getElem?_readAt, getElem?_readAt]
  split
  · rw [getElem?_writeAt h, if_neg (by omega)]
  · rfl

end ByteString
