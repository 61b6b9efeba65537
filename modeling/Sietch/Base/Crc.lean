import Sietch.Base.Bytes

/-! Cyclic redundancy checks, reflected: the register moves down bit by bit, and the polynomial
is added when a one falls out. A polynomial whose top bit is set loses nothing of the register,
so that a change of few consecutive bytes is always seen in the end. -/
namespace Crc
open ByteString

variable {w : Nat} (poly : BitVec w)

def shift (c : BitVec w) : BitVec w :=
  if c &&& 1#w = 1#w then (c >>> 1) ^^^ poly else c >>> 1

def absorb (c : BitVec w) (b : Byte) : BitVec w :=
  Nat.repeat (shift poly) 8 (c ^^^ BitVec.ofNat w b.val)

def register (c : BitVec w) (bytes : Bytes) : BitVec w := bytes.foldl (absorb poly) c

/-- The bytes as the register takes them up, the first in its lowest bits. -/
def word (w : Nat) (bytes : Bytes) : BitVec w := BitVec.ofNat w (ofLeBytes bytes)

section Shift
variable {poly}

theorem low_bit (hw : 0 < w) (c : BitVec w) : c &&& 1#w = 1#w ↔ c.getLsbD 0 = true := by
  constructor
  · intro h
    have hbit := congrArg (BitVec.getLsbD · 0) h
    simpa [hw] using hbit
  · intro h
    ext i hi
    by_cases hzero : i = 0
    · subst hzero
      simpa [BitVec.getLsbD_eq_getElem hi] using h
    · simp [BitVec.getElem_one, hzero]

theorem shift_of_bit (hw : 0 < w) (c : BitVec w) :
    shift poly c = if c.getLsbD 0 then (c >>> 1) ^^^ poly else c >>> 1 := by
  unfold shift
  simp only [low_bit hw]

/-- The register is linear. -/
theorem shift_xor (hw : 0 < w) (c d : BitVec w) :
    shift poly (c ^^^ d) = shift poly c ^^^ shift poly d := by
  simp only [shift_of_bit hw, BitVec.getLsbD_xor, BitVec.ushiftRight_xor_distrib]
  cases hc : c.getLsbD 0 with
  | false =>
      cases hd : d.getLsbD 0 with
      | false => rfl
      | true =>
          ext i hi
          simp
  | true =>
      cases hd : d.getLsbD 0 with
      | false =>
          ext i hi
          simpa using bne_comm
      | true =>
          ext i hi
          cases hp : poly[i] with
          | false => simp [hp]
          | true => simp [hp]

/-- The top bit of the polynomial tells whether a one has fallen out. -/
theorem shift_eq_zero (hw : 0 < w) (htop : poly.getLsbD (w - 1) = true) {c : BitVec w}
    (h : shift poly c = 0#w) : c = 0#w := by
  rw [shift_of_bit hw] at h
  cases hbit : c.getLsbD 0 with
  | true =>
      rw [hbit, if_pos rfl] at h
      have htopbit := congrArg (BitVec.getLsbD · (w - 1)) h
      have hout : c.getLsbD (1 + (w - 1)) = false := BitVec.getLsbD_of_ge c _ (by omega)
      simp [htop, hout] at htopbit
  | false =>
      rw [hbit, if_neg (by simp)] at h
      apply BitVec.eq_of_getLsbD_eq
      intro i hi
      cases i with
      | zero => simpa using hbit
      | succ i =>
          have hrest := congrArg (BitVec.getLsbD · i) h
          simpa [Nat.add_comm] using hrest

theorem shift_injective (hw : 0 < w) (htop : poly.getLsbD (w - 1) = true) :
    Function.Injective (shift poly) := by
  intro c d h
  have hzero : shift poly (c ^^^ d) = 0#w := by rw [shift_xor hw, h, BitVec.xor_self]
  exact BitVec.xor_eq_zero_iff.mp (shift_eq_zero hw htop hzero)

theorem iterate_shift_xor (hw : 0 < w) (n : Nat) (c d : BitVec w) :
    (shift poly)^[n] (c ^^^ d) = (shift poly)^[n] c ^^^ (shift poly)^[n] d := by
  induction n generalizing c d with
  | zero => rfl
  | succ n ih =>
      simp only [Function.iterate_succ_apply, shift_xor hw]
      exact ih _ _

/-- What has room below the top moves down unchanged. -/
theorem iterate_shift_shiftLeft (hw : 0 < w) (n : Nat) (c : BitVec w)
    (h : c.toNat * 2 ^ n < 2 ^ w) : (shift poly)^[n] (c <<< n) = c := by
  induction n with
  | zero => simp
  | succ n ih =>
      rw [Nat.pow_succ, ← Nat.mul_assoc] at h
      have hroom : c.toNat * 2 ^ n < 2 ^ w := by omega
      have hstep : shift poly (c <<< (n + 1)) = c <<< n := by
        rw [shift_of_bit hw, if_neg (by simp)]
        apply BitVec.eq_of_toNat_eq
        rw [BitVec.toNat_ushiftRight, BitVec.toNat_shiftLeft, BitVec.toNat_shiftLeft,
          Nat.shiftLeft_eq, Nat.shiftLeft_eq, Nat.pow_succ, ← Nat.mul_assoc, Nat.mod_eq_of_lt h,
          Nat.mod_eq_of_lt hroom, Nat.shiftRight_eq_div_pow]
        omega
      rw [Function.iterate_succ_apply, hstep, ih hroom]

end Shift

section Words

theorem absorb_eq (c : BitVec w) (b : Byte) :
    absorb poly c b = (shift poly)^[8] (c ^^^ BitVec.ofNat w b.val) := rfl

theorem register_append (c : BitVec w) (x y : Bytes) :
    register poly c (x ++ y) = register poly (register poly c x) y := List.foldl_append

theorem ofLeBytes_lt_width {bytes : Bytes} (h : 8 * bytes.length ≤ w) :
    ofLeBytes bytes < 2 ^ w := by
  have hpow : 256 ^ bytes.length ≤ 2 ^ w := by
    rw [show 256 = 2 ^ 8 from rfl, ← Nat.pow_mul]
    exact Nat.pow_le_pow_right (by decide) h
  exact (ofLeBytes_lt bytes).trans_le hpow

theorem word_toNat {bytes : Bytes} (h : 8 * bytes.length ≤ w) :
    (word w bytes).toNat = ofLeBytes bytes := by
  rw [word, BitVec.toNat_ofNat, Nat.mod_eq_of_lt (ofLeBytes_lt_width h)]

theorem word_cons (b : Byte) (bytes : Bytes) :
    word w (b :: bytes) = BitVec.ofNat w b.val ^^^ (word w bytes <<< 8) := by
  apply BitVec.eq_of_getLsbD_eq
  intro i hi
  have hsum := Nat.testBit_two_pow_mul_add (ofLeBytes bytes) (show b.val < 2 ^ 8 from b.isLt) i
  rw [Nat.add_comm, show 2 ^ 8 = 256 from rfl] at hsum
  rw [word, ofLeBytes, BitVec.getLsbD_ofNat, hsum, BitVec.getLsbD_xor, BitVec.getLsbD_shiftLeft,
    BitVec.getLsbD_ofNat, word, BitVec.getLsbD_ofNat]
  by_cases hlow : i < 8
  · simp [hlow, hi]
  · have hpow : 2 ^ 8 ≤ 2 ^ i := Nat.pow_le_pow_right (by decide) (not_lt.mp hlow)
    have hhigh : b.val.testBit i = false := Nat.testBit_lt_two_pow (b.isLt.trans_le hpow)
    simp [hlow, hi, hhigh, show i - 8 < w by omega]

/-- Few bytes are taken up as one word. -/
theorem register_word (hw : 0 < w) (c : BitVec w) {bytes : Bytes} (h : 8 * bytes.length ≤ w) :
    register poly c bytes = (shift poly)^[8 * bytes.length] (c ^^^ word w bytes) := by
  induction bytes generalizing c with
  | nil => simp [register, word, ofLeBytes]
  | cons b bytes ih =>
      rw [List.length_cons] at h
      have hbytes : 8 * bytes.length ≤ w := by omega
      have hroom : (word w bytes).toNat * 2 ^ 8 < 2 ^ w := by
        have hlt : ofLeBytes (b :: bytes) < 2 ^ w := ofLeBytes_lt_width h
        rw [ofLeBytes] at hlt
        rw [word_toNat hbytes]
        omega
      have hmoved : (shift poly)^[8] (word w bytes <<< 8) = word w bytes :=
        iterate_shift_shiftLeft hw 8 (word w bytes) hroom
      have hfirst : register poly c (b :: bytes) =
          register poly ((shift poly)^[8] (c ^^^ BitVec.ofNat w b.val)) bytes := rfl
      rw [hfirst, ih _ hbytes, word_cons, ← BitVec.xor_assoc, List.length_cons, Nat.mul_succ,
        Function.iterate_add_apply, iterate_shift_xor hw 8 (c ^^^ BitVec.ofNat w b.val), hmoved]

end Words

section Bursts
variable {poly} (hw : 0 < w) (htop : poly.getLsbD (w - 1) = true)
include hw htop

/-- A change of the register is never lost. -/
theorem register_injective (bytes : Bytes) :
    Function.Injective (fun c => register poly c bytes) := by
  induction bytes with
  | nil => exact fun _ _ h => h
  | cons b bytes ih =>
      intro c d h
      have hbyte : absorb poly c b = absorb poly d b := ih h
      rw [absorb_eq, absorb_eq] at hbyte
      exact (BitVec.xor_left_inj _).mp ((shift_injective hw htop).iterate 8 hbyte)

/-- A change of as many consecutive bytes as the register is wide is never lost. -/
theorem register_burst (c : BitVec w) (a b : Bytes) {x y : Bytes} (hlen : x.length = y.length)
    (h : 8 * x.length ≤ w)
    (heq : register poly c (a ++ x ++ b) = register poly c (a ++ y ++ b)) : x = y := by
  rw [register_append, register_append, register_append, register_append] at heq
  have hy : 8 * y.length ≤ w := hlen ▸ h
  have hword := register_injective hw htop b heq
  generalize register poly c a = c' at hword
  rw [register_word poly hw c' h, register_word poly hw c' hy, ← hlen] at hword
  have hxor := (shift_injective hw htop).iterate (8 * x.length) hword
  have hval := congrArg BitVec.toNat (BitVec.xor_right_inj c' |>.mp hxor)
  rw [word_toNat h, word_toNat hy] at hval
  rw [← leBytes_ofLeBytes x, ← leBytes_ofLeBytes y, hval, hlen]

end Bursts

/-- At most `n` consecutive bytes differ, none of them before `lo` or from `hi` on. -/
def Burst (n lo hi : Nat) (x y : Bytes) : Prop :=
  ∃ a u v b, x = a ++ u ++ b ∧ y = a ++ v ++ b ∧ u.length = v.length ∧ u.length ≤ n ∧ u ≠ v ∧
    lo ≤ a.length ∧ a.length + u.length ≤ hi

namespace Burst
variable {n lo hi : Nat} {x y p q : Bytes}

theorem of_set {i : Nat} {b c : Byte} (h : x[i]? = some b) (hne : b ≠ c) (hn : 0 < n) :
    Burst n i (i + 1) x (x.set i c) := by
  obtain ⟨hlt, hget⟩ := List.getElem?_eq_some_iff.mp h
  refine ⟨x.take i, [b], [c], x.drop (i + 1), ?_, ?_, rfl, hn, by simpa using hne, ?_, ?_⟩
  · rw [← hget, List.append_assoc, List.singleton_append, List.getElem_cons_drop,
      List.take_append_drop]
  · rw [List.set_eq_take_append_cons_drop, if_pos hlt, List.append_assoc, List.singleton_append]
  · rw [List.length_take]
    omega
  · rw [List.length_take, List.length_singleton]
    omega

theorem length_eq (h : Burst n lo hi x y) : x.length = y.length := by
  obtain ⟨a, u, v, b, rfl, rfl, hlen, -⟩ := h
  simp only [List.length_append, hlen]

theorem ne (h : Burst n lo hi x y) : x ≠ y := by
  obtain ⟨a, u, v, b, rfl, rfl, -, -, hne, -⟩ := h
  intro heq
  exact hne (List.append_cancel_left (List.append_cancel_right heq))

theorem context (h : Burst n lo hi x y) (p q : Bytes) :
    Burst n (p.length + lo) (p.length + hi) (p ++ x ++ q) (p ++ y ++ q) := by
  obtain ⟨a, u, v, b, rfl, rfl, hlen, hn, hne, ha, hb⟩ := h
  refine ⟨p ++ a, u, v, b ++ q, ?_, ?_, hlen, hn, hne, ?_, ?_⟩
  · simp only [List.append_assoc]
  · simp only [List.append_assoc]
  · rw [List.length_append]
    omega
  · rw [List.length_append]
    omega

theorem left (h : Burst n lo hi (p ++ q) y) (hp : hi ≤ p.length) :
    ∃ p', y = p' ++ q ∧ Burst n lo hi p p' := by
  obtain ⟨a, u, v, b, hx, rfl, hlen, hn, hne, ha, hb⟩ := h
  have hle : (a ++ u).length ≤ p.length := by
    rw [List.length_append]
    omega
  obtain ⟨c, rfl⟩ := (List.prefix_of_prefix_length_le ⟨b, hx.symm⟩ ⟨q, rfl⟩ hle : a ++ u <+: p)
  rw [List.append_assoc (a ++ u) c q] at hx
  have hrest := List.append_cancel_left hx
  exact ⟨a ++ v ++ c, by rw [← hrest, List.append_assoc (a ++ v) c q],
    a, u, v, c, rfl, rfl, hlen, hn, hne, ha, hb⟩

theorem right (h : Burst n lo hi (p ++ q) y) (hp : p.length ≤ lo) :
    ∃ q', y = p ++ q' ∧ Burst n (lo - p.length) (hi - p.length) q q' := by
  obtain ⟨a, u, v, b, hx, rfl, hlen, hn, hne, ha, hb⟩ := h
  rw [List.append_assoc] at hx
  obtain ⟨c, rfl⟩ := List.prefix_of_prefix_length_le ⟨q, rfl⟩ ⟨u ++ b, hx.symm⟩ (hp.trans ha)
  rw [List.append_assoc p c] at hx
  have hrest := List.append_cancel_left hx
  rw [List.length_append] at ha hb
  refine ⟨c ++ v ++ b, ?_, c, u, v, b, ?_, rfl, hlen, hn, hne, by omega, by omega⟩
  · simp only [List.append_assoc]
  · rw [hrest, List.append_assoc]

theorem register_ne {poly : BitVec w} (hw : 0 < w) (htop : poly.getLsbD (w - 1) = true)
    (h : Burst n lo hi x y) (hn : 8 * n ≤ w) (c : BitVec w) :
    register poly c x ≠ register poly c y := by
  obtain ⟨a, u, v, b, rfl, rfl, hlen, hle, hne, -⟩ := h
  intro heq
  exact hne (register_burst hw htop c a b hlen (by omega) heq)

theorem getElem?_eq (h : Burst n lo hi x y) {i : Nat} (hi' : i < lo ∨ hi ≤ i) : x[i]? = y[i]? := by
  obtain ⟨a, u, v, b, rfl, rfl, hlen, -, -, ha, hb⟩ := h
  rcases hi' with hlt | hge
  · rw [List.append_assoc, List.append_assoc, List.getElem?_append_left (by omega),
      List.getElem?_append_left (by omega)]
  · have hx : (a ++ u).length ≤ i := by
      rw [List.length_append]
      omega
    have hy : (a ++ v).length ≤ i := by
      rw [List.length_append, ← hlen]
      omega
    rw [List.getElem?_append_right hx, List.getElem?_append_right hy, List.length_append,
      List.length_append, hlen]

theorem readAt_eq (h : Burst n lo hi x y) {pos len : Nat} (hapart : hi ≤ pos ∨ pos + len ≤ lo) :
    readAt x pos len = readAt y pos len := by
  apply List.ext_getElem?
  intro i
  rw [getElem?_readAt, getElem?_readAt]
  split
  · exact h.getElem?_eq (by omega)
  · rfl

theorem readAt (h : Burst n lo hi x y) {pos len : Nat} (hpos : pos ≤ lo) (hend : hi ≤ pos + len)
    (hx : pos + len ≤ x.length) :
    Burst n (lo - pos) (hi - pos) (ByteString.readAt x pos len) (ByteString.readAt y pos len) := by
  have htake : (x.take pos).length = pos := by
    rw [List.length_take]
    omega
  rw [← List.take_append_drop pos x] at h
  obtain ⟨q, rfl, hq⟩ := h.right (htake.trans_le hpos)
  have hwindow : (ByteString.readAt x pos len).length = len := length_readAt hx
  rw [htake, ← List.take_append_drop len (x.drop pos)] at hq
  obtain ⟨p, rfl, hp⟩ := hq.left (by rw [← ByteString.readAt, hwindow]; omega)
  have hplen : p.length = len := hp.length_eq.symm.trans hwindow
  have hy : ByteString.readAt (x.take pos ++ (p ++ (x.drop pos).drop len)) pos len = p := by
    rw [ByteString.readAt, List.drop_left' htake, List.take_left' hplen]
  rw [hy]
  exact hp

end Burst

/-- A frame whose checksum of `n` bytes stands at a fixed place in it and covers all the rest. -/
def Framed (sum : Bytes → Bytes) (n at' : Nat) (x : Bytes) : Prop :=
  ∃ head tail, x = head ++ sum (head ++ tail) ++ tail ∧ head.length = at' ∧
    (sum (head ++ tail)).length = n

/-- The window lies within the checksum or within one of the parts around it. -/
def InField (n at' lo hi : Nat) : Prop := hi ≤ at' ∨ (at' ≤ lo ∧ hi ≤ at' + n) ∨ at' + n ≤ lo

theorem parts_inj {a b c a' b' c' : Bytes} (h : a ++ b ++ c = a' ++ b' ++ c')
    (ha : a.length = a'.length) (hb : b.length = b'.length) : a = a' ∧ b = b' ∧ c = c' := by
  rw [List.append_assoc, List.append_assoc] at h
  obtain ⟨hfirst, hrest⟩ := List.append_inj h ha
  exact ⟨hfirst, List.append_inj hrest hb⟩

/-- No short change of one field turns a frame into another frame. -/
theorem Framed.not_burst {sum : Bytes → Bytes} {n m at' lo hi : Nat} {x y : Bytes}
    (hsum : ∀ lo hi x y, Burst m lo hi x y → sum x ≠ sum y) (hx : Framed sum n at' x)
    (hy : Framed sum n at' y) (hfield : InField n at' lo hi) : ¬ Burst m lo hi x y := by
  intro hburst
  obtain ⟨head, tail, rfl, hhead, hlen⟩ := hx
  obtain ⟨head', tail', rfl, hhead', hlen'⟩ := hy
  rcases hfield with hbefore | ⟨hlo, hhi⟩ | hafter
  · rw [List.append_assoc] at hburst
    obtain ⟨p, hp, hpart⟩ := hburst.left (by omega)
    rw [← List.append_assoc] at hp
    obtain ⟨rfl, hsame, rfl⟩ := parts_inj hp (by rw [hhead', ← hhead, hpart.length_eq]) (by omega)
    have hwhole := hpart.context [] tail'
    exact hsum _ _ _ _ hwhole hsame.symm
  · obtain ⟨p, hp, hpart⟩ := hburst.left (by rw [List.length_append]; omega)
    obtain ⟨q, rfl, hq⟩ := hpart.right (by omega)
    obtain ⟨rfl, rfl, rfl⟩ := parts_inj hp (by omega) (by rw [← hq.length_eq]; omega)
    exact hq.ne rfl
  · obtain ⟨q, hq, hpart⟩ := hburst.right (by rw [List.length_append]; omega)
    obtain ⟨rfl, hsame, rfl⟩ := parts_inj hq (by omega) (by omega)
    have hwhole := hpart.context head' []
    rw [List.append_nil, List.append_nil] at hwhole
    exact hsum _ _ _ _ hwhole hsame.symm

end Crc
