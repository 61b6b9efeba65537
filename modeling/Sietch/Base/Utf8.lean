import Sietch.Base.Bytes

/-! UTF-8 text as bytes, and its lossy reading: every byte sequence that is not a character is
replaced, text is left as it is. -/
namespace Utf8
open ByteString

/-- How many bytes the character takes that starts with this one; 0 for none. -/
def charWidth (lead : Byte) : Nat :=
  if lead.val < 0x80 then 1
  else if 0xC2 ≤ lead.val ∧ lead.val ≤ 0xDF then 2
  else if 0xE0 ≤ lead.val ∧ lead.val ≤ 0xEF then 3
  else if 0xF0 ≤ lead.val ∧ lead.val ≤ 0xF4 then 4
  else 0

def isContinuation (b : Byte) : Bool := 0x80 ≤ b.val ∧ b.val ≤ 0xBF

/-- The second byte excludes overlong forms, surrogates and numbers beyond Unicode. -/
def secondFits (lead second : Byte) : Bool :=
  isContinuation second ∧ (lead = 0xE0 → 0xA0 ≤ second.val) ∧ (lead = 0xED → second.val ≤ 0x9F) ∧
    (lead = 0xF0 → 0x90 ≤ second.val) ∧ (lead = 0xF4 → second.val ≤ 0x8F)

/-- The bytes that belong together at the start, and whether they are a character. -/
def chunk (lead : Byte) (rest : Bytes) : Nat × Bool :=
  let get i := (rest[i]?).getD 0
  if charWidth lead = 0 then (1, false)
  else if charWidth lead = 1 then (1, true)
  else if ¬ secondFits lead (get 0) then (1, false)
  else if charWidth lead = 2 then (2, true)
  else if ¬ isContinuation (get 1) then (2, false)
  else if charWidth lead = 3 then (3, true)
  else if ¬ isContinuation (get 2) then (3, false)
  else (4, true)

/-- A chunk has a byte, so the length is enough fuel. -/
def lossyLoop : Nat → Bytes → Bytes
  | fuel + 1, lead :: rest =>
      let (n, whole) := chunk lead rest
      (if whole then (lead :: rest).take n else [0xEF, 0xBF, 0xBD]) ++
        lossyLoop fuel ((lead :: rest).drop n)
  | _, _ => []

def lossy (bytes : Bytes) : Bytes := lossyLoop bytes.length bytes

def validLoop : Nat → Bytes → Bool
  | fuel + 1, lead :: rest =>
      let (n, whole) := chunk lead rest
      whole && validLoop fuel ((lead :: rest).drop n)
  | _, bytes => bytes.isEmpty

def valid (bytes : Bytes) : Bool := validLoop bytes.length bytes

theorem lossyLoop_valid {fuel : Nat} {bytes : Bytes} (h : validLoop fuel bytes = true) :
    lossyLoop fuel bytes = bytes := by
  induction fuel generalizing bytes with
  | zero =>
      cases bytes with
      | nil => rfl
      | cons lead rest => cases h
  | succ fuel ih =>
      cases bytes with
      | nil => rfl
      | cons lead rest =>
          simp only [validLoop, Bool.and_eq_true] at h
          simp only [lossyLoop, h.1, if_true, ih h.2, List.take_append_drop]

theorem lossy_valid {bytes : Bytes} (h : valid bytes = true) : lossy bytes = bytes :=
  lossyLoop_valid h

abbrev Text := { bytes : Bytes // valid bytes = true }

end Utf8
