import Mathlib

/-! Decimal numbers as text: written with leading zeros up to a width, and read by a parser that
stops at the first character that is no digit and at the bound of its integer type. -/
namespace Decimal

/-- At least `width` digits, the missing ones zeros in front. -/
def padded (width n : Nat) : List Char := (Nat.toDigits 10 n).leftpad width '0'

def digitValue (c : Char) : Option Nat := if c.isDigit then some (c.toNat - 48) else none

/-- Reads the digits that follow `value`. -/
def parseDigits (bound : Nat) : Nat → List Char → Option Nat
  | value, [] => some value
  | value, c :: rest =>
      match digitValue c with
      | none => none
      | some d =>
          if value * 10 + d < bound then parseDigits bound (value * 10 + d) rest else none

/-- An unsigned number below `bound`: digits, at least one, after an optional plus. -/
def parse (bound : Nat) : List Char → Option Nat
  | [] => none
  | c :: rest =>
      if c = '+' then if rest = [] then none else parseDigits bound 0 rest
      else parseDigits bound 0 (c :: rest)

theorem digitValue_digitChar {d : Nat} (hd : d < 10) : digitValue d.digitChar = some d := by
  interval_cases d <;> rfl

theorem parseDigits_append (bound value : Nat) (xs ys : List Char) :
    parseDigits bound value (xs ++ ys) =
      (parseDigits bound value xs).bind (parseDigits bound · ys) := by
  induction xs generalizing value with
  | nil => rfl
  | cons c xs ih =>
      simp only [List.cons_append, parseDigits]
      cases digitValue c with
      | none => rfl
      | some d =>
          dsimp only
          split
          · exact ih _
          · rfl

theorem parseDigits_toDigits {bound n : Nat} (hn : n < bound) :
    parseDigits bound 0 (Nat.toDigits 10 n) = some n := by
  induction n using Nat.strong_induction_on with
  | _ n ih =>
      by_cases hsmall : n < 10
      · rw [Nat.toDigits_of_lt_base hsmall]
        simp [parseDigits, digitValue_digitChar hsmall, hn]
      · have hvalue : n / 10 * 10 + n % 10 = n := by omega
        rw [Nat.toDigits_of_base_le (by norm_num) (not_lt.mp hsmall), parseDigits_append,
          ih (n / 10) (by omega) (by omega)]
        simp [parseDigits, digitValue_digitChar (Nat.mod_lt n (by norm_num)), hvalue, hn]

theorem parseDigits_zeros {bound : Nat} (hb : 0 < bound) (k : Nat) :
    parseDigits bound 0 (List.replicate k '0') = some 0 := by
  have hzero : digitValue '0' = some 0 := rfl
  induction k with
  | zero => rfl
  | succ k ih => simp [List.replicate_succ, parseDigits, hzero, hb, ih]

theorem mem_padded {width n : Nat} {c : Char} (hc : c ∈ padded width n) : c.isDigit = true := by
  rcases List.mem_append.mp hc with hc | hc
  · rw [List.eq_of_mem_replicate hc]
    rfl
  · exact Nat.isDigit_of_mem_toDigits (by norm_num) le_rfl hc

/-- A number that is written with leading zeros is read as itself. -/
theorem parse_padded {bound n : Nat} (hn : n < bound) (width : Nat) :
    parse bound (padded width n) = some n := by
  have hdigits : parseDigits bound 0 (padded width n) = some n := by
    unfold padded List.leftpad
    rw [parseDigits_append, parseDigits_zeros (by omega)]
    exact parseDigits_toDigits hn
  cases htext : padded width n with
  | nil =>
      have hlen := congrArg List.length htext
      simp [padded, Nat.toDigits_ne_nil] at hlen
  | cons c rest =>
      have hplus : c ≠ '+' := by
        rintro rfl
        have hdigit : '+'.isDigit = true := mem_padded (htext ▸ List.mem_cons_self)
        cases hdigit
      rw [parse, if_neg hplus, ← htext]
      exact hdigits

end Decimal
