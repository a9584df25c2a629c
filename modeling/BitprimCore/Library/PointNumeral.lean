import BitprimCore.Library.BaseConversion
import Mathlib.Data.Rat.Floor

/-!
# Numerals with a point

Strings of digits in front of and behind a point spell a rational number. Scaled by a power of the
base it is a quotient of natural numbers, and the string cut at the new place of the point is what
it is rounded down to.
-/

namespace Positional

/-- The number of digits with a point between them. -/
def pointValue (base : Nat) (whole fraction : List Nat) : ℚ :=
  value base whole + value base fraction / (base : ℚ) ^ fraction.length

section

variable {base places : Nat} (hbase : 0 < base) (whole fraction : List Nat)

include hbase

theorem pointValue_eq_div :
    pointValue base whole fraction =
      value base (whole ++ fraction) / (base : ℚ) ^ fraction.length := by
  have hne : (base : ℚ) ≠ 0 := Nat.cast_ne_zero.mpr hbase.ne'
  rw [pointValue, value_append]
  push_cast
  field_simp

/-- Zeros at the end do not count. -/
theorem pointValue_append_zeros (count : Nat) :
    pointValue base whole (fraction ++ List.replicate count 0) = pointValue base whole fraction := by
  have hne : (base : ℚ) ≠ 0 := Nat.cast_ne_zero.mpr hbase.ne'
  rw [pointValue, pointValue, value_append, value_replicate_zero, List.length_append,
    List.length_replicate, pow_add]
  push_cast
  field_simp
  ring

/-- The digits in front of the new place are what the scaled number is rounded down to. -/
theorem pointValue_append_mul_pow (rest : List Nat) (hlen : fraction.length = places) :
    pointValue base whole (fraction ++ rest) * (base : ℚ) ^ places =
      value base (whole ++ fraction) + value base rest / (base : ℚ) ^ rest.length := by
  have hne : (base : ℚ) ≠ 0 := Nat.cast_ne_zero.mpr hbase.ne'
  rw [pointValue_eq_div hbase, ← List.append_assoc, value_append, List.length_append, hlen, pow_add]
  push_cast
  field_simp

end

section

variable {number remainder divisor : Nat} (h : remainder < divisor)

include h

/-- A whole number and a proper fraction are rounded up to the next whole number, unless the
fraction is zero. -/
theorem natCeil_add_div :
    ⌈(number : ℚ) + remainder / divisor⌉₊ = number + if remainder = 0 then 0 else 1 := by
  have hdivisor : (0 : ℚ) < divisor := Nat.cast_pos.mpr (Nat.zero_lt_of_lt h)
  split_ifs with hzero
  · rw [hzero, Nat.cast_zero, zero_div, add_zero, Nat.ceil_natCast, add_zero]
  · have hpos : (0 : ℚ) < (remainder : ℚ) / divisor :=
      div_pos (Nat.cast_pos.mpr (pos_of_ne_zero hzero)) hdivisor
    have hlt : (remainder : ℚ) / divisor < 1 := (div_lt_one hdivisor).mpr (Nat.cast_lt.mpr h)
    rw [Nat.ceil_eq_iff (Nat.succ_ne_zero number), Nat.succ_sub_one]
    push_cast
    constructor <;> linarith

theorem exists_natCast_eq_iff :
    (∃ k : Nat, (number : ℚ) + remainder / divisor = k) ↔ remainder = 0 := by
  have hceil : ⌈(number : ℚ) + remainder / divisor⌉₊ = _ := natCeil_add_div h
  constructor
  · rintro ⟨k, hk⟩
    by_contra hzero
    rw [hk, Nat.ceil_natCast, if_neg hzero] at hceil
    have hdivisor : (0 : ℚ) < divisor := Nat.cast_pos.mpr (Nat.zero_lt_of_lt h)
    have hlt : (remainder : ℚ) / divisor < 1 := (div_lt_one hdivisor).mpr (Nat.cast_lt.mpr h)
    rw [hceil] at hk
    push_cast at hk
    linarith
  · rintro rfl
    exact ⟨number, by rw [Nat.cast_zero, zero_div, add_zero]⟩

end

end Positional
