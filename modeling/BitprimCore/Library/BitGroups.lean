import Mathlib.Algebra.Order.Group.Nat
import Mathlib.Data.Nat.Bitwise

/-!
# Bits in groups

A sequence of bits cut into groups of one width, each read as a number with its most significant bit
first. The numbers give the bits back.
-/

namespace BitGroups

/-- The number of the bits from `start` on. -/
def value (bits : Nat → Bool) (start : Nat) : Nat → Nat
  | 0 => 0
  | count + 1 => 2 * value bits start count + (bits (start + count)).toNat

variable (bits : Nat → Bool) (start count : Nat)

theorem value_lt : value bits start count < 2 ^ count := by
  induction count with
  | zero => exact Nat.one_pos
  | succ count ih =>
    have hbit := Bool.toNat_lt (bits (start + count))
    rw [value, pow_succ]
    omega

theorem testBit_value {j : Nat} (hj : j < count) :
    (value bits start count).testBit (count - 1 - j) = bits (start + j) := by
  induction count with
  | zero => exact absurd hj (Nat.not_lt_zero j)
  | succ count ih =>
    have hbit : (bits (start + count)).toNat < 2 := Bool.toNat_lt _
    rw [value, Nat.add_sub_cancel]
    by_cases hlast : j = count
    · subst hlast
      rw [Nat.sub_self, Nat.testBit_zero]
      cases bits (start + j) <;> simp
    · have hidx : count - j = (count - 1 - j) + 1 := by omega
      have hhalf : (2 * value bits start count + (bits (start + count)).toNat) / 2 =
          value bits start count := by omega
      rw [hidx, Nat.testBit_add_one, hhalf]
      exact ih (by omega)

/-- The numbers of the first groups. -/
def groups (bits : Nat → Bool) (width count : Nat) : List Nat :=
  (List.range count).map fun i => value bits (width * i) width

/-- The bits of numbers in a row, and zero after the last. -/
def bitOf (width : Nat) (values : List Nat) (i : Nat) : Bool :=
  (values.getD (i / width) 0).testBit (width - 1 - i % width)

variable {bits} {width : Nat}

@[simp] theorem length_groups : (groups bits width count).length = count := by
  simp [groups]

theorem lt_of_mem_groups {value : Nat} (h : value ∈ groups bits width count) :
    value < 2 ^ width := by
  obtain ⟨i, -, rfl⟩ := List.mem_map.mp h
  exact value_lt bits (width * i) width

theorem bitOf_groups {i : Nat} (hi : i < width * count) :
    bitOf width (groups bits width count) i = bits i := by
  have hwidth : 0 < width := pos_of_ne_zero (by rintro rfl; simp at hi)
  have hgroup : i / width < count := Nat.div_lt_of_lt_mul hi
  have hget : (groups bits width count).getD (i / width) 0 =
      value bits (width * (i / width)) width := by
    simp [groups, List.getD_eq_getElem?_getD, hgroup]
  rw [bitOf, hget, testBit_value bits _ _ (Nat.mod_lt i hwidth), Nat.div_add_mod]

theorem bitOf_cons_of_lt (value : Nat) (values : List Nat) {i : Nat} (h : i < width) :
    bitOf width (value :: values) i = value.testBit (width - 1 - i) := by
  simp [bitOf, Nat.div_eq_of_lt h, Nat.mod_eq_of_lt h]

theorem bitOf_cons_of_le (hwidth : 0 < width) (value : Nat) (values : List Nat) {i : Nat}
    (h : width ≤ i) : bitOf width (value :: values) i = bitOf width values (i - width) := by
  obtain ⟨j, rfl⟩ := Nat.exists_eq_add_of_le' h
  simp [bitOf, Nat.add_div_right j hwidth]

end BitGroups
