import BitprimCore.Constants
import BitprimCore.Library.Saturating

/-!
# Bounded arithmetic

The functions of `math/limits` at the types that validation uses: `uint64_t` and `size_t`, which
are of 64 bits, and `uint32_t`. A function that throws returns an option.
-/

namespace BitprimCore

variable (left right : Nat)

/-- The sum of two 64-bit numbers, or the greatest one in case of overflow. -/
def ceilingAdd : Nat := Saturating.add maxUint64 left right

/-- The difference, or zero in case of underflow. -/
def floorSubtract : Nat := if right ≥ left then 0 else left - right

/-- The 32-bit number of this value; a value out of range throws (`safe_unsigned`). -/
def safeUnsigned32 (value : Nat) : Option UInt32 :=
  if value > maxUint32 then none else some (UInt32.ofNat value)

/-- The value constrained to a range (`range_constrain`). -/
def rangeConstrain (value minimum maximum : Int) : Int :=
  if value < minimum then minimum
  else if value > maximum then maximum
  else value

/-- The value constrained to the 32-bit numbers (`domain_constrain<uint32_t>`). -/
def domainConstrain32 (value : Int) : UInt32 :=
  if value < 0 then 0
  else if value > maxUint32 then 0xffffffff
  else UInt32.ofNat value.toNat

/-- A total that `std::accumulate` adds up with `ceiling_add`. -/
def accumulateCeiling {α : Type*} (items : List α) (value : α → Nat) : Nat :=
  Saturating.sum maxUint64 (items.map value)

@[simp] theorem floorSubtract_eq : floorSubtract left right = left - right := by
  unfold floorSubtract
  split <;> omega

theorem ceilingAdd_le {left right : Nat} (h : right ≤ maxUint64) :
    ceilingAdd left right ≤ left + right := by
  rw [ceilingAdd, Saturating.add_eq_min h]
  exact min_le_right _ _

end BitprimCore
