import Mathlib.Data.List.Basic
import Mathlib.Tactic.Ring

/-!
# Little-endian byte strings

The reading of a byte string as a number, least significant byte first, and the fixed-width
writing of a number. Writing then reading returns the number modulo the width; reading then
writing returns the string.
-/

namespace LittleEndian

variable (bytes : List UInt8)

/-- The number a byte string spells, least significant byte first. -/
def toNat : List UInt8 → Nat
  | [] => 0
  | byte :: bytes => byte.toNat + 256 * toNat bytes

/-- The `width` low bytes of a number, least significant first. -/
def ofNat : (width : Nat) → Nat → List UInt8
  | 0, _ => []
  | width + 1, value => UInt8.ofNat value :: ofNat width (value / 256)

@[simp] theorem toNat_nil : toNat [] = 0 := rfl

@[simp] theorem toNat_cons (byte : UInt8) (bytes : List UInt8) :
    toNat (byte :: bytes) = byte.toNat + 256 * toNat bytes := rfl

@[simp] theorem length_ofNat (width value : Nat) : (ofNat width value).length = width := by
  induction width generalizing value with
  | zero => rfl
  | succ width ih => simp [ofNat, ih]

theorem toNat_lt : toNat bytes < 256 ^ bytes.length := by
  induction bytes with
  | nil => simp
  | cons byte bytes ih =>
    have hbyte : byte.toNat < 256 := byte.toNat_lt
    rw [toNat_cons, List.length_cons, pow_succ]
    omega

theorem toNat_eq_zero_iff {bytes : List UInt8} : toNat bytes = 0 ↔ ∀ byte ∈ bytes, byte = 0 := by
  induction bytes with
  | nil => simp
  | cons byte bytes ih =>
    have hbyte : byte.toNat = (0 : UInt8).toNat ↔ byte = 0 := UInt8.toNat_inj
    rw [toNat_cons, List.forall_mem_cons, ← ih, ← hbyte, UInt8.toNat_zero]
    omega

/-- Reading what was written gives the number back modulo the width. -/
theorem toNat_ofNat (width value : Nat) : toNat (ofNat width value) = value % 256 ^ width := by
  induction width generalizing value with
  | zero => simp [ofNat, Nat.mod_one]
  | succ width ih =>
    rw [ofNat, toNat_cons, ih, pow_succ, mul_comm (256 ^ width), Nat.mod_mul]
    simp

/-- Writing what was read gives the string back. -/
theorem ofNat_toNat : ofNat bytes.length (toNat bytes) = bytes := by
  induction bytes with
  | nil => rfl
  | cons byte bytes ih =>
    have hbyte : byte.toNat < 256 := byte.toNat_lt
    have hdiv : (byte.toNat + 256 * toNat bytes) / 256 = toNat bytes := by omega
    have hhead : UInt8.ofNat (byte.toNat + 256 * toNat bytes) = byte := by
      apply UInt8.toNat_inj.mp
      rw [UInt8.toNat_ofNat']
      omega
    rw [toNat_cons, List.length_cons, ofNat, hdiv, ih, hhead]

theorem ofNat_injOn {width m n : Nat} (hm : m < 256 ^ width) (hn : n < 256 ^ width)
    (h : ofNat width m = ofNat width n) : m = n := by
  have hread := congrArg toNat h
  rwa [toNat_ofNat, toNat_ofNat, Nat.mod_eq_of_lt hm, Nat.mod_eq_of_lt hn] at hread

end LittleEndian
