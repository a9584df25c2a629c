import BitprimCore.Constants
import Mathlib.Algebra.Group.Nat.Defs

/-!
# Compact numbers

The 32-bit floating point form of a 256-bit target (`chain/compact`): one byte of exponent, a sign
bit and 23 bits of mantissa.
-/

namespace BitprimCore

/-- A compact number (`compact`): the big number, its normal form and the overflow flag. -/
structure Compact where
  big : Nat
  normal : UInt32
  overflowed : Bool
  deriving DecidableEq, Repr

namespace Compact

def signBit : UInt32 := 0x00800000
def mantissaMax : UInt32 := 0x007fffff
def mantissaBits : UInt32 := 24

variable (exponent : Nat) (compact : UInt32)

/-- The sign bit is set. -/
def isNegated : Bool := (compact &&& signBit) != 0

/-- The bytes of a mantissa. -/
def log256 (mantissa : UInt32) : Nat :=
  if mantissa > 0x0000ffff then 3
  else if mantissa > 0x000000ff then 2
  else if mantissa > 0x00000000 then 1
  else 0

/-- The exponent would shift the mantissa more than 32 bytes. -/
def isOverflow (mantissa : UInt32) : Bool :=
  decide (mantissa > 0) && decide (exponent > 32 + 3 - log256 mantissa)

/-- The shift of a small number. -/
def shiftLow : Nat := 8 * (3 - exponent)

/-- The shift of a large number. -/
def shiftHigh : Nat := 8 * (exponent - 3)

/-- A byte each turn. -/
def logicalSizeLoop : (fuel : Nat) → Nat → Nat
  | 0, _ => 0
  | fuel + 1, value => if value = 0 then 0 else logicalSizeLoop fuel (value >>> 8) + 1

/-- The number of bytes of a 256-bit number without leading zeros. -/
def logicalSize (value : Nat) : Nat := logicalSizeLoop 32 value

/-- The big number, or nothing on overflow; a number with the sign bit is zero. -/
def fromCompact : Option Nat :=
  if isNegated compact then some 0
  else
    let mantissa := compact &&& mantissaMax
    let exponent := (compact >>> mantissaBits).toNat
    if exponent ≤ 3 then some (mantissa.toNat >>> shiftLow exponent)
    else if isOverflow exponent mantissa then none
    else some ((mantissa.toNat <<< shiftHigh exponent) % 2 ^ 256)

/-- The normal form; a mantissa that would carry the sign bit is shifted into the exponent. -/
def fromBig (big : Nat) : UInt32 :=
  let exponent := logicalSize big
  let mantissa64 :=
    if exponent ≤ 3 then (big % 2 ^ 64) <<< shiftLow exponent % 2 ^ 64
    else (big >>> shiftHigh exponent) % 2 ^ 64
  let mantissa := UInt32.ofNat mantissa64
  if isNegated mantissa then (UInt32.ofNat (exponent + 1) <<< mantissaBits) ||| (mantissa >>> 8)
  else (UInt32.ofNat exponent <<< mantissaBits) ||| mantissa

/-- Construction from a 32-bit number; an overflow leaves the big number zero. -/
def ofUInt32 : Compact :=
  match fromCompact compact with
  | none => { big := 0, normal := fromBig 0, overflowed := true }
  | some big => { big, normal := fromBig big, overflowed := false }

/-- Construction from a 256-bit number. -/
def ofBig (big : Nat) : Compact where
  big
  normal := fromBig big
  overflowed := false

end Compact

end BitprimCore
