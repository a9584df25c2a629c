import BitprimCore.Constants
import BitprimCore.Library.LittleEndian

/-!
# Script numbers

The sign-magnitude, little-endian numbers of the script machine (`machine/number`). The value is
an integer; the interpreter only builds numbers of at most five bytes, far inside 64 bits.
-/

namespace BitprimCore.Number

open LittleEndian (toNat)

def negativeMask : UInt8 := 0x80
def negative1 : UInt8 := 0x81
def negative0 : UInt8 := 0x80
def positive0 : UInt8 := 0
def positive1 : UInt8 := 1
def positive16 : UInt8 := 16

/-- Is the sign bit of the last byte set? -/
def isNegative (data : DataChunk) : Bool := (data.getLastD 0 &&& negativeMask) != 0

/-- Read a number of at most `maxSize` bytes. -/
def setData (data : DataChunk) (maxSize : Nat) : Option Int :=
  if data.length > maxSize then none
  else if data.isEmpty then some 0
  else if isNegative data then
    -- the sign bit is masked out of the magnitude
    some (-((toNat data - 0x80 * 256 ^ (data.length - 1) : Nat) : Int))
  else some (toNat data)

/-- The bytes of a magnitude, least significant first and without leading zeros; the fuel is the
number of bytes of the unsigned type. -/
def magnitudeBytes : (fuel : Nat) → Nat → DataChunk
  | 0, _ => []
  | fuel + 1, absolute =>
    if absolute = 0 then [] else UInt8.ofNat absolute :: magnitudeBytes fuel (absolute / 256)

/-- Write a number with the fewest bytes, the sign in the top bit of the last one. -/
def data (value : Int) : DataChunk :=
  if value = 0 then []
  else
    let bytes := magnitudeBytes 8 value.natAbs
    if isNegative bytes && decide (value < 0) then bytes ++ [negativeMask]
    else if isNegative bytes then bytes ++ [0]
    else if value < 0 then bytes.dropLast ++ [bytes.getLastD 0 ||| negativeMask]
    else bytes

/-- The value constrained to 32 signed bits. -/
def int32 (value : Int) : Int := max (-2147483648) (min 2147483647 value)

example : setData (data (-255)) 4 = some (-255) := by decide

end BitprimCore.Number
