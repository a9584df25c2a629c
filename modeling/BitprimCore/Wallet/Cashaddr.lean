import BitprimCore.Constants
import BitprimCore.Utility.Text

/-!
# Cash address text

The text of values of five bits behind a prefix, with a checksum of eight values over both
(`wallet/cashaddr`).

## Implementation notes

A pair of an empty prefix and no values is what a text that is not accepted decodes to. The range of
the values without the checksum is undefined if there are fewer than eight; then there is no result.
-/

namespace BitprimCore.Cashaddr

/-- The digits. -/
def charset : List Char := "qpzry9x8gf2tvdw0s3jn54khce6mua7l".toList

/-- The value of a character. -/
def charsetRev : List Int :=
  [-1, -1, -1, -1, -1, -1, -1, -1, -1, -1, -1, -1, -1, -1, -1, -1, -1, -1, -1,
    -1, -1, -1, -1, -1, -1, -1, -1, -1, -1, -1, -1, -1, -1, -1, -1, -1, -1, -1,
    -1, -1, -1, -1, -1, -1, -1, -1, -1, -1, 15, -1, 10, 17, 21, 20, 26, 30, 7,
    5, -1, -1, -1, -1, -1, -1, -1, 29, -1, 24, 13, 25, 9, 8, 23, -1, 18, 22,
    31, 27, 19, -1, 1, 0, 3, 16, 11, 28, 12, 14, 6, 4, 2, -1, -1, -1, -1,
    -1, -1, 29, -1, 24, 13, 25, 9, 8, 23, -1, 18, 22, 31, 27, 19, -1, 1, 0,
    3, 16, 11, 28, 12, 14, 6, 4, 2, -1, -1, -1, -1, -1]

/-- One turn of the loop of `poly_mod`. -/
def polyStep (c : UInt64) (d : UInt8) : UInt64 :=
  let c0 := (c >>> 35).toUInt8
  let c := ((c &&& 0x07ffffffff) <<< 5) ^^^ d.toUInt64
  let c := if c0 &&& 0x01 ≠ 0 then c ^^^ 0x98f2bc8e61 else c
  let c := if c0 &&& 0x02 ≠ 0 then c ^^^ 0x79b76d99e2 else c
  let c := if c0 &&& 0x04 ≠ 0 then c ^^^ 0xf33e5fb3c4 else c
  let c := if c0 &&& 0x08 ≠ 0 then c ^^^ 0xae2eabe2a8 else c
  if c0 &&& 0x10 ≠ 0 then c ^^^ 0x1e4f43e470 else c

/-- What to add to the last eight values to make the checksum zero, packed into 40 bits. -/
def polyMod (v : DataChunk) : UInt64 := v.foldl polyStep 1 ^^^ 1

/-- Assume the input is a letter. -/
def lowerCase (c : Char) : Char := Char.ofNat (c.toNat ||| 0x20)

/-- Expand the address prefix for the checksum computation. -/
def expandPrefix (text : Text) : DataChunk :=
  (text.map fun c => UInt8.ofNat c.toNat &&& 0x1f) ++ [0]

variable (prefixText : Text) (payload : DataChunk)

/-- The remainder must be zero. -/
def verifyChecksum : Bool := polyMod (expandPrefix prefixText ++ payload) == 0

/-- Makes the remainder zero. -/
def createChecksum : DataChunk :=
  let mod := polyMod (expandPrefix prefixText ++ payload ++ List.replicate 8 0)
  (List.range 8).map fun i => (mod >>> UInt64.ofNat (5 * (7 - i))).toUInt8 &&& 0x1f

/-- The character of a value below 32. -/
def toCharset (value : UInt8) : Char := charset.getD value.toNat '\x00'

/-- Writes a cash address. -/
def encode : Text :=
  prefixText ++ ':' :: (payload ++ createChecksum prefixText payload).map toCharset

/-- What the sanity checks have seen. -/
structure Scan where
  lower : Bool := false
  upper : Bool := false
  hasNumber : Bool := false
  prefixSize : Nat := 0
  deriving DecidableEq

/-- There must be no number in front of the separator, and only one separator, which is not the
first character. -/
def Scan.next (scan : Scan) (i : Nat) (c : Char) : Option Scan :=
  if 'a' ≤ c ∧ c ≤ 'z' then some { scan with lower := true }
  else if 'A' ≤ c ∧ c ≤ 'Z' then some { scan with upper := true }
  else if '0' ≤ c ∧ c ≤ '9' then some { scan with hasNumber := true }
  else if c = ':' then
    if scan.hasNumber || i == 0 || scan.prefixSize != 0 then none
    else some { scan with prefixSize := i }
  else none

/-- Go over the string and do some sanity checks. -/
def Scan.run (scan : Scan) (i : Nat) : Text → Option Scan
  | [] => some scan
  | c :: rest => do
    let scan ← scan.next i c
    scan.run (i + 1) rest

/-- The value of a character, if it has one. -/
def fromCharset (c : Char) : Option UInt8 :=
  if c.toNat > 127 then none
  else
    let value := charsetRev.getD c.toNat (-1)
    if value = -1 then none else some (UInt8.ofNat value.toNat)

/-- The prefix in lower case and the values with their checksum. -/
def parse (str defaultPrefix : Text) : Option (Text × DataChunk) := do
  let scan ← Scan.run {} 0 str
  if scan.upper && scan.lower then none
  else if scan.prefixSize = 0 then
    let values ← str.mapM fromCharset
    return (defaultPrefix, values)
  else
    let values ← (str.drop (scan.prefixSize + 1)).mapM fromCharset
    return ((str.take scan.prefixSize).map lowerCase, values)

/-- Empty if it is rejected. -/
def decode (str defaultPrefix : Text) : Option (Text × DataChunk) :=
  match parse str defaultPrefix with
  | none => some ([], [])
  | some (prefixText, values) =>
    if !verifyChecksum prefixText values then some ([], [])
    else if values.length < 8 then none
    else some (prefixText, values.take (values.length - 8))

end BitprimCore.Cashaddr
