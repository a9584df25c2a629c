import BitprimCore.Constants
import BitprimCore.Utility.Text

/-!
# Base 16

The hexadecimal text of bytes (`formats/base_16`), which is read back by the strict decoder.
-/

namespace BitprimCore

open List

variable (data : DataChunk)

/-- The digit of a number below sixteen, in lower case. -/
def hexDigit (n : Nat) : Char :=
  if n < 10 then Char.ofNat ('0'.toNat + n) else Char.ofNat ('a'.toNat + (n - 10))

/-- Two digits for each byte. -/
def encodeBase16 (data : DataChunk) : Text :=
  data.flatMap fun byte => [hexDigit (byte.toNat / 16), hexDigit (byte.toNat % 16)]

def isBase16 (c : Char) : Bool :=
  decide ('0' ≤ c ∧ c ≤ '9') || decide ('A' ≤ c ∧ c ≤ 'F') || decide ('a' ≤ c ∧ c ≤ 'f')

/-- The value of a digit. -/
def fromHex (c : Char) : Nat :=
  if 'A' ≤ c ∧ c ≤ 'F' then 10 + c.toNat - 'A'.toNat
  else if 'a' ≤ c ∧ c ≤ 'f' then 10 + c.toNat - 'a'.toNat
  else c.toNat - '0'.toNat

/-- The bytes of pairs of digits. -/
def decodeDigits : Text → DataChunk
  | high :: low :: rest => UInt8.ofNat (fromHex high <<< 4 + fromHex low) :: decodeDigits rest
  | _ => []

/-- An odd number of characters is an error, and so is any character that is not a digit. -/
def decodeBase16 (text : Text) : Option DataChunk :=
  if text.length % 2 ≠ 0 then none
  else if text.all isBase16 then some (decodeDigits text)
  else none

theorem hexDigit_spec : ∀ n : Fin 16, isBase16 (hexDigit n) ∧ fromHex (hexDigit n) = n := by
  decide

theorem length_encodeBase16 : (encodeBase16 data).length = 2 * data.length := by
  induction data with
  | nil => rfl
  | cons byte data ih =>
    simp only [encodeBase16, flatMap_cons, length_append, length_cons, length_nil] at ih ⊢
    omega

/-- Every character of an encoding is the digit of some number. -/
theorem exists_hexDigit_of_mem {data : DataChunk} {c : Char} (h : c ∈ encodeBase16 data) :
    ∃ n : Fin 16, c = hexDigit n := by
  obtain ⟨byte, -, hc⟩ := mem_flatMap.mp h
  have hbyte := byte.toNat_lt
  have hlow : byte.toNat % 16 < 16 := Nat.mod_lt _ (by omega)
  simp only [mem_cons, not_mem_nil, or_false] at hc
  obtain rfl | rfl := hc
  · exact ⟨⟨byte.toNat / 16, by omega⟩, rfl⟩
  · exact ⟨⟨byte.toNat % 16, hlow⟩, rfl⟩

theorem hexDigit_visible : ∀ n : Fin 16, ' ' < hexDigit n := by decide

theorem visible_of_mem_encodeBase16 {data : DataChunk} {c : Char} (h : c ∈ encodeBase16 data) :
    ' ' < c := by
  obtain ⟨n, rfl⟩ := exists_hexDigit_of_mem h
  exact hexDigit_visible n

theorem decodeDigits_encodeBase16 : decodeDigits (encodeBase16 data) = data := by
  induction data with
  | nil => rfl
  | cons byte data ih =>
    have hbyte := byte.toNat_lt
    have hhigh := (hexDigit_spec ⟨byte.toNat / 16, by omega⟩).2
    have hlow := (hexDigit_spec ⟨byte.toNat % 16, by omega⟩).2
    have hval : (byte.toNat / 16) <<< 4 + byte.toNat % 16 = byte.toNat := by
      rw [Nat.shiftLeft_eq]
      omega
    change UInt8.ofNat (fromHex (hexDigit (byte.toNat / 16)) <<< 4 +
      fromHex (hexDigit (byte.toNat % 16))) :: decodeDigits (encodeBase16 data) = byte :: data
    rw [hhigh, hlow, hval, UInt8.ofNat_toNat, ih]

/-- Bytes are read back from their text. -/
theorem decodeBase16_encodeBase16 : decodeBase16 (encodeBase16 data) = some data := by
  have hall : (encodeBase16 data).all isBase16 := by
    rw [all_eq_true]
    intro c hc
    obtain ⟨n, rfl⟩ := exists_hexDigit_of_mem hc
    exact (hexDigit_spec n).1
  rw [decodeBase16, length_encodeBase16, if_neg (by omega), if_pos hall, decodeDigits_encodeBase16]

end BitprimCore
