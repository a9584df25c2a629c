import BitprimCore.Constants
import BitprimCore.Utility.Text
import Mathlib.Data.Nat.Bitwise

/-!
# Base 64

The text of bytes in groups of four characters for three bytes (`formats/base_64`). What is encoded
is decoded again. The decoder takes each character as it comes, into a number that is never
cleared, and returns at the first pad. So it sees neither the bits in front of a pad that no byte
takes up nor the character behind the first of two pads.
-/

namespace BitprimCore

open List

variable {value : UInt32} {text : Text} {data : DataChunk}

def base64Pad : Char := '='

def base64Table : List Char :=
  "ABCDEFGHIJKLMNOPQRSTUVWXYZabcdefghijklmnopqrstuvwxyz0123456789+/".toList

/-- The character of the masked bits of a number. -/
def base64Char (value mask shift : UInt32) : Char :=
  base64Table.getD ((value &&& mask) >>> shift).toNat '\x00'

/-- Groups of three bytes, and one or two bytes behind them. -/
def encodeBase64 : DataChunk → Text
  | a :: b :: c :: rest =>
    let value := (a.toUInt32 <<< 16) + (b.toUInt32 <<< 8) + c.toUInt32
    base64Char value 0x00FC0000 18 :: base64Char value 0x0003F000 12 ::
      base64Char value 0x00000FC0 6 :: base64Char value 0x0000003F 0 :: encodeBase64 rest
  | [a, b] =>
    let value := (a.toUInt32 <<< 16) + (b.toUInt32 <<< 8)
    [base64Char value 0x00FC0000 18, base64Char value 0x0003F000 12,
      base64Char value 0x00000FC0 6, base64Pad]
  | [a] =>
    let value := a.toUInt32 <<< 16
    [base64Char value 0x00FC0000 18, base64Char value 0x0003F000 12, base64Pad, base64Pad]
  | [] => []

/-- The six bits that a character adds to the number. -/
def base64Bits (c : Char) : Option UInt32 :=
  if 0x41 ≤ c.toNat ∧ c.toNat ≤ 0x5A then some (UInt32.ofNat (c.toNat - 0x41))
  else if 0x61 ≤ c.toNat ∧ c.toNat ≤ 0x7A then some (UInt32.ofNat (c.toNat - 0x47))
  else if 0x30 ≤ c.toNat ∧ c.toNat ≤ 0x39 then some (UInt32.ofNat (c.toNat + 0x04))
  else if c.toNat = 0x2B then some 0x3E
  else if c.toNat = 0x2F then some 0x3F
  else none

/-- A byte of the number. -/
def base64Byte (value shift : UInt32) : UInt8 := ((value >>> shift) &&& 0x000000FF).toUInt8

/-- The two loops, with the position in the group and the number. A pad ends them, by its distance
from the end of the text. -/
def decodeBase64Loop : Text → Nat → UInt32 → DataChunk → Option DataChunk
  | [], _, _, decoded => some decoded
  | c :: rest, position, value, decoded =>
    let value := value <<< 6
    match base64Bits c with
    | some bits =>
      let value := value ||| bits
      if position = 3 then
        decodeBase64Loop rest 0 value
          (decoded ++ [base64Byte value 16, base64Byte value 8, base64Byte value 0])
      else decodeBase64Loop rest (position + 1) value decoded
    | none =>
      if c = base64Pad then
        match rest.length + 1 with
        | 1 => some (decoded ++ [base64Byte value 16, base64Byte value 8])
        | 2 => some (decoded ++ [base64Byte value 10])
        | _ => none
      else none

/-- The size must be divisible by 4. -/
def decodeBase64 (text : Text) : Option DataChunk :=
  if text.length % 4 ≠ 0 then none else decodeBase64Loop text 0 0 []

theorem base64Bits_eq_of_lt :
    ∀ n < 128, base64Bits (Char.ofNat n) = (base64Table.idxOf? (Char.ofNat n)).map UInt32.ofNat := by
  decide +kernel

theorem toNat_lt_of_mem_base64Table {c : Char} (h : c ∈ base64Table) : c.toNat < 128 := by
  have hall : base64Table.all (fun c => decide (c.toNat < 128)) := by decide
  exact of_decide_eq_true (all_eq_true.mp hall c h)

variable (byte : UInt8) (c : Char) {shift : UInt32}

/-- The comparisons find the place of a character in the table. -/
theorem base64Bits_eq : base64Bits c = (base64Table.idxOf? c).map UInt32.ofNat := by
  by_cases hlt : c.toNat < 128
  · have hsmall := base64Bits_eq_of_lt c.toNat hlt
    rwa [Char.ofNat_toNat] at hsmall
  · have hnone : base64Table.idxOf? c = none := by
      rw [idxOf?_eq_none_iff]
      exact fun hmem => hlt (toNat_lt_of_mem_base64Table hmem)
    rw [hnone]
    unfold base64Bits
    split_ifs <;> first | omega | rfl

/-- The character of a digit. -/
def base64Digit (index : Nat) : Char := base64Table.getD index '\x00'

/-- A mask of six bits picks a digit of base 64. -/
theorem base64Char_eq {value shift : Nat} {mask shift' : UInt32} (hval : value < 2 ^ 32)
    (hshift : shift'.toNat = shift) (hle : shift ≤ 18) (hmask : mask.toNat = 63 * 2 ^ shift) :
    base64Char (UInt32.ofNat value) mask shift' = base64Digit (value / 2 ^ shift % 64) := by
  have hbits : (value &&& 63 * 2 ^ shift) >>> shift = value / 2 ^ shift % 64 := by
    rw [Nat.shiftRight_and_distrib, Nat.shiftRight_eq_div_pow, Nat.shiftRight_eq_div_pow,
      Nat.mul_div_cancel _ (Nat.two_pow_pos shift)]
    exact Nat.and_two_pow_sub_one_eq_mod (value / 2 ^ shift) 6
  have hidx : ((UInt32.ofNat value &&& mask) >>> shift').toNat = value / 2 ^ shift % 64 := by
    rw [UInt32.toNat_shiftRight, UInt32.toNat_and, UInt32.toNat_ofNat_of_lt' hval, hmask, hshift,
      Nat.mod_eq_of_lt (show shift < 32 by omega), hbits]
  rw [base64Char, hidx, base64Digit]

theorem base64Byte_eq {byte : Nat} (hshift : shift.toNat < 32)
    (h : value.toNat / 2 ^ shift.toNat % 256 = byte) :
    base64Byte value shift = UInt8.ofNat byte := by
  have hbits : (value.toNat / 2 ^ shift.toNat) &&& 255 = byte :=
    (Nat.and_two_pow_sub_one_eq_mod (value.toNat / 2 ^ shift.toNat) 8).trans h
  apply UInt8.toNat_inj.mp
  rw [base64Byte, UInt32.toNat_toUInt8, UInt32.toNat_and, UInt32.toNat_shiftRight,
    Nat.mod_eq_of_lt hshift, Nat.shiftRight_eq_div_pow, UInt8.toNat_ofNat']
  exact congrArg (· % 256) hbits

/-- The number after one more digit. -/
def base64Next (value : UInt32) (bits : Nat) : UInt32 := (value <<< 6) ||| UInt32.ofNat bits

theorem shiftLeft_eq_base64Next (value : UInt32) : value <<< 6 = base64Next value 0 :=
  UInt32.or_zero.symm

/-- What is shifted out at the top is lost. -/
theorem toNat_base64Next (value : UInt32) {bits : Nat} (hbits : bits < 64) :
    (base64Next value bits).toNat = (value.toNat * 64 + bits) % 2 ^ 32 := by
  have hshift : (value <<< (6 : UInt32)).toNat = 64 * (value.toNat % 2 ^ 26) := by
    rw [UInt32.toNat_shiftLeft]
    change value.toNat <<< 6 % 2 ^ 32 = _
    rw [Nat.shiftLeft_eq]
    omega
  have hor := Nat.two_pow_add_eq_or_of_lt (i := 6) hbits (value.toNat % 2 ^ 26)
  rw [base64Next, UInt32.toNat_or, hshift, UInt32.toNat_ofNat_of_lt' (show bits < 2 ^ 32 by omega)]
  change 64 * (value.toNat % 2 ^ 26) ||| bits = _
  rw [← hor]
  omega

theorem idxOf_base64Digit : ∀ index < 64, base64Table.idxOf? (base64Digit index) = some index := by
  decide +kernel

theorem base64Bits_base64Digit {index : Nat} (h : index < 64) :
    base64Bits (base64Digit index) = some (UInt32.ofNat index) := by
  rw [base64Bits_eq, idxOf_base64Digit index h, Option.map_some]

theorem base64Bits_base64Pad : base64Bits base64Pad = none := by
  decide

/-- A character that is no digit has no bits. -/
theorem base64Bits_cases : base64Bits c = none ∨ ∃ index < 64, c = base64Digit index := by
  rw [base64Bits_eq]
  cases hidx : base64Table.idxOf? c with
  | none => exact Or.inl rfl
  | some index =>
    obtain ⟨hlt, hget, -⟩ := idxOf?_eq_some_iff.mp hidx
    refine Or.inr ⟨index, hlt, ?_⟩
    rw [base64Digit, getD_eq_getElem?_getD, getElem?_eq_getElem hlt, Option.getD_some]
    exact hget.symm

theorem toUInt32_shiftLeft (h : shift.toNat ≤ 16) :
    byte.toUInt32 <<< shift = UInt32.ofNat (byte.toNat * 2 ^ shift.toNat) := by
  apply UInt32.toNat_inj.mp
  rw [UInt32.toNat_shiftLeft, Nat.mod_eq_of_lt (show shift.toNat < 32 by omega), Nat.shiftLeft_eq,
    UInt8.toNat_toUInt32, UInt32.toNat_ofNat']

/-- The number of a group of bytes. -/
theorem base64Value_eq (a b c : UInt8) :
    (a.toUInt32 <<< 16) + (b.toUInt32 <<< 8) + c.toUInt32 =
      UInt32.ofNat (a.toNat * 2 ^ 16 + b.toNat * 2 ^ 8 + c.toNat) := by
  have hlast : c.toUInt32 = UInt32.ofNat c.toNat := by
    apply UInt32.toNat_inj.mp
    rw [UInt8.toNat_toUInt32, UInt32.toNat_ofNat_of_lt' (lt_trans c.toNat_lt (by decide))]
  rw [toUInt32_shiftLeft a (by decide), toUInt32_shiftLeft b (by decide), hlast,
    UInt32.ofNat_add, UInt32.ofNat_add]
  rfl

/-- The four characters of a number of three bytes. -/
theorem base64Char_digits {value : Nat} (h : value < 2 ^ 24) :
    base64Char (UInt32.ofNat value) 0x00FC0000 18 = base64Digit (value / 2 ^ 18) ∧
      base64Char (UInt32.ofNat value) 0x0003F000 12 = base64Digit (value / 2 ^ 12 % 64) ∧
      base64Char (UInt32.ofNat value) 0x00000FC0 6 = base64Digit (value / 2 ^ 6 % 64) ∧
      base64Char (UInt32.ofNat value) 0x0000003F 0 = base64Digit (value % 64) := by
  have hval : value < 2 ^ 32 := lt_trans h (by decide)
  have hfirst : value / 2 ^ 18 % 64 = value / 2 ^ 18 := Nat.mod_eq_of_lt (by omega)
  have hlast : value / 2 ^ 0 % 64 = value % 64 := by rw [pow_zero, Nat.div_one]
  rw [← hfirst, ← hlast]
  exact ⟨base64Char_eq hval rfl (by decide) (by decide),
    base64Char_eq hval rfl (by decide) (by decide),
    base64Char_eq hval rfl (by decide) (by decide),
    base64Char_eq hval rfl (by decide) (by decide)⟩

section

variable (a b c : UInt8)

theorem encodeBase64_three (rest : DataChunk) :
    encodeBase64 (a :: b :: c :: rest) =
      base64Digit (a.toNat / 4) :: base64Digit (a.toNat % 4 * 16 + b.toNat / 16) ::
        base64Digit (b.toNat % 16 * 4 + c.toNat / 64) :: base64Digit (c.toNat % 64) ::
        encodeBase64 rest := by
  have ha : a.toNat < 256 := a.toNat_lt
  have hb : b.toNat < 256 := b.toNat_lt
  have hc : c.toNat < 256 := c.toNat_lt
  obtain ⟨h1, h2, h3, h4⟩ := base64Char_digits
    (show a.toNat * 2 ^ 16 + b.toNat * 2 ^ 8 + c.toNat < 2 ^ 24 by omega)
  rw [encodeBase64, base64Value_eq, h1, h2, h3, h4]
  simp only [List.cons.injEq, and_true]
  refine ⟨?_, ?_, ?_, ?_⟩ <;> congr 1 <;> omega

/-- One or two bytes are encoded with zeros behind them, and pads in place of their digits. -/
theorem encodeBase64_short :
    encodeBase64 [a, b] = take 3 (encodeBase64 [a, b, 0]) ++ [base64Pad] ∧
      encodeBase64 [a] = take 2 (encodeBase64 [a, 0, 0]) ++ [base64Pad, base64Pad] := by
  simp [encodeBase64]

theorem encodeBase64_two :
    encodeBase64 [a, b] =
      [base64Digit (a.toNat / 4), base64Digit (a.toNat % 4 * 16 + b.toNat / 16),
        base64Digit (b.toNat % 16 * 4), base64Pad] := by
  rw [(encodeBase64_short a b).1, encodeBase64_three]
  rfl

theorem encodeBase64_one :
    encodeBase64 [a] =
      [base64Digit (a.toNat / 4), base64Digit (a.toNat % 4 * 16), base64Pad, base64Pad] := by
  rw [(encodeBase64_short a 0).2, encodeBase64_three]
  rfl

end

section

variable {i j k l : Nat}

/-- The bytes of four digits. -/
def base64Bytes (i j k l : Nat) : DataChunk :=
  [UInt8.ofNat (i * 4 + j / 16), UInt8.ofNat (j % 16 * 16 + k / 4), UInt8.ofNat (k % 4 * 64 + l)]

theorem base64Byte_eq_base64Bytes (hk : k < 64) (hl : l < 64)
    (h : value.toNat % 2 ^ 24 = ((i * 64 + j) * 64 + k) * 64 + l) :
    [base64Byte value 16, base64Byte value 8, base64Byte value 0] = base64Bytes i j k l := by
  have h16 : value.toNat / 2 ^ (16 : UInt32).toNat % 256 = i * 4 + j / 16 := by
    change value.toNat / 2 ^ 16 % 256 = _
    omega
  have h8 : value.toNat / 2 ^ (8 : UInt32).toNat % 256 = j % 16 * 16 + k / 4 := by
    change value.toNat / 2 ^ 8 % 256 = _
    omega
  have h0 : value.toNat / 2 ^ (0 : UInt32).toNat % 256 = k % 4 * 64 + l := by
    change value.toNat / 2 ^ 0 % 256 = _
    omega
  rw [base64Byte_eq (by decide) h16, base64Byte_eq (by decide) h8, base64Byte_eq (by decide) h0,
    base64Bytes]

theorem decodeBase64Loop_digit {index : Nat} (h : index < 64) (rest : Text) {position : Nat}
    (hposition : position ≠ 3) (value : UInt32) (decoded : DataChunk) :
    decodeBase64Loop (base64Digit index :: rest) position value decoded =
      decodeBase64Loop rest (position + 1) (base64Next value index) decoded := by
  rw [decodeBase64Loop, base64Bits_base64Digit h]
  exact if_neg hposition

theorem decodeBase64Loop_digit_three {index : Nat} (h : index < 64) (rest : Text)
    (value : UInt32) (decoded : DataChunk) :
    decodeBase64Loop (base64Digit index :: rest) 3 value decoded =
      decodeBase64Loop rest 0 (base64Next value index)
        (decoded ++ [base64Byte (base64Next value index) 16, base64Byte (base64Next value index) 8,
          base64Byte (base64Next value index) 0]) := by
  rw [decodeBase64Loop, base64Bits_base64Digit h]
  exact if_pos rfl

/-- Two digits are the last twelve bits of the number, whatever is left of the digits before. -/
theorem decodeBase64Loop_two (hi : i < 64) (hj : j < 64) (rest : Text) (value : UInt32)
    (decoded : DataChunk) :
    ∃ value', decodeBase64Loop (base64Digit i :: base64Digit j :: rest) 0 value decoded =
        decodeBase64Loop rest 2 value' decoded ∧ value'.toNat % 2 ^ 12 = i * 64 + j := by
  refine ⟨base64Next (base64Next value i) j, ?_, ?_⟩
  · rw [decodeBase64Loop_digit hi _ (by decide), decodeBase64Loop_digit hj _ (by decide)]
  · rw [toNat_base64Next _ hj, toNat_base64Next _ hi]
    omega

/-- Four digits give three bytes. -/
theorem decodeBase64Loop_four (hi : i < 64) (hj : j < 64) (hk : k < 64) (hl : l < 64)
    (rest : Text) (value : UInt32) (decoded : DataChunk) :
    ∃ value', decodeBase64Loop
        (base64Digit i :: base64Digit j :: base64Digit k :: base64Digit l :: rest) 0 value decoded =
      decodeBase64Loop rest 0 value' (decoded ++ base64Bytes i j k l) := by
  obtain ⟨value', hloop, hvalue'⟩ := decodeBase64Loop_two hi hj
    (base64Digit k :: base64Digit l :: rest) value decoded
  rw [hloop, decodeBase64Loop_digit hk _ (by decide), decodeBase64Loop_digit_three hl,
    base64Byte_eq_base64Bytes hk hl]
  · exact ⟨_, rfl⟩
  · rw [toNat_base64Next _ hl, toNat_base64Next _ hk]
    omega

/-- A pad at the end leaves two bytes of three digits. -/
theorem decodeBase64Loop_pad (hi : i < 64) (hj : j < 64) (hk : k < 64) (value : UInt32)
    (decoded : DataChunk) :
    decodeBase64Loop [base64Digit i, base64Digit j, base64Digit k, base64Pad] 0 value decoded =
      some (decoded ++ [UInt8.ofNat (i * 4 + j / 16), UInt8.ofNat (j % 16 * 16 + k / 4)]) := by
  obtain ⟨value', hloop, hvalue'⟩ := decodeBase64Loop_two hi hj [base64Digit k, base64Pad] value
    decoded
  rw [hloop, decodeBase64Loop_digit hk _ (by decide), decodeBase64Loop, base64Bits_base64Pad,
    shiftLeft_eq_base64Next]
  have hnum : (base64Next (base64Next value' k) 0).toNat % 2 ^ 24 =
      ((i * 64 + j) * 64 + k) * 64 + 0 := by
    rw [toNat_base64Next _ (by decide), toNat_base64Next _ hk]
    omega
  have hbytes := congrArg (take 2) (base64Byte_eq_base64Bytes hk (by decide) hnum)
  exact congrArg (fun bytes => some (decoded ++ bytes)) hbytes

/-- The first of two pads leaves one byte of two digits. What stands behind it is not looked at. -/
theorem decodeBase64Loop_pad_any (hi : i < 64) (hj : j < 64) (last : Char) (value : UInt32)
    (decoded : DataChunk) :
    decodeBase64Loop [base64Digit i, base64Digit j, base64Pad, last] 0 value decoded =
      some (decoded ++ [UInt8.ofNat (i * 4 + j / 16)]) := by
  obtain ⟨value', hloop, hvalue'⟩ := decodeBase64Loop_two hi hj [base64Pad, last] value decoded
  rw [hloop, decodeBase64Loop, base64Bits_base64Pad, shiftLeft_eq_base64Next]
  have h10 : (base64Next value' 0).toNat / 2 ^ (10 : UInt32).toNat % 256 = i * 4 + j / 16 := by
    change _ / 2 ^ 10 % 256 = _
    rw [toNat_base64Next _ (by decide)]
    omega
  rw [← base64Byte_eq (by decide) h10]
  rfl

/-- Any other character that is no digit ends the loop, and so does a pad elsewhere. -/
theorem decodeBase64Loop_eq_none {c : Char} {rest : Text} (hbits : base64Bits c = none)
    (h : c = base64Pad → 2 ≤ rest.length) (position : Nat) (value : UInt32) (decoded : DataChunk) :
    decodeBase64Loop (c :: rest) position value decoded = none := by
  rw [decodeBase64Loop, hbits]
  by_cases hpad : c = base64Pad
  · obtain ⟨more, hmore⟩ := Nat.exists_eq_add_of_le (h hpad)
    simp only [if_pos hpad]
    rw [hmore, add_comm 2 more]
    rfl
  · exact if_neg hpad

end

/-- The texts that the decoder accepts, with the bytes it returns. -/
inductive Base64Accepts : Text → DataChunk → Prop
  | nil : Base64Accepts [] []
  | four {i j k l : Nat} {rest : Text} {data : DataChunk} (hi : i < 64) (hj : j < 64) (hk : k < 64)
      (hl : l < 64) (hrest : Base64Accepts rest data) :
      Base64Accepts (base64Digit i :: base64Digit j :: base64Digit k :: base64Digit l :: rest)
        (base64Bytes i j k l ++ data)
  | pad {i j k : Nat} (hi : i < 64) (hj : j < 64) (hk : k < 64) :
      Base64Accepts [base64Digit i, base64Digit j, base64Digit k, base64Pad]
        [UInt8.ofNat (i * 4 + j / 16), UInt8.ofNat (j % 16 * 16 + k / 4)]
  | pads {i j : Nat} (hi : i < 64) (hj : j < 64) (last : Char) :
      Base64Accepts [base64Digit i, base64Digit j, base64Pad, last] [UInt8.ofNat (i * 4 + j / 16)]

theorem Base64Accepts.length_mod (h : Base64Accepts text data) : text.length % 4 = 0 := by
  induction h with
  | nil => rfl
  | four hi hj hk hl hrest ih =>
    simp only [length_cons]
    omega
  | pad hi hj hk => simp
  | pads hi hj last => simp

theorem Base64Accepts.decodeBase64Loop_eq (h : Base64Accepts text data) (value : UInt32)
    (decoded : DataChunk) : decodeBase64Loop text 0 value decoded = some (decoded ++ data) := by
  induction h generalizing value decoded with
  | nil => rw [decodeBase64Loop, append_nil]
  | four hi hj hk hl hrest ih =>
    obtain ⟨value', hloop⟩ := decodeBase64Loop_four hi hj hk hl _ value decoded
    rw [hloop, ih, append_assoc]
  | pad hi hj hk => exact decodeBase64Loop_pad hi hj hk value decoded
  | pads hi hj last => exact decodeBase64Loop_pad_any hi hj last value decoded

theorem eq_nil_or_eq_four (h : text.length % 4 = 0) :
    text = [] ∨ ∃ w x y z rest, text = w :: x :: y :: z :: rest := by
  rcases text with _ | ⟨w, _ | ⟨x, _ | ⟨y, _ | ⟨z, rest⟩⟩⟩⟩
  · exact Or.inl rfl
  · cases h
  · cases h
  · cases h
  · exact Or.inr ⟨w, x, y, z, rest, rfl⟩

/-- Four characters at a time: each is a digit, or it is a pad in the last group. -/
theorem exists_base64Accepts (hlen : text.length % 4 = 0) {decoded out : DataChunk}
    (h : decodeBase64Loop text 0 value decoded = some out) :
    ∃ data, out = decoded ++ data ∧ Base64Accepts text data := by
  induction hsize : text.length using Nat.strong_induction_on generalizing text value decoded with
  | _ size ih =>
  subst hsize
  obtain rfl | ⟨w, x, y, z, rest, rfl⟩ := eq_nil_or_eq_four hlen
  · cases h
    exact ⟨[], (append_nil _).symm, .nil⟩
  · obtain hw | ⟨i, hi, rfl⟩ := base64Bits_cases w
    · rw [decodeBase64Loop_eq_none hw (fun _ => by simp)] at h
      cases h
    obtain hx | ⟨j, hj, rfl⟩ := base64Bits_cases x
    · rw [decodeBase64Loop_digit hi _ (by decide),
        decodeBase64Loop_eq_none hx (fun _ => by simp)] at h
      cases h
    obtain hy | ⟨k, hk, rfl⟩ := base64Bits_cases y
    · by_cases hlast : y = base64Pad ∧ rest = []
      · obtain ⟨rfl, rfl⟩ := hlast
        rw [decodeBase64Loop_pad_any hi hj] at h
        exact ⟨_, (Option.some.inj h).symm, .pads hi hj z⟩
      · rw [decodeBase64Loop_digit hi _ (by decide), decodeBase64Loop_digit hj _ (by decide),
          decodeBase64Loop_eq_none hy] at h
        · cases h
        · intro hpad
          have hrest : rest ≠ [] := fun hrest => hlast ⟨hpad, hrest⟩
          exact Nat.succ_le_succ (length_pos_iff.mpr hrest)
    obtain hz | ⟨l, hl, rfl⟩ := base64Bits_cases z
    · by_cases hlast : z = base64Pad ∧ rest = []
      · obtain ⟨rfl, rfl⟩ := hlast
        rw [decodeBase64Loop_pad hi hj hk] at h
        exact ⟨_, (Option.some.inj h).symm, .pad hi hj hk⟩
      · rw [decodeBase64Loop_digit hi _ (by decide), decodeBase64Loop_digit hj _ (by decide),
          decodeBase64Loop_digit hk _ (by decide), decodeBase64Loop_eq_none hz] at h
        · cases h
        · intro hpad
          have hrest : rest ≠ [] := fun hrest => hlast ⟨hpad, hrest⟩
          have hpos : 0 < rest.length := length_pos_iff.mpr hrest
          simp only [length_cons] at hlen
          omega
    obtain ⟨value', hloop⟩ := decodeBase64Loop_four hi hj hk hl rest value decoded
    rw [hloop] at h
    have hrest : rest.length % 4 = 0 := by
      simp only [length_cons] at hlen
      omega
    have hless : rest.length < (base64Digit i :: base64Digit j :: base64Digit k ::
        base64Digit l :: rest).length := by
      simp only [length_cons]
      omega
    obtain ⟨data, rfl, haccepts⟩ := ih rest.length hless hrest h rfl
    exact ⟨base64Bytes i j k l ++ data, append_assoc _ _ _, .four hi hj hk hl haccepts⟩

theorem decodeBase64_eq_some_iff : decodeBase64 text = some data ↔ Base64Accepts text data := by
  unfold decodeBase64
  constructor
  · intro h
    split_ifs at h with hlen
    obtain ⟨data', rfl, haccepts⟩ := exists_base64Accepts (not_not.mp hlen) h
    exact haccepts
  · intro h
    rw [if_neg (not_not.mpr h.length_mod)]
    exact h.decodeBase64Loop_eq 0 []

theorem base64Digit_inj {i j : Nat} (hi : i < 64) (hj : j < 64)
    (h : base64Digit i = base64Digit j) : i = j := by
  have hidx := idxOf_base64Digit i hi
  rw [h, idxOf_base64Digit j hj] at hidx
  exact (Option.some.inj hidx).symm

section

variable {i j k l : Nat}

theorem encodeBase64_base64Bytes (hi : i < 64) (hj : j < 64) (hk : k < 64) (hl : l < 64)
    (data : DataChunk) :
    encodeBase64 (base64Bytes i j k l ++ data) =
      base64Digit i :: base64Digit j :: base64Digit k :: base64Digit l :: encodeBase64 data := by
  change encodeBase64 (_ :: _ :: _ :: data) = _
  rw [encodeBase64_three, UInt8.toNat_ofNat_of_lt' (show i * 4 + j / 16 < 256 by omega),
    UInt8.toNat_ofNat_of_lt' (show j % 16 * 16 + k / 4 < 256 by omega),
    UInt8.toNat_ofNat_of_lt' (show k % 4 * 64 + l < 256 by omega)]
  simp only [List.cons.injEq, and_true]
  refine ⟨?_, ?_, ?_, ?_⟩ <;> congr 1 <;> omega

/-- The two bits of the third digit that no byte takes up are lost. -/
theorem encodeBase64_pad (hi : i < 64) (hj : j < 64) (hk : k < 64) :
    encodeBase64 [UInt8.ofNat (i * 4 + j / 16), UInt8.ofNat (j % 16 * 16 + k / 4)] =
      [base64Digit i, base64Digit j, base64Digit (k / 4 * 4), base64Pad] := by
  rw [encodeBase64_two, UInt8.toNat_ofNat_of_lt' (show i * 4 + j / 16 < 256 by omega),
    UInt8.toNat_ofNat_of_lt' (show j % 16 * 16 + k / 4 < 256 by omega)]
  simp only [List.cons.injEq, and_true]
  refine ⟨?_, ?_, ?_⟩ <;> congr 1 <;> omega

/-- The four bits of the second digit that no byte takes up are lost. -/
theorem encodeBase64_pads (hi : i < 64) (hj : j < 64) :
    encodeBase64 [UInt8.ofNat (i * 4 + j / 16)] =
      [base64Digit i, base64Digit (j / 16 * 16), base64Pad, base64Pad] := by
  rw [encodeBase64_one, UInt8.toNat_ofNat_of_lt' (show i * 4 + j / 16 < 256 by omega)]
  simp only [List.cons.injEq, and_true]
  refine ⟨?_, ?_⟩ <;> congr 1 <;> omega

end

/-- A text whose last group has a pad, with bits in front of the pad that no byte takes up, or with
some other character behind the first of two pads. -/
inductive LoosePadding : Text → Prop
  | four {i j k l : Nat} {rest : Text} (hi : i < 64) (hj : j < 64) (hk : k < 64) (hl : l < 64)
      (hrest : LoosePadding rest) :
      LoosePadding (base64Digit i :: base64Digit j :: base64Digit k :: base64Digit l :: rest)
  | pad {i j k : Nat} (hi : i < 64) (hj : j < 64) (hk : k < 64) (hbits : k % 4 ≠ 0) :
      LoosePadding [base64Digit i, base64Digit j, base64Digit k, base64Pad]
  | pads {i j : Nat} {last : Char} (hi : i < 64) (hj : j < 64)
      (hbits : j % 16 ≠ 0 ∨ last ≠ base64Pad) :
      LoosePadding [base64Digit i, base64Digit j, base64Pad, last]

theorem LoosePadding.exists_accepts (h : LoosePadding text) :
    ∃ data, Base64Accepts text data ∧ encodeBase64 data ≠ text := by
  induction h with
  | four hi hj hk hl hrest ih =>
    obtain ⟨data, haccepts, hne⟩ := ih
    refine ⟨_, .four hi hj hk hl haccepts, ?_⟩
    rw [encodeBase64_base64Bytes hi hj hk hl]
    simpa using hne
  | @pad i j k hi hj hk hbits =>
    refine ⟨_, .pad hi hj hk, ?_⟩
    rw [encodeBase64_pad hi hj hk]
    intro heq
    have hdigit : base64Digit (k / 4 * 4) = base64Digit k := by simpa using heq
    have hsame := base64Digit_inj (by omega) hk hdigit
    omega
  | @pads i j last hi hj hbits =>
    refine ⟨_, .pads hi hj last, ?_⟩
    rw [encodeBase64_pads hi hj]
    intro heq
    obtain ⟨hdigit, hlast⟩ : base64Digit (j / 16 * 16) = base64Digit j ∧ base64Pad = last := by
      simpa using heq
    have hsame := base64Digit_inj (by omega) hj hdigit
    rcases hbits with hbits | hbits
    · omega
    · exact hbits hlast.symm

theorem Base64Accepts.encodeBase64_eq (h : Base64Accepts text data) (hloose : ¬ LoosePadding text) :
    encodeBase64 data = text := by
  induction h with
  | nil => rfl
  | four hi hj hk hl hrest ih =>
    rw [encodeBase64_base64Bytes hi hj hk hl, ih fun hrest => hloose (.four hi hj hk hl hrest)]
  | @pad i j k hi hj hk =>
    have hbits : k / 4 * 4 = k := by
      by_contra hne
      exact hloose (.pad hi hj hk (by omega))
    rw [encodeBase64_pad hi hj hk, hbits]
  | @pads i j hi hj last =>
    have hbits : j / 16 * 16 = j := by
      by_contra hne
      exact hloose (.pads hi hj (Or.inl (by omega)))
    have hlast : last = base64Pad := by
      by_contra hne
      exact hloose (.pads hi hj (Or.inr hne))
    rw [encodeBase64_pads hi hj, hbits, hlast]

theorem ofNat_eq_of_eq_toNat {n : Nat} (h : n = byte.toNat) : UInt8.ofNat n = byte := by
  rw [h, UInt8.ofNat_toNat]

theorem base64Accepts_encodeBase64 (data : DataChunk) : Base64Accepts (encodeBase64 data) data := by
  induction data using encodeBase64.induct with
  | case1 a b c rest ih =>
    have ha : a.toNat < 256 := a.toNat_lt
    have hb : b.toNat < 256 := b.toNat_lt
    have hc : c.toNat < 256 := c.toNat_lt
    have hbytes : base64Bytes (a.toNat / 4) (a.toNat % 4 * 16 + b.toNat / 16)
        (b.toNat % 16 * 4 + c.toNat / 64) (c.toNat % 64) = [a, b, c] := by
      rw [base64Bytes, ofNat_eq_of_eq_toNat a (by omega),
        ofNat_eq_of_eq_toNat b (by omega), ofNat_eq_of_eq_toNat c (by omega)]
    rw [encodeBase64_three]
    have hfour := Base64Accepts.four (i := a.toNat / 4) (j := a.toNat % 4 * 16 + b.toNat / 16)
      (k := b.toNat % 16 * 4 + c.toNat / 64) (l := c.toNat % 64) (by omega) (by omega) (by omega)
      (by omega) ih
    rwa [hbytes] at hfour
  | case2 a b =>
    have ha : a.toNat < 256 := a.toNat_lt
    have hb : b.toNat < 256 := b.toNat_lt
    have hpad := Base64Accepts.pad (i := a.toNat / 4) (j := a.toNat % 4 * 16 + b.toNat / 16)
      (k := b.toNat % 16 * 4) (by omega) (by omega) (by omega)
    rw [ofNat_eq_of_eq_toNat a (by omega), ofNat_eq_of_eq_toNat b (by omega)] at hpad
    rwa [encodeBase64_two]
  | case3 a =>
    have ha : a.toNat < 256 := a.toNat_lt
    have hpads := Base64Accepts.pads (i := a.toNat / 4) (j := a.toNat % 4 * 16) (by omega)
      (by omega) base64Pad
    rw [ofNat_eq_of_eq_toNat a (by omega)] at hpads
    rwa [encodeBase64_one]
  | case4 => exact .nil

/-- What is encoded is decoded again, and a text is accepted only as the encoding of its bytes
exactly if its padding is not loose. -/
theorem decodeBase64_strict_iff (data : DataChunk) (text : Text) :
    decodeBase64 (encodeBase64 data) = some data ∧
      ((∀ decoded, decodeBase64 text = some decoded → encodeBase64 decoded = text) ↔
        ¬ LoosePadding text) := by
  refine ⟨decodeBase64_eq_some_iff.mpr (base64Accepts_encodeBase64 data), ?_⟩
  constructor
  · intro hstrict hloose
    obtain ⟨decoded, haccepts, hne⟩ := hloose.exists_accepts
    exact hne (hstrict decoded (decodeBase64_eq_some_iff.mpr haccepts))
  · intro hloose decoded hdecode
    exact (decodeBase64_eq_some_iff.mp hdecode).encodeBase64_eq hloose

/-- Three texts of the byte 0x66, of which one is its encoding. -/
theorem decodeBase64_not_strict :
    encodeBase64 [0x66] = "Zg==".toList ∧
      decodeBase64 "Zg==".toList = some [0x66] ∧
      decodeBase64 "Zh==".toList = some [0x66] ∧
      decodeBase64 "Zg=*".toList = some [0x66] ∧
      ¬ ∀ text data, decodeBase64 text = some data → encodeBase64 data = text := by
  refine ⟨by decide, by decide, by decide, by decide, fun hstrict => ?_⟩
  have hencode := hstrict "Zh==".toList [0x66] (by decide)
  revert hencode
  decide

end BitprimCore
