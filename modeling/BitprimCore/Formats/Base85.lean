import BitprimCore.Constants
import BitprimCore.Library.Positional
import BitprimCore.Utility.Text
import Mathlib.Data.List.Induction

/-!
# Base 85

The text of bytes in groups of five characters for four bytes (`formats/base_85`). What is encoded
is decoded again. The decoder has a table of the 96 characters from the blank on, in which the ones
that are no digits are zeros. Its test lets one more character through than the table has entries,
and its sum of five digits is one of 32 bits.
-/

namespace BitprimCore

open Positional List

/-- Maps binary to base 85. -/
def base85Encoder : List Char :=
  "0123456789abcdefghijklmnopqrstuvwxyzABCDEFGHIJKLMNOPQRSTUVWXYZ.-:+=^!/*?&<>()[]\x7b\x7d@%$#".toList

/-- Maps base 85 to binary. -/
def base85Decoder : List UInt32 :=
  [0x00, 0x44, 0x00, 0x54, 0x53, 0x52, 0x48, 0x00,
    0x4B, 0x4C, 0x46, 0x41, 0x00, 0x3F, 0x3E, 0x45,
    0x00, 0x01, 0x02, 0x03, 0x04, 0x05, 0x06, 0x07,
    0x08, 0x09, 0x40, 0x00, 0x49, 0x42, 0x4A, 0x47,
    0x51, 0x24, 0x25, 0x26, 0x27, 0x28, 0x29, 0x2A,
    0x2B, 0x2C, 0x2D, 0x2E, 0x2F, 0x30, 0x31, 0x32,
    0x33, 0x34, 0x35, 0x36, 0x37, 0x38, 0x39, 0x3A,
    0x3B, 0x3C, 0x3D, 0x4D, 0x00, 0x4E, 0x43, 0x00,
    0x00, 0x0A, 0x0B, 0x0C, 0x0D, 0x0E, 0x0F, 0x10,
    0x11, 0x12, 0x13, 0x14, 0x15, 0x16, 0x17, 0x18,
    0x19, 0x1A, 0x1B, 0x1C, 0x1D, 0x1E, 0x1F, 0x20,
    0x21, 0x22, 0x23, 0x4F, 0x00, 0x50, 0x00, 0x00]

variable {text : Text} (accumulator : UInt32)

/-- The characters of a number, by falling divisors. -/
def base85Chars : Text :=
  [85 * 85 * 85 * 85, 85 * 85 * 85, 85 * 85, 85, 1].map fun divise : UInt32 =>
    base85Encoder.getD (accumulator / divise % 85).toNat '\x00'

/-- Four bytes at a time. -/
def encodeBase85Loop : DataChunk → Nat → UInt32 → Text → Text
  | [], _, _, encoded => encoded
  | unencodedByte :: rest, byteIndex, accumulator, encoded =>
    let accumulator := accumulator * 256 + unencodedByte.toUInt32
    if (byteIndex + 1) % 4 = 0 then
      encodeBase85Loop rest (byteIndex + 1) 0 (encoded ++ base85Chars accumulator)
    else encodeBase85Loop rest (byteIndex + 1) accumulator encoded

/-- The size must be divisible by 4. -/
def encodeBase85 (data : DataChunk) : Option Text :=
  if data.length % 4 ≠ 0 then none else some (encodeBase85Loop data 0 0 [])

/-- How decoding ends. A read behind the end of the table has no defined result. -/
inductive Base85Result
  | decoded (data : DataChunk)
  | rejected
  | outOfRange
  deriving DecidableEq

/-- The bytes of a number, by falling divisors. -/
def base85Bytes : DataChunk :=
  [256 * 256 * 256, 256 * 256, 256, 1].map fun divise : UInt32 =>
    (accumulator / divise % 256).toUInt8

/-- Five digits at a time. -/
def decodeBase85Loop : Text → Nat → UInt32 → DataChunk → Base85Result
  | [], _, _, decoded => .decoded decoded
  | encodedCharacter :: rest, charIndex, accumulator, decoded =>
    let position : Int := encodedCharacter.toNat - 32
    if position < 0 ∨ position > 96 then .rejected
    else
      match base85Decoder[position.toNat]? with
      | none => .outOfRange
      | some digit =>
        let accumulator := accumulator * 85 + digit
        if (charIndex + 1) % 5 = 0 then
          decodeBase85Loop rest (charIndex + 1) 0 (decoded ++ base85Bytes accumulator)
        else decodeBase85Loop rest (charIndex + 1) accumulator decoded

/-- The size must be divisible by 5. -/
def decodeBase85 (text : Text) : Base85Result :=
  if text.length % 5 ≠ 0 then .rejected else decodeBase85Loop text 0 0 []

/-- The character of a digit. -/
def base85Char (digit : Nat) : Char := base85Encoder.getD digit '\x00'

theorem base85Chars_eq :
    base85Chars accumulator = (digits 85 5 accumulator.toNat).map base85Char := by
  have hdigits : digits 85 5 accumulator.toNat =
      [accumulator.toNat / 85 ^ 4 % 85, accumulator.toNat / 85 ^ 3 % 85,
        accumulator.toNat / 85 ^ 2 % 85, accumulator.toNat / 85 ^ 1 % 85,
        accumulator.toNat / 85 ^ 0 % 85] := rfl
  simp only [base85Chars, hdigits, map_cons, map_nil, UInt32.toNat_mod, UInt32.toNat_div]
  rfl

theorem base85Bytes_eq :
    base85Bytes accumulator = (digits 256 4 accumulator.toNat).map UInt8.ofNat := by
  have hdigits : digits 256 4 accumulator.toNat =
      [accumulator.toNat / 256 ^ 3 % 256, accumulator.toNat / 256 ^ 2 % 256,
        accumulator.toNat / 256 ^ 1 % 256, accumulator.toNat / 256 ^ 0 % 256] := rfl
  have hbyte (n : UInt32) : n.toUInt8 = UInt8.ofNat n.toNat := by
    apply UInt8.toNat_inj.mp
    rw [UInt32.toNat_toUInt8, UInt8.toNat_ofNat']
  simp only [base85Bytes, hdigits, map_cons, map_nil, hbyte, UInt32.toNat_mod, UInt32.toNat_div]
  rfl

/-- Digits are summed up modulo the width of the sum. -/
theorem toNat_foldl_mulAdd {base : UInt32} (number : List Nat) :
    (number.foldl (fun sum digit => sum * base + UInt32.ofNat digit) 0).toNat =
      value base.toNat number % 2 ^ 32 := by
  induction number using reverseRecOn with
  | nil => rfl
  | append_singleton number digit ih =>
    rw [foldl_append, foldl_cons, foldl_nil, UInt32.toNat_add, UInt32.toNat_mul, ih,
      UInt32.toNat_ofNat', value_concat]
    simp only [Nat.mod_mul_mod, Nat.add_mod, Nat.mod_mod]

section

theorem encodeBase85Loop_group {bytes : DataChunk} (hlength : bytes.length = 4) (rest : DataChunk)
    {byteIndex : Nat} (hidx : byteIndex % 4 = 0) (encoded : Text) :
    encodeBase85Loop (bytes ++ rest) byteIndex 0 encoded =
      encodeBase85Loop rest (byteIndex + 4) 0 (encoded ++
        base85Chars (bytes.foldl (fun sum byte => sum * 256 + byte.toUInt32) 0)) := by
  obtain ⟨a, b, c, d, rfl⟩ : ∃ a b c d, bytes = [a, b, c, d] := length_eq_four.mp hlength
  have h1 : (byteIndex + 1) % 4 ≠ 0 := by omega
  have h2 : (byteIndex + 1 + 1) % 4 ≠ 0 := by omega
  have h3 : (byteIndex + 1 + 1 + 1) % 4 ≠ 0 := by omega
  have h4 : (byteIndex + 1 + 1 + 1 + 1) % 4 = 0 := by omega
  simp only [cons_append, nil_append, encodeBase85Loop, if_neg h1, if_neg h2, if_neg h3,
    if_pos h4, foldl_cons, foldl_nil]

variable {number : List Nat}

/-- The digits of the alphabet are found in the table. -/
theorem base85Decoder_base85Char : ∀ digit < 85, 32 ≤ (base85Char digit).toNat ∧
    (base85Char digit).toNat < 128 ∧
    base85Decoder[(base85Char digit).toNat - 32]? = some (UInt32.ofNat digit) := by
  decide +kernel

theorem decodeBase85Loop_cons {c : Char} (hc : 32 ≤ c.toNat ∧ c.toNat < 128) {digit : UInt32}
    (hdigit : base85Decoder[c.toNat - 32]? = some digit) (rest : Text) (charIndex : Nat)
    (accumulator : UInt32) (decoded : DataChunk) :
    decodeBase85Loop (c :: rest) charIndex accumulator decoded =
      if (charIndex + 1) % 5 = 0 then
        decodeBase85Loop rest (charIndex + 1) 0 (decoded ++ base85Bytes (accumulator * 85 + digit))
      else decodeBase85Loop rest (charIndex + 1) (accumulator * 85 + digit) decoded := by
  have hposition : ¬ ((c.toNat : Int) - 32 < 0 ∨ (c.toNat : Int) - 32 > 96) := by omega
  have hnat : ((c.toNat : Int) - 32).toNat = c.toNat - 32 := by omega
  rw [decodeBase85Loop, if_neg hposition, hnat, hdigit]

theorem decodeBase85Loop_group (hlength : number.length = 5) (hdigits : ∀ d ∈ number, d < 85)
    (rest : Text) {charIndex : Nat} (hidx : charIndex % 5 = 0) (decoded : DataChunk) :
    decodeBase85Loop (number.map base85Char ++ rest) charIndex 0 decoded =
      decodeBase85Loop rest (charIndex + 5) 0 (decoded ++
        base85Bytes (number.foldl (fun sum digit => sum * 85 + UInt32.ofNat digit) 0)) := by
  obtain ⟨a, b, c, d, e, rfl⟩ : ∃ a b c d e, number = [a, b, c, d, e] := by
    rcases number with _ | ⟨a, _ | ⟨b, _ | ⟨c, _ | ⟨d, _ | ⟨e, _ | ⟨f, number⟩⟩⟩⟩⟩⟩ <;>
      first | exact ⟨a, b, c, d, e, rfl⟩ | cases hlength
  have h1 : (charIndex + 1) % 5 ≠ 0 := by omega
  have h2 : (charIndex + 1 + 1) % 5 ≠ 0 := by omega
  have h3 : (charIndex + 1 + 1 + 1) % 5 ≠ 0 := by omega
  have h4 : (charIndex + 1 + 1 + 1 + 1) % 5 ≠ 0 := by omega
  have h5 : (charIndex + 1 + 1 + 1 + 1 + 1) % 5 = 0 := by omega
  have hstep {digit : Nat} (hdigit : digit ∈ [a, b, c, d, e]) (rest : Text) (charIndex : Nat)
      (accumulator : UInt32) (decoded : DataChunk) :
      decodeBase85Loop (base85Char digit :: rest) charIndex accumulator decoded = _ :=
    decodeBase85Loop_cons
      ⟨(base85Decoder_base85Char digit (hdigits digit hdigit)).1,
        (base85Decoder_base85Char digit (hdigits digit hdigit)).2.1⟩
      (base85Decoder_base85Char digit (hdigits digit hdigit)).2.2 rest charIndex accumulator decoded
  simp only [map_cons, map_nil, cons_append, nil_append]
  rw [hstep (by simp), if_neg h1, hstep (by simp), if_neg h2, hstep (by simp), if_neg h3,
    hstep (by simp), if_neg h4, hstep (by simp), if_pos h5]
  rfl

end

/-- A text and bytes that spell the same numbers, group by group. -/
inductive Base85Pairs : Text → DataChunk → Prop
  | nil : Base85Pairs [] []
  | group {n : Nat} {text : Text} {data : DataChunk} (h : n < 2 ^ 32)
      (hrest : Base85Pairs text data) :
      Base85Pairs ((digits 85 5 n).map base85Char ++ text) ((digits 256 4 n).map UInt8.ofNat ++ data)

variable {c : Char} {n : Nat} {data : DataChunk}

theorem foldl_bytes (h : n < 2 ^ 32) :
    (((digits 256 4 n).map UInt8.ofNat).foldl (fun sum byte => sum * 256 + byte.toUInt32)
      (0 : UInt32)).toNat = n := by
  have hfold : ((digits 256 4 n).map UInt8.ofNat).foldl
      (fun sum byte => sum * 256 + byte.toUInt32) (0 : UInt32) =
      (digits 256 4 n).foldl (fun sum digit => sum * 256 + UInt32.ofNat digit) 0 := by
    rw [foldl_map]
    apply foldl_ext
    intro sum digit hdigit
    have hlt : digit < 256 := lt_of_mem_digits (by decide) hdigit
    have hbyte : (UInt8.ofNat digit).toUInt32 = UInt32.ofNat digit := by
      apply UInt32.toNat_inj.mp
      rw [UInt8.toNat_toUInt32, UInt8.toNat_ofNat_of_lt' hlt,
        UInt32.toNat_ofNat_of_lt' (lt_trans hlt (by decide))]
    rw [hbyte]
  rw [hfold, toNat_foldl_mulAdd]
  change value 256 (digits 256 4 n) % 2 ^ 32 = n
  rw [value_digits]
  change n % 2 ^ 32 % 2 ^ 32 = n
  rw [Nat.mod_mod, Nat.mod_eq_of_lt h]

theorem foldl_digits (h : n < 2 ^ 32) :
    ((digits 85 5 n).foldl (fun sum digit => sum * 85 + UInt32.ofNat digit) (0 : UInt32)).toNat =
      n := by
  rw [toNat_foldl_mulAdd]
  change value 85 (digits 85 5 n) % 2 ^ 32 = n
  rw [value_digits, Nat.mod_eq_of_lt (lt_trans h (by decide)), Nat.mod_eq_of_lt h]

namespace Base85Pairs

variable {text : Text} {data : DataChunk}

section

variable (h : Base85Pairs text data)

include h

theorem length_data_mod : data.length % 4 = 0 := by
  induction h with
  | nil => rfl
  | group hn hrest ih =>
    rw [length_append, length_map, length_digits]
    omega

theorem length_text_mod : text.length % 5 = 0 := by
  induction h with
  | nil => rfl
  | group hn hrest ih =>
    rw [length_append, length_map, length_digits]
    omega

theorem encodeBase85Loop_eq {byteIndex : Nat}
    (hidx : byteIndex % 4 = 0) (encoded : Text) :
    encodeBase85Loop data byteIndex 0 encoded = encoded ++ text := by
  induction h generalizing byteIndex encoded with
  | nil => rw [encodeBase85Loop, append_nil]
  | group hn hrest ih =>
    rw [encodeBase85Loop_group (by simp) _ hidx, ih (by omega), base85Chars_eq, foldl_bytes hn,
      append_assoc]

theorem decodeBase85Loop_eq {charIndex : Nat}
    (hidx : charIndex % 5 = 0) (decoded : DataChunk) :
    decodeBase85Loop text charIndex 0 decoded = .decoded (decoded ++ data) := by
  induction h generalizing charIndex decoded with
  | nil => rw [decodeBase85Loop, append_nil]
  | group hn hrest ih =>
    rw [decodeBase85Loop_group (length_digits 5 _) (fun d hd => lt_of_mem_digits (by decide) hd) _
      hidx, ih (by omega), base85Bytes_eq, foldl_digits hn, append_assoc]

theorem encodeBase85_eq : encodeBase85 data = some text := by
  rw [encodeBase85, if_neg (not_not.mpr h.length_data_mod), h.encodeBase85Loop_eq rfl]
  rfl

theorem decodeBase85_eq : decodeBase85 text = .decoded data := by
  rw [decodeBase85, if_neg (not_not.mpr h.length_text_mod), h.decodeBase85Loop_eq rfl]
  rfl

end

end Base85Pairs

/-- Whole groups of bytes have a text. -/
theorem exists_base85Pairs (h : data.length % 4 = 0) : ∃ text, Base85Pairs text data := by
  induction hsize : data.length using Nat.strong_induction_on generalizing data with
  | _ size ih =>
    subst hsize
    by_cases hempty : data.length = 0
    · rw [length_eq_zero_iff.mp hempty]
      exact ⟨[], .nil⟩
    · have hgroup : (data.take 4).length = 4 := by
        rw [length_take]
        omega
      have hrest : (data.drop 4).length = data.length - 4 := length_drop
      obtain ⟨text, hpairs⟩ := ih (data.drop 4).length (by omega) (by omega) rfl
      have hlt : ∀ d ∈ (data.take 4).map UInt8.toNat, d < 256 := by
        intro d hd
        obtain ⟨byte, -, rfl⟩ := mem_map.mp hd
        exact byte.toNat_lt
      have hbytes : (digits 256 4 (value 256 ((data.take 4).map UInt8.toNat))).map UInt8.ofNat =
          data.take 4 := by
        have hdigits := digits_value (by decide) hlt
        rw [length_map, hgroup] at hdigits
        rw [hdigits, map_map]
        exact (map_congr_left fun byte _ => UInt8.ofNat_toNat).trans (map_id' _)
      have hvalue : value 256 ((data.take 4).map UInt8.toNat) < 2 ^ 32 := by
        have hbound := value_lt (by decide) hlt
        rwa [length_map, hgroup] at hbound
      have hpair := Base85Pairs.group hvalue hpairs
      rw [hbytes, take_append_drop] at hpair
      exact ⟨_, hpair⟩

/-- Groups of five digits of a number of 32 bits. -/
inductive Base85Groups : Text → Prop
  | nil : Base85Groups []
  | group {number : List Nat} {text : Text} (hlength : number.length = 5)
      (hdigits : ∀ d ∈ number, d < 85) (hvalue : value 85 number < 2 ^ 32)
      (hrest : Base85Groups text) : Base85Groups (number.map base85Char ++ text)

theorem base85Groups_iff : Base85Groups text ↔ ∃ data, Base85Pairs text data := by
  constructor
  · intro h
    induction h with
    | nil => exact ⟨[], .nil⟩
    | group hlength hdigits hvalue hrest ih =>
      obtain ⟨data, hpairs⟩ := ih
      have hpair := Base85Pairs.group hvalue hpairs
      have hnum := digits_value (by decide) hdigits
      rw [hlength] at hnum
      rw [hnum] at hpair
      exact ⟨_, hpair⟩
  · rintro ⟨data, h⟩
    induction h with
    | nil => exact .nil
    | @group n text data hn hrest ih =>
      refine .group (length_digits 5 n) (fun d hd => lt_of_mem_digits (by decide) hd) ?_ ih
      rw [value_digits, Nat.mod_eq_of_lt (lt_trans hn (by decide))]
      exact hn

/-- The characters that have an entry in the table. -/
def InBase85Decoder (c : Char) : Prop := 32 ≤ c.toNat ∧ c.toNat < 128

/-- The decoder goes on behind such characters. -/
theorem exists_decodeBase85Loop_append {front : Text} (h : ∀ c ∈ front, InBase85Decoder c)
    (rest : Text) (charIndex : Nat) (accumulator : UInt32) (decoded : DataChunk) :
    ∃ charIndex' accumulator' decoded',
      decodeBase85Loop (front ++ rest) charIndex accumulator decoded =
        decodeBase85Loop rest charIndex' accumulator' decoded' := by
  induction front generalizing charIndex accumulator decoded with
  | nil => exact ⟨_, _, _, rfl⟩
  | cons c front ih =>
    rw [forall_mem_cons] at h
    have hrange : 32 ≤ c.toNat ∧ c.toNat < 128 := h.1
    have hidx : c.toNat - 32 < base85Decoder.length := by
      change c.toNat - 32 < 96
      omega
    rw [cons_append, decodeBase85Loop_cons hrange (getElem?_eq_getElem hidx)]
    split_ifs
    · exact ih h.2 _ _ _
    · exact ih h.2 _ _ _

theorem decodeBase85Loop_eq_rejected (h : c.toNat < 32 ∨ 128 < c.toNat) (rest : Text)
    (charIndex : Nat) (accumulator : UInt32) (decoded : DataChunk) :
    decodeBase85Loop (c :: rest) charIndex accumulator decoded = .rejected := by
  have hposition : (c.toNat : Int) - 32 < 0 ∨ (c.toNat : Int) - 32 > 96 := by omega
  rw [decodeBase85Loop, if_pos hposition]

/-- The test passes one character behind the end of the table. -/
theorem decodeBase85Loop_eq_outOfRange (h : c.toNat = 128) (rest : Text) (charIndex : Nat)
    (accumulator : UInt32) (decoded : DataChunk) :
    decodeBase85Loop (c :: rest) charIndex accumulator decoded = .outOfRange := by
  have hposition : ¬ ((c.toNat : Int) - 32 < 0 ∨ (c.toNat : Int) - 32 > 96) := by omega
  have hnat : ((c.toNat : Int) - 32).toNat = 96 := by omega
  rw [decodeBase85Loop, if_neg hposition, hnat]
  rfl

/-- A text that has no characters but those of the table, or one that is out of the table, with
the characters in front of it. -/
theorem forall_or_exists_first (text : Text) :
    (∀ c ∈ text, InBase85Decoder c) ∨
      ∃ front c rest, text = front ++ c :: rest ∧ (∀ d ∈ front, InBase85Decoder d) ∧
        ¬ InBase85Decoder c := by
  induction text with
  | nil => exact Or.inl (by simp)
  | cons c text ih =>
    by_cases hc : InBase85Decoder c
    · rcases ih with hall | ⟨front, d, rest, rfl, hfront, hd⟩
      · exact Or.inl (forall_mem_cons.mpr ⟨hc, hall⟩)
      · exact Or.inr ⟨c :: front, d, rest, rfl, forall_mem_cons.mpr ⟨hc, hfront⟩, hd⟩
    · exact Or.inr ⟨[], c, text, rfl, by simp, hc⟩

/-- The texts on which the decoder is strict: those it rejects for their length or for a character
that it tests, and those of groups of digits that fit. -/
def Base85Strict (text : Text) : Prop :=
  text.length % 5 ≠ 0 ∨
    (∃ front c rest, text = front ++ c :: rest ∧ (∀ d ∈ front, InBase85Decoder d) ∧
      (c.toNat < 32 ∨ 128 < c.toNat)) ∨
    Base85Groups text

/-- The table is read within its range, and only the encoding of the bytes is accepted. -/
def DecodesStrictly (text : Text) : Prop :=
  decodeBase85 text ≠ .outOfRange ∧
    ∀ data, decodeBase85 text = .decoded data → encodeBase85 data = some text

theorem decodesStrictly_of_rejected (h : decodeBase85 text = .rejected) : DecodesStrictly text := by
  refine ⟨?_, ?_⟩
  · rw [h]
    exact Base85Result.noConfusion
  · intro data hdec
    rw [h] at hdec
    cases hdec

theorem Base85Strict.decodesStrictly (h : Base85Strict text) : DecodesStrictly text := by
  rcases h with hlength | ⟨front, c, rest, rfl, hfront, hc⟩ | hgroups
  · exact decodesStrictly_of_rejected (if_pos hlength)
  · apply decodesStrictly_of_rejected
    rw [decodeBase85]
    split_ifs
    · rfl
    · obtain ⟨charIndex, accumulator, decoded, hloop⟩ :=
        exists_decodeBase85Loop_append hfront (c :: rest) 0 0 []
      rw [hloop, decodeBase85Loop_eq_rejected hc]
  · obtain ⟨data, hpairs⟩ := base85Groups_iff.mp hgroups
    refine ⟨?_, ?_⟩
    · rw [hpairs.decodeBase85_eq]
      exact Base85Result.noConfusion
    · intro data' hdec
      rw [hpairs.decodeBase85_eq] at hdec
      cases hdec
      exact hpairs.encodeBase85_eq

/-- Only numbers of 32 bits are written, in digits. -/
theorem base85Groups_of_encodeBase85 (h : encodeBase85 data = some text) : Base85Groups text := by
  have hlength : data.length % 4 = 0 := by
    by_contra hne
    rw [encodeBase85, if_pos hne] at h
    cases h
  obtain ⟨text', hpairs⟩ := exists_base85Pairs hlength
  rw [hpairs.encodeBase85_eq] at h
  cases h
  exact base85Groups_iff.mpr ⟨data, hpairs⟩

theorem DecodesStrictly.base85Strict (h : DecodesStrictly text) : Base85Strict text := by
  by_cases hlength : text.length % 5 = 0
  · have hdec : decodeBase85 text = decodeBase85Loop text 0 0 [] :=
      if_neg (not_not.mpr hlength)
    rcases forall_or_exists_first text with hall | ⟨front, c, rest, rfl, hfront, hc⟩
    · obtain ⟨charIndex, accumulator, decoded, hloop⟩ :=
        exists_decodeBase85Loop_append hall [] 0 0 []
      rw [append_nil, ← hdec] at hloop
      exact Or.inr (Or.inr (base85Groups_of_encodeBase85 (h.2 decoded hloop)))
    · obtain ⟨charIndex, accumulator, decoded, hloop⟩ :=
        exists_decodeBase85Loop_append hfront (c :: rest) 0 0 []
      have hne : c.toNat ≠ 128 := by
        intro hlast
        apply h.1
        rw [hdec, hloop, decodeBase85Loop_eq_outOfRange hlast]
      have hout : c.toNat < 32 ∨ 128 < c.toNat := by
        by_contra hin
        exact hc (show 32 ≤ c.toNat ∧ c.toNat < 128 by omega)
      exact Or.inr (Or.inl ⟨front, c, rest, rfl, hfront, hout⟩)
  · exact Or.inl hlength

/-- What is encoded is decoded again. The decoder stays in its table and accepts only the encoding
of what it returns exactly on the texts above. -/
theorem decodeBase85_strict_iff (data : DataChunk) (text : Text) :
    (data.length % 4 = 0 →
      ∃ encoded, encodeBase85 data = some encoded ∧ decodeBase85 encoded = .decoded data) ∧
      ((decodeBase85 text ≠ .outOfRange ∧
          ∀ decoded, decodeBase85 text = .decoded decoded → encodeBase85 decoded = some text) ↔
        Base85Strict text) := by
  refine ⟨?_, DecodesStrictly.base85Strict, Base85Strict.decodesStrictly⟩
  intro hlength
  obtain ⟨encoded, hpairs⟩ := exists_base85Pairs hlength
  exact ⟨encoded, hpairs.encodeBase85_eq, hpairs.decodeBase85_eq⟩

/-- A character behind the table, one that is no digit, and a number of more than 32 bits. -/
theorem decodeBase85_not_strict :
    decodeBase85 "\x80aaaa".toList = .outOfRange ∧
      decodeBase85 "     ".toList = .decoded [0, 0, 0, 0] ∧
      decodeBase85 "#####".toList = .decoded [8, 120, 14, 196] ∧
      encodeBase85 [0, 0, 0, 0] = some "00000".toList ∧
      ¬ ∀ text, decodeBase85 text ≠ .outOfRange ∧
        ∀ data, decodeBase85 text = .decoded data → encodeBase85 data = some text := by
  refine ⟨by decide, by decide, by decide, by decide, fun hstrict => ?_⟩
  exact (hstrict "\x80aaaa".toList).1 (by decide)

end BitprimCore
