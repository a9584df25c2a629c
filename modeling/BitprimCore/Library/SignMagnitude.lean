import BitprimCore.Library.LittleEndian
import Mathlib.Data.List.Induction

/-!
# Sign-magnitude byte strings

A byte string read as a little-endian number whose top bit is the sign. A longer string is needed
for a greater magnitude only, and strings of one length have distinct values, zero apart. So a
string that is as short as its magnitude allows is the only one of its value that is as short.
-/

namespace SignMagnitude

open LittleEndian List

variable {byte : UInt8} (bytes : List UInt8)

/-- The top bit of the last byte. -/
def isNegative : Bool := (bytes.getLastD 0 &&& 0x80) != 0

/-- The number below the top bit, with the sign that the top bit gives. -/
def value : Int :=
  if isNegative bytes then -((toNat bytes - 256 ^ bytes.length / 2 : Nat) : Int) else toNat bytes

theorem toNat_append (rest : List UInt8) :
    toNat (bytes ++ rest) = toNat bytes + 256 ^ bytes.length * toNat rest := by
  induction bytes with
  | nil => simp
  | cons byte bytes ih =>
    rw [cons_append, toNat_cons, toNat_cons, ih, length_cons, pow_succ]
    ring

theorem topBit_iff (byte : UInt8) : (byte &&& 0x80) ≠ 0 ↔ 128 ≤ byte.toNat := by
  have htable : ∀ n : Fin 256, (UInt8.ofNat n &&& 0x80) ≠ 0 ↔ 128 ≤ n.val := by decide +kernel
  simpa using htable ⟨byte.toNat, byte.toNat_lt⟩

theorem isNegative_append (byte : UInt8) : isNegative (bytes ++ [byte]) ↔ 128 ≤ byte.toNat := by
  rw [← topBit_iff]
  simp [isNegative]

/-- The top bit is the upper half of the numbers of a length. -/
theorem isNegative_iff : isNegative bytes ↔ 256 ^ bytes.length ≤ 2 * toNat bytes := by
  induction bytes using List.reverseRecOn with
  | nil => simp [isNegative]
  | append_singleton bytes byte _ =>
    have hlow := toNat_lt bytes
    rw [isNegative_append, toNat_append, List.length_append, List.length_singleton, pow_succ, toNat_cons,
      toNat_nil, Nat.mul_zero, Nat.add_zero]
    generalize 256 ^ bytes.length = width at hlow
    constructor
    · intro hbyte
      have hmul := Nat.mul_le_mul_left width hbyte
      omega
    · intro hle
      by_contra hbyte
      have hmul := Nat.mul_le_mul_left width (Nat.le_of_lt_succ (Nat.lt_of_not_le hbyte))
      omega

variable {bytes other : List UInt8}

/-- A number is split into its sign and its magnitude. -/
theorem toNat_eq (bytes : List UInt8) :
    toNat bytes = (value bytes).natAbs + if isNegative bytes then 256 ^ bytes.length / 2 else 0 := by
  have hiff := isNegative_iff bytes
  unfold value
  cases h : isNegative bytes with
  | false => simp
  | true =>
    have hle := hiff.mp h
    simp only [if_true, Int.natAbs_neg, Int.natAbs_natCast]
    omega

theorem even_width (hne : bytes ≠ []) : 2 * (256 ^ bytes.length / 2) = 256 ^ bytes.length := by
  have hpos := length_pos_of_ne_nil hne
  apply Nat.mul_div_cancel'
  exact Dvd.dvd.trans (by decide) (dvd_pow_self 256 hpos.ne')

/-- A length bounds the magnitude. -/
theorem natAbs_value_lt (bytes : List UInt8) : 2 * (value bytes).natAbs < 256 ^ bytes.length := by
  have hiff := isNegative_iff bytes
  have hlt := toNat_lt bytes
  have hsplit := toNat_eq bytes
  cases h : isNegative bytes with
  | false =>
    rw [h] at hiff hsplit
    simp only [Bool.false_eq_true, false_iff, if_false] at hiff hsplit
    omega
  | true =>
    have hne : bytes ≠ [] := by
      rintro rfl
      simp [isNegative] at h
    have heven := even_width hne
    rw [h, if_pos rfl] at hsplit
    omega

/-- The sign of a value that is not zero is the top bit. -/
theorem isNegative_of_value_neg (h : value bytes < 0) : isNegative bytes := by
  by_contra hnot
  rw [value, if_neg hnot] at h
  omega

theorem not_isNegative_of_value_pos (h : 0 < value bytes) : isNegative bytes = false := by
  by_contra hnot
  rw [Bool.not_eq_false] at hnot
  rw [value, if_pos hnot] at h
  omega

/-- Strings of one length have distinct values, zero apart. -/
theorem eq_of_value_eq (hlen : other.length = bytes.length) (hval : value other = value bytes)
    (hne : value bytes ≠ 0) : other = bytes := by
  have hsign : isNegative other = isNegative bytes := by
    rcases lt_or_gt_of_ne hne with hneg | hpos
    · rw [isNegative_of_value_neg hneg, isNegative_of_value_neg (hval ▸ hneg)]
    · rw [not_isNegative_of_value_pos hpos, not_isNegative_of_value_pos (hval ▸ hpos)]
  have htoNat : toNat other = toNat bytes := by
    rw [toNat_eq other, toNat_eq bytes, hval, hsign, hlen]
  rw [← ofNat_toNat other, ← ofNat_toNat bytes, hlen, htoNat]

/-- A string whose magnitude needs its length is the only one of its value that is as short. -/
theorem eq_of_length_le (hneeded : 256 ^ bytes.length ≤ 512 * (value bytes).natAbs)
    (hval : value other = value bytes) (hlen : other.length ≤ bytes.length) :
    other = bytes := by
  have hother := natAbs_value_lt other
  rw [hval] at hother
  have hpos : 0 < 256 ^ bytes.length := Nat.pow_pos (by decide)
  have hpow : 256 ^ bytes.length < 256 ^ (other.length + 1) := by
    rw [pow_succ]
    omega
  have hlt : bytes.length < other.length + 1 := (Nat.pow_lt_pow_iff_right (by decide)).mp hpow
  exact eq_of_value_eq (by omega) hval (by omega)

/-! ### Zeros

Zero has a string of each sign and length. -/

theorem value_eq_zero_iff (bytes : List UInt8) :
    value bytes = 0 ↔ toNat bytes = if isNegative bytes then 256 ^ bytes.length / 2 else 0 := by
  have hsplit := toNat_eq bytes
  omega

theorem value_zero_cons (bytes : List UInt8) : value (0 :: bytes) = 0 ↔ value bytes = 0 := by
  have hsign : isNegative (0 :: bytes) = isNegative bytes := by
    cases bytes <;> simp [isNegative]
  rw [value_eq_zero_iff, value_eq_zero_iff, hsign, toNat_cons, length_cons, pow_succ]
  split_ifs with hneg
  · have hne : bytes ≠ [] := by
      rintro rfl
      simp [isNegative] at hneg
    have heven := even_width hne
    simp only [UInt8.toNat_zero]
    omega
  · simp

/-- With a byte that is not zero in front, only the sign alone is zero. -/
theorem value_cons_eq_zero_iff (hbyte : byte ≠ 0) (bytes : List UInt8) :
    value (byte :: bytes) = 0 ↔ bytes = [] ∧ byte = 0x80 := by
  have hlt := byte.toNat_lt
  have hpos : byte.toNat ≠ 0 := fun hzero => hbyte (UInt8.toNat_inj.mp hzero)
  cases bytes with
  | nil =>
    have htable : ∀ n : Fin 256, UInt8.ofNat n ≠ 0 →
        (value [UInt8.ofNat n] = 0 ↔ UInt8.ofNat n = 0x80) := by
      decide +kernel
    simpa using htable ⟨byte.toNat, byte.toNat_lt⟩ (by simpa using hbyte)
  | cons next bytes =>
    rw [value_eq_zero_iff, toNat_cons, length_cons, length_cons, pow_succ, pow_succ]
    generalize 256 ^ bytes.length = width
    simp only [reduceCtorEq, false_and, iff_false]
    -- the number is no multiple of 256
    split_ifs <;> omega

theorem toNat_or_topBit (h : byte.toNat < 128) : (byte ||| 0x80).toNat = byte.toNat + 128 := by
  have htable : ∀ n : Fin 128, (UInt8.ofNat n ||| 0x80).toNat = n.val + 128 := by decide +kernel
  simpa using htable ⟨byte.toNat, h⟩

theorem value_of_not_isNegative (h : isNegative bytes = false) : value bytes = toNat bytes := by
  rw [value, h]
  rfl

/-- The top bit of the last byte turns the sign. -/
theorem value_or_topBit (h : byte.toNat < 128) :
    value (bytes ++ [byte ||| 0x80]) = -(toNat (bytes ++ [byte]) : Int) := by
  have hbyte := toNat_or_topBit h
  have hneg := (isNegative_append bytes (byte ||| 0x80)).mpr (by omega)
  have hwidth : 256 ^ (bytes ++ [byte ||| 0x80]).length / 2 = 256 ^ bytes.length * 128 := by
    rw [length_append, length_singleton, pow_succ]
    omega
  rw [value, if_pos hneg, hwidth, toNat_append, toNat_append]
  simp only [toNat_cons, toNat_nil, mul_zero, add_zero, hbyte, mul_add]
  congr 2
  omega

/-- Give a number a sign. A byte is added when the top bit is taken. -/
def withSign (bytes : List UInt8) (negative : Bool) : List UInt8 :=
  if isNegative bytes && negative then bytes ++ [0x80]
  else if isNegative bytes then bytes ++ [0]
  else if negative then bytes.dropLast ++ [bytes.getLastD 0 ||| 0x80]
  else bytes

theorem toNat_append_zero (bytes : List UInt8) :
    LittleEndian.toNat (bytes ++ [0]) = LittleEndian.toNat bytes := by
  simp [toNat_append]

theorem value_withSign (hne : bytes ≠ []) (negative : Bool) :
    value (withSign bytes negative) = if negative then -(toNat bytes : Int) else toNat bytes := by
  unfold withSign
  cases hsign : isNegative bytes with
  | true =>
    cases negative with
    | true =>
      have hturned : value (bytes ++ [0 ||| 0x80]) = -(toNat (bytes ++ [0]) : Int) :=
        value_or_topBit (by decide)
      rw [toNat_append_zero] at hturned
      exact hturned
    | false =>
      have hpos : isNegative (bytes ++ [0]) = false := by simp [isNegative]
      have hkept := value_of_not_isNegative hpos
      rw [toNat_append_zero] at hkept
      exact hkept
  | false =>
    cases negative with
    | true =>
      obtain ⟨init, byte, rfl⟩ : ∃ init byte, bytes = init ++ [byte] :=
        ⟨bytes.dropLast, bytes.getLast hne, (dropLast_append_getLast hne).symm⟩
      have hbyte : byte.toNat < 128 := by
        by_contra hlarge
        rw [(isNegative_append init byte).mpr (Nat.le_of_not_lt hlarge)] at hsign
        cases hsign
      have hturned : value (init ++ [byte ||| 0x80]) = -(toNat (init ++ [byte]) : Int) :=
        value_or_topBit hbyte
      simpa using hturned
    | false => exact value_of_not_isNegative hsign

/-- A number without a leading zero needs the length that it has with its sign. -/
theorem pow_length_withSign_le (hneeded : 256 ^ bytes.length ≤ 256 * toNat bytes)
    (negative : Bool) : 256 ^ (withSign bytes negative).length ≤ 512 * toNat bytes := by
  unfold withSign
  cases hsign : isNegative bytes with
  | true =>
    have hhigh := (isNegative_iff bytes).mp hsign
    have hlonger : ∀ byte : UInt8, 256 ^ (bytes ++ [byte]).length ≤ 512 * toNat bytes := by
      intro byte
      rw [length_append, length_singleton, pow_succ]
      omega
    cases negative with
    | true => exact hlonger 0x80
    | false => exact hlonger 0
  | false =>
    cases negative with
    | true =>
      have hne : bytes ≠ [] := by
        rintro rfl
        simp at hneeded
      have hlen : (bytes.dropLast ++ [bytes.getLastD 0 ||| 0x80]).length = bytes.length := by
        have hpos := length_pos_of_ne_nil hne
        simp only [length_append, length_dropLast, length_singleton]
        omega
      change 256 ^ (bytes.dropLast ++ [bytes.getLastD 0 ||| 0x80]).length ≤ _
      rw [hlen]
      omega
    | false =>
      change 256 ^ bytes.length ≤ _
      omega

end SignMagnitude
