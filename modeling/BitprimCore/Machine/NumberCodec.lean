import BitprimCore.Library.SignMagnitude
import BitprimCore.Machine.Number
import Mathlib.Data.Nat.Bitwise

/-!
# The codec of script numbers

`number::set_data` and `number::data` on numbers of 64 bits: bytes are shifted into place, and the
sign is a bit of the last byte that is masked out. In the range of 64 bits both compute the
integers of the script machine, and what is written is the only string of its value that is as
short.
-/

namespace BitprimCore

open LittleEndian SignMagnitude List Option

namespace Number

variable {bytes : DataChunk} {v : BitVec 64}

/-- The loop of `set_data`: each byte goes eight bits above the one before. -/
def orBytes : (shift : Nat) → DataChunk → BitVec 64 → BitVec 64
  | _, [], value => value
  | shift, byte :: bytes, value =>
    orBytes (shift + 8) bytes (value ||| BitVec.ofNat 64 byte.toNat <<< shift)

/-- `set_data` as it computes. -/
def setData64 (data : DataChunk) (maxSize : Nat) : Option (BitVec 64) :=
  if data.length > maxSize then none
  else if data.isEmpty then some 0
  else
    let value := orBytes 0 data 0
    if Number.isNegative data then
      let lastShift := 8 * (data.length - 1)
      let mask := ~~~(0x80#64 <<< lastShift)
      some (-(value &&& mask))
    else some value

/-- The loop of `data`, at most once for each byte of the unsigned type. -/
def magnitudeBytes64 : (fuel : Nat) → BitVec 64 → DataChunk
  | 0, _ => []
  | fuel + 1, absolute =>
    if absolute = 0 then []
    else UInt8.ofNat absolute.toNat :: magnitudeBytes64 fuel (absolute >>> 8)

/-- `data` as it computes. -/
def data64 (value : BitVec 64) : DataChunk :=
  if value = 0 then []
  else
    let setNegative := decide (value.toInt < 0)
    let bytes := magnitudeBytes64 8 (if setNegative then -value else value)
    if Number.isNegative bytes && setNegative then bytes ++ [negativeMask]
    else if Number.isNegative bytes then bytes ++ [0]
    else if setNegative then bytes.dropLast ++ [bytes.getLastD 0 ||| negativeMask]
    else bytes

def maxInt64 : Int := 2 ^ 63 - 1
def minInt64 : Int := -2 ^ 63

/-- Bytes above a number that leaves them the room are added to it. -/
theorem toNat_orBytes {shift : Nat} {data : DataChunk} {value : BitVec 64}
    (hval : value.toNat < 2 ^ shift) (hroom : shift + 8 * data.length ≤ 64) :
    (orBytes shift data value).toNat = value.toNat + 2 ^ shift * toNat data := by
  induction data generalizing shift value with
  | nil => simp [orBytes]
  | cons byte bytes ih =>
    have hbyte : byte.toNat < 256 := byte.toNat_lt
    rw [List.length_cons] at hroom
    have hpow : 2 ^ (shift + 8) = 2 ^ shift * 256 := pow_add 2 shift 8
    have hle : 2 ^ (shift + 8) ≤ 2 ^ 64 := Nat.pow_le_pow_right (by decide) (by omega)
    have hshifted : byte.toNat * 2 ^ shift + value.toNat < 2 ^ (shift + 8) := by
      have hmul := Nat.mul_le_mul_right (2 ^ shift) (Nat.le_of_lt_succ hbyte)
      omega
    have hor : (value ||| BitVec.ofNat 64 byte.toNat <<< shift).toNat =
        value.toNat + 2 ^ shift * byte.toNat := by
      have hmod : byte.toNat * 2 ^ shift % 2 ^ 64 = byte.toNat * 2 ^ shift :=
        Nat.mod_eq_of_lt (by omega)
      have hsmall : byte.toNat % 2 ^ 64 = byte.toNat := Nat.mod_eq_of_lt (by omega)
      rw [BitVec.toNat_or, BitVec.toNat_shiftLeft, BitVec.toNat_ofNat, hsmall,
        Nat.shiftLeft_eq, hmod, Nat.or_comm, ← Nat.shiftLeft_eq,
        ← Nat.shiftLeft_add_eq_or_of_lt hval, Nat.shiftLeft_eq]
      ring
    have hnext : (value ||| BitVec.ofNat 64 byte.toNat <<< shift).toNat < 2 ^ (shift + 8) := by
      rw [hor, Nat.mul_comm]
      omega
    rw [orBytes, ih hnext (by omega), hor, hpow, toNat_cons]
    ring

/-- A mask that leaves out the top bit of a number leaves the rest of it. -/
theorem toNat_and_mask {value : BitVec 64} {position : Nat} (hposition : position < 64)
    (hval : value.toNat < 2 ^ (position + 1)) :
    (value &&& ~~~(BitVec.twoPow 64 position)).toNat = value.toNat % 2 ^ position := by
  apply Nat.eq_of_testBit_eq
  intro i
  rw [Nat.testBit_mod_two_pow, BitVec.testBit_toNat, BitVec.getLsbD_and, BitVec.getLsbD_not,
    BitVec.getLsbD_twoPow, BitVec.testBit_toNat]
  by_cases hlt : i < position
  · have hrange : i < 64 := by omega
    have hne : position ≠ i := by omega
    simp [hlt, hrange, hne]
  · by_cases heq : i = position
    · subst heq
      simp [hposition]
    · have hhigh : value.getLsbD i = false := by
        rw [← BitVec.testBit_toNat]
        apply Nat.testBit_lt_two_pow
        exact hval.trans_le (Nat.pow_le_pow_right (by decide) (by omega))
      simp [hlt, hhigh]

theorem isNegative_eq (data : DataChunk) : Number.isNegative data = SignMagnitude.isNegative data :=
  rfl

/-- The integer that the model reads is the signed magnitude. -/
theorem setData_eq_value {data : DataChunk} {maxSize : Nat} (h : data.length ≤ maxSize) :
    setData data maxSize = some (value data) := by
  rw [setData, if_neg (not_lt.mpr h), value, isNegative_eq]
  cases data with
  | nil => rfl
  | cons byte bytes =>
    have hwidth : 256 ^ (byte :: bytes).length / 2 = 0x80 * 256 ^ ((byte :: bytes).length - 1) := by
      rw [List.length_cons, Nat.add_sub_cancel, pow_succ]
      omega
    rw [hwidth]
    exact (apply_ite some _ _ _).symm

theorem setData_eq_none {data : DataChunk} {maxSize : Nat} (h : maxSize < data.length) :
    setData data maxSize = none := by
  rw [setData, if_pos h]

/-- What is popped as a number has its magnitude. -/
theorem natAbs_lt_of_setData {item : DataChunk} {a : Int}
    (h : setData item maxNumberSize = some a) : value item = a ∧ a.natAbs < 2 ^ 31 := by
  by_cases hlong : maxNumberSize < item.length
  · rw [setData_eq_none hlong] at h
    cases h
  · have hlen : item.length ≤ 4 := Nat.le_of_not_lt hlong
    rw [setData_eq_value (Nat.le_of_not_lt hlong), Option.some_inj] at h
    refine ⟨h, ?_⟩
    have hlt := natAbs_value_lt item
    have hpow : 256 ^ item.length ≤ 256 ^ 4 := Nat.pow_le_pow_right (by decide) hlen
    rw [← h]
    omega

theorem toNat_orBytes_zero {data : DataChunk} (hlen : data.length ≤ 8) :
    (orBytes 0 data 0).toNat = toNat data := by
  rw [toNat_orBytes (by decide) (by omega)]
  simp

/-- A sign that is set is masked out of the number. -/
theorem toNat_masked {data : DataChunk} (hlen : data.length ≤ 8)
    (hsign : Number.isNegative data) :
    (orBytes 0 data 0 &&& ~~~(0x80#64 <<< (8 * (data.length - 1)))).toNat =
      toNat data - 256 ^ data.length / 2 := by
  have hlt := toNat_lt data
  have hhigh := (isNegative_iff data).mp hsign
  have hne : data ≠ [] := by
    rintro rfl
    simp [Number.isNegative] at hsign
  have hpos := length_pos_of_ne_nil hne
  have hbit : 0x80#64 <<< (8 * (data.length - 1)) = BitVec.twoPow 64 (8 * data.length - 1) := by
    have hshift : 8 * data.length - 1 = 7 + 8 * (data.length - 1) := by omega
    rw [BitVec.twoPow, hshift, BitVec.shiftLeft_add]
    rfl
  have hwidth : (256 : Nat) ^ data.length = 2 ^ (8 * data.length - 1 + 1) := by
    rw [Nat.sub_add_cancel (by omega), pow_mul]
    rfl
  rw [hwidth] at hlt hhigh ⊢
  rw [hbit, toNat_and_mask (by omega) (by rwa [toNat_orBytes_zero hlen]), toNat_orBytes_zero hlen]
  rw [pow_succ] at hlt hhigh ⊢
  rw [Nat.mul_div_cancel _ (by decide), Nat.mod_eq_sub_mod (by omega), Nat.mod_eq_of_lt (by omega)]

/-- Up to eight bytes the shifts and the mask compute the signed magnitude. -/
theorem setData64_toInt {data : DataChunk} (hlen : data.length ≤ 8) (maxSize : Nat) :
    (setData64 data maxSize).map BitVec.toInt = setData data maxSize := by
  rcases lt_or_ge maxSize data.length with hlong | hfits
  · rw [setData_eq_none hlong, setData64, if_pos hlong]
    rfl
  have hlt := toNat_lt data
  have hiff := isNegative_iff data
  have hle : 256 ^ data.length ≤ 2 ^ 64 := Nat.pow_le_pow_right (by decide) hlen
  have hread := toNat_orBytes_zero hlen
  rw [setData_eq_value hfits, setData64, if_neg (not_lt.mpr hfits), value, isNegative_eq]
  cases hempty : data.isEmpty with
  | true =>
    obtain rfl := isEmpty_iff.mp hempty
    rfl
  | false =>
    simp only [Bool.false_eq_true, if_false]
    cases hsign : SignMagnitude.isNegative data with
    | false =>
      rw [hsign] at hiff
      simp only [Bool.false_eq_true, false_iff, if_false, map_some] at hiff ⊢
      rw [BitVec.toInt_eq_toNat_of_lt (by omega), hread]
    | true =>
      have hmasked := toNat_masked hlen hsign
      simp only [if_true, map_some]
      rw [BitVec.toInt_neg, BitVec.toInt_eq_toNat_of_lt (by omega), hmasked]
      congr 1
      apply Int.bmod_eq_of_le <;> omega

theorem magnitudeBytes64_eq (fuel : Nat) (absolute : BitVec 64) :
    magnitudeBytes64 fuel absolute = magnitudeBytes fuel absolute.toNat := by
  induction fuel generalizing absolute with
  | zero => rfl
  | succ fuel ih =>
    have hzero : absolute = 0 ↔ absolute.toNat = 0 := by
      rw [← BitVec.toNat_inj]
      rfl
    have hshift : (absolute >>> 8).toNat = absolute.toNat / 256 := by
      rw [BitVec.toNat_ushiftRight, Nat.shiftRight_eq_div_pow]
    rw [magnitudeBytes64, magnitudeBytes, ih, hshift]
    simp only [hzero]

/-- The 64 bits are written as the integer that they are. -/
theorem data64_eq (value : BitVec 64) : data64 value = data value.toInt := by
  have hzero : value = 0 ↔ value.toInt = 0 := by
    rw [← BitVec.toInt_inj]
    rfl
  have habsolute : (if value.toInt < 0 then -value else value).toNat = value.toInt.natAbs := by
    have hlt := value.isLt
    rw [BitVec.toInt_eq_toNat_cond]
    split_ifs with hsmall hneg hneg
    · omega
    · omega
    · rw [BitVec.toNat_neg]
      omega
    · omega
  rw [data64, data]
  simp only [hzero, magnitudeBytes64_eq, decide_eq_true_eq, habsolute]

theorem toNat_magnitudeBytes {fuel absolute : Nat} (h : absolute < 256 ^ fuel) :
    toNat (magnitudeBytes fuel absolute) = absolute := by
  induction fuel generalizing absolute with
  | zero =>
    obtain rfl : absolute = 0 := by simpa using h
    rfl
  | succ fuel ih =>
    rw [pow_succ] at h
    rw [magnitudeBytes]
    split_ifs with hzero
    · exact hzero.symm
    · rw [toNat_cons, ih (by omega), UInt8.toNat_ofNat']
      omega

/-- There is no leading zero. -/
theorem pow_length_magnitudeBytes_le (fuel : Nat) {absolute : Nat} (h : absolute ≠ 0) :
    256 ^ (magnitudeBytes fuel absolute).length ≤ 256 * absolute := by
  induction fuel generalizing absolute with
  | zero =>
    simp only [magnitudeBytes, length_nil, pow_zero]
    omega
  | succ fuel ih =>
    rw [magnitudeBytes, if_neg h, length_cons, pow_succ]
    by_cases hlast : absolute / 256 = 0
    · have hnil : magnitudeBytes fuel (absolute / 256) = [] := by
        rw [hlast]
        cases fuel <;> rfl
      rw [hnil, length_nil, pow_zero]
      omega
    · have hrest := ih hlast
      omega

variable {value : Int}

theorem data_of_ne_zero (h : value ≠ 0) :
    data value = withSign (magnitudeBytes 8 value.natAbs) (decide (value < 0)) := by
  rw [data, if_neg h, withSign]
  simp only [isNegative_eq, decide_eq_true_eq]
  rfl

/-- What is written reads as the integer. -/
theorem value_data (hval : value.natAbs < 256 ^ 8) : SignMagnitude.value (data value) = value := by
  by_cases hzero : value = 0
  · subst hzero
    rfl
  have hread := toNat_magnitudeBytes hval
  have hne : magnitudeBytes 8 value.natAbs ≠ [] := by
    intro hnil
    rw [hnil, toNat_nil] at hread
    omega
  rw [data_of_ne_zero hzero, value_withSign hne, hread]
  split_ifs with hneg
  · rw [decide_eq_true_eq] at hneg
    omega
  · rw [decide_eq_true_eq] at hneg
    omega

/-- What is written is no longer than the magnitude needs. -/
theorem pow_length_data_le (hval : value.natAbs < 256 ^ 8) (hne : value ≠ 0) :
    256 ^ (data value).length ≤ 512 * value.natAbs := by
  have hread := toNat_magnitudeBytes hval
  have hneeded : 256 ^ (magnitudeBytes 8 value.natAbs).length ≤
      256 * toNat (magnitudeBytes 8 value.natAbs) := by
    rw [hread]
    exact pow_length_magnitudeBytes_le 8 (Int.natAbs_ne_zero.mpr hne)
  have hsigned := pow_length_withSign_le hneeded (decide (value < 0))
  rwa [hread, ← data_of_ne_zero hne] at hsigned

/-- A magnitude that a length can hold is written in that length. -/
theorem length_data_le {length : Nat} (hval : value.natAbs < 256 ^ 8)
    (hlen : 2 * value.natAbs < 256 ^ length) : (data value).length ≤ length := by
  by_cases hzero : value = 0
  · subst hzero
    exact Nat.zero_le _
  have hneeded := pow_length_data_le hval hzero
  have hpow : 256 ^ (data value).length < 256 ^ (length + 1) := by
    rw [pow_succ]
    omega
  exact Nat.le_of_lt_succ ((Nat.pow_lt_pow_iff_right (by decide)).mp hpow)

/-- No other string that reads as the integer is as short. -/
theorem eq_data_of_length_le (hval : value.natAbs < 256 ^ 8)
    (hbytes : SignMagnitude.value bytes = value) (hlen : bytes.length ≤ (data value).length) :
    bytes = data value := by
  by_cases hzero : value = 0
  · subst hzero
    exact eq_nil_of_length_eq_zero (Nat.le_zero.mp hlen)
  have hread := value_data hval
  refine eq_of_length_le ?_ (hbytes.trans hread.symm) hlen
  rw [hread]
  exact pow_length_data_le hval hzero

/-- Up to eight bytes, reading is by sign and magnitude. -/
theorem setData64_eq_some_iff (hlen : bytes.length ≤ 8) :
    setData64 bytes 8 = some v ↔ SignMagnitude.value bytes = v.toInt := by
  have hread := setData64_toInt hlen 8
  rw [setData_eq_value hlen] at hread
  obtain ⟨a, ha, hval⟩ := map_eq_some_iff.mp hread
  rw [ha, ← hval, some_inj, BitVec.toInt_inj]

theorem natAbs_toInt_lt (hv : v.toInt ≠ minInt64) : v.toInt.natAbs < 2 ^ 63 := by
  have hle := v.toInt_lt
  have hge := v.le_toInt
  simp only [minInt64] at hv
  omega

/-- Every number but the least is read back. -/
theorem setData64_data64 (hv : v.toInt ≠ minInt64) : setData64 (data64 v) 8 = some v := by
  have hlt := natAbs_toInt_lt hv
  rw [data64_eq]
  have hlen : (data v.toInt).length ≤ 8 := by
    apply length_data_le
    · omega
    · omega
  exact (setData64_eq_some_iff hlen).mpr (value_data (by omega))

/-- Nothing else that is as short reads as the number. -/
theorem eq_data64_of_length_le (hv : v.toInt ≠ minInt64)
    (hlen : bytes.length ≤ (data64 v).length) (hread : setData64 bytes 8 = some v) :
    bytes = data64 v := by
  have hlt := natAbs_toInt_lt hv
  have hfits : bytes.length ≤ 8 := by
    by_contra hlong
    rw [setData64, if_pos (Nat.lt_of_not_le hlong)] at hread
    cases hread
  rw [data64_eq] at hlen ⊢
  exact eq_data_of_length_le (by omega) ((setData64_eq_some_iff hfits).mp hread) hlen

end Number

end BitprimCore
