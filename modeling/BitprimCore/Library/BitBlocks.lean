import Mathlib.Algebra.Order.Group.Nat
import Mathlib.Data.Nat.Bitwise

/-!
# Bits in bytes

A sequence of bytes read as a sequence of bits, each byte from its most significant bit on. The
sequence is followed by zeros without end, so that what an operation on the bytes does is said by
one equation for each bit, with no case for the last byte.
-/

namespace BitBlocks

open List

variable (blocks : List UInt8)

variable {i : Nat} (block other : UInt8) (distance : Nat)

/-- Bit `i` of a byte, from the most significant one on, and zero after the last. -/
def bit (i : Nat) : Bool := decide (i < 8) && block.toNat.testBit (7 - i)

/-- A shift of the byte as an integer, cut to a byte again. -/
def shiftLeft : UInt8 := UInt8.ofNat (block.toNat <<< distance)

def shiftRight : UInt8 := UInt8.ofNat (block.toNat >>> distance)

theorem bit_of_le (h : 8 ≤ i) : bit block i = false := by
  simp [bit, not_lt.mpr h]

@[simp] theorem bit_zero (i : Nat) : bit 0 i = false := by
  simp [bit]

@[simp] theorem bit_or (i : Nat) : bit (block ||| other) i = (bit block i || bit other i) := by
  simp [bit, Bool.and_or_distrib_left]

@[simp] theorem bit_and (i : Nat) : bit (block &&& other) i = (bit block i && bit other i) := by
  cases h : decide (i < 8) <;> simp [bit, h]

theorem bit_ofNat (n i : Nat) : bit (UInt8.ofNat n) i = (decide (i < 8) && n.testBit (7 - i)) := by
  rw [bit, UInt8.toNat_ofNat']
  change (_ && (n % 2 ^ 8).testBit _) = _
  rw [Nat.testBit_mod_two_pow]
  have hlow : 7 - i < 8 := by omega
  simp [hlow]

/-- What is shifted out at the top is lost, and zeros come in after the last bit. -/
@[simp] theorem bit_shiftLeft (i : Nat) :
    bit (shiftLeft block distance) i = bit block (i + distance) := by
  rw [shiftLeft, bit_ofNat, Nat.testBit_shiftLeft, bit]
  by_cases hin : i + distance < 8
  · have hshift : distance ≤ 7 - i := by omega
    have hidx : 7 - i - distance = 7 - (i + distance) := by omega
    have hi : i < 8 := by omega
    simp [hin, hshift, hidx, hi]
  · by_cases hi : i < 8
    · have hshift : ¬ distance ≤ 7 - i := by omega
      simp [hin, hshift]
    · simp [hin, hi]

theorem zero_shiftLeft : shiftLeft 0 distance = 0 := by
  simp [shiftLeft]

@[simp] theorem bit_shiftRight (i : Nat) :
    bit (shiftRight block distance) i =
      (decide (i < 8) && (decide (distance ≤ i) && bit block (i - distance))) := by
  rw [shiftRight, bit_ofNat, Nat.testBit_shiftRight]
  by_cases hi : i < 8
  · by_cases hin : distance ≤ i
    · have hidx : distance + (7 - i) = 7 - (i - distance) := by omega
      have hlt : i - distance < 8 := by omega
      simp [bit, hi, hin, hidx, hlt]
    · have hhigh : block.toNat < 2 ^ (distance + (7 - i)) :=
        block.toNat_lt.trans_le (Nat.pow_le_pow_right (by decide) (by omega))
      simp [hi, hin, Nat.testBit_lt_two_pow hhigh]
  · simp [hi]

theorem bit_ones (i : Nat) : bit 0xff i = decide (i < 8) := by
  by_cases hi : i < 8
  · have htable : ∀ i : Fin 8, bit 0xff i := by decide
    simpa [hi] using htable ⟨i, hi⟩
  · simp [bit, hi]

theorem bit_one (i : Nat) : bit 1 i = decide (i = 7) := by
  by_cases hi : i < 8
  · have htable : ∀ i : Fin 8, bit 1 i = decide (i.val = 7) := by decide
    exact htable ⟨i, hi⟩
  · have hne : i ≠ 7 := by omega
    simp [bit, hi, hne]

/-- A mask of one bit. -/
theorem and_shiftLeft_one_ne_zero_iff (hi : i < 8) :
    0 < block &&& shiftLeft 1 (7 - i) ↔ bit block i := by
  have hmask : (shiftLeft 1 (7 - i)).toNat = 2 ^ (7 - i) := by
    rw [shiftLeft, UInt8.toNat_ofNat']
    change (1 <<< (7 - i)) % 2 ^ 8 = _
    rw [Nat.one_shiftLeft]
    exact Nat.mod_eq_of_lt (Nat.pow_lt_pow_right (by decide) (by omega))
  rw [UInt8.lt_iff_toNat_lt, UInt8.toNat_and, hmask, Nat.and_two_pow]
  have hpow : 0 < 2 ^ (7 - i) := Nat.two_pow_pos _
  cases h : block.toNat.testBit (7 - i) <;> simp [bit, hi, h, hpow]

theorem ext_bit {block other : UInt8} (h : ∀ i, bit block i = bit other i) : block = other := by
  apply UInt8.toNat_inj.mp
  apply Nat.eq_of_testBit_eq
  intro j
  by_cases hj : j < 8
  · have hbit := h (7 - j)
    have hlt : 7 - j < 8 := by omega
    have hidx : 7 - (7 - j) = j := by omega
    simpa [bit, hlt, hidx] using hbit
  · have hpow : 2 ^ 8 ≤ 2 ^ j := Nat.pow_le_pow_right (by decide) (by omega)
    rw [Nat.testBit_lt_two_pow (block.toNat_lt.trans_le hpow),
      Nat.testBit_lt_two_pow (other.toNat_lt.trans_le hpow)]

/-- Bit `i` of a sequence of bytes, and zero after the last. -/
def bitAt (blocks : List UInt8) (i : Nat) : Bool := bit (blocks.getD (i / 8) 0) (i % 8)

@[simp] theorem bitAt_nil (i : Nat) : bitAt [] i = false := by
  simp [bitAt]

theorem bitAt_cons_of_lt (blocks : List UInt8) (h : i < 8) :
    bitAt (block :: blocks) i = bit block i := by
  simp [bitAt, Nat.div_eq_of_lt h, Nat.mod_eq_of_lt h]

theorem bitAt_cons_of_le (blocks : List UInt8) (h : 8 ≤ i) :
    bitAt (block :: blocks) i = bitAt blocks (i - 8) := by
  obtain ⟨j, rfl⟩ := Nat.exists_eq_add_of_le' h
  have hdiv : (j + 8) / 8 = j / 8 + 1 := by omega
  simp [bitAt, hdiv]

theorem bitAt_of_length_le {blocks : List UInt8} (h : 8 * blocks.length ≤ i) :
    bitAt blocks i = false := by
  have hidx : blocks.length ≤ i / 8 := by omega
  simp [bitAt, getD_eq_getElem?_getD, getElem?_eq_none hidx]

theorem bitAt_append (others : List UInt8) (i : Nat) :
    bitAt (blocks ++ others) i =
      if i < 8 * blocks.length then bitAt blocks i else bitAt others (i - 8 * blocks.length) := by
  split_ifs with h
  · have hidx : i / 8 < blocks.length := by omega
    simp [bitAt, getD_eq_getElem?_getD, getElem?_append_left hidx]
  · have hidx : blocks.length ≤ i / 8 := by omega
    have hdiv : (i - 8 * blocks.length) / 8 = i / 8 - blocks.length := by omega
    have hmod : (i - 8 * blocks.length) % 8 = i % 8 := by omega
    simp [bitAt, getD_eq_getElem?_getD, getElem?_append_right hidx, hdiv, hmod]

/-- Bits that are added to the last byte. -/
theorem bitAt_append_or (i : Nat) :
    bitAt (blocks ++ [block ||| other]) i = (bitAt (blocks ++ [block]) i ||
      (decide (8 * blocks.length ≤ i) && bit other (i - 8 * blocks.length))) := by
  rw [bitAt_append, bitAt_append]
  split_ifs with hin
  · simp [not_le.mpr hin]
  · by_cases hlast : i - 8 * blocks.length < 8
    · simp [bitAt_cons_of_lt _ _ hlast, not_lt.mp hin]
    · rw [bitAt_cons_of_le _ _ (not_lt.mp hlast), bitAt_cons_of_le _ _ (not_lt.mp hlast),
        bit_of_le _ (not_lt.mp hlast)]
      simp

theorem bitAt_replicate_zero (count i : Nat) : bitAt (replicate count 0) i = false := by
  induction count generalizing i with
  | zero => simp
  | succ count ih =>
    rw [replicate_succ]
    by_cases hi : i < 8
    · rw [bitAt_cons_of_lt _ _ hi, bit_zero]
    · rw [bitAt_cons_of_le _ _ (not_lt.mp hi), ih]

theorem bitAt_take (count i : Nat) :
    bitAt (blocks.take count) i = (decide (i < 8 * count) && bitAt blocks i) := by
  by_cases h : i < 8 * count
  · have hidx : i / 8 < count := by omega
    simp [bitAt, getD_eq_getElem?_getD, getElem?_take_of_lt hidx, h]
  · have hlen : 8 * (blocks.take count).length ≤ i := by
      rw [length_take]
      omega
    simp [bitAt_of_length_le hlen, h]

theorem bitAt_map_range (f : Nat → UInt8) {count : Nat} (h : i < 8 * count) :
    bitAt ((range count).map f) i = bit (f (i / 8)) (i % 8) := by
  have hidx : i / 8 < ((range count).map f).length := by
    rw [length_map, length_range]
    omega
  rw [bitAt, getD_eq_getElem _ _ hidx, getElem_map, getElem_range]

theorem bitAt_set {blocks : List UInt8} {index : Nat} (hidx : index < blocks.length)
    (block : UInt8) (i : Nat) :
    bitAt (blocks.set index block) i =
      if i / 8 = index then bit block (i % 8) else bitAt blocks i := by
  split_ifs with h
  · simp [bitAt, h, getD_eq_getElem?_getD, getElem?_set_self hidx]
  · simp [bitAt, getD_eq_getElem?_getD, getElem?_set_ne (Ne.symm h)]

/-- As many bytes with the same bits are the same bytes. -/
theorem ext_bitAt {blocks others : List UInt8} (hlen : blocks.length = others.length)
    (h : ∀ i, bitAt blocks i = bitAt others i) : blocks = others := by
  apply ext_getElem hlen
  intro index hidx hother
  apply ext_bit
  intro j
  by_cases hj : j < 8
  · have hbit := h (8 * index + j)
    have hdiv : (8 * index + j) / 8 = index := by omega
    have hmod : (8 * index + j) % 8 = j := by omega
    simpa only [bitAt, hdiv, hmod, getD_eq_getElem _ _ hidx, getD_eq_getElem _ _ hother] using hbit
  · rw [bit_of_le _ (not_lt.mp hj), bit_of_le _ (not_lt.mp hj)]

/-- A loop that rewrites the bytes in their order, where the value of a byte depends on bytes that
are not rewritten yet, gives what the bytes before the loop give. -/
theorem foldl_set_range {blocks : List UInt8} (step : List UInt8 → Nat → UInt8)
    (hstep : ∀ current k, (∀ i, k ≤ i → current.getD i 0 = blocks.getD i 0) →
      step current k = step blocks k) {count : Nat} (hcount : count ≤ blocks.length) :
    (range count).foldl (fun current k => current.set k (step current k)) blocks =
      (range count).map (step blocks) ++ blocks.drop count := by
  induction count with
  | zero => simp
  | succ count ih =>
    have hlt : count < blocks.length := hcount
    have hlen : ((range count).map (step blocks)).length = count := by simp
    rw [range_succ, foldl_append, ih hlt.le, foldl_cons, foldl_nil,
      hstep _ count ?_, List.set_append_right _ _ hlen.le, hlen, Nat.sub_self,
      drop_eq_getElem_cons hlt, set_cons_zero, map_append, append_assoc]
    · rfl
    · -- what the loop has not reached is as it was
      intro i hi
      simp only [getD_eq_getElem?_getD]
      rw [getElem?_append_right (hlen.le.trans hi), hlen, getElem?_drop, Nat.add_sub_cancel' hi]

end BitBlocks
