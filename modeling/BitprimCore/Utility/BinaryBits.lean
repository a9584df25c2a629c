import BitprimCore.Utility.Binary
import Mathlib.Data.List.TakeWhile

/-!
# The bits of a binary

What a binary is for is a list of bits. A binary represents a list if it has the blocks that the
list needs, the bits of these are those of the list, and the bits after the last are zero. Every
operation takes a binary that represents a list to one that represents what the operation on lists
gives, so each binary that a program can build represents the list of its bits.
-/

namespace BitprimCore.Binary

open BitBlocks List

/-- The list of the bits of a binary. -/
def bits (binary : Binary) : List Bool := (List.range binary.size).map binary.get

/-- The bits it stands for. -/
structure Represents (binary : Binary) (bits : List Bool) : Prop where
  excess : binary.finalBlockExcess.toNat < 8
  size : 8 * binary.blocks.length = bits.length + binary.finalBlockExcess.toNat
  bit : ∀ i, bitAt binary.blocks i = bits.getD i false

theorem get_eq_bitAt (binary : Binary) (i : Nat) : binary.get i = bitAt binary.blocks i := by
  have hoffset : i - i / bitsPerBlock * bitsPerBlock = i % 8 := by
    rw [bitsPerBlock]
    omega
  have hmask : bitsPerBlock - i % 8 - 1 = 7 - i % 8 := by
    rw [bitsPerBlock]
    omega
  rw [Bool.eq_iff_iff, get, hoffset, hmask, decide_eq_true_eq]
  exact and_shiftLeft_one_ne_zero_iff _ (Nat.mod_lt i (by decide))

section

variable {binary other : Binary} {bits others : List Bool}
  {size : Nat} (blocks : DataChunk) {text : Text}

theorem Represents.size_eq (h : binary.Represents bits) : binary.size = bits.length := by
  have hsize := h.size
  rw [Binary.size, bitsPerBlock]
  omega

theorem Represents.bits_eq (h : binary.Represents bits) : binary.bits = bits := by
  apply ext_getElem
  · simp [Binary.bits, h.size_eq]
  · intro i _ hi
    simp [Binary.bits, get_eq_bitAt, h.bit, hi]

theorem Represents.length_blocks (h : binary.Represents bits) :
    binary.blocks.length = blocksSize bits.length := by
  have hsize := h.size
  have hexcess := h.excess
  rw [blocksSize, bitsPerBlock]
  split_ifs <;> omega

/-- A list has one binary. -/
theorem Represents.unique (h : binary.Represents bits) (h' : other.Represents bits) :
    binary = other := by
  have hlen : binary.blocks.length = other.blocks.length := by
    rw [h.length_blocks, h'.length_blocks]
  have hblocks : binary.blocks = other.blocks :=
    ext_bitAt hlen fun i => (h.bit i).trans (h'.bit i).symm
  have hexcess : binary.finalBlockExcess = other.finalBlockExcess := by
    have hsize := h.size
    have hsize' := h'.size
    apply UInt8.toNat_inj.mp
    omega
  cases binary
  cases other
  simp_all

theorem represents_empty : Represents {} [] where
  excess := by decide
  size := rfl
  bit := by simp

variable (count i : Nat)

theorem length_resizeChunk : (resizeChunk blocks count).length = count := by
  simp [resizeChunk]
  omega

theorem bitAt_resizeChunk :
    bitAt (resizeChunk blocks count) i = (decide (i < 8 * count) && bitAt blocks i) := by
  rw [resizeChunk, bitAt_append, bitAt_replicate_zero, bitAt_take]
  split_ifs with h
  · rfl
  · rw [length_take] at h
    by_cases hi : i < 8 * count
    · rw [bitAt_of_length_le (show 8 * blocks.length ≤ i by omega), Bool.and_false]
    · simp [hi]

/-- The blocks of a size, for a size that is not a multiple of eight. -/
theorem blocksSize_of_mod_pos (h : 0 < size % 8) : blocksSize size = size / 8 + 1 := by
  rw [blocksSize, bitsPerBlock]
  split_ifs <;> omega

theorem blocksSize_of_mod_eq_zero (h : size % 8 = 0) : blocksSize size = size / 8 := by
  rw [blocksSize, bitsPerBlock]
  split_ifs <;> omega

theorem length_resize (binary : Binary) (size : Nat) :
    (binary.resize size).blocks.length = blocksSize size := by
  rw [resize]
  dsimp only
  split_ifs
  · rw [length_set, length_resizeChunk]
  · exact length_resizeChunk _ _

theorem excess_resize (binary : Binary) (size : Nat) :
    (binary.resize size).finalBlockExcess.toNat < 8 ∧
      8 * blocksSize size = size + (binary.resize size).finalBlockExcess.toNat := by
  rw [resize]
  dsimp only
  split_ifs with h
  · have hoffset : 0 < size % 8 := h
    have hexcess : (UInt8.ofNat (bitsPerBlock - size % bitsPerBlock)).toNat = 8 - size % 8 :=
      UInt8.toNat_ofNat_of_lt' (show 8 - size % 8 < 256 by omega)
    rw [hexcess, blocksSize_of_mod_pos hoffset]
    omega
  · have hoffset : size % 8 = 0 := Nat.eq_zero_of_not_pos h
    rw [blocksSize_of_mod_eq_zero hoffset]
    change 0 < 8 ∧ 8 * (size / 8) = size + 0
    omega

/-- Resizing keeps the first bits, and zeros follow. -/
theorem bitAt_resize (binary : Binary) (size i : Nat) :
    bitAt (binary.resize size).blocks i = (decide (i < size) && bitAt binary.blocks i) := by
  rw [resize]
  dsimp only
  split_ifs with h
  · have hoffset : 0 < size % 8 := h
    have hcount := blocksSize_of_mod_pos hoffset
    have hmask : bitsPerBlock - size % bitsPerBlock = 8 - size % 8 := rfl
    rw [bitAt_set (by rw [length_resizeChunk]; omega), length_resizeChunk, hcount,
      Nat.add_sub_cancel, hmask]
    split_ifs with hlast
    · -- the bit is in the last block, and the mask has ones up to the size
      have hbit : bit ((resizeChunk binary.blocks (size / 8 + 1)).getD (size / 8) 0) (i % 8) =
          bitAt (resizeChunk binary.blocks (size / 8 + 1)) i := by rw [bitAt, hlast]
      rw [bit_and, bit_shiftLeft, bit_ones, hbit, bitAt_resizeChunk, Bool.and_comm]
      by_cases hi : i < size
      · have hin : i % 8 + (8 - size % 8) < 8 := by omega
        have hblock : i < 8 * (size / 8 + 1) := by omega
        simp [hi, hin, hblock]
      · have hout : ¬ i % 8 + (8 - size % 8) < 8 := by omega
        simp [hi, hout]
    · rw [bitAt_resizeChunk]
      have hiff : i < 8 * (size / 8 + 1) ↔ i < size := by omega
      simp [hiff]
  · have hoffset : size % 8 = 0 := Nat.eq_zero_of_not_pos h
    rw [bitAt_resizeChunk, blocksSize_of_mod_eq_zero hoffset]
    have hiff : i < 8 * (size / 8) ↔ i < size := by omega
    simp [hiff]

/-- Of any blocks, resizing makes a binary of their first bits. -/
theorem represents_resize (hsize : bits.length = size)
    (h : ∀ i < size, bitAt binary.blocks i = bits.getD i false) :
    (binary.resize size).Represents bits where
  excess := (excess_resize binary size).1
  size := by rw [length_resize, hsize, (excess_resize binary size).2]
  bit := by
    intro i
    rw [bitAt_resize]
    by_cases hi : i < size
    · simp only [hi, decide_true, Bool.true_and, h i hi]
    · rw [getD_eq_default _ _ (by omega)]
      simp [hi]

/-- Resizing to one block more, which is then set. -/
theorem represents_resize_set {last : UInt8} (hsize : bits.length = size)
    (hcount : blocksSize size = binary.blocks.length + 1)
    (h : ∀ i, bitAt (binary.blocks ++ [last]) i = bits.getD i false) :
    Represents { binary.resize size with
      blocks := (binary.resize size).blocks.set (blocksSize size - 1) last } bits where
  excess := (excess_resize binary size).1
  size := by
    dsimp only
    rw [length_set, length_resize, hsize, (excess_resize binary size).2]
  bit := by
    intro i
    have hexcess := excess_resize binary size
    have hlen := length_resize binary size
    have hidx : blocksSize size - 1 = binary.blocks.length := by omega
    rw [← h i, bitAt_append, hidx, bitAt_set (by omega), bitAt_resize]
    split_ifs with hlast hin hin
    · omega
    · rw [bitAt_cons_of_lt _ _ (by omega)]
      congr 1
      omega
    · have hi : i < size := by omega
      simp [hi]
    · rw [bitAt_of_length_le (not_lt.mp hin), bitAt_cons_of_le _ _ (by omega), bitAt_nil,
        Bool.and_false]

theorem represents_ofBlocks {blocks : DataChunk} (hblocks : blocks ≠ [])
    (hsize : bits.length = size) (h : ∀ i < size, bitAt blocks i = bits.getD i false) :
    (ofBlocks size blocks).Represents bits := by
  rw [ofBlocks, if_neg (by simpa using hblocks)]
  apply represents_resize hsize
  intro i hi
  rw [bitAt_append, bitAt_replicate_zero, ← h i hi]
  split_ifs with hin
  · rfl
  · exact (bitAt_of_length_le (not_lt.mp hin)).symm

/-- A binary is copied by its size and its blocks. -/
theorem Represents.ofBlocks (h : binary.Represents bits) :
    (Binary.ofBlocks binary.size binary.blocks).Represents bits := by
  by_cases hblocks : binary.blocks = []
  · have hsize := h.size
    rw [hblocks, length_nil] at hsize
    have hbits : bits = [] := length_eq_zero_iff.mp (by omega)
    rw [hblocks, hbits]
    exact represents_empty
  · exact represents_ofBlocks hblocks h.size_eq.symm fun i _ => h.bit i

theorem getD_replicate_false : (replicate count false).getD i false = false := by
  simp

theorem Represents.resize (h : binary.Represents bits) (size : Nat) :
    (binary.resize size).Represents (bits.take size ++ replicate (size - bits.length) false) := by
  apply represents_resize
  · simp
    omega
  · intro i hi
    rw [h.bit]
    by_cases hin : i < bits.length
    · rw [getD_append _ _ _ _ (by simp; omega)]
      simp [hi]
    · rw [getD_append_right _ _ _ _ (by simp; omega), getD_replicate_false,
        getD_eq_default _ _ (not_lt.mp hin)]

/-- A block that is written is the block at the distance and the one after it. -/
theorem bit_shiftLeftBlock (distance i j : Nat) (hj : j < 8) :
    bit (shiftLeftBlock blocks.length (distance / 8) (distance % 8) blocks i) j =
      bitAt blocks (8 * i + j + distance) := by
  have hleading : (if distance / 8 + i < blocks.length then
      BitBlocks.shiftLeft (blocks.getD (distance / 8 + i) 0) (distance % 8) else 0) =
      BitBlocks.shiftLeft (blocks.getD (distance / 8 + i) 0) (distance % 8) := by
    split_ifs with h
    · rfl
    · rw [getD_eq_default _ _ (not_lt.mp h), zero_shiftLeft]
  rw [shiftLeftBlock, hleading, bit_or, bit_shiftLeft, bitAt]
  by_cases hin : j + distance % 8 < 8
  · -- the bit is in the first of the two
    have hdiv : (8 * i + j + distance) / 8 = distance / 8 + i := by omega
    have hmod : (8 * i + j + distance) % 8 = j + distance % 8 := by omega
    rw [hdiv, hmod]
    have hshort : ¬ 8 - distance % 8 ≤ j := by omega
    split_ifs <;> simp [bitsPerBlock, hshort]
  · have hdiv : (8 * i + j + distance) / 8 = distance / 8 + i + 1 := by omega
    have hmod : (8 * i + j + distance) % 8 = j - (8 - distance % 8) := by omega
    have hlong : 8 - distance % 8 ≤ j := by omega
    rw [hdiv, hmod, bit_of_le _ (not_lt.mp hin)]
    split_ifs with h
    · simp [bitsPerBlock, hlong, hj]
    · have hend : blocks.length ≤ distance / 8 + i + 1 := by omega
      rw [getD_eq_default _ _ hend, bit_zero, bit_zero, Bool.or_false]

/-- The loop reads no block that it has written before. -/
theorem shiftLeft_loop (blockOffset offset : Nat) :
    (range blocks.length).foldl
        (fun current i => current.set i (shiftLeftBlock blocks.length blockOffset offset current i))
        blocks =
      (range blocks.length).map (shiftLeftBlock blocks.length blockOffset offset blocks) := by
  rw [foldl_set_range _ ?_ le_rfl, drop_length, append_nil]
  intro current k hcurrent
  simp only [shiftLeftBlock, hcurrent (blockOffset + k) (by omega),
    hcurrent (blockOffset + k + 1) (by omega)]

theorem Represents.shiftLeft (h : binary.Represents bits) (distance : Nat) :
    (binary.shiftLeft distance).Represents (bits.drop distance) := by
  have hdestination : (if distance < bits.length then bits.length - distance else 0) =
      bits.length - distance := by
    split_ifs <;> omega
  have hsize := h.size
  rw [Binary.shiftLeft, h.size_eq, shiftLeft_loop, hdestination]
  apply represents_resize (length_drop ..)
  intro i hi
  have hidx : 8 * (i / 8) + i % 8 + distance = distance + i := by omega
  dsimp only [bitsPerBlock]
  rw [bitAt_map_range _ (by omega), bit_shiftLeftBlock _ _ _ _ (Nat.mod_lt i (by decide)), hidx,
    h.bit]
  simp

/-- The blocks of the loop and the rest of the last block are the bits moved by the offset, behind
those of the previous block. -/
theorem bitAt_shiftRightLoop {offset : Nat} (hoffset : offset < 8) (previous : UInt8)
    (blocks : DataChunk) (i : Nat) :
    bitAt ((shiftRightLoop offset previous blocks).1 ++
        [BitBlocks.shiftLeft (shiftRightLoop offset previous blocks).2 (8 - offset)]) i =
      if i < offset then bit previous (i + (8 - offset)) else bitAt blocks (i - offset) := by
  induction blocks generalizing previous i with
  | nil =>
    rw [shiftRightLoop, nil_append]
    by_cases hi : i < 8
    · rw [bitAt_cons_of_lt _ _ hi, bit_shiftLeft, bitAt_nil]
      split_ifs with hin
      · rfl
      · exact bit_of_le _ (by omega)
    · rw [bitAt_cons_of_le _ _ (not_lt.mp hi), bitAt_nil, bitAt_nil, if_neg (by omega)]
  | cons current rest ih =>
    rw [shiftRightLoop, cons_append]
    by_cases hi : i < 8
    · rw [bitAt_cons_of_lt _ _ hi, bit_or, bit_shiftLeft, bit_shiftRight]
      split_ifs with hin
      · have hlow : ¬ offset ≤ i := by omega
        simp [hlow, bitsPerBlock]
      · rw [bitAt_cons_of_lt _ _ (by omega), bitsPerBlock, bit_of_le previous (by omega)]
        simp [hi, not_lt.mp hin]
    · rw [bitAt_cons_of_le _ _ (not_lt.mp hi), ih, if_neg (show ¬ i < offset by omega)]
      split_ifs with hin
      · rw [bitAt_cons_of_lt _ _ (show i - offset < 8 by omega)]
        congr 1
        omega
      · rw [bitAt_cons_of_le _ _ (show 8 ≤ i - offset by omega)]
        congr 1
        omega

theorem length_shiftRightLoop (offset : Nat) (previous : UInt8) (blocks : DataChunk) :
    (shiftRightLoop offset previous blocks).1.length = blocks.length := by
  induction blocks generalizing previous with
  | nil => rfl
  | cons current rest ih => simp [shiftRightLoop, ih]

theorem getD_replicate_false_append (bits : List Bool) :
    (replicate count false ++ bits).getD i false =
      (decide (count ≤ i) && bits.getD (i - count) false) := by
  by_cases hi : i < count
  · rw [getD_append _ _ _ _ (by simpa using hi), getD_replicate_false]
    simp [not_le.mpr hi]
  · rw [getD_append_right _ _ _ _ (by simpa using hi), length_replicate]
    simp [not_lt.mp hi]

/-- The blocks that `shift_right` has before it resizes, with the block that may have to follow. -/
theorem bitAt_shiftRight_blocks (h : binary.Represents bits) (distance i : Nat) :
    bitAt (replicate (distance / 8) 0 ++ (shiftRightLoop (distance % 8) 0 binary.blocks).1 ++
        [BitBlocks.shiftLeft (shiftRightLoop (distance % 8) 0 binary.blocks).2 (8 - distance % 8)]) i =
      (replicate distance false ++ bits).getD i false := by
  have hloop := bitAt_shiftRightLoop (Nat.mod_lt distance (show 0 < 8 by decide)) 0 binary.blocks
  rw [append_assoc, bitAt_append, length_replicate, hloop, getD_replicate_false_append]
  split_ifs with hzero hoffset
  · have hlow : ¬ distance ≤ i := by omega
    simp [bitAt_replicate_zero, hlow]
  · have hlow : ¬ distance ≤ i := by omega
    simp [hlow]
  · have hlow : distance ≤ i := by omega
    have hidx : i - 8 * (distance / 8) - distance % 8 = i - distance := by omega
    simp [hlow, hidx, h.bit]

theorem Represents.shiftRight (h : binary.Represents bits) (distance : Nat) :
    (binary.shiftRight distance).Represents (replicate distance false ++ bits) := by
  have hbit := bitAt_shiftRight_blocks h distance
  have hsize := h.size
  have hexcess := h.excess
  have hcount : (replicate (distance / 8) 0 ++
      (shiftRightLoop (distance % 8) 0 binary.blocks).1).length =
      distance / 8 + binary.blocks.length := by simp [length_shiftRightLoop]
  have hresized := excess_resize binary (bits.length + distance)
  have hlen : (replicate distance false ++ bits).length = bits.length + distance := by
    simp [add_comm]
  simp only [Binary.shiftRight, h.size_eq, bitsPerBlock, length_resize]
  split_ifs with hmore
  · -- the last bits are moved out of the blocks there were
    exact represents_resize_set hlen (by dsimp only; omega) hbit
  · apply represents_resize hlen
    intro i hi
    rw [← hbit, bitAt_append _ [_], hcount, if_pos (by omega)]

theorem length_orBlocks (index : Nat) (others : DataChunk) :
    (orBlocks blocks index others).length = blocks.length := by
  induction others generalizing blocks index with
  | nil => rfl
  | cons block rest ih => rw [orBlocks, ih, length_set]

theorem bitAt_orBlocks {blocks : DataChunk} {index : Nat} {others : DataChunk}
    (h : index + others.length ≤ blocks.length) (i : Nat) :
    bitAt (orBlocks blocks index others) i =
      (bitAt blocks i || (decide (8 * index ≤ i) && bitAt others (i - 8 * index))) := by
  induction others generalizing blocks index with
  | nil => simp [orBlocks]
  | cons block rest ih =>
    rw [length_cons] at h
    rw [orBlocks, ih (by rw [length_set]; omega), bitAt_set (by omega)]
    split_ifs with hblock
    · have hhere : 8 * index ≤ i := by omega
      have hafter : ¬ 8 * (index + 1) ≤ i := by omega
      have hmod : i - 8 * index = i % 8 := by omega
      have hbit : bit (blocks.getD index 0) (i % 8) = bitAt blocks i := by rw [bitAt, hblock]
      rw [bitAt_cons_of_lt _ _ (by omega), hmod, bit_or, hbit]
      simp [hafter, hhere]
    · by_cases hafter : 8 * (index + 1) ≤ i
      · have hhere : 8 * index ≤ i := by omega
        rw [bitAt_cons_of_le _ _ (by omega)]
        have hidx : i - 8 * index - 8 = i - 8 * (index + 1) := by omega
        simp [hafter, hhere, hidx]
      · have hhere : ¬ 8 * index ≤ i := by omega
        simp [hafter, hhere]

section

variable (h : binary.Represents bits)

include h

/-- The blocks of one string joined to those of another from a block on. -/
theorem Represents.orBlocks {index : Nat} {blocks : DataChunk}
    {joined : List Bool} (hjoined : joined.length = bits.length)
    (hblocks : index + blocks.length ≤ binary.blocks.length) (hbit : ∀ i, joined.getD i false =
      (bits.getD i false || (decide (8 * index ≤ i) && bitAt blocks (i - 8 * index)))) :
    Represents { binary with blocks := Binary.orBlocks binary.blocks index blocks } joined where
  excess := h.excess
  size := by
    dsimp only
    rw [length_orBlocks, hjoined, h.size]
  bit := by
    intro i
    dsimp only
    rw [bitAt_orBlocks hblocks, hbit, h.bit]

/-- The string that is appended is read before the other changes. -/
theorem Represents.append {post : Operand}
    (hpost : (post.value binary).Represents others) :
    (binary.append post).Represents (bits ++ others) := by
  have hsize := h.size
  have hduplicate := hpost.ofBlocks.shiftRight (bits.length % 8)
  have hresized := h.resize (bits.length + others.length)
  rw [take_of_length_le (Nat.le_add_right ..), Nat.add_sub_cancel_left] at hresized
  have hcount := hduplicate.size
  have hcount' := hresized.size
  have hexcess := hduplicate.excess
  have hexcess' := hresized.excess
  simp only [length_append, length_replicate] at hcount hcount'
  simp only [Binary.append, h.size_eq, hpost.size_eq, bitsPerBlock]
  rw [hpost.size_eq] at hcount hduplicate hexcess
  apply hresized.orBlocks
  · simp
  · omega
  · intro i
    rw [hduplicate.bit, getD_replicate_false_append]
    by_cases hi : i < bits.length
    · rw [getD_append _ _ _ _ hi, getD_append _ _ _ _ hi]
      by_cases hin : 8 * (bits.length / 8) ≤ i
      · have hlow : ¬ bits.length % 8 ≤ i - 8 * (bits.length / 8) := by omega
        simp [hlow]
      · simp [hin]
    · have hin : 8 * (bits.length / 8) ≤ i := by omega
      have hlow : bits.length % 8 ≤ i - 8 * (bits.length / 8) := by omega
      have hidx : i - 8 * (bits.length / 8) - bits.length % 8 = i - bits.length := by omega
      rw [getD_append_right _ _ _ _ (not_lt.mp hi),
        getD_append_right _ _ _ _ (not_lt.mp hi), getD_replicate_false]
      simp [hin, hlow, hidx]

/-- Another string is put in front. -/
theorem Represents.prepend_other (hother : other.Represents others) :
    (binary.prepend (.other other)).Represents (others ++ bits) := by
  have hshifted := h.shiftRight others.length
  have hcount := hshifted.size
  have hcount' := hother.size
  have hexcess := hother.excess
  have hexcess' := hshifted.excess
  simp only [length_append, length_replicate] at hcount
  simp only [prepend, Operand.value, hother.size_eq]
  apply hshifted.orBlocks
  · simp
  · omega
  · intro i
    rw [getD_replicate_false_append, mul_zero, Nat.sub_zero, hother.bit]
    by_cases hi : i < others.length
    · rw [getD_append _ _ _ _ hi]
      simp [not_le.mpr hi]
    · rw [getD_append_right _ _ _ _ (not_lt.mp hi), getD_eq_default others _ (not_lt.mp hi)]
      simp [not_lt.mp hi]

/-- The string itself is read when it is shifted already, and nothing is put in front of it. -/
theorem Represents.prepend_self :
    (binary.prepend .self).Represents (replicate bits.length false ++ bits) := by
  have hshifted := h.shiftRight bits.length
  simp only [prepend, Operand.value, h.size_eq]
  apply hshifted.orBlocks rfl
  · rw [zero_add]
  · intro i
    simp [hshifted.bit]

theorem Represents.resize_drop {start length : Nat}
    (hlen : length ≤ bits.length - start) :
    (((Binary.ofBlocks bits.length binary.blocks).shiftLeft start).resize length).Represents
      ((bits.drop start).take length) := by
  have hcopy := h.ofBlocks
  rw [h.size_eq] at hcopy
  have hresized := (hcopy.shiftLeft start).resize length
  rwa [length_drop, Nat.sub_eq_zero_of_le hlen, replicate_zero, append_nil] at hresized

end

theorem drop_min_length (bits : List Bool) (start : Nat) :
    bits.drop (if start > bits.length then bits.length else start) = bits.drop start := by
  split_ifs with h
  · rw [drop_length, drop_of_length_le h.le]
  · rfl

/-- Without a length all bits from the start on are taken. -/
theorem Represents.substring_rest (h : binary.Represents bits) (start : Nat) :
    (binary.substring start maxSizeT).Represents (bits.drop start) := by
  have hdrop := drop_min_length bits start
  simp only [Binary.substring, h.size_eq, true_or, if_true]
  generalize (if start > bits.length then bits.length else start) = first at hdrop ⊢
  rw [← hdrop, ← take_length (l := bits.drop first), length_drop]
  exact h.resize_drop le_rfl

theorem Represents.substring (h : binary.Represents bits) {start length : Nat}
    (hstart : start < 2 ^ 63) (hlen : length < 2 ^ 63) :
    (binary.substring start length).Represents ((bits.drop start).take length) := by
  have hdrop := drop_min_length bits start
  have hle : (if start > bits.length then bits.length else start) ≤ start := by
    split_ifs <;> omega
  have hmax : length ≠ maxSizeT := by
    rw [maxSizeT]
    omega
  simp only [Binary.substring, h.size_eq, hmax, false_or]
  generalize (if start > bits.length then bits.length else start) = first at hdrop hle ⊢
  -- the sum does not wrap around
  rw [← hdrop, Nat.mod_eq_of_lt (show first + length < 2 ^ 64 by omega)]
  split_ifs with hlong
  · have htake : (bits.drop first).take length = (bits.drop first).take (bits.length - first) := by
      rw [take_of_length_le (by rw [length_drop]; omega), take_of_length_le (by rw [length_drop])]
    rw [htake]
    exact h.resize_drop le_rfl
  · exact h.resize_drop (by omega)

/-- What the loop over a text has read: full blocks, and the bits of the next one from the top. -/
structure ReadState (read : List Bool) (blocks : DataChunk) (block : UInt8) (bitIterator : Nat) :
    Prop where
  pos : 0 < bitIterator
  le : bitIterator ≤ 8
  size : 8 * blocks.length + 8 = read.length + bitIterator
  bit : ∀ i, bitAt (blocks ++ [block]) i = read.getD i false

theorem readState_nil : ReadState [] [] 0 8 where
  pos := by decide
  le := le_rfl
  size := rfl
  bit := fun i => bitAt_replicate_zero 1 i

theorem getD_append_singleton (read : List Bool) (value : Bool) (i : Nat) :
    (read ++ [value]).getD i false =
      (read.getD i false || (value && decide (i = read.length))) := by
  by_cases hi : i < read.length
  · rw [getD_append _ _ _ _ hi]
    simp [hi.ne]
  · rw [getD_append_right _ _ _ _ (not_lt.mp hi), getD_eq_default read _ (not_lt.mp hi)]
    by_cases hlast : i = read.length
    · simp [hlast]
    · rw [getD_eq_default _ _ (by rw [length_singleton]; omega)]
      simp [hlast]

/-- One character sets the next bit. -/
theorem ReadState.bitAt_next {read : List Bool} {blocks : DataChunk} {block : UInt8}
    {bitIterator : Nat} (h : ReadState read blocks block bitIterator) (value : Bool) (i : Nat) :
    bitAt (blocks ++
        [if value then block ||| BitBlocks.shiftLeft 1 (bitIterator - 1) else block]) i =
      (read ++ [value]).getD i false := by
  have hpos := h.pos
  have hle := h.le
  have hsize := h.size
  rw [getD_append_singleton, ← h.bit]
  cases value with
  | false => simp
  | true =>
    rw [if_pos rfl, bitAt_append_or, bit_shiftLeft, bit_one, Bool.true_and, ← Bool.decide_and]
    congr 2
    apply propext
    omega

theorem readLoop_cons {c : Char} (hc : c = '0' ∨ c = '1') (rest : Text) (blocks : DataChunk)
    (block : UInt8) (bitIterator : Nat) :
    readLoop (c :: rest) blocks block bitIterator =
      let block := if c == '1' then block ||| BitBlocks.shiftLeft 1 (bitIterator - 1) else block
      if bitIterator - 1 = 0 then readLoop rest (blocks ++ [block]) 0 bitsPerBlock
      else readLoop rest blocks block (bitIterator - 1) := by
  obtain rfl | rfl := hc <;> simp [readLoop]

theorem isBase2_iff (text : Text) : isBase2 text ↔ ∀ c ∈ text, c = '0' ∨ c = '1' := by
  simp [isBase2, or_iff_not_imp_left]

theorem isBase2_cons (c : Char) (rest : Text) :
    isBase2 (c :: rest) ↔ (c = '0' ∨ c = '1') ∧ isBase2 rest := by
  rw [isBase2_iff, isBase2_iff, forall_mem_cons]

theorem readLoop_of_isBase2 (htext : isBase2 text) {read : List Bool} {blocks : DataChunk}
    {block : UInt8} {bitIterator : Nat} (h : ReadState read blocks block bitIterator) :
    ∃ blocks' block' bitIterator',
      readLoop text blocks block bitIterator = some (blocks', block', bitIterator') ∧
        ReadState (read ++ text.map (· == '1')) blocks' block' bitIterator' := by
  induction text generalizing read blocks block bitIterator with
  | nil => exact ⟨blocks, block, bitIterator, rfl, by simpa using h⟩
  | cons c rest ih =>
    obtain ⟨hc, hrest⟩ := (isBase2_cons c rest).mp htext
    have hpos := h.pos
    have hle := h.le
    have hsize := h.size
    have hnext := h.bitAt_next (c == '1')
    rw [readLoop_cons hc, map_cons, append_cons]
    dsimp only
    generalize (if c == '1' then block ||| BitBlocks.shiftLeft 1 (bitIterator - 1) else block) =
      next at hnext ⊢
    by_cases hfull : bitIterator - 1 = 0
    · -- the block is full, and the next one starts with zeros
      rw [if_pos hfull]
      apply ih hrest
      constructor
      · decide
      · exact le_rfl
      · simp [bitsPerBlock]
        omega
      · intro i
        have hzero : ∀ j, bitAt [0] j = false := bitAt_replicate_zero 1
        rw [← hnext, bitAt_append _ [0], hzero]
        split_ifs with hin
        · rfl
        · exact (bitAt_of_length_le (not_lt.mp hin)).symm
    · rw [if_neg hfull]
      apply ih hrest
      constructor
      · omega
      · omega
      · simp
        omega
      · exact hnext

theorem readLoop_of_not_isBase2 (htext : isBase2 text = false) (blocks : DataChunk) (block : UInt8)
    (bitIterator : Nat) : readLoop text blocks block bitIterator = none := by
  induction text generalizing blocks block bitIterator with
  | nil => exact absurd htext (by simp [isBase2])
  | cons c rest ih =>
    by_cases hc : c = '0' ∨ c = '1'
    · have hrest : isBase2 rest = false := by
        rw [← Bool.not_eq_true]
        intro hrest
        rw [(isBase2_cons c rest).mpr ⟨hc, hrest⟩] at htext
        exact Bool.noConfusion htext
      rw [readLoop_cons hc]
      simp only [ih hrest, ite_self]
    · rw [readLoop, if_pos (not_or.mp hc)]

/-- A text of zeros and ones has no space. -/
theorem word_of_isBase2 (h : isBase2 text) :
    (text.dropWhile Text.isSpace).takeWhile (fun c => !Text.isSpace c) = text := by
  have hspace : ∀ c ∈ text, Text.isSpace c = false := by
    intro c hc
    obtain rfl | rfl := (isBase2_iff text).mp h c hc <;> rfl
  have hdrop : text.dropWhile Text.isSpace = text := by
    cases text with
    | nil => rfl
    | cons c rest => rw [dropWhile_cons_of_neg (by simp [hspace c])]
  rw [hdrop, takeWhile_eq_self_iff]
  intro c hc
  simp [hspace c hc]

theorem represents_ofString_of_word {word : Text}
    (hword : (text.dropWhile Text.isSpace).takeWhile (fun c => !Text.isSpace c) = word) :
    (ofString text).Represents (if isBase2 word then word.map (· == '1') else []) := by
  rw [ofString]
  simp only [hword]
  cases hbase : isBase2 word with
  | false =>
    rw [readLoop_of_not_isBase2 hbase]
    exact represents_empty
  | true =>
    obtain ⟨blocks, block, bitIterator, hread, hstate⟩ := readLoop_of_isBase2 hbase readState_nil
    rw [nil_append] at hstate
    have hsize := hstate.size
    have hle := hstate.le
    rw [length_map] at hsize
    rw [bitsPerBlock, hread]
    apply represents_resize (length_map ..)
    intro i hi
    rw [← hstate.bit]
    dsimp only
    split_ifs with hpartial
    · rfl
    · rw [bitAt_append, if_pos (by omega)]

/-- The text of a binary is that of its bits. -/
theorem encoded_eq (binary : Binary) :
    binary.encoded = binary.bits.map fun value => if value then '1' else '0' := by
  simp [encoded, Binary.bits]

theorem isBase2_encoded (binary : Binary) : isBase2 binary.encoded := by
  simp only [isBase2, encoded, all_map, all_eq_true, Function.comp_apply]
  intro i _
  cases binary.get i <;> rfl

/-- The text of a binary is read back as the binary. -/
theorem Represents.ofString_encoded (h : binary.Represents bits) :
    ofString binary.encoded = binary := by
  have hread := represents_ofString_of_word (word_of_isBase2 (isBase2_encoded binary))
  have hbits : (bits.map fun value => if value then '1' else '0').map (· == '1') = bits := by
    rw [map_map]
    conv_rhs => rw [← map_id bits]
    apply map_congr_left
    intro value _
    cases value <;> rfl
  rw [if_pos (isBase2_encoded binary), encoded_eq, h.bits_eq, hbits] at hread
  rw [encoded_eq, h.bits_eq]
  exact hread.unique h

theorem encoded_ofString (h : isBase2 text) : (ofString text).encoded = text := by
  have hread := represents_ofString_of_word (word_of_isBase2 h)
  rw [if_pos h] at hread
  rw [encoded_eq, hread.bits_eq, map_map]
  conv_rhs => rw [← map_id text]
  apply map_congr_left
  intro c hc
  obtain rfl | rfl := (isBase2_iff text).mp h c hc <;> rfl

/-- The comparison of sizes and bits is that of the lists. -/
theorem equal_iff (binary other : Binary) : binary.equal other ↔ binary.bits = other.bits := by
  rw [equal, Bool.and_eq_true, beq_iff_eq, Binary.bits, Binary.bits]
  constructor
  · rintro ⟨hsize, hbits⟩
    rw [← hsize]
    apply map_congr_left
    intro i hi
    simpa using all_eq_true.mp hbits i hi
  · intro hbits
    have hsize : binary.size = other.size := by
      simpa using congrArg length hbits
    refine ⟨hsize, ?_⟩
    rw [← hsize, map_inj_left] at hbits
    rw [all_eq_true]
    intro i hi
    simpa using hbits i hi

end

end BitprimCore.Binary
