import BitprimCore.Utility.BinaryBits

/-!
# Binaries that a program can build

Every binary that is built by the constructors and operations represents the list of its bits, also
where an operation gets the object it works on for its argument. So the operations are those of
lists on all of them, but for a string that is prepended to itself.

The test for a prefix makes a string of the size of the prefix out of the field, with zeros where
the field has no bits. It is the test on lists unless such zeros are compared.
-/

namespace BitprimCore.Binary

open Binary BitBlocks List

/-- Made by the operations. -/
inductive Reachable : Binary → Prop
  | empty : Reachable {}
  | ofString (text : Text) : Reachable (ofString text)
  | ofNumber (size : Nat) (number : UInt32) : Reachable (ofNumber size number)
  | ofBlocks (size : Nat) (blocks : DataChunk) : Reachable (ofBlocks size blocks)
  | resize {binary : Binary} (h : Reachable binary) (size : Nat) : Reachable (binary.resize size)
  | append {binary : Binary} {post : Operand} (h : Reachable binary)
      (hpost : Reachable (post.value binary)) : Reachable (binary.append post)
  | prepend {binary : Binary} {prior : Operand} (h : Reachable binary)
      (hprior : Reachable (prior.value binary)) : Reachable (binary.prepend prior)
  | shiftLeft {binary : Binary} (h : Reachable binary) (distance : Nat) :
      Reachable (binary.shiftLeft distance)
  | shiftRight {binary : Binary} (h : Reachable binary) (distance : Nat) :
      Reachable (binary.shiftRight distance)
  | substring {binary : Binary} (h : Reachable binary) (start length : Nat) :
      Reachable (binary.substring start length)

section

variable {binary : Binary}

/-- Any blocks are cut, or extended with zeros, to a string of the size. -/
theorem exists_represents_ofBlocks (size : Nat) (blocks : DataChunk) :
    ∃ bits, (ofBlocks size blocks).Represents bits := by
  by_cases hblocks : blocks = []
  · rw [hblocks]
    exact ⟨[], represents_empty⟩
  · refine ⟨(range size).map (bitAt blocks), represents_ofBlocks hblocks (by simp) ?_⟩
    intro i hi
    simp [hi]

theorem Reachable.exists_represents (h : binary.Reachable) : ∃ bits, binary.Represents bits := by
  induction h with
  | empty => exact ⟨[], represents_empty⟩
  | ofString text => exact ⟨_, represents_ofString_of_word rfl⟩
  | ofNumber size number => exact exists_represents_ofBlocks size _
  | ofBlocks size blocks => exact exists_represents_ofBlocks size blocks
  | resize _ size ih =>
    obtain ⟨bits, hbits⟩ := ih
    exact ⟨_, hbits.resize size⟩
  | append _ _ ih ihpost =>
    obtain ⟨bits, hbits⟩ := ih
    obtain ⟨others, hothers⟩ := ihpost
    exact ⟨_, hbits.append hothers⟩
  | @prepend _ prior _ _ ih ihprior =>
    obtain ⟨bits, hbits⟩ := ih
    obtain ⟨others, hothers⟩ := ihprior
    cases prior with
    | other => exact ⟨_, hbits.prepend_other hothers⟩
    | self => exact ⟨_, hbits.prepend_self⟩
  | shiftLeft _ distance ih =>
    obtain ⟨bits, hbits⟩ := ih
    exact ⟨_, hbits.shiftLeft distance⟩
  | shiftRight _ distance ih =>
    obtain ⟨bits, hbits⟩ := ih
    exact ⟨_, hbits.shiftRight distance⟩
  | substring _ start length ih =>
    obtain ⟨bits, hbits⟩ := ih
    exact ⟨_, (hbits.ofBlocks.shiftLeft _).resize _⟩

theorem Reachable.represents (h : binary.Reachable) : binary.Represents binary.bits := by
  obtain ⟨bits, hbits⟩ := h.exists_represents
  rwa [hbits.bits_eq]

theorem length_bits (binary : Binary) : binary.bits.length = binary.size := by
  simp [bits]

/-- The blocks are those of the size, and the bits after the last are zero. -/
theorem Reachable.consistent (h : binary.Reachable) :
    binary.blocks.length = blocksSize binary.size ∧
      ∀ i, binary.size ≤ i → i < 8 * binary.blocks.length → binary.get i = false := by
  refine ⟨by rw [h.represents.length_blocks, length_bits], ?_⟩
  intro i hi _
  rw [get_eq_bitAt, h.represents.bit, getD_eq_default _ _ (by rwa [length_bits])]

/-- Put in front of itself, a string gets zeros in front. -/
theorem Reachable.prepend_self_iff (h : binary.Reachable) :
    (binary.prepend .self).bits = binary.bits ++ binary.bits ↔ true ∉ binary.bits := by
  rw [h.represents.prepend_self.bits_eq, append_left_inj, eq_comm, eq_replicate_iff]
  simp only [true_and]
  constructor
  · intro hzero htrue
    exact Bool.noConfusion (hzero true htrue)
  · intro htrue value hval
    cases value with
    | false => rfl
    | true => exact absurd hval htrue

/-- Every operation on a binary is that on the list of its bits, but for a string with a one that is
prepended to itself. -/
theorem bit_strings (h : binary.Reachable) :
    (binary.blocks.length = blocksSize binary.size ∧
      ∀ i, binary.size ≤ i → i < 8 * binary.blocks.length → binary.get i = false) ∧
    (∀ post : Operand, (post.value binary).Reachable →
      (binary.append post).bits = binary.bits ++ (post.value binary).bits) ∧
    (∀ prior : Operand, (prior.value binary).Reachable →
      ((binary.prepend prior).bits = (prior.value binary).bits ++ binary.bits ↔
        (prior = .self → true ∉ binary.bits))) ∧
    (∀ distance, (binary.shiftLeft distance).bits = binary.bits.drop distance) ∧
    (∀ distance, (binary.shiftRight distance).bits = List.replicate distance false ++ binary.bits) ∧
    (∀ start length, start < 2 ^ 63 → length < 2 ^ 63 →
      (binary.substring start length).bits = (binary.bits.drop start).take length) ∧
    (∀ start, (binary.substring start maxSizeT).bits = binary.bits.drop start) ∧
    ofString binary.encoded = binary ∧
    (∀ text, isBase2 text = true → (ofString text).encoded = text) ∧
    ∀ other, binary.equal other = true ↔ binary.bits = other.bits := by
  refine ⟨h.consistent, ?_, ?_, ?_, ?_, ?_, ?_, h.represents.ofString_encoded,
    fun text => encoded_ofString, equal_iff binary⟩
  · intro post hpost
    exact (h.represents.append hpost.represents).bits_eq
  · intro prior hprior
    cases prior with
    | other prior =>
      have hjoined : (binary.prepend (.other prior)).bits = prior.bits ++ binary.bits :=
        (h.represents.prepend_other hprior.represents).bits_eq
      simp [Operand.value, hjoined]
    | self => simpa [Operand.value] using h.prepend_self_iff
  · intro distance
    exact (h.represents.shiftLeft distance).bits_eq
  · intro distance
    exact (h.represents.shiftRight distance).bits_eq
  · intro start length hstart hlength
    exact (h.represents.substring hstart hlength).bits_eq
  · intro start
    exact (h.represents.substring_rest start).bits_eq

theorem bit_strings_sample :
    (ofString ['1', '0']).Reachable ∧
      ((ofString ['1', '0']).append .self).bits = [true, false, true, false] ∧
      ((ofString ['1', '0']).substring 1 maxSizeT).bits = [false] := by
  have hreachable : (ofString ['1', '0']).Reachable := .ofString _
  obtain ⟨-, happend, -, -, -, -, hrest, -⟩ := bit_strings hreachable
  exact ⟨hreachable, happend .self hreachable, hrest 1⟩

/-- The blocks of the argument are read when they are those of the shifted string. -/
theorem prepend_self_sample :
    (ofString ['1', '0']).Reachable ∧
      ((ofString ['1', '0']).prepend .self).encoded = ['0', '0', '1', '0'] ∧
      ((ofString ['1', '0']).prepend .self).bits ≠
        (ofString ['1', '0']).bits ++ (ofString ['1', '0']).bits :=
  ⟨.ofString _, by decide, by decide⟩

end

/-- The bits of some bytes, in the order of a binary. -/
def byteBits (bytes : DataChunk) : List Bool := (List.range (8 * bytes.length)).map (bitAt bytes)

/-- The bits that a field has. -/
def Field.bits : Field → List Bool
  | .number value => byteBits (LittleEndian.ofNat 4 value.toNat)
  | .slice bytes => byteBits bytes
  | .binary value => value.bits

/-- A binary is reachable. -/
def Field.Reachable : Field → Prop
  | .binary value => value.Reachable
  | _ => True

theorem bitAt_eq_byteBits (bytes : DataChunk) (i : Nat) :
    bitAt bytes i = (byteBits bytes).getD i false := by
  by_cases hi : i < 8 * bytes.length
  · simp [byteBits, hi]
  · rw [bitAt_of_length_le (not_lt.mp hi), getD_eq_default _ _ (by simpa [byteBits] using hi)]

section

variable {binary : Binary} {field : Field}

/-- The blocks of a field have its bits. -/
theorem Field.Reachable.bitAt_blocks (h : field.Reachable) (i : Nat) :
    bitAt field.blocks i = field.bits.getD i false := by
  cases field with
  | number value => exact bitAt_eq_byteBits _ i
  | slice bytes => exact bitAt_eq_byteBits bytes i
  | binary value => exact (Binary.Reachable.represents h).bit i

theorem Field.Reachable.blocks_eq_nil_iff (h : field.Reachable) :
    field.blocks = [] ↔ field.bits = [] := by
  cases field with
  | number value => simp [Field.blocks, Field.bits, byteBits, ← length_eq_zero_iff]
  | slice bytes => simp [Field.blocks, Field.bits, byteBits]
  | binary value =>
    have hsize := (Binary.Reachable.represents h).size
    have hexcess := (Binary.Reachable.represents h).excess
    rw [Field.blocks, Field.bits, ← length_eq_zero_iff, ← length_eq_zero_iff]
    omega

/-- A field of some bits is followed by zeros. -/
theorem Field.Reachable.represents_ofBlocks (h : field.Reachable) (hfield : field.bits ≠ [])
    (size : Nat) :
    (Binary.ofBlocks size field.blocks).Represents
      ((field.bits ++ replicate (size - field.bits.length) false).take size) := by
  apply Binary.represents_ofBlocks
  · rwa [Ne, h.blocks_eq_nil_iff]
  · simp
    omega
  · intro i hi
    rw [h.bitAt_blocks, getD_eq_getElem?_getD, getD_eq_getElem?_getD, getElem?_take_of_lt hi]
    by_cases hin : i < field.bits.length
    · rw [getElem?_append_left hin]
    · rw [getElem?_append_right (not_lt.mp hin), getElem?_eq_none (not_lt.mp hin)]
      simp

/-- The test holds of the prefixes of the field, and of what is a field of some bits and then
zeros. -/
theorem isPrefixOf_iff (h : field.Reachable) :
    binary.isPrefixOf field ↔
      (binary.size ≤ field.bits.length ∧ binary.bits = field.bits.take binary.size) ∨
        (field.bits ≠ [] ∧ ∃ count, 0 < count ∧
          binary.bits = field.bits ++ replicate count false) := by
  have hlen := length_bits binary
  rw [isPrefixOf, equal_iff]
  by_cases hfield : field.bits = []
  · have hempty : (ofBlocks binary.size field.blocks).bits = [] := by
      rw [h.blocks_eq_nil_iff.mpr hfield]
      rfl
    rw [hempty, hfield, ← hlen]
    simp
  · rw [(h.represents_ofBlocks hfield binary.size).bits_eq]
    by_cases hsize : binary.size ≤ field.bits.length
    · have hlong : ¬ ∃ count, 0 < count ∧ binary.bits = field.bits ++ replicate count false := by
        rintro ⟨count, hcount, hbits⟩
        have hcounted := congrArg length hbits
        rw [length_append, length_replicate] at hcounted
        omega
      rw [take_append_of_le_length hsize]
      simp [hsize, hlong]
    · have hcount : 0 < binary.size - field.bits.length := by omega
      rw [take_of_length_le (by simp; omega)]
      constructor
      · intro hbits
        exact .inr ⟨hfield, _, hcount, hbits⟩
      · rintro (⟨hle, -⟩ | ⟨-, count, -, hbits⟩)
        · exact absurd hle hsize
        · have hcounted := congrArg length hbits
          rw [length_append, length_replicate] at hcounted
          rw [hbits]
          congr 2
          omega

/-- The test is that for a prefix unless the binary is a field of some bits with zeros after it. -/
theorem isPrefixOf_correct_iff (h : field.Reachable) :
    (binary.isPrefixOf field = true ↔
      binary.size ≤ field.bits.length ∧ binary.bits = field.bits.take binary.size) ↔
      ¬ (field.bits ≠ [] ∧ ∃ count, 0 < count ∧
        binary.bits = field.bits ++ List.replicate count false) := by
  have hexclusive : (field.bits ≠ [] ∧ ∃ count, 0 < count ∧
      binary.bits = field.bits ++ replicate count false) →
      ¬ (binary.size ≤ field.bits.length ∧ binary.bits = field.bits.take binary.size) := by
    rintro ⟨-, count, hcount, hbits⟩ ⟨hle, -⟩
    have hcounted := congrArg length hbits
    rw [length_append, length_replicate, length_bits] at hcounted
    omega
  rw [isPrefixOf_iff h, or_iff_left_iff_imp]
  constructor
  · intro himp hzeros
    exact hexclusive hzeros (himp hzeros)
  · intro hnone hzeros
    exact absurd hzeros hnone

theorem isPrefixOf_correct_sample :
    (Field.binary (ofString ['1', '0', '1'])).Reachable ∧
      ((ofString ['1', '0']).isPrefixOf (.binary (ofString ['1', '0', '1'])) = true ↔
        (ofString ['1', '0']).size ≤ (ofString ['1', '0', '1']).bits.length ∧
          (ofString ['1', '0']).bits =
            (ofString ['1', '0', '1']).bits.take (ofString ['1', '0']).size) := by
  have hreachable : (Field.binary (ofString ['1', '0', '1'])).Reachable :=
    Binary.Reachable.ofString _
  refine ⟨hreachable, (isPrefixOf_correct_iff hreachable).mpr ?_⟩
  rintro ⟨-, count, -, hbits⟩
  have hlength := congrArg length hbits
  rw [length_append, show (ofString ['1', '0']).bits.length = 2 by decide,
    show (Field.binary (ofString ['1', '0', '1'])).bits.length = 3 by decide] at hlength
  omega

/-- A filter of nine bits matches a byte, one of forty bits a number, and one of two bits a string
of one. -/
theorem isPrefixOf_longer :
    ((ofString ['1', '0', '1', '0', '0', '0', '0', '0', '0']).isPrefixOf (.slice [0xa0]) = true ∧
      (Field.slice [0xa0]).bits.length <
        (ofString ['1', '0', '1', '0', '0', '0', '0', '0', '0']).size) ∧
    ((ofBlocks 40 [1, 2, 3, 4, 0]).isPrefixOf (.number 0x04030201) = true ∧
      (Field.number 0x04030201).bits.length < (ofBlocks 40 [1, 2, 3, 4, 0]).size) ∧
    ((ofString ['1', '0']).isPrefixOf (.binary (ofString ['1'])) = true ∧
      (Field.binary (ofString ['1'])).bits.length < (ofString ['1', '0']).size) := by
  decide

end

end BitprimCore.Binary
