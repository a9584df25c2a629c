import Mathlib.Data.List.Induction
import BitprimCore.Library.FeedbackRegister
import BitprimCore.Library.Positional
import BitprimCore.Wallet.Cashaddr

/-!
# The checksum of cash addresses

The loop of `poly_mod` is a feedback register: it computes a remainder of polynomials over the field
of 32 elements, packed into 40 bits of a word. The shift is multiplication by the variable, which
is invertible since the generator ends in one. So eight values can be added to any word to reach
the remainder one, they are determined by the word, and no change within eight places leaves the
remainder as it was.
-/

namespace BitprimCore.Cashaddr

open FeedbackRegister List Positional

variable {values : DataChunk} (prefixText : Text) (state : XorVec 40) (payload : DataChunk)

variable {d : UInt8} {width index : Nat}

/-- A constant, if its bit is set. -/
def select (bit : Bool) (constant : BitVec width) : BitVec width :=
  if bit then constant else 0

theorem select_xor (a b : Bool) (constant : BitVec width) :
    select (a ^^ b) constant = select a constant ^^^ select b constant := by
  cases a <;> cases b <;> simp [select]

theorem setWidth_select (bit : Bool) (constant : BitVec 40) :
    (select bit constant).setWidth 64 = select bit (constant.setWidth 64) := by
  cases bit <;> rfl

/-- The multiple of the generator without its first term, for the bits of a coefficient. -/
def multiple (a b c d e : Bool) : BitVec 40 :=
  select a 0x98f2bc8e61 ^^^ select b 0x79b76d99e2 ^^^ select c 0xf33e5fb3c4 ^^^
    select d 0xae2eabe2a8 ^^^ select e 0x1e4f43e470

/-- What the coefficient in front is reduced to. -/
def feedback (state : BitVec 40) : BitVec 40 :=
  multiple (state.getLsbD 35) (state.getLsbD 36) (state.getLsbD 37) (state.getLsbD 38)
    (state.getLsbD 39)

theorem feedback_xor (a b : BitVec 40) : feedback (a ^^^ b) = feedback a ^^^ feedback b := by
  simp only [feedback, multiple, BitVec.getLsbD_xor, select_xor]
  ac_rfl

/-- The generator of the code, over coefficients of five bits. -/
def generator : Register (XorVec 40) (XorVec 5) where
  shift :=
    { toFun := fun state => ⟨state.bits <<< 5 ^^^ feedback state.bits⟩
      map_zero' := rfl
      map_add' := by
        intro a b
        ext1
        simp only [XorVec.bits_add, BitVec.shiftLeft_xor_distrib, feedback_xor]
        ac_rfl }
  inject :=
    { toFun := fun symbol => ⟨symbol.bits.setWidth 40⟩
      map_zero' := rfl
      map_add' := by
        intro a b
        ext1
        simp only [XorVec.bits_add, BitVec.setWidth_xor] }

/-- The coefficient that a value stands for. -/
def coefficient (d : UInt8) : XorVec 5 := ⟨d.toBitVec.setWidth 5⟩

/-- The word that holds a remainder. -/
def pack (state : XorVec 40) : UInt64 := ⟨state.bits.setWidth 64⟩

theorem ite_xor {p : Prop} [Decidable p] (c constant : UInt64) :
    (if p then c ^^^ constant else c) = c ^^^ (if p then constant else 0) := by
  split_ifs
  · rfl
  · exact (UInt64.xor_zero).symm

theorem toBitVec_ite {p : Prop} [Decidable p] {bit : Bool} (h : p ↔ bit)
    (constant : UInt64) : (if p then constant else 0).toBitVec = select bit constant.toBitVec := by
  cases bit <;> simp [select, h]

theorem and_mask_ne_zero_iff {byte mask : UInt8} (hmask : mask.toBitVec = BitVec.twoPow 8 index)
    (hidx : index < 8) :
    (byte &&& mask ≠ 0) ↔ byte.toBitVec.getLsbD index := by
  have hne : BitVec.twoPow 8 index ≠ 0#8 := by
    clear hmask
    revert index
    decide
  rw [ne_eq, ← UInt8.toBitVec_inj, UInt8.toBitVec_and, hmask, BitVec.and_twoPow]
  cases byte.toBitVec.getLsbD index <;> simp [hne]

/-- A bit of the coefficient in front is a bit of the word. -/
theorem front_and_ne_zero_iff {mask : UInt8} (hmask : mask.toBitVec = BitVec.twoPow 8 index)
    (hidx : index < 5) :
    ((pack state >>> 35).toUInt8 &&& mask ≠ 0) ↔ state.bits.getLsbD (35 + index) := by
  have hbits : (pack state >>> 35).toUInt8.toBitVec =
      (state.bits.setWidth 64 >>> 35).setWidth 8 := rfl
  have hword : 35 + index < 64 := by omega
  have hbyte : index < 8 := by omega
  rw [and_mask_ne_zero_iff hmask hbyte, hbits, BitVec.getLsbD_setWidth, BitVec.getLsbD_ushiftRight,
    BitVec.getLsbD_setWidth]
  simp [hword, hbyte]

/-- The mask drops the coefficient in front, which the shift would move out of the 40 bits. -/
theorem and_mask_shiftLeft (bits : BitVec 40) :
    ((bits.setWidth 64 &&& 0x07ffffffff#64) <<< 5) = (bits <<< 5).setWidth 64 := by
  have hmask : 0x07ffffffff#64 = (BitVec.allOnes 35).setWidth 64 := rfl
  rw [hmask]
  apply BitVec.eq_of_getLsbD_eq
  intro index hidx
  simp only [BitVec.getLsbD_shiftLeft, BitVec.getLsbD_and, BitVec.getLsbD_setWidth,
    BitVec.getLsbD_allOnes]
  rcases lt_or_ge index 40 with hless | hmore
  · have hlow : index - 5 < 35 := by omega
    have hword : index - 5 < 64 := by omega
    simp [hless, hidx, hlow, hword]
  · have hhigh : ¬ index - 5 < 35 := by omega
    simp [not_lt.mpr hmore, hhigh]

theorem setWidth_coefficient (hd : d < 32) :
    ((coefficient d).bits.setWidth 40).setWidth 64 = d.toUInt64.toBitVec := by
  apply BitVec.eq_of_toNat_eq
  have hlt : d.toNat < 32 := hd
  have hfive : d.toNat % 2 ^ 5 = d.toNat := Nat.mod_eq_of_lt hlt
  simp only [coefficient, BitVec.toNat_setWidth, UInt8.toNat_toBitVec, hfive,
    UInt64.toNat_toBitVec, UInt8.toNat_toUInt64]
  omega

/-- One turn of the loop is one step of the register. -/
theorem polyStep_pack (hd : d < 32) :
    polyStep (pack state) d = pack (generator.step state (coefficient d)) := by
  apply UInt64.toBitVec_inj.mp
  have hshift : ((pack state &&& 0x07ffffffff) <<< 5).toBitVec = (state.bits <<< 5).setWidth 64 :=
    and_mask_shiftLeft state.bits
  have hstep : (pack (generator.step state (coefficient d))).toBitVec =
      (state.bits <<< 5 ^^^ feedback state.bits ^^^ (coefficient d).bits.setWidth 40).setWidth 64 :=
    rfl
  have h0 := front_and_ne_zero_iff state (by decide : (0x01 : UInt8).toBitVec = .twoPow 8 0)
    (by decide)
  have h1 := front_and_ne_zero_iff state (by decide : (0x02 : UInt8).toBitVec = .twoPow 8 1)
    (by decide)
  have h2 := front_and_ne_zero_iff state (by decide : (0x04 : UInt8).toBitVec = .twoPow 8 2)
    (by decide)
  have h3 := front_and_ne_zero_iff state (by decide : (0x08 : UInt8).toBitVec = .twoPow 8 3)
    (by decide)
  have h4 := front_and_ne_zero_iff state (by decide : (0x10 : UInt8).toBitVec = .twoPow 8 4)
    (by decide)
  rw [hstep]
  simp only [polyStep, ite_xor, UInt64.toBitVec_xor, hshift, toBitVec_ite h0, toBitVec_ite h1,
    toBitVec_ite h2, toBitVec_ite h3, toBitVec_ite h4, BitVec.setWidth_xor,
    setWidth_coefficient hd, feedback, multiple, setWidth_select, Nat.reduceAdd, UInt64.toBitVec_ofNat,
    BitVec.reduceSetWidth, BitVec.ofNat_eq_ofNat]
  ac_rfl

/-- The loop is a run of the register. -/
theorem foldl_polyStep (h : ∀ d ∈ values, d < 32) (state : XorVec 40) :
    values.foldl polyStep (pack state) = pack (generator.run state (values.map coefficient)) := by
  induction values generalizing state with
  | nil => rfl
  | cons d values ih =>
    rw [forall_mem_cons] at h
    rw [foldl_cons, polyStep_pack state h.1, ih h.2]
    rfl

theorem pack_add (a b : XorVec 40) : pack (a + b) = pack a ^^^ pack b := by
  apply UInt64.toBitVec_inj.mp
  simp only [pack, XorVec.bits_add, BitVec.setWidth_xor, UInt64.toBitVec_xor]

theorem toNat_pack : (pack state).toNat = state.bits.toNat := by
  have hlt : state.bits.toNat < 2 ^ 40 := state.bits.isLt
  change (state.bits.setWidth 64).toNat = _
  rw [BitVec.toNat_setWidth]
  omega

theorem pack_injective : Function.Injective pack := by
  intro a b h
  have htoNat := congrArg UInt64.toNat h
  rw [toNat_pack, toNat_pack] at htoNat
  ext1
  exact BitVec.eq_of_toNat_eq htoNat

/-- The remainder of a word, with an implicit one in front. -/
def remainder (values : DataChunk) : XorVec 40 := generator.run ⟨1⟩ (values.map coefficient)

theorem remainder_append (front back : DataChunk) :
    remainder (front ++ back) = generator.run (remainder front) (back.map coefficient) := by
  rw [remainder, map_append, Register.run_append]
  rfl

theorem polyMod_eq (h : ∀ d ∈ values, d < 32) : polyMod values = pack (remainder values + ⟨1⟩) := by
  rw [polyMod, pack_add]
  change values.foldl polyStep (pack ⟨1⟩) ^^^ pack ⟨1⟩ = _
  rw [foldl_polyStep h]
  rfl

theorem polyMod_eq_zero_iff (h : ∀ d ∈ values, d < 32) :
    polyMod values = 0 ↔ remainder values = ⟨1⟩ := by
  have hzero : (0 : UInt64) = pack 0 := rfl
  rw [polyMod_eq h, hzero, pack_injective.eq_iff]
  constructor
  · intro hsum
    exact add_right_cancel (hsum.trans (XorVec.add_self ⟨1⟩).symm)
  · intro hone
    rw [hone]
    exact XorVec.add_self ⟨1⟩

theorem getLsbD_multiple : ∀ a b c d e : Bool,
    (multiple a b c d e).getLsbD 0 = a ∧ (multiple a b c d e).getLsbD 1 = b ∧
      (multiple a b c d e).getLsbD 2 = c ∧ (multiple a b c d e).getLsbD 3 = d ∧
      (multiple a b c d e).getLsbD 4 = e := by
  decide

/-- The generator ends in one, so the last coefficient of a shifted remainder is the one that was
in front. -/
theorem getLsbD_feedback (state : BitVec 40) (hidx : index < 5) :
    (feedback state).getLsbD index = state.getLsbD (35 + index) := by
  obtain ⟨h0, h1, h2, h3, h4⟩ := getLsbD_multiple (state.getLsbD 35) (state.getLsbD 36)
    (state.getLsbD 37) (state.getLsbD 38) (state.getLsbD 39)
  obtain rfl | rfl | rfl | rfl | rfl : index = 0 ∨ index = 1 ∨ index = 2 ∨ index = 3 ∨ index = 4 := by
    omega
  · exact h0
  · exact h1
  · exact h2
  · exact h3
  · exact h4

theorem feedback_eq_zero {state : BitVec 40}
    (h : ∀ index < 5, state.getLsbD (35 + index) = false) : feedback state = 0#40 := by
  have h0 : state.getLsbD 35 = false := h 0 (by decide)
  have h1 : state.getLsbD 36 = false := h 1 (by decide)
  have h2 : state.getLsbD 37 = false := h 2 (by decide)
  have h3 : state.getLsbD 38 = false := h 3 (by decide)
  have h4 : state.getLsbD 39 = false := h 4 (by decide)
  rw [feedback, h0, h1, h2, h3, h4]
  rfl

/-- A remainder is found back from its product with the variable: the last coefficient is the one
in front, and the others are those below. -/
theorem shift_injective : Function.Injective generator.shift := by
  rw [injective_iff_map_eq_zero]
  intro state h
  have hbits : state.bits <<< 5 ^^^ feedback state.bits = 0#40 := congrArg XorVec.bits h
  have hfront : ∀ index < 5, state.bits.getLsbD (35 + index) = false := by
    intro index hidx
    have hbit := congrArg (fun bits => bits.getLsbD index) hbits
    simp only [BitVec.getLsbD_xor, BitVec.getLsbD_shiftLeft, getLsbD_feedback _ hidx] at hbit
    simpa [hidx] using hbit
  rw [feedback_eq_zero hfront, BitVec.xor_zero] at hbits
  ext1
  apply BitVec.eq_of_getLsbD_eq
  intro index hidx
  rcases lt_or_ge index 35 with hlow | hhigh
  · have hbit := congrArg (fun bits => bits.getLsbD (index + 5)) hbits
    simp only [BitVec.getLsbD_shiftLeft] at hbit
    have hin : index + 5 < 40 := by omega
    simpa [hin] using hbit
  · have hbit := hfront (index - 35) (by omega)
    rw [Nat.add_sub_cancel' hhigh] at hbit
    rw [hbit]
    exact BitVec.getLsbD_zero.symm

theorem two_pow_mul_xor {low : Nat} (hlow : low < 2 ^ width) (high : Nat) :
    (2 ^ width * high) ^^^ low = 2 ^ width * high + low := by
  apply Nat.eq_of_testBit_eq
  intro index
  rw [Nat.testBit_xor, Nat.testBit_two_pow_mul, Nat.testBit_two_pow_mul_add _ hlow]
  split_ifs with hidx
  · simp [not_le.mpr hidx]
  · have hzero : low.testBit index = false := Nat.testBit_lt_two_pow
      (Nat.lt_of_lt_of_le hlow (Nat.pow_le_pow_right (by decide) (Nat.not_lt.mp hidx)))
    simp [not_lt.mp hidx, hzero]

/-- While the coefficient in front is zero the register only takes in symbols. -/
theorem toNat_step_of_lt {state : XorVec 40} (h : state.bits.toNat < 2 ^ 35) (symbol : XorVec 5) :
    (generator.step state symbol).bits.toNat = state.bits.toNat * 32 + symbol.bits.toNat := by
  have hfront : ∀ index < 5, state.bits.getLsbD (35 + index) = false := by
    intro index _
    exact Nat.testBit_lt_two_pow
      (Nat.lt_of_lt_of_le h (Nat.pow_le_pow_right (by decide) (Nat.le_add_right 35 index)))
  have hbits : (generator.step state symbol).bits = state.bits <<< 5 ^^^ symbol.bits.setWidth 40 := by
    change state.bits <<< 5 ^^^ feedback state.bits ^^^ symbol.bits.setWidth 40 = _
    rw [feedback_eq_zero hfront, BitVec.xor_zero]
  have hsymbol : symbol.bits.toNat < 2 ^ 5 := symbol.bits.isLt
  have hshift : (state.bits <<< 5).toNat = 2 ^ 5 * state.bits.toNat := by
    rw [BitVec.toNat_shiftLeft, Nat.shiftLeft_eq, Nat.mod_eq_of_lt (by omega), mul_comm]
  have hwidth : (symbol.bits.setWidth 40).toNat = symbol.bits.toNat := by
    rw [BitVec.toNat_setWidth, Nat.mod_eq_of_lt (by omega)]
  rw [hbits, BitVec.toNat_xor, hshift, hwidth, two_pow_mul_xor hsymbol]
  omega

/-- Up to eight symbols are packed as the digits of a number. -/
theorem toNat_run_zero {symbols : List (XorVec 5)} (h : symbols.length ≤ 8) :
    (generator.run 0 symbols).bits.toNat =
      value 32 (symbols.map fun symbol => symbol.bits.toNat) := by
  induction symbols using reverseRecOn with
  | nil => rfl
  | append_singleton symbols symbol ih =>
    rw [length_append, length_singleton] at h
    have hbound : value 32 (symbols.map fun symbol => symbol.bits.toNat) < 2 ^ 35 :=
      calc _ < 32 ^ (symbols.map fun symbol => symbol.bits.toNat).length := by
            apply value_lt (by decide)
            intro digit hdigit
            obtain ⟨symbol, -, rfl⟩ := mem_map.mp hdigit
            exact symbol.bits.isLt
        _ ≤ 32 ^ 7 := Nat.pow_le_pow_right (by decide) (by rw [List.length_map]; omega)
        _ = 2 ^ 35 := by decide
    have hfront := ih (by omega)
    rw [Register.run_append, Register.run_cons, Register.run_nil,
      toNat_step_of_lt (by rw [hfront]; exact hbound), hfront, map_append, map_cons,
      map_nil, value_concat]

/-- The digits of a number can be read off, so eight symbols are seen in the remainder. -/
theorem eq_of_run_zero_eq {symbols symbols' : List (XorVec 5)}
    (hlen : symbols.length = symbols'.length) (h : symbols.length ≤ 8)
    (hrun : generator.run 0 symbols = generator.run 0 symbols') : symbols = symbols' := by
  have hval := congrArg (fun state => state.bits.toNat) hrun
  rw [toNat_run_zero h, toNat_run_zero (hlen ▸ h)] at hval
  have hdigits : ∀ symbols : List (XorVec 5),
      ∀ digit ∈ symbols.map fun symbol => symbol.bits.toNat, digit < 32 := by
    intro symbols digit hdigit
    obtain ⟨symbol, -, rfl⟩ := mem_map.mp hdigit
    exact symbol.bits.isLt
  have hmap := eq_of_value_eq (by decide)
    (by rw [length_map, length_map, hlen]) (hdigits symbols) (hdigits symbols') hval
  refine map_injective_iff.mpr ?_ hmap
  intro a b hab
  ext1
  exact BitVec.eq_of_toNat_eq hab

theorem expandPrefix_lt (text : Text) : ∀ d ∈ expandPrefix text, d < 32 := by
  intro d hd
  rcases mem_append.mp hd with hletter | hzero
  · obtain ⟨c, -, rfl⟩ := mem_map.mp hletter
    have hle : (UInt8.ofNat c.toNat &&& 0x1f).toNat ≤ 31 := by
      rw [UInt8.toNat_and]
      exact Nat.and_le_right
    exact Nat.lt_succ_of_le hle
  · rw [mem_singleton.mp hzero]
    decide

theorem verifyChecksum_iff {prefixText : Text} (h : ∀ d ∈ values, d < 32) :
    verifyChecksum prefixText values ↔ remainder (expandPrefix prefixText ++ values) = ⟨1⟩ := by
  rw [verifyChecksum, beq_iff_eq, polyMod_eq_zero_iff]
  exact forall_mem_append.mpr ⟨expandPrefix_lt prefixText, h⟩

/-- The eight values spell the checksum in base 32. -/
theorem map_toNat_createChecksum :
    (createChecksum prefixText payload).map UInt8.toNat = digits 32 8
      (polyMod (expandPrefix prefixText ++ payload ++ replicate 8 0)).toNat := by
  unfold createChecksum digits
  rw [map_map]
  apply map_congr_left
  intro i hi
  have hshift : 5 * (7 - i) < 64 := by omega
  rw [Function.comp_apply, UInt8.toNat_and, UInt64.toNat_toUInt8, UInt64.toNat_shiftRight,
    UInt64.toNat_ofNat_of_lt' (lt_trans hshift (by decide)), Nat.mod_eq_of_lt hshift,
    Nat.shiftRight_eq_div_pow, Nat.pow_mul]
  exact (Nat.and_two_pow_sub_one_eq_mod _ 5).trans (Nat.mod_mod_of_dvd _ (by decide))

theorem createChecksum_lt : ∀ d ∈ createChecksum prefixText payload, d < 32 := by
  intro d hd
  have hmem : d.toNat ∈ (createChecksum prefixText payload).map UInt8.toNat := mem_map_of_mem hd
  rw [map_toNat_createChecksum] at hmem
  exact lt_of_mem_digits (by decide) hmem

@[simp] theorem length_createChecksum : (createChecksum prefixText payload).length = 8 := by
  simp [createChecksum]

theorem toNat_coefficient (h : d < 32) : (coefficient d).bits.toNat = d.toNat := by
  change (d.toBitVec.setWidth 5).toNat = _
  rw [BitVec.toNat_setWidth, UInt8.toNat_toBitVec]
  exact Nat.mod_eq_of_lt h

theorem coefficient_injOn {values' : DataChunk} (h : ∀ d ∈ values, d < 32)
    (h' : ∀ d ∈ values', d < 32) (heq : values.map coefficient = values'.map coefficient) :
    values = values' := by
  have hmap : ∀ {values : DataChunk}, (∀ d ∈ values, d < 32) →
      (values.map coefficient).map (fun symbol => symbol.bits.toNat) = values.map UInt8.toNat := by
    intro values h
    rw [map_map]
    exact map_congr_left fun d hd => toNat_coefficient (h d hd)
  have htoNat := congrArg (map fun symbol => symbol.bits.toNat) heq
  rw [hmap h, hmap h'] at htoNat
  exact map_injective_iff.mpr (fun _ _ => UInt8.toNat_inj.mp) htoNat

/-- Up to eight values from the empty remainder are a number in base 32. -/
theorem toNat_run_coefficient (h : ∀ d ∈ values, d < 32) (hlen : values.length ≤ 8) :
    (generator.run 0 (values.map coefficient)).bits.toNat = value 32 (values.map UInt8.toNat) := by
  rw [toNat_run_zero (by rwa [length_map]), map_map]
  congr 1
  exact map_congr_left fun d hd => toNat_coefficient (h d hd)

theorem remainder_append_replicate (values : DataChunk) (count : Nat) :
    remainder (values ++ replicate count 0) =
      generator.run (remainder values) (replicate count 0) := by
  rw [remainder_append, map_replicate]
  rfl

/-- Few values at the end complete a word if they spell the checksum of the word with zeros in
their place. -/
theorem remainder_append_eq_one_iff {front : DataChunk} (hfront : ∀ d ∈ front, d < 32)
    (h : ∀ d ∈ values, d < 32) (hlen : values.length ≤ 8) :
    remainder (front ++ values) = ⟨1⟩ ↔
      (polyMod (front ++ replicate values.length 0)).toNat = value 32 (values.map UInt8.toNat) := by
  have hzeros : ∀ d ∈ front ++ replicate values.length 0, d < 32 := by
    refine forall_mem_append.mpr ⟨hfront, fun d hd => ?_⟩
    rw [(mem_replicate.mp hd).2]
    decide
  have hsum : remainder (front ++ values) = remainder (front ++ replicate values.length 0) +
      generator.run 0 (values.map coefficient) := by
    rw [remainder_append, generator.run_eq_add, length_map, remainder_append_replicate]
  rw [polyMod_eq hzeros, toNat_pack, ← toNat_run_coefficient h hlen, hsum, XorVec.add_eq_iff,
    BitVec.toNat_inj, XorVec.ext_iff]

theorem polyMod_toNat_lt (h : ∀ d ∈ values, d < 32) : (polyMod values).toNat < 32 ^ 8 := by
  rw [polyMod_eq h, toNat_pack]
  exact (remainder values + ⟨1⟩).bits.isLt

theorem verifyChecksum_createChecksum {payload : DataChunk} (h : ∀ d ∈ payload, d < 32) :
    verifyChecksum prefixText (payload ++ createChecksum prefixText payload) := by
  have hfront : ∀ d ∈ expandPrefix prefixText ++ payload, d < 32 :=
    forall_mem_append.mpr ⟨expandPrefix_lt prefixText, h⟩
  have hsum := createChecksum_lt prefixText payload
  have hzeros : ∀ d ∈ expandPrefix prefixText ++ payload ++ replicate 8 0, d < 32 :=
    forall_mem_append.mpr ⟨hfront, fun d hd => by rw [eq_of_mem_replicate hd]; decide⟩
  rw [verifyChecksum_iff (forall_mem_append.mpr ⟨h, hsum⟩), ← append_assoc,
    remainder_append_eq_one_iff hfront hsum (by simp), length_createChecksum,
    map_toNat_createChecksum, value_digits, Nat.mod_eq_of_lt (polyMod_toNat_lt hzeros)]

/-- Two words of one length that pass and differ in a window of eight values only are the same. -/
theorem window_eq_of_verifyChecksum {prefixText : Text} {front window window' back : DataChunk}
    (hlen : window.length = window'.length) (hshort : window.length ≤ 8)
    (h : ∀ d ∈ front ++ window ++ back, d < 32) (h' : ∀ d ∈ front ++ window' ++ back, d < 32)
    (hpass : verifyChecksum prefixText (front ++ window ++ back))
    (hpass' : verifyChecksum prefixText (front ++ window' ++ back)) : window = window' := by
  rw [verifyChecksum_iff h] at hpass
  rw [verifyChecksum_iff h'] at hpass'
  have hrun := hpass.trans hpass'.symm
  simp only [remainder, map_append, ← append_assoc] at hrun
  have hsymbols : (window.map coefficient).length = (window'.map coefficient).length := by
    rw [length_map, length_map, hlen]
  have hcoefficients := generator.window_eq_of_run_eq shift_injective hsymbols
    (eq_of_run_zero_eq hsymbols (by rwa [length_map])) hrun
  refine coefficient_injOn (fun d hd => h d ?_) (fun d hd => h' d ?_) hcoefficients
  · exact mem_append_left _ (mem_append_right _ hd)
  · exact mem_append_left _ (mem_append_right _ hd)

/-- The checksum is the only one that its payload passes with. -/
theorem eq_createChecksum {prefixText : Text} {payload checksum : DataChunk}
    (h : ∀ d ∈ payload ++ checksum, d < 32) (hlen : checksum.length = 8)
    (hpass : verifyChecksum prefixText (payload ++ checksum)) :
    checksum = createChecksum prefixText payload := by
  have hpayload : ∀ d ∈ payload, d < 32 := fun d hd => h d (mem_append_left _ hd)
  have hcreated : ∀ d ∈ payload ++ createChecksum prefixText payload, d < 32 :=
    forall_mem_append.mpr ⟨hpayload, createChecksum_lt prefixText payload⟩
  have hcreatedPass := verifyChecksum_createChecksum prefixText hpayload
  rw [← append_nil (payload ++ checksum)] at h hpass
  rw [← append_nil (payload ++ createChecksum prefixText payload)] at hcreated hcreatedPass
  apply window_eq_of_verifyChecksum _ hlen.le h hcreated hpass hcreatedPass
  rw [hlen, length_createChecksum]

theorem take_append_window (values : DataChunk) (start : Nat) :
    values.take start ++ (values.drop start).take 8 ++ values.drop (start + 8) = values := by
  rw [append_assoc, ← drop_drop, take_append_drop, take_append_drop]

/-- No burst of up to eight wrong values goes unnoticed, whatever the length. -/
theorem burst_detected (prefixText : Text) {values values' : DataChunk} (start : Nat)
    (hlength : values.length = values'.length) (h : ∀ d ∈ values, d < 32)
    (h' : ∀ d ∈ values', d < 32)
    (hwindow : ∀ i, i < start ∨ start + 8 ≤ i → values[i]? = values'[i]?)
    (hne : values ≠ values') :
    ¬ (verifyChecksum prefixText values = true ∧ verifyChecksum prefixText values' = true) := by
  rintro ⟨hpass, hpass'⟩
  have hfront : values.take start = values'.take start := by
    apply ext_getElem?
    intro i
    rw [getElem?_take, getElem?_take]
    split_ifs with hi
    · exact hwindow i (.inl hi)
    · rfl
  have hback : values.drop (start + 8) = values'.drop (start + 8) := by
    apply ext_getElem?
    intro i
    rw [getElem?_drop, getElem?_drop]
    exact hwindow _ (.inr (Nat.le_add_right _ _))
  have hsplit' : values.take start ++ (values'.drop start).take 8 ++ values.drop (start + 8) =
      values' := by
    rw [hfront, hback, take_append_window]
  apply hne
  rw [← take_append_window values start] at h hpass
  rw [← hsplit'] at h' hpass'
  have hburst := window_eq_of_verifyChecksum (by simp [hlength]) (length_take_le 8 _) h h'
    hpass hpass'
  rw [← take_append_window values start, hburst, hsplit']

theorem burst_detected_last_value :
    verifyChecksum ['p'] [8, 1, 9, 7, 27, 21, 23, 30] = true ∧
      ¬ (verifyChecksum ['p'] [8, 1, 9, 7, 27, 21, 23, 30] = true ∧
        verifyChecksum ['p'] [8, 1, 9, 7, 27, 21, 23, 31] = true) := by
  let _ (items : DataChunk) : Decidable (∀ d ∈ items, d < 32) := decidableBAll _ items
  refine ⟨by decide +kernel,
    burst_detected ['p'] 0 (by decide) (by decide) (by decide) ?_ (by decide)⟩
  intro i hi
  have hlong : 8 ≤ i := by omega
  rw [getElem?_eq_none hlong, getElem?_eq_none hlong]

end BitprimCore.Cashaddr
