import BitprimCore.Chain.Block
import BitprimCore.Chain.FindAndDelete
import BitprimCore.Machine.NumberCodec

/-!
# The height in a coinbase

A coinbase script has to start with a push of the height of its block. The rule is stated on the
parsed operations. It is the same as a comparison of bytes with the nominal push of the height,
whether the rest of the script parses or not, and a script is bound to one height.
-/

namespace BitprimCore

open Number Operation Script

namespace Script

/-- The nominal push of the height as a script number. -/
def heightPush (height : Nat) : Operation := .ofUncoded (data64 (BitVec.ofNat 64 height)) false

variable {height : Nat}

/-- The 64 bits of a height hold it. -/
theorem toInt_height (h : height < 2 ^ 63) : (BitVec.ofNat 64 height).toInt = height := by
  have hsmall : 2 * (BitVec.ofNat 64 height).toNat < 2 ^ 64 := by
    rw [BitVec.toNat_ofNat]
    omega
  rw [BitVec.toInt_eq_toNat_of_lt hsmall, BitVec.toNat_ofNat, Nat.mod_eq_of_lt (by omega)]

theorem data64_height (h : height < 2 ^ 63) :
    data64 (BitVec.ofNat 64 height) = Number.data height := by
  rw [data64_eq, toInt_height h]

theorem length_data_height (h : height < 2 ^ 63) : (Number.data height).length ≤ 8 := by
  apply length_data_le
  · omega
  · omega

/-- Heights are recovered from what is pushed. -/
theorem data_height_inj {other : Nat} (h : height < 2 ^ 63) (hother : other < 2 ^ 63)
    (hdata : Number.data height = Number.data other) : height = other := by
  have hread := congrArg SignMagnitude.value hdata
  rw [value_data (by omega), value_data (by omega)] at hread
  exact Int.natCast_inj.mp hread

theorem heightPush_eq (h : height < 2 ^ 63) :
    heightPush height =
      { code := nominalOpcodeFromData (Number.data height), data := Number.data height } := by
  have hlen := length_data_height h
  rw [heightPush, data64_height h, ofUncoded, if_neg]
  · rfl
  · simp only [maxPushDataSize]
    omega

theorem wellFormed_heightPush (h : height < 2 ^ 63) : (heightPush height).WellFormed := by
  have hlen := length_data_height h
  rw [heightPush, data64_height h]
  apply wellFormed_ofUncoded
  simp only [maxPushDataSize]
  omega

/-- An operation that pushes the height nominally was read. -/
theorem eq_heightPush {op : Operation} (h : height < 2 ^ 63) (hvalid : op.valid)
    (hcode : op.code = nominalOpcodeFromData op.data) (hdata : op.data = Number.data height) :
    op = heightPush height := by
  obtain ⟨code, data, valid⟩ := op
  obtain rfl : data = Number.data height := hdata
  obtain rfl : valid = true := hvalid
  obtain rfl : code = nominalOpcodeFromData (Number.data height) := hcode
  rw [heightPush_eq h]

/-- No nominal push is the operation of a failed read. -/
theorem ne_invalid {op : Operation} (hcode : op.code = nominalOpcodeFromData op.data) :
    op ≠ invalid := by
  rintro rfl
  have hsize : (invalid).data.length ≤ 75 := Nat.zero_le _
  rw [nominalOpcodeFromData, opcodeFromSize, dif_pos hsize] at hcode
  cases hcode

/-- The rule on operations is the comparison of bytes. -/
theorem isCoinbasePattern_iff (currency : Currency) (bytes : DataChunk) (h : height < 2 ^ 63) :
    isCoinbasePattern (operations currency ⟨bytes⟩) height ↔
      (heightPush height).toData <+: bytes := by
  constructor
  · intro hpat
    cases hops : operations currency ⟨bytes⟩ with
    | nil =>
      rw [hops] at hpat
      cases hpat
    | cons op ops =>
      obtain ⟨hcode, hdata⟩ : op.code = nominalOpcodeFromData op.data ∧
          op.data = Number.data height := by
        simpa [hops, isCoinbasePattern] using hpat
      obtain ⟨rest, rfl, hwf, -⟩ := operations_eq_cons hops (ne_invalid hcode)
      rw [← eq_heightPush h hwf.1 hcode hdata]
      exact List.prefix_append _ _
  · rintro ⟨rest, rfl⟩
    have hfits : (heightPush height).data.length ≤ currency.getMaxBlockSize := by
      have hlen := length_data_height h
      rw [heightPush_eq h]
      cases currency <;> exact hlen.trans (by decide)
    rw [operations_toData_append (wellFormed_heightPush h) hfits, heightPush_eq h]
    simp [isCoinbasePattern]

/-- A script is bound to one height. -/
theorem height_unique {ops : List Operation} {other : Nat} (h : height < 2 ^ 63)
    (hother : other < 2 ^ 63) (hpat : isCoinbasePattern ops height)
    (hpat' : isCoinbasePattern ops other) : height = other := by
  cases ops with
  | nil => cases hpat
  | cons op ops =>
    obtain ⟨-, hdata⟩ : op.code = nominalOpcodeFromData op.data ∧ op.data = Number.data height := by
      simpa [isCoinbasePattern] using hpat
    obtain ⟨-, hdata'⟩ : op.code = nominalOpcodeFromData op.data ∧ op.data = Number.data other := by
      simpa [isCoinbasePattern] using hpat'
    exact data_height_inj h hother (hdata.symm.trans hdata')

end Script

/-- The coinbase script of a block binds it to one height: the rule holds just when the bytes start
with the push of the height, and for no two heights of one script or block. -/
theorem Block.coinbase_binds_height (currency : Currency) :
    (∀ (bytes : DataChunk) (height : Nat), height < 2 ^ 63 →
      (isCoinbasePattern (operations currency ⟨bytes⟩) height = true ↔
        (heightPush height).toData <+: bytes)) ∧
    (∀ (script : Script) (height other : Nat), height < 2 ^ 63 → other < 2 ^ 63 →
      isCoinbasePattern (script.operations currency) height = true →
      isCoinbasePattern (script.operations currency) other = true → height = other) ∧
    ∀ (block : Block) (height other : Nat), height < 2 ^ 63 → other < 2 ^ 63 →
      block.isValidCoinbaseScript currency height = true →
      block.isValidCoinbaseScript currency other = true → height = other := by
  refine ⟨fun bytes height h => isCoinbasePattern_iff currency bytes h,
    fun script height other h hother => height_unique h hother, ?_⟩
  intro block height other h hother hvalid hvalid'
  unfold isValidCoinbaseScript at hvalid hvalid'
  split at hvalid
  · next htxs =>
    rw [htxs] at hvalid'
    exact height_unique h hother hvalid hvalid'
  · cases hvalid

end BitprimCore
