import BitprimCore.Machine.Opcode
import BitprimCore.Machine.Number
import BitprimCore.Utility.Stream

/-!
# Script operations

An operation is an opcode with its push data (`machine/operation`). The codec reads and writes one
operation; what it reads is well formed, and well-formed operations are a prefix code.
-/

namespace BitprimCore

open LittleEndian PrefixCode List Option

/-- An opcode with its push data; `valid` is unset when deserialization failed. -/
structure Operation where
  code : Opcode
  data : DataChunk := []
  valid : Bool := true
  deriving DecidableEq, Repr

namespace Operation

variable {source rest : DataChunk} {currency : Currency} {op : Operation}

/-- The state of an operation whose deserialization failed: a disabled code (`reset`). -/
def invalid : Operation where
  code := .disabledXor
  data := []
  valid := false

/-- Too long for the stack. -/
def isOversized (op : Operation) : Bool := op.data.length > maxPushDataSize

/-- The size encoding is not minimal, but consensus critical due to `find_and_delete`. -/
def opcodeFromSize (size : Nat) : Opcode :=
  if h : size ≤ 75 then .pushSize ⟨size, by omega⟩
  else if size ≤ maxUint8 then .pushOneSize
  else if size ≤ maxUint16 then .pushTwoSize
  else .pushFourSize

/-- The opcode of 1 to 16. -/
def opcodeFromPositive (value : UInt8) : Opcode := Opcode.ofByte (value + 81 - 1)

variable (data : DataChunk)

/-- A number if there is one. -/
def minimalOpcodeFromData : Opcode :=
  match data with
  | [value] =>
    if value = Number.negative1 then .pushNegative1
    else if value = Number.positive0 then .pushSize 0
    else if Number.positive1 ≤ value ∧ value ≤ Number.positive16 then opcodeFromPositive value
    else opcodeFromSize 1
  | _ => opcodeFromSize data.length

/-- By the size alone. -/
def nominalOpcodeFromData : Opcode := opcodeFromSize data.length

/-- Either way. -/
def opcodeFromData (minimal : Bool) : Opcode :=
  if minimal then minimalOpcodeFromData data else nominalOpcodeFromData data

/-- The push of given data (`operation(uncoded, minimal)`); oversized data gives an invalid one. -/
def ofUncoded (uncoded : DataChunk) (minimal : Bool) : Operation :=
  if uncoded.length > maxPushDataSize then invalid
  else
    let code := opcodeFromData uncoded minimal
    -- a numeric encoding carries no data
    { code, data := if minimal && !code.isPayload then [] else uncoded }

/-- The size that precedes the data, for the three opcodes that have one. -/
def sizeWidth : Opcode → Nat
  | .pushOneSize => 1
  | .pushTwoSize => 2
  | .pushFourSize => 4
  | _ => 0

/-- Opcode, size and data. -/
def toData (op : Operation) : DataChunk :=
  op.code.toByte :: (ofNat (sizeWidth op.code) op.data.length ++ op.data)

/-- The size of the serialization, written apart from the writer (`serialized_size`). -/
def serializedSize (op : Operation) : Nat :=
  match op.code with
  | .pushOneSize => 1 + 1 + op.data.length
  | .pushTwoSize => 1 + 2 + op.data.length
  | .pushFourSize => 1 + 4 + op.data.length
  | _ => 1 + op.data.length

/-- The size of the data. -/
def readDataSize (code : Opcode) (source : DataChunk) : Option (Nat × DataChunk) :=
  match code with
  | .pushOneSize => readLittleEndian 1 source
  | .pushTwoSize => readLittleEndian 2 source
  | .pushFourSize => readLittleEndian 4 source
  | .pushSize count => some (count, source)
  | _ => some (0, source)

/-- Read one operation; the block size guards the allocation of its data. -/
def fromData (currency : Currency) : DataChunk → Option (Operation × DataChunk)
  | [] => none
  | byte :: source => do
    let code := Opcode.ofByte byte
    let (size, source) ← readDataSize code source
    if size > currency.getMaxBlockSize then none
    else
      let (data, source) ← readBytes size source
      return ({ code, data }, source)

/-- The data of the operation fits its opcode. -/
def WellFormed (op : Operation) : Prop :=
  op.valid = true ∧
    match op.code with
    | .pushOneSize | .pushTwoSize | .pushFourSize => op.data.length < 256 ^ sizeWidth op.code
    | .pushSize count => op.data.length = count
    | _ => op.data = []

theorem toData_ne_nil (op : Operation) : op.toData ≠ [] := by
  simp [toData]

/-- The size agrees with the writer, for every operation. -/
theorem length_toData (op : Operation) : op.toData.length = op.serializedSize := by
  obtain ⟨code, data, valid⟩ := op
  simp only [toData, serializedSize, length_cons, length_append, length_ofNat]
  cases code <;> simp only [sizeWidth] <;> omega

private theorem readLittleEndian_eq_some {width n : Nat}
    (h : readLittleEndian width source = some (n, rest)) :
    source = ofNat width n ++ rest ∧ n < 256 ^ width := by
  unfold readLittleEndian at h
  cases hread : readBytes width source with
  | none => simp [hread] at h
  | some pair =>
    obtain ⟨bytes, rest'⟩ := pair
    obtain ⟨rfl, rfl⟩ : toNat bytes = n ∧ rest' = rest := by simpa [hread] using h
    obtain ⟨hsource, rfl⟩ := readBytes_eq_some hread
    exact ⟨by rw [ofNat_toNat, hsource], toNat_lt bytes⟩

/-- The reader has taken a code, the size of the data within the limit, and the data. -/
theorem fromData_cases (h : fromData currency source = some (op, rest)) :
    ∃ byte sized data, source = byte :: sized ∧ op = ⟨Opcode.ofByte byte, data, true⟩ ∧
      readDataSize (Opcode.ofByte byte) sized = some (data.length, data ++ rest) ∧
      data.length ≤ currency.getMaxBlockSize := by
  cases source with
  | nil => simp [fromData] at h
  | cons byte sized =>
    simp only [fromData, bind_eq_bind, bind_eq_some_iff] at h
    obtain ⟨⟨size, body⟩, hsize, h⟩ := h
    split at h
    · cases h
    · rename_i hle
      simp only [bind_eq_some_iff] at h
      obtain ⟨⟨data, tail⟩, hdata, h⟩ := h
      cases h
      obtain ⟨rfl, rfl⟩ := readBytes_eq_some hdata
      exact ⟨byte, sized, data, rfl, rfl, hsize, Nat.le_of_not_lt hle⟩

/-- What the reader accepts is a well-formed operation, written in the bytes taken off. -/
theorem fromData_eq_some (h : fromData currency source = some (op, rest)) :
    source = op.toData ++ rest ∧ op.WellFormed := by
  obtain ⟨byte, sized, data, rfl, rfl, hsize, -⟩ := fromData_cases h
  simp only [toData, WellFormed, Opcode.toByte_ofByte, cons_append, append_assoc,
    List.cons.injEq, true_and]
  generalize Opcode.ofByte byte = code at hsize ⊢
  cases code with
  | pushOneSize | pushTwoSize | pushFourSize =>
    simpa [sizeWidth] using readLittleEndian_eq_some hsize
  | pushSize count =>
    obtain ⟨hlen, hbody⟩ : count.val = data.length ∧ sized = data ++ rest := by
      simpa [readDataSize] using hsize
    exact ⟨by simpa [sizeWidth, ofNat] using hbody, hlen.symm⟩
  | _ =>
    obtain ⟨hlen, hbody⟩ : 0 = data.length ∧ sized = data ++ rest := by
      simpa [readDataSize] using hsize
    exact ⟨by simpa [sizeWidth, ofNat] using hbody, eq_nil_of_length_eq_zero hlen.symm⟩

/-- The reader has guarded the allocation of the data. -/
theorem length_data_le_of_fromData (h : fromData currency source = some (op, rest)) :
    op.data.length ≤ currency.getMaxBlockSize := by
  obtain ⟨byte, sized, data, -, rfl, -, hle⟩ := fromData_cases h
  exact hle

theorem readDataSize_toData (h : op.WellFormed) (rest : DataChunk) :
    readDataSize op.code (ofNat (sizeWidth op.code) op.data.length ++ rest) =
      some (op.data.length, rest) := by
  obtain ⟨code, data, valid⟩ := op
  obtain ⟨-, hdata⟩ := h
  cases code with
  | pushOneSize => exact (reads_readLittleEndian hdata) rest
  | pushTwoSize => exact (reads_readLittleEndian hdata) rest
  | pushFourSize => exact (reads_readLittleEndian hdata) rest
  | pushSize count =>
    have hlen : data.length = count := hdata
    simp [readDataSize, sizeWidth, ofNat, hlen]
  | _ =>
    obtain rfl : data = [] := hdata
    rfl

/-- A well-formed operation that a block has room for is read back. -/
theorem fromData_toData (h : op.WellFormed) (hfit : op.data.length ≤ currency.getMaxBlockSize)
    (rest : DataChunk) : fromData currency (op.toData ++ rest) = some (op, rest) := by
  have hvalid := h.1
  simp only [toData, cons_append, append_assoc, fromData, Opcode.ofByte_toByte,
    readDataSize_toData h, bind_eq_bind, bind_some, if_neg (not_lt.mpr hfit), gt_iff_lt]
  rw [reads_readBytes rfl]
  obtain ⟨code, data, valid⟩ := op
  obtain rfl : valid = true := hvalid
  rfl

/-- Well-formed operations are a prefix code. -/
theorem determines_toData : Determines WellFormed toData id := by
  intro a b ha hb r s h
  obtain ⟨codeA, dataA, validA⟩ := a
  obtain ⟨codeB, dataB, validB⟩ := b
  obtain ⟨rfl, hdataA⟩ := ha
  obtain ⟨rfl, hdataB⟩ := hb
  simp only [toData, cons_append, append_assoc, List.cons.injEq] at h
  obtain ⟨hcode, hbody⟩ := h
  obtain rfl : codeA = codeB := Opcode.toByte_injective hcode
  -- the same opcode writes the same size field, so both data fields have one length
  obtain ⟨hlen, hrest⟩ : dataA.length = dataB.length ∧ dataA ++ r = dataB ++ s := by
    cases codeA with
    | pushOneSize => exact determines_ofNat 1 hdataA hdataB _ _ hbody
    | pushTwoSize => exact determines_ofNat 2 hdataA hdataB _ _ hbody
    | pushFourSize => exact determines_ofNat 4 hdataA hdataB _ _ hbody
    | pushSize count => exact ⟨hdataA.trans hdataB.symm, hbody⟩
    | _ => exact ⟨(congrArg length hdataA).trans (congrArg length hdataB).symm, hbody⟩
  obtain ⟨rfl, rfl⟩ := append_inj hrest hlen
  exact ⟨rfl, rfl⟩

end Operation

end BitprimCore
