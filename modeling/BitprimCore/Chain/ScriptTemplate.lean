import BitprimCore.Chain.Script

/-!
# Consensus script templates

The patterns that consensus rules match on parsed operations, compared with the byte strings that
they stand for. Each operation of a pattern fixes its bytes, so a pattern is a byte template, save
for the witness program: there the size of the push is tested and not its opcode, and a longer
encoding of the push passes as well.
-/

namespace BitprimCore.Script

open List LittleEndian Opcode

variable {op : Operation} {count : Fin 76} {code : Opcode}

/-- The byte is `00` or one of `51` to `60`. -/
def IsVersionByte (byte : UInt8) : Prop := byte = 0 ∨ 0x51 ≤ byte ∧ byte ≤ 0x60

variable (bytes : DataChunk)

/-- `a9 14`, twenty bytes, `87`. -/
def IsPayScriptHashBytes : Prop :=
  ∃ hash : DataChunk, hash.length = 20 ∧ bytes = 0xa9 :: 0x14 :: (hash ++ [0x87])

/-- A version byte and a size byte that counts all that follows, 2 to 40 bytes. -/
def IsWitnessProgramBytes : Prop :=
  4 ≤ bytes.length ∧ bytes.length ≤ 42 ∧
    ∃ version size rest, bytes = version :: size :: rest ∧ IsVersionByte version ∧
      size.toNat = bytes.length - 2

/-- At least 38 bytes that start with `6a 24 aa 21 a9 ed`. -/
def IsCommitmentBytes : Prop := 38 ≤ bytes.length ∧ [0x6a, 0x24, 0xaa, 0x21, 0xa9, 0xed] <+: bytes

/-- A version byte, then 2 to 40 bytes that fill the script behind an explicit size of one, two or
four bytes. -/
def IsSizedProgramBytes : Prop :=
  ∃ (version : UInt8) (program : DataChunk), IsVersionByte version ∧
    minWitnessProgram ≤ program.length ∧ program.length ≤ maxWitnessProgram ∧
    (bytes = version :: 0x4c :: (ofNat 1 program.length ++ program) ∨
      bytes = version :: 0x4d :: (ofNat 2 program.length ++ program) ∨
      bytes = version :: 0x4e :: (ofNat 4 program.length ++ program))

/-- An operation that pushes nothing is its opcode. -/
theorem toData_of_empty (hcode : Operation.sizeWidth op.code = 0) (hdata : op.data = []) :
    op.toData = [op.code.toByte] := by
  simp [Operation.toData, hcode, hdata, ofNat]

theorem toData_of_pushSize (hcode : op.code = .pushSize count) :
    op.toData = UInt8.ofNat count :: op.data := by
  simp [Operation.toData, hcode, Operation.sizeWidth, toByte, ofNat]

theorem length_of_pushSize (h : op.WellFormed) (hcode : op.code = .pushSize count) :
    op.data.length = count := by
  have hdata := h.2
  rw [hcode] at hdata
  exact hdata

theorem isVersion_iff : code.isVersion ↔ IsVersionByte code.toByte := by
  simp only [isVersion, isPositive, IsVersionByte, Bool.or_eq_true, beq_iff_eq,
    Bool.and_eq_true, decide_eq_true_eq]
  refine or_congr ?_ Iff.rfl
  constructor
  · rintro rfl
    rfl
  · intro hbyte
    exact toByte_injective hbyte

theorem eq_of_isVersion (h : code.isVersion) :
    code = .pushSize 0 ∨ ∃ offset, code = .pushPositive offset := by
  cases code with
  | pushSize count => revert count; decide +kernel
  | pushPositive offset => exact .inr ⟨offset, rfl⟩
  | reserved offset => revert offset; decide +kernel
  | _ => exact absurd h (by decide)

/-- A version is an opcode without data. -/
theorem toData_of_isVersion (h : op.WellFormed) (hver : op.code.isVersion) :
    op.toData = [op.code.toByte] := by
  obtain ⟨code, data, valid⟩ := op
  obtain ⟨-, hdata⟩ := h
  obtain rfl | ⟨offset, rfl⟩ := eq_of_isVersion hver
  · exact toData_of_empty rfl (eq_nil_of_length_eq_zero hdata)
  · exact toData_of_empty rfl hdata

theorem wellFormed_of_isVersion (h : code.isVersion) : Operation.WellFormed { code } := by
  obtain rfl | ⟨offset, rfl⟩ := eq_of_isVersion h
  · exact ⟨rfl, rfl⟩
  · exact ⟨rfl, rfl⟩

/-- An operation with data was written by one of the four kinds of push. -/
theorem toData_of_data_ne_nil (h : op.WellFormed) (hdata : op.data ≠ []) :
    op.data.length ≤ 75 ∧ op.toData = UInt8.ofNat op.data.length :: op.data ∨
      op.toData = 0x4c :: (ofNat 1 op.data.length ++ op.data) ∨
      op.toData = 0x4d :: (ofNat 2 op.data.length ++ op.data) ∨
      op.toData = 0x4e :: (ofNat 4 op.data.length ++ op.data) := by
  obtain ⟨code, data, valid⟩ := op
  have hfits := h.2
  cases code with
  | pushSize count =>
    have hlen : data.length = count := hfits
    left
    refine ⟨by simp only [hlen]; omega, ?_⟩
    rw [toData_of_pushSize rfl, hlen]
  | pushOneSize => exact .inr (.inl rfl)
  | pushTwoSize => exact .inr (.inr (.inl rfl))
  | pushFourSize => exact .inr (.inr (.inr rfl))
  | _ => exact absurd hfits hdata

section

variable {currency : Currency}

theorem operations_cons_of_empty (hsize : Operation.sizeWidth code = 0)
    (h : Operation.WellFormed { code }) (rest : DataChunk) :
    operations currency ⟨code.toByte :: rest⟩ = { code } :: operations currency ⟨rest⟩ := by
  have hread := operations_toData_append h (Nat.zero_le currency.getMaxBlockSize) rest
  rwa [toData_of_empty hsize rfl] at hread

/-- Any build has room for the pushes of a template. -/
theorem le_getMaxBlockSize (currency : Currency) {size : Nat}
    (h : size ≤ 1000000) : size ≤ currency.getMaxBlockSize := by
  cases currency with
  | bch => exact h.trans (by decide)
  | btc => exact h
  | ltc => exact h

theorem operations_pushSize {data : DataChunk} (hlen : data.length = count) (rest : DataChunk) :
    operations currency ⟨UInt8.ofNat count :: (data ++ rest)⟩ =
      { code := .pushSize count, data } :: operations currency ⟨rest⟩ := by
  have hpush : Operation.WellFormed { code := .pushSize count, data } := ⟨rfl, hlen⟩
  have hfit : data.length ≤ 1000000 := by
    rw [hlen]
    omega
  have hread := operations_toData_append hpush (le_getMaxBlockSize currency hfit) rest
  rwa [toData_of_pushSize rfl] at hread

end

variable {currency : Currency} {bytes : DataChunk}

theorem isPayScriptHashPattern_iff :
    isPayScriptHashPattern (operations currency ⟨bytes⟩) ↔ IsPayScriptHashBytes bytes := by
  constructor
  · intro h
    obtain ⟨op0, op1, op2, hops, hcodes⟩ : ∃ op0 op1 op2,
        operations currency ⟨bytes⟩ = [op0, op1, op2] ∧
          (op0.code = .hash160 ∧ op1.code = .pushSize 20) ∧ op2.code = .equal := by
      unfold isPayScriptHashPattern at h
      split at h
      · next op0 op1 op2 hops => exact ⟨op0, op1, op2, hops, by simpa using h⟩
      · cases h
    obtain ⟨⟨hhash, hpush⟩, hequal⟩ := hcodes
    obtain ⟨rest, rfl, hfirst, hops⟩ := operations_eq_cons hops (by rintro rfl; cases hhash)
    obtain ⟨rest, rfl, hsecond, hops⟩ := operations_eq_cons hops (by rintro rfl; cases hpush)
    obtain ⟨rest, rfl, hthird, hops⟩ := operations_eq_cons hops (by rintro rfl; cases hequal)
    obtain rfl := operations_eq_nil_iff.mp hops
    have hdata0 : op0.data = [] := by simpa [Operation.WellFormed, hhash] using hfirst.2
    have hdata2 : op2.data = [] := by simpa [Operation.WellFormed, hequal] using hthird.2
    refine ⟨op1.data, length_of_pushSize hsecond hpush, ?_⟩
    rw [toData_of_empty (by simp [hhash, Operation.sizeWidth]) hdata0, toData_of_pushSize hpush,
      toData_of_empty (by simp [hequal, Operation.sizeWidth]) hdata2, hhash, hequal]
    rfl
  · rintro ⟨hash, hlen, rfl⟩
    change isPayScriptHashPattern
      (operations currency ⟨hash160.toByte :: UInt8.ofNat (20 : Fin 76) ::
        (hash ++ equal.toByte :: [])⟩) = true
    rw [operations_cons_of_empty rfl ⟨rfl, rfl⟩, operations_pushSize hlen,
      operations_cons_of_empty rfl ⟨rfl, rfl⟩]
    rfl

/-- What the pattern asks of the operations. -/
theorem exists_of_isWitnessProgramPattern {ops : List Operation}
    (h : isWitnessProgramPattern ops) :
    ∃ op0 op1, ops = [op0, op1] ∧ op0.code.isVersion ∧
      minWitnessProgram ≤ op1.data.length ∧ op1.data.length ≤ maxWitnessProgram := by
  unfold isWitnessProgramPattern at h
  split at h
  · next op0 op1 =>
      simp only [Bool.and_eq_true, decide_eq_true_eq] at h
      exact ⟨op0, op1, rfl, h.1.1, h.1.2, h.2⟩
  · cases h

/-- A version and a push of any kind, with 2 to 40 bytes, are the pattern. -/
theorem isWitnessProgramPattern_of_push {version : UInt8} (push : Operation)
    (hver : IsVersionByte version) (hpush : push.WellFormed)
    (hmin : minWitnessProgram ≤ push.data.length) (hmax : push.data.length ≤ maxWitnessProgram)
    (hbytes : bytes = version :: push.toData) :
    isWitnessProgramPattern (operations currency ⟨bytes⟩) := by
  have hbyte := toByte_ofByte version
  have hcode : (ofByte version).isVersion := by rwa [isVersion_iff, hbyte]
  have hempty : Operation.sizeWidth (ofByte version) = 0 := by
    obtain hzero | ⟨offset, hpos⟩ := eq_of_isVersion hcode
    · rw [hzero]
      rfl
    · rw [hpos]
      rfl
  have hops : operations currency ⟨bytes⟩ = [{ code := ofByte version }, push] := by
    have hfit : push.data.length ≤ 1000000 := hmax.trans (by decide)
    have hsecond := operations_toData_append hpush (le_getMaxBlockSize currency hfit) []
    rw [append_nil] at hsecond
    rw [hbytes, ← hbyte, operations_cons_of_empty hempty (wellFormed_of_isVersion hcode), hsecond,
      hbyte]
    rfl
  rw [hops]
  simp [isWitnessProgramPattern, hcode, hmin, hmax]

/-- The pattern is met by the template, and by the programs behind an explicit size. -/
theorem isWitnessProgramPattern_iff :
    isWitnessProgramPattern (operations currency ⟨bytes⟩) ↔
      IsWitnessProgramBytes bytes ∨ IsSizedProgramBytes bytes := by
  constructor
  · intro h
    obtain ⟨op0, op1, hops, hver, hmin, hmax⟩ := exists_of_isWitnessProgramPattern h
    have hdata : op1.data ≠ [] := by
      intro hnil
      rw [hnil] at hmin
      exact absurd hmin (by decide)
    obtain ⟨rest, rfl, hfirst, hops⟩ := operations_eq_cons hops (by rintro rfl; cases hver)
    obtain ⟨rest, rfl, hsecond, hops⟩ := operations_eq_cons hops (by rintro rfl; exact hdata rfl)
    obtain rfl := operations_eq_nil_iff.mp hops
    rw [toData_of_isVersion hfirst hver, append_nil]
    have hbyte := isVersion_iff.mp hver
    rcases toData_of_data_ne_nil hsecond hdata with ⟨hsize, hpush⟩ | hpush | hpush | hpush
    · left
      rw [hpush]
      unfold minWitnessProgram at hmin
      unfold maxWitnessProgram at hmax
      refine ⟨by simp; omega, by simp; omega, _, _, _, rfl, hbyte, ?_⟩
      rw [UInt8.toNat_ofNat_of_lt' (show _ < UInt8.size by simp only [UInt8.size]; omega)]
      simp
    · exact .inr ⟨_, _, hbyte, hmin, hmax, .inl (by rw [hpush]; rfl)⟩
    · exact .inr ⟨_, _, hbyte, hmin, hmax, .inr (.inl (by rw [hpush]; rfl))⟩
    · exact .inr ⟨_, _, hbyte, hmin, hmax, .inr (.inr (by rw [hpush]; rfl))⟩
  · rintro (⟨hlow, hhigh, version, size, program, rfl, hver, hsize⟩ |
      ⟨version, program, hver, hmin, hmax, hbytes⟩)
    · rw [length_cons, length_cons] at hlow hhigh hsize
      have hmin : minWitnessProgram ≤ program.length := by unfold minWitnessProgram; omega
      have hmax : program.length ≤ maxWitnessProgram := by unfold maxWitnessProgram; omega
      have hcount : program.length < 76 := by omega
      have hbyte : UInt8.ofNat program.length = size := by
        rw [show program.length = size.toNat by omega, UInt8.ofNat_toNat]
      refine isWitnessProgramPattern_of_push
        { code := .pushSize ⟨program.length, hcount⟩, data := program } hver
        ⟨rfl, rfl⟩ hmin hmax ?_
      rw [toData_of_pushSize rfl]
      exact congrArg (fun byte => version :: byte :: program) hbyte.symm
    · have hwidth : ∀ width, 0 < width → program.length < 256 ^ width := by
        intro width hwidth
        unfold maxWitnessProgram at hmax
        calc program.length < 256 ^ 1 := by omega
          _ ≤ 256 ^ width := Nat.pow_le_pow_right (by decide) hwidth
      rcases hbytes with rfl | rfl | rfl
      · exact isWitnessProgramPattern_of_push { code := .pushOneSize, data := program }
          hver ⟨rfl, hwidth 1 (by decide)⟩ hmin hmax rfl
      · exact isWitnessProgramPattern_of_push { code := .pushTwoSize, data := program }
          hver ⟨rfl, hwidth 2 (by decide)⟩ hmin hmax rfl
      · exact isWitnessProgramPattern_of_push { code := .pushFourSize, data := program }
          hver ⟨rfl, hwidth 4 (by decide)⟩ hmin hmax rfl

/-- The two forms of a witness program are told apart by the second byte. -/
theorem not_isWitnessProgramBytes_of_sized (h : IsSizedProgramBytes bytes) :
    ¬ IsWitnessProgramBytes bytes := by
  rintro ⟨hlow, hhigh, version, size, rest, hbytes, -, hsize⟩
  obtain ⟨version', program, -, -, -, hsized⟩ := h
  have hsecond : ∀ {byte : UInt8} {tail : DataChunk}, bytes = version' :: byte :: tail →
      size = byte := by
    intro byte tail h
    exact (List.cons.inj (List.cons.inj (hbytes.symm.trans h)).2).1
  -- the opcodes with an explicit size are above any size that the template has
  have hlarge : 76 ≤ size.toNat := by
    rcases hsized with hsized | hsized | hsized <;> rw [hsecond hsized] <;> decide
  omega

theorem isCommitmentPattern_iff :
    isCommitmentPattern (operations currency ⟨bytes⟩) ↔ IsCommitmentBytes bytes := by
  constructor
  · intro h
    obtain ⟨op0, op1, ops, hops, ⟨hreturn, hpush⟩, hhead⟩ : ∃ op0 op1 ops,
        operations currency ⟨bytes⟩ = op0 :: op1 :: ops ∧
          (op0.code = .return_ ∧ op1.code = .pushSize 36) ∧ op1.data.take 4 = witnessHead := by
      unfold isCommitmentPattern at h
      split at h
      · next op0 op1 ops hops => exact ⟨op0, op1, ops, hops, by simpa using h⟩
      · cases h
    obtain ⟨rest, rfl, hfirst, hops⟩ := operations_eq_cons hops (by rintro rfl; cases hreturn)
    obtain ⟨rest, rfl, hsecond, -⟩ := operations_eq_cons hops (by rintro rfl; cases hpush)
    have hdata0 : op0.data = [] := by simpa [Operation.WellFormed, hreturn] using hfirst.2
    have hlen := length_of_pushSize hsecond hpush
    rw [toData_of_empty (by simp [hreturn, Operation.sizeWidth]) hdata0, toData_of_pushSize hpush,
      hreturn]
    refine ⟨by simp [hlen], op1.data.drop 4 ++ rest, ?_⟩
    have hsplit : op1.data = witnessHead ++ op1.data.drop 4 := by
      rw [← hhead, take_append_drop]
    conv_rhs => rw [hsplit]
    simp [witnessHead, toByte]
  · rintro ⟨hlen, rest, rfl⟩
    have hrest : 32 ≤ rest.length := by
      simp only [length_append, length_cons, length_nil] at hlen
      omega
    have hdata : (witnessHead ++ rest.take 32).length = (36 : Fin 76) := by
      rw [length_append, length_take, min_eq_left hrest]
      rfl
    have hbytes : [0x6a, 0x24, 0xaa, 0x21, 0xa9, 0xed] ++ rest =
        return_.toByte :: UInt8.ofNat (36 : Fin 76) ::
          ((witnessHead ++ rest.take 32) ++ rest.drop 32) := by
      rw [append_assoc, take_append_drop]
      rfl
    rw [hbytes, operations_cons_of_empty rfl ⟨rfl, rfl⟩, operations_pushSize hdata]
    simp [isCommitmentPattern, witnessHead]

/-- The patterns are the byte templates for just the scripts that are no program behind an explicit
size. -/
theorem templates_exact_iff (currency : Currency) (bytes : DataChunk) :
    ((isPayScriptHashPattern (operations currency ⟨bytes⟩) = true ↔ IsPayScriptHashBytes bytes) ∧
      (isWitnessProgramPattern (operations currency ⟨bytes⟩) = true ↔ IsWitnessProgramBytes bytes) ∧
      (isCommitmentPattern (operations currency ⟨bytes⟩) = true ↔ IsCommitmentBytes bytes)) ↔
      ¬ IsSizedProgramBytes bytes := by
  constructor
  · rintro ⟨-, hwitness, -⟩ hsized
    exact not_isWitnessProgramBytes_of_sized hsized
      (hwitness.mp (isWitnessProgramPattern_iff.mpr (.inr hsized)))
  · intro hsized
    refine ⟨isPayScriptHashPattern_iff, ?_, isCommitmentPattern_iff⟩
    rw [isWitnessProgramPattern_iff]
    exact or_iff_left hsized

/-- A version and twenty bytes behind `4c 14` pass for a witness program. -/
theorem isWitnessProgramPattern_sized :
    isWitnessProgramPattern (operations .btc ⟨0x00 :: 0x4c :: 0x14 :: List.replicate 20 0⟩) = true ∧
      ¬ IsWitnessProgramBytes (0x00 :: 0x4c :: 0x14 :: List.replicate 20 0) := by
  refine ⟨by decide, not_isWitnessProgramBytes_of_sized ?_⟩
  exact ⟨0, replicate 20 0, .inl rfl, by decide, by decide, .inl rfl⟩

end BitprimCore.Script
