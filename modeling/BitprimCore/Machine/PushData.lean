import BitprimCore.Machine.Effect

/-!
# Pushing data

The operation made of data pushes that data. The one exception is the byte zero in minimal form,
which is taken for the number zero and pushes nothing. No operation that leaves the data on top of
the stack is shorter than the minimal form.
-/

namespace BitprimCore

namespace Operation

variable {data : DataChunk}

theorem opcodeFromPositive_ofNat (offset : Fin 16) :
    opcodeFromPositive (UInt8.ofNat (offset + 1)) = .pushPositive offset := by
  revert offset
  decide

/-- One to sixteen are the numbers behind an offset. -/
theorem exists_offset {value : UInt8} (hlow : Number.positive1 ≤ value)
    (hhigh : value ≤ Number.positive16) : ∃ offset : Fin 16, value = UInt8.ofNat (offset + 1) := by
  have hlow' : 1 ≤ value.toNat := UInt8.le_iff_toNat_le.mp hlow
  have hhigh' : value.toNat ≤ 16 := UInt8.le_iff_toNat_le.mp hhigh
  refine ⟨⟨value.toNat - 1, by omega⟩, ?_⟩
  rw [Nat.sub_add_cancel hlow', UInt8.ofNat_toNat]

theorem isPayload_opcodeFromSize {size : Nat} (h : 0 < size) : (opcodeFromSize size).isPayload := by
  have htable : ∀ count : Fin 76, 0 < count.val → (Opcode.pushSize count).isPayload := by
    decide
  unfold opcodeFromSize
  split_ifs with hsize
  · exact htable _ h
  · rfl
  · rfl
  · rfl

/-- The push of data without regard to numbers. -/
def nominalPush (data : DataChunk) : Operation where
  code := opcodeFromSize data.length
  data := data

theorem ofUncoded_false (h : data.length ≤ maxPushDataSize) :
    ofUncoded data false = nominalPush data := by
  rw [ofUncoded, if_neg (not_lt.mpr h)]
  rfl

/-- The minimal form is that of a number, or the nominal push. -/
theorem ofUncoded_true_cases (h : data.length ≤ maxPushDataSize) :
    (data = [Number.negative1] ∧ ofUncoded data true = { code := .pushNegative1 }) ∨
      (data = [Number.positive0] ∧ ofUncoded data true = { code := .pushSize 0 }) ∨
      (∃ offset : Fin 16, data = [UInt8.ofNat (offset + 1)] ∧
        ofUncoded data true = { code := .pushPositive offset }) ∨
      (data ≠ [Number.positive0] ∧ ofUncoded data true = nominalPush data) := by
  have hpush : ∀ code, minimalOpcodeFromData data = code → ofUncoded data true =
      { code, data := if code.isPayload then data else [] } := by
    rintro code rfl
    rw [ofUncoded, if_neg (not_lt.mpr h)]
    cases hpayload : (minimalOpcodeFromData data).isPayload <;>
      simp [opcodeFromData, hpayload]
  have hnominal : minimalOpcodeFromData data = opcodeFromSize data.length →
      ofUncoded data true = nominalPush data := by
    intro hcode
    rw [hpush _ hcode, nominalPush]
    cases data with
    | nil => rfl
    | cons byte bytes =>
      have hpayload := isPayload_opcodeFromSize (List.length_pos_of_ne_nil (List.cons_ne_nil byte bytes))
      rw [if_pos hpayload]
  match data with
  | [] => exact .inr (.inr (.inr ⟨by simp, hnominal rfl⟩))
  | [value] =>
    by_cases hneg : value = Number.negative1
    · refine .inl ⟨by rw [hneg], ?_⟩
      have hcode : minimalOpcodeFromData [value] = .pushNegative1 := by
        rw [hneg]
        decide
      rw [hpush _ hcode]
      rfl
    by_cases hzero : value = Number.positive0
    · refine .inr (.inl ⟨by rw [hzero], ?_⟩)
      have hcode : minimalOpcodeFromData [value] = .pushSize 0 := by
        rw [hzero]
        decide
      rw [hpush _ hcode]
      rfl
    have hne : [value] ≠ [Number.positive0] := by simpa using hzero
    by_cases hpos : Number.positive1 ≤ value ∧ value ≤ Number.positive16
    · obtain ⟨offset, hoffset⟩ := exists_offset hpos.1 hpos.2
      refine .inr (.inr (.inl ⟨offset, by rw [hoffset], ?_⟩))
      have hcode : minimalOpcodeFromData [value] = .pushPositive offset := by
        simp only [minimalOpcodeFromData, hneg, hzero, hpos, if_false, and_self, if_true]
        rw [hoffset, opcodeFromPositive_ofNat]
      rw [hpush _ hcode]
      have hnot : ∀ offset : Fin 16, (Opcode.pushPositive offset).isPayload = false := by decide
      simp [hnot offset]
    · refine .inr (.inr (.inr ⟨hne, hnominal ?_⟩))
      simp [minimalOpcodeFromData, hneg, hzero, hpos]
  | first :: second :: rest =>
    exact .inr (.inr (.inr ⟨by simp, hnominal rfl⟩))

theorem one_le_serializedSize (op : Operation) : 1 ≤ op.serializedSize := by
  rw [← length_toData]
  exact List.length_pos_of_ne_nil op.toData_ne_nil

theorem serializedSize_eq (op : Operation) :
    op.serializedSize = 1 + sizeWidth op.code + op.data.length := by
  rw [← length_toData, toData, List.length_cons, List.length_append, LittleEndian.length_ofNat]
  omega

theorem serializedSize_nominalPush (h : data.length ≤ maxPushDataSize) :
    (nominalPush data).serializedSize =
      data.length + if data.length ≤ 75 then 1 else if data.length ≤ maxUint8 then 2 else 3 := by
  have hsize : data.length ≤ maxUint16 := h.trans (by decide)
  unfold nominalPush opcodeFromSize
  split_ifs <;> simp only [serializedSize] <;> omega

/-- The minimal form is at most as long as the nominal push. -/
theorem serializedSize_ofUncoded_le (h : data.length ≤ maxPushDataSize) :
    (ofUncoded data true).serializedSize ≤ (nominalPush data).serializedSize := by
  have hone := one_le_serializedSize (nominalPush data)
  rcases ofUncoded_true_cases h with ⟨-, heq⟩ | ⟨-, heq⟩ | ⟨offset, -, heq⟩ | ⟨-, heq⟩
  · rw [heq]
    exact hone
  · rw [heq]
    exact hone
  · rw [heq]
    exact hone
  · rw [heq]


end Operation

namespace Interpreter

open Operation Program

variable {env : Env} {ctx : Context} {op : Operation} {data : DataChunk}

/-- In every program the operation pushes the data and changes nothing else. -/
def Pushes (env : Env) (ctx : Context) (op : Operation) (data : DataChunk) : Prop :=
  ∀ position p, runOp env ctx op position p = some (.success, p.pushMove data)

/-- In every program the operation succeeds and leaves the data on top of the primary stack. -/
def LeavesOnTop (env : Env) (ctx : Context) (op : Operation) (data : DataChunk) : Prop :=
  ∀ position p, ∃ q, runOp env ctx op position p = some (.success, q) ∧ q.primary.head? = some data

theorem pushes_nominalPush (h : data.length ≤ maxPushDataSize) :
    Pushes env ctx (nominalPush data) data := by
  intro position p
  have hsize : data.length ≤ maxUint16 := h.trans (by decide)
  unfold nominalPush opcodeFromSize
  split_ifs with hdirect hone
  · simp [runOp, opPushSize, hdirect]
  · simp [runOp, opPushData, hone]
  · simp [runOp, opPushData, hsize]

/-- The operation made of data pushes it, unless the byte zero is taken for a number. -/
theorem pushes_ofUncoded_iff (h : data.length ≤ maxPushDataSize) (minimal : Bool) :
    Pushes env ctx (ofUncoded data minimal) data ↔ ¬ (minimal ∧ data = [Number.positive0]) := by
  cases minimal with
  | false =>
    rw [ofUncoded_false h]
    exact iff_of_true (pushes_nominalPush h) (by simp)
  | true =>
    rcases ofUncoded_true_cases h with ⟨hdata, heq⟩ | ⟨hdata, heq⟩ | ⟨offset, hdata, heq⟩ | ⟨hne, heq⟩
    · rw [heq, hdata]
      exact iff_of_true (fun position p => rfl) (by decide)
    · rw [heq, hdata]
      refine iff_of_false (fun hpushes => ?_) (by simp)
      have hempty := hpushes none {}
      cases hempty
    · rw [heq, hdata]
      refine iff_of_true (fun position p => rfl) ?_
      have hpos : ∀ offset : Fin 16, [UInt8.ofNat (offset + 1)] ≠ [Number.positive0] := by decide
      exact fun hzero => hpos offset hzero.2
    · rw [heq]
      exact iff_of_true (pushes_nominalPush h) (fun hzero => hne hzero.2)

/-- What an operation leaves on top of an empty stack: nothing, a number, or its own data. -/
theorem top_of_empty {q : Program} (h : data.length ≤ maxPushDataSize)
    (hrun : runOp env ctx op none {} = some (.success, q)) (htop : q.primary.head? = some data) :
    data = [] ∨ (ofUncoded data true).serializedSize = 1 ∨
      (nominalPush data).serializedSize ≤ op.serializedSize := by
  rw [serializedSize_nominalPush h, serializedSize_eq op]
  unfold runOp at hrun
  cases hcode : op.code with
  | pushSize count =>
    simp only [hcode, opPushSize] at hrun
    split_ifs at hrun with hlimit
    · cases hrun
    · cases hrun
      cases htop
      rw [if_pos (Nat.le_of_not_lt hlimit)]
      exact .inr (.inr (by omega))
  | pushOneSize =>
    simp only [hcode, opPushData] at hrun
    split_ifs at hrun with hlimit
    · cases hrun
    · cases hrun
      cases htop
      rw [if_pos (Nat.le_of_not_lt hlimit)]
      refine .inr (.inr ?_)
      simp only [sizeWidth]
      split_ifs <;> omega
  | pushTwoSize | pushFourSize =>
    simp only [hcode, opPushData] at hrun
    split_ifs at hrun
    · cases hrun
    · cases hrun
      cases htop
      refine .inr (.inr ?_)
      simp only [sizeWidth]
      split_ifs <;> omega
  | pushNegative1 =>
    simp only [hcode] at hrun
    cases hrun
    cases htop
    exact .inr (.inl (by decide))
  | pushPositive offset =>
    simp only [hcode] at hrun
    cases hrun
    cases htop
    have hnum : ∀ offset : Fin 16,
        (ofUncoded [UInt8.ofNat (offset + 1)] true).serializedSize = 1 := by decide
    exact .inr (.inl (hnum offset))
  | depth | checksig | checkmultisig =>
    simp only [hcode] at hrun
    cases hrun
    cases htop
    exact .inl rfl
  | checklocktimeverify =>
    obtain ⟨result, hleaves, -⟩ := opCheckLocktimeVerify_leaves ctx {}
    simp only [hcode, hleaves] at hrun
    cases hrun
    cases htop
  | checksequenceverify =>
    obtain ⟨result, hleaves, -⟩ := opCheckSequenceVerify_leaves ctx {}
    simp only [hcode, hleaves] at hrun
    cases hrun
    cases htop
  | codeseparator =>
    simp only [hcode, opCodeseparator, setJumpRegister] at hrun
    split_ifs at hrun <;> cases hrun <;> cases htop
  | nop | nop1 | nop4 | nop5 | nop6 | nop7 | nop8 | nop9 | nop10 =>
    simp only [hcode] at hrun
    cases hrun
    cases htop
  | _ =>
    simp only [hcode] at hrun
    cases hrun

/-- No operation with the effect is shorter than the minimal form. -/
theorem serializedSize_ofUncoded_le_of_leaves (h : data.length ≤ maxPushDataSize)
    (hop : LeavesOnTop env ctx op data) :
    (ofUncoded data true).serializedSize ≤ op.serializedSize := by
  obtain ⟨q, hrun, htop⟩ := hop none {}
  rcases top_of_empty h hrun htop with rfl | hone | hnominal
  · exact one_le_serializedSize op
  · rw [hone]
    exact one_le_serializedSize op
  · exact (serializedSize_ofUncoded_le h).trans hnominal

/-- What the operation made of data is for: both forms push the data, and none that leaves it on top
is shorter than the minimal form. -/
structure PushesData (env : Env) (ctx : Context) (data : DataChunk) : Prop where
  pushes : ∀ minimal, Pushes env ctx (ofUncoded data minimal) data
  minimal : ∀ op, LeavesOnTop env ctx op data →
    (ofUncoded data true).serializedSize ≤ op.serializedSize

/-- Data that can be pushed is pushed, but for the byte zero in its minimal form. -/
theorem pushesData_iff (env : Env) (ctx : Context) (data : DataChunk)
    (h : data.length ≤ maxPushDataSize) : PushesData env ctx data ↔ data ≠ [0x00] := by
  constructor
  · intro hpushes hdata
    exact (pushes_ofUncoded_iff h true).mp (hpushes.pushes true) ⟨rfl, hdata⟩
  · intro hdata
    constructor
    · intro minimal
      exact (pushes_ofUncoded_iff h minimal).mpr fun hzero => hdata hzero.2
    · intro op hop
      exact serializedSize_ofUncoded_le_of_leaves h hop

/-- The minimal form of the byte zero pushes an empty element. -/
theorem minimal_zero_pushes_empty :
    runOp oneKeyEnv twoOfTwoContext (ofUncoded [0x00] true) none {} =
        some (.success, .ofStack [[]]) ∧
      ¬ PushesData oneKeyEnv twoOfTwoContext [0x00] := by
  have hrun : runOp oneKeyEnv twoOfTwoContext (ofUncoded [0x00] true) none {} =
      some (.success, .ofStack [[]]) := by decide
  refine ⟨hrun, fun hpushes => ?_⟩
  have hpush := hpushes.pushes true none {}
  rw [hrun] at hpush
  exact absurd hpush (by decide)

/-- The negative zero is no number of its own and is pushed in two bytes. -/
theorem pushesData_iff_negative_zero :
    ([0x80] : DataChunk).length ≤ maxPushDataSize ∧ PushesData oneKeyEnv twoOfTwoContext [0x80] :=
  ⟨by decide, (pushesData_iff oneKeyEnv twoOfTwoContext [0x80] (by decide)).mpr (by decide)⟩

end Interpreter

end BitprimCore
