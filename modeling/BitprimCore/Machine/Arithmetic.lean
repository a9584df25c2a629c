import BitprimCore.Machine.Operands

/-!
# Arithmetic operations

The arithmetic handlers as they compute: on numbers of 64 bits, by operators that assert that they
do not overflow. The numbers that are popped have four bytes, so no assertion fails and each
handler is the one on integers. What it pushes is the result of the integers, in at most five
bytes.
-/

namespace BitprimCore

open SignMagnitude (value value_zero_cons value_cons_eq_zero_iff)

namespace Number

/-- `operator+`, with its assertion. -/
def add64 (a b : BitVec 64) : Option (BitVec 64) :=
  if b.toInt = 0 ∨ (b.toInt > 0 ∧ a.toInt ≤ maxInt64 - b.toInt) ∨
      (b.toInt < 0 ∧ a.toInt ≥ minInt64 - b.toInt) then some (a + b)
  else none

/-- `operator-`, with its assertion. -/
def sub64 (a b : BitVec 64) : Option (BitVec 64) :=
  if b.toInt = 0 ∨ (b.toInt > 0 ∧ a.toInt ≥ minInt64 + b.toInt) ∨
      (b.toInt < 0 ∧ a.toInt ≤ maxInt64 + b.toInt) then some (a - b)
  else none

/-- The unary `operator-`, with its assertion. -/
def neg64 (a : BitVec 64) : Option (BitVec 64) :=
  if a.toInt ≠ minInt64 then some (-a) else none

/-- The number has the magnitude of one that is popped. -/
def Small (a : BitVec 64) : Prop := a.toInt.natAbs < 2 ^ 31

variable {a b : BitVec 64}

theorem add64_of_small (ha : Small a) (hb : Small b) :
    ∃ c, add64 a b = some c ∧ c.toInt = a.toInt + b.toInt := by
  unfold Small at ha hb
  refine ⟨a + b, ?_, ?_⟩
  · rw [add64, if_pos]
    simp only [maxInt64, minInt64]
    omega
  · rw [BitVec.toInt_add]
    apply Int.bmod_eq_of_le <;> omega

theorem sub64_of_small (ha : Small a) (hb : Small b) :
    ∃ c, sub64 a b = some c ∧ c.toInt = a.toInt - b.toInt := by
  unfold Small at ha hb
  refine ⟨a - b, ?_, ?_⟩
  · rw [sub64, if_pos]
    simp only [maxInt64, minInt64]
    omega
  · rw [BitVec.toInt_sub]
    apply Int.bmod_eq_of_le <;> omega

theorem neg64_of_small (ha : Small a) : ∃ c, neg64 a = some c ∧ c.toInt = -a.toInt := by
  unfold Small at ha
  refine ⟨-a, ?_, ?_⟩
  · rw [neg64, if_pos]
    simp only [minInt64]
    omega
  · rw [BitVec.toInt_neg]
    apply Int.bmod_eq_of_le <;> omega

/-- A number that is popped is small, and the same as the integer. -/
theorem setData64_cases (item : DataChunk) :
    (setData64 item maxNumberSize = none ∧ setData item maxNumberSize = none) ∨
      ∃ a, setData64 item maxNumberSize = some a ∧ Small a ∧
        setData item maxNumberSize = some a.toInt := by
  by_cases hlong : maxNumberSize < item.length
  · exact .inl ⟨by rw [setData64, if_pos hlong], setData_eq_none hlong⟩
  · have hlen : item.length ≤ maxNumberSize := Nat.le_of_not_lt hlong
    have hread := setData64_toInt (hlen.trans (by decide)) maxNumberSize
    rw [setData_eq_value hlen] at hread ⊢
    obtain ⟨a, ha, hval⟩ := Option.map_eq_some_iff.mp hread
    refine .inr ⟨a, ha, ?_, by rw [hval]⟩
    rw [Small, hval]
    exact (natAbs_lt_of_setData (setData_eq_value hlen)).2

end Number

open Number

namespace Program

variable (p : Program)

/-- Pops in 64 bits. -/
def popNumber64 (maximumSize : Nat) : Option (Option (BitVec 64) × Program) :=
  if p.isEmpty then some (none, p)
  else do
    let (item, p) ← p.pop
    return (setData64 item maximumSize, p)

def popBinary64 : Option (Option (BitVec 64 × BitVec 64) × Program) := do
  let (first, p) ← p.popNumber64 maxNumberSize
  match first with
  | none => return (none, p)
  | some first =>
    let (second, p) ← p.popNumber64 maxNumberSize
    return (second.map fun second => (first, second), p)

def popTernary64 : Option (Option (BitVec 64 × BitVec 64 × BitVec 64) × Program) := do
  let (pair, p) ← p.popBinary64
  match pair with
  | none => return (none, p)
  | some (first, second) =>
    let (third, p) ← p.popNumber64 maxNumberSize
    return (third.map fun third => (first, second, third), p)

/-- What is popped as a number is popped as an integer. -/
theorem popNumber64_cases :
    (∃ q, p.popNumber64 maxNumberSize = some (none, q) ∧
      p.popNumber maxNumberSize = some (none, q)) ∨
      ∃ a q, p.popNumber64 maxNumberSize = some (some a, q) ∧ Small a ∧
        p.popNumber maxNumberSize = some (some a.toInt, q) := by
  cases hprimary : p.primary with
  | nil =>
    have hempty : p.isEmpty := isEmpty_eq_true_iff.mpr hprimary
    exact .inl ⟨p, by simp [popNumber64, hempty], by simp [popNumber, hempty]⟩
  | cons item rest =>
    have hempty : p.isEmpty = false := by simp [isEmpty, hprimary]
    have hpop := pop_of_primary hprimary
    have hpop64 : p.popNumber64 maxNumberSize =
        some (setData64 item maxNumberSize, p.withPrimary rest) := by
      simp [popNumber64, hempty, hpop]
    have hpopInt : p.popNumber maxNumberSize =
        some (setData item maxNumberSize, p.withPrimary rest) := by
      simp [popNumber, hempty, hpop]
    rw [hpop64, hpopInt]
    rcases setData64_cases item with ⟨h64, hint⟩ | ⟨a, h64, hsmall, hint⟩
    · exact .inl ⟨_, by rw [h64], by rw [hint]⟩
    · exact .inr ⟨a, _, by rw [h64], hsmall, by rw [hint]⟩

theorem popBinary64_cases :
    (∃ q, p.popBinary64 = some (none, q) ∧ p.popBinary = some (none, q)) ∨
      ∃ a b q, p.popBinary64 = some (some (a, b), q) ∧ Small a ∧ Small b ∧
        p.popBinary = some (some (a.toInt, b.toInt), q) := by
  rcases popNumber64_cases p with ⟨q, h64, hint⟩ | ⟨a, q, h64, ha, hint⟩
  · exact .inl ⟨q, by simp [popBinary64, h64], by simp [popBinary, hint]⟩
  · rcases popNumber64_cases q with ⟨r, h64', hint'⟩ | ⟨b, r, h64', hb, hint'⟩
    · exact .inl ⟨r, by simp [popBinary64, h64, h64'], by simp [popBinary, hint, hint']⟩
    · exact .inr ⟨a, b, r, by simp [popBinary64, h64, h64'], ha, hb,
        by simp [popBinary, hint, hint']⟩

theorem popTernary64_cases :
    (∃ q, p.popTernary64 = some (none, q) ∧ p.popTernary = some (none, q)) ∨
      ∃ a b c q, p.popTernary64 = some (some (a, b, c), q) ∧
        p.popTernary = some (some (a.toInt, b.toInt, c.toInt), q) := by
  rcases popBinary64_cases p with ⟨q, h64, hint⟩ | ⟨a, b, q, h64, -, -, hint⟩
  · exact .inl ⟨q, by simp [popTernary64, h64], by simp [popTernary, hint]⟩
  · rcases popNumber64_cases q with ⟨r, h64', hint'⟩ | ⟨c, r, h64', -, hint'⟩
    · exact .inl ⟨r, by simp [popTernary64, h64, h64'], by simp [popTernary, hint, hint']⟩
    · exact .inr ⟨a, b, c, r, by simp [popTernary64, h64, h64'], by simp [popTernary, hint, hint']⟩

end Program

namespace Interpreter

/-- Replace the number at the top by a result whose computation may violate an assertion. -/
def unaryNumber64 (failure : ErrorCode) (result : BitVec 64 → Option DataChunk) : Handler :=
  fun p => do
    let (number, p) ← p.popNumber64 maxNumberSize
    match number with
    | none => return (failure, p)
    | some number => (result number).map fun data => (.success, p.pushMove data)

/-- The same for two numbers; the first argument is the topmost. -/
def binaryNumber64 (failure : ErrorCode) (result : BitVec 64 → BitVec 64 → Option DataChunk) :
    Handler := fun p => do
  let (numbers, p) ← p.popBinary64
  match numbers with
  | none => return (failure, p)
  | some (first, second) => (result first second).map fun data => (.success, p.pushMove data)

def opNumEqualVerify64 : Handler := fun p => do
  let (numbers, p) ← p.popBinary64
  match numbers with
  | none => return (.opNumEqualVerify1, p)
  | some (first, second) =>
    return (if first.toInt = second.toInt then .success else .opNumEqualVerify2, p)

def opWithin64 : Handler := fun p => do
  let (numbers, p) ← p.popTernary64
  match numbers with
  | none => return (.opWithin, p)
  | some (first, second, third) =>
    return (.success, p.push (second.toInt ≤ third.toInt && third.toInt < first.toInt))

/-- The arithmetic handlers on numbers of 64 bits. -/
def arithmetic64 : Opcode → Option Handler
  | .add1 => some (unaryNumber64 .opAdd1 fun number => (add64 number 1).map data64)
  | .sub1 => some (unaryNumber64 .opSub1 fun number => (sub64 number 1).map data64)
  | .negate => some (unaryNumber64 .opNegate fun number => (neg64 number).map data64)
  | .abs => some (unaryNumber64 .opAbs fun number =>
    (if number.toInt < 0 then neg64 number else some number).map data64)
  | .not_ => some (unaryNumber64 .opNot fun number => some (boolData (number.toInt == 0)))
  | .nonzero => some (unaryNumber64 .opNonzero fun number => some (boolData (number.toInt != 0)))
  | .add => some (binaryNumber64 .opAdd fun first second => (add64 first second).map data64)
  | .sub => some (binaryNumber64 .opSub fun first second => (sub64 second first).map data64)
  | .booland => some (binaryNumber64 .opBoolAnd fun first second =>
    some (boolData (first.toInt != 0 && second.toInt != 0)))
  | .boolor => some (binaryNumber64 .opBoolOr fun first second =>
    some (boolData (first.toInt != 0 || second.toInt != 0)))
  | .numequal => some (binaryNumber64 .opNumEqual fun first second =>
    some (boolData (first.toInt == second.toInt)))
  | .numequalverify => some opNumEqualVerify64
  | .numnotequal => some (binaryNumber64 .opNumNotEqual fun first second =>
    some (boolData (first.toInt != second.toInt)))
  | .lessthan => some (binaryNumber64 .opLessThan fun first second =>
    some (boolData (second.toInt < first.toInt)))
  | .greaterthan => some (binaryNumber64 .opGreaterThan fun first second =>
    some (boolData (second.toInt > first.toInt)))
  | .lessthanorequal => some (binaryNumber64 .opLessThanOrEqual fun first second =>
    some (boolData (second.toInt ≤ first.toInt)))
  | .greaterthanorequal => some (binaryNumber64 .opGreaterThanOrEqual fun first second =>
    some (boolData (second.toInt ≥ first.toInt)))
  | .min => some (binaryNumber64 .opMin fun first second =>
    some (if second.toInt < first.toInt then data64 second else data64 first))
  | .max => some (binaryNumber64 .opMax fun first second =>
    some (if second.toInt > first.toInt then data64 second else data64 first))
  | .within => some opWithin64
  | _ => none

theorem unaryNumber64_eq {failure : ErrorCode} {result64 : BitVec 64 → Option DataChunk}
    {result : Int → DataChunk} (h : ∀ a, Number.Small a → result64 a = some (result a.toInt))
    (p : Program) : unaryNumber64 failure result64 p = unaryNumber failure result p := by
  rcases p.popNumber64_cases with ⟨q, h64, hint⟩ | ⟨a, q, h64, hsmall, hint⟩
  · simp [unaryNumber64, unaryNumber, h64, hint]
  · simp [unaryNumber64, unaryNumber, h64, hint, h a hsmall]

theorem binaryNumber64_eq {failure : ErrorCode}
    {result64 : BitVec 64 → BitVec 64 → Option DataChunk} {result : Int → Int → DataChunk}
    (h : ∀ a b, Number.Small a → Number.Small b → result64 a b = some (result a.toInt b.toInt))
    (p : Program) : binaryNumber64 failure result64 p = binaryNumber failure result p := by
  rcases p.popBinary64_cases with ⟨q, h64, hint⟩ | ⟨a, b, q, h64, ha, hb, hint⟩
  · simp [binaryNumber64, binaryNumber, h64, hint]
  · simp [binaryNumber64, binaryNumber, h64, hint, h a b ha hb]

theorem opNumEqualVerify64_eq (p : Program) : opNumEqualVerify64 p = opNumEqualVerify p := by
  rcases p.popBinary64_cases with ⟨q, h64, hint⟩ | ⟨a, b, q, h64, -, -, hint⟩
  · simp [opNumEqualVerify64, opNumEqualVerify, h64, hint]
  · simp [opNumEqualVerify64, opNumEqualVerify, h64, hint]

theorem opWithin64_eq (p : Program) : opWithin64 p = opWithin p := by
  rcases p.popTernary64_cases with ⟨q, h64, hint⟩ | ⟨a, b, c, q, h64, hint⟩
  · simp [opWithin64, opWithin, h64, hint]
  · simp [opWithin64, opWithin, h64, hint]

/-- A result that is checked is written as the integer. -/
theorem map_data64 {checked : Option (BitVec 64)} {result : Int}
    (h : ∃ c, checked = some c ∧ c.toInt = result) :
    checked.map data64 = some (Number.data result) := by
  obtain ⟨c, rfl, rfl⟩ := h
  rw [Option.map_some, data64_eq]

theorem small_one : Small 1 := by
  show (BitVec.toInt 1).natAbs < 2 ^ 31
  decide

/-- The handler on 64 bits is the handler of the interpreter, whatever the program. -/
theorem runOp_eq_arithmetic64 {op : Operation} {handler : Handler}
    (h : arithmetic64 op.code = some handler) (env : Env) (ctx : Context)
    (position : Option Nat) (p : Program) : runOp env ctx op position p = handler p := by
  obtain ⟨code, data, valid⟩ := op
  symm
  cases code with
  | add1 =>
    cases h
    apply unaryNumber64_eq
    intro a ha
    exact map_data64 (add64_of_small ha small_one)
  | sub1 =>
    cases h
    apply unaryNumber64_eq
    intro a ha
    exact map_data64 (sub64_of_small ha small_one)
  | negate =>
    cases h
    apply unaryNumber64_eq
    intro a ha
    exact map_data64 (neg64_of_small ha)
  | abs =>
    cases h
    apply unaryNumber64_eq
    intro a ha
    apply map_data64
    split_ifs with hneg
    · exact neg64_of_small ha
    · exact ⟨a, rfl, rfl⟩
  | add =>
    cases h
    apply binaryNumber64_eq
    intro a b ha hb
    exact map_data64 (add64_of_small ha hb)
  | sub =>
    cases h
    apply binaryNumber64_eq
    intro a b ha hb
    exact map_data64 (sub64_of_small hb ha)
  | min | max =>
    cases h
    apply binaryNumber64_eq
    intro a b _ _
    rw [data64_eq, data64_eq, apply_ite Number.data]
  | numequalverify =>
    cases h
    exact opNumEqualVerify64_eq p
  | within =>
    cases h
    exact opWithin64_eq p
  | not_ | nonzero =>
    cases h
    apply unaryNumber64_eq
    intro a _
    rfl
  | booland | boolor | numequal | numnotequal | lessthan | greaterthan | lessthanorequal
  | greaterthanorequal =>
    cases h
    apply binaryNumber64_eq
    intro a b _ _
    rfl
  | _ => cases h

/-- The integer that an operation makes of one operand. -/
def unaryFunction : Opcode → Option (Int → Int)
  | .add1 => some fun a => a + 1
  | .sub1 => some fun a => a - 1
  | .negate => some fun a => -a
  | .abs => some fun a => |a|
  | .not_ => some fun a => (decide (a = 0)).toInt
  | .nonzero => some fun a => (decide (a ≠ 0)).toInt
  | _ => none

/-- The integer that an operation makes of two operands; the second is the topmost. -/
def binaryFunction : Opcode → Option (Int → Int → Int)
  | .add => some fun a b => a + b
  | .sub => some fun a b => a - b
  | .booland => some fun a b => (decide (a ≠ 0 ∧ b ≠ 0)).toInt
  | .boolor => some fun a b => (decide (a ≠ 0 ∨ b ≠ 0)).toInt
  | .numequal => some fun a b => (decide (a = b)).toInt
  | .numnotequal => some fun a b => (decide (a ≠ b)).toInt
  | .lessthan => some fun a b => (decide (a < b)).toInt
  | .greaterthan => some fun a b => (decide (a > b)).toInt
  | .lessthanorequal => some fun a b => (decide (a ≤ b)).toInt
  | .greaterthanorequal => some fun a b => (decide (a ≥ b)).toInt
  | .min => some fun a b => min a b
  | .max => some fun a b => max a b
  | _ => none

theorem boolData_of_iff {truth : Bool} {P : Prop} [Decidable P] (h : truth ↔ P) :
    boolData truth = Number.data (decide P).toInt := by
  obtain rfl : truth = decide P := Bool.eq_iff_iff.mpr (h.trans decide_eq_true_iff.symm)
  cases decide P <;> rfl

theorem natAbs_toInt_le (truth : Bool) : truth.toInt.natAbs ≤ 1 := by
  cases truth <;> decide

section

variable {env : Env} {ctx : Context} {position : Option Nat} {op : Operation} {p : Program}
  {failure : ErrorCode} {top below third : DataChunk} {rest : List DataChunk} {a b c : Int}
  {code : Opcode} {item : DataChunk} {f : Int → Int → Int}

theorem unaryNumber_of_read {result : Int → DataChunk} (hprimary : p.primary = top :: rest)
    (ha : setData top maxNumberSize = some a) (hres : result a = item) :
    unaryNumber failure result p = some (.success, p.withPrimary (item :: rest)) := by
  simp [unaryNumber, Program.popNumber_eq, hprimary, ha, hres, Program.pushMove]

theorem binaryNumber_of_read {result : Int → Int → DataChunk}
    (hprimary : p.primary = top :: below :: rest) (hb : setData top maxNumberSize = some b)
    (ha : setData below maxNumberSize = some a) (hres : result b a = item) :
    binaryNumber failure result p = some (.success, p.withPrimary (item :: rest)) := by
  simp [binaryNumber, Program.popBinary, Program.popNumber_eq, hprimary, ha, hb, hres,
    Program.pushMove]

/-- An operation of one operand pushes the encoding of its function. -/
theorem runOp_unary {f : Int → Int} (h : unaryFunction op.code = some f)
    (hprimary : p.primary = top :: rest) (ha : setData top maxNumberSize = some a) :
    runOp env ctx op position p = some (.success, p.withPrimary (Number.data (f a) :: rest)) := by
  obtain ⟨code, data, valid⟩ := op
  cases code with
  | add1 | sub1 | negate =>
    cases h
    exact unaryNumber_of_read hprimary ha rfl
  | abs =>
    cases h
    apply unaryNumber_of_read hprimary ha
    split_ifs with hneg
    · exact congrArg Number.data (abs_of_neg hneg).symm
    · exact congrArg Number.data (abs_of_nonneg (Int.not_lt.mp hneg)).symm
  | not_ | nonzero =>
    cases h
    apply unaryNumber_of_read hprimary ha
    apply boolData_of_iff
    simp
  | _ => cases h

theorem natAbs_unary_le {f : Int → Int} (h : unaryFunction code = some f) (a : Int) :
    (f a).natAbs ≤ a.natAbs + 1 := by
  cases code with
  | add1 | sub1 | negate =>
    cases h
    dsimp only
    omega
  | abs =>
    cases h
    dsimp only
    rw [Int.natAbs_abs]
    omega
  | not_ | nonzero =>
    cases h
    exact (natAbs_toInt_le _).trans (Nat.le_add_left 1 _)
  | _ => cases h

/-- An operation of two operands pushes the encoding of its function. -/
theorem runOp_binary (h : binaryFunction op.code = some f)
    (hprimary : p.primary = top :: below :: rest) (hb : setData top maxNumberSize = some b)
    (ha : setData below maxNumberSize = some a) :
    runOp env ctx op position p = some (.success, p.withPrimary (Number.data (f a b) :: rest)) := by
  obtain ⟨code, data, valid⟩ := op
  cases code with
  | add =>
    cases h
    apply binaryNumber_of_read hprimary hb ha
    exact congrArg Number.data (Int.add_comm b a)
  | sub =>
    cases h
    exact binaryNumber_of_read hprimary hb ha rfl
  | min =>
    cases h
    apply binaryNumber_of_read hprimary hb ha
    apply congrArg Number.data
    dsimp only
    split_ifs <;> omega
  | max =>
    cases h
    apply binaryNumber_of_read hprimary hb ha
    apply congrArg Number.data
    dsimp only
    split_ifs <;> omega
  | booland | boolor | numequal | numnotequal | lessthan | greaterthan | lessthanorequal
  | greaterthanorequal =>
    cases h
    apply binaryNumber_of_read hprimary hb ha
    apply boolData_of_iff
    grind
  | _ => cases h

theorem natAbs_binary_le (h : binaryFunction code = some f) (a b : Int) :
    (f a b).natAbs ≤ a.natAbs + b.natAbs + 1 := by
  cases code with
  | add | sub | min | max =>
    cases h
    dsimp only
    omega
  | booland | boolor | numequal | numnotequal | lessthan | greaterthan | lessthanorequal
  | greaterthanorequal =>
    cases h
    exact (natAbs_toInt_le _).trans (Nat.le_add_left 1 _)
  | _ => cases h

/-- Operands of four bytes have a result of at most five. -/
theorem length_data_le_five {f : Int} (ha : a.natAbs < 2 ^ 31) (hb : b.natAbs < 2 ^ 31)
    (hf : f.natAbs ≤ a.natAbs + b.natAbs + 1) : (Number.data f).length ≤ 5 := by
  apply length_data_le
  · omega
  · omega

end

/-- An operand is true when its number is not zero. -/
theorem dataToBool_iff (data : DataChunk) : dataToBool data ↔ value data ≠ 0 := by
  induction data with
  | nil => simp [dataToBool, value, SignMagnitude.isNegative]
  | cons byte bytes ih =>
    by_cases hbyte : byte = 0
    · subst hbyte
      rw [ne_eq, value_zero_cons]
      simpa [dataToBool] using ih
    · rw [ne_eq, value_cons_eq_zero_iff hbyte, not_and_or]
      simp [dataToBool, hbyte, Number.negative0]

/-- Script numbers are written in the only shortest way and read back, reading is by sign and
magnitude, and arithmetic on what is popped is exact: no assertion fails, and the encoding of the
result is pushed in at most five bytes. -/
theorem script_numbers (env : Env) (ctx : Context) (position : Option Nat) (p : Program) :
    (∀ v : BitVec 64, v.toInt ≠ minInt64 →
      setData64 (data64 v) 8 = some v ∧
        ∀ bytes : DataChunk, bytes.length ≤ (data64 v).length → setData64 bytes 8 = some v →
          bytes = data64 v) ∧
    (∀ bytes : DataChunk, bytes.length ≤ 8 →
      (setData64 bytes 8).map BitVec.toInt = some (value bytes)) ∧
    (∀ op handler, arithmetic64 op.code = some handler →
      (handler p).isSome ∧ runOp env ctx op position p = handler p) ∧
    (∀ op f top rest a, unaryFunction op.code = some f → p.primary = top :: rest →
      setData top maxNumberSize = some a →
        runOp env ctx op position p = some (.success, p.withPrimary (Number.data (f a) :: rest)) ∧
          (Number.data (f a)).length ≤ 5) ∧
    (∀ op f top below rest a b, binaryFunction op.code = some f →
      p.primary = top :: below :: rest → setData top maxNumberSize = some b →
      setData below maxNumberSize = some a →
        runOp env ctx op position p = some (.success, p.withPrimary (Number.data (f a b) :: rest)) ∧
          (Number.data (f a b)).length ≤ 5) ∧
    (∀ op top below rest a b, op.code = .numequalverify → p.primary = top :: below :: rest →
      setData top maxNumberSize = some b → setData below maxNumberSize = some a →
        runOp env ctx op position p =
          some (if a = b then .success else .opNumEqualVerify2, p.withPrimary rest)) ∧
    (∀ op top below third rest a b c, op.code = .within →
      p.primary = top :: below :: third :: rest → setData top maxNumberSize = some c →
      setData below maxNumberSize = some b → setData third maxNumberSize = some a →
        runOp env ctx op position p = some (.success,
          p.withPrimary (Number.data (decide (b ≤ a ∧ a < c)).toInt :: rest))) ∧
    (∀ top rest a, p.primary = top :: rest → setData top maxNumberSize = some a →
      p.stackToBool false = some (decide (a ≠ 0))) := by
  refine ⟨?codec, ?reading, ?assertions, ?unary, ?binary, ?verify, ?within, ?truth⟩
  case codec =>
    intro v hv
    exact ⟨setData64_data64 hv, fun bytes hlength hread => eq_data64_of_length_le hv hlength hread⟩
  case reading =>
    intro bytes hlength
    rw [setData64_toInt hlength, setData_eq_value hlength]
  case assertions =>
    intro op handler h
    have heq := runOp_eq_arithmetic64 h env ctx position p
    exact ⟨heq ▸ runOp_isSome env ctx op position p, heq⟩
  case unary =>
    intro op f top rest a h hprimary ha
    have hlt := (natAbs_lt_of_setData ha).2
    exact ⟨runOp_unary h hprimary ha,
      length_data_le_five hlt (show (0 : Int).natAbs < 2 ^ 31 by decide) (natAbs_unary_le h a)⟩
  case binary =>
    intro op f top below rest a b h hprimary hb ha
    exact ⟨runOp_binary h hprimary hb ha,
      length_data_le_five (natAbs_lt_of_setData ha).2 (natAbs_lt_of_setData hb).2
        (natAbs_binary_le h a b)⟩
  case verify =>
    intro op top below rest a b hop hprimary hb ha
    simp [runOp, hop, opNumEqualVerify, Program.popBinary, Program.popNumber_eq, hprimary, ha, hb,
      eq_comm]
  case within =>
    intro op top below third rest a b c hop hprimary hc hb ha
    have hdata : boolData (decide (b ≤ a) && decide (a < c)) =
        Number.data (decide (b ≤ a ∧ a < c)).toInt := by
      apply boolData_of_iff
      simp
    rw [← hdata]
    simp [runOp, hop, opWithin, Program.popTernary, Program.popBinary, Program.popNumber_eq,
      hprimary, ha, hb, hc, Program.push, Program.pushMove, boolData]
  case truth =>
    intro top rest a hprimary ha
    have htrue : dataToBool top = decide (a ≠ 0) := by
      apply Bool.eq_iff_iff.mpr
      rw [dataToBool_iff, (natAbs_lt_of_setData ha).1, decide_eq_true_iff]
    simp [Program.stackToBool, Program.item, hprimary, htrue]

end Interpreter

end BitprimCore
