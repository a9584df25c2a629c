import BitprimCore.Library.Execution
import BitprimCore.Machine.Signature

/-!
# The interpreter

The dispatch over opcodes and the evaluation loop (`machine/interpreter`).
-/

namespace BitprimCore.Interpreter

open Execution

variable (env : Env) (ctx : Context)

/-- Run one operation; `position` is where it stands in the script, if it does. -/
def runOp (op : Operation) (position : Option Nat) (p : Program) : Outcome :=
  match op.code with
  | .pushSize _ => opPushSize op p
  | .pushOneSize => opPushData op.data maxUint8 p
  | .pushTwoSize => opPushData op.data maxUint16 p
  | .pushFourSize => opPushData op.data maxUint32 p
  | .pushNegative1 => opPushNumber Number.negative1 p
  | .reserved80 => opReserved p
  | .pushPositive offset => opPushNumber (UInt8.ofNat (offset + 1)) p
  | .nop => opNop p
  | .reserved98 => opReserved p
  | .if_ => opIf p
  | .notif => opNotif p
  | .disabledVerif => opDisabled p
  | .disabledVernotif => opDisabled p
  | .else_ => opElse p
  | .endif => opEndif p
  | .verify => opVerify p
  | .return_ => opReturn p
  | .toaltstack => opToAltStack p
  | .fromaltstack => opFromAltStack p
  | .drop2 => opDrop2 p
  | .dup2 => opDup2 p
  | .dup3 => opDup3 p
  | .over2 => opOver2 p
  | .rot2 => opRot2 p
  | .swap2 => opSwap2 p
  | .ifdup => opIfDup p
  | .depth => opDepth p
  | .drop => opDrop p
  | .dup => opDup p
  | .nip => opNip p
  | .over_ => opOver p
  | .pick => opPick p
  | .roll => opRoll p
  | .rot => opRot p
  | .swap => opSwap p
  | .tuck => opTuck p
  | .disabledCat => opDisabled p
  | .disabledSubstr => opDisabled p
  | .disabledLeft => opDisabled p
  | .disabledRight => opDisabled p
  | .size => opSize p
  | .disabledInvert => opDisabled p
  | .disabledAnd => opDisabled p
  | .disabledOr => opDisabled p
  | .disabledXor => opDisabled p
  | .equal => opEqual p
  | .equalverify => opEqualVerify p
  | .reserved137 => opReserved p
  | .reserved138 => opReserved p
  | .add1 => opAdd1 p
  | .sub1 => opSub1 p
  | .disabledMul2 => opDisabled p
  | .disabledDiv2 => opDisabled p
  | .negate => opNegate p
  | .abs => opAbs p
  | .not_ => opNot p
  | .nonzero => opNonzero p
  | .add => opAdd p
  | .sub => opSub p
  | .disabledMul => opDisabled p
  | .disabledDiv => opDisabled p
  | .disabledMod => opDisabled p
  | .disabledLshift => opDisabled p
  | .disabledRshift => opDisabled p
  | .booland => opBoolAnd p
  | .boolor => opBoolOr p
  | .numequal => opNumEqual p
  | .numequalverify => opNumEqualVerify p
  | .numnotequal => opNumNotEqual p
  | .lessthan => opLessThan p
  | .greaterthan => opGreaterThan p
  | .lessthanorequal => opLessThanOrEqual p
  | .greaterthanorequal => opGreaterThanOrEqual p
  | .min => opMin p
  | .max => opMax p
  | .within => opWithin p
  | .ripemd160 => opRipemd160 env.hashes p
  | .sha1 => opSha1 env.hashes p
  | .sha256 => opSha256 env.hashes p
  | .hash160 => opHash160 env.hashes p
  | .hash256 => opHash256 env.hashes p
  | .codeseparator => opCodeseparator p (ctx.operations env) position
  | .checksig => opCheckSig env ctx p
  | .checksigverify => opCheckSigVerify env ctx p
  | .checkmultisig => opCheckMultisig env ctx p
  | .checkmultisigverify => opCheckMultisigVerify env ctx p
  | .nop1 => opNop p
  | .checklocktimeverify => opCheckLocktimeVerify ctx p
  | .checksequenceverify => opCheckSequenceVerify ctx p
  | .nop4 | .nop5 | .nop6 | .nop7 | .nop8 | .nop9 | .nop10 => opNop p
  | .reserved _ => opReserved p

/-- One turn of the evaluation loop. -/
def step (item : Operation × Nat) (p : Program) : Option (Signal Program ErrorCode) :=
  let (op, index) := item
  if op.isOversized then some (.stop .invalidPushDataSize p)
  else if op.code.isDisabled then some (.stop .opDisabled p)
  else
    let (counted, p) := p.incrementOperationCount op
    if !counted then some (.stop .invalidOperationCount p)
    else if p.if_ op then do
      let (result, p) ← runOp env ctx op (some index) p
      if result ≠ .success then return .stop result p
      else if p.isStackOverflow then return .stop .invalidStackSize p
      else return .next p
    else some (.next p)

/-- Can the script of the program be evaluated at all (`program::is_valid`)? -/
def isValid : Bool :=
  ctx.script.isValidOperations env.currency && !ctx.script.isUnspendable env.currency

/-- Evaluate the script of the program. -/
def run (p : Program) : Outcome :=
  if !isValid env ctx then some (.invalidScript, p)
  else do
    match ← loop (step env ctx) (ctx.operations env).zipIdx p with
    | .stop result p => return (result, p)
    | .next p => return (if p.closed then .success else .invalidStackScope, p)

variable {env : Env} {ctx : Context} {p q : Program}

/-- A step goes on exactly when the operation is within the limits and, if executed, succeeds. -/
theorem step_eq_next_iff {op : Operation} {index : Nat} :
    step env ctx (op, index) p = some (.next q) ↔
      op.isOversized = false ∧ op.code.isDisabled = false ∧
        (p.incrementOperationCount op).1 ∧
        if (p.incrementOperationCount op).2.if_ op = true then
          runOp env ctx op (some index) (p.incrementOperationCount op).2 = some (.success, q) ∧
            q.isStackOverflow = false
        else q = (p.incrementOperationCount op).2 := by
  simp only [step]
  generalize p.incrementOperationCount op = counted
  cases op.isOversized
  · cases op.code.isDisabled
    · cases counted.1
      · simp
      · by_cases hif : counted.2.if_ op = true
        · simp only [hif, if_true]
          rcases runOp env ctx op (some index) counted.2 with _ | ⟨result, r⟩
          · simp
          · by_cases hres : result = .success
            · cases hover : r.isStackOverflow <;> simp [hres, hover] <;> grind
            · simp [hres]
        · simp [hif, eq_comm]
    · simp
  · simp

/-- The loop is never left with success. -/
theorem step_stop {item : Operation × Nat} {result : ErrorCode}
    (h : step env ctx item p = some (.stop result q)) : result ≠ .success := by
  obtain ⟨op, index⟩ := item
  simp only [step] at h
  split_ifs at h
  · cases h
    simp
  · cases h
    simp
  · cases h
    simp
  · obtain ⟨⟨code, r⟩, -, h⟩ := Option.bind_eq_some_iff.mp h
    dsimp only at h
    split_ifs at h with hcode
    · cases h
      exact hcode
    · cases h
      simp
    · cases h
  · cases h

/-- A run succeeds exactly when its script is valid, the loop runs through and no condition is left
open. -/
theorem run_eq_success_iff :
    run env ctx p = some (.success, q) ↔
      isValid env ctx ∧
        loop (step env ctx) (ctx.operations env).zipIdx p = some (.next q) ∧ q.closed := by
  unfold run
  cases isValid env ctx with
  | false => simp
  | true =>
    cases hloop : loop (step env ctx) (ctx.operations env).zipIdx p with
    | none => simp
    | some signal =>
      cases signal with
      | stop result r =>
        have hres : result ≠ .success :=
          loop_stop (· ≠ .success) (fun _ _ _ _ h => step_stop h) hloop
        simp [hres]
      | next r => cases hclosed : r.closed <;> simp [hclosed] <;> grind

end BitprimCore.Interpreter
