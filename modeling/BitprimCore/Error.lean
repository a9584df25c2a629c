import Mathlib.Init

/-!
# Validation and script error codes

The codes of `error.hpp` that header, block, transaction and script validation return, and those of
the wallet functions that create transactions. The codes of the network and database layers and the
unused numbered placeholders are left out.
-/

namespace BitprimCore

/-- A result code (`error::error_code_t`); `success` is the only one that is not an error. -/
inductive ErrorCode
  -- general and network codes
  | success
  | operationFailed
  | notFound
  -- check header
  | invalidProofOfWork
  | futuristicTimestamp
  -- accept header
  | checkpointsFailed
  | oldVersionBlock
  | incorrectProofOfWork
  | timestampTooEarly
  -- check block
  | blockSizeLimit
  | emptyBlock
  | firstNotCoinbase
  | extraCoinbases
  | internalDuplicate
  | blockInternalDoubleSpend
  | forwardReference
  | merkleMismatch
  | blockLegacySigopLimit
  | nonCanonicalOrdered
  -- accept block
  | blockNonFinal
  | coinbaseHeightMismatch
  | coinbaseValueLimit
  | blockEmbeddedSigopLimit
  | invalidWitnessCommitment
  | blockWeightLimit
  -- check transaction
  | emptyTransaction
  | previousOutputNull
  | spendOverflow
  | invalidCoinbaseScriptSize
  | coinbaseTransaction
  | transactionInternalDoubleSpend
  | transactionSizeLimit
  | transactionLegacySigopLimit
  -- accept transaction
  | transactionNonFinal
  | prematureValidation
  | unspentDuplicate
  | missingPreviousOutput
  | doubleSpend
  | coinbaseMaturity
  | spendExceedsValue
  | transactionEmbeddedSigopLimit
  | sequenceLocked
  | transactionWeightLimit
  -- connect input
  | invalidScript
  | invalidScriptSize
  | invalidPushDataSize
  | invalidOperationCount
  | invalidStackSize
  | invalidStackScope
  | invalidScriptEmbed
  | invalidSignatureEncoding
  | invalidSignatureLaxEncoding
  | incorrectSignature
  | unexpectedWitness
  | invalidWitness
  | dirtyWitness
  | stackFalse
  -- op eval
  | opDisabled
  | opReserved
  | opPushSize
  | opPushData
  | opIf
  | opNotif
  | opElse
  | opEndif
  | opVerify1
  | opVerify2
  | opReturn
  | opToAltStack
  | opFromAltStack
  | opDrop2
  | opDup2
  | opDup3
  | opOver2
  | opRot2
  | opSwap2
  | opIfDup
  | opDrop
  | opDup
  | opNip
  | opOver
  | opPick
  | opRoll
  | opRot
  | opSwap
  | opTuck
  | opSize
  | opEqual
  | opEqualVerify1
  | opEqualVerify2
  | opAdd1
  | opSub1
  | opNegate
  | opAbs
  | opNot
  | opNonzero
  | opAdd
  | opSub
  | opBoolAnd
  | opBoolOr
  | opNumEqual
  | opNumEqualVerify1
  | opNumEqualVerify2
  | opNumNotEqual
  | opLessThan
  | opGreaterThan
  | opLessThanOrEqual
  | opGreaterThanOrEqual
  | opMin
  | opMax
  | opWithin
  | opRipemd160
  | opSha1
  | opSha256
  | opHash160
  | opHash256
  | opCodeSeperator
  | opCheckSigVerify1
  | opCheckSig
  | opCheckMultisigVerify1
  | opCheckMultisigVerify2
  | opCheckMultisigVerify3
  | opCheckMultisigVerify4
  | opCheckMultisigVerify5
  | opCheckMultisigVerify6
  | opCheckMultisigVerify7
  | opCheckMultisig
  | opCheckLocktimeVerify1
  | opCheckLocktimeVerify2
  | opCheckLocktimeVerify3
  | opCheckLocktimeVerify4
  | opCheckLocktimeVerify5
  | opCheckLocktimeVerify6
  | opCheckSequenceVerify1
  | opCheckSequenceVerify2
  | opCheckSequenceVerify3
  | opCheckSequenceVerify4
  | opCheckSequenceVerify5
  | opCheckSequenceVerify6
  | opCheckSequenceVerify7
  | opCheckMultisigVerify8
  -- create transaction
  | invalidOutput
  | lockTimeConflict
  | inputIndexOutOfRange
  | inputSignFailed
  deriving DecidableEq, Repr

/-! ### Chains of checks

A chain of checks succeeds when no check rejects.
-/

section

variable {c : Prop} [Decidable c] {code : ErrorCode} {rest : Option ErrorCode}

theorem check_eq_some_iff {target : ErrorCode} (hcode : code ≠ target) :
    (if c then some code else rest) = some target ↔ ¬ c ∧ rest = some target := by
  by_cases h : c <;> simp [h, hcode]

theorem check_eq_success_iff {rest : ErrorCode} (hcode : code ≠ .success) :
    (if c then code else rest) = .success ↔ ¬ c ∧ rest = .success := by
  by_cases h : c <;> simp [h, hcode]

theorem check_eq_some_success_iff (hcode : code ≠ .success) :
    (if c then some code else rest) = some .success ↔ ¬ c ∧ rest = some .success :=
  check_eq_some_iff hcode

/-- A check that hands the code of another check on. -/
theorem forward_eq_success_iff {rest : ErrorCode} :
    (if code ≠ .success then code else rest) = .success ↔ code = .success ∧ rest = .success := by
  by_cases h : code = .success <;> simp [h]

theorem forward_eq_some_success_iff :
    (if code ≠ .success then some code else rest) = some .success ↔
      code = .success ∧ rest = some .success := by
  by_cases h : code = .success <;> simp [h]

end

end BitprimCore
