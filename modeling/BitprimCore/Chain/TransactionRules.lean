import BitprimCore.Chain.Transaction
import BitprimCore.Error
import BitprimCore.Library.Duplicates
import BitprimCore.Math.Limits
import Mathlib.Algebra.Order.BigOperators.Group.List

/-!
# Transaction rules

Sizes, values, signature operations and locks of transactions, and the checks that need no chain
state (`chain/transaction`, `chain/input`, `chain/output`, `chain/witness`).

## Implementation notes

Sizes are natural numbers: the objects that are measured are in memory, so their sizes add up
without overflow. Values, and counts of signature operations, are bounded as in the source.
-/

namespace BitprimCore

def Script.serializedSize (script : Script) (withSize : Bool) : Nat :=
  script.bytes.length + if withSize then variableUintSize script.bytes.length else 0

def Point.serializedSize (wire : Bool) : Nat := 32 + if wire then 4 else 2

def Output.serializedSize (output : Output) (wire : Bool) : Nat :=
  (if wire then 0 else 4) + 8 + output.script.serializedSize true

/-- The size of a witness. -/
def Witness.serializedSize (witness : Witness) (withCount : Bool) : Nat :=
  (if withCount then variableUintSize witness.stack.length else 0) +
    (witness.stack.map fun element => variableUintSize element.length + element.length).sum

/-- The witness size is added in both contexts although the transaction writes the wire witness. -/
def Input.serializedSize (currency : Currency) (input : Input) (wire witness : Bool) : Nat :=
  let witness := if currency = .bch then false else witness || !wire
  Point.serializedSize wire + input.script.serializedSize true +
    (if witness then input.witness.serializedSize true else 0) + 4

def Transaction.serializedSize (currency : Currency) (tx : Transaction) (wire witness : Bool) :
    Nat :=
  let witness := witness && tx.isSegregated currency
  (if wire && witness then 2 else 0) + (if wire then 4 else variableUintSize tx.version.toNat) +
    (if wire then 4 else variableUintSize tx.locktime.toNat) +
    variableUintSize tx.inputs.length + variableUintSize tx.outputs.length +
    (tx.inputs.map fun input => input.serializedSize currency wire witness).sum +
    (tx.outputs.map fun output => output.serializedSize wire).sum

variable (currency : Currency)

theorem Input.serializedSize_le_witness (input : Input) :
    input.serializedSize currency true false ≤ input.serializedSize currency true true := by
  cases currency <;> simp [serializedSize]

theorem Transaction.serializedSize_of_not_isSegregated {currency : Currency} {tx : Transaction}
    (h : tx.isSegregated currency = false) (wire witness : Bool) :
    tx.serializedSize currency wire witness = tx.serializedSize currency wire false := by
  simp only [serializedSize, h, Bool.and_false]

theorem Transaction.serializedSize_lt_witness {currency : Currency} {tx : Transaction}
    (h : tx.isSegregated currency) :
    tx.serializedSize currency true false < tx.serializedSize currency true true := by
  have hinputs := List.sum_le_sum (l := tx.inputs) fun input _ =>
    input.serializedSize_le_witness currency
  simp only [serializedSize, h, Bool.and_true, Bool.and_false, if_true, Bool.false_eq_true,
    if_false]
  omega

theorem Transaction.serializedSize_le_witness (tx : Transaction) :
    tx.serializedSize currency true false ≤ tx.serializedSize currency true true := by
  cases hseg : tx.isSegregated currency with
  | false => exact (serializedSize_of_not_isSegregated hseg true true).ge
  | true => exact (serializedSize_lt_witness hseg).le

/-- The script whose signature operations a program script counts, `none` when it is no witness
program. A program of unknown form counts nothing. -/
def Witness.extractSigopScript (witness : Witness) (programScript : Script) : Option Script :=
  match programScript.version currency with
  | .zero =>
    let size := (programScript.witnessProgram currency).length
    if size = 20 then some (.ofOperations [{ code := .checksig }])
    else if size = 32 then some ⟨witness.stack.getLast?.getD []⟩
    else some {}
  | .reserved => some {}
  | .unversioned => none

namespace Input

variable (currency : Currency) (input : Input)

/-- The script in the last push of the input script, when the previous output asks for one. -/
def extractEmbeddedScript : Option Script :=
  let ops := input.script.operations currency
  if !input.previousOutput.validation.cache.script.isPayToScriptHash currency RuleFork.bip16Rule then
    none
  else if !Script.isRelaxedPush ops then none
  else ops.getLast?.map fun op => ⟨op.data⟩

/-- Witness signature operations are light, all others count by the factor. -/
def signatureOperations (bip16 bip141 : Bool) : Nat :=
  let bip141 := if currency = .bch then false else bip141
  let prevout := input.previousOutput.validation.cache.script
  let sigopsFactor := if bip141 then fastSigopsFactor else 1
  let sigops := input.script.sigops currency false * sigopsFactor
  match if bip141 then input.witness.extractSigopScript currency prevout else none with
  | some witness => sigops + witness.sigops currency true
  | none =>
    match if bip16 then input.extractEmbeddedScript currency else none with
    | none => sigops
    | some embedded =>
      match if bip141 then input.witness.extractSigopScript currency embedded else none with
      | some witness => sigops + witness.sigops currency true
      | none => sigops + embedded.sigops currency true * sigopsFactor

/-- Time is compared in seconds of 32 bits, height in blocks of 64 bits. -/
def isLocked (blockHeight : Nat) (medianTimePast : UInt32) : Bool :=
  if (input.sequence &&& UInt32.ofNat relativeLocktimeDisabled) != 0 then false
  else
    let minimum := input.sequence &&& UInt32.ofNat relativeLocktimeMask
    let prevout := input.previousOutput.validation
    if (input.sequence &&& UInt32.ofNat relativeLocktimeTimeLocked) != 0 then
      let ageSeconds := medianTimePast - prevout.medianTimePast
      decide (ageSeconds < minimum <<< UInt32.ofNat relativeLocktimeSecondsShift)
    else
      let ageBlocks := (blockHeight + (2 ^ 64 - prevout.height % 2 ^ 64)) % 2 ^ 64
      decide (ageBlocks < minimum.toNat)

/-- The coinbase witness, when it is the one value of 32 bytes that is reserved. -/
def extractReservedHash : Option HashDigest :=
  match input.witness.stack with
  | [value] => if h : value.length = 32 then some ⟨value, h⟩ else none
  | _ => none

end Input

namespace Output

variable (currency : Currency) (output : Output)

/-- Scaled under BIP141. -/
def signatureOperations (bip141 : Bool) : Nat :=
  let bip141 := if currency = .bch then false else bip141
  output.script.sigops currency false * if bip141 then fastSigopsFactor else 1

/-- The hash behind the four bytes that mark a commitment. -/
def extractCommittedHash : Option HashDigest :=
  match output.script.operations currency with
  | op0 :: op1 :: ops =>
    let committed := (op1.data.drop 4).take 32
    if !Script.isCommitmentPattern (op0 :: op1 :: ops) then none
    else if h : committed.length = 32 then some ⟨committed, h⟩
    else none
  | _ => none

end Output

/-- An arbitrary order that lets equal points be found; the index is compared first. -/
def Point.Lt (a b : Point) : Prop :=
  if a.index = b.index then a.hash.val < b.hash.val else a.index < b.index

instance : DecidableRel Point.Lt := fun a b =>
  inferInstanceAs (Decidable (if a.index = b.index then a.hash.val < b.hash.val
    else a.index < b.index))

/-- A null point and a previous output that is no coinbase output are mature. -/
def OutputPoint.isMature (point : OutputPoint) (height : Nat) : Bool :=
  if !point.validation.coinbase || point.isNull then true
  else decide (floorSubtract height point.validation.height ≥ coinbaseMaturity)

/-- The value of the cached previous output; a missing one counts as zero. -/
def Input.prevoutValue (input : Input) : Nat :=
  let prevout := input.previousOutput.validation.cache
  if !prevout.isValid then 0 else prevout.value.toNat

namespace Transaction

variable (currency : Currency) (tx : Transaction)

/-- The saturated sum. -/
def totalInputValue : Nat := accumulateCeiling tx.inputs Input.prevoutValue

def totalOutputValue : Nat := accumulateCeiling tx.outputs fun output => output.value.toNat

/-- Zero if overspent. -/
def fees : Nat := floorSubtract tx.totalInputValue tx.totalOutputValue

/-- Pays more than it has. -/
def isOverspent : Bool := !tx.isCoinbase && decide (tx.totalOutputValue > tx.totalInputValue)

/-- The script size is out of bounds. -/
def isOversizedCoinbase : Bool :=
  if !tx.isCoinbase then false
  else
    match tx.inputs with
    | [] => false
    | input :: _ =>
      let scriptSize := input.script.serializedSize false
      decide (scriptSize < minCoinbaseSize) || decide (scriptSize > maxCoinbaseSize)

/-- A null point outside a coinbase. -/
def isNullNonCoinbase : Bool :=
  if tx.isCoinbase then false
  else tx.inputs.any fun input => input.previousOutput.isNull

/-- The points spent. -/
def previousOutputs : List Point := tx.inputs.map fun input => input.previousOutput.toPoint

/-- The points are sorted and searched for equal neighbours. -/
def isInternalDoubleSpend : Bool := !Duplicates.isDistinct Point.Lt tx.previousOutputs

/-- An input lacks its output. -/
def isMissingPreviousOutputs : Bool :=
  tx.inputs.any fun input =>
    !input.previousOutput.validation.cache.isValid && !input.previousOutput.isNull

/-- The points not found. -/
def missingPreviousOutputs : List Point :=
  (tx.inputs.filter fun input =>
    !input.previousOutput.validation.cache.isValid && !input.previousOutput.isNull).map
      fun input => input.previousOutput.toPoint

/-- The function that is called for each missing point: it leaves the captured list as it is and
returns the hash. -/
def hasher (hashes : List HashDigest) (point : Point) : List HashDigest × HashDigest :=
  (hashes, point.hash)

/-- The hashes of the missing points; what the function returns for a point is discarded. -/
def missingPreviousTransactions : List HashDigest :=
  let hashes := tx.missingPreviousOutputs.foldl (fun hashes point => (hasher hashes point).1) []
  Duplicates.distinct (fun a b : HashDigest => a.val < b.val) hashes

/-- A previous output is spent. -/
def isDoubleSpend (includeUnconfirmed : Bool) : Bool :=
  tx.inputs.any fun input =>
    let prevout := input.previousOutput.validation
    prevout.spent && (includeUnconfirmed || prevout.confirmed)

/-- Every coinbase spent is mature. -/
def isMature (height : Nat) : Bool :=
  tx.inputs.all fun input => input.previousOutput.isMature height

/-- All ignore the lock time. -/
def allInputsFinal : Bool := tx.inputs.all Input.isFinal

/-- The height of the block is only converted, and so may only throw, for a lock by height. -/
def isFinal (blockHeight : Nat) (blockTime : UInt32) : Option Bool :=
  if tx.locktime = 0 then some true
  else do
    let maxLocktime ←
      if tx.locktime.toNat < locktimeThreshold then safeUnsigned32 blockHeight else some blockTime
    return decide (tx.locktime < maxLocktime) || tx.allInputsFinal

/-- The relative locks of BIP68. -/
def isLocked (blockHeight : Nat) (medianTimePast : UInt32) : Bool :=
  if tx.version.toNat < relativeLocktimeMinVersion || tx.isCoinbase then false
  else tx.inputs.any fun input => input.isLocked blockHeight medianTimePast

/-- The two saturated totals are added without a guard. -/
def signatureOperations (bip16 bip141 : Bool) : Nat :=
  let bip141 := if currency = .bch then false else bip141
  (accumulateCeiling tx.inputs (fun input => input.signatureOperations currency bip16 bip141) +
    accumulateCeiling tx.outputs fun output => output.signatureOperations currency bip141) % 2 ^ 64

/-- The BIP141 weight. -/
def weight : Nat :=
  baseSizeContribution * tx.serializedSize currency true false +
    totalSizeContribution * tx.serializedSize currency true true

/-- The checks that are independent of the blockchain. -/
def check (transactionPool retarget : Bool) : ErrorCode :=
  if tx.inputs.isEmpty || tx.outputs.isEmpty then .emptyTransaction
  else if tx.isNullNonCoinbase then .previousOutputNull
  else if tx.totalOutputValue > currency.maxMoney retarget then .spendOverflow
  else if !transactionPool && tx.isOversizedCoinbase then .invalidCoinbaseScriptSize
  else if transactionPool && tx.isCoinbase then .coinbaseTransaction
  else if transactionPool && tx.isInternalDoubleSpend then .transactionInternalDoubleSpend
  else if transactionPool && decide (tx.serializedSize currency true false ≥ currency.getMaxBlockSize)
  then .transactionSizeLimit
  else .success

/-- What the check of a transaction in a block ensures. -/
theorem check_block_eq_success {currency : Currency} {tx : Transaction} {retarget : Bool}
    (h : tx.check currency false retarget = .success) :
    tx.inputs ≠ [] ∧ tx.outputs ≠ [] ∧ tx.isNullNonCoinbase = false ∧
      tx.totalOutputValue ≤ currency.maxMoney retarget := by
  simp (disch := decide) only [check, check_eq_success_iff, Bool.or_eq_true, List.isEmpty_iff,
    not_or] at h
  obtain ⟨hempty, hnull, hmoney, -⟩ := h
  exact ⟨hempty.1, hempty.2, Bool.eq_false_iff.mpr hnull, not_lt.mp hmoney⟩

end Transaction

end BitprimCore
