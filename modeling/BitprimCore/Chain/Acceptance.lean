import BitprimCore.Chain.ChainState
import BitprimCore.Chain.Verification
import BitprimCore.Math.Sha256

/-!
# Acceptance

The checks that need a chain state (`accept`) and the execution of scripts (`connect`), for headers,
transactions and blocks.

## Implementation notes

The result is an option because a transaction that is locked by height throws above 32-bit heights
and because script execution may break a precondition.
-/

namespace BitprimCore

open RuleFork

/-- The header rules that need the chain. -/
def Header.accept (hashes : Hashes) (header : Header) (state : ChainState) : ErrorCode :=
  if header.bits ≠ state.workRequired then .incorrectProofOfWork
  else if state.isCheckpointConflict (header.hash hashes) then .checkpointsFailed
  else if state.isUnderCheckpoint then .success
  else if header.version < state.minimumVersion then .oldVersionBlock
  else if header.timestamp ≤ state.medianTimePast then .timestampTooEarly
  else .success

/-- Run a test on every item up to the first error (the loops of `block` and `transaction`). -/
def firstErrorOf {α : Type*} (test : α → Option ErrorCode) : List α → Option ErrorCode
  | [] => some .success
  | item :: items => do
    let code ← test item
    if code ≠ .success then return code else firstErrorOf test items

/-- The segregated witness rule, which the `bch` build never enables. -/
def ChainState.isBip141Enabled (currency : Currency) (state : ChainState) : Bool :=
  if currency = .bch then false else state.isForkEnabled bip141Rule

namespace Transaction

variable (currency : Currency) (tx : Transaction) (state : ChainState) (transactionPool : Bool)

/-- The part of `accept` behind the test for a final transaction. -/
def acceptPrevouts : ErrorCode :=
  let bip16 := state.isForkEnabled bip16Rule
  let bip30 := state.isForkEnabled bip30Rule
  let bip68 := state.isForkEnabled bip68Rule
  let bip141 := state.isBip141Enabled currency
  let revertBip30 := state.isForkEnabled allowCollisions
  let maxSigops := if bip141 then currency.maxFastSigops else currency.getMaxBlockSigops
  if bip30 && !revertBip30 && tx.duplicate then .unspentDuplicate
  else if tx.isMissingPreviousOutputs then .missingPreviousOutput
  else if tx.isDoubleSpend transactionPool then .doubleSpend
  else if !tx.isMature state.height then .coinbaseMaturity
  else if tx.isOverspent then .spendExceedsValue
  else if bip68 && tx.isLocked state.height state.medianTimePast then .sequenceLocked
  else if transactionPool && decide (tx.signatureOperations currency bip16 bip141 > maxSigops) then
    .transactionEmbeddedSigopLimit
  else if transactionPool && bip141 && decide (tx.weight currency > currency.maxBlockWeight) then
    .transactionWeightLimit
  else .success

/-- The previous outputs are assumed to be cached. -/
def accept : Option ErrorCode :=
  if transactionPool && state.isUnderCheckpoint then some .prematureValidation
  else if decide (currency = .bch) && state.isMagneticAnomalyEnabled &&
      decide (tx.serializedSize currency true false < minTransactionSize) then
    some .transactionSizeLimit
  else if !state.isBip141Enabled currency && tx.isSegregated currency then some .emptyTransaction
  else if transactionPool then do
    let isFinal ← tx.isFinal state.height state.medianTimePast
    return if !isFinal then .transactionNonFinal
      else tx.acceptPrevouts currency state transactionPool
  else some (tx.acceptPrevouts currency state transactionPool)

/-- Coinbase transactions connect, to simplify iteration. -/
def connectInput (env : Env) (tx : Transaction) (state : ChainState) (inputIndex : Nat) :
    Option ErrorCode :=
  match tx.inputs[inputIndex]? with
  | none => some .operationFailed
  | some input =>
    if tx.isCoinbase then some .success
    else if !input.previousOutput.validation.cache.isValid then some .missingPreviousOutput
    else Script.verifyInput env tx state.enabledForks (UInt32.ofNat inputIndex)

/-- Connects each input in order. -/
def connect (env : Env) (tx : Transaction) (state : ChainState) : Option ErrorCode :=
  firstErrorOf (tx.connectInput env state) (List.range tx.inputs.length)

end Transaction

namespace Block

variable (currency : Currency) (hashes : Hashes) (block : Block) (state : ChainState)
  (transactions : Bool)

/-- The first refusal, if any. -/
def acceptTransactions : Option ErrorCode :=
  firstErrorOf (fun tx => tx.accept currency state false) block.transactions

/-- The part of `accept` behind the test for final transactions. -/
def acceptFinal : Option ErrorCode :=
  let bip16 := state.isForkEnabled bip16Rule
  let bip141 := state.isBip141Enabled currency
  let allowedSigops := getAllowedSigops (block.serializedSize currency false)
  if bip141 && !block.isValidWitnessCommitment currency hashes then some .invalidWitnessCommitment
  else if transactions && decide (block.signatureOperations currency bip16 bip141 > allowedSigops)
  then some .blockEmbeddedSigopLimit
  else if transactions then block.acceptTransactions currency state
  else some .success

/-- The part of `accept` for blocks that no checkpoint covers. -/
def acceptUncovered : Option ErrorCode :=
  let bip34 := state.isForkEnabled bip34Rule
  let bip113 := state.isForkEnabled bip113Rule
  let bip141 := state.isBip141Enabled currency
  let blockTime := if bip113 then state.medianTimePast else block.header.timestamp
  if decide (currency = .bch) && state.isMagneticAnomalyEnabled &&
      !block.isCanonicalOrdered currency hashes then some .nonCanonicalOrdered
  else if decide (currency = .bch) && !state.isMagneticAnomalyEnabled &&
      block.isForwardReference currency hashes then some .forwardReference
  else if bip141 && decide (block.weight currency > currency.maxBlockWeight) then
    some .blockWeightLimit
  else if bip34 && !block.isValidCoinbaseScript currency state.height then
    some .coinbaseHeightMismatch
  else if !block.isValidCoinbaseClaim currency state.height then some .coinbaseValueLimit
  else do
    let isFinal ← block.isFinal state.height blockTime
    if !isFinal then return .blockNonFinal
    else block.acceptFinal currency hashes state transactions

/-- The previous outputs are assumed to be cached. -/
def accept : Option ErrorCode :=
  let code := block.header.accept hashes state
  if code ≠ .success then some code
  else if decide (currency = .bch) && !state.isMonolithActive &&
      decide (block.serializedSize currency false > maxBlockSizeOld) then some .blockSizeLimit
  else if state.isUnderCheckpoint then some .success
  else block.acceptUncovered currency hashes state transactions

/-- The first connect failure, if any. -/
def connectTransactions (env : Env) : Option ErrorCode :=
  firstErrorOf (fun tx => tx.connect env state) block.transactions

/-- Blocks that a checkpoint covers are not connected. -/
def connect (env : Env) : Option ErrorCode :=
  if state.isUnderCheckpoint then some .success else block.connectTransactions state env

end Block

theorem firstErrorOf_eq_success_iff {α : Type*} {test : α → Option ErrorCode} {items : List α} :
    firstErrorOf test items = some .success ↔ ∀ item ∈ items, test item = some .success := by
  induction items with
  | nil => simp [firstErrorOf]
  | cons item items ih =>
    rw [firstErrorOf, List.forall_mem_cons, ← ih]
    cases test item with
    | none => simp
    | some code => by_cases hcode : code = .success <;> simp [hcode]

variable {state : ChainState} {currency : Currency}

/-- A transaction of an accepted block spends outputs that are cached, and not more than they
hold. -/
theorem Transaction.accept_eq_success {tx : Transaction}
    (h : tx.accept currency state false = some .success) :
    tx.isMissingPreviousOutputs = false ∧ tx.isOverspent = false := by
  simp (disch := decide) only [accept, check_eq_some_success_iff, Bool.false_eq_true, if_false,
    Option.some.injEq] at h
  have hprevouts := h.2.2.2
  simp (disch := decide) only [acceptPrevouts, check_eq_success_iff, Bool.not_eq_true] at hprevouts
  obtain ⟨-, hmissing, -, -, hoverspent, -⟩ := hprevouts
  exact ⟨hmissing, hoverspent⟩

/-- A transaction connects if the scripts of its inputs verify against outputs that are cached, or if
it is a coinbase. -/
theorem Transaction.connect_eq_success_iff {env : Env} {tx : Transaction} :
    tx.connect env state = some .success ↔ tx.isCoinbase ∨
      ∀ index input, tx.inputs[index]? = some input →
        input.previousOutput.validation.cache.isValid ∧
          Script.verifyInput env tx state.enabledForks (UInt32.ofNat index) = some .success := by
  rw [connect, firstErrorOf_eq_success_iff]
  constructor
  · intro h
    by_cases hcoinbase : tx.isCoinbase
    · exact .inl hcoinbase
    · refine .inr fun index input hinput => ?_
      have hindex := List.mem_range.mpr (List.getElem?_eq_some_iff.mp hinput).1
      have hconnect := h index hindex
      simpa (disch := decide) [connectInput, hinput, hcoinbase, check_eq_some_success_iff]
        using hconnect
  · intro h index hindex
    have hinput := List.getElem?_eq_getElem (List.mem_range.mp hindex)
    rw [connectInput, hinput]
    obtain hcoinbase | hinputs := h
    · simp [hcoinbase]
    · obtain ⟨hvalid, hverify⟩ := hinputs index _ hinput
      simp [hvalid, hverify]

/-- A block that no checkpoint covers connects if all of its transactions do. -/
theorem Block.connect_eq_success_iff {env : Env} {block : Block}
    (hcovered : state.isUnderCheckpoint = false) :
    block.connect state env = some .success ↔
      ∀ tx ∈ block.transactions, tx.connect env state = some .success := by
  rw [connect, hcovered, if_neg Bool.false_ne_true, connectTransactions,
    firstErrorOf_eq_success_iff]

/-- The claim of the coinbase of an accepted block is valid and its transactions are accepted,
unless a checkpoint covers it. -/
theorem Block.accept_eq_success {hashes : Hashes} {block : Block}
    (h : block.accept currency hashes state true = some .success)
    (hcovered : state.isUnderCheckpoint = false) :
    block.isValidCoinbaseClaim currency state.height ∧
      ∀ tx ∈ block.transactions, tx.accept currency state false = some .success := by
  simp (disch := decide) only [accept, forward_eq_some_success_iff, check_eq_some_success_iff,
    hcovered, Bool.false_eq_true, if_false, acceptUncovered] at h
  obtain ⟨-, -, -, -, -, -, hclaim, hrest⟩ := h
  obtain ⟨isFinal, -, hfinal⟩ := Option.bind_eq_some_iff.mp hrest
  have hvalid : block.acceptFinal currency hashes state true = some .success := by
    cases isFinal with
    | false => simp at hfinal
    | true => simpa using hfinal
  simp (disch := decide) only [acceptFinal, check_eq_some_success_iff, if_true] at hvalid
  exact ⟨by simpa using hclaim, firstErrorOf_eq_success_iff.mp hvalid.2.2⟩

namespace Header

/-- The headers refer to each other, up to one that is accepted at the height of a checkpoint. -/
structure LinkedTo (hashes : Hashes) (checkpoint : Checkpoint) (chain : Nat → Header) : Prop where
  linked : ∀ height < checkpoint.height,
    (chain (height + 1)).previousBlockHash = (chain height).hash hashes
  accepted : ∃ state : ChainState, checkpoint ∈ state.checkpoints ∧
    state.height = checkpoint.height ∧ (chain checkpoint.height).accept hashes state = .success

variable {hashes : Hashes} {checkpoint : Checkpoint} {chain chain' : Nat → Header}

theorem LinkedTo.hash_eq (h : LinkedTo hashes checkpoint chain) :
    (chain checkpoint.height).hash hashes = checkpoint.hash := by
  obtain ⟨state, hmem, hheight, haccept⟩ := h.accepted
  simp (disch := decide) only [accept, check_eq_success_iff, ChainState.isCheckpointConflict,
    Checkpoint.validate, Bool.not_not, Bool.not_eq_true, List.any_eq_false] at haccept
  simpa [← hheight, ChainState.height] using haccept.2.1 checkpoint hmem

theorem previousBlockHash_of_toData_eq {header other : Header}
    (h : header.toData true = other.toData true) :
    header.previousBlockHash = other.previousBlockHash := by
  obtain ⟨-, htail⟩ := List.append_inj h (by simp)
  have hlength := header.previousBlockHash.2.trans other.previousBlockHash.2.symm
  exact Subtype.ext (List.append_inj htail hlength).1

/-- Two chains that pass a checkpoint are one chain up to there, unless the headers of one height
collide. -/
theorem eq_below_checkpoint (h : LinkedTo hashes checkpoint chain)
    (h' : LinkedTo hashes checkpoint chain') (hcollision : ∀ height ≤ checkpoint.height,
      CollisionFree hashes.bitcoinHash [(chain height).toData true, (chain' height).toData true]) :
    ∀ height ≤ checkpoint.height, (chain height).toData true = (chain' height).toData true := by
  intro height hle
  apply (hcollision height hle).eq_of_hash_eq (by simp) (by simp)
  -- downwards, by the hash that a header has of the one before it
  induction hle using Nat.decreasingInduction with
  | self => exact h.hash_eq.trans h'.hash_eq.symm
  | of_succ height hlt ih =>
    have hdata := (hcollision _ hlt).eq_of_hash_eq (by simp) (by simp) ih
    have hprevious := previousBlockHash_of_toData_eq hdata
    rwa [h.linked height hlt, h'.linked height hlt] at hprevious

/-- The first two headers of the chain, with a median time past stored at the first. -/
def firstHeaders (medianTimePast : UInt32) : Nat → Header
  | 0 =>
    ⟨1, nullHash, hashLiteral 0x4a5e1e4baab89f3a32518a88c31bc87f618f76673e2cc77ab2127b7afdeda33b,
      1231006505, 0x1d00ffff, 2083236893, medianTimePast⟩
  | _ =>
    ⟨1, hashLiteral 0x000000000019d6689c085ae165831e934ff763ae46a2a6c172b3f1b60a8ce26f,
      hashLiteral 0x0e3e2357e806b6cdb1f70b54c3a3a17b6714ee1f0e68bebb44a74b1efd512098,
      1231469665, 0x1d00ffff, 2573394689, 0⟩

/-- A checkpoint at the second header. -/
def secondCheckpoint : Checkpoint :=
  ⟨hashLiteral 0x00000000839a8e6886ab5951d76f411475428afc90947ee320161bbf18eb6048, 1⟩

private theorem linkedTo_firstHeaders (medianTimePast : UInt32) :
    LinkedTo .ofSha256 secondCheckpoint (firstHeaders medianTimePast) where
  linked height hlt := by
    obtain rfl : height = 0 := Nat.lt_one_iff.mp hlt
    -- the hash leaves the median time past out
    change (firstHeaders 0 1).previousBlockHash = (firstHeaders 0 0).hash .ofSha256
    decide +kernel
  accepted := by
    refine ⟨⟨⟨1, nullHash, nullHash, nullHash, nullHash, 0, [], 0, [], 0, 0, []⟩, 0,
      [secondCheckpoint], {}, ⟨0, 0⟩, 0, 0x1d00ffff⟩, by simp, rfl, ?_⟩
    change (firstHeaders 0 1).accept _ _ = _
    decide +kernel

/-- The second header pins the first, whatever median time past is stored with it. -/
theorem eq_below_checkpoint_first :
    LinkedTo .ofSha256 secondCheckpoint (firstHeaders 0) ∧
      (firstHeaders 0 0).toData true = (firstHeaders 7 0).toData true :=
  ⟨linkedTo_firstHeaders 0, eq_below_checkpoint (linkedTo_firstHeaders 0) (linkedTo_firstHeaders 7)
    (fun height hle => by
      have hdata : (firstHeaders 7 height).toData true = (firstHeaders 0 height).toData true := by
        cases height <;> rfl
      simp [hdata, CollisionFree]) 0 (by decide)⟩

end Header

end BitprimCore
