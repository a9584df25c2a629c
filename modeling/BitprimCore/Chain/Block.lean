import BitprimCore.Chain.Header
import BitprimCore.Chain.TransactionRules
import BitprimCore.Library.MerkleTree

/-!
# Blocks

Blocks with their sizes, hash trees and values, and the checks that need no chain state
(`chain/block`).
-/

namespace BitprimCore

/-- A block. -/
structure Block where
  header : Header
  transactions : List Transaction
  deriving DecidableEq

namespace Block

/-- The hash of two digests in a row, a node of the hash tree. -/
def hashPair (hashes : Hashes) (pair : HashDigest × HashDigest) : HashDigest :=
  hashes.bitcoinHash (pair.1.val ++ pair.2.val)

section

variable (currency : Currency) (hashes : Hashes) (block : Block)

/-- The leaves of the merkle tree. -/
def toHashes (witness : Bool) : List HashDigest :=
  let witness := if currency = .bch then false else witness
  block.transactions.map fun tx => tx.hash currency hashes witness

def serializedSize (witness : Bool) : Nat :=
  let witness := if currency = .bch then false else witness
  Header.serializedSize true + variableUintSize block.transactions.length +
    (block.transactions.map fun tx => tx.serializedSize currency true witness).sum

/-- The BIP141 weight. -/
def weight : Nat :=
  baseSizeContribution * block.serializedSize currency false +
    totalSizeContribution * block.serializedSize currency true

variable (height : Nat)

/-- The subsidy halves once an interval. After 64 halvings the shift is by zero. -/
def subsidy (retarget : Bool) : Nat :=
  let halvings := height / currency.subsidyInterval retarget
  initialBlockSubsidySatoshi >>> if halvings ≥ 64 then 0 else halvings

def signatureOperations (bip16 bip141 : Bool) : Nat :=
  let bip141 := if currency = .bch then false else bip141
  accumulateCeiling block.transactions fun tx => tx.signatureOperations currency bip16 bip141

/-- A coinbase behind the first place. -/
def isExtraCoinbases : Bool := block.transactions.tail.any Transaction.isCoinbase

/-- A transaction that throws ends the test. -/
def isFinal (height : Nat) (blockTime : UInt32) : Option Bool :=
  block.transactions.foldr
    (fun tx rest => do
      let isFinal ← tx.isFinal height blockTime
      if isFinal then rest else return false)
    (some true)

/-- The hashes are sorted and searched for equal neighbours. -/
def isDistinctTransactionSet : Bool :=
  Duplicates.isDistinct (fun a b : HashDigest => a.val < b.val)
    (block.transactions.map fun tx => tx.hash currency hashes false)

/-- The root of the hash tree over the transaction hashes. -/
def generateMerkleRoot (witness : Bool) : HashDigest :=
  let merkle := block.toHashes currency hashes witness
  ((MerkleTree.reduceLoop (hashPair hashes) merkle.length merkle).head?).getD nullHash

/-- Walk from the last transaction; a transaction may not spend one behind it, nor itself. -/
def isForwardReferenceLoop : (reversed : List Transaction) → (seen : List HashDigest) → Bool
  | [], _ => false
  | tx :: txs, seen =>
    let seen := tx.hash currency hashes false :: seen
    if tx.inputs.any fun input => seen.contains input.previousOutput.hash then true
    else isForwardReferenceLoop txs seen

/-- A spend of a later transaction. -/
def isForwardReference : Bool :=
  isForwardReferenceLoop currency hashes block.transactions.reverse []

/-- The hashes behind the coinbase do not decrease, compared from the last byte. -/
def isCanonicalOrdered : Bool :=
  let keys := block.transactions.tail.map fun tx => (tx.hash currency hashes false).val.reverse
  decide (keys.IsChain fun a b => ¬ b < a)

/-- The points that all transactions but the first spend are merged, sorted and searched for equal
neighbours. -/
def isInternalDoubleSpend : Bool :=
  match block.transactions with
  | [] => false
  | _ :: txs => !Duplicates.isDistinct Point.Lt (txs.flatMap Transaction.previousOutputs)

/-- The header commits to the hashes. -/
def isValidMerkleRoot : Bool :=
  decide (block.generateMerkleRoot currency hashes false = block.header.merkle)

/-- The saturated sum of fees. -/
def fees : Nat := accumulateCeiling block.transactions Transaction.fees

/-- What the coinbase pays out. -/
def claim : Nat :=
  match block.transactions with
  | [] => 0
  | coinbase :: _ => coinbase.totalOutputValue

/-- The most the coinbase may claim. -/
def reward : Nat := ceilingAdd block.fees (subsidy currency height true)

def isValidCoinbaseClaim : Bool := decide (block.claim ≤ block.reward currency height)

/-- The coinbase height of BIP34. -/
def isValidCoinbaseScript : Bool :=
  match block.transactions with
  | { inputs := input :: _, .. } :: _ =>
    Script.isCoinbasePattern (input.script.operations currency) height
  | _ => false

/-- Some transaction has a witness. -/
def isSegregated : Bool := block.transactions.any fun tx => tx.isSegregated currency

/-- The last output that holds a commitment decides; without segregated transactions it is
optional. -/
def isValidWitnessCommitment : Bool :=
  if currency = .bch then false
  else
    match block.transactions with
    | { inputs := input :: _, outputs, .. } :: _ =>
      match input.extractReservedHash,
        outputs.reverse.findSome? fun output => output.extractCommittedHash currency with
      | some reserved, some committed =>
        decide (committed =
          hashes.bitcoinHash ((block.generateMerkleRoot currency hashes true).val ++ reserved.val))
      | _, _ => !block.isSegregated currency
    | _ => false

/-- The first code that is not success (the loops over the transactions). -/
def firstError : List ErrorCode → ErrorCode
  | [] => .success
  | code :: codes => if code ≠ .success then code else firstError codes

/-- The checks of each transaction. -/
def checkTransactions : ErrorCode :=
  firstError (block.transactions.map fun tx => tx.check currency false true)

/-- The checks that are independent of the blockchain. -/
def check (now : Nat) : ErrorCode :=
  let code := block.header.check currency hashes now false
  if code ≠ .success then code
  else if block.serializedSize currency false > currency.getMaxBlockSize then .blockSizeLimit
  else
    match block.transactions with
    | [] => .emptyBlock
    | coinbase :: _ =>
      if !coinbase.isCoinbase then .firstNotCoinbase
      else if block.isExtraCoinbases then .extraCoinbases
      else if currency ≠ .bch && block.isForwardReference currency hashes then .forwardReference
      else if block.isInternalDoubleSpend then .blockInternalDoubleSpend
      else if !block.isValidMerkleRoot currency hashes then .merkleMismatch
      else block.checkTransactions currency

end

theorem firstError_eq_success_iff {codes : List ErrorCode} :
    firstError codes = .success ↔ ∀ code ∈ codes, code = .success := by
  induction codes with
  | nil => simp [firstError]
  | cons code codes ih =>
    rw [firstError, List.forall_mem_cons, ← ih]
    by_cases hcode : code = .success <;> simp [hcode]

/-- What `check` checks. -/
structure Checked (currency : Currency) (hashes : Hashes) (block : Block) (now : Nat) : Prop where
  header : block.header.check currency hashes now false = .success
  size : block.serializedSize currency false ≤ currency.getMaxBlockSize
  coinbase : ∃ coinbase rest, block.transactions = coinbase :: rest ∧ coinbase.isCoinbase = true
  extraCoinbases : block.isExtraCoinbases = false
  forwardReference : currency ≠ .bch → block.isForwardReference currency hashes = false
  doubleSpend : block.isInternalDoubleSpend = false
  merkle : block.generateMerkleRoot currency hashes false = block.header.merkle
  transactions : ∀ tx ∈ block.transactions, tx.check currency false true = .success

theorem checked_of_check {currency : Currency} {hashes : Hashes} {block : Block} {now : Nat}
    (h : block.check currency hashes now = .success) : block.Checked currency hashes now := by
  cases htxs : block.transactions with
  | nil =>
    simp (disch := decide) only [check, htxs, forward_eq_success_iff,
      check_eq_success_iff, reduceCtorEq, and_false] at h
  | cons coinbase rest =>
    simp (disch := decide) only [check, htxs, forward_eq_success_iff, check_eq_success_iff] at h
    obtain ⟨hheader, hsize, hcoinbase, hextra, hforward, hdouble, hmerkle, hchecks⟩ := h
    exact {
      header := hheader
      size := not_lt.mp hsize
      coinbase := ⟨coinbase, rest, htxs, by simpa using hcoinbase⟩
      extraCoinbases := Bool.eq_false_iff.mpr hextra
      forwardReference := by
        intro hcur
        simpa [hcur] using hforward
      doubleSpend := Bool.eq_false_iff.mpr hdouble
      merkle := by simpa [isValidMerkleRoot] using hmerkle
      transactions := by simpa [checkTransactions] using firstError_eq_success_iff.mp hchecks }

section

variable {currency : Currency} {hashes : Hashes} {block : Block} {now : Nat} {tx : Transaction}

theorem Checked.isCoinbase_of_mem_tail (h : block.Checked currency hashes now)
    (htx : tx ∈ block.transactions.tail) : tx.isCoinbase = false := by
  have hextra := h.extraCoinbases
  rw [isExtraCoinbases, List.any_eq_false] at hextra
  exact Bool.eq_false_iff.mpr (hextra tx htx)

theorem Checked.totalOutputValue_le (h : block.Checked currency hashes now)
    (htx : tx ∈ block.transactions) : tx.totalOutputValue ≤ currency.maxMoney true :=
  (Transaction.check_block_eq_success (h.transactions tx htx)).2.2.2

end

end Block

end BitprimCore
