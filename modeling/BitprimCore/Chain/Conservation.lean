import BitprimCore.Chain.Acceptance
import BitprimCore.Math.Sha256

/-!
# Monetary conservation

A block that passes its checks and is accepted creates no value beyond the subsidy: its outputs hold
at most the values of the outputs it spends plus the subsidy of its height.

The totals of the source saturate. Totals of inputs and of fees only lose value when they do, and a
total of outputs that saturates is above the money limit of `check`, so no bound on the values has
to be assumed.
-/

namespace BitprimCore

open List

theorem value_le_maxUint64 (value : UInt64) : value.toNat ≤ maxUint64 :=
  Nat.le_of_lt_succ value.toNat_lt

theorem Currency.maxMoney_lt (currency : Currency) : currency.maxMoney true < maxUint64 := by
  cases currency <;> decide

theorem Input.prevoutValue_le (input : Input) :
    input.prevoutValue ≤ input.previousOutput.validation.cache.value.toNat := by
  simp only [prevoutValue]
  split
  · exact Nat.zero_le _
  · exact le_refl _

theorem Input.prevoutValue_eq_zero {input : Input}
    (h : input.previousOutput.validation.cache.isValid = false) : input.prevoutValue = 0 := by
  simp [prevoutValue, h]

namespace Transaction

/-- The value of all outputs. -/
def outputSum (tx : Transaction) : Nat := (tx.outputs.map fun output => output.value.toNat).sum

/-- The value of all cached previous outputs. -/
def prevoutSum (tx : Transaction) : Nat :=
  (tx.inputs.map fun input => input.previousOutput.validation.cache.value.toNat).sum

variable {tx : Transaction}

theorem prevoutValues_le (tx : Transaction) :
    ∀ value ∈ tx.inputs.map Input.prevoutValue, value ≤ maxUint64 := by
  intro value hval
  obtain ⟨input, -, rfl⟩ := mem_map.mp hval
  exact input.prevoutValue_le.trans (value_le_maxUint64 _)

theorem outputValues_le (tx : Transaction) :
    ∀ value ∈ tx.outputs.map fun output => output.value.toNat, value ≤ maxUint64 := by
  intro value hval
  obtain ⟨output, -, rfl⟩ := mem_map.mp hval
  exact value_le_maxUint64 _

theorem totalInputValue_le (tx : Transaction) : tx.totalInputValue ≤ tx.prevoutSum := by
  calc
    tx.totalInputValue ≤ (tx.inputs.map Input.prevoutValue).sum :=
      Saturating.sum_le tx.prevoutValues_le
    _ ≤ tx.prevoutSum := sum_le_sum fun input _ => input.prevoutValue_le

theorem totalInputValue_eq_zero
    (h : ∀ input ∈ tx.inputs, input.previousOutput.validation.cache.isValid = false) :
    tx.totalInputValue = 0 := by
  apply Nat.le_zero.mp
  calc
    tx.totalInputValue ≤ (tx.inputs.map Input.prevoutValue).sum :=
      Saturating.sum_le tx.prevoutValues_le
    _ = 0 := sum_eq_zero fun value hval => by
      obtain ⟨input, hinput, rfl⟩ := mem_map.mp hval
      exact Input.prevoutValue_eq_zero (h input hinput)

/-- Without cached previous outputs there are no fees. -/
theorem fees_eq_zero
    (h : ∀ input ∈ tx.inputs, input.previousOutput.validation.cache.isValid = false) :
    tx.fees = 0 := by
  rw [fees, floorSubtract_eq, totalInputValue_eq_zero h, Nat.zero_sub]

/-- A total of outputs within the money limit has not saturated. -/
theorem totalOutputValue_eq {currency : Currency}
    (h : tx.totalOutputValue ≤ currency.maxMoney true) : tx.totalOutputValue = tx.outputSum :=
  Saturating.sum_eq_of_lt tx.outputValues_le (h.trans_lt currency.maxMoney_lt)

theorem fees_le_maxUint64 (tx : Transaction) : tx.fees ≤ maxUint64 := by
  rw [fees, floorSubtract_eq]
  exact (Nat.sub_le _ _).trans (Saturating.sum_le_limit tx.prevoutValues_le)

/-- Fees and outputs of a transaction that is not overspent add up to at most what it spends. -/
theorem fees_add_outputSum_le {currency : Currency}
    (hmoney : tx.totalOutputValue ≤ currency.maxMoney true) (hcoinbase : tx.isCoinbase = false)
    (hspent : tx.isOverspent = false) : tx.fees + tx.outputSum ≤ tx.prevoutSum := by
  have hle : tx.totalOutputValue ≤ tx.totalInputValue := by
    simpa [isOverspent, hcoinbase] using hspent
  have hinput := tx.totalInputValue_le
  rw [fees, floorSubtract_eq, ← totalOutputValue_eq hmoney]
  omega

end Transaction

namespace Block

/-- The value of the outputs of all transactions. -/
def createdValue (block : Block) : Nat := (block.transactions.map Transaction.outputSum).sum

/-- The value of the outputs that the transactions behind the coinbase spend. -/
def spentValue (block : Block) : Nat := (block.transactions.tail.map Transaction.prevoutSum).sum

theorem subsidy_le_maxUint64 (currency : Currency) (height : Nat) :
    subsidy currency height true ≤ maxUint64 := by
  simp only [subsidy, Nat.shiftRight_eq_div_pow]
  exact (Nat.div_le_self _ _).trans (by decide)

theorem fees_le (block : Block) : block.fees ≤ (block.transactions.map Transaction.fees).sum := by
  apply Saturating.sum_le
  intro value hval
  obtain ⟨tx, -, rfl⟩ := mem_map.mp hval
  exact tx.fees_le_maxUint64

variable {currency : Currency} {hashes : Hashes} {block : Block} {state : ChainState} {now : Nat}

/-- No accepted block creates value beyond the subsidy of its height. -/
theorem createdValue_le_of_accept (hcheck : block.check currency hashes now = .success)
    (haccept : block.accept currency hashes state true = some .success)
    (hcovered : state.isUnderCheckpoint = false)
    (hunpopulated : ∀ coinbase ∈ block.transactions.head?, ∀ input ∈ coinbase.inputs,
      input.previousOutput.validation.cache.isValid = false) :
    block.createdValue ≤ block.spentValue + subsidy currency state.height true := by
  have hchecked := checked_of_check hcheck
  obtain ⟨hclaim, haccepted⟩ := accept_eq_success haccept hcovered
  obtain ⟨coinbase, rest, htransactions, -⟩ := hchecked.coinbase
  have htail : block.transactions.tail = rest := by rw [htransactions, tail_cons]
  have hcoinbase : coinbase.fees = 0 :=
    Transaction.fees_eq_zero (hunpopulated coinbase (by simp [htransactions]))
  have hspends : ∀ tx ∈ rest, tx.fees + tx.outputSum ≤ tx.prevoutSum := by
    intro tx htx
    have hmem : tx ∈ block.transactions := by simp [htransactions, htx]
    exact Transaction.fees_add_outputSum_le (hchecked.totalOutputValue_le hmem)
      (hchecked.isCoinbase_of_mem_tail (htail ▸ htx))
      (Transaction.accept_eq_success (haccepted tx hmem)).2
  have hfees : block.fees ≤ (rest.map Transaction.fees).sum := by
    have hsum := block.fees_le
    rwa [htransactions, map_cons, sum_cons, hcoinbase, zero_add] at hsum
  have hreward : block.claim ≤ block.fees + subsidy currency state.height true := by
    rw [isValidCoinbaseClaim, decide_eq_true_eq] at hclaim
    exact hclaim.trans (ceilingAdd_le (subsidy_le_maxUint64 currency state.height))
  have hclaimed : block.claim = coinbase.outputSum := by
    simp only [claim, htransactions]
    exact Transaction.totalOutputValue_eq (hchecked.totalOutputValue_le (by simp [htransactions]))
  calc
    block.createdValue = block.claim + (rest.map Transaction.outputSum).sum := by
      rw [createdValue, htransactions, map_cons, sum_cons, hclaimed]
    _ ≤ (rest.map Transaction.fees).sum + subsidy currency state.height true +
        (rest.map Transaction.outputSum).sum := by omega
    _ = (rest.map fun tx => tx.fees + tx.outputSum).sum + subsidy currency state.height true := by
      rw [sum_map_add]
      omega
    _ ≤ block.spentValue + subsidy currency state.height true := by
      rw [spentValue, htail]
      exact Nat.add_le_add_right (sum_le_sum hspends) _

section

/-- The coinbase claims the subsidy and a fee of one; the other transaction pays that fee. -/
def sampleTransactions : List Transaction :=
  [{ version := 1
     locktime := 0
     inputs :=
       [{ previousOutput := ⟨⟨nullHash, noPreviousOutput⟩, {}⟩
          script := ⟨[0x51, 0x51]⟩
          sequence := maxInputSequence }]
     outputs := [{ value := 5000000001, script := ⟨[0x51]⟩ }] },
   { version := 1
     locktime := 0
     inputs :=
       [{ previousOutput := ⟨⟨nullHash, 0⟩, { cache := { value := 10 } }⟩
          sequence := maxInputSequence }]
     outputs := [{ value := 9, script := ⟨[0x51]⟩ }] }]

/-- A block with a coinbase. -/
def sampleBlock : Block where
  header :=
    { version := 1
      previousBlockHash := nullHash
      merkle := hashLiteral 0x132e94f14ba8eff36b36e61b8c55f6f320d1af00a47b3eb37d162416a6697b27
      timestamp := 1
      bits := 0x207fffff
      nonce := 0 }
  transactions := sampleTransactions

/-- The first block above a genesis block, without any rule. -/
def sampleState : ChainState where
  data :=
    { height := 1
      hash := nullHash
      allowCollisionsHash := nullHash
      bip9Bit0Hash := nullHash
      bip9Bit1Hash := nullHash
      bitsSelf := 0x207fffff
      bitsOrdered := [0x207fffff]
      versionSelf := 1
      versionOrdered := []
      timestampSelf := 1
      timestampRetarget := 0
      timestampOrdered := [0] }
  forks := RuleFork.allowCollisions
  checkpoints := []
  activationTimes := {}
  active := { forks := 0, minimumVersion := 1 }
  medianTimePast := 0
  workRequired := 0x207fffff

theorem createdValue_le_of_accept_sample :
    sampleBlock.createdValue ≤ sampleBlock.spentValue + subsidy .btc sampleState.height true := by
  have hcheck : sampleBlock.check .btc .ofSha256 0 = .success := by decide +kernel
  have haccept : sampleBlock.accept .btc .ofSha256 sampleState true = some .success := by
    decide +kernel
  have hunpopulated : ∀ coinbase ∈ sampleBlock.transactions.head?, ∀ input ∈ coinbase.inputs,
      input.previousOutput.validation.cache.isValid = false := by decide +kernel
  exact createdValue_le_of_accept hcheck haccept (by decide) hunpopulated

end

end Block

end BitprimCore
