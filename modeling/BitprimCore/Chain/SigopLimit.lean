import BitprimCore.Chain.Conservation

/-!
# The limit of signature operations

With segregated witnesses the memory pool admits a transaction up to four times the signature
operations of the old block limit. A block is held to the limit that grows with its size. A block
that is not too heavy has at most a million bytes without its witnesses, so for it that limit is
the old one.
-/

namespace BitprimCore

open Currency RuleFork

theorem Header.accept_ne_blockEmbeddedSigopLimit (hashes : Hashes) (header : Header)
    (state : ChainState) : header.accept hashes state ≠ .blockEmbeddedSigopLimit := by
  unfold accept
  split_ifs <;> decide

namespace Transaction

variable (currency : Currency) (tx : Transaction) (state : ChainState) (transactionPool : Bool)

theorem acceptPrevouts_ne_blockEmbeddedSigopLimit :
    tx.acceptPrevouts currency state transactionPool ≠ .blockEmbeddedSigopLimit := by
  unfold acceptPrevouts
  extract_lets
  split_ifs <;> decide

theorem accept_ne_blockEmbeddedSigopLimit :
    tx.accept currency state false ≠ some .blockEmbeddedSigopLimit := by
  intro h
  simp (disch := decide) only [accept, check_eq_some_iff, Bool.false_eq_true, if_false,
    Option.some.injEq] at h
  exact tx.acceptPrevouts_ne_blockEmbeddedSigopLimit currency state false h.2.2.2

end Transaction

theorem firstErrorOf_ne {α : Type*} {test : α → Option ErrorCode} {target : ErrorCode}
    (htarget : target ≠ .success) {items : List α} (h : ∀ item ∈ items, test item ≠ some target) :
    firstErrorOf test items ≠ some target := by
  induction items with
  | nil => simpa [firstErrorOf] using htarget.symm
  | cons item items ih =>
    rw [List.forall_mem_cons] at h
    rw [firstErrorOf]
    cases hitem : test item with
    | none => simp
    | some code =>
      by_cases hcode : code = .success
      · simpa [hcode] using ih h.2
      · simpa [hcode, hitem] using h.1

namespace Block

theorem serializedSize_le_witness (currency : Currency) (block : Block) :
    block.serializedSize currency false ≤ block.serializedSize currency true := by
  have htxs := List.sum_le_sum (l := block.transactions) fun tx _ =>
    tx.serializedSize_le_witness currency
  unfold serializedSize
  cases currency <;> simp [htxs]

/-- A block within the weight limit is allowed the signature operations of one million bytes. -/
theorem allowedSigops_of_weight_le {block : Block}
    (h : block.weight .btc ≤ maxBlockWeight .btc) :
    getAllowedSigops (block.serializedSize .btc false) = getMaxBlockSigops .btc := by
  have hle := block.serializedSize_le_witness .btc
  have hsize : block.serializedSize .btc false ≤ 1000000 := by
    unfold weight baseSizeContribution totalSizeContribution at h
    have hlimit : maxBlockWeight .btc = 4000000 := rfl
    omega
  have hmillions : (block.serializedSize .btc false - 1) / oneMillionBytesBlock = 0 :=
    Nat.div_eq_of_lt (by unfold oneMillionBytesBlock; omega)
  rw [getAllowedSigops, hmillions]
  rfl

/-- No check before that of the signature operations decides about the block. -/
structure ReachesSigopCheck (hashes : Hashes) (block : Block) (state : ChainState)
    (transactions : Bool) : Prop where
  header : block.header.accept hashes state = .success
  uncovered : state.isUnderCheckpoint = false
  weight : block.weight .btc ≤ maxBlockWeight .btc
  coinbaseScript : state.isForkEnabled bip34Rule = true →
    block.isValidCoinbaseScript .btc state.height = true
  coinbaseClaim : block.isValidCoinbaseClaim .btc state.height = true
  isFinal : block.isFinal state.height (if state.isForkEnabled bip113Rule then
    state.medianTimePast else block.header.timestamp) = some true
  witnessCommitment : block.isValidWitnessCommitment .btc hashes = true
  transactions : transactions = true

variable {hashes : Hashes} {block : Block} {state : ChainState} {transactions : Bool}

theorem acceptTransactions_ne_blockEmbeddedSigopLimit (currency : Currency) (block : Block)
    (state : ChainState) :
    block.acceptTransactions currency state ≠ some .blockEmbeddedSigopLimit :=
  firstErrorOf_ne (by decide) fun tx _ => tx.accept_ne_blockEmbeddedSigopLimit currency state

theorem acceptFinal_eq_blockEmbeddedSigopLimit_iff (hfork : state.isBip141Enabled .btc) :
    block.acceptFinal .btc hashes state transactions = some .blockEmbeddedSigopLimit ↔
      block.isValidWitnessCommitment .btc hashes ∧ transactions ∧
        getAllowedSigops (block.serializedSize .btc false) <
          block.signatureOperations .btc (state.isForkEnabled bip16Rule) true := by
  have hrest := acceptTransactions_ne_blockEmbeddedSigopLimit .btc block state
  simp (disch := decide) only [acceptFinal, hfork, check_eq_some_iff]
  cases transactions with
  | false => simp
  | true =>
    by_cases hsigops : getAllowedSigops (block.serializedSize .btc false) <
        block.signatureOperations .btc (state.isForkEnabled bip16Rule) true
    · simp [hsigops]
    · simp [hsigops, hrest]

theorem acceptUncovered_eq_blockEmbeddedSigopLimit_iff (hfork : state.isBip141Enabled .btc) :
    block.acceptUncovered .btc hashes state transactions = some .blockEmbeddedSigopLimit ↔
      block.weight .btc ≤ maxBlockWeight .btc ∧
        (state.isForkEnabled bip34Rule → block.isValidCoinbaseScript .btc state.height) ∧
        block.isValidCoinbaseClaim .btc state.height ∧
        block.isFinal state.height (if state.isForkEnabled bip113Rule then
          state.medianTimePast else block.header.timestamp) = some true ∧
        block.acceptFinal .btc hashes state transactions = some .blockEmbeddedSigopLimit := by
  simp (disch := decide) only [acceptUncovered, check_eq_some_iff, hfork]
  generalize block.isFinal state.height (if state.isForkEnabled bip113Rule then
    state.medianTimePast else block.header.timestamp) = isFinal
  rcases isFinal with _ | _ | _ <;> simp

/-- The block is rejected for its signature operations when the check is reached and fails. -/
theorem accept_eq_blockEmbeddedSigopLimit_iff (hfork : state.isBip141Enabled .btc) :
    block.accept .btc hashes state transactions = some .blockEmbeddedSigopLimit ↔
      block.ReachesSigopCheck hashes state transactions ∧
        getAllowedSigops (block.serializedSize .btc false) <
          block.signatureOperations .btc (state.isForkEnabled bip16Rule) true := by
  have hheader := block.header.accept_ne_blockEmbeddedSigopLimit hashes state
  constructor
  · intro h
    have hcode : block.header.accept hashes state = .success := by
      by_contra hcode
      simp [accept, hcode, hheader] at h
    have hcovered : state.isUnderCheckpoint = false := by
      by_contra hcovered
      rw [Bool.not_eq_false] at hcovered
      simp [accept, hcode, hcovered] at h
    have huncovered : block.acceptUncovered .btc hashes state transactions =
        some .blockEmbeddedSigopLimit := by
      simpa [accept, hcode, hcovered] using h
    obtain ⟨hweight, hscript, hclaim, hisFinal, hfinal⟩ :=
      (acceptUncovered_eq_blockEmbeddedSigopLimit_iff hfork).mp huncovered
    obtain ⟨hcommitment, htxs, hsigops⟩ :=
      (acceptFinal_eq_blockEmbeddedSigopLimit_iff hfork).mp hfinal
    exact ⟨⟨hcode, hcovered, hweight, hscript, hclaim, hisFinal, hcommitment, htxs⟩, hsigops⟩
  · rintro ⟨h, hsigops⟩
    have hfinal := (acceptFinal_eq_blockEmbeddedSigopLimit_iff hfork).mpr
      ⟨h.witnessCommitment, h.transactions, hsigops⟩
    have huncovered := (acceptUncovered_eq_blockEmbeddedSigopLimit_iff hfork).mpr
      ⟨h.weight, h.coinbaseScript, h.coinbaseClaim, h.isFinal, hfinal⟩
    simpa [accept, h.header, h.uncovered] using huncovered

/-- The signature operations of a block are those of its second transaction when the first has
none and they do not saturate. -/
theorem signatureOperations_pair {currency : Currency} {bip16 bip141 : Bool}
    {coinbase tx : Transaction} (htxs : block.transactions = [coinbase, tx])
    (hcur : currency ≠ .bch)
    (hcoinbase : coinbase.signatureOperations currency bip16 bip141 = 0)
    (hbound : tx.signatureOperations currency bip16 bip141 ≤ maxUint64) :
    block.signatureOperations currency bip16 bip141 =
      tx.signatureOperations currency bip16 bip141 := by
  rw [signatureOperations, if_neg hcur, htxs, accumulateCeiling, List.map_cons,
    hcoinbase, List.map_cons, List.map_nil, Saturating.sum_eq_min]
  · simpa using hbound
  · simpa using hbound

/-- A transaction that the pool admits by its signature operations, alone in a block with a
coinbase that has none, does not make the block exceed the limit exactly when it keeps to the old
limit, or when another check decides about the block. -/
theorem accept_ne_blockEmbeddedSigopLimit_iff {coinbase tx : Transaction}
    (hfork : state.isBip141Enabled .btc = true)
    (htransactions : block.transactions = [coinbase, tx])
    (hcoinbase : coinbase.signatureOperations .btc (state.isForkEnabled bip16Rule) true = 0)
    (hpool : tx.signatureOperations .btc (state.isForkEnabled bip16Rule) true ≤
      maxFastSigops .btc) :
    block.accept .btc hashes state transactions ≠ some .blockEmbeddedSigopLimit ↔
      (block.ReachesSigopCheck hashes state transactions →
        tx.signatureOperations .btc (state.isForkEnabled bip16Rule) true ≤
          getMaxBlockSigops .btc) := by
  rw [Ne, accept_eq_blockEmbeddedSigopLimit_iff hfork, not_and]
  refine forall_congr' fun hreaches => ?_
  rw [allowedSigops_of_weight_le hreaches.weight, not_lt,
    signatureOperations_pair htransactions (by decide) hcoinbase (hpool.trans (by decide))]

section

/-- The sample of a block with another script in the output of the second transaction, which pays
no fee. -/
def sigopBlock (script : DataChunk) : Block where
  header := sampleBlock.header
  transactions :=
    [{ version := 1
       locktime := 0
       inputs :=
         [{ previousOutput := ⟨⟨nullHash, noPreviousOutput⟩, {}⟩
            script := ⟨[0x51, 0x51]⟩
            sequence := maxInputSequence }]
       outputs := [{ value := 5000000000, script := ⟨[0x51]⟩ }] },
     { version := 1
       locktime := 0
       inputs :=
         [{ previousOutput := ⟨⟨nullHash, 0⟩, { cache := { value := 10 } }⟩
            sequence := maxInputSequence }]
       outputs := [{ value := 10, script := ⟨script⟩ }] }]

def segwitState : ChainState :=
  { sampleState with active := { forks := bip141Rule, minimumVersion := 1 } }

theorem accept_ne_blockEmbeddedSigopLimit_sample :
    (sigopBlock [0xae]).accept .btc .ofSha256 segwitState true ≠ some .blockEmbeddedSigopLimit := by
  refine (accept_ne_blockEmbeddedSigopLimit_iff (by decide) rfl ?_ ?_).mpr fun _ => ?_ <;>
    decide +kernel

/-- 251 multiple signature checks weigh 20080 operations: the pool admits them, the block does not
hold them. -/
theorem accept_sigopBlock_eq_blockEmbeddedSigopLimit :
    segwitState.isBip141Enabled .btc = true ∧
      (∃ coinbase tx, (sigopBlock (List.replicate 251 0xae)).transactions = [coinbase, tx] ∧
        coinbase.signatureOperations .btc (segwitState.isForkEnabled bip16Rule) true = 0 ∧
        tx.signatureOperations .btc (segwitState.isForkEnabled bip16Rule) true ≤
          maxFastSigops .btc) ∧
      (sigopBlock (List.replicate 251 0xae)).accept .btc .ofSha256 segwitState true =
        some .blockEmbeddedSigopLimit := by
  refine ⟨by decide, ⟨_, _, rfl, ?_, ?_⟩, ?_⟩ <;> decide +kernel

end

end Block

end BitprimCore
