import BitprimCore.Chain.DoubleSpend
import BitprimCore.Config.Checkpoint
import BitprimCore.Math.Sha256

/-!
# The merkle root commits to the transactions

Two blocks that pass `check` and have one merkle root have the same list of transaction ids, as long
as no transaction could be taken for a node of the tree and no collision occurs among the messages
that the two trees hash.

The tree doubles the last hash of an odd level, so a longer list with a doubled tail has the same
root. Such a list repeats a transaction, and a repeated transaction is either a second coinbase or
spends its previous outputs twice, which `check` rejects.
-/

namespace BitprimCore

open List MerkleTree Transaction

namespace Transaction

variable {tx tx' : Transaction}

/-- A transaction whose size can be written has counts and sizes that can be written. -/
theorem sized_of_serializedSize_lt (currency : Currency)
    (h : tx.serializedSize currency true false < 2 ^ 64) : tx.Sized := by
  have hinputs : (tx.inputs.map fun input => input.serializedSize currency true false).sum < 2 ^ 64 :=
    lt_of_le_of_lt (by simp only [serializedSize, Bool.false_and]; omega) h
  have houtputs : (tx.outputs.map fun output => output.serializedSize true).sum < 2 ^ 64 :=
    lt_of_le_of_lt (by simp only [serializedSize]; omega) h
  have hinput : ∀ input ∈ tx.inputs,
      input.script.bytes.length + 1 ≤ input.serializedSize currency true false := by
    intro input _
    simp only [Input.serializedSize, Script.serializedSize]
    omega
  have houtput : ∀ output ∈ tx.outputs,
      output.script.bytes.length + 1 ≤ output.serializedSize true := by
    intro output _
    simp only [Output.serializedSize, Script.serializedSize]
    omega
  constructor
  · apply lt_of_le_of_lt _ hinputs
    calc
      tx.inputs.length = (tx.inputs.map fun input => input.serializedSize currency true false).length :=
        (List.length_map _).symm
      _ ≤ _ := List.length_le_sum_of_one_le _ fun size hsize => by
        obtain ⟨input, hmem, rfl⟩ := List.mem_map.mp hsize
        exact (Nat.le_add_left 1 _).trans (hinput input hmem)
  · apply lt_of_le_of_lt _ houtputs
    calc
      tx.outputs.length = (tx.outputs.map fun output => output.serializedSize true).length :=
        (List.length_map _).symm
      _ ≤ _ := List.length_le_sum_of_one_le _ fun size hsize => by
        obtain ⟨output, hmem, rfl⟩ := List.mem_map.mp hsize
        exact (Nat.le_add_left 1 _).trans (houtput output hmem)
  · intro input hmem
    have hle := List.le_sum_of_mem (List.mem_map_of_mem (f := fun input : Input =>
      input.serializedSize currency true false) hmem)
    exact lt_of_lt_of_le (Nat.lt_of_succ_le (hinput input hmem)) (hle.trans hinputs.le)
  · intro output hmem
    have hle := List.le_sum_of_mem (List.mem_map_of_mem (f := fun output : Output =>
      output.serializedSize true) hmem)
    exact lt_of_lt_of_le (Nat.lt_of_succ_le (houtput output hmem)) (hle.trans houtputs.le)

theorem previousOutputs_eq_of_wireKey_eq (h : tx.wireKey = tx'.wireKey) :
    tx.previousOutputs = tx'.previousOutputs := by
  have hinputs : tx.inputs.map Input.wireKey = tx'.inputs.map Input.wireKey :=
    congrArg (fun key => key.2.1.1) h
  have hpoints := congrArg (map Prod.fst) hinputs
  rw [map_map, map_map] at hpoints
  exact hpoints

theorem isCoinbase_eq (tx : Transaction) :
    tx.isCoinbase = match tx.previousOutputs with
      | [point] => point.isNull
      | _ => false := by
  rcases tx with ⟨version, locktime, inputs, outputs, duplicate⟩
  rcases inputs with _ | ⟨input, _ | ⟨input', inputs⟩⟩ <;> rfl

end Transaction

namespace Block

section

variable (currency : Currency) (hashes : Hashes) (block : Block)

/-- The wire encodings from which the transaction ids are taken. -/
def wireMessages : List DataChunk := block.transactions.map fun tx => tx.toData currency true false

/-- The number of levels of the hash tree. -/
def merkleDepth : Nat :=
  let ids := block.toHashes currency hashes false
  depth ids.length ids.length

/-- The pairs of digests that the hash tree joins. -/
def merklePairs : List (HashDigest × HashDigest) :=
  joined (hashPair hashes) (block.merkleDepth currency hashes)
    (block.toHashes currency hashes false)

/-- Everything that is hashed for the merkle root. -/
def merkleMessages : List DataChunk :=
  block.wireMessages currency ++
    (block.merklePairs currency hashes).map fun pair => pair.1.val ++ pair.2.val

theorem wireMessage_mem_merkleMessages {tx : Transaction} (htx : tx ∈ block.transactions) :
    tx.toData currency true false ∈ block.merkleMessages currency hashes :=
  mem_append_left _ (mem_map.mpr ⟨tx, htx, rfl⟩)

theorem joined_mem_merkleMessages {pair : HashDigest × HashDigest}
    (hpair : pair ∈ block.merklePairs currency hashes) :
    pair.1.val ++ pair.2.val ∈ block.merkleMessages currency hashes :=
  mem_append_right _ (mem_map.mpr ⟨pair, hpair, rfl⟩)

theorem toHashes_eq :
    block.toHashes currency hashes false = (block.wireMessages currency).map hashes.bitcoinHash := by
  have hwit : (if currency = .bch then false else false) = false := ite_self false
  simp only [toHashes, wireMessages, hwit, Transaction.hash, Bool.false_and, map_map]
  rfl

/-- A transaction id is the hash of one of the messages, that of the transaction. -/
theorem exists_of_mem_toHashes {id : HashDigest} (hid : id ∈ block.toHashes currency hashes false) :
    ∃ tx ∈ block.transactions, tx.toData currency true false ∈ block.merkleMessages currency hashes ∧
      hashes.bitcoinHash (tx.toData currency true false) = id := by
  simp only [toHashes_eq, wireMessages, map_map, mem_map, Function.comp_apply] at hid
  obtain ⟨tx, htx, hhash⟩ := hid
  exact ⟨tx, htx, wireMessage_mem_merkleMessages _ _ _ htx, hhash⟩

end

variable {currency : Currency} {hashes : Hashes} {block block' : Block} {now now' : Nat}

section

variable (h : block.Checked currency hashes now)

include h

/-- The transactions of a checked block are small enough to be told apart by their encoding. -/
theorem Checked.sized : ∀ tx ∈ block.transactions, tx.Sized := by
  intro tx htx
  apply sized_of_serializedSize_lt currency
  have hmem := le_sum_of_mem (mem_map_of_mem
    (f := fun tx : Transaction => tx.serializedSize currency true false) htx)
  have hwit : (if currency = .bch then false else false) = false := ite_self false
  have hsize := h.size
  simp only [serializedSize, hwit] at hsize
  have hlimit : currency.getMaxBlockSize < 2 ^ 64 := by cases currency <;> decide
  omega

/-- Two transactions with one encoding spend the same points. -/
theorem Checked.previousOutputs_eq {tx tx' : Transaction}
    (htx : tx ∈ block.transactions) (htx' : tx' ∈ block.transactions)
    (hdata : tx.toData currency true false = tx'.toData currency true false) :
    tx.previousOutputs = tx'.previousOutputs := by
  apply previousOutputs_eq_of_wireKey_eq
  exact (toData_wire_eq_iff currency (h.sized tx htx) (h.sized tx' htx')).mp hdata

/-- The encodings of the transactions of a checked block differ. -/
theorem Checked.nodup_wireMessages : (block.wireMessages currency).Nodup := by
  obtain ⟨coinbase, rest, htxs, hcoinbase⟩ := h.coinbase
  have hrest : ∀ tx ∈ rest, tx ∈ block.transactions := by
    intro tx htx
    rw [htxs]
    exact mem_cons_of_mem _ htx
  have htail : block.transactions.tail = rest := by rw [htxs, tail_cons]
  rw [wireMessages, htxs, map_cons, nodup_cons]
  constructor
  · intro hmem
    obtain ⟨tx, htx, hdata⟩ := mem_map.mp hmem
    have hcopy : tx.isCoinbase := by
      have hpoints := h.previousOutputs_eq (hrest tx htx) (by simp [htxs]) hdata
      rwa [isCoinbase_eq, hpoints, ← isCoinbase_eq]
    rw [h.isCoinbase_of_mem_tail (htail ▸ htx)] at hcopy
    cases hcopy
  · have hspends := h.doubleSpend
    rw [isInternalDoubleSpend_eq_false_iff, htail, nodup_flatMap] at hspends
    rw [List.Nodup, pairwise_map]
    apply hspends.2.imp_of_mem
    intro tx tx' htx htx' hdisjoint hdata
    have hpoints := h.previousOutputs_eq (hrest tx htx) (hrest tx' htx') hdata
    have hinputs := (check_block_eq_success (h.transactions tx (hrest tx htx))).1
    obtain ⟨input, inputs, hinput⟩ := exists_cons_of_ne_nil hinputs
    have hpoint : input.previousOutput.toPoint ∈ tx.previousOutputs := by
      simp [previousOutputs, hinput]
    exact hdisjoint hpoint (hpoints ▸ hpoint)

theorem Checked.nodup_toHashes
    (hcoll : CollisionFree hashes.bitcoinHash (block.merkleMessages currency hashes)) :
    (block.toHashes currency hashes false).Nodup := by
  rw [toHashes_eq]
  apply List.Nodup.map_on _ h.nodup_wireMessages
  intro a ha b hb hab
  exact hcoll.eq_of_hash_eq (mem_append_left _ ha) (mem_append_left _ hb) hab

end

instance : IsStrictTotalOrder HashDigest fun a b => a.val < b.val where
  irrefl _ := List.lt_irrefl _
  trans _ _ _ := List.lt_trans
  trichotomous _ _ hab hba :=
    Subtype.ext (List.le_antisymm (List.not_lt.mp hba) (List.not_lt.mp hab))

theorem isDistinctTransactionSet_iff :
    block.isDistinctTransactionSet currency hashes ↔
      (block.toHashes currency hashes false).Nodup := by
  have hwit : (if currency = .bch then false else false) = false := ite_self false
  simp only [isDistinctTransactionSet, Duplicates.isDistinct_iff_nodup, toHashes, hwit]

theorem Checked.toHashes_ne_nil (h : block.Checked currency hashes now) :
    block.toHashes currency hashes false ≠ [] := by
  obtain ⟨coinbase, rest, htxs, -⟩ := h.coinbase
  simp [toHashes, htxs]

/-- The levels of the tree over the transaction ids leave the merkle root of the header. -/
theorem Checked.reduce_toHashes (h : block.Checked currency hashes now) :
    reduce (hashPair hashes) (block.merkleDepth currency hashes)
      (block.toHashes currency hashes false) = [block.header.merkle] := by
  have hlen := length_reduce_depth (hashPair hashes)
    (le_refl (block.toHashes currency hashes false).length) h.toHashes_ne_nil
  obtain ⟨root, hroot⟩ := length_eq_one_iff.mp hlen
  have hgenerated : block.generateMerkleRoot currency hashes false = root := by
    simp only [generateMerkleRoot, reduceLoop_eq, hroot, head?_cons, Option.getD_some]
  rw [merkleDepth, hroot, ← hgenerated, h.merkle]

/-- The node function is injective on pairs whose messages do not collide. -/
theorem hashPair_injOn {messages : List DataChunk} {pairs : Set (HashDigest × HashDigest)}
    (hcoll : CollisionFree hashes.bitcoinHash messages)
    (hpairs : ∀ pair ∈ pairs, pair.1.val ++ pair.2.val ∈ messages) :
    Set.InjOn (hashPair hashes) pairs := by
  intro p hp q hq hpq
  have hmessage := hcoll.eq_of_hash_eq (hpairs p hp) (hpairs q hq) hpq
  obtain ⟨hfirst, hsecond⟩ := append_inj hmessage (p.1.property.trans q.1.property.symm)
  exact Prod.ext (Subtype.ext hfirst) (Subtype.ext hsecond)

/-- The merkle root commits to the list of transaction ids, and the ids of one block differ. -/
theorem merkle_root_commits (hcheck : block.check currency hashes now = .success)
    (hcheck' : block'.check currency hashes now' = .success)
    (hmerkle : block.header.merkle = block'.header.merkle)
    (hsize : ∀ tx ∈ block.transactions ++ block'.transactions,
      (tx.toData currency true false).length ≠ 64)
    (hcollision : CollisionFree hashes.bitcoinHash
      (block.merkleMessages currency hashes ++ block'.merkleMessages currency hashes)) :
    block.toHashes currency hashes false = block'.toHashes currency hashes false ∧
      block.isDistinctTransactionSet currency hashes = true ∧
      block'.isDistinctTransactionSet currency hashes = true := by
  have hchecked := checked_of_check hcheck
  have hchecked' := checked_of_check hcheck'
  have hnodup := hchecked.nodup_toHashes (hcollision.mono (subset_append_left _ _))
  have hnodup' := hchecked'.nodup_toHashes (hcollision.mono (subset_append_right _ _))
  rw [isDistinctTransactionSet_iff, isDistinctTransactionSet_iff]
  refine ⟨?_, hnodup, hnodup'⟩
  have hpairs : ∀ pair, pair ∈ block.merklePairs currency hashes ∨
      pair ∈ block'.merklePairs currency hashes → pair.1.val ++ pair.2.val ∈
        block.merkleMessages currency hashes ++ block'.merkleMessages currency hashes := by
    intro pair hpair
    rw [mem_append]
    exact hpair.imp (joined_mem_merkleMessages _ _ _) (joined_mem_merkleMessages _ _ _)
  apply eq_of_roots_eq hnodup hnodup' hchecked.toHashes_ne_nil hchecked'.toHashes_ne_nil
    (hashPair_injOn hcollision hpairs)
  · intro id hid pair hpair hnode
    obtain ⟨tx, htx, hmessage, rfl⟩ : ∃ tx ∈ block.transactions ++ block'.transactions,
        tx.toData currency true false ∈
          block.merkleMessages currency hashes ++ block'.merkleMessages currency hashes ∧
        hashes.bitcoinHash (tx.toData currency true false) = id := by
      rcases hid with hid | hid
      · obtain ⟨tx, htx, hmessage, hhash⟩ := exists_of_mem_toHashes _ _ _ hid
        exact ⟨tx, mem_append_left _ htx, mem_append_left _ hmessage, hhash⟩
      · obtain ⟨tx, htx, hmessage, hhash⟩ := exists_of_mem_toHashes _ _ _ hid
        exact ⟨tx, mem_append_right _ htx, mem_append_right _ hmessage, hhash⟩
    have hdata := hcollision.eq_of_hash_eq hmessage (hpairs pair hpair) hnode
    apply hsize tx htx
    rw [hdata, length_append, pair.1.property, pair.2.property]
  · rw [hchecked.reduce_toHashes, hchecked'.reduce_toHashes, hmerkle]

section

/-- A transaction that spends one point. -/
def spendOf (point : Point) (script : Script) : Transaction where
  version := 1
  locktime := 0
  inputs := [{ previousOutput := ⟨point, {}⟩, script, sequence := maxInputSequence }]
  outputs := [{ value := 9, script := ⟨[0x51]⟩ }]

/-- Three transactions, so that the tree doubles the last id. -/
def oddBlock (nonce : UInt32) : Block where
  header :=
    { version := 1
      previousBlockHash := nullHash
      merkle := hashLiteral 0xa01ebcdca93e5c69e9bd41ab1a6ae9e096b7ec35b315cf0cdf96885c3bc2dd7b
      timestamp := 1
      bits := 0x207fffff
      nonce }
  transactions :=
    [spendOf ⟨nullHash, noPreviousOutput⟩ ⟨[0x51, 0x51]⟩, spendOf ⟨nullHash, 0⟩ {},
      spendOf ⟨nullHash, 1⟩ {}]

theorem merkle_root_commits_odd :
    (oddBlock 1).toHashes .btc .ofSha256 false = (oddBlock 3).toHashes .btc .ofSha256 false ∧
      (oddBlock 1).isDistinctTransactionSet .btc .ofSha256 = true ∧
      (oddBlock 3).isDistinctTransactionSet .btc .ofSha256 = true := by
  have hcheck : (oddBlock 1).check .btc .ofSha256 0 = .success := by decide +kernel
  have hcheck' : (oddBlock 3).check .btc .ofSha256 0 = .success := by decide +kernel
  exact merkle_root_commits hcheck hcheck' rfl (by decide +kernel) (by decide +kernel)

end

end Block

end BitprimCore
