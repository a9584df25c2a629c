import BitprimCore.Chain.RoundTrip
import BitprimCore.Math.Sha256
import BitprimCore.Math.SipHash

/-!
# Compact blocks

A block by its header, its first transaction and short ids of the others, and its codec
(`message/compact_block`, `message/prefilled_transaction`). The keys of the short ids are taken
from the header and a nonce, which the sender and the receiver write out each on their own.
-/

namespace BitprimCore

open Decoder List LittleEndian Option Transaction

/-- A transaction sent in full. -/
structure PrefilledTransaction where
  index : UInt64
  transaction : Transaction
  deriving DecidableEq

namespace PrefilledTransaction

variable (currency : Currency)

/-- The witness is read and written in the builds that have it. -/
def hasWitness : Bool := decide (currency ≠ .bch)

/-- Reads from the wire. -/
def fromData (source : DataChunk) : Option (PrefilledTransaction × DataChunk) := do
  let (index, source) ← readVariableLittleEndian source
  let (transaction, source) ← Transaction.fromData currency true (hasWitness currency) source
  return ({ index := UInt64.ofNat index, transaction }, source)

/-- Serializes it. -/
def toData (prefilled : PrefilledTransaction) : DataChunk :=
  writeVariableLittleEndian prefilled.index.toNat ++
    prefilled.transaction.toData currency true (hasWitness currency)

def serializedSize (prefilled : PrefilledTransaction) : Nat :=
  variableUintSize prefilled.index.toNat +
    prefilled.transaction.serializedSize currency true (hasWitness currency)

/-- The source's `operator==`. -/
def Equal (prefilled prefilled' : PrefilledTransaction) : Prop :=
  prefilled.index = prefilled'.index ∧ prefilled.transaction.Equal prefilled'.transaction

def stripWitness (prefilled : PrefilledTransaction) : PrefilledTransaction :=
  { prefilled with transaction := prefilled.transaction.stripWitness }

end PrefilledTransaction

/-- A block of short ids. -/
structure CompactBlock where
  header : Header
  nonce : UInt64
  shortIds : List UInt64
  transactions : List PrefilledTransaction

/-- The low 48 bits in a word of 32 and one of 16. -/
def readShortId (source : DataChunk) : Option (UInt64 × DataChunk) := do
  let (lsb, source) ← readLittleEndian 4 source
  let (msb, source) ← readLittleEndian 2 source
  return ((UInt64.ofNat msb <<< 32) ||| UInt64.ofNat lsb, source)

/-- Writes six bytes. -/
def writeShortId (element : UInt64) : DataChunk :=
  let lsb := element &&& 0xffffffff
  let msb := (element >>> 32) &&& 0xffff
  ofNat 4 lsb.toNat ++ ofNat 2 msb.toNat

variable (keys : UInt64 × UInt64) (digest : HashDigest)

/-- The two keys that a digest gives. -/
def shortIdKeys : UInt64 × UInt64 :=
  (UInt64.ofNat (toNat (digest.val.take 8)), UInt64.ofNat (toNat ((digest.val.drop 8).take 8)))

/-- Six bytes of the hash. -/
def shortId : UInt64 := sipHashUint256 keys.1 keys.2 digest &&& 0xffffffffffff

/-- The bytes that the sender takes the keys from (`to_data_header_nonce` of a block). -/
def Block.toDataHeaderNonce (block : Block) (nonce : UInt64) : DataChunk :=
  block.header.toData true ++ ofNat 8 nonce.toNat

/-- The overload of `hash` for a block and a nonce. -/
def Block.nonceHash (hashes : Hashes) (block : Block) (nonce : UInt64) : HashDigest :=
  hashes.sha256Hash (block.toDataHeaderNonce nonce)

namespace CompactBlock

variable (currency : Currency) (hashes : Hashes)

/-- Of a block without transactions there is no first one to take, and the result is undefined. -/
def fromBlock (nonce : UInt64) (block : Block) : Option CompactBlock :=
  match block.transactions with
  | [] => none
  | first :: rest =>
    let keys := shortIdKeys (block.nonceHash hashes nonce)
    let witness := decide (currency ≠ .bch)
    some {
      header := block.header
      nonce
      shortIds := rest.map fun tx => shortId keys (tx.hash currency hashes witness)
      transactions := [{ index := 0, transaction := first }] }

/-- The first version of the protocol that has compact blocks (`level::bip152`). -/
def versionMinimum : UInt32 := 70014

/-- Reads from the wire. -/
def fromData (version : UInt32) (source : DataChunk) : Option (CompactBlock × DataChunk) := do
  let (header, source) ← Header.fromData true source
  let (nonce, source) ← readUInt64 source
  let (count, source) ← readVariableLittleEndian source
  -- guard against potential for arbitrary memory allocation
  let (shortIds, source) ←
    if count > currency.getMaxBlockSize then none else many readShortId count source
  let (count, source) ← readVariableLittleEndian source
  let (transactions, source) ←
    if count > currency.getMaxBlockSize then none
    else many (PrefilledTransaction.fromData currency) count source
  if version < versionMinimum then none
  else return ({ header, nonce, shortIds, transactions }, source)

/-- Serializes it. -/
def toData (block : CompactBlock) : DataChunk :=
  block.header.toData true ++ (ofNat 8 block.nonce.toNat ++
    ((writeVariableLittleEndian block.shortIds.length ++ block.shortIds.flatMap writeShortId) ++
      (writeVariableLittleEndian block.transactions.length ++
        block.transactions.flatMap (PrefilledTransaction.toData currency))))

def serializedSize (block : CompactBlock) : Nat :=
  Header.satoshiFixedSize + variableUintSize block.shortIds.length + block.shortIds.length * 6 +
    variableUintSize block.transactions.length + 8 +
    (block.transactions.map (PrefilledTransaction.serializedSize currency)).sum

/-- The bytes that the receiver takes the keys from (`to_data_header_nonce` of a compact block). -/
def toDataHeaderNonce (block : CompactBlock) : DataChunk :=
  block.header.toData true ++ ofNat 8 block.nonce.toNat

/-- Gives the keys. -/
def hash (block : CompactBlock) : HashDigest := hashes.sha256Hash block.toDataHeaderNonce

/-- The source's `operator==`. -/
def Equal (block block' : CompactBlock) : Prop :=
  block.header.Equal block'.header ∧ block.nonce = block'.nonce ∧
    block.shortIds = block'.shortIds ∧
    List.Forall₂ PrefilledTransaction.Equal block.transactions block'.transactions

def stripWitness (block : CompactBlock) : CompactBlock :=
  { block with transactions := block.transactions.map PrefilledTransaction.stripWitness }

end CompactBlock

theorem toNat_shortId :
    (shortId keys digest).toNat = (sipHashUint256 keys.1 keys.2 digest).toNat % 2 ^ 48 := by
  rw [shortId, UInt64.toNat_and]
  exact Nat.and_two_pow_sub_one_eq_mod _ 48

theorem toNat_shortId_lt : (shortId keys digest).toNat < 2 ^ 48 := by
  rw [toNat_shortId]
  exact Nat.mod_lt _ (by decide)

/-- An id of 48 bits is put together from its words. -/
theorem reads_readShortId {element : UInt64} (h : element.toNat < 2 ^ 48) :
    Reads readShortId (writeShortId element) element := by
  have hlsb : (element &&& 0xffffffff).toNat = element.toNat % 2 ^ 32 := by
    rw [UInt64.toNat_and]
    exact Nat.and_two_pow_sub_one_eq_mod element.toNat 32
  have hmsb : ((element >>> 32) &&& 0xffff).toNat = element.toNat / 2 ^ 32 := by
    rw [UInt64.toNat_and, UInt64.toNat_shiftRight]
    change element.toNat >>> 32 &&& (2 ^ 16 - 1) = _
    rw [Nat.and_two_pow_sub_one_eq_mod, Nat.shiftRight_eq_div_pow]
    omega
  have hjoin : (UInt64.ofNat (element.toNat / 2 ^ 32) <<< 32) |||
      UInt64.ofNat (element.toNat % 2 ^ 32) = element := by
    have hor := Nat.two_pow_add_eq_or_of_lt (i := 32)
      (Nat.mod_lt element.toNat (by decide)) (element.toNat / 2 ^ 32)
    have hhigh : element.toNat / 2 ^ 32 < 2 ^ 64 := by omega
    have hlow : element.toNat % 2 ^ 32 < 2 ^ 64 := by omega
    apply UInt64.toNat_inj.mp
    rw [UInt64.toNat_or, UInt64.toNat_shiftLeft, UInt64.toNat_ofNat_of_lt' hhigh,
      UInt64.toNat_ofNat_of_lt' hlow]
    change (element.toNat / 2 ^ 32) <<< 32 % 2 ^ 64 ||| element.toNat % 2 ^ 32 = element.toNat
    rw [Nat.shiftLeft_eq, Nat.mod_eq_of_lt (show element.toNat / 2 ^ 32 * 2 ^ 32 < 2 ^ 64 by omega),
      Nat.mul_comm, ← hor]
    omega
  intro rest
  have hlow := (reads_readLittleEndian
    (show element.toNat % 2 ^ 32 < 256 ^ 4 from Nat.mod_lt _ (by decide))).eq
  have hhigh := (reads_readLittleEndian (show element.toNat / 2 ^ 32 < 256 ^ 2 by omega)).eq
  simp only [readShortId, writeShortId, hlsb, hmsb, List.append_assoc, hlow, hhigh,
    Option.bind_eq_bind, Option.bind_some, Option.pure_def, hjoin]

theorem length_writeShortId (element : UInt64) : (writeShortId element).length = 6 := by
  simp [writeShortId]

namespace PrefilledTransaction

variable {currency : Currency} {prefilled : PrefilledTransaction}

/-- The prefilled transaction as its reader returns it. -/
def read (currency : Currency) (prefilled : PrefilledTransaction) : PrefilledTransaction where
  index := prefilled.index
  transaction :=
    if currency = .bch then (prefilled.transaction.bare true).stripWitness
    else prefilled.transaction.bare true

theorem reads_fromData (h : prefilled.transaction.Readable currency true) :
    Reads (fromData currency) (prefilled.toData currency) (prefilled.read currency) := by
  intro rest
  have hidx := (reads_readVariableLittleEndian prefilled.index.toNat_lt).eq
  have htx := (h.reads_fromData (hasWitness currency)).eq
  simp only [fromData, toData, append_assoc, hidx, htx, bind_eq_bind,
    Option.bind_some, Option.pure_def, UInt64.ofNat_toNat, read]
  by_cases hcur : currency = .bch <;> simp [hasWitness, hcur]

theorem length_toData (currency : Currency) (prefilled : PrefilledTransaction) :
    (prefilled.toData currency).length = prefilled.serializedSize currency := by
  simp [toData, serializedSize, Transaction.length_toData]

theorem equal_read (currency : Currency) (prefilled : PrefilledTransaction) :
    (prefilled.read currency).Equal
      (if currency = .bch then prefilled.stripWitness else prefilled) := by
  by_cases hcur : currency = .bch
  · simp only [read, if_pos hcur]
    exact ⟨rfl, equal_bare_stripWitness true prefilled.transaction⟩
  · simp only [read, if_neg hcur]
    exact ⟨rfl, equal_bare true prefilled.transaction⟩

end PrefilledTransaction

namespace CompactBlock

variable {currency : Currency} {block : CompactBlock}

/-- The ids of a compact block have 48 bits and its sizes are within the limits of its reader. -/
structure Readable (currency : Currency) (block : CompactBlock) : Prop where
  idCount : block.shortIds.length ≤ currency.getMaxBlockSize
  ids : ∀ element ∈ block.shortIds, element.toNat < 2 ^ 48
  transactionCount : block.transactions.length ≤ currency.getMaxBlockSize
  transactions : ∀ prefilled ∈ block.transactions, prefilled.transaction.Readable currency true

/-- The compact block as its reader returns it. -/
def read (currency : Currency) (block : CompactBlock) : CompactBlock where
  header := { block.header with medianTimePast := 0 }
  nonce := block.nonce
  shortIds := block.shortIds
  transactions := block.transactions.map (PrefilledTransaction.read currency)

theorem Readable.reads_fromData (h : block.Readable currency) :
    Reads (fromData currency versionMinimum) (block.toData currency) (block.read currency) := by
  intro rest
  have hheader := (Header.reads_fromData block.header).eq
  have hnonce := (reads_readUInt64 block.nonce).eq
  have hidCount := (reads_readVariableLittleEndian
    (h.idCount.trans_lt currency.getMaxBlockSize_lt)).eq
  have hids := (reads_many fun element helement => reads_readShortId (h.ids element helement)).eq
  have hcount := (reads_readVariableLittleEndian
    (h.transactionCount.trans_lt currency.getMaxBlockSize_lt)).eq
  have htxs := (reads_many fun prefilled hprefilled =>
    PrefilledTransaction.reads_fromData (h.transactions prefilled hprefilled)).eq
  simp only [fromData, toData, List.append_assoc, hheader, hnonce, hidCount, hids, hcount,
    htxs, if_neg h.idCount.not_gt, if_neg h.transactionCount.not_gt, Option.bind_eq_bind,
    Option.bind_some, Option.pure_def, List.map_id', if_neg (UInt32.lt_irrefl _), read]

theorem Readable.fromData_toData (h : block.Readable currency) :
    fromData currency versionMinimum (block.toData currency) = some (block.read currency, []) := by
  simpa only [append_nil] using h.reads_fromData []

/-- More ids than the largest block has bytes are refused. -/
theorem fromData_of_idCount_gt (hcount : block.shortIds.length < 2 ^ 64)
    (h : currency.getMaxBlockSize < block.shortIds.length) (version : UInt32) :
    fromData currency version (block.toData currency) = none := by
  have hheader := (Header.reads_fromData block.header).eq
  have hnonce := (reads_readUInt64 block.nonce).eq
  have hidCount := (reads_readVariableLittleEndian hcount).eq
  simp only [fromData, toData, append_assoc, hheader, hnonce, hidCount, gt_iff_lt, if_pos h,
    bind_eq_bind, bind_some, bind_none]

theorem length_toData (currency : Currency) (block : CompactBlock) :
    (block.toData currency).length = block.serializedSize currency := by
  have hheader : (block.header.toData true).length = Header.satoshiFixedSize := by
    simp [Header.toData, Header.satoshiFixedSize, block.header.previousBlockHash.property,
      block.header.merkle.property]
  have hprefilled : (fun prefilled : PrefilledTransaction => (prefilled.toData currency).length) =
      PrefilledTransaction.serializedSize currency :=
    funext (PrefilledTransaction.length_toData currency)
  simp only [toData, serializedSize, length_append, length_flatMap, hheader, length_writeShortId,
    hprefilled, map_const', sum_replicate_nat, length_ofNat, length_writeVariableLittleEndian]
  omega

theorem equal_read (currency : Currency) (block : CompactBlock) :
    (block.read currency).Equal (if currency = .bch then block.stripWitness else block) := by
  by_cases hcur : currency = .bch
  · rw [if_pos hcur]
    refine ⟨rfl, rfl, rfl, ?_⟩
    rw [read, stripWitness, forall₂_map_left_iff, forall₂_map_right_iff, forall₂_same]
    intro prefilled _
    simpa only [if_pos hcur] using prefilled.equal_read currency
  · rw [if_neg hcur]
    refine ⟨rfl, rfl, rfl, ?_⟩
    rw [read, forall₂_map_left_iff, forall₂_same]
    intro prefilled _
    simpa only [if_neg hcur] using prefilled.equal_read currency

section

variable {hashes : Hashes} {source : Block} {first : Transaction} {rest : List Transaction}

/-- The compact block of a block, by its transactions. -/
theorem fromBlock_of_cons (h : source.transactions = first :: rest) (nonce : UInt64) :
    fromBlock currency hashes nonce source = some {
      header := source.header
      nonce
      shortIds := rest.map fun tx => shortId (shortIdKeys (source.nonceHash hashes nonce))
        (tx.hash currency hashes (decide (currency ≠ .bch)))
      transactions := [{ index := 0, transaction := first }] } := by
  simp only [fromBlock, h]

theorem readable_fromBlock (hsource : source.transactions = first :: rest)
    (hfirst : first.Readable currency true) (hrest : rest.length ≤ currency.getMaxBlockSize)
    {nonce : UInt64} {compact : CompactBlock}
    (h : fromBlock currency hashes nonce source = some compact) : compact.Readable currency := by
  rw [fromBlock_of_cons hsource, Option.some.injEq] at h
  subst h
  constructor
  · simpa only [List.length_map] using hrest
  · simp only [List.forall_mem_map]
    exact fun tx _ => toNat_shortId_lt _ _
  · change 1 ≤ currency.getMaxBlockSize
    cases currency <;> decide
  · exact List.forall_mem_singleton.mpr hfirst

/-- The receiver of a compact block gets it back, and takes from it alone the keys that the sender
took from the block: under these, the ids are those of the other transactions in their order. -/
theorem transport_fromBlock (hsource : source.transactions = first :: rest)
    (hfirst : first.Readable currency true) (hrest : rest.length ≤ currency.getMaxBlockSize)
    (nonce : UInt64) :
    ∃ compact decoded, fromBlock currency hashes nonce source = some compact ∧
      fromData currency versionMinimum (compact.toData currency) = some (decoded, []) ∧
      decoded.Equal (if currency = .bch then compact.stripWitness else compact) ∧
      (compact.toData currency).length = compact.serializedSize currency ∧
      (∀ element ∈ decoded.shortIds, element.toNat < 2 ^ 48) ∧
      decoded.shortIds.map UInt64.toNat = rest.map fun tx =>
        (sipHashUint256 (shortIdKeys (decoded.hash hashes)).1 (shortIdKeys (decoded.hash hashes)).2
          (tx.hash currency hashes (decide (currency ≠ .bch)))).toNat % 2 ^ 48 := by
  have hcompact : fromBlock currency hashes nonce source = some _ := fromBlock_of_cons hsource nonce
  have hreadable := readable_fromBlock hsource hfirst hrest hcompact
  refine ⟨_, _, hcompact, hreadable.fromData_toData, equal_read currency _,
    length_toData currency _, hreadable.ids, ?_⟩
  simp only [read, List.map_map]
  exact List.map_congr_left fun tx _ => toNat_shortId _ _

end

section

/-- A header and a transaction with a witness, which stands in the block twice. -/
def doubleBlock : Block :=
  { Block.witnessBlock with
    transactions := [witnessSample, witnessSample] }

theorem transport_fromBlock_doubleBlock :
    ∃ compact decoded, fromBlock .btc Hashes.ofSha256 7 doubleBlock = some compact ∧
      fromData .btc versionMinimum (compact.toData .btc) = some (decoded, []) ∧
      decoded.Equal compact ∧ (compact.toData .btc).length = compact.serializedSize .btc ∧
      (∀ element ∈ decoded.shortIds, element.toNat < 2 ^ 48) ∧
      decoded.shortIds.map UInt64.toNat = [(sipHashUint256
        (shortIdKeys (decoded.hash Hashes.ofSha256)).1
        (shortIdKeys (decoded.hash Hashes.ofSha256)).2
        (witnessSample.hash .btc Hashes.ofSha256 true)).toNat % 2 ^ 48] :=
  transport_fromBlock rfl (readable_witnessSample .btc true)
    (show [witnessSample].length ≤ _ by decide) 7

/-- More transactions than the largest block has bytes. -/
def crowdedBlock (currency : Currency) : Block :=
  { Block.witnessBlock with
    transactions := witnessSample :: List.replicate (currency.getMaxBlockSize + 1) witnessSample }

/-- The `bch` build loses the witness of the first transaction, and every build refuses the ids of
a block with more transactions than it lets a block have bytes. -/
theorem transport_fromBlock_limits :
    (∃ compact decoded, fromBlock .bch Hashes.ofSha256 7 Block.witnessBlock = some compact ∧
      fromData .bch versionMinimum (compact.toData .bch) = some (decoded, []) ∧
      ¬ decoded.Equal compact) ∧
    ∃ compact, fromBlock .btc Hashes.ofSha256 7 (crowdedBlock .btc) = some compact ∧
      fromData .btc versionMinimum (compact.toData .btc) = none := by
  constructor
  · have hcompact : fromBlock .bch Hashes.ofSha256 7 Block.witnessBlock = some _ :=
      fromBlock_of_cons rfl 7
    have hreadable := readable_fromBlock rfl (readable_witnessSample .bch true) (by decide) hcompact
    refine ⟨_, _, hcompact, hreadable.fromData_toData, ?_⟩
    rintro ⟨-, -, -, htransactions⟩
    have hfirst := (forall₂_cons.mp htransactions).1.2
    revert hfirst
    decide
  · have hcompact : fromBlock .btc Hashes.ofSha256 7 (crowdedBlock .btc) = some _ :=
      fromBlock_of_cons rfl 7
    refine ⟨_, hcompact, fromData_of_idCount_gt ?_ ?_ versionMinimum⟩
    · rw [length_map, length_replicate]
      decide
    · rw [length_map, length_replicate]
      exact Nat.lt_succ_self _

end

end CompactBlock

end BitprimCore
