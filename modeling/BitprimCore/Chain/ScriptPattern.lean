import BitprimCore.Chain.FindAndDelete
import BitprimCore.Chain.ScriptTemplate
import BitprimCore.Machine.PushData

/-!
# Script patterns

The standard forms of scripts, which wallets build and recognise (`machine/script_pattern`,
`chain/script`). The forms of outputs exclude each other by their first operation or their number
of operations, and each is recognised in the script that is built in it.
-/

namespace BitprimCore

open Operation

def compressedEven : UInt8 := 0x02
def compressedOdd : UInt8 := 0x03
def uncompressedSign : UInt8 := 0x04

variable (point : DataChunk)

/-- In 33 bytes. -/
def isCompressedKey : Bool :=
  if point.length ≠ 33 then false
  else point.headD 0 == compressedEven || point.headD 0 == compressedOdd

/-- In 65 bytes. -/
def isUncompressedKey : Bool :=
  if point.length ≠ 65 then false else point.headD 0 == uncompressedSign

/-- A key of either form. -/
def isPublicKey : Bool := isCompressedKey point || isUncompressedKey point

def minEndorsementSize : Nat := 9
def maxEndorsementSize : Nat := 73

/-- By its size only. -/
def isEndorsement (endorsement : DataChunk) : Bool :=
  decide (minEndorsementSize ≤ endorsement.length) &&
    decide (endorsement.length ≤ maxEndorsementSize)

def maxNullDataSize : Nat := 80

/-- The standard forms. -/
inductive ScriptPattern where
  | nullData
  | payMultisig
  | payPublicKey
  | payKeyHash
  | payScriptHash
  | signMultisig
  | signPublicKey
  | signKeyHash
  | signScriptHash
  | nonStandard
  deriving DecidableEq

namespace Script

variable {data : DataChunk}

variable (ops : List Operation)

/-- Every operation is a push. -/
def isPushOnly : Bool := ops.all fun op => op.code.isPush

/-- The push is in minimal form (`is_minimal_push`). -/
def isMinimalPush (op : Operation) : Bool := op.code == minimalOpcodeFromData op.data

/-- A return and a short push. -/
def isNullDataPattern : Bool :=
  match ops with
  | [op0, op1] =>
    op0.code == .return_ && isMinimalPush op1 && decide (op1.data.length ≤ maxNullDataSize)
  | _ => false

/-- The opcode at an index, as a number. -/
def codeAt (index : Nat) : Nat :=
  match ops[index]? with
  | some op => op.code.toByte.toNat
  | none => 0

/-- Pays to m of n keys. -/
def isPayMultisigPattern : Bool :=
  let opCount := ops.length
  if opCount < 4 || (ops.getLast?.map code) != some .checkmultisig then false
  else
    let opM := codeAt ops 0
    let opN := codeAt ops (opCount - 2)
    if opM < 81 || opM > opN || opN < 81 || opN > 96 then false
    else if opN - 81 + 1 ≠ opCount - 3 then false
    else ((ops.drop 1).take (opCount - 3)).all fun op => isPublicKey op.data

/-- Pays to a key. -/
def isPayPublicKeyPattern : Bool :=
  match ops with
  | [op0, op1] => isPublicKey op0.data && op1.code == .checksig
  | _ => false

/-- Pays to the hash of a key. -/
def isPayKeyHashPattern : Bool :=
  match ops with
  | [op0, op1, op2, op3, op4] =>
    op0.code == .dup && op1.code == .hash160 && op2.data.length == 20 &&
      op3.code == .equalverify && op4.code == .checksig
  | _ => false

/-- A zero, then endorsements. -/
def isSignMultisigPattern : Bool :=
  match ops with
  | op0 :: op1 :: rest =>
    op0.code == .pushSize 0 && (op1 :: rest).all fun op => isEndorsement op.data
  | _ => false

/-- An endorsement. -/
def isSignPublicKeyPattern : Bool :=
  match ops with
  | [op0] => isEndorsement op0.data
  | _ => false

/-- An endorsement and a key. -/
def isSignKeyHashPattern : Bool :=
  match ops with
  | [op0, op1] => isEndorsement op0.data && isPublicKey op1.data
  | _ => false

/-- Pushes up to a script. -/
def isSignScriptHashPattern : Bool :=
  match ops.getLast? with
  | none => false
  | some last => isPushOnly ops && !last.data.isEmpty

variable (currency : Currency) (script : Script)

/-- The first output form that fits. -/
def outputPattern : ScriptPattern :=
  let ops := script.operations currency
  if isPayKeyHashPattern ops then .payKeyHash
  else if isPayScriptHashPattern ops then .payScriptHash
  else if isNullDataPattern ops then .nullData
  else if isPayPublicKeyPattern ops then .payPublicKey
  else if isPayMultisigPattern ops then .payMultisig
  else .nonStandard

/-- The first input form that fits. -/
def inputPattern : ScriptPattern :=
  let ops := script.operations currency
  if isSignKeyHashPattern ops then .signKeyHash
  else if isSignScriptHashPattern ops then .signScriptHash
  else if isSignPublicKeyPattern ops then .signPublicKey
  else if isSignMultisigPattern ops then .signMultisig
  else .nonStandard

/-- The output form goes first. -/
def pattern : ScriptPattern :=
  let input := script.outputPattern currency
  if input = .nonStandard then script.inputPattern currency else input

/-- Empty if the data is too long. -/
def toNullDataPattern (data : DataChunk) : List Operation :=
  if data.length > maxNullDataSize then []
  else [{ code := .return_ }, ofUncoded data true]

/-- The output of BIP16. -/
def toPayScriptHashPattern (hash : DataChunk) : List Operation :=
  [{ code := .hash160 }, ofUncoded hash true, { code := .equal }]

variable {currency script}

/-- Null data is recognised where it is: two operations are no payment to a hash. -/
theorem pattern_eq_nullData_iff :
    script.pattern currency = .nullData ↔ isNullDataPattern (script.operations currency) := by
  have hsign : script.inputPattern currency ≠ .nullData := by
    unfold inputPattern
    simp only
    split_ifs <;> exact ScriptPattern.noConfusion
  have hnull : isNullDataPattern (script.operations currency) →
      isPayKeyHashPattern (script.operations currency) = false ∧
        isPayScriptHashPattern (script.operations currency) = false := by
    intro h
    unfold isNullDataPattern at h
    split at h
    · rename_i op0 op1 hops
      rw [hops]
      exact ⟨rfl, rfl⟩
    · cases h
  unfold pattern outputPattern
  constructor
  · intro h
    by_contra hnot
    simp only [hnot, if_false] at h
    split_ifs at h <;> exact hsign h
  · intro h
    obtain ⟨hkey, hscript⟩ := hnull h
    simp [h, hkey, hscript]

/-- Data of more than one byte is pushed as it is. -/
theorem ofUncoded_of_two_le (h : 2 ≤ data.length) (hmax : data.length ≤ maxPushDataSize) :
    ofUncoded data true = nominalPush data := by
  obtain ⟨rfl, -⟩ | ⟨rfl, -⟩ | ⟨offset, rfl, -⟩ | ⟨-, heq⟩ := ofUncoded_true_cases hmax
  · exact absurd h (by decide)
  · exact absurd h (by decide)
  · exact absurd h (by simp)
  · exact heq

theorem readable_nominalPush (hmax : data.length ≤ maxPushDataSize) :
    Readable currency (nominalPush data) := by
  rw [← ofUncoded_false hmax]
  refine ⟨wellFormed_ofUncoded hmax, ?_⟩
  rw [ofUncoded_false hmax]
  exact le_getMaxBlockSize currency (hmax.trans (by decide))

/-- The operations of a payment to a script hash. -/
theorem operations_toPayScriptHashPattern (hash : ShortHash) :
    (ofOperations (toPayScriptHashPattern hash.val)).operations currency =
      [{ code := .hash160 }, nominalPush hash.val, { code := .equal }] := by
  have hpush : hash.val.length ≤ maxPushDataSize := by
    rw [hash.property]
    decide
  rw [toPayScriptHashPattern, ofUncoded_of_two_le (by rw [hash.property]; decide) hpush]
  apply operations_of_readable
  simp only [List.forall_mem_cons, List.not_mem_nil, false_implies, implies_true, and_true]
  exact ⟨⟨⟨rfl, rfl⟩, Nat.zero_le _⟩, readable_nominalPush hpush, ⟨⟨rfl, rfl⟩, Nat.zero_le _⟩⟩

theorem readable_return : Readable currency { code := .return_ } := ⟨⟨rfl, rfl⟩, Nat.zero_le _⟩

/-- The operations of a script of null data. -/
theorem operations_toNullDataPattern (h : 2 ≤ data.length) (hmax : data.length ≤ maxNullDataSize) :
    (ofOperations (toNullDataPattern data)).operations currency =
      [{ code := .return_ }, nominalPush data] := by
  have hpush : data.length ≤ maxPushDataSize := hmax.trans (by decide)
  rw [toNullDataPattern, if_neg (not_lt.mpr hmax), ofUncoded_of_two_le h hpush]
  apply operations_of_readable
  intro op hop
  obtain rfl | hop := List.mem_cons.mp hop
  · exact readable_return
  · obtain rfl := List.mem_singleton.mp hop
    exact readable_nominalPush hpush

theorem pattern_toNullDataPattern (h : 2 ≤ data.length) (hmax : data.length ≤ maxNullDataSize) :
    (ofOperations (toNullDataPattern data)).pattern currency = .nullData := by
  rw [pattern_eq_nullData_iff, operations_toNullDataPattern h hmax]
  have hminimal : minimalOpcodeFromData data = opcodeFromSize data.length := by
    match data, h with
    | first :: second :: rest, _ => rfl
  simp [isNullDataPattern, isMinimalPush, nominalPush, hminimal, hmax]

end Script

end BitprimCore
