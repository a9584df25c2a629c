import BitprimCore.Machine.Operation
import BitprimCore.Machine.RuleFork

/-!
# Scripts

A script is a byte string; its operations are parsed on demand (`chain/script`). The patterns that
consensus rules match, the signature operation count and the deletion of endorsements follow the
source.

## Implementation notes

The source keeps the parsed operations in a cache. They are always what the bytes parse to for the
scripts that validation builds, so the model parses.
-/

namespace BitprimCore

open List LittleEndian Operation PrefixCode

/-- A script by its bytes. -/
structure Script where
  bytes : DataChunk := []
  deriving DecidableEq, Repr

namespace Script

/-- Read operations until the bytes are exhausted; an operation that fails to read is the last. -/
def parseOperations (currency : Currency) : (fuel : Nat) → DataChunk → List Operation
  | 0, _ => []
  | fuel + 1, source =>
    if source.isEmpty then []
    else match fromData currency source with
      | none => [invalid]
      | some (op, rest) => op :: parseOperations currency fuel rest

variable (currency : Currency) (script : Script) (ops : List Operation)

/-- One operation per byte is the upper limit of operations. -/
def operations : List Operation := parseOperations currency script.bytes.length script.bytes

/-- The bytes of the operations. -/
def operationsToData : DataChunk := ops.flatMap toData

def ofOperations : Script := ⟨operationsToData ops⟩

/-- The serialization, behind its size when `withSize` (the `prefix` argument of the source). -/
def toData (withSize : Bool) : DataChunk :=
  (if withSize then writeVariableLittleEndian script.bytes.length else []) ++ script.bytes

section

variable (currency : Currency) (script : Script)

def isEmpty : Bool := (script.operations currency).isEmpty

def size : Nat := (script.operations currency).length

/-- There is a trailing invalid operation if a push had a size mismatch. -/
def isValidOperations : Bool :=
  match (script.operations currency).getLast? with
  | none => true
  | some op => op.valid

/-- The criteria are not comprehensive but fast to evaluate. -/
def isUnspendable : Bool :=
  (match script.operations currency with
    | [] => false
    | op :: _ => op.code == .return_) || decide (script.bytes.length > maxScriptSize)

end

/-- The `reserved80` opcode counts as a push here. -/
def isRelaxedPush (ops : List Operation) : Bool := ops.all fun op => op.code.isRelaxedPush

/-- The first operation pushes the height, nominally encoded. -/
def isCoinbasePattern (height : Nat) : Bool :=
  match ops with
  | [] => false
  | op :: _ =>
    op.code == nominalOpcodeFromData op.data && op.data == Number.data height

/-- The four bytes that mark a witness commitment (`witness_head`, big endian). -/
def witnessHead : DataChunk := [0xaa, 0x21, 0xa9, 0xed]

/-- The witness commitment of BIP141. -/
def isCommitmentPattern : Bool :=
  match ops with
  | op0 :: op1 :: _ =>
    op0.code == .return_ && op1.code == .pushSize 36 && op1.data.take 4 == witnessHead
  | _ => false

def minWitnessProgram : Nat := 2
def maxWitnessProgram : Nat := 40

/-- A version and a program. -/
def isWitnessProgramPattern : Bool :=
  match ops with
  | [op0, op1] =>
    op0.code.isVersion && decide (minWitnessProgram ≤ op1.data.length) &&
      decide (op1.data.length ≤ maxWitnessProgram)
  | _ => false

/-- The output of BIP16. -/
def isPayScriptHashPattern : Bool :=
  match ops with
  | [op0, op1, op2] => op0.code == .hash160 && op1.code == .pushSize 20 && op2.code == .equal
  | _ => false

/-- The operations that pay to the hash of a key. -/
def toPayKeyHashPattern (hash : DataChunk) : List Operation :=
  [{ code := .dup }, { code := .hash160 }, ofUncoded hash true, { code := .equalverify },
    { code := .checksig }]

section

variable (currency : Currency) (script : Script)

/-- The second push. -/
def witnessProgram : DataChunk :=
  match script.operations currency with
  | [op0, op1] => if isWitnessProgramPattern [op0, op1] then op1.data else []
  | _ => []

/-- Version 0 is specified, others are reserved. -/
def version : ScriptVersion :=
  match script.operations currency with
  | [op0, op1] =>
    if !isWitnessProgramPattern [op0, op1] then .unversioned
    else if op0.code = .pushSize 0 then .zero
    else .reserved
  | _ => .unversioned

/-- BIP141 must be enabled. -/
def isPayToWitness (forks : UInt32) : Bool :=
  isEnabled forks RuleFork.bip141Rule && isWitnessProgramPattern (script.operations currency)

/-- BIP16 must be enabled. -/
def isPayToScriptHash (forks : UInt32) : Bool :=
  isEnabled forks RuleFork.bip16Rule && isPayScriptHashPattern (script.operations currency)

end

/-- Count 1 to 16 multisig keys accurately for embedded and witness scripts. -/
def multisigSigops (accurate : Bool) : Opcode → Nat
  | .pushPositive offset => if accurate then offset + 1 else multisigDefaultSigops
  | _ => multisigDefaultSigops

/-- The signature operations of a list, given the opcode in front of it. -/
def countSigops (accurate : Bool) : (preceding : Opcode) → List Operation → Nat
  | _, [] => 0
  | preceding, op :: ops =>
    (match op.code with
      | .checksig | .checksigverify => 1
      | .checkmultisig | .checkmultisigverify => multisigSigops accurate preceding
      | _ => 0) + countSigops accurate op.code ops

/-- The signature operations. -/
def sigops (accurate : Bool) : Nat :=
  countSigops accurate (.reserved 69) (script.operations currency)

/-- Drop copies of a value from the front of the bytes. -/
def dropCopies (value : DataChunk) : (fuel : Nat) → DataChunk → DataChunk
  | 0, bytes => bytes
  | fuel + 1, bytes =>
    if value.isPrefixOf bytes then dropCopies value fuel (bytes.drop value.length) else bytes

/-- Walk the operations and delete the value wherever an operation could start; an operation that
fails to read ends the walk. -/
def deleteValue (currency : Currency) (value : DataChunk) : (fuel : Nat) → DataChunk → DataChunk
  | 0, bytes => bytes
  | fuel + 1, bytes =>
    if bytes.isEmpty then []
    else
      let kept := dropCopies value bytes.length bytes
      match fromData currency kept with
      | none => kept
      | some (op, rest) => op.toData ++ deleteValue currency value fuel rest

/-- The comparison is not limited to a single operation (`find_and_delete_`). -/
def findAndDeleteOne (endorsement : DataChunk) : Script :=
  if endorsement.isEmpty then script
  else ⟨deleteValue currency (ofUncoded endorsement false).toData script.bytes.length script.bytes⟩

/-- Each endorsement in turn. -/
def findAndDelete (endorsements : List DataChunk) : Script :=
  endorsements.foldl (findAndDeleteOne currency) script

section

variable {currency : Currency} {fuel : Nat} {source : DataChunk} {op : Operation}

/-- The operations in front of an invalid trailing one were read. -/
theorem fromData_of_mem_parseOperations (hop : op ∈ parseOperations currency fuel source)
    (hvalid : op.valid) :
    ∃ bytes rest, fromData currency bytes = some (op, rest) := by
  induction fuel generalizing source with
  | zero => simp [parseOperations] at hop
  | succ fuel ih =>
    rw [parseOperations] at hop
    split_ifs at hop
    · simp at hop
    cases hread : fromData currency source with
    | none =>
      obtain rfl : op = invalid := by simpa [hread] using hop
      simp [invalid] at hvalid
    | some pair =>
      obtain ⟨first, rest⟩ := pair
      simp only [hread, mem_cons] at hop
      rcases hop with rfl | hop
      · exact ⟨source, rest, hread⟩
      · exact ih hop

theorem wellFormed_of_mem_parseOperations (hop : op ∈ parseOperations currency fuel source)
    (hvalid : op.valid) : op.WellFormed := by
  obtain ⟨bytes, rest, hread⟩ := fromData_of_mem_parseOperations hop hvalid
  exact (fromData_eq_some hread).2

/-- When the last operation is valid all of them are. -/
theorem valid_of_mem_parseOperations
    (hlast : ∀ op ∈ (parseOperations currency fuel source).getLast?, op.valid) :
    ∀ op ∈ parseOperations currency fuel source, op.valid := by
  induction fuel generalizing source with
  | zero => simp [parseOperations]
  | succ fuel ih =>
    rw [parseOperations] at hlast ⊢
    split_ifs at hlast ⊢
    · simp
    cases hread : fromData currency source with
    | none => simpa [hread] using hlast
    | some pair =>
      obtain ⟨first, rest⟩ := pair
      simp only [hread] at hlast
      have hfirst : first.valid := (fromData_eq_some hread).2.1
      intro op hop
      rcases mem_cons.mp hop with rfl | hop
      · exact hfirst
      · refine ih (fun last hmem => hlast last ?_) op hop
        rw [getLast?_cons]
        simp [Option.mem_def.mp hmem]

/-- A script that parses to its end consists of well-formed operations. -/
theorem wellFormed_operations {script : Script} (h : script.isValidOperations currency) :
    ∀ op ∈ script.operations currency, op.WellFormed := by
  have hlast : ∀ op ∈ (script.operations currency).getLast?, op.valid := by
    intro op hop
    unfold isValidOperations at h
    rw [Option.mem_def.mp hop] at h
    exact h
  intro op hop
  exact wellFormed_of_mem_parseOperations hop (valid_of_mem_parseOperations hlast op hop)

/-- Operations that are all valid serialize to what they were read from. -/
theorem operationsToData_parseOperations (hfuel : source.length ≤ fuel)
    (hvalid : ∀ op ∈ parseOperations currency fuel source, op.valid) :
    operationsToData (parseOperations currency fuel source) = source := by
  induction fuel generalizing source with
  | zero =>
    obtain rfl : source = [] := eq_nil_of_length_eq_zero (Nat.le_zero.mp hfuel)
    rfl
  | succ fuel ih =>
    rw [parseOperations] at hvalid ⊢
    cases source with
    | nil => rfl
    | cons byte bytes =>
      simp only [isEmpty_cons, Bool.false_eq_true, if_false] at hvalid ⊢
      cases hread : fromData currency (byte :: bytes) with
      | none =>
        simp [hread, invalid] at hvalid
      | some pair =>
        obtain ⟨op, rest⟩ := pair
        simp only [hread, forall_mem_cons] at hvalid
        obtain ⟨hsource, hwf⟩ := fromData_eq_some hread
        have hlength : rest.length ≤ fuel := by
          have hne := length_pos_of_ne_nil op.toData_ne_nil
          have hlen := congrArg length hsource
          rw [length_append] at hlen
          omega
        have hrest := ih hlength hvalid.2
        simp only [operationsToData, flatMap_cons] at hrest ⊢
        rw [hrest, hsource]

theorem operationsToData_operations {script : Script}
    (h : script.isValidOperations currency) :
    operationsToData (script.operations currency) = script.bytes :=
  operationsToData_parseOperations (le_refl _) fun op hop => (wellFormed_operations h op hop).1

theorem fromData_rest_length {rest : DataChunk}
    (h : fromData currency source = some (op, rest)) : rest.length < source.length := by
  have hne := length_pos_of_ne_nil op.toData_ne_nil
  rw [(fromData_eq_some h).1, length_append]
  omega

/-- There is never a lack of fuel. -/
theorem parseOperations_eq_operations (hfuel : source.length ≤ fuel) :
    parseOperations currency fuel source = operations currency ⟨source⟩ := by
  change _ = parseOperations currency source.length source
  induction fuel using Nat.strong_induction_on generalizing source with
  | _ fuel ih =>
    cases source with
    | nil => cases fuel <;> rfl
    | cons byte bytes =>
      obtain ⟨fuel, rfl⟩ : ∃ fuel', fuel = fuel' + 1 := ⟨fuel - 1, by simp at hfuel; omega⟩
      rw [length_cons, parseOperations, parseOperations]
      cases hread : fromData currency (byte :: bytes) with
      | none => rfl
      | some pair =>
        obtain ⟨op, rest⟩ := pair
        have hlen := fromData_rest_length hread
        rw [length_cons] at hlen hfuel
        simp only [isEmpty_cons, Bool.false_eq_true, if_false, List.cons.injEq, true_and]
        rw [ih fuel (Nat.lt_succ_self fuel) (by omega)]
        exact (ih bytes.length (by omega) (by omega)).symm

theorem operations_eq_nil_iff : operations currency ⟨source⟩ = [] ↔ source = [] := by
  cases source with
  | nil => exact iff_of_true rfl rfl
  | cons byte bytes =>
    refine iff_of_false ?_ (cons_ne_nil _ _)
    change parseOperations currency (bytes.length + 1) (byte :: bytes) ≠ []
    rw [parseOperations]
    cases fromData currency (byte :: bytes) <;> simp

/-- An operation in front that is not the failed one was written in the first bytes. -/
theorem operations_eq_cons {ops : List Operation} (h : operations currency ⟨source⟩ = op :: ops)
    (hop : op ≠ invalid) :
    ∃ rest, source = op.toData ++ rest ∧ op.WellFormed ∧ operations currency ⟨rest⟩ = ops := by
  cases source with
  | nil => cases h
  | cons byte bytes =>
    change parseOperations currency (bytes.length + 1) (byte :: bytes) = op :: ops at h
    rw [parseOperations] at h
    cases hread : fromData currency (byte :: bytes) with
    | none =>
      obtain ⟨rfl, -⟩ : invalid = op ∧ [] = ops := by simpa [hread] using h
      exact absurd rfl hop
    | some pair =>
      obtain ⟨first, rest⟩ := pair
      obtain ⟨rfl, hrest⟩ : first = op ∧ parseOperations currency bytes.length rest = ops := by
        simpa [hread] using h
      obtain ⟨hsource, hwf⟩ := fromData_eq_some hread
      have hlen := fromData_rest_length hread
      rw [length_cons] at hlen
      refine ⟨rest, hsource, hwf, ?_⟩
      rw [← hrest, parseOperations_eq_operations (Nat.le_of_lt_succ hlen)]

theorem operations_toData_append (h : op.WellFormed)
    (hfit : op.data.length ≤ currency.getMaxBlockSize) (rest : DataChunk) :
    operations currency ⟨op.toData ++ rest⟩ = op :: operations currency ⟨rest⟩ := by
  have hread := fromData_toData h hfit rest
  have hlen := fromData_rest_length hread
  rw [operations]
  obtain ⟨fuel, hfuel⟩ : ∃ fuel, (op.toData ++ rest).length = fuel + 1 :=
    ⟨(op.toData ++ rest).length - 1, by omega⟩
  rw [hfuel] at hlen ⊢
  have hne : (op.toData ++ rest).isEmpty = false := by
    simp [isEmpty_eq_false_iff, op.toData_ne_nil]
  rw [parseOperations, hne, hread]
  simp only [Bool.false_eq_true, if_false]
  rw [parseOperations_eq_operations (Nat.le_of_lt_succ hlen)]

/-- Operations that a block has room for are read back from the script made of them. -/
theorem operations_ofOperations {ops : List Operation} (hops : ∀ op ∈ ops, op.WellFormed)
    (hfit : ∀ op ∈ ops, op.data.length ≤ currency.getMaxBlockSize) :
    (ofOperations ops).operations currency = ops := by
  induction ops with
  | nil => rfl
  | cons op ops ih =>
    rw [forall_mem_cons] at hops hfit
    change operations currency ⟨op.toData ++ operationsToData ops⟩ = op :: ops
    rw [operations_toData_append hops.1 hfit.1]
    exact congrArg (op :: ·) (ih hops.2 hfit.2)

/-- Well-formed operations are recovered from their concatenation. -/
theorem operationsToData_injOn {xs ys : List Operation} (hxs : ∀ op ∈ xs, op.WellFormed)
    (hys : ∀ op ∈ ys, op.WellFormed) (h : operationsToData xs = operationsToData ys) : xs = ys := by
  simpa using determines_toData.flatMap (fun op _ => op.toData_ne_nil) hxs hys h

end

end Script

end BitprimCore
