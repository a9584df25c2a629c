import BitprimCore.Chain.Transaction

/-!
# Signature hashes

What a signature signs (`chain/script`). The unversioned algorithm rebuilds the transaction and
hashes its serialization; the version 0 algorithm hashes a fixed sequence of fields, some of them
hashed before.
-/

namespace BitprimCore

open LittleEndian

/-- A change that a function does not see is not seen in the list of its values. -/
theorem map_modify_of_forall_eq {α β : Type*} {f : α → α} {g : α → β} (h : ∀ a, g (f a) = g a)
    (items : List α) (index : Nat) : (items.modify index f).map g = items.map g := by
  apply List.ext_getElem?
  intro position
  rw [List.getElem?_map, List.getElem?_modify, List.getElem?_map, Option.map_eq_map, Option.map_map]
  congr 1
  funext item
  simp only [Function.comp_apply]
  split_ifs
  · exact h item
  · rfl

/-- The signature hash types of `sighash_algorithm`; the fork id type is of the `bch` build. -/
inductive SighashAlgorithm
  | all
  | none
  | single
  | allForkid
  deriving DecidableEq, Repr

namespace SighashAlgorithm

/-- Others may add inputs. -/
def anyoneCanPay : UInt8 := 0x80

/-- Masks the unused bits of the signature hash byte. -/
def mask : UInt8 := 0x1f

end SighashAlgorithm

namespace Script

/-- Four masked values of the byte select `single`, four others `none`, and all other values
`all`. -/
def toSighashEnum (sighashType : UInt8) : SighashAlgorithm :=
  if sighashType &&& SighashAlgorithm.mask = 0x03 then .single
  else if sighashType &&& SighashAlgorithm.mask = 0x02 then .none
  else .all

/-- Does the byte carry the `anyone_can_pay` flag? -/
def isAnyoneCanPay (sighashType : UInt8) : Bool :=
  (sighashType &&& SighashAlgorithm.anyoneCanPay) != 0

section

variable (currency : Currency) (hashes : Hashes)

/-- Stands for an index out of range. -/
def oneHash : HashDigest := ⟨1 :: List.replicate 31 0, by simp⟩

variable (tx : Transaction) (inputIndex : UInt32) (self : Input) (scriptCode : Script)
    (sighashType : UInt8)

/-- What is hashed without a version. -/
def signaturePreimage : DataChunk := tx.toData currency true false ++ ofNat 4 sighashType.toNat

/-- The input that signs, with the script code in the place of its script. -/
def retainSelf : Input where
  previousOutput := self.previousOutput
  script := scriptCode
  sequence := self.sequence

/-- Erase all input scripts and sequences but those of the input that signs. -/
def eraseInputs : List Input :=
  (tx.inputs.map fun input => { previousOutput := input.previousOutput, sequence := 0 }).modify
    inputIndex.toNat fun input => { input with script := scriptCode, sequence := self.sequence }

/-- Erase all input scripts but that of the input that signs; the sequences are kept. -/
def eraseInputScripts : List Input :=
  (tx.inputs.map fun input =>
    { previousOutput := input.previousOutput, sequence := input.sequence }).modify
    inputIndex.toNat fun input => { input with script := scriptCode }

/-- Trim and clear outputs except that of the specified input index. -/
def trimOutputs : List Output :=
  (List.replicate (inputIndex + 1).toNat {}).set inputIndex.toNat
    (tx.outputs.getD inputIndex.toNat {})

/-- The transaction that `sign_none` hashes. -/
def signNone : Transaction where
  version := tx.version
  locktime := tx.locktime
  inputs :=
    if isAnyoneCanPay sighashType then [retainSelf self scriptCode]
    else eraseInputs tx inputIndex self scriptCode
  outputs := []

/-- The transaction that `sign_single` hashes. -/
def signSingle : Transaction where
  version := tx.version
  locktime := tx.locktime
  inputs :=
    if isAnyoneCanPay sighashType then [retainSelf self scriptCode]
    else eraseInputs tx inputIndex self scriptCode
  outputs := trimOutputs tx inputIndex

/-- The transaction that `sign_all` hashes. -/
def signAll : Transaction where
  version := tx.version
  locktime := tx.locktime
  inputs :=
    if isAnyoneCanPay sighashType then [retainSelf self scriptCode]
    else eraseInputScripts tx inputIndex scriptCode
  outputs := tx.outputs

/-- The operations left to sign. -/
def withoutCodeSeparators : List Operation :=
  (scriptCode.operations currency).filter fun op => op.code != .codeseparator

/-- The script left to sign. -/
def stripCodeSeparators : Script := .ofOperations (withoutCodeSeparators currency scriptCode)

/-- The rebuilt transaction that is signed by an input in range. -/
def signedTransaction : Transaction :=
  let stripped := stripCodeSeparators currency scriptCode
  match toSighashEnum sighashType with
  | .none => signNone tx inputIndex self stripped sighashType
  | .single => signSingle tx inputIndex self stripped sighashType
  | _ => signAll tx inputIndex self stripped sighashType

/-- The hash for legacy scripts. -/
def generateUnversionedSignatureHash : HashDigest :=
  match tx.inputs[inputIndex.toNat]? with
  | none => oneHash
  | some self =>
    if inputIndex.toNat ≥ tx.outputs.length ∧ toSighashEnum sighashType = .single then oneHash
    else hashes.bitcoinHash (signaturePreimage currency
      (signedTransaction currency tx inputIndex self scriptCode sighashType) sighashType)

/-- The outputs that `to_outputs` hashes. -/
def outputsData : DataChunk := tx.outputs.flatMap fun output => output.toData true

/-- The points that `to_inpoints` hashes. -/
def inpointsData : DataChunk :=
  tx.inputs.flatMap fun input => input.previousOutput.toPoint.toData true

/-- The sequences that `to_sequences` hashes. -/
def sequencesData : DataChunk := tx.inputs.flatMap fun input => ofNat 4 input.sequence.toNat

/-- The hash of all outputs. -/
def toOutputs : HashDigest := hashes.bitcoinHash (outputsData tx)

/-- The hash of all points. -/
def toInpoints : HashDigest := hashes.bitcoinHash (inpointsData tx)

/-- The hash of all sequences. -/
def toSequences : HashDigest := hashes.bitcoinHash (sequencesData tx)

/-- The flags derived from the signature hash byte. The `bch` build compares with a type that the
mask has removed. -/
def isSingle (sighash : SighashAlgorithm) : Bool :=
  sighash == .single || (currency == .bch && sighash == .allForkid)

/-- Every output is signed. -/
def isAll (sighash : SighashAlgorithm) : Bool :=
  sighash == .all || (currency == .bch && sighash == .allForkid)

/-- Null if others may add inputs. -/
def inpointsHash : HashDigest :=
  if !isAnyoneCanPay sighashType then toInpoints hashes tx else nullHash

/-- Null unless all is signed. -/
def sequencesHash : HashDigest :=
  if !isAnyoneCanPay sighashType && isAll currency (toSighashEnum sighashType) then
    toSequences hashes tx
  else nullHash

/-- All outputs, one or none. -/
def outputsHash : HashDigest :=
  if isAll currency (toSighashEnum sighashType) then toOutputs hashes tx
  else match tx.outputs[inputIndex.toNat]? with
    | some output =>
      if isSingle currency (toSighashEnum sighashType) then hashes.bitcoinHash (output.toData true)
      else nullHash
    | none => nullHash

/-- The ten fields that are hashed, for an input in range. -/
def version0Preimage (input : Input) (scriptCode : Script) (value : UInt64) (sighashType : UInt8) :
    DataChunk :=
  ofNat 4 tx.version.toNat ++ ((inpointsHash hashes tx sighashType).val ++
    ((sequencesHash currency hashes tx sighashType).val ++
      (input.previousOutput.toPoint.toData true ++ (scriptCode.toData true ++
        (ofNat 8 value.toNat ++ (ofNat 4 input.sequence.toNat ++
          ((outputsHash currency hashes tx inputIndex sighashType).val ++
            (ofNat 4 tx.locktime.toNat ++ ofNat 4 sighashType.toNat))))))))

/-- Unlike the unversioned algorithm this does not allow an invalid input index, which is `none`. -/
def generateVersion0SignatureHash (value : UInt64) (sighashType : UInt8) : Option HashDigest := do
  let input ← tx.inputs[inputIndex.toNat]?
  return hashes.bitcoinHash
    (version0Preimage currency hashes tx inputIndex input scriptCode value sighashType)

/-- The way of serialization is changed for witness scripts; a reserved version is `none`. -/
def generateSignatureHash (version : ScriptVersion) (value : UInt64) : Option HashDigest :=
  match version with
  | .unversioned =>
    some (generateUnversionedSignatureHash currency hashes tx inputIndex scriptCode sighashType)
  | .zero =>
    generateVersion0SignatureHash currency hashes tx inputIndex scriptCode value sighashType
  | .reserved => none

end

end Script

end BitprimCore
