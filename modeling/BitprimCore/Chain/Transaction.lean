import BitprimCore.Chain.Script
import BitprimCore.Math.Hash

/-!
# Transactions

Points, outputs, witnesses, inputs and transactions with their serializations. The wire encoding
without witnesses, from which the transaction id is taken, is a prefix code.

## Implementation notes

The hash, size and value caches of the source are not modelled; each value is computed.
-/

namespace BitprimCore

open LittleEndian PrefixCode

/-- A reference to a transaction output. -/
structure Point where
  hash : HashDigest
  index : UInt32
  deriving DecidableEq

/-- An output: an amount and the script that guards it. -/
structure Output where
  value : UInt64 := sighashNullValue
  script : Script := {}
  /-- The height of the spending block, stored with the output (`validation.spender_height`). -/
  spenderHeight : UInt32 := 0xffffffff
  deriving DecidableEq

/-- What validation knows about a previous output (`output_point::validation_type`). -/
structure OutputPointValidation where
  spent : Bool := false
  confirmed : Bool := false
  coinbase : Bool := false
  height : Nat := 0
  medianTimePast : UInt32 := 0
  cache : Output := {}
  deriving DecidableEq

/-- A reference to a previous output with its validation metadata. -/
structure OutputPoint extends Point where
  validation : OutputPointValidation := {}
  deriving DecidableEq

/-- The stack of a witness. -/
structure Witness where
  stack : List DataChunk := []
  deriving DecidableEq

/-- An input. -/
structure Input where
  previousOutput : OutputPoint
  script : Script := {}
  witness : Witness := {}
  sequence : UInt32
  deriving DecidableEq

/-- A transaction. -/
structure Transaction where
  version : UInt32
  locktime : UInt32
  inputs : List Input
  outputs : List Output
  /-- A transaction of this id exists and is unspent (`validation.duplicate`). -/
  duplicate : Bool := false
  deriving DecidableEq

/-- The null point that the input of a coinbase refers to. -/
def Point.isNull (point : Point) : Bool := point.index == noPreviousOutput && point.hash == nullHash

/-- The store has a two byte index. -/
def Point.toData (point : Point) (wire : Bool) : DataChunk :=
  point.hash.val ++ if wire then ofNat 4 point.index.toNat else ofNat 2 point.index.toNat

/-- The default value marks an output that was not found. -/
def Output.isValid (output : Output) : Bool := output.value != sighashNullValue

/-- The store has the spender height. -/
def Output.toData (output : Output) (wire : Bool) : DataChunk :=
  (if wire then [] else ofNat 4 output.spenderHeight.toNat) ++
    (ofNat 8 output.value.toNat ++ output.script.toData true)

namespace Witness

/-- The count of the elements is a number of elements, not of bytes. -/
def toData (witness : Witness) (withCount : Bool) : DataChunk :=
  (if withCount then writeVariableLittleEndian witness.stack.length else []) ++
    witness.stack.flatMap fun element => writeVariableLittleEndian element.length ++ element

def isEmpty (witness : Witness) : Bool := witness.stack.isEmpty

end Witness

namespace Input

def isSegregated (input : Input) : Bool := !input.witness.isEmpty

/-- Ignores the lock time. -/
def isFinal (input : Input) : Bool := input.sequence == maxInputSequence

/-- The wire witness is written by the transaction, behind the outputs. -/
def toData (currency : Currency) (input : Input) (wire witness : Bool) : DataChunk :=
  let witness := if currency = .bch then false else witness || !wire
  input.previousOutput.toPoint.toData wire ++ (input.script.toData true ++
    ((if witness && !wire then input.witness.toData true else []) ++ ofNat 4 input.sequence.toNat))

end Input

namespace Transaction

/-- One input with a null point. -/
def isCoinbase (tx : Transaction) : Bool :=
  match tx.inputs with
  | [input] => input.previousOutput.isNull
  | _ => false

/-- Never in the cash build. -/
def isSegregated (currency : Currency) (tx : Transaction) : Bool :=
  if currency = .bch then false else tx.inputs.any Input.isSegregated

variable (currency : Currency)

/-- The count and the inputs. -/
def writeInputs (inputs : List Input) (wire witness : Bool) : DataChunk :=
  writeVariableLittleEndian inputs.length ++
    inputs.flatMap fun input => input.toData currency wire witness

/-- The count and the outputs. -/
def writeOutputs (outputs : List Output) (wire : Bool) : DataChunk :=
  writeVariableLittleEndian outputs.length ++ outputs.flatMap fun output => output.toData wire

/-- The number of witnesses is that of the inputs. -/
def writeWitnesses (inputs : List Input) : DataChunk :=
  inputs.flatMap fun input => input.witness.toData true

def witnessMarker : UInt8 := 0x00
def witnessFlag : UInt8 := 0x01

/-- Transactions with empty witnesses always use the old serialization. -/
def toData (tx : Transaction) (wire witness : Bool) : DataChunk :=
  let witness := witness && tx.isSegregated currency
  if wire then
    ofNat 4 tx.version.toNat ++
      ((if witness then
          witnessMarker :: witnessFlag :: (writeInputs currency tx.inputs wire witness ++
            (writeOutputs tx.outputs wire ++ writeWitnesses tx.inputs))
        else writeInputs currency tx.inputs wire witness ++ writeOutputs tx.outputs wire) ++
        ofNat 4 tx.locktime.toNat)
  else
    writeOutputs tx.outputs wire ++ (writeInputs currency tx.inputs wire witness ++
      (writeVariableLittleEndian tx.locktime.toNat ++ writeVariableLittleEndian tx.version.toNat))

/-- The transaction id, or the witness id of a segregated transaction. -/
def hash (hashes : Hashes) (tx : Transaction) (witness : Bool) : HashDigest :=
  if witness && tx.isSegregated currency then
    if tx.isCoinbase then nullHash else hashes.bitcoinHash (tx.toData currency true true)
  else hashes.bitcoinHash (tx.toData currency true false)

end Transaction

/-!
## The wire encoding is a prefix code

A count or size is written in at most 64 bits, so the lengths of the containers are bounded.
-/

section

variable (currency : Currency)

/-- The size of the script can be written. -/
def Script.Sized (script : Script) : Prop := script.bytes.length < 2 ^ 64

/-- The counts and sizes of the transaction can be written. -/
structure Transaction.Sized (tx : Transaction) : Prop where
  inputs : tx.inputs.length < 2 ^ 64
  outputs : tx.outputs.length < 2 ^ 64
  inputScripts : ∀ input ∈ tx.inputs, input.script.Sized
  outputScripts : ∀ output ∈ tx.outputs, output.script.Sized

theorem determines_uint32 : Determines (fun _ : UInt32 => True) (fun n => ofNat 4 n.toNat) id := by
  refine .of_length 4 (fun n _ => length_ofNat 4 _) fun m n _ _ h => ?_
  exact UInt32.toNat_inj.mp (ofNat_injOn m.toNat_lt n.toNat_lt h)

theorem determines_uint64 : Determines (fun _ : UInt64 => True) (fun n => ofNat 8 n.toNat) id := by
  refine .of_length 8 (fun n _ => length_ofNat 8 _) fun m n _ _ h => ?_
  exact UInt64.toNat_inj.mp (ofNat_injOn m.toNat_lt n.toNat_lt h)

theorem determines_hashDigest : Determines (fun _ : HashDigest => True) (fun h => h.val) id :=
  .of_length 32 (fun h _ => h.property) fun _ _ _ _ h => Subtype.ext h

theorem Script.determines_toData : Determines Script.Sized (fun s => s.toData true) id := by
  intro a b ha hb r s h
  obtain ⟨hbytes, hrest⟩ := Determines.counted_string determines_writeVariableLittleEndian
    ha hb r s h
  exact ⟨congrArg Script.mk hbytes, hrest⟩

theorem Point.determines_toData :
    Determines (fun _ : Point => True) (fun p => p.toData true) id := by
  intro a b _ _ r s h
  obtain ⟨hkey, hrest⟩ := ((determines_hashDigest.comap Point.hash).append
    (determines_uint32.comap Point.index)) trivial trivial r s h
  obtain ⟨hhash, hidx⟩ := Prod.mk.inj hkey
  cases a
  cases b
  exact ⟨congrArg₂ Point.mk hhash hidx, hrest⟩

/-- The part of an output that the wire encoding holds. -/
def Output.wireKey (output : Output) : UInt64 × Script := (output.value, output.script)

/-- The part of an input that the wire encoding without witnesses holds. -/
def Input.wireKey (input : Input) : Point × Script × UInt32 :=
  (input.previousOutput.toPoint, input.script, input.sequence)

theorem Output.determines_toData :
    Determines (fun o : Output => o.script.Sized) (fun o => o.toData true) Output.wireKey :=
  (determines_uint64.field Output.value).append (Script.determines_toData.comap Output.script)

@[simp] theorem Input.toData_wire (input : Input) :
    input.toData currency true false = input.previousOutput.toPoint.toData true ++
      (input.script.toData true ++ ofNat 4 input.sequence.toNat) := by
  cases currency <;> rfl

theorem Input.determines_toData :
    Determines (fun i : Input => i.script.Sized) (fun i => i.toData currency true false)
      Input.wireKey := by
  simp only [Input.toData_wire]
  exact (Point.determines_toData.field fun i : Input => i.previousOutput.toPoint).append
    ((Script.determines_toData.comap Input.script).append (determines_uint32.field Input.sequence))

namespace Transaction

/-- What the transaction id commits to. -/
def wireKey (tx : Transaction) :
    UInt32 × (List (Point × Script × UInt32) × List (UInt64 × Script)) × UInt32 :=
  (tx.version, (tx.inputs.map Input.wireKey, tx.outputs.map Output.wireKey), tx.locktime)

@[simp] theorem toData_wire (tx : Transaction) :
    tx.toData currency true false = ofNat 4 tx.version.toNat ++
      ((writeInputs currency tx.inputs true false ++ writeOutputs tx.outputs true) ++
        ofNat 4 tx.locktime.toNat) := by
  simp [toData]

/-- The wire encoding without witnesses determines everything but the witnesses. -/
theorem determines_toData : Determines Sized (fun tx => tx.toData currency true false) wireKey := by
  simp only [toData_wire]
  have hinputs := (Determines.counted determines_writeVariableLittleEndian
    (Input.determines_toData currency)).comap Transaction.inputs
  have houtputs := (Determines.counted determines_writeVariableLittleEndian
    Output.determines_toData).comap Transaction.outputs
  exact (determines_uint32.field Transaction.version).append
    (((hinputs.mono fun _ h => ⟨h.inputs, h.inputScripts⟩).append
      (houtputs.mono fun _ h => ⟨h.outputs, h.outputScripts⟩)).append
        (determines_uint32.field Transaction.locktime))

/-- The wire encoding of an input without its witness, from its key. -/
def encodeInputKey (key : Point × Script × UInt32) : DataChunk :=
  key.1.toData true ++ (key.2.1.toData true ++ ofNat 4 key.2.2.toNat)

/-- The wire encoding of an output, from its key. -/
def encodeOutputKey (key : UInt64 × Script) : DataChunk := ofNat 8 key.1.toNat ++ key.2.toData true

theorem writeInputs_eq (inputs : List Input) :
    writeInputs currency inputs true false =
      writeVariableLittleEndian (inputs.map Input.wireKey).length ++
        (inputs.map Input.wireKey).flatMap encodeInputKey := by
  rw [writeInputs, List.length_map, List.flatMap_map]
  simp only [Input.toData_wire]
  rfl

theorem writeOutputs_eq (outputs : List Output) :
    writeOutputs outputs true =
      writeVariableLittleEndian (outputs.map Output.wireKey).length ++
        (outputs.map Output.wireKey).flatMap encodeOutputKey := by
  rw [writeOutputs, List.length_map, List.flatMap_map]
  rfl

/-- The wire encoding without witnesses is a function of the key. -/
theorem toData_wire_congr {tx tx' : Transaction} (h : tx.wireKey = tx'.wireKey) :
    tx.toData currency true false = tx'.toData currency true false := by
  obtain ⟨hver, hlists, hlock⟩ : tx.version = tx'.version ∧
      (tx.inputs.map Input.wireKey, tx.outputs.map Output.wireKey) =
        (tx'.inputs.map Input.wireKey, tx'.outputs.map Output.wireKey) ∧
      tx.locktime = tx'.locktime := by
    simpa only [wireKey, Prod.mk.injEq] using h
  obtain ⟨hinputs, houtputs⟩ := Prod.mk.inj hlists
  rw [toData_wire, toData_wire, writeInputs_eq, writeInputs_eq, writeOutputs_eq, writeOutputs_eq,
    hver, hinputs, houtputs, hlock]

/-- Two wire encodings without witnesses are equal exactly when the keys are. -/
theorem toData_wire_eq_iff {tx tx' : Transaction} (h : tx.Sized) (h' : tx'.Sized) :
    tx.toData currency true false = tx'.toData currency true false ↔ tx.wireKey = tx'.wireKey := by
  constructor
  · exact (determines_toData currency).key_eq h h'
  · exact toData_wire_congr currency

end Transaction

end

end BitprimCore
