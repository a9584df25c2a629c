import BitprimCore.Chain.Block

/-!
# Deserialization

The readers of the chain types (`from_data`) and the writers of blocks. A reader that fails leaves
its source invalid, and every reader behind it fails too; here it returns nothing.

## Implementation notes

What a reader does not set keeps the default of a fresh object: the metadata of previous outputs,
and in the wire encoding the height of the spender and the median time past. The fields that the
store encoding of an unconfirmed transaction has at its end are not modelled.
-/

namespace BitprimCore

open Decoder

variable (source : DataChunk)

/-- Reads a digest. -/
def readHash : Option (HashDigest × DataChunk) :=
  match readBytes 32 source with
  | none => none
  | some (bytes, source) => if h : bytes.length = 32 then some (⟨bytes, h⟩, source) else none

def readUInt32 : Option (UInt32 × DataChunk) :=
  (readLittleEndian 4 source).map fun (value, source) => (UInt32.ofNat value, source)

def readUInt64 : Option (UInt64 × DataChunk) :=
  (readLittleEndian 8 source).map fun (value, source) => (UInt64.ofNat value, source)

/-- The store holds 16 bits of the index, of which the greatest stands for the null index. -/
def Point.fromData (wire : Bool) (source : DataChunk) : Option (Point × DataChunk) := do
  let (hash, source) ← readHash source
  if wire then
    let (index, source) ← readUInt32 source
    return ({ hash, index }, source)
  else
    let (index, source) ← readLittleEndian 2 source
    return ({ hash, index := if index = maxUint16 then noPreviousOutput else UInt32.ofNat index },
      source)

/-- Bytes behind their size, which is bounded to guard the allocation. -/
def readSizedBytes (maxSize : Nat) (source : DataChunk) : Option (DataChunk × DataChunk) := do
  let (size, source) ← readVariableLittleEndian source
  if size > maxSize then none else readBytes size source

/-- A script behind its size. -/
def Script.fromData (currency : Currency) (source : DataChunk) : Option (Script × DataChunk) := do
  let (bytes, source) ← readSizedBytes currency.getMaxBlockSize source
  return ({ bytes }, source)

/-- A stack behind the number of its elements. -/
def Witness.fromData (currency : Currency) (source : DataChunk) :
    Option (Witness × DataChunk) := do
  let (count, source) ← readVariableLittleEndian source
  let (stack, source) ← many (readSizedBytes currency.maxBlockWeight) count source
  return ({ stack }, source)

/-- The wire witness is read by the transaction, behind the outputs. -/
def Input.fromData (currency : Currency) (wire witness : Bool) (source : DataChunk) :
    Option (Input × DataChunk) := do
  let witness := if currency = .bch then false else witness || !wire
  let (point, source) ← Point.fromData wire source
  let (script, source) ← Script.fromData currency source
  let (witness, source) ←
    if witness && !wire then Witness.fromData currency source else some ({}, source)
  let (sequence, source) ← readUInt32 source
  return ({ previousOutput := { toPoint := point }, script, witness, sequence }, source)

def Input.stripWitness (input : Input) : Input := { input with witness := {} }

/-- Reads an output. -/
def Output.fromData (currency : Currency) (wire : Bool) (source : DataChunk) :
    Option (Output × DataChunk) := do
  let (spenderHeight, source) ← if wire then some (0xffffffff, source) else readUInt32 source
  let (value, source) ← readUInt64 source
  let (script, source) ← Script.fromData currency source
  return ({ value, script, spenderHeight }, source)

namespace Transaction

variable (currency : Currency) (wire witness : Bool) (source : DataChunk)

/-- Inputs or outputs behind their number (`read`). -/
def readPuts {α : Type} (decode : DataChunk → Option (α × DataChunk)) :
    Option (List α × DataChunk) := do
  let (count, source) ← readVariableLittleEndian source
  if count > currency.getMaxBlockSize then none else many decode count source

/-- Reads counted inputs. -/
def readInputs : Option (List Input × DataChunk) :=
  readPuts currency source (Input.fromData currency wire witness)

/-- Reads counted outputs. -/
def readOutputs : Option (List Output × DataChunk) :=
  readPuts currency source (Output.fromData currency wire)

/-- The number of witnesses is that of the inputs. -/
def readWitnesses (inputs : List Input) : Option (List Input × DataChunk) :=
  each (fun input source => do
    let (witness, source) ← Witness.fromData currency source
    return ({ input with witness }, source)) inputs source

/-- Drops the witness of every input. -/
def stripWitness (tx : Transaction) : Transaction :=
  { tx with inputs := tx.inputs.map Input.stripWitness }

/-- A list of no inputs in front of the flag marks the encoding with witnesses. -/
def readPutsWire : Option ((List Input × List Output) × DataChunk) := do
  let (inputs, source) ← readInputs currency true witness source
  if currency ≠ .bch && inputs.isEmpty && source.head? == some witnessFlag then
    let (inputs, source) ← readInputs currency true witness source.tail
    let (outputs, source) ← readOutputs currency true source
    let (inputs, source) ← readWitnesses currency source inputs
    return ((inputs, outputs), source)
  else
    let (outputs, source) ← readOutputs currency true source
    return ((inputs, outputs), source)

/-- Reads the wire form. -/
def fromDataWire : Option (Transaction × DataChunk) := do
  let (version, source) ← readUInt32 source
  let ((inputs, outputs), source) ← readPutsWire currency witness source
  let (locktime, source) ← readUInt32 source
  return ({ version, locktime, inputs, outputs }, source)

/-- The store has the outputs in front. -/
def fromDataStore : Option (Transaction × DataChunk) := do
  let (outputs, source) ← readOutputs currency false source
  let (inputs, source) ← readInputs currency false witness source
  let (locktime, source) ← readVariableLittleEndian source
  let (version, source) ← readVariableLittleEndian source
  if locktime > maxUint32 || version > maxUint32 then none
  else
    return ({ version := UInt32.ofNat version, locktime := UInt32.ofNat locktime, inputs, outputs },
      source)

/-- Reads a transaction. -/
def fromData : Option (Transaction × DataChunk) := do
  let witness := if currency = .bch then false else witness
  let (tx, source) ←
    if wire then fromDataWire currency witness source else fromDataStore currency witness source
  return (if witness then tx else tx.stripWitness, source)

end Transaction

/-- Reads a header. -/
def Header.fromData (wire : Bool) (source : DataChunk) : Option (Header × DataChunk) := do
  let (version, source) ← readUInt32 source
  let (previousBlockHash, source) ← readHash source
  let (merkle, source) ← readHash source
  let (timestamp, source) ← readUInt32 source
  let (bits, source) ← readUInt32 source
  let (nonce, source) ← readUInt32 source
  let (medianTimePast, source) ← if wire then some (0, source) else readUInt32 source
  return ({ version, previousBlockHash, merkle, timestamp, bits, nonce, medianTimePast }, source)

namespace Block

variable (currency : Currency)

def stripWitness (block : Block) : Block :=
  { block with transactions := block.transactions.map Transaction.stripWitness }

/-- The encoding of a block is that of the wire. -/
def fromData (witness : Bool) (source : DataChunk) : Option (Block × DataChunk) := do
  let witness := if currency = .bch then false else witness
  let (header, source) ← Header.fromData true source
  let (count, source) ← readVariableLittleEndian source
  if count > currency.getMaxBlockSize then none
  else
    let (transactions, source) ← many (Transaction.fromData currency true witness) count source
    let block := { header, transactions }
    return (if witness then block else block.stripWitness, source)

/-- What `to_data` writes to a sink. -/
def write (block : Block) (witness : Bool) : DataChunk :=
  let witness := if currency = .bch then false else witness
  block.header.toData true ++ (writeVariableLittleEndian block.transactions.length ++
    block.transactions.flatMap fun tx => tx.toData currency true witness)

/-- The bytes that `to_data` returns. It reserves the size with witnesses when these are asked
for, and then writes to its stream without handing the argument on, whose default is false. -/
def toData (block : Block) (_witness : Bool) : DataChunk := block.write currency false

end Block

/-! ### Equality

The comparisons of the source leave metadata out.
-/

/-- What two inputs are compared by. -/
def Input.key (input : Input) : (Point × Script × UInt32) × Witness :=
    (input.wireKey, input.witness)

/-- The source's `operator==`. -/
def Transaction.Equal (tx tx' : Transaction) : Prop :=
  tx.version = tx'.version ∧ tx.locktime = tx'.locktime ∧
    tx.inputs.map Input.key = tx'.inputs.map Input.key ∧
    tx.outputs.map Output.wireKey = tx'.outputs.map Output.wireKey

/-- The median time past is not compared. -/
def Header.Equal (header header' : Header) : Prop :=
  header = { header' with medianTimePast := header.medianTimePast }

/-- The source's `operator==`. -/
def Block.Equal (block block' : Block) : Prop :=
  block.header.Equal block'.header ∧
    List.Forall₂ Transaction.Equal block.transactions block'.transactions

instance (tx tx' : Transaction) : Decidable (tx.Equal tx') := inferInstanceAs (Decidable (_ ∧ _))

instance (header header' : Header) : Decidable (header.Equal header') :=
  inferInstanceAs (Decidable (_ = _))

end BitprimCore
