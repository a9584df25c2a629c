import BitprimCore.Chain.Deserialization
import BitprimCore.Utility.IstreamReader
import BitprimCore.Wallet.PaymentAddress

/-!
# Decoding into objects

`from_data` changes an object: it resets it, reads its fields one by one from a stream that may end
at any of them, and resets it again if the stream has failed. Here the objects have the validity
flags of the source, and the metadata and the caches that a reset leaves as they were, and the
readers follow the source step by step. Each returns what `from_data` returns, and the object as it
is then.

## Implementation notes

A hash is read into an array that is not set before, so bytes that do not arrive are unknown; they
are a parameter. Caches that every reset clears, pointers to the chain state and time stamps are
left out.
-/

namespace BitprimCore

open IstreamReader StickyReader

/-! ### Objects

The defaults of the fields are those of an object that is constructed by default.
-/

/-- A point (`chain/point`). -/
structure PointState extends Point where
  hash := nullHash
  index := 0
  valid : Bool := false
  deriving DecidableEq

/-- The metadata belongs to `output_point`, and `point::from_data` does not know it. -/
structure OutputPointState extends PointState where
  validation : OutputPointValidation := {}
  deriving DecidableEq

/-- A script, whose operations are parsed when they are first asked for. -/
structure ScriptState extends Script where
  valid : Bool := false
  deriving DecidableEq

/-- A witness (`chain/witness`). -/
structure WitnessState extends Witness where
  valid : Bool := false
  deriving DecidableEq

/-- An input with its cache of addresses. -/
structure InputState where
  previousOutput : OutputPointState := {}
  script : ScriptState := {}
  witness : WitnessState := {}
  sequence : UInt32 := 0
  addresses : Option (List PaymentAddress) := none
  deriving DecidableEq

/-- An output with its cache of addresses. -/
structure OutputState where
  value : UInt64 := sighashNullValue
  script : ScriptState := {}
  /-- Stored in front of the output (`validation.spender_height`). -/
  spenderHeight : UInt32 := 0xffffffff
  addresses : Option (List PaymentAddress) := none
  deriving DecidableEq

/-- What validation notes at a transaction (`transaction::validation`). -/
structure TransactionValidation where
  originator : UInt64 := 0
  error : ErrorCode := .notFound
  duplicate : Bool := false
  pooled : Bool := false
  current : Bool := false
  simulate : Bool := false
  deriving DecidableEq

/-- The three cached fields are stored with unconfirmed transactions. The constructor without
arguments does not set them; the defaults are those of the other constructors. -/
structure TransactionState where
  version : UInt32 := 0
  locktime : UInt32 := 0
  inputs : List InputState := []
  outputs : List OutputState := []
  cachedSigops : UInt32 := 0
  cachedFees : UInt64 := 0
  cachedIsStandard : Bool := false
  validation : TransactionValidation := {}
  deriving DecidableEq

/-- A header with the height that validation notes (`validation.height`). -/
structure HeaderState extends Header where
  version := 0
  previousBlockHash := nullHash
  merkle := nullHash
  timestamp := 0
  bits := 0
  nonce := 0
  height : Nat := 0
  deriving DecidableEq

/-- What validation notes at a block (`block::validation`). -/
structure BlockValidation where
  originator : UInt64 := 0
  error : ErrorCode := .notFound
  simulate : Bool := false
  deriving DecidableEq

/-- A block with its caches. -/
structure BlockState where
  header : HeaderState := {}
  transactions : List TransactionState := []
  segregated : Option Bool := none
  totalInputs : Option Nat := none
  baseSize : Option Nat := none
  totalSize : Option Nat := none
  validation : BlockValidation := {}
  deriving DecidableEq

def readStateUInt32 : Reader UInt8 UInt32 := do
  return UInt32.ofNat (← IstreamReader.readLittleEndian 4)

def readStateUInt64 : Reader UInt8 UInt64 := do
  return UInt64.ofNat (← IstreamReader.readLittleEndian 8)

variable (currency : Currency) (unset : HashDigest)

namespace PointState

/-- Clears the point. -/
def reset (point : PointState) : PointState :=
  { point with valid := false, hash := nullHash, index := 0 }

/-- Some field is set. -/
def isValid (point : PointState) : Bool := point.valid || point.hash != nullHash || point.index != 0

/-- Two bytes in the store. -/
def readIndex (wire : Bool) : Reader UInt8 UInt32 :=
  if wire then readStateUInt32
  else do
    let index ← IstreamReader.readLittleEndian 2
    return if index = maxUint16 then noPreviousOutput else UInt32.ofNat index

/-- Reads over a point. -/
def fromData (before : PointState) (wire : Bool) : Reader UInt8 (Bool × PointState) := do
  let hash ← readForward unset
  let index ← readIndex wire
  let point := { before.reset with valid := true, hash, index }
  finish point point.reset

end PointState

namespace OutputPointState

/-- The rest is kept. -/
def reset (point : OutputPointState) : OutputPointState :=
  { point with toPointState := point.toPointState.reset }

/-- The rest is kept. -/
def fromData (before : OutputPointState) (wire : Bool) :
    Reader UInt8 (Bool × OutputPointState) := do
  let (result, point) ← before.toPointState.fromData unset wire
  return (result, { before with toPointState := point })

end OutputPointState

/-- Bytes behind their size; a size over the bound fails the source. -/
def readStateSizedBytes (maxSize : Nat) : Reader UInt8 DataChunk := do
  let size ← IstreamReader.readVariableLittleEndian
  if size > maxSize then
    invalidate
    return []
  else IstreamReader.readBytes size

namespace ScriptState

/-- Clears the script. -/
def reset (script : ScriptState) : ScriptState := { script with bytes := [], valid := false }

/-- The form with the size in front, which inputs and outputs have. -/
def fromData (before : ScriptState) : Reader UInt8 (Bool × ScriptState) := do
  let bytes ← readStateSizedBytes currency.getMaxBlockSize
  let script := { before.reset with bytes, valid := true }
  finish script script.reset

end ScriptState

namespace WitnessState

/-- Clears the witness. -/
def reset (witness : WitnessState) : WitnessState := { witness with stack := [], valid := false }

/-- Reads one element. -/
def readElement : Reader UInt8 DataChunk := readStateSizedBytes currency.maxBlockWeight

/-- Read elements until the source is exhausted; each of them takes a byte at least. -/
def readElements : (fuel : Nat) → Reader UInt8 (List DataChunk)
  | 0 => return []
  | fuel + 1 => do
    if ← isExhausted then return []
    else
      let element ← readElement currency
      let elements ← readElements fuel
      return element :: elements

/-- The elements behind their number, or all that there are (the `prefix` argument). -/
def readStack (withSize : Bool) : Reader UInt8 (List DataChunk) :=
  if withSize then do
    let count ← IstreamReader.readVariableLittleEndian
    readMany (readElement currency) count
  else fun source => readElements currency source.items.length source

/-- Reads over a witness. -/
def fromData (before : WitnessState) (withSize : Bool) : Reader UInt8 (Bool × WitnessState) := do
  let stack ← readStack currency withSize
  let witness := { before.reset with stack, valid := true }
  finish witness witness.reset

end WitnessState

namespace InputState

/-- The addresses are kept. -/
def reset (input : InputState) : InputState :=
  { input with
    previousOutput := input.previousOutput.reset, script := input.script.reset
    witness := input.witness.reset, sequence := 0 }

/-- Some field is set. -/
def isValid (input : InputState) : Bool :=
  input.sequence != 0 || input.previousOutput.isValid || input.script.valid || input.witness.valid

variable (input : InputState)

/-- Only the store has the witness in the input. -/
def readWitness (stored : Bool) : Reader UInt8 WitnessState :=
  if stored then do
    let (_, witness) ← input.witness.fromData currency true
    return witness
  else return input.witness

/-- The fields behind the previous output. -/
def readBody (stored : Bool) : Reader UInt8 (Bool × InputState) := do
  let (_, script) ← input.script.fromData currency
  let witness ← input.readWitness currency stored
  let sequence ← readStateUInt32
  let input := { input with script, witness, sequence }
  finish input input.reset

/-- Without its previous output there is no input. -/
def fromData (before : InputState) (wire witness : Bool) : Reader UInt8 (Bool × InputState) :=
  let witness := if currency = .bch then false else witness || !wire
  let input := before.reset
  andThen (input.previousOutput.fromData unset wire)
    (fun previousOutput => { input with previousOutput }.readBody currency (witness && !wire))
    fun previousOutput => { input with previousOutput }

def stripWitness : InputState := { input with witness := input.witness.reset }

end InputState

namespace OutputState

/-- The height of the spender and the addresses are kept. -/
def reset (output : OutputState) : OutputState :=
  { output with value := sighashNullValue, script := output.script.reset }

/-- There is a value. -/
def isValid (output : OutputState) : Bool := output.value != sighashNullValue

/-- The fields behind the height of the spender. -/
def readBody (output : OutputState) : Reader UInt8 (Bool × OutputState) := do
  let value ← readStateUInt64
  let (_, script) ← output.script.fromData currency
  let output := { output with value, script }
  finish output output.reset

/-- Only the store has the height of the spender. -/
def fromData (before : OutputState) (wire : Bool) : Reader UInt8 (Bool × OutputState) := do
  let output := before.reset
  let spenderHeight ← if wire then pure output.spenderHeight else readStateUInt32
  { output with spenderHeight }.readBody currency

end OutputState

namespace TransactionState

variable (tx : TransactionState) (witness : Bool)

/-- The fields of unconfirmed transactions and the metadata are kept. -/
def reset : TransactionState :=
  { tx with version := 0, locktime := 0, inputs := [], outputs := [] }

def isValid : Bool :=
  tx.version != 0 || tx.locktime != 0 || !tx.inputs.isEmpty || !tx.outputs.isEmpty

def stripWitness (tx : TransactionState) : TransactionState :=
  { tx with inputs := tx.inputs.map InputState.stripWitness }

/-- New objects in the number given, each read if all before it were (`read`). -/
def readPuts {α : Type} (fresh : α) (read : α → Reader UInt8 (Bool × α)) :
    Reader UInt8 (List α) := do
  let count ← IstreamReader.readVariableLittleEndian
  if count > currency.getMaxBlockSize then
    invalidate
    return []
  else readWhile read true (List.replicate count fresh)

def readInputs (wire witness : Bool) : Reader UInt8 (List InputState) :=
  readPuts currency {} fun input => input.fromData currency unset wire witness

def readOutputs (wire : Bool) : Reader UInt8 (List OutputState) :=
  readPuts currency {} fun output => output.fromData currency wire

/-- One for each input. -/
def readWitnesses (inputs : List InputState) : Reader UInt8 (List InputState) :=
  readAll (fun input => do
    let (_, witness) ← input.witness.fromData currency true
    return { input with witness }) inputs

/-- The peeked flag is skipped. -/
def readPutsWire : Reader UInt8 (List InputState × List OutputState) := do
  let inputs ← readInputs currency unset true witness
  let flag ← IstreamReader.peekByte
  if currency ≠ .bch && inputs.isEmpty && flag == Transaction.witnessFlag then
    let _ ← IstreamReader.readBytes 1
    let inputs ← readInputs currency unset true witness
    let outputs ← readOutputs currency true
    let inputs ← readWitnesses currency inputs
    return (inputs, outputs)
  else
    let outputs ← readOutputs currency true
    return (inputs, outputs)

/-- The wire form. -/
def readWire : Reader UInt8 TransactionState := do
  let version ← readStateUInt32
  let (inputs, outputs) ← readPutsWire currency unset witness
  let locktime ← readStateUInt32
  return { tx with version, locktime, inputs, outputs }

/-- The fields behind an unconfirmed transaction. -/
def readCached (unconfirmed : Bool) : Reader UInt8 TransactionState :=
  if unconfirmed then do
    let sigops ← readStateUInt32
    let fees ← readStateUInt64
    let isStandard ← readByte
    return { tx with
      cachedSigops := sigops, cachedFees := fees, cachedIsStandard := isStandard != 0 }
  else return tx

/-- The store has the outputs in front. -/
def readStore (unconfirmed : Bool) :
    Reader UInt8 TransactionState := do
  let outputs ← readOutputs currency false
  let inputs ← readInputs currency unset false witness
  let locktime ← IstreamReader.readVariableLittleEndian
  let version ← IstreamReader.readVariableLittleEndian
  if locktime > maxUint32 || version > maxUint32 then invalidate
  let tx := { tx with
    version := UInt32.ofNat version, locktime := UInt32.ofNat locktime, inputs, outputs }
  tx.readCached unconfirmed

/-- Reads over a transaction. -/
def fromData (before : TransactionState) (wire witness unconfirmed : Bool) :
    Reader UInt8 (Bool × TransactionState) := do
  let witness := if currency = .bch then false else witness
  let tx := before.reset
  let tx ← if wire then tx.readWire currency unset witness
    else tx.readStore currency unset witness unconfirmed
  let tx := if witness then tx else tx.stripWitness
  finish tx tx.reset

end TransactionState

namespace HeaderState

/-- The height and the median time past are kept. -/
def reset (header : HeaderState) : HeaderState :=
  { header with
    version := 0, previousBlockHash := nullHash, merkle := nullHash, timestamp := 0, bits := 0
    nonce := 0 }

/-- Some field is set. -/
def isValid (header : HeaderState) : Bool :=
  header.version != 0 || header.previousBlockHash != nullHash || header.merkle != nullHash ||
    header.timestamp != 0 || header.bits != 0 || header.nonce != 0

/-- There is no reset in front: every field is read, but for the median time past. -/
def fromData (before : HeaderState) (wire : Bool) : Reader UInt8 (Bool × HeaderState) := do
  let version ← readStateUInt32
  let previousBlockHash ← readForward unset
  let merkle ← readForward unset
  let timestamp ← readStateUInt32
  let bits ← readStateUInt32
  let nonce ← readStateUInt32
  let medianTimePast ← if wire then pure before.medianTimePast else readStateUInt32
  let header := { before with
    version, previousBlockHash, merkle, timestamp, bits, nonce, medianTimePast }
  finish header header.reset

end HeaderState

namespace BlockState

/-- The caches and the metadata are kept. -/
def reset (block : BlockState) : BlockState :=
  { block with header := block.header.reset, transactions := [] }

/-- Some field is set. -/
def isValid (block : BlockState) : Bool := !block.transactions.isEmpty || block.header.isValid

/-- Two of the caches are set. -/
def stripWitness (block : BlockState) : BlockState :=
  { block with
    segregated := some false, totalSize := none
    transactions := block.transactions.map TransactionState.stripWitness }

/-- A size over the bound fails the source; the first transaction that fails ends the loop. -/
def readTransactions (witness : Bool) : Reader UInt8 (List TransactionState) :=
  TransactionState.readPuts currency {} fun tx => tx.fromData currency unset true witness false

/-- The fields behind the header. -/
def readBody (block : BlockState) (witness : Bool) : Reader UInt8 (Bool × BlockState) := do
  let transactions ← readTransactions currency unset witness
  let block := { block with transactions }
  let block := if witness then block else block.stripWitness
  finish block block.reset

/-- Without its header there is no block. -/
def fromData (before : BlockState) (witness : Bool) : Reader UInt8 (Bool × BlockState) :=
  let witness := if currency = .bch then false else witness
  let block := before.reset
  andThen (block.header.fromData unset true)
    (fun header => { block with header }.readBody currency unset witness)
    fun header => { block with header }

end BlockState

variable {currency : Currency}

theorem shrinks_readLittleEndian (width : Nat) : Shrinks (IstreamReader.readLittleEndian width) :=
  shrinks_bind (shrinks_arrive width) fun _ => shrinks_pure _

theorem shrinks_readBytes (size : Nat) : Shrinks (IstreamReader.readBytes size) :=
  shrinks_bind (shrinks_arrive size) fun _ => shrinks_pure _

/-- Whatever is read behind the first byte of the size, the byte is gone. -/
theorem readStateSizedBytes_le (maxSize : Nat) (byte : UInt8) (bytes : DataChunk) :
    (readStateSizedBytes maxSize ⟨byte :: bytes, false⟩).2.items.length ≤ bytes.length := by
  have hsize : Shrinks (if byte = 0xff then IstreamReader.readLittleEndian 8
      else if byte = 0xfe then IstreamReader.readLittleEndian 4
      else if byte = 0xfd then IstreamReader.readLittleEndian 2
      else pure byte.toNat) := by
    split_ifs
    · exact shrinks_readLittleEndian 8
    · exact shrinks_readLittleEndian 4
    · exact shrinks_readLittleEndian 2
    · exact shrinks_pure _
  have hrest : ∀ size : Nat, Shrinks (if size > maxSize then do invalidate; return []
      else IstreamReader.readBytes size) := by
    intro size
    split_ifs
    · exact shrinks_bind shrinks_invalidate fun _ => shrinks_pure _
    · exact shrinks_readBytes size
  exact shrinks_bind hsize hrest ⟨bytes, false⟩

end BitprimCore
