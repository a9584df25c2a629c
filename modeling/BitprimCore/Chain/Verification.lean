import BitprimCore.Machine.Interpreter

/-!
# Script verification

`script::verify` and `witness::verify`: an input is verified by running its script, the script of
the previous output on the stack that leaves, and then, where the output asks for it, an embedded
script or a witness script.
-/

namespace BitprimCore

open Interpreter

variable (env : Env)

namespace Witness

/-- No element is too long to push. -/
def isPushSize (stack : List DataChunk) : Bool :=
  stack.all fun element => decide (element.length ≤ maxPushDataSize)

/-- Extract the script and the stack that a program script of version 0 asks for. -/
def extractEmbeddedScript (witness : Witness) (programScript : Script) :
    Option (Script × List DataChunk) :=
  match programScript.version env.currency with
  | .zero =>
    let program := programScript.witnessProgram env.currency
    if program.length = 20 then
      if witness.stack.length ≠ 2 || !isPushSize witness.stack then none
      else some (.ofOperations (Script.toPayKeyHashPattern program), witness.stack)
    else if program.length = 32 then
      -- the script is popped off the back of the witness stack
      match witness.stack.getLast? with
      | none => none
      | some encoded =>
        let stack := witness.stack.dropLast
        if !isPushSize stack then none
        else if program = (env.hashes.sha256Hash encoded).val then some (⟨encoded⟩, stack)
        else none
    else none
  | .reserved => some ({}, [])
  | .unversioned => none

/-- The program script is either a prevout script or an embedded script. -/
def verify (witness : Witness) (tx : Transaction) (inputIndex forks : UInt32)
    (programScript : Script) (value : UInt64) : Option ErrorCode :=
  match programScript.version env.currency with
  | .zero =>
    match witness.extractEmbeddedScript env programScript with
    | none => some .invalidWitness
    | some (script, stack) => do
      let ctx : Context :=
        { script, transaction := tx, inputIndex, forks, value, version := .zero }
      -- the back of the witness is the top of the stack
      let (result, p) ← run env ctx (.ofStack stack.reverse)
      if result ≠ .success then return result
      else
        let clean ← p.stackResult true
        return if clean then .success else .stackFalse
  | .reserved => some .success
  | .unversioned => some .operationFailed

end Witness

/-- The constant registers of a program outside a witness. -/
def Context.unversioned (script : Script) (tx : Transaction) (inputIndex forks : UInt32) :
    Context where
  script
  transaction := tx
  inputIndex
  forks
  value := sighashNullValue
  version := .unversioned

namespace Script

variable (tx : Transaction) (inputIndex forks : UInt32) (inputScript : Script)
  (inputWitness : Witness)

/-- What is left to verify once the embedded script is popped. -/
def verifyPopped (value : UInt64) (embeddedScript : Script) (stack : List DataChunk) :
    Option ErrorCode := do
  let (result, embedded) ← run env (.unversioned embeddedScript tx inputIndex forks)
    (.ofStack stack)
  if result ≠ .success then return result
  else
    let embeddedTrue ← embedded.stackResult false
    if !embeddedTrue then return .stackFalse
    else if embeddedScript.isPayToWitness env.currency forks then
      if inputScript.size env.currency ≠ 1 then return .dirtyWitness
      else inputWitness.verify env tx inputIndex forks embeddedScript value
    else if !inputWitness.isEmpty then return .unexpectedWitness
    else return .success

/-- The part of `verify` for an output that pays to a script hash, given the program that the input
script leaves. -/
def verifyEmbedded (input : Program) (value : UInt64) : Option ErrorCode :=
  if !isRelaxedPush (inputScript.operations env.currency) then some .invalidScriptEmbed
  else do
    -- the embedded script is at the top of the stack; nothing guards this access
    let (encoded, input) ← input.pop
    verifyPopped env tx inputIndex forks inputScript inputWitness value ⟨encoded⟩ input.primary

/-- Verify an input against the output it spends. -/
def verify (prevoutScript : Script) (value : UInt64) : Option ErrorCode := do
  let (result, input) ← run env (.unversioned inputScript tx inputIndex forks) (.ofStack [])
  if result ≠ .success then return result
  else
    let (result, prevout) ← run env (.unversioned prevoutScript tx inputIndex forks)
      (.ofStack input.primary)
    if result ≠ .success then return result
    else
      let prevoutTrue ← prevout.stackResult false
      if !prevoutTrue then return .stackFalse
      else if prevoutScript.isPayToWitness env.currency forks then
        if !inputScript.isEmpty env.currency then return .dirtyWitness
        else inputWitness.verify env tx inputIndex forks prevoutScript value
      else if prevoutScript.isPayToScriptHash env.currency forks then
        verifyEmbedded env tx inputIndex forks inputScript inputWitness input value
      else if !inputWitness.isEmpty then return .unexpectedWitness
      else return .success

/-- Verify an input of a transaction against the cached output it spends. -/
def verifyInput (input : UInt32) : Option ErrorCode :=
  match tx.inputs[input.toNat]? with
  | none => some .operationFailed
  | some spender =>
    let prevout := spender.previousOutput.validation.cache
    verify env tx input forks spender.script spender.witness prevout.script prevout.value

end Script

end BitprimCore
