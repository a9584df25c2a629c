import BitprimCore.Machine.Handlers

/-!
# Signature and lock time operations

The handlers of `interpreter.ipp` that read the constant registers: signature checks, and the two
lock time checks that soft forks put in the place of no-operations.

## Implementation notes

Elliptic curve arithmetic is outside the repository. The environment holds the signature parser
and the signature check as parameters, so what is proved holds for any of them.
-/

namespace BitprimCore

open RuleFork

/-- A parsed elliptic curve signature (`ec_signature`). -/
abbrev EcSignature := DataChunk

/-- What the script machine is built on: the currency, the hash functions, the DER parser (strict
or lax) and `script::check_signature`. -/
structure Env where
  currency : Currency
  hashes : Hashes
  parseDer : (strict : Bool) → DataChunk → Option EcSignature
  checkSignature : EcSignature → (sighashType : UInt8) → (publicKey : DataChunk) →
    (scriptCode : Script) → Transaction → (inputIndex : UInt32) → ScriptVersion →
    (value : UInt64) → Bool

/-- Split an endorsement into its signature and its trailing sighash type. -/
def parseEndorsement (endorsement : DataChunk) : Option (UInt8 × DataChunk) :=
  if endorsement.isEmpty then none else some (endorsement.getLastD 0, endorsement.dropLast)

/-- Parses DER. -/
def Env.parseSignature (env : Env) (derSignature : DataChunk) (strict : Bool) :
    Option EcSignature :=
  if derSignature.isEmpty then none else env.parseDer strict derSignature

/-- The operations that run. -/
def Context.operations (env : Env) (ctx : Context) : List Operation :=
  ctx.script.operations env.currency

namespace Interpreter

variable (env : Env) (ctx : Context) (p : Program)

/-- The subscript with the endorsements stripped, which is not done for version 0. -/
def scriptCode (endorsements : List DataChunk) : Script :=
  let code := Script.ofOperations (p.subscript (ctx.operations env))
  if isEnabled ctx.forks bip143Rule && ctx.version == .zero then code
  else code.findAndDelete env.currency endorsements

/-- Parse an endorsement, then ask of a key whether it has signed. -/
def endorsementCheck (code : Script) (endorsement : DataChunk) :
    Except ErrorCode (DataChunk → Bool) :=
  let bip66 := isEnabled ctx.forks bip66Rule
  let bip143 := isEnabled ctx.forks bip143Rule
  match parseEndorsement endorsement with
  | none => .error .invalidSignatureEncoding
  | some (sighash, distinguished) =>
    match env.parseSignature distinguished bip66 with
    | none => .error (if bip66 then .invalidSignatureLaxEncoding else .invalidSignatureEncoding)
    | some signature =>
      -- the version condition preserves independence of bip141 and bip143
      let version := if bip143 then ctx.version else .unversioned
      .ok fun publicKey => env.checkSignature signature sighash publicKey code ctx.transaction
        ctx.inputIndex version ctx.value

/-- Pops a key and a signature. -/
def opCheckSigVerify : Outcome :=
  if p.size < 2 then some (.opCheckSigVerify1, p)
  else do
    let (publicKey, p) ← p.pop
    let (endorsement, p) ← p.pop
    let code := scriptCode env ctx p [endorsement]
    match endorsementCheck env ctx code endorsement with
    | .error failure => return (failure, p)
    | .ok signed => return (if signed publicKey then .success else .incorrectSignature, p)

/-- Only lax encoding fails the operation; every other result is pushed. -/
def pushVerified (failure : ErrorCode) : ErrorCode × Program → ErrorCode × Program
  | (verified, p) =>
    if verified = .invalidSignatureLaxEncoding then (failure, p)
    else (.success, p.push (verified == .success))

/-- Pushes the outcome. -/
def opCheckSig : Outcome := (opCheckSigVerify env ctx p).map (pushVerified .opCheckSig)

/-- What a multisig check takes off the stack. -/
structure MultisigOperands where
  publicKeys : List DataChunk
  endorsements : List DataChunk
  /-- The element that is discarded on top of the operands proper. -/
  dummy : DataChunk
  deriving DecidableEq

/-- The first part of `op_check_multisig_verify`: take the key count and the keys. -/
def popPublicKeys : Option (Except ErrorCode (List DataChunk) × Program) := do
  let (keyCount, p) ← p.popInt32
  match keyCount with
  | none => return (.error .opCheckMultisigVerify1, p)
  | some keyCount =>
    let (counted, p) := p.incrementOperationCountKeys keyCount
    if !counted then return (.error .opCheckMultisigVerify2, p)
    else
      let (publicKeys, p) ← p.popSection keyCount.toNat
      match publicKeys with
      | none => return (.error .opCheckMultisigVerify3, p)
      | some publicKeys => return (.ok publicKeys, p)

/-- The second part: take the signature count, at most the key count, and the endorsements. -/
def popEndorsements (keyCount : Nat) : Option (Except ErrorCode (List DataChunk) × Program) := do
  let (signatureCount, p) ← p.popInt32
  match signatureCount with
  | none => return (.error .opCheckMultisigVerify4, p)
  | some signatureCount =>
    if signatureCount < 0 ∨ signatureCount > keyCount then
      return (.error .opCheckMultisigVerify5, p)
    else
      let (endorsements, p) ← p.popSection signatureCount.toNat
      match endorsements with
      | none => return (.error .opCheckMultisigVerify6, p)
      | some endorsements => return (.ok endorsements, p)

/-- All that `op_check_multisig_verify` takes off the stack. -/
def popMultisigOperands : Option (Except ErrorCode MultisigOperands × Program) := do
  let (publicKeys, p) ← popPublicKeys p
  match publicKeys with
  | .error failure => return (.error failure, p)
  | .ok publicKeys =>
    let (endorsements, p) ← popEndorsements p publicKeys.length
    match endorsements with
    | .error failure => return (.error failure, p)
    | .ok endorsements =>
      if p.isEmpty then return (.error .opCheckMultisigVerify7, p)
      else
        let (dummy, p) ← p.pop
        return (.ok { publicKeys, endorsements, dummy }, p)

/-- The inner loop: advance the key cursor until the key has signed. The cursor is dereferenced
before it is compared with the end. -/
def findPublicKey (signed : DataChunk → Bool) : List DataChunk → Option (Option (List DataChunk))
  | [] => none
  | [key] => some (if signed key then some [key] else none)
  | key :: next :: keys =>
    if signed key then some (some (key :: next :: keys)) else findPublicKey signed (next :: keys)

/-- The outer loop over the endorsements; the cursor stays on the key that has signed. -/
def verifyEndorsements (check : DataChunk → Except ErrorCode (DataChunk → Bool)) :
    List DataChunk → List DataChunk → Option ErrorCode
  | [], _ => some .success
  | endorsement :: endorsements, publicKeys =>
    match check endorsement with
    | .error failure => some failure
    | .ok signed => do
      match ← findPublicKey signed publicKeys with
      | none => return .incorrectSignature
      | some publicKeys => verifyEndorsements check endorsements publicKeys

/-- Pops keys and signatures. -/
def opCheckMultisigVerify : Outcome := do
  let (operands, p) ← popMultisigOperands p
  match operands with
  | .error failure => return (failure, p)
  | .ok operands =>
    -- the discarded element is malleable until bip147
    if !operands.dummy.isEmpty && isEnabled ctx.forks bip147Rule then
      return (.opCheckMultisigVerify8, p)
    else
      let code := scriptCode env ctx p operands.endorsements
      let verified ← verifyEndorsements (endorsementCheck env ctx code) operands.endorsements
        operands.publicKeys
      return (verified, p)

/-- Pushes the outcome. -/
def opCheckMultisig : Outcome :=
  (opCheckMultisigVerify env ctx p).map (pushVerified .opCheckMultisig)

/-- The no-operation `nop2` until bip65. -/
def opCheckLocktimeVerify : Outcome :=
  if !isEnabled ctx.forks bip65Rule then opNop p
  else match ctx.transaction.inputs[ctx.inputIndex.toNat]? with
    | none => some (.opCheckLocktimeVerify1, p)
    | some input =>
      if input.isFinal then some (.opCheckLocktimeVerify2, p)
      else do
        match ← p.top maxCheckLocktimeVerifyNumberSize with
        | none => return (.opCheckLocktimeVerify3, p)
        | some stack =>
          let locktime := stack.toNat
          let txLocktime := ctx.transaction.locktime.toNat
          if stack < 0 then return (.opCheckLocktimeVerify4, p)
          else if decide (locktime < locktimeThreshold) != decide (txLocktime < locktimeThreshold)
            then return (.opCheckLocktimeVerify5, p)
          else if locktime > txLocktime then return (.opCheckLocktimeVerify6, p)
          else return (.success, p)

/-- The no-operation `nop3` until bip112. -/
def opCheckSequenceVerify : Outcome :=
  if !isEnabled ctx.forks bip112Rule then opNop p
  else match ctx.transaction.inputs[ctx.inputIndex.toNat]? with
    | none => some (.opCheckSequenceVerify1, p)
    | some input => do
      match ← p.top maxCheckSequenceVerifyNumberSize with
      | none => return (.opCheckSequenceVerify2, p)
      | some stack =>
        let sequence := stack.toNat
        let txSequence := input.sequence.toNat
        if stack < 0 then return (.opCheckSequenceVerify3, p)
        -- a disabled stack sequence is a no-operation
        else if sequence &&& relativeLocktimeDisabled ≠ 0 then opNop p
        else if ctx.transaction.version.toNat < relativeLocktimeMinVersion then
          return (.opCheckSequenceVerify4, p)
        else if txSequence &&& relativeLocktimeDisabled ≠ 0 then
          return (.opCheckSequenceVerify5, p)
        else if sequence &&& relativeLocktimeTimeLocked ≠
            txSequence &&& relativeLocktimeTimeLocked then
          return (.opCheckSequenceVerify6, p)
        else if sequence &&& relativeLocktimeMask > txSequence &&& relativeLocktimeMask then
          return (.opCheckSequenceVerify7, p)
        else return (.success, p)

end Interpreter

end BitprimCore
