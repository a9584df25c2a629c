import BitprimCore.Chain.FindAndDelete
import BitprimCore.Chain.Signing
import BitprimCore.Machine.Restriction

/-!
# Endorsements

`script::check_signature` and `script::create_endorsement`, over the functions of
`math/elliptic_curve`.

The signature hash of an input does not depend on the script of any input, so a transaction can be
signed before the script that holds the signature is set.

## Implementation notes

Elliptic curve arithmetic is outside the repository. Its functions are parameters, and what the
library relies on is stated of them.
-/

namespace BitprimCore

/-- A secret key. -/
abbrev EcSecret := { bytes : DataChunk // bytes.length = 32 }

/-- A compressed public key. -/
abbrev EcCompressed := { bytes : DataChunk // bytes.length = 33 }

/-- An uncompressed public key. -/
abbrev EcUncompressed := { bytes : DataChunk // bytes.length = 65 }

/-- The functions of `math/elliptic_curve` that signing and verifying use; `none` is failure. -/
structure EllipticCurve where
  secretToPublic : EcSecret → Option EcCompressed
  decompress : EcCompressed → Option EcUncompressed
  sign : EcSecret → HashDigest → Option EcSignature
  encodeSignature : EcSignature → Option DataChunk
  parseDer : (strict : Bool) → DataChunk → Option EcSignature
  verifySignature : (point : DataChunk) → HashDigest → EcSignature → Bool

def maxDerSignatureSize : Nat := 72

/-- What the library relies on when it signs. -/
structure EllipticCurve.Lawful (curve : EllipticCurve) : Prop where
  /-- A secret that has a public key signs every digest. -/
  sign_isSome : ∀ secret digest, (curve.secretToPublic secret).isSome →
    (curve.sign secret digest).isSome
  /-- The encoding of a signature has between one and 72 bytes. -/
  encode_isSome : ∀ secret digest signature, curve.sign secret digest = some signature →
    ∃ der, curve.encodeSignature signature = some der ∧ der ≠ [] ∧ der.length ≤ maxDerSignatureSize
  /-- An encoding is parsed back by the strict parser. -/
  parse_encode : ∀ signature der, curve.encodeSignature signature = some der →
    curve.parseDer true der = some signature
  /-- The lax parser agrees with the strict one on what that accepts. -/
  parse_lax : ∀ der signature, curve.parseDer true der = some signature →
    curve.parseDer false der = some signature
  /-- A signature of a digest is verified for that digest by the key of the secret. -/
  verify_sign : ∀ secret digest signature point, curve.sign secret digest = some signature →
    curve.secretToPublic secret = some point →
    curve.verifySignature point.val digest signature = true ∧
      ∀ uncompressed, curve.decompress point = some uncompressed →
        curve.verifySignature uncompressed.val digest signature = true

namespace Script

variable (currency : Currency) (hashes : Hashes) (curve : EllipticCurve)

/-- No program of a verification asks for a signature hash that is `none`. -/
def checkSignature (signature : EcSignature) (sighashType : UInt8) (publicKey : DataChunk)
    (scriptCode : Script) (tx : Transaction) (inputIndex : UInt32) (version : ScriptVersion)
    (value : UInt64) : Bool :=
  if publicKey.isEmpty then false
  else match generateSignatureHash currency hashes tx inputIndex scriptCode sighashType version
      value with
    | none => false
    | some sighash => curve.verifySignature publicKey sighash signature

/-- The encoding of a signature with the signature hash type at its end. -/
def createEndorsement (secret : EcSecret) (prevoutScript : Script) (tx : Transaction)
    (inputIndex : UInt32) (sighashType : UInt8) (version : ScriptVersion) (value : UInt64) :
    Option DataChunk := do
  let sighash ← generateSignatureHash currency hashes tx inputIndex prevoutScript sighashType
    version value
  let signature ← curve.sign secret sighash
  let der ← curve.encodeSignature signature
  return der ++ [sighashType]

end Script

/-- The script machine over the functions of the curve. -/
def Env.ofCurve (currency : Currency) (hashes : Hashes) (curve : EllipticCurve) : Env where
  currency
  hashes
  parseDer := curve.parseDer
  checkSignature := Script.checkSignature currency hashes curve

/-- The transaction with another script in one of its inputs. -/
def Transaction.setScript (tx : Transaction) (index : Nat) (script : Script) : Transaction :=
  { tx with inputs := tx.inputs.modify index fun input => { input with script } }

namespace Script

variable {currency : Currency}

/-- Of the input that signs only the point and the sequence are read. -/
theorem signedTransaction_setScript (tx : Transaction) (index : Nat) (script : Script)
    (inputIndex : UInt32) (scriptCode : Script) (sighashType : UInt8) {self other : Input}
    (hpoint : other.previousOutput = self.previousOutput)
    (hseq : other.sequence = self.sequence) :
    signedTransaction currency (tx.setScript index script) inputIndex other scriptCode sighashType =
      signedTransaction currency tx inputIndex self scriptCode sighashType := by
  have hretain : ∀ code, retainSelf other code = retainSelf self code := by
    intro code
    simp [retainSelf, hpoint, hseq]
  have herase : ∀ code, eraseInputs (tx.setScript index script) inputIndex other code =
      eraseInputs tx inputIndex self code := by
    intro code
    rw [eraseInputs, eraseInputs, hseq, Transaction.setScript, map_modify_of_forall_eq]
    intro input
    rfl
  have hscripts : ∀ code, eraseInputScripts (tx.setScript index script) inputIndex code =
      eraseInputScripts tx inputIndex code := by
    intro code
    rw [eraseInputScripts, eraseInputScripts, Transaction.setScript, map_modify_of_forall_eq]
    intro input
    rfl
  simp only [signedTransaction, signNone, signSingle, signAll, hretain, herase, hscripts]
  rfl

/-- The digest that an input signs does not depend on the script of any input. -/
theorem generateUnversionedSignatureHash_setScript (currency : Currency) (hashes : Hashes)
    (tx : Transaction) (index : Nat) (script : Script) (inputIndex : UInt32) (scriptCode : Script)
    (sighashType : UInt8) :
    generateUnversionedSignatureHash currency hashes (tx.setScript index script) inputIndex
        scriptCode sighashType =
      generateUnversionedSignatureHash currency hashes tx inputIndex scriptCode sighashType := by
  have hget : (tx.setScript index script).inputs[inputIndex.toNat]? =
      (tx.inputs[inputIndex.toNat]?).map fun input =>
        if index = inputIndex.toNat then { input with script } else input := by
    rw [Transaction.setScript, List.getElem?_modify]
    rfl
  simp only [generateUnversionedSignatureHash, hget]
  cases tx.inputs[inputIndex.toNat]? with
  | none => rfl
  | some self =>
    have hpoint : (if index = inputIndex.toNat then { self with script } else self).previousOutput =
        self.previousOutput := by split_ifs <;> rfl
    have hseq : (if index = inputIndex.toNat then { self with script } else self).sequence =
        self.sequence := by split_ifs <;> rfl
    simp only [Option.map_some, signedTransaction_setScript tx index script inputIndex scriptCode
      sighashType hpoint hseq]
    rfl

end Script

end BitprimCore
