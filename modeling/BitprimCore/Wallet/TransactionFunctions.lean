import BitprimCore.Chain.Mnemonic
import BitprimCore.Chain.SpendKeyHash
import BitprimCore.Utility.Data

/-!
# Wallet functions that sign

`input_signature_old` signs an input of a transaction and `input_set` puts the signature and the
public key into its script, by way of the text of the script (`wallet/transaction_functions`). The
two together spend an output that pays to the hash of the key.

There is one exception. The verifier deletes the endorsement from the script it hashes, and the
signer cannot. An endorsement that is the key hash itself stands in the script that is signed, so
the two hash different scripts.
-/

namespace BitprimCore

open Bytes Interpreter List Option Script

variable {secret : EcSecret} {signature : EcSignature}

/-- A public key, kept compressed, with the form it is written in. -/
structure EcPublic where
  valid : Bool
  compress : Bool
  point : EcCompressed

namespace EcPublic

variable (curve : EllipticCurve) (key : EcPublic)

def nullUncompressedPoint : EcUncompressed := ⟨List.replicate 65 0, by simp⟩

/-- The point in 65 bytes. -/
def toUncompressed : Option EcUncompressed :=
  if !key.valid then none else curve.decompress key.point

/-- If the point is valid it should always decompress, but if not, is null. -/
def encoded : Text :=
  if key.compress then encodeBase16 key.point.val
  else encodeBase16 ((key.toUncompressed curve).getD nullUncompressedPoint).val

/-- The point in its form. -/
def toData : Option DataChunk :=
  if !key.valid then none
  else if key.compress then some key.point.val
  else (key.toUncompressed curve).map Subtype.val

variable {curve key} {data : DataChunk}

/-- The data of a key is the point in one of its two forms. -/
theorem toData_eq_some (h : key.toData curve = some data) :
    key.compress ∧ data = key.point.val ∨
      key.compress = false ∧ ∃ uncompressed, curve.decompress key.point = some uncompressed ∧
        key.toUncompressed curve = some uncompressed ∧ data = uncompressed.val := by
  obtain ⟨valid, compress, point⟩ := key
  cases valid with
  | false => cases h
  | true =>
    cases compress with
    | true => exact .inl ⟨rfl, (Option.some.inj h).symm⟩
    | false =>
      obtain ⟨uncompressed, hpoint, rfl⟩ := map_eq_some_iff.mp h
      exact .inr ⟨rfl, uncompressed, hpoint, hpoint, rfl⟩

theorem encoded_of_toData (h : key.toData curve = some data) :
    key.encoded curve = encodeBase16 data := by
  obtain ⟨hcompress, rfl⟩ | ⟨hcompress, uncompressed, -, hpoint, rfl⟩ := toData_eq_some h
  · simp [encoded, hcompress]
  · simp [encoded, hcompress, hpoint]

theorem length_of_toData (h : key.toData curve = some data) :
    data.length = 33 ∨ data.length = 65 := by
  obtain ⟨-, rfl⟩ | ⟨-, uncompressed, -, -, rfl⟩ := toData_eq_some h
  · exact .inl key.point.2
  · exact .inr uncompressed.2

/-- Either form of the key of a secret verifies what the secret has signed. -/
theorem verifySignature_of_toData (hcurve : curve.Lawful) {digest : HashDigest}
    (hsign : curve.sign secret digest = some signature)
    (hpoint : curve.secretToPublic secret = some key.point) (h : key.toData curve = some data) :
    curve.verifySignature data digest signature := by
  have hverify := hcurve.verify_sign secret digest signature key.point hsign hpoint
  obtain ⟨-, rfl⟩ | ⟨-, uncompressed, hdecompress, -, rfl⟩ := toData_eq_some h
  · exact hverify.1
  · exact hverify.2 uncompressed hdecompress

end EcPublic

namespace Wallet

variable (currency : Currency) (hashes : Hashes) (curve : EllipticCurve)

/-- The type that is signed, with the flag that other inputs may be added. -/
def signedType (signType : UInt8) (anyoneCanPay : Bool) : UInt8 :=
  if anyoneCanPay then signType ||| SighashAlgorithm.anyoneCanPay else signType

/-- Sign an input by the unversioned algorithm. -/
def inputSignatureOld (privateKey : EcSecret) (outputScript : Script) (tx : Transaction)
    (index : UInt32) (signType : UInt8) (anyoneCanPay : Bool) : Except ErrorCode DataChunk :=
  if index.toNat ≥ tx.inputs.length then .error .inputIndexOutOfRange
  else match createEndorsement currency hashes curve privateKey outputScript tx index
      (signedType signType anyoneCanPay) .unversioned sighashNullValue with
    | none => .error .inputSignFailed
    | some endorsement => .ok endorsement

/-- Set the script of an input of a copy of the transaction. -/
def inputSetScript (script : Script) (rawTx : Transaction) (index : UInt32) :
    Except ErrorCode Transaction :=
  if index.toNat ≥ rawTx.inputs.length then .error .inputIndexOutOfRange
  else .ok (rawTx.setScript index.toNat script)

/-- Using the signature and public key it generates the script; `none` is the exception of a script
text that does not parse. -/
def inputSet (signature : DataChunk) (publicKey : EcPublic) (rawTx : Transaction)
    (index : UInt32) : Option (Except ErrorCode Transaction) := do
  let script ← ofSetting ("[".toList ++ encodeBase16 signature ++ "] [".toList ++
    publicKey.encoded curve ++ "]".toList)
  return inputSetScript script rawTx index

variable {curve} {der : DataChunk} {index : UInt32} {tx : Transaction} {point : EcCompressed}

/-- A secret with a public key signs every input. -/
theorem inputSignatureOld_eq_ok (hcurve : curve.Lawful)
    (hpoint : curve.secretToPublic secret = some point) (outputScript : Script)
    (hidx : index.toNat < tx.inputs.length) (signType : UInt8) (anyoneCanPay : Bool) :
    ∃ signature der,
      curve.sign secret (generateUnversionedSignatureHash currency hashes tx index
        outputScript (signedType signType anyoneCanPay)) = some signature ∧
      curve.encodeSignature signature = some der ∧ der ≠ [] ∧ der.length ≤ maxDerSignatureSize ∧
      inputSignatureOld currency hashes curve secret outputScript tx index signType anyoneCanPay =
        .ok (der ++ [signedType signType anyoneCanPay]) := by
  set digest := generateUnversionedSignatureHash currency hashes tx index outputScript
    (signedType signType anyoneCanPay) with hdigest
  obtain ⟨signature, hsign⟩ := Option.isSome_iff_exists.mp
    (hcurve.sign_isSome secret digest (by rw [hpoint]; rfl))
  obtain ⟨der, hder, hempty, hlen⟩ := hcurve.encode_isSome secret digest signature hsign
  refine ⟨signature, der, hsign, hder, hempty, hlen, ?_⟩
  simp only [inputSignatureOld, if_neg (Nat.not_le.mpr hidx), createEndorsement,
    generateSignatureHash, Option.bind_eq_bind, Option.bind_some, ← hdigest, hsign, hder,
    Option.pure_def]

/-- The text of the script is read back as the two pushes. -/
theorem inputSet_eq_ok {key : EcPublic} {data : DataChunk} (hdata : key.toData curve = some data)
    (signature : DataChunk) (hidx : index.toNat < tx.inputs.length) :
    inputSet curve signature key tx index =
      some (.ok (tx.setScript index.toNat (spendKeyHash signature data))) := by
  have htext : "[".toList ++ encodeBase16 signature ++ "] [".toList ++ key.encoded curve ++
      "]".toList = Operation.pushToken signature ++ ' ' :: Operation.pushToken data := by
    rw [EcPublic.encoded_of_toData hdata]
    simp [Operation.pushToken]
  simp only [inputSet, htext, ofSetting_pushTokens, inputSetScript,
    if_neg (Nat.not_le.mpr hidx), Option.bind_eq_bind, Option.bind_some, Option.pure_def]
  rfl

/-- An endorsement of the digest that an input signs passes the check of the verifier, under any
forks. -/
theorem endorsementCheck_eq_ok (hcurve : curve.Lawful)
    (hder : curve.encodeSignature signature = some der) (hempty : der ≠ []) (sighashType : UInt8)
    (code script : Script) (tx : Transaction) (index forks : UInt32) :
    endorsementCheck (Env.ofCurve currency hashes curve)
        (.unversioned script tx index forks) code (der ++ [sighashType]) =
      .ok fun publicKey => checkSignature currency hashes curve signature sighashType
        publicKey code tx index .unversioned sighashNullValue := by
  have hstrict := hcurve.parse_encode signature der hder
  have hparse : ∀ strict, (Env.ofCurve currency hashes curve).parseSignature der strict =
      some signature := by
    intro strict
    rw [Env.parseSignature, if_neg (by simpa using hempty)]
    cases strict with
    | true => exact hstrict
    | false => exact hcurve.parse_lax der signature hstrict
  have hend : parseEndorsement (der ++ [sighashType]) = some (sighashType, der) := by
    simp [parseEndorsement]
  simp only [endorsementCheck, hend, hparse, Context.unversioned]
  -- a program outside a witness has no version, whether or not bip143 is active
  refine congrArg Except.ok (funext fun publicKey => ?_)
  exact congrArg (fun version => checkSignature currency hashes curve signature sighashType
    publicKey code tx index version sighashNullValue) (ite_self _)

def sampleSecret : EcSecret :=
  ofNat 32 0xce8f4b713ffdd2658900845251890f30371856be201cd1f5b3d970f793634333

def samplePoint : EcCompressed :=
  ofNat 33 0x03c40cbd64c9c608df2c9730f49b0888c4db1c436e8b2b74aead6c6afbd10428c0

def sampleDer : DataChunk :=
  (ofNat 36 0x3044022016516aabd04d3b27bec799bbadc55bad447db1e4bb663a32ed8ff6c6b7b67526).val ++
    (ofNat 34 0x02203651316e363b8c41c1b9db050690c6e5e9540ad04ded69184e710197734d3cf6).val

/-- The two scalars, as the library keeps them. -/
def sampleSignature : EcSignature :=
  (ofNat 32 0x2675b6b7c6f68fed323a66bbe4b17d44ad5bc5adbb99c7be273b4dd0ab6a5116).val ++
    (ofNat 32 0xf63c4d739701714e1869ed4dd00a54e9e5c6900605dbb9c1418c3b366e315136).val

/-- The functions of the curve on one secret and its signature. -/
def singleCurve (secret : EcSecret) (point : EcCompressed) (signature : EcSignature)
    (der : DataChunk) : EllipticCurve where
  secretToPublic other := if other = secret then some point else none
  decompress _ := none
  sign other _ := if other = secret then some signature else none
  encodeSignature other := if other = signature then some der else none
  parseDer _ other := if other = der then some signature else none
  verifySignature other _ candidate := other == point.val && candidate == signature

theorem singleCurve_lawful (hempty : der ≠ []) (hlen : der.length ≤ maxDerSignatureSize) :
    (singleCurve secret point signature der).Lawful where
  sign_isSome := by
    intro other digest h
    simp only [singleCurve] at h ⊢
    split_ifs at h ⊢ <;> simp_all
  encode_isSome := by
    intro other digest candidate h
    simp only [singleCurve] at h
    split_ifs at h
    obtain rfl := Option.some.inj h
    exact ⟨der, if_pos rfl, hempty, hlen⟩
  parse_encode := by
    intro candidate other h
    simp only [singleCurve] at h ⊢
    split_ifs at h with hsig
    rw [if_pos (Option.some.inj h).symm, hsig]
  parse_lax := fun _ _ h => h
  verify_sign := by
    intro other digest candidate key hsign hpoint
    simp only [singleCurve] at hsign hpoint ⊢
    split_ifs at hsign hpoint
    obtain rfl := Option.some.inj hsign
    obtain rfl := Option.some.inj hpoint
    simp

def sampleCurve : EllipticCurve := singleCurve sampleSecret samplePoint sampleSignature sampleDer

/-- The hash of the key of the sample is the one that is asked for. -/
def sampleHashes : Hashes :=
  { Hashes.ofSha256 with
    ripemd160Hash := fun _ =>
      ofNat 20 0x88350574280395ad2c3e2ee20e322073d94e5e40 }

def sampleKey : EcPublic where
  valid := true
  compress := true
  point := samplePoint

/-- An input that spends an output that pays to a key hash. -/
def sampleInput (hash : ShortHash) : Input where
  previousOutput :=
    { hash := ofNat 32 0xb3807042c92f449bbf79b33ca59d7dfec7f4cc71096704a9c526dddf496ee097
      index := 1
      validation := { cache := { value := 100000, script := payKeyHash hash } } }
  sequence := 0xffffffff

def sampleTransaction (hash : ShortHash) : Transaction where
  version := 1
  locktime := 0
  inputs := [sampleInput hash]
  outputs := [{ value := 90000, script :=
    ⟨(ofNat 25 0x76a91418c0bd8d1818f1bf99cb1df2269c645318ef7b7388ac).val⟩ }]

/-- The hash of the key of the sample, and all of it but the last byte. -/
def endorsingHash : ShortHash := sampleHashes.bitcoinShortHash samplePoint.val

def shortDer : DataChunk := endorsingHash.val.take 19

/-- The digest that the input signs, of the type that is the last byte of the hash. -/
def endorsedDigest : HashDigest :=
  generateUnversionedSignatureHash .btc sampleHashes (sampleTransaction endorsingHash) 0
    (payKeyHash endorsingHash) 0x40

/-- A curve whose signature of a digest is the digest; `short` is the encoding of one of them. -/
def mirrorCurve (special : HashDigest) (short : DataChunk) : EllipticCurve where
  secretToPublic _ := some samplePoint
  decompress _ := none
  sign _ digest := some digest.val
  encodeSignature signature := some (if signature = special.val then short else 0 :: signature)
  parseDer _ der := some (if der = short then special.val else der.tail)
  verifySignature _ digest signature := signature == digest.val

theorem mirrorCurve_lawful (special : HashDigest) {short : DataChunk} (hempty : short ≠ [])
    (hhead : short.head? ≠ some 0) (hlen : short.length ≤ maxDerSignatureSize) :
    (mirrorCurve special short).Lawful where
  sign_isSome := fun _ _ _ => rfl
  encode_isSome := by
    intro secret digest signature h
    obtain rfl := Option.some.inj h
    refine ⟨_, rfl, ?_⟩
    split_ifs
    · exact ⟨hempty, hlen⟩
    · refine ⟨cons_ne_nil _ _, ?_⟩
      rw [length_cons, digest.2]
      decide
  parse_encode := by
    intro signature der h
    obtain rfl := Option.some.inj h
    simp only [mirrorCurve]
    split_ifs with hspecial hshort hshort
    · rw [hspecial]
    · exact absurd rfl hshort
    · exact absurd (by rw [← hshort]; rfl) hhead
    · rfl
  parse_lax := fun _ _ h => h
  verify_sign := by
    intro secret digest signature point hsign hpoint
    obtain rfl := Option.some.inj hsign
    exact ⟨by simp [mirrorCurve], fun uncompressed h => by cases h⟩

end Wallet

end BitprimCore
