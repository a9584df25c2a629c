import BitprimCore.Wallet.KeyAddress

/-!
# Encrypted keys

Secrets encrypted under a passphrase, and tokens that let another party make key pairs only the owner
of the passphrase can decrypt (`wallet/encrypted_keys` and its parsers, of BIP38).

## Implementation notes

AES, scrypt, the curve and the normal form of a passphrase are parameters. The arrays are built and
cut by the repository. A prefix is a magic number with a byte of context behind it.
-/

namespace BitprimCore

open Bytes

abbrev EkSalt := Bytes 4
abbrev EkEntropy := Bytes 8
abbrev EkSeed := Bytes 24
abbrev EncryptedToken := Bytes 53
abbrev EncryptedPrivate := Bytes 43
abbrev EncryptedPublic := Bytes 55

def ekMaxLot : UInt32 := 1048575

def ekMaxSequence : UInt32 := 4095

namespace EkFlag

def lotSequenceKey : UInt8 := (1 : UInt8) <<< 2

def ecCompressedKey : UInt8 := (1 : UInt8) <<< 5

def ecNonMultiplied : UInt8 := (1 : UInt8) <<< 6 ||| (1 : UInt8) <<< 7

end EkFlag

/-- The owner salt is the first half of the entropy if a lot and sequence are the other. -/
def ownerSalt (lotSequence : Bool) (entropy : EkEntropy) : DataChunk :=
  if lotSequence then (entropy.slice 0 4).val else entropy.val

/-- What an encrypted private and an encrypted public key have in front. -/
structure ParseEncryptedKey where
  valid : Bool
  context : UInt8
  flags : UInt8
  salt : EkSalt
  entropy : EkEntropy

namespace ParseEncryptedKey

variable (parse : ParseEncryptedKey)

/-- The point is compressed. -/
def compressed : Bool := (parse.flags &&& EkFlag.ecCompressedKey) != 0

def lotSequence : Bool := (parse.flags &&& EkFlag.lotSequenceKey) != 0

def ownerSalt : DataChunk := BitprimCore.ownerSalt parse.lotSequence parse.entropy

end ParseEncryptedKey

/-- The parts of a private key. -/
structure ParseEncryptedPrivate extends ParseEncryptedKey where
  data1 : Bytes 8
  data2 : Bytes 16

namespace ParseEncryptedPrivate

def magic : Bytes 1 := ⟨[0x01], rfl⟩

def defaultContext : UInt8 := 0x42

def multipliedContext : UInt8 := 0x43

def prefixFactory (address : UInt8) (multiplied : Bool) : Bytes 2 :=
  magic.splice (toArray ((if multiplied then multipliedContext else defaultContext) + address))

/-- Reads an encrypted key. -/
def parse (hashes : Hashes) (key : EncryptedPrivate) : ParseEncryptedPrivate where
  valid := key.slice 0 1 == magic && hashes.verifyChecksum key.val
  context := key.val.getD 1 0
  flags := key.val.getD 2 0
  salt := key.slice 3 7
  entropy := key.slice 7 15
  data1 := key.slice 15 23
  data2 := key.slice 23 39

/-- This is a double negative (multiplied = not not multiplied). -/
def multiplied (key : ParseEncryptedPrivate) : Bool := (key.flags &&& EkFlag.ecNonMultiplied) == 0

def addressVersion (key : ParseEncryptedPrivate) : UInt8 :=
  key.context - (if key.multiplied then multipliedContext else defaultContext)

end ParseEncryptedPrivate

/-- The parts of a public key. -/
structure ParseEncryptedPublic extends ParseEncryptedKey where
  sign : UInt8
  data : Bytes 32

namespace ParseEncryptedPublic

/-- This prefix results in "cfrm" in the base58 encoding but is modified when the payment address is
Bitcoin mainnet (0). -/
def magic : Bytes 4 := ⟨[0x64, 0x3b, 0xf6, 0xa8], rfl⟩

def defaultContext : UInt8 := 0x9a

def prefixFactory (address : UInt8) : Bytes 5 := magic.splice (toArray (defaultContext + address))

/-- Reads a confirmation. -/
def parse (hashes : Hashes) (key : EncryptedPublic) : ParseEncryptedPublic where
  valid := key.slice 0 4 == magic && hashes.verifyChecksum key.val
  context := key.val.getD 4 0
  flags := key.val.getD 5 0
  salt := key.slice 6 10
  entropy := key.slice 10 18
  sign := key.val.getD 18 0
  data := key.slice 19 51

def addressVersion (key : ParseEncryptedPublic) : UInt8 := key.context - defaultContext

end ParseEncryptedPublic

/-- The parts of a token. -/
structure ParseEncryptedToken where
  valid : Bool
  context : UInt8
  entropy : EkEntropy
  sign : UInt8
  data : Bytes 32

namespace ParseEncryptedToken

/-- This prefix results in "passphrase" in the base58 encoding. It is not modified as the result of
variations to address. -/
def magic : Bytes 7 := ⟨[0x2c, 0xe9, 0xb3, 0xe1, 0xff, 0x39, 0xe2], rfl⟩

def lotContext : UInt8 := 0x51

def defaultContext : UInt8 := 0x53

def prefixFactory (lotSequence : Bool) : Bytes 8 :=
  magic.splice (toArray (if lotSequence then lotContext else defaultContext))

def verifyContext (context : UInt8) : Bool := context == defaultContext || context == lotContext

/-- Reads a token. -/
def parse (hashes : Hashes) (token : EncryptedToken) : ParseEncryptedToken where
  valid := token.slice 0 7 == magic && verifyContext (token.val.getD 7 0) &&
    hashes.verifyChecksum token.val
  context := token.val.getD 7 0
  entropy := token.slice 8 16
  sign := token.val.getD 16 0
  data := token.slice 17 49

/-- There is no flags byte in a token, so this relies on the context. -/
def lotSequence (token : ParseEncryptedToken) : Bool := token.context == lotContext

end ParseEncryptedToken

/-- What encrypted keys are made with. -/
structure KeyEncryption where
  curve : KeyArithmetic
  hashes : KeyHashes
  aes256Encrypt : (key : Bytes 32) → (block : Bytes 16) → Bytes 16
  aes256Decrypt : (key : Bytes 32) → (block : Bytes 16) → Bytes 16
  toNormalNfcForm : Text → Text

/-- A point without its sign. -/
def pointHash (point : EcCompressed) : Bytes 32 := slice 1 33 point

/-- The first byte of a point, with the low bit of a hash over its own. -/
def pointSign (byte : UInt8) (hash : Bytes 32) : UInt8 := byte ^^^ (hash.val.getD 31 0 &&& 0x01)

/-- The flags byte. -/
def setFlags (compressed lotSequence multiplied : Bool) : UInt8 :=
  (if compressed then EkFlag.ecCompressedKey else 0) |||
    (if lotSequence then EkFlag.lotSequenceKey else 0) |||
    (if multiplied then 0 else EkFlag.ecNonMultiplied)

namespace KeyEncryption

variable (env : KeyEncryption)

/-- The address of a point. -/
def pointAddress (point : EcCompressed) (version : UInt8) (compressed : Bool) : PaymentAddress :=
  .fromPublic env.curve.toEllipticCurve env.hashes.toHashes ⟨true, compressed, point⟩ version

/-- The address of a secret. -/
def secretAddress (secret : EcSecret) (version : UInt8) (compressed : Bool) : PaymentAddress :=
  .fromPrivate env.curve.toEllipticCurve env.hashes.toHashes
    (.ofSecret secret version.toUInt16 compressed)

variable (passphrase : Text) (salt : EkSalt) (lot sequence : UInt32) (address : PaymentAddress)

/-- Begins with the salt. -/
def addressHash : HashDigest :=
  env.hashes.bitcoinHash (toChunk (address.encoded env.hashes.toHashes))

/-- The first bytes of the hash of an address that is valid. -/
def addressSalt : Option EkSalt :=
  if address.valid then some (slice 0 4 (env.addressHash address)) else none

/-- The salt is of the address. -/
def addressValidate : Bool :=
  if address.valid then slice 0 4 (env.addressHash address) == salt else false

/-- The parameters are from BIP38. -/
def scryptToken (data salt : DataChunk) : Bytes 32 := env.hashes.scrypt 32 data salt 16384 8 8

/-- Weaker than for a secret. -/
def scryptPair (data salt : DataChunk) : Bytes 64 := env.hashes.scrypt 64 data salt 1024 1 1

def scryptPrivate (data salt : DataChunk) : Bytes 64 := env.hashes.scrypt 64 data salt 16384 8 8

/-- The normalized passphrase. -/
def normal : DataChunk := toChunk (env.toNormalNfcForm passphrase)

/-- The blocks that the halves of 32 bytes are encrypted to. -/
def halfBlocks (derived : Bytes 32 × Bytes 32) (data : Bytes 32) : Bytes 16 × Bytes 16 :=
  (env.aes256Encrypt derived.2 (xorData 16 data derived.1 0 0),
    env.aes256Encrypt derived.2 (xorData 16 data derived.1 16 16))

/-- What a seed is encrypted to: a part of the first block goes into the second. -/
def seedBlocks (derived : Bytes 32 × Bytes 32) (seed : EkSeed) : Bytes 8 × Bytes 16 :=
  let encrypt1 := env.aes256Encrypt derived.2 (xorData 16 seed derived.1 0 0)
  let combined : Bytes 16 := (encrypt1.slice 8 16).splice (seed.slice 16 24)
  let encrypt2 := env.aes256Encrypt derived.2 (xorData 16 combined derived.1 0 16)
  let quarter1 : Bytes 8 := encrypt1.slice 0 8
  (quarter1, encrypt2)

/-- Encrypts a seed. -/
def createPrivateKey (flags : UInt8) (salt : EkSalt) (entropy : EkEntropy)
    (derived : Bytes 32 × Bytes 32) (seed : EkSeed) (version : UInt8) : EncryptedPrivate :=
  let blocks := env.seedBlocks derived seed
  env.hashes.buildCheckedArray
    [(ParseEncryptedPrivate.prefixFactory version true).val, [flags], salt.val, entropy.val,
      blocks.1.val, blocks.2.val]
    (by simp [(ParseEncryptedPrivate.prefixFactory version true).2, salt.2, entropy.2, blocks.1.2,
      blocks.2.2])

/-- Encrypts a point. -/
def createPublicKey (flags : UInt8) (salt : EkSalt) (entropy : EkEntropy)
    (derived : Bytes 32 × Bytes 32) (secret : EcSecret) (version : UInt8) :
    Option EncryptedPublic := do
  let point ← env.curve.secretToPublic secret
  let blocks := env.halfBlocks derived (pointHash point)
  let sign := pointSign (point.val.getD 0 0) derived.2
  return env.hashes.buildCheckedArray
    [(ParseEncryptedPublic.prefixFactory version).val, [flags], salt.val, entropy.val, [sign],
      blocks.1.val, blocks.2.val]
    (by simp [(ParseEncryptedPublic.prefixFactory version).2, salt.2, entropy.2, blocks.1.2,
      blocks.2.2])

/-- The private and the public key of a new pair, encrypted, and its point. -/
def createKeyPair (token : EncryptedToken) (seed : EkSeed) (version : UInt8) (compressed : Bool) :
    Option (EncryptedPrivate × EncryptedPublic × EcCompressed) := do
  let parse := ParseEncryptedToken.parse env.hashes.toHashes token
  guard parse.valid
  let point : EcCompressed := (toArray parse.sign).splice parse.data
  let factor := env.hashes.bitcoinHash seed.val
  let pointCopy ← env.curve.multiplyPoint point factor
  let salt ← env.addressSalt (env.pointAddress pointCopy version compressed)
  let derived := split 32 (env.scryptPair point.val (salt.val ++ parse.entropy.val))
  let flags := setFlags compressed parse.lotSequence true
  let outPublic ← env.createPublicKey flags salt parse.entropy derived factor version
  let outPrivate := env.createPrivateKey flags salt parse.entropy derived seed version
  return (outPrivate, outPublic, pointCopy)

/-- The factor that a passphrase gives; with a lot and sequence the entropy goes into it too. -/
def ownerFactor (ownerSalt : DataChunk) (lotSequence : Bool) (entropy : EkEntropy) : EcSecret :=
  let factor := env.scryptToken (env.normal passphrase) ownerSalt
  if lotSequence then env.hashes.bitcoinHash (factor.val ++ entropy.val) else factor

/-- The owner salt has four bytes if the token is for a lot and sequence. -/
def createTokenFrom (ownerSalt : DataChunk) (ownerEntropy : EkEntropy) (prefixBytes : Bytes 8) :
    Option EncryptedToken := do
  let lotSequence := ownerSalt.length == 4
  let factor := env.ownerFactor passphrase ownerSalt lotSequence ownerEntropy
  let point ← env.curve.secretToPublic factor
  return env.hashes.buildCheckedArray [prefixBytes.val, ownerEntropy.val, point.val]
    (by simp [prefixBytes.2, ownerEntropy.2, point.2])

/-- If lot and sequence numbers are not being included, the entropy is the owner salt. -/
def createToken (entropy : EkEntropy) : Option EncryptedToken :=
  env.createTokenFrom passphrase entropy.val entropy (ParseEncryptedToken.prefixFactory false)

/-- The source writes `(lot << max_sequence_bits) || sequence`, the logical or. -/
def lotSequenceWord : UInt32 :=
  if lot <<< 12 != 0 || sequence != 0 then 1 else 0

/-- The owner salt with the lot and sequence behind it. -/
def lotEntropy : EkEntropy := salt.splice (toBigEndian (lotSequenceWord lot sequence))

/-- `none` is failure. What `create_token` returns is not looked at here, so there can be success
with no token written: this is `some none`. -/
def createTokenLot : Option (Option EncryptedToken) :=
  if lot > ekMaxLot || sequence > ekMaxSequence then none
  else some (env.createTokenFrom passphrase salt.val (lotEntropy salt lot sequence)
    (ParseEncryptedToken.prefixFactory true))

/-- Encrypts a secret. -/
def encrypt (secret : EcSecret) (passphrase : Text) (version : UInt8) (compressed : Bool) :
    Option EncryptedPrivate := do
  let salt ← env.addressSalt (env.secretAddress secret version compressed)
  let derived := split 32 (env.scryptPrivate (env.normal passphrase) salt.val)
  let blocks := env.halfBlocks derived secret
  return env.hashes.buildCheckedArray
    [(ParseEncryptedPrivate.prefixFactory version false).val, [setFlags compressed false false],
      salt.val, blocks.1.val, blocks.2.val]
    (by simp [(ParseEncryptedPrivate.prefixFactory version false).2, salt.2, blocks.1.2, blocks.2.2])

/-- Decrypts a product. -/
def decryptMultiplied (parse : ParseEncryptedPrivate) (passphrase : Text) : Option EcSecret := do
  let secret := env.ownerFactor passphrase parse.ownerSalt parse.lotSequence parse.entropy
  let point ← env.curve.secretToPublic secret
  let derived := split 32 (env.scryptPair point.val (parse.salt.val ++ parse.entropy.val))
  let encrypt2 := env.aes256Decrypt derived.2 parse.data2
  let decrypt2 : Bytes 16 := xorData 16 encrypt2 derived.1 0 16
  let part := split 8 decrypt2
  let extended := env.aes256Decrypt derived.2 (parse.data1.splice part.1)
  let decrypt1 : Bytes 16 := xorData 16 extended derived.1 0 0
  let factor := env.hashes.bitcoinHash (decrypt1.val ++ part.2.val)
  let product ← env.curve.multiplySecret secret factor
  guard (env.addressValidate parse.salt
    (env.secretAddress product parse.addressVersion parse.compressed))
  return product

/-- Decrypts a secret. -/
def decryptSecret (parse : ParseEncryptedPrivate) (passphrase : Text) : Option EcSecret := do
  let derived := split 32 (env.scryptPrivate (env.normal passphrase) parse.salt.val)
  let encrypt1 := env.aes256Decrypt derived.2 (parse.entropy.splice parse.data1)
  let encrypt2 := env.aes256Decrypt derived.2 parse.data2
  let secret := xorData 32 (encrypt1.splice encrypt2) derived.1 0 0
  guard (env.addressValidate parse.salt
    (env.secretAddress secret parse.addressVersion parse.compressed))
  return secret

/-- The secret, the version of its address and whether its point is compressed. -/
def decryptPrivate (key : EncryptedPrivate) (passphrase : Text) :
    Option (EcSecret × UInt8 × Bool) := do
  let parse := ParseEncryptedPrivate.parse env.hashes.toHashes key
  guard parse.valid
  let secret ← (if parse.multiplied then env.decryptMultiplied parse passphrase
    else env.decryptSecret parse passphrase)
  return (secret, parse.addressVersion, parse.compressed)

/-- The point, the version of its address and whether it is compressed. -/
def decryptPublic (key : EncryptedPublic) (passphrase : Text) :
    Option (EcCompressed × UInt8 × Bool) := do
  let parse := ParseEncryptedPublic.parse env.hashes.toHashes key
  guard parse.valid
  let factor := env.ownerFactor passphrase parse.ownerSalt parse.lotSequence parse.entropy
  let point ← env.curve.secretToPublic factor
  let derived := split 32 (env.scryptPair point.val (parse.salt.val ++ parse.entropy.val))
  let halves := split 16 parse.data
  let decrypt1 : Bytes 16 := xorData 16 (env.aes256Decrypt derived.2 halves.1) derived.1 0 0
  let decrypt2 : Bytes 16 := xorData 16 (env.aes256Decrypt derived.2 halves.2) derived.1 0 16
  let signByte := toArray (pointSign parse.sign derived.2)
  let product ← env.curve.multiplyPoint (signByte.splice (decrypt1.splice decrypt2)) factor
  guard (env.addressValidate parse.salt
    (env.pointAddress product parse.addressVersion parse.compressed))
  return (product, parse.addressVersion, parse.compressed)

end KeyEncryption

end BitprimCore
