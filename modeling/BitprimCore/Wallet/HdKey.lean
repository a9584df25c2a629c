import BitprimCore.Chain.SpendKeyHash
import BitprimCore.Formats.Base58
import BitprimCore.Math.Checksum
import BitprimCore.Math.Crypto

/-!
# Extended keys

Keys with a chain code that others are derived from (`wallet/hd_public`, `wallet/hd_private`).

## Implementation notes

A key is read from 82 bytes, which always suffice, so the reads of the stream are slices. A private
key that is valid has the point of its secret: the constructors see to it, and the structure carries
it.
-/

namespace BitprimCore

open Bytes

/-- Hardened from here on. -/
def hdFirstHardenedKey : UInt32 := 0x80000000

/-- A decoded extended key. -/
abbrev HdKey := Bytes 82

/-- Key derivation information used in the serialization format. -/
@[ext]
structure HdLineage where
  prefixes : UInt64 := 0
  depth : UInt8 := 0
  parentFingerprint : UInt32 := 0
  childNumber : UInt32 := 0
  deriving DecidableEq

/-- The bytes of the lineage, under one of its prefixes. -/
def HdLineage.fields (lineage : HdLineage) (version : UInt32) : List DataChunk :=
  [(toBigEndian version).val, [lineage.depth],
    (toBigEndian lineage.parentFingerprint).val,
    (toBigEndian lineage.childNumber).val]

namespace HdKey

variable (key : HdKey)

/-- The fields that are read in front of the key. -/
def version : UInt32 := fromBigEndian (key.slice 0 4)

/-- The lineage of a key. -/
def lineage (prefixes : UInt64) : HdLineage where
  prefixes := prefixes
  depth := key.val.getD 4 0
  parentFingerprint := fromBigEndian (key.slice 5 9)
  childNumber := fromBigEndian (key.slice 9 13)

/-- The chain code. -/
def chain : Bytes 32 := key.slice 13 45

/-- Zero for a secret. -/
def padding : UInt8 := key.val.getD 45 0

def secret : EcSecret := key.slice 46 78

def point : EcCompressed := key.slice 45 78

/-- The lineage, chain code and key with their checksum. -/
def build (hashes : Hashes) (lineage : HdLineage) (version : UInt32) (chain : Bytes 32)
    (key : Bytes 33) : HdKey :=
  hashes.buildCheckedArray (lineage.fields version ++ [chain.val, key.val]) (by
    simp [HdLineage.fields, (toBigEndian _).2, chain.2, key.2])

end HdKey

/-- An extended public key. -/
structure HdPublic where
  valid : Bool := false
  chain : Bytes 32 := nullHash
  lineage : HdLineage := {}
  point : EcCompressed := nullCompressedPoint
  deriving DecidableEq

namespace HdPublic

def mainnet : UInt32 := 76067358

/-- The low half. -/
def toPrefix (prefixes : UInt64) : UInt32 := (prefixes &&& 0x00000000ffffffff).toUInt32

/-- The key of a secret. -/
def fromSecret (curve : EllipticCurve) (secret : EcSecret) (chain : Bytes 32)
    (lineage : HdLineage) : HdPublic :=
  match curve.secretToPublic secret with
  | some point => ⟨true, chain, lineage, point⟩
  | none => {}

/-- The version of the key must be the given one. The private prefix will be zero, but there is no
way to access it. -/
def fromKeyVersion (key : HdKey) (version : UInt32) : HdPublic :=
  if key.version ≠ version then {}
  else ⟨true, key.chain, key.lineage version.toUInt64, key.point⟩

/-- This cannot validate the version. -/
def fromKey (key : HdKey) : HdPublic := fromKeyVersion key key.version

/-- The version is given. -/
def fromStringVersion (encoded : Text) (version : UInt32) : HdPublic :=
  match decodeBase58Array 82 encoded with
  | some key => fromKeyVersion key version
  | none => {}

/-- The version is read. -/
def fromString (encoded : Text) : HdPublic :=
  match decodeBase58Array 82 encoded with
  | some key => fromKey key
  | none => {}

variable (hashes : Hashes) (key : HdPublic)

/-- The form with a checksum. -/
def toHdKey : HdKey :=
  HdKey.build hashes key.lineage (toPrefix key.lineage.prefixes) key.chain key.point

/-- The text in base 58. -/
def encoded : Text := encodeBase58 (key.toHdKey hashes).val

/-- Four bytes of the hash. -/
def fingerprint : UInt32 := fromBigEndian (slice 0 4 (hashes.bitcoinShortHash key.point.val))

end HdPublic

/-- What a child is made from: the halves of the hash of a key with an index behind it. -/
def hdIntermediate (hashes : KeyHashes) (data : DataChunk) (index : UInt32) (chain : Bytes 32) :
    EcSecret × Bytes 32 :=
  split 32 (hashes.hmacSha512Hash (data ++ (toBigEndian index).val) chain.val)

/-- The lineage of a child. -/
def HdLineage.child (lineage : HdLineage) (fingerprint index : UInt32) : HdLineage :=
  ⟨lineage.prefixes, lineage.depth + 1, fingerprint, index⟩

/-- The child at an index that is not hardened. -/
def HdPublic.derivePublic (hashes : KeyHashes) (curve : KeyArithmetic) (key : HdPublic)
    (index : UInt32) : HdPublic :=
  if index ≥ hdFirstHardenedKey then {}
  else
    let intermediate := hdIntermediate hashes key.point.val index key.chain
    match curve.addPoint key.point intermediate.1 with
    | none => {}
    | some combined =>
      if key.lineage.depth = 0xff then {}
      else ⟨true, intermediate.2, key.lineage.child (key.fingerprint hashes.toHashes) index, combined⟩

/-- An extended private key is a public one with its secret. -/
structure HdPrivate (curve : EllipticCurve) extends HdPublic where
  secret : EcSecret
  secretToPublic_of_valid : valid = true → curve.secretToPublic secret = some point

namespace HdPrivate

variable {curve : KeyArithmetic}

/-- The high half. -/
def toPrefix (prefixes : UInt64) : UInt32 := (prefixes >>> 32).toUInt32

def toPrefixes (privatePrefix publicPrefix : UInt32) : UInt64 :=
  privatePrefix.toUInt64 <<< 32 ||| publicPrefix.toUInt64

def mainnet : UInt64 := toPrefixes 76066276 HdPublic.mainnet

/-- A key that was not read or derived. -/
def invalid (curve : KeyArithmetic) : HdPrivate curve.toEllipticCurve :=
  ⟨{}, nullHash, fun hvalid => by cases hvalid⟩

/-- The key of a secret. -/
def ofSecret (curve : KeyArithmetic) (secret : EcSecret) (chain : Bytes 32) (lineage : HdLineage) :
    HdPrivate curve.toEllipticCurve :=
  ⟨HdPublic.fromSecret curve.toEllipticCurve secret chain lineage, secret, by
    intro hvalid
    unfold HdPublic.fromSecret at hvalid ⊢
    cases hpoint : curve.secretToPublic secret with
    | none =>
      rw [hpoint] at hvalid
      cases hvalid
    | some point => rfl⟩

/-- The version of the key must be the private one of the given two. -/
def fromKeyPrefixes (curve : KeyArithmetic) (key : HdKey) (prefixes : UInt64) :
    HdPrivate curve.toEllipticCurve :=
  if key.version ≠ toPrefix prefixes then invalid curve
  else ofSecret curve key.secret key.chain (key.lineage prefixes)

/-- This reads the private version and sets the public. -/
def fromKey (curve : KeyArithmetic) (key : HdKey) (publicPrefix : UInt32) :
    HdPrivate curve.toEllipticCurve :=
  fromKeyPrefixes curve key (toPrefixes key.version publicPrefix)

/-- The prefixes are given. -/
def fromStringPrefixes (curve : KeyArithmetic) (encoded : Text) (prefixes : UInt64) :
    HdPrivate curve.toEllipticCurve :=
  match decodeBase58Array 82 encoded with
  | some key => fromKeyPrefixes curve key prefixes
  | none => invalid curve

/-- The version is read. -/
def fromString (curve : KeyArithmetic) (encoded : Text) (publicPrefix : UInt32) :
    HdPrivate curve.toEllipticCurve :=
  match decodeBase58Array 82 encoded with
  | some key => fromKey curve key publicPrefix
  | none => invalid curve

section

variable (hashes : KeyHashes) (key : HdPrivate curve.toEllipticCurve)

/-- The form with a checksum. -/
def toHdKey (hashes : Hashes) : HdKey :=
  HdKey.build hashes key.lineage (toPrefix key.lineage.prefixes) key.chain
    (splice (toArray 0x00) key.secret)

/-- The text in base 58. -/
def encoded (hashes : Hashes) : Text := encodeBase58 (key.toHdKey hashes).val

/-- The key is read again from its public part, under its own public prefix. -/
def toPublic (hashes : Hashes) : HdPublic :=
  HdPublic.fromKeyVersion (key.toHdPublic.toHdKey hashes) (HdPublic.toPrefix key.lineage.prefixes)

/-- The child at an index; a hardened one is made from the secret. -/
def derivePrivate (index : UInt32) : HdPrivate curve.toEllipticCurve :=
  let data := if index ≥ hdFirstHardenedKey then 0 :: key.secret.val else key.point.val
  let intermediate := hdIntermediate hashes data index key.chain
  match curve.addSecret key.secret intermediate.1 with
  | none => invalid curve
  | some child =>
    if key.lineage.depth = 0xff then invalid curve
    else ofSecret curve child intermediate.2
      (key.lineage.child (key.fingerprint hashes.toHashes) index)

/-- Goes by the private child. -/
def derivePublic (index : UInt32) : HdPublic :=
  (key.derivePrivate hashes index).toPublic hashes.toHashes

end

end HdPrivate

end BitprimCore
