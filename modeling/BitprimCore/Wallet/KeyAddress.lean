import BitprimCore.Formats.Base58
import BitprimCore.Math.Checksum
import BitprimCore.Math.Crypto
import BitprimCore.Wallet.PaymentAddress
import BitprimCore.Wallet.TransactionFunctions

/-!
# Addresses of keys

The address that pays to the hash of a public key, and its text (`wallet/ec_private`,
`wallet/ec_public`, `wallet/payment_address`).
-/

namespace BitprimCore

/-- The key that is not one (`ec_public()`). -/
def EcPublic.invalid : EcPublic := ⟨false, true, nullCompressedPoint⟩

/-- A secret with the versions of its address and of its text, in one word (`ec_private`). -/
structure EcPrivate where
  valid : Bool
  compress : Bool
  version : UInt16
  secret : EcSecret

namespace EcPrivate

/-- The low byte. -/
def toAddressPrefix (version : UInt16) : UInt8 := (version &&& 0x00ff).toUInt8

/-- A valid key. -/
def ofSecret (secret : EcSecret) (version : UInt16) (compress : Bool) : EcPrivate :=
  ⟨true, compress, version, secret⟩

variable (curve : EllipticCurve) (key : EcPrivate)

def paymentVersion : UInt8 := toAddressPrefix key.version

/-- Conversion to a public key loses all version information. In the case of failure the key is
always compressed. -/
def toPublic : EcPublic :=
  if !key.valid then .invalid
  else
    match curve.secretToPublic key.secret with
    | some point => ⟨true, key.compress, point⟩
    | none => .invalid

end EcPrivate

namespace PaymentAddress

variable (curve : EllipticCurve) (hashes : Hashes)

/-- The address of a point. -/
def fromPublic (point : EcPublic) (version : UInt8) : PaymentAddress :=
  if !point.valid then {}
  else
    match point.toData curve with
    | none => {}
    | some data => ⟨true, version, hashes.bitcoinShortHash data⟩

/-- The address of a secret. -/
def fromPrivate (secret : EcPrivate) : PaymentAddress :=
  if !secret.valid then {}
  else fromPublic curve hashes (secret.toPublic curve) secret.paymentVersion

/-- The text in base 58. -/
def encoded (address : PaymentAddress) : Text :=
  encodeBase58 (hashes.wrap address.version address.hash).val

variable {curve hashes}

theorem toAddressPrefix_toUInt16 (version : UInt8) :
    EcPrivate.toAddressPrefix version.toUInt16 = version := by
  apply UInt8.toNat_inj.mp
  have hmask : version.toNat &&& 255 = version.toNat % 2 ^ 8 := Nat.and_two_pow_sub_one_eq_mod _ 8
  have hlt : version.toNat < 2 ^ 8 := version.toNat_lt
  simp [EcPrivate.toAddressPrefix, hmask]

/-- A secret has the address of its point. -/
theorem fromPrivate_ofSecret {secret : EcSecret} {point : EcCompressed}
    (h : curve.secretToPublic secret = some point) (version : UInt8) (compressed : Bool) :
    fromPrivate curve hashes (.ofSecret secret version.toUInt16 compressed) =
      fromPublic curve hashes ⟨true, compressed, point⟩ version := by
  simp [fromPrivate, EcPrivate.ofSecret, EcPrivate.toPublic, EcPrivate.paymentVersion, h,
    toAddressPrefix_toUInt16]

/-- The address of a point that can be written in both forms is valid. -/
theorem fromPublic_valid {point : EcCompressed} (h : (curve.decompress point).isSome)
    (version : UInt8) (compressed : Bool) :
    (fromPublic curve hashes ⟨true, compressed, point⟩ version).valid := by
  obtain ⟨uncompressed, huncompressed⟩ := Option.isSome_iff_exists.mp h
  cases compressed <;> simp [fromPublic, EcPublic.toData, EcPublic.toUncompressed, huncompressed]

end PaymentAddress

end BitprimCore
