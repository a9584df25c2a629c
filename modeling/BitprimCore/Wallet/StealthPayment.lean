import BitprimCore.Math.KeyTable
import BitprimCore.Math.Stealth
import BitprimCore.Wallet.KeyAddress
import BitprimCore.Wallet.StealthAddress

/-!
# Stealth payments

A sender derives a payment address and a script from a stealth address, and the receiver finds the
payment address, and the secret that spends from it, by the script (`wallet/stealth_sender`,
`wallet/stealth_receiver`).

The two sides compute the shared secret from opposite keys, so a payment reaches the receiver by
what is assumed of the curve: `KeyArithmetic.SharesSecrets`.
-/

namespace BitprimCore

open Bytes Stealth StealthAddress

/-- The product of two keys is one from both sides, and a sum of secrets has the sum of the point
and the secret as its point. Neither side fails alone. -/
structure KeyArithmetic.SharesSecrets (curve : KeyArithmetic) : Prop where
  multiply : ∀ a b pointA pointB, curve.secretToPublic a = some pointA →
    curve.secretToPublic b = some pointB →
    curve.multiplyPoint pointA b = curve.multiplyPoint pointB a
  add : ∀ secret tweak point, curve.secretToPublic secret = some point →
    (curve.addSecret secret tweak).bind curve.secretToPublic = curve.addPoint point tweak

/-- The side that pays. Its script and address are not set when the construction fails. -/
structure StealthSender where
  script : Script := {}
  address : PaymentAddress := {}

namespace StealthSender

variable (currency : Currency) (hashes : StealthHashes) (curve : KeyArithmetic)

/-- The sender with a given ephemeral key. -/
def ofEphemeral (ephemeralPrivate : EcSecret) (address : StealthAddress) (seed : DataChunk)
    (filter : Binary) (version : UInt8) : StealthSender :=
  match curve.secretToPublic ephemeralPrivate with
  | none => {}
  | some _ =>
    match address.spendKeys with
    | [spendKey] =>
      match uncoverPublic hashes curve address.scanKey ephemeralPrivate spendKey with
      | none => {}
      | some senderPublic =>
        match createStealthScript currency hashes curve ephemeralPrivate filter seed with
        | none => {}
        | some script =>
          { script
            address := .fromPublic curve.toEllipticCurve hashes.toHashes
              ⟨true, true, senderPublic⟩ version }
    | _ => {}

/-- The sender with the ephemeral key of the seed. -/
def ofSeed (address : StealthAddress) (seed : DataChunk) (filter : Binary) (version : UInt8) :
    StealthSender :=
  match createEphemeralKey hashes curve seed with
  | none => {}
  | some ephemeralPrivate =>
    ofEphemeral currency hashes curve ephemeralPrivate address seed filter version

def valid (sender : StealthSender) : Bool := sender.address.valid

def stealthScript (sender : StealthSender) : Script := sender.script

def paymentAddress (sender : StealthSender) : PaymentAddress := sender.address

end StealthSender

/-- The side that is paid. -/
structure StealthReceiver where
  version : UInt8
  scanPrivate : EcSecret
  spendPrivate : EcSecret
  spendPublic : EcCompressed := nullCompressedPoint
  address : StealthAddress := {}

namespace StealthReceiver

variable (hashes : StealthHashes) (curve : KeyArithmetic)

/-- Of a single spend key. -/
def ofSecrets (scanPrivate spendPrivate : EcSecret) (filter : Binary) (version : UInt8) :
    StealthReceiver :=
  match curve.secretToPublic scanPrivate, curve.secretToPublic spendPrivate with
  | some scanPublic, some spendPublic =>
    { version, scanPrivate, spendPrivate, spendPublic
      address := .fromParts filter scanPublic [spendPublic] 0 mainnetP2kh }
  | _, _ => { version, scanPrivate, spendPrivate }

def valid (receiver : StealthReceiver) : Bool := receiver.address.valid

variable (receiver : StealthReceiver)

def stealthAddress : StealthAddress := receiver.address

/-- The address that is paid. -/
def deriveAddress (ephemeralPublic : EcCompressed) : Option PaymentAddress :=
  match uncoverPublic hashes curve ephemeralPublic receiver.scanPrivate receiver.spendPublic with
  | none => none
  | some receiverPublic =>
    some (.fromPublic curve.toEllipticCurve hashes.toHashes ⟨true, true, receiverPublic⟩
      receiver.version)

/-- The secret that spends. -/
def derivePrivate (ephemeralPublic : EcCompressed) : Option EcSecret :=
  uncoverSecret hashes curve ephemeralPublic receiver.scanPrivate receiver.spendPrivate

end StealthReceiver

section

variable {currency : Currency} {hashes : StealthHashes} {curve : KeyArithmetic} {filter : Binary}

variable {version : UInt8} {seed : DataChunk}

/-- What a valid receiver is made of. -/
theorem StealthReceiver.ofSecrets_of_valid {scanPrivate spendPrivate : EcSecret}
    (h : (ofSecrets curve scanPrivate spendPrivate filter version).valid) :
    ∃ scanPublic spendPublic, curve.secretToPublic scanPrivate = some scanPublic ∧
      curve.secretToPublic spendPrivate = some spendPublic ∧
      filter.size ≤ maxFilterBits ∧
      ofSecrets curve scanPrivate spendPrivate filter version =
        { version, scanPrivate, spendPrivate, spendPublic
          address := .fromParts filter scanPublic [spendPublic] 0 mainnetP2kh } ∧
      (ofSecrets curve scanPrivate spendPrivate filter version).address.scanKey = scanPublic ∧
      (ofSecrets curve scanPrivate spendPrivate filter version).address.spendKeys =
        [spendPublic] := by
  unfold ofSecrets at h ⊢
  split at h
  · rename_i scanPublic spendPublic hscan hspend
    have hfilter : ¬ filter.size > maxFilterBits := by
      intro hlong
      simp [valid, fromParts, hlong, maxSpendKeyCount] at h
    refine ⟨scanPublic, spendPublic, hscan, hspend, not_lt.mp hfilter, ?_⟩
    simp [fromParts, hfilter, maxSpendKeyCount]
  · cases h

/-- What a valid sender is made of. -/
theorem StealthSender.ofEphemeral_of_valid {ephemeralPrivate : EcSecret} {address : StealthAddress}
    {spendKey : EcCompressed} (hspend : address.spendKeys = [spendKey])
    (h : (ofEphemeral currency hashes curve ephemeralPrivate address seed filter version).valid =
      true) :
    ∃ senderPublic script,
      uncoverPublic hashes curve address.scanKey ephemeralPrivate spendKey = some senderPublic ∧
      createStealthScript currency hashes curve ephemeralPrivate filter seed = some script ∧
      ofEphemeral currency hashes curve ephemeralPrivate address seed filter version =
        { script
          address := .fromPublic curve.toEllipticCurve hashes.toHashes
            ⟨true, true, senderPublic⟩ version } := by
  unfold ofEphemeral at h ⊢
  rw [hspend] at h ⊢
  split at h
  · cases h
  · rename_i point hpoint
    simp only at h
    split at h
    · cases h
    · rename_i senderPublic hsender
      split at h
      · cases h
      · rename_i script hscript
        exact ⟨senderPublic, script, hsender, hscript, by simp only [hsender]⟩

/-- Both sides uncover one public key. -/
theorem uncoverPublic_comm (hcurve : curve.SharesSecrets) {a b : EcSecret}
    {pointA pointB : EcCompressed} (ha : curve.secretToPublic a = some pointA)
    (hb : curve.secretToPublic b = some pointB) (spend : EcCompressed) :
    uncoverPublic hashes curve pointA b spend = uncoverPublic hashes curve pointB a spend := by
  unfold uncoverPublic sharedSecret
  rw [hcurve.multiply a b pointA pointB ha hb]

/-- The secret that is uncovered has the public key that is uncovered. -/
theorem uncoverSecret_bind (hcurve : curve.SharesSecrets) {spend : EcSecret}
    {spendPublic : EcCompressed} (hspend : curve.secretToPublic spend = some spendPublic)
    (point : EcCompressed) (secret : EcSecret) :
    (uncoverSecret hashes curve point secret spend).bind curve.secretToPublic =
      uncoverPublic hashes curve point secret spendPublic := by
  unfold uncoverSecret uncoverPublic
  cases sharedSecret hashes curve secret point with
  | none => rfl
  | some shared => exact hcurve.add spend shared spendPublic hspend

/-- A script that was mined tells the key, and its prefix starts with the filter. -/
theorem createStealthScript_spec {secret : EcSecret} {script : Script}
    (h : createStealthScript currency hashes curve secret filter seed = some script) :
    ∃ point field, curve.secretToPublic secret = some point ∧
      extractEphemeralKey currency script = some point ∧
      toStealthPrefix currency hashes script = some field ∧
      filter.isPrefixOf (.number field) := by
  unfold createStealthScript at h
  simp only at h
  split at h
  · cases h
  · rename_i point hpoint
    split_ifs at h with heven
    obtain ⟨nonce, hattempt⟩ := exists_of_mine h
    unfold attempt at hattempt
    simp only at hattempt
    split at hattempt
    · cases hattempt
    · rename_i field hfield
      split_ifs at hattempt with hfilter
      obtain rfl := Option.some.inj hattempt
      exact ⟨point, field, hpoint, extractEphemeralKey_attempt (by simpa using heven), hfield,
        hfilter⟩

theorem fromPublic_compressed (point : EcCompressed) (version : UInt8) :
    PaymentAddress.fromPublic curve.toEllipticCurve hashes.toHashes ⟨true, true, point⟩ version =
      ⟨true, version, hashes.toHashes.bitcoinShortHash point.val⟩ := rfl

/-- Stealth payments reach the receiver: the script of a sender tells the ephemeral key, the receiver
derives the address of the payment and its secret from that key, and the prefix of the script
starts with the filter. -/
theorem stealth_payment_reaches_receiver (hcurve : curve.SharesSecrets)
    (scanPrivate spendPrivate : EcSecret) (filter : Binary) (version : UInt8) (seed : DataChunk)
    (hreceiver : (StealthReceiver.ofSecrets curve scanPrivate spendPrivate filter version).valid =
      true)
    (hsender : (StealthSender.ofSeed currency hashes curve
      (StealthReceiver.ofSecrets curve scanPrivate spendPrivate filter version).stealthAddress
      seed filter version).valid = true) :
    let receiver := StealthReceiver.ofSecrets curve scanPrivate spendPrivate filter version
    let sender :=
      StealthSender.ofSeed currency hashes curve receiver.stealthAddress seed filter version
    ∃ ephemeralPrivate ephemeralPublic,
      createEphemeralKey hashes curve seed = some ephemeralPrivate ∧
      curve.secretToPublic ephemeralPrivate = some ephemeralPublic ∧
      extractEphemeralKey currency sender.stealthScript = some ephemeralPublic ∧
      receiver.deriveAddress hashes curve ephemeralPublic = some sender.paymentAddress ∧
      (∃ secret point, receiver.derivePrivate hashes curve ephemeralPublic = some secret ∧
        curve.secretToPublic secret = some point ∧
        sender.paymentAddress = ⟨true, version, hashes.bitcoinShortHash point.val⟩) ∧
      ∃ field, toStealthPrefix currency hashes sender.stealthScript = some field ∧
        filter.bits = (Binary.Field.number field).bits.take filter.size ∧ filter.size ≤ 32 := by
  intro receiver sender
  obtain ⟨scanPublic, spendPublic, hscan, hspend, hfilter, hmade, hscanKey, hspendKeys⟩ :=
    StealthReceiver.ofSecrets_of_valid hreceiver
  cases hephemeral : createEphemeralKey hashes curve seed with
  | none => simp [StealthSender.ofSeed, hephemeral, StealthSender.valid] at hsender
  | some ephemeralPrivate =>
    have hofSeed : sender = StealthSender.ofEphemeral currency hashes curve ephemeralPrivate
        receiver.stealthAddress seed filter version := by
      simp only [sender, StealthSender.ofSeed, hephemeral]
    change sender.valid = true at hsender
    rw [hofSeed] at hsender
    obtain ⟨senderPublic, script, huncover, hscript, hparts⟩ :=
      StealthSender.ofEphemeral_of_valid hspendKeys hsender
    have hsent := hofSeed.trans hparts
    obtain ⟨ephemeralPublic, field, hpublic, hextract, hfield, hmatch⟩ :=
      createStealthScript_spec hscript
    -- the receiver multiplies the ephemeral key, the sender the scan key
    have hshared : uncoverPublic hashes curve ephemeralPublic scanPrivate spendPublic =
        some senderPublic := by
      rw [uncoverPublic_comm hcurve hpublic hscan, ← hscanKey]
      exact huncover
    have hsecret := @uncoverSecret_bind hashes curve hcurve _ _ hspend ephemeralPublic scanPrivate
    rw [hshared] at hsecret
    obtain ⟨secret, hderive, hpoint⟩ := Option.bind_eq_some_iff.mp hsecret
    have hbits : (Binary.Field.number field).bits.length = 32 := by
      simp [Binary.Field.bits, Binary.byteBits]
    refine ⟨ephemeralPrivate, ephemeralPublic, rfl, hpublic, ?_, ?_, ⟨secret, senderPublic, ?_,
      hpoint, ?_⟩, field, ?_, ?_, hfilter⟩
    · rw [hsent]
      exact hextract
    · rw [hsent]
      simp only [receiver, hmade, StealthReceiver.deriveAddress, hshared]
      rfl
    · simp only [receiver, hmade, StealthReceiver.derivePrivate]
      exact hderive
    · rw [hsent]
      exact @fromPublic_compressed hashes curve senderPublic version
    · rw [hsent]
      exact hfield
    · have hreachable : (Binary.Field.number field).Reachable := trivial
      obtain ⟨-, hprefix⟩ | ⟨-, count, hcount, hlong⟩ :=
        (Binary.isPrefixOf_iff hreachable).mp hmatch
      · exact hprefix
      · have hlength := congrArg List.length hlong
        rw [Binary.length_bits, List.length_append, List.length_replicate, hbits] at hlength
        have hmax : filter.size ≤ 32 := hfilter
        omega

end

/-! ### A payment

The scan and the spend key of the tests of the library, and the ephemeral key of a seed. -/

theorem KeyTable.sharesSecrets (table : KeyTable) : table.curve.SharesSecrets where
  multiply a b pointA pointB ha hb := by
    change table.combinePoint _ pointA b = table.combinePoint _ pointB a
    rw [combinePoint_eq ha, combinePoint_eq hb, combine_comm Nat.mul_comm]
  add _ _ _ h := (combinePoint_eq h).symm

namespace StealthSample

def scanPrivate : EcSecret :=
  ofNat 32 0xfa63521e333e4b9f6a98a142680d3aef4d8e7f79723ce0043691db55c36bd905

def spendPrivate : EcSecret :=
  ofNat 32 0xdcc1250b51c0f03ae4e978e0256ede51dc1144e345c926262b9717b1bcc9bd1b

def spendPublic : EcCompressed :=
  ofNat 33 0x03d5b3853bbee336b551ff999b0b1d656e65a7649037ae0dcb02b3c4ff5f29e5be

def ephemeralPrivate : EcSecret :=
  ofNat 32 0x4bf23dc60e3e6a4fb084119494e5d54ac1d94f74b67d08501739650f500ca9e8

def ephemeralPublic : EcCompressed :=
  ofNat 33 0x02567d3ff8da4fdee9e12b0a1ecdbb8e67508f794b1adda72e0d8b4124797d4ec2

def paymentPublic : EcCompressed :=
  ofNat 33 0x02807d22740b6d7973cb1c7ac8ee7c3096db2379785826229efd79318187fa1797

/-- The keys of both sides, the product of the scan and the ephemeral key, and the key of the
payment. -/
def table : KeyTable where
  keys :=
    [(scanPrivate, ofNat 33 0x034ea70b28d607bf3a2493102001cab35689cf2152530bf8bf8a5b594af6ae31d0),
      (spendPrivate, spendPublic),
      (ephemeralPrivate, ephemeralPublic),
      (ofNat 32 0xf0c7764adf6a75d6651118a0df40f77cc802b702d395c8da0e3eef9d6b5f75fd,
        ofNat 33 0x03385083d868a6b6fdc0cd8091b79b7aac0b74c2bb601c12fceb3c9ea820e0fb24),
      (ofNat 32 0xb7105a447629b84f877b17097bda6d829f6d3011764530b98ad8dd3b75eece2f, paymentPublic)]
  single := by decide +kernel

def arithmetic : KeyArithmetic := table.curve

/-- The authentication code of data under a key of at most one block. -/
def hmacSha256 (data key : DataChunk) : HashDigest :=
  let pad (byte : UInt8) := (key ++ List.replicate (64 - key.length) 0).map (· ^^^ byte)
  Sha256.hash (pad 0x5c ++ (Sha256.hash (pad 0x36 ++ data)).val)

def seed : DataChunk := [2]

/-- The hash of the seed and that of the key of the payment are listed, the others are computed. -/
def hashes : StealthHashes where
  toHashes :=
    { Hashes.ofSha256 with
      ripemd160Hash := fun data =>
        if data = (Sha256.hash paymentPublic.val).val then
          ofNat 20 0xd7639713268ad00775bba158708811ed3132c808
        else ofNat 20 0 }
  sha512Hash data :=
    if data = seed then
      (ofNat 32 0xfab848c9b657a853ee37c09cbfdd149d0b3807b191dde9b623ccd95281dd1870).splice
        (ofNat 32 0x5b48c89b1503903845bba5753945351fe6b454852760f73529cf01ca8f69dcca)
    else ofNat 64 0
  hmacSha256Hash := hmacSha256

def filter : Binary := .ofString ['0', '0', '0']

def receiver : StealthReceiver := .ofSecrets arithmetic scanPrivate spendPrivate filter 0

def sender : StealthSender := .ofSeed .btc hashes arithmetic receiver.stealthAddress seed filter 0

theorem receiver_valid : receiver.valid := by decide +kernel

theorem createEphemeralKey_seed :
    createEphemeralKey hashes arithmetic seed = some ephemeralPrivate := by
  decide +kernel

theorem secretToPublic_ephemeral :
    arithmetic.secretToPublic ephemeralPrivate = some ephemeralPublic := by
  decide +kernel

/-- The hash of the script with the first nonce does not start with the filter, that with the second
one does. -/
theorem createStealthScript_isSome :
    (createStealthScript .btc hashes arithmetic ephemeralPrivate filter seed).isSome := by
  have hfirst : attempt .btc hashes ephemeralPublic (hashes.sha512Hash seed) filter
      0x1f35453a = none := by
    decide +kernel
  have hsecond : (attempt .btc hashes ephemeralPublic (hashes.sha512Hash seed) filter
      0x1f35453b).isSome := by
    decide +kernel
  have hstart : UInt32.ofNat (LittleEndian.toNat
      (((hashes.sha512Hash seed).val.drop maxPadSize).take 4)) = 0x1f354539 := by
    decide +kernel
  obtain ⟨script, hscript⟩ := Option.isSome_iff_exists.mp hsecond
  have hmined : mine (attempt .btc hashes ephemeralPublic (hashes.sha512Hash seed) filter)
      0x1f354539 0x1f35453a = some script := by
    rw [mine, if_neg (by decide), hfirst]
    exact mine_of_some (by decide) hscript
  simp only [createStealthScript, secretToPublic_ephemeral, hstart]
  exact Option.isSome_iff_exists.mpr ⟨script, hmined⟩

theorem sender_valid : sender.valid := by
  obtain ⟨script, hscript⟩ := Option.isSome_iff_exists.mp createStealthScript_isSome
  have hspend : receiver.stealthAddress.spendKeys = [spendPublic] := by decide +kernel
  have huncover : uncoverPublic hashes arithmetic receiver.stealthAddress.scanKey ephemeralPrivate
      spendPublic = some paymentPublic := by
    decide +kernel
  simp only [sender, StealthSender.ofSeed, createEphemeralKey_seed, StealthSender.ofEphemeral,
    secretToPublic_ephemeral, hspend, huncover, hscript]
  rfl

end StealthSample

open StealthSample

theorem stealth_payment_reaches_receiver_mined :
    arithmetic.SharesSecrets ∧ receiver.valid = true ∧
      sender.valid = true ∧
      ∃ ephemeralPublic,
        extractEphemeralKey .btc sender.stealthScript = some ephemeralPublic ∧
        receiver.deriveAddress hashes arithmetic ephemeralPublic = some sender.paymentAddress := by
  refine ⟨table.sharesSecrets, receiver_valid, sender_valid, ?_⟩
  obtain ⟨-, ephemeralPublic, -, -, hextract, hderive, -⟩ :=
    stealth_payment_reaches_receiver table.sharesSecrets scanPrivate
      spendPrivate filter 0 seed
      receiver_valid sender_valid
  exact ⟨ephemeralPublic, hextract, hderive⟩

end BitprimCore
