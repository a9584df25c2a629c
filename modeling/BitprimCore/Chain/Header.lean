import BitprimCore.Chain.Compact
import BitprimCore.Error
import BitprimCore.Math.Hash
import BitprimCore.Library.LittleEndian

/-!
# Block headers

The header of a block with its serialization, its hash and the checks that need nothing but the
header and the clock (`chain/header`).

## Implementation notes

The source computes the proof of work limit once, for the argument of the first call. The model
takes the argument of the call, which is the same in every call that block validation makes.
-/

namespace BitprimCore

open LittleEndian

/-- A block header. -/
structure Header where
  version : UInt32
  previousBlockHash : HashDigest
  merkle : HashDigest
  timestamp : UInt32
  bits : UInt32
  nonce : UInt32
  /-- Stored behind the wire fields (`validation.median_time_past`). -/
  medianTimePast : UInt32 := 0
  deriving DecidableEq

/-- The little-endian number of a digest (`to_uint256`). -/
def toUint256 (hash : HashDigest) : Nat := LittleEndian.toNat hash.val

namespace Header

/-- Serializes a header. -/
def toData (header : Header) (wire : Bool) : DataChunk :=
  ofNat 4 header.version.toNat ++ (header.previousBlockHash.val ++ (header.merkle.val ++
    (ofNat 4 header.timestamp.toNat ++ (ofNat 4 header.bits.toNat ++ (ofNat 4 header.nonce.toNat ++
      if wire then [] else ofNat 4 header.medianTimePast.toNat)))))

def satoshiFixedSize : Nat := 4 + 32 + 32 + 4 + 4 + 4

/-- The store adds four bytes. -/
def serializedSize (wire : Bool) : Nat := satoshiFixedSize + if wire then 0 else 4

section

variable (currency : Currency) (hashes : Hashes) (header : Header)

/-- The hash of the wire form. -/
def hash : HashDigest := hashes.bitcoinHash (header.toData true)

/-- The hash whose value is the work; the `ltc` build uses another function than for the id. -/
def proofOfWorkHash : HashDigest :=
  match currency with
  | .ltc => hashes.scryptHash (header.toData true)
  | .btc | .bch => header.hash hashes

/-- The work of a target: `2 ^ 256 / (target + 1)` without leaving 256 bits. -/
def proof (bits : UInt32) : Nat :=
  let headerBits := Compact.ofUInt32 bits
  if headerBits.overflowed then 0
  else
    let target := headerBits.big
    let divisor := (target + 1) % 2 ^ 256
    if divisor = 0 then 0 else ((2 ^ 256 - 1 - target) / divisor + 1) % 2 ^ 256

/-- The time of the clock, in seconds, plus the tolerance is not before the timestamp. -/
def isValidTimestamp (now : Nat) : Bool :=
  decide (header.timestamp.toNat ≤ now + timestampFutureSeconds)

/-- The hash meets the target. -/
def isValidProofOfWork (retarget : Bool) : Bool :=
  let bits := Compact.ofUInt32 header.bits
  let powLimit := (Compact.ofUInt32 (currency.workLimit retarget)).big
  if bits.overflowed then false
  else
    let target := bits.big
    if target < 1 || target > powLimit then false
    else decide (toUint256 (header.proofOfWorkHash currency hashes) ≤ target)

/-- The checks without the chain. -/
def check (now : Nat) (retarget : Bool) : ErrorCode :=
  if !header.isValidProofOfWork currency hashes retarget then .invalidProofOfWork
  else if !header.isValidTimestamp now then .futuristicTimestamp
  else .success

end

end Header

end BitprimCore
