import BitprimCore.Chain.Endorsement
import BitprimCore.Utility.Data

/-!
# Primitives of key derivation

The functions of `math/elliptic_curve`, `math/hash` and `math/crypto` that wallets derive and encrypt
keys with.

## Implementation notes

All of them are outside the repository or wrap code that is. They are parameters, and what a result
relies on is stated of them; `none` is failure.
-/

namespace BitprimCore

/-- Addition and multiplication of secrets and points (`ec_add`, `ec_multiply`). -/
structure KeyArithmetic extends EllipticCurve where
  addSecret : EcSecret → EcSecret → Option EcSecret
  addPoint : EcCompressed → EcSecret → Option EcCompressed
  multiplySecret : EcSecret → EcSecret → Option EcSecret
  multiplyPoint : EcCompressed → EcSecret → Option EcCompressed

/-- The hash functions with a key or a salt. -/
structure KeyHashes extends Hashes where
  hmacSha512Hash : (data key : DataChunk) → Bytes 64
  scrypt : (size : Nat) → (data salt : DataChunk) → (n p r : Nat) → Bytes size

def nullCompressedPoint : EcCompressed := ⟨List.replicate 33 0, by simp⟩

end BitprimCore
