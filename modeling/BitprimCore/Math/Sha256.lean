import BitprimCore.Math.Hash
import Mathlib.Algebra.Group.Nat.Defs

/-!
# SHA-256

An executable embedding of `math/external/sha256.c`. Words are natural numbers below `2 ^ 32`.
-/

namespace BitprimCore

namespace Sha256

/-- Truncates to 32 bits. -/
def word (n : Nat) : Nat := n % 2 ^ 32

variable (s : State) (x : Nat)

/-- Rotate a word to the right by `n` bits (`ROTR`). -/
def rotr (n : Nat) : Nat := word ((x >>> n) ||| (x <<< (32 - n)))

/-- Chooses bits. -/
def ch (y z : Nat) : Nat := (x &&& (y ^^^ z)) ^^^ z
/-- The majority of bits. -/
def maj (y z : Nat) : Nat := (x &&& (y ||| z)) ||| (y &&& z)
def bigSigma0 : Nat := rotr x 2 ^^^ rotr x 13 ^^^ rotr x 22
def bigSigma1 : Nat := rotr x 6 ^^^ rotr x 11 ^^^ rotr x 25
def sigma0 : Nat := rotr x 7 ^^^ rotr x 18 ^^^ (x >>> 3)
def sigma1 : Nat := rotr x 17 ^^^ rotr x 19 ^^^ (x >>> 10)

def roundConstants : List Nat :=
  [0x428a2f98, 0x71374491, 0xb5c0fbcf, 0xe9b5dba5, 0x3956c25b, 0x59f111f1, 0x923f82a4, 0xab1c5ed5,
   0xd807aa98, 0x12835b01, 0x243185be, 0x550c7dc3, 0x72be5d74, 0x80deb1fe, 0x9bdc06a7, 0xc19bf174,
   0xe49b69c1, 0xefbe4786, 0x0fc19dc6, 0x240ca1cc, 0x2de92c6f, 0x4a7484aa, 0x5cb0a9dc, 0x76f988da,
   0x983e5152, 0xa831c66d, 0xb00327c8, 0xbf597fc7, 0xc6e00bf3, 0xd5a79147, 0x06ca6351, 0x14292967,
   0x27b70a85, 0x2e1b2138, 0x4d2c6dfc, 0x53380d13, 0x650a7354, 0x766a0abb, 0x81c2c92e, 0x92722c85,
   0xa2bfe8a1, 0xa81a664b, 0xc24b8b70, 0xc76c51a3, 0xd192e819, 0xd6990624, 0xf40e3585, 0x106aa070,
   0x19a4c116, 0x1e376c08, 0x2748774c, 0x34b0bcb5, 0x391c0cb3, 0x4ed8aa4a, 0x5b9cca4f, 0x682e6ff3,
   0x748f82ee, 0x78a5636f, 0x84c87814, 0x8cc70208, 0x90befffa, 0xa4506ceb, 0xbef9a3f7, 0xc67178f2]

/-- The eight state words. -/
structure State where
  a : Nat
  b : Nat
  c : Nat
  d : Nat
  e : Nat
  f : Nat
  g : Nat
  h : Nat
  deriving DecidableEq

/-- The initial state. -/
def init : State :=
  ⟨0x6a09e667, 0xbb67ae85, 0x3c6ef372, 0xa54ff53a, 0x510e527f, 0x9b05688c, 0x1f83d9ab, 0x5be0cd19⟩

/-- The message schedule, newest word first; each step adds one word. -/
def expand : Nat → List Nat → List Nat
  | 0, words => words
  | steps + 1, words =>
    expand steps (word (sigma1 (words.getD 1 0) + words.getD 6 0 + sigma0 (words.getD 14 0) +
      words.getD 15 0) :: words)

/-- One round. -/
def round (wk : Nat) : State :=
  let t0 := word (s.h + bigSigma1 s.e + ch s.e s.f s.g + wk)
  let t1 := word (bigSigma0 s.a + maj s.a s.b s.c)
  ⟨word (t0 + t1), s.a, s.b, s.c, word (s.d + t0), s.e, s.f, s.g⟩

/-- All rounds. -/
def rounds : List Nat → List Nat → State → State
  | w :: words, k :: constants, s => rounds words constants (round s (w + k))
  | _, _, s => s

/-- Adds word by word. -/
def add (t : State) : State :=
  ⟨word (s.a + t.a), word (s.b + t.b), word (s.c + t.c), word (s.d + t.d), word (s.e + t.e),
    word (s.f + t.f), word (s.g + t.g), word (s.h + t.h)⟩

/-- Big-endian words of a block (`be32dec_vect`). -/
def decodeWords : DataChunk → List Nat
  | b0 :: b1 :: b2 :: b3 :: rest =>
    (b0.toNat * 2 ^ 24 + b1.toNat * 2 ^ 16 + b2.toNat * 2 ^ 8 + b3.toNat) :: decodeWords rest
  | _ => []

/-- The high byte goes first. -/
def encodeWord : DataChunk :=
  [UInt8.ofNat (x / 2 ^ 24), UInt8.ofNat (x / 2 ^ 16), UInt8.ofNat (x / 2 ^ 8), UInt8.ofNat x]

/-- Absorb one block of 64 bytes (`SHA256Transform`). -/
def transform (block : DataChunk) : State :=
  add s (rounds (expand 48 (decodeWords block).reverse).reverse roundConstants s)

/-- Absorbs all blocks. -/
def absorb : Nat → DataChunk → State → State
  | 0, _, s => s
  | blocks + 1, data, s => absorb blocks (data.drop 64) (transform s (data.take 64))

/-- The message with its padding and 64-bit length (`SHA256Pad`). -/
def pad (data : DataChunk) : DataChunk :=
  let r := data.length % 64
  let size := if r < 56 then 56 - r else 120 - r
  data ++ 0x80 :: List.replicate (size - 1) 0 ++
    encodeWord (data.length * 8 / 2 ^ 32) ++ encodeWord (data.length * 8)

/-- The bytes of a state. -/
def digest : HashDigest :=
  ⟨encodeWord s.a ++ encodeWord s.b ++ encodeWord s.c ++ encodeWord s.d ++ encodeWord s.e ++
    encodeWord s.f ++ encodeWord s.g ++ encodeWord s.h, rfl⟩

/-- The hash of a message. -/
def hash (data : DataChunk) : HashDigest :=
  let padded := pad data
  digest (absorb (padded.length / 64) padded init)

end Sha256

/-- Hash functions to evaluate the model with. SHA-256 is the embedded one; the other digests are
cut from it and stand in where an evaluation does not depend on them. -/
def Hashes.ofSha256 : Hashes where
  sha256Hash := Sha256.hash
  ripemd160Hash data := ⟨(Sha256.hash data).val.take 20, by simp [(Sha256.hash data).property]⟩
  sha1Hash data := ⟨(Sha256.hash data).val.take 20, by simp [(Sha256.hash data).property]⟩
  scryptHash := Sha256.hash

end BitprimCore
