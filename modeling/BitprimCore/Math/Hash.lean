import BitprimCore.Constants
import Mathlib.Data.Set.Function

/-!
# Hash functions

Digests, the hash functions the library builds on, and what it means that no collision occurs among
given messages. A function onto 32 bytes is never injective, so a result that rests on collision
resistance names the messages it compares.
-/

namespace BitprimCore

/-- A 32-byte digest (`hash_digest`). -/
abbrev HashDigest := { bytes : DataChunk // bytes.length = 32 }

/-- A 20-byte digest (`short_hash`). -/
abbrev ShortHash := { bytes : DataChunk // bytes.length = 20 }

def nullHash : HashDigest := ⟨List.replicate 32 0, by simp⟩

/-- The hash functions of `math/hash`. `scrypt` is only used by the `ltc` build. -/
structure Hashes where
  sha256Hash : DataChunk → HashDigest
  ripemd160Hash : DataChunk → ShortHash
  sha1Hash : DataChunk → ShortHash
  scryptHash : DataChunk → HashDigest

/-- SHA-256 twice. -/
def Hashes.bitcoinHash (hashes : Hashes) (data : DataChunk) : HashDigest :=
  hashes.sha256Hash (hashes.sha256Hash data).val

/-- No two different messages of the list have one digest. -/
def CollisionFree {δ : Type*} (hash : DataChunk → δ) (messages : List DataChunk) : Prop :=
  Set.InjOn hash { message | message ∈ messages }

theorem CollisionFree.eq_of_hash_eq {δ : Type*} {hash : DataChunk → δ}
    {messages : List DataChunk} (h : CollisionFree hash messages) {a b : DataChunk}
    (ha : a ∈ messages) (hb : b ∈ messages) (hab : hash a = hash b) : a = b :=
  h ha hb hab

theorem CollisionFree.mono {δ : Type*} {hash : DataChunk → δ} {messages messages' : List DataChunk}
    (h : CollisionFree hash messages) (hsub : messages' ⊆ messages) : CollisionFree hash messages' :=
  Set.InjOn.mono hsub h

instance {δ : Type*} [DecidableEq δ] (hash : DataChunk → δ) (messages : List DataChunk) :
    Decidable (CollisionFree hash messages) :=
  decidable_of_iff (∀ a ∈ messages, ∀ b ∈ messages, hash a = hash b → a = b)
    ⟨fun h _ ha _ hb => h _ ha _ hb, fun h _ ha _ hb => h ha hb⟩

end BitprimCore
