import BitprimCore.Math.Crypto

/-!
# Tables of keys

The arithmetic of the curve on finitely many keys, each listed with its point. Secrets are added and
multiplied modulo the order of the curve, and a point is known by its secret. What is not listed
fails.
-/

namespace BitprimCore

/-- Secrets with their points. A point has one secret. -/
structure KeyTable where
  keys : List (EcSecret × EcCompressed)
  single : ∀ key ∈ keys, keys.find? (fun other => other.2 = key.2) = some key

namespace KeyTable

/-- The prime of the field. -/
def prime : Nat := 2 ^ 256 - 2 ^ 32 - 977

/-- The order of the curve. -/
def order : Nat := 0xfffffffffffffffffffffffffffffffebaaedce6af48a03bbfd25e8cd0364141

/-- The number of a secret. -/
def toNat (secret : EcSecret) : Nat := LittleEndian.toNat secret.val.reverse

/-- The power of a number in the field, by the bits of the exponent. -/
def power (base exponent : Nat) : (bits : Nat) → Nat
  | 0 => 1
  | bits + 1 =>
    let rest := power (base * base % prime) (exponent / 2) bits
    if exponent % 2 = 1 then base * rest % prime else rest

/-- Both coordinates of a point, `y ^ 2 = x ^ 3 + 7`. -/
def decompress (point : EcCompressed) : Option EcUncompressed :=
  let x := LittleEndian.toNat (point.val.drop 1).reverse
  let root := power (x ^ 3 + 7) ((prime + 1) / 4) 256
  let y := if root % 2 = (point.val.headD 0).toNat % 2 then root else prime - root
  if y ^ 2 % prime = (x ^ 3 + 7) % prime then
    some ((Bytes.toArray 4).splice ((Bytes.ofNat 32 x).splice (Bytes.ofNat 32 y)))
  else none

variable (table : KeyTable)

/-- The point of a secret. -/
def secretToPublic (secret : EcSecret) : Option EcCompressed :=
  (table.keys.find? fun key => key.1 = secret).map fun key => key.2

/-- The secret of a point. -/
def publicToSecret (point : EcCompressed) : Option EcSecret :=
  (table.keys.find? fun key => key.2 = point).map fun key => key.1

/-- A sum or a product of secrets. -/
def combine (f : Nat → Nat → Nat) (left right : EcSecret) : Option EcSecret :=
  (table.keys.find? fun key => toNat key.1 = f (toNat left) (toNat right) % order).map
    fun key => key.1

/-- The point of a sum or a product. -/
def combinePoint (f : Nat → Nat → Nat) (point : EcCompressed) (right : EcSecret) :
    Option EcCompressed :=
  (table.publicToSecret point).bind fun left =>
    (table.combine f left right).bind table.secretToPublic

/-- The functions of the curve on the keys of the table. -/
def curve : KeyArithmetic where
  secretToPublic := table.secretToPublic
  decompress := decompress
  sign _ _ := none
  encodeSignature _ := none
  parseDer _ _ := none
  verifySignature _ _ _ := false
  addSecret := table.combine (· + ·)
  addPoint := table.combinePoint (· + ·)
  multiplySecret := table.combine (· * ·)
  multiplyPoint := table.combinePoint (· * ·)

variable {table} {f : Nat → Nat → Nat} {left right secret : EcSecret} {point : EcCompressed}

theorem mem_of_secretToPublic (h : table.secretToPublic secret = some point) :
    (secret, point) ∈ table.keys := by
  obtain ⟨key, hkey, rfl⟩ := Option.map_eq_some_iff.mp h
  have hsecret : key.1 = secret := by simpa using List.find?_some hkey
  rw [← hsecret]
  exact List.mem_of_find?_eq_some hkey

theorem publicToSecret_of_secretToPublic (h : table.secretToPublic secret = some point) :
    table.publicToSecret point = some secret := by
  rw [publicToSecret, table.single _ (mem_of_secretToPublic h), Option.map_some]

/-- Points are combined as their secrets are. -/
theorem combinePoint_eq (h : table.secretToPublic left = some point) :
    table.combinePoint f point right = (table.combine f left right).bind table.secretToPublic := by
  rw [combinePoint, publicToSecret_of_secretToPublic h]
  rfl

/-- What is combined is in the table. -/
theorem secretToPublic_isSome_of_combine (h : table.combine f left right = some secret) :
    (table.secretToPublic secret).isSome := by
  obtain ⟨key, hkey, rfl⟩ := Option.map_eq_some_iff.mp h
  rw [secretToPublic, Option.isSome_map, List.find?_isSome]
  exact ⟨key, List.mem_of_find?_eq_some hkey, by simp⟩

theorem combine_comm (hf : ∀ a b, f a b = f b a) :
    table.combine f left right = table.combine f right left := by
  rw [combine, combine, hf]

end KeyTable

end BitprimCore
