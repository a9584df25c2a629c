import BitprimCore.Chain.ScriptPattern
import BitprimCore.Math.Crypto
import BitprimCore.Utility.Binary

/-!
# Stealth

The key that a sender makes for one payment, the script that tells it to the receiver, and the
secret that both share (`math/stealth`).

The script is mined: its hash starts with the bits of a filter. Only the unsigned part of the key
is in the script, so the key has to be an even one.
-/

namespace BitprimCore

open List LittleEndian Script

/-- The hash functions of stealth payments. -/
structure StealthHashes extends Hashes where
  sha512Hash : DataChunk → Bytes 64
  hmacSha256Hash : (data key : DataChunk) → HashDigest

/-- The public key has the sign of an even y-value. -/
def isEvenKey (point : EcCompressed) : Bool := point.val.headD 0 == compressedEven

namespace Stealth

variable (currency : Currency) (hashes : StealthHashes) (curve : KeyArithmetic)

variable (script : Script)

/-- The data behind the return of a script of null data. -/
def nullData : DataChunk :=
  match (script.operations currency)[1]? with
  | some op => op.data
  | none => []

/-- Null data that can hold a key. -/
def isStealthScript : Bool :=
  if script.pattern currency ≠ .nullData then false
  else decide (32 ≤ (nullData currency script).length)

/-- The low bits of the hash. -/
def toStealthPrefix : Option UInt32 :=
  if !isStealthScript currency script then none
  else
    let scriptHash := hashes.bitcoinHash (script.toData false)
    some (UInt32.ofNat (toNat (scriptHash.val.take 4)))

/-- The size of the pad is below what remains of the data. -/
def maxPadSize : Nat := maxNullDataSize - 32 - 4

/-- The unsigned part of the key, the pad and the nonce. -/
def stealthData (point : EcCompressed) (bytes : Bytes 64) (nonce : UInt32) : DataChunk :=
  let padSize := (bytes.val.getLastD 0).toNat % maxPadSize
  point.val.drop 1 ++ bytes.val.take padSize ++ ofNat 4 nonce.toNat

/-- The script with a nonce, when its hash starts with the filter. -/
def attempt (point : EcCompressed) (bytes : Bytes 64) (filter : Binary) (nonce : UInt32) :
    Option Script :=
  let script := ofOperations (toNullDataPattern (stealthData point bytes nonce))
  match toStealthPrefix currency hashes script with
  | none => none
  | some field => if filter.isPrefixOf (.number field) then some script else none

/-- The next nonce is nearer to the start. -/
theorem distance_lt {start nonce : UInt32} (h : nonce ≠ start) :
    (start - (nonce + 1)).toNat < (start - nonce).toNat := by
  have hne : nonce.toNat ≠ start.toNat := fun heq => h (UInt32.toNat_inj.mp heq)
  have hstart := start.toNat_lt
  have hnonce := nonce.toNat_lt
  rw [UInt32.toNat_sub, UInt32.toNat_sub, UInt32.toNat_add, UInt32.toNat_one]
  omega

/-- The nonces from one up to the start, around the end of the words. -/
def mine (attempt : UInt32 → Option Script) (start nonce : UInt32) : Option Script :=
  if nonce = start then none
  else
    match attempt nonce with
    | some script => some script
    | none => mine attempt start (nonce + 1)
termination_by (start - nonce).toNat
decreasing_by exact distance_lt (by assumption)

/-- Mine a filter into the leftmost bytes of the hash of the script. -/
def createStealthScript (secret : EcSecret) (filter : Binary) (seed : DataChunk) : Option Script :=
  let bytes := hashes.sha512Hash seed
  match curve.secretToPublic secret with
  | none => none
  | some point =>
    if !isEvenKey point then none
    else
      let start := UInt32.ofNat (toNat ((bytes.val.drop maxPadSize).take 4))
      mine (attempt currency hashes point bytes filter) start (start + 1)

/-- The key with an even sign. -/
def extractEphemeralKey : Option EcCompressed :=
  if h : isStealthScript currency script then
    some ⟨compressedEven :: (nullData currency script).take 32, by
      have hsize : 32 ≤ (nullData currency script).length := by
        unfold isStealthScript at h
        split_ifs at h
        exact of_decide_eq_true h
      simp [hsize]⟩
  else none

/-- The magic of ephemeral keys: the characters of a literal, with the null behind them. -/
def stealthSeed : DataChunk := toChunk "Stealth seed".toList ++ [0]

/-- Iterate up to the given number of times before giving up on finding a valid key pair. -/
def findEphemeralKey (seed : DataChunk) : (count : Nat) → (nonce : UInt8) → Option EcSecret
  | 0, _ => none
  | count + 1, nonce =>
    let secret := hashes.hmacSha256Hash (nonce :: seed) stealthSeed
    if (curve.secretToPublic secret).any isEvenKey then some secret
    else findEphemeralKey seed count (nonce + 1)

/-- Tries 255 nonces. -/
def createEphemeralKey (seed : DataChunk) : Option EcSecret :=
  findEphemeralKey hashes curve seed 255 0

/-- Create an ephemeral key by the seed and then the script. -/
def createStealthData (filter : Binary) (seed : DataChunk) : Option (Script × EcSecret) := do
  let secret ← createEphemeralKey hashes curve seed
  let script ← createStealthScript currency hashes curve secret filter seed
  return (script, secret)

/-- The hash of the product. -/
def sharedSecret (secret : EcSecret) (point : EcCompressed) : Option EcSecret :=
  match curve.multiplyPoint point secret with
  | none => none
  | some product => some (hashes.sha256Hash product.val)

/-- The public key of a payment, from the keys of either side. -/
def uncoverPublic (ephemeralOrScan : EcCompressed) (scanOrEphemeral : EcSecret)
    (spend : EcCompressed) : Option EcCompressed :=
  match sharedSecret hashes curve scanOrEphemeral ephemeralOrScan with
  | none => none
  | some shared => curve.addPoint spend shared

/-- The secret of a payment. -/
def uncoverSecret (ephemeralOrScan : EcCompressed) (scanOrEphemeral spend : EcSecret) :
    Option EcSecret :=
  match sharedSecret hashes curve scanOrEphemeral ephemeralOrScan with
  | none => none
  | some shared => curve.addSecret spend shared

variable {currency hashes curve}

section

variable {found : UInt32 → Option Script} {start nonce : UInt32} {script : Script}

theorem mine_of_some (hnonce : nonce ≠ start) (h : found nonce = some script) :
    mine found start nonce = some script := by
  rw [mine, if_neg hnonce, h]

theorem exists_of_mine (h : mine found start nonce = some script) :
    ∃ nonce', found nonce' = some script := by
  fun_induction mine found start nonce with
  | case1 => cases h
  | case2 nonce hnonce script' hfound =>
    cases h
    exact ⟨nonce, hfound⟩
  | case3 nonce hnonce hfound ih => exact ih h

end

section

variable {point : EcCompressed} {bytes : Bytes 64} {filter : Binary} {nonce : UInt32}
  {script : Script}

theorem length_stealthData_mem : (stealthData point bytes nonce).length ∈ Set.Icc 36 79 := by
  have hpad : (bytes.val.getLastD 0).toNat % maxPadSize < maxPadSize := Nat.mod_lt _ (by decide)
  have hmax : maxPadSize = 44 := rfl
  simp only [stealthData, length_append, length_drop, length_take, length_ofNat,
    point.property, bytes.property, Set.mem_Icc]
  omega

theorem take_stealthData : (stealthData point bytes nonce).take 32 = point.val.drop 1 := by
  have hlen : (point.val.drop 1).length = 32 := by rw [length_drop, point.property]
  rw [stealthData, append_assoc, take_append_of_le_length hlen.ge, take_of_length_le hlen.le]

/-- The script of every nonce tells the key. -/
theorem nullData_attempt :
    let script := ofOperations (toNullDataPattern (stealthData point bytes nonce))
    script.pattern currency = .nullData ∧
      nullData currency script = stealthData point bytes nonce := by
  intro script
  obtain ⟨hlow, hhigh⟩ := @length_stealthData_mem point bytes nonce
  have htwo : 2 ≤ (stealthData point bytes nonce).length := by omega
  have hmax : (stealthData point bytes nonce).length ≤ maxNullDataSize := hhigh.trans (by decide)
  refine ⟨pattern_toNullDataPattern htwo hmax, ?_⟩
  unfold nullData
  rw [operations_toNullDataPattern htwo hmax]
  rfl

theorem isStealthScript_attempt :
    isStealthScript currency
      (.ofOperations (toNullDataPattern (stealthData point bytes nonce))) := by
  obtain ⟨hpat, hdata⟩ := @nullData_attempt currency point bytes nonce
  have hlen := (@length_stealthData_mem point bytes nonce).1
  simp only [isStealthScript, hpat, hdata]
  simp
  omega

theorem extractEphemeralKey_attempt (heven : isEvenKey point) :
    extractEphemeralKey currency
      (.ofOperations (toNullDataPattern (stealthData point bytes nonce))) = some point := by
  unfold extractEphemeralKey
  rw [dif_pos isStealthScript_attempt]
  congr 1
  apply Subtype.ext
  change compressedEven :: take 32 _ = point.val
  -- the sign that is left out of the script is the one that the key has to have
  rw [(@nullData_attempt currency point bytes nonce).2, take_stealthData]
  match point, heven with
  | ⟨sign :: unsigned, hlen⟩, heven =>
    obtain rfl : sign = compressedEven := beq_iff_eq.mp heven
    rfl

end

end Stealth

end BitprimCore
