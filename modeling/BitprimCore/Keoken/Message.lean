import BitprimCore.Utility.IstreamReader

/-!
# Keoken messages

The messages that create an asset and send tokens of it (`keoken/message`). A message is written
with a header of its version and its type, and read without it. The name of an asset is written with
the null that ends it, and read up to a null.
-/

namespace BitprimCore.Keoken

open List

open LittleEndian StickyReader IstreamReader

variable (tokens : SendTokens)

/-- The high byte goes first. -/
def writeBigEndian (width value : Nat) : DataChunk := (ofNat width value).reverse

/-- The header of a message (`base::to_data`). -/
def baseToData (version type : UInt16) : DataChunk :=
  writeBigEndian 2 version.toNat ++ writeBigEndian 2 type.toNat

/-- Characters up to a null, while there is room for one more. -/
def readNullTerminatedLoop : (room : Nat) → (res : DataChunk) → Reader UInt8 (Option DataChunk)
  | 0, _ => return none
  | room + 1, res => do
    let b ← readByte
    if ← hasFailed then return none
    else if b = 0 then return some res
    else readNullTerminatedLoop room (res ++ [b])

/-- The characters in front of a null, fewer than the maximum. -/
def readNullTerminatedString (max : Nat) : Reader UInt8 (Option DataChunk) :=
  readNullTerminatedLoop max []

/-- Creates an asset. -/
structure CreateAsset where
  name : DataChunk := []
  amount : Int64 := 0

namespace CreateAsset

def version : UInt16 := 0
def type : UInt16 := 0

/-- 32 real characters and the null. -/
def maxNameSize : Nat := 32 + 1

def minAssetNameSize : Nat := 1

/-- What a message reads of a source, and whether that succeeds. -/
def fromData (asset : CreateAsset) : Reader UInt8 (Bool × CreateAsset) := do
  match ← readNullTerminatedString maxNameSize with
  | none =>
    invalidate
    return (false, asset)
  | some name =>
    if name.length < minAssetNameSize then
      invalidate
      return (false, asset)
    else
      let amount ← readBigEndian 8
      let failed ← hasFailed
      return (!failed, { name, amount := (UInt64.ofNat amount).toInt64 })

/-- A new message that reads bytes (`factory_from_data`), and whether that succeeds. -/
def factoryFromData (data : DataChunk) : Bool × CreateAsset := (fromData {} ⟨data, false⟩).1

/-- Serializes the message. -/
def toData (asset : CreateAsset) : DataChunk :=
  baseToData version type ++ (asset.name ++ [0] ++ writeBigEndian 8 asset.amount.toUInt64.toNat)

end CreateAsset

/-- Sends tokens. -/
structure SendTokens where
  assetId : UInt32 := 0
  amount : Int64 := 0

namespace SendTokens

def version : UInt16 := 0
def type : UInt16 := 1

/-- All that is read replaces what the message has. -/
def fromData : Reader UInt8 (Bool × SendTokens) := do
  let assetId ← readBigEndian 4
  let amount ← readBigEndian 8
  let failed ← hasFailed
  return (!failed, { assetId := UInt32.ofNat assetId, amount := (UInt64.ofNat amount).toInt64 })

/-- Reads a message. -/
def factoryFromData (data : DataChunk) : Bool × SendTokens := (fromData ⟨data, false⟩).1

/-- Serializes the message. -/
def toData (tokens : SendTokens) : DataChunk :=
  baseToData version type ++
    (writeBigEndian 4 tokens.assetId.toNat ++ writeBigEndian 8 tokens.amount.toUInt64.toNat)

end SendTokens

@[simp] theorem length_writeBigEndian (width value : Nat) :
    (writeBigEndian width value).length = width := by
  simp [writeBigEndian]

@[simp] theorem length_baseToData (version type : UInt16) :
    (baseToData version type).length = 4 := by
  simp [baseToData]

theorem takes_readByte (b : UInt8) : Takes readByte [b] b := fun _ => rfl

theorem takes_hasFailed : Takes (hasFailed : Reader UInt8 Bool) [] false := fun _ => rfl

theorem takes_writeBigEndian {width value : Nat} (h : value < 256 ^ width) :
    Takes (readBigEndian width) (writeBigEndian width value) value :=
  takes_readBigEndian h

/-- A string without nulls is read up to the null behind it, when there is room for both. -/
theorem takes_readNullTerminatedLoop {room : Nat} {res string : DataChunk}
    (hnull : (0 : UInt8) ∉ string) (hroom : string.length < room) :
    Takes (readNullTerminatedLoop room res) (string ++ [0]) (some (res ++ string)) := by
  induction string generalizing room res with
  | nil =>
    obtain ⟨room, rfl⟩ := Nat.exists_eq_succ_of_ne_zero (ne_of_gt hroom)
    rw [append_nil]
    exact (takes_readByte 0).bind (takes_hasFailed.bind (takes_pure (some res)))
  | cons b string ih =>
    obtain ⟨room, rfl⟩ := Nat.exists_eq_succ_of_ne_zero (ne_of_gt (Nat.zero_lt_of_lt hroom))
    rw [mem_cons, not_or] at hnull
    have hb : b ≠ 0 := Ne.symm hnull.1
    have htail := @ih room (res ++ [b]) hnull.2 (Nat.lt_of_succ_lt_succ hroom)
    rw [append_assoc, singleton_append] at htail
    intro rest
    have hrun : readNullTerminatedLoop (room + 1) res ⟨b :: (string ++ [0] ++ rest), false⟩ =
        (if b = 0 then pure (some res) else readNullTerminatedLoop room (res ++ [b]))
          ⟨string ++ [0] ++ rest, false⟩ := rfl
    rw [cons_append, cons_append, hrun, if_neg hb]
    exact htail rest

theorem takes_readNullTerminatedString {max : Nat} {string : DataChunk}
    (hnull : (0 : UInt8) ∉ string) (hmax : string.length < max) :
    Takes (readNullTerminatedString max) (string ++ [0]) (some string) :=
  takes_readNullTerminatedLoop hnull hmax

/-- A name of one to 32 characters is read back, with the amount. -/
theorem CreateAsset.takes_fromData {asset : CreateAsset} (unset : CreateAsset)
    (hpos : 1 ≤ asset.name.length) (hmax : asset.name.length ≤ 32)
    (hnull : (0 : UInt8) ∉ asset.name) :
    Takes unset.fromData (asset.toData.drop 4) (true, asset) := by
  have hname : Takes (readNullTerminatedString maxNameSize) (asset.name ++ [0]) (some asset.name) :=
    takes_readNullTerminatedString hnull (Nat.lt_succ_of_le hmax)
  have hamount : Takes (readBigEndian 8) (writeBigEndian 8 asset.amount.toUInt64.toNat)
      asset.amount.toUInt64.toNat :=
    takes_writeBigEndian asset.amount.toUInt64.toNat_lt
  have hdrop : asset.toData.drop 4 =
      asset.name ++ [0] ++ writeBigEndian 8 asset.amount.toUInt64.toNat :=
    drop_left' (length_baseToData version type)
  have hlong : ¬ asset.name.length < minAssetNameSize := not_lt.mpr hpos
  rw [hdrop]
  refine hname.bind ?_
  simp only [hlong, if_false]
  intro rest
  rw [bind_run, hamount rest]
  simp only [UInt64.ofNat_toNat]
  rfl

theorem SendTokens.takes_fromData : Takes fromData (tokens.toData.drop 4) (true, tokens) := by
  have hassetId : Takes (readBigEndian 4) (writeBigEndian 4 tokens.assetId.toNat)
      tokens.assetId.toNat :=
    takes_writeBigEndian tokens.assetId.toNat_lt
  have hamount : Takes (readBigEndian 8) (writeBigEndian 8 tokens.amount.toUInt64.toNat)
      tokens.amount.toUInt64.toNat :=
    takes_writeBigEndian tokens.amount.toUInt64.toNat_lt
  have hdrop : tokens.toData.drop 4 =
      writeBigEndian 4 tokens.assetId.toNat ++ writeBigEndian 8 tokens.amount.toUInt64.toNat :=
    drop_left' (length_baseToData version type)
  rw [hdrop]
  refine hassetId.bind ?_
  intro rest
  rw [bind_run, hamount rest]
  simp only [UInt32.ofNat_toNat, UInt64.ofNat_toNat]
  rfl

theorem CreateAsset.factoryFromData_toData {asset : CreateAsset} (hpos : 1 ≤ asset.name.length)
    (hmax : asset.name.length ≤ 32) (hnull : (0 : UInt8) ∉ asset.name) :
    factoryFromData (asset.toData.drop 4) = (true, asset) := by
  have htakes := takes_fromData {} hpos hmax hnull []
  rw [append_nil] at htakes
  rw [factoryFromData, htakes]

theorem SendTokens.factoryFromData_toData :
    factoryFromData (tokens.toData.drop 4) = (true, tokens) := by
  have htakes := takes_fromData tokens []
  rw [append_nil] at htakes
  rw [factoryFromData, htakes]

theorem CreateAsset.length_toData (asset : CreateAsset) :
    asset.toData.length = asset.name.length + 13 := by
  simp [toData]
  omega

theorem SendTokens.length_toData : tokens.toData.length = 16 := by
  simp [toData]

end BitprimCore.Keoken
