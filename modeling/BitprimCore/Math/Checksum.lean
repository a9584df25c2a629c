import BitprimCore.Library.FixedLayout
import BitprimCore.Math.Hash
import BitprimCore.Utility.Data

/-!
# Checksums

The first four bytes of the hash of some data, behind the data (`math/checksum`).
-/

namespace BitprimCore.Hashes

open List LittleEndian

variable (hashes : Hashes) {slices : List DataChunk} {size : Nat} (data : DataChunk)

/-- Four bytes of the hash. -/
def bitcoinChecksum : UInt32 := UInt32.ofNat (toNat ((hashes.bitcoinHash data).val.take 4))

/-- The data with its checksum behind it (`append_checksum`, and `insert_checksum` for an array that
the data leaves room in). -/
def appendChecksum : DataChunk := data ++ ofNat 4 (hashes.bitcoinChecksum data).toNat

/-- Compares the last four bytes. -/
def verifyChecksum : Bool :=
  if data.length < 4 then false
  else hashes.bitcoinChecksum (data.take (data.length - 4)) ==
    UInt32.ofNat (toNat (data.drop (data.length - 4)))

@[simp] theorem length_appendChecksum : (hashes.appendChecksum data).length = data.length + 4 := by
  rw [appendChecksum, length_append, length_ofNat]

/-- An array that some slices fill, but for their checksum. -/
def buildCheckedArray (slices : List DataChunk) (h : slices.flatten.length + 4 = size) :
    Bytes size :=
  ⟨hashes.appendChecksum slices.flatten, by rw [length_appendChecksum, h]⟩

/-- A payload under a version, with their checksum. -/
def wrap (version : UInt8) (payload : Bytes size) : Bytes (size + 5) :=
  hashes.buildCheckedArray [[version], payload.val] (by simp [payload.2])

variable {hashes}

/-- The array is made of what its slices hold together, however that is cut. -/
theorem buildCheckedArray_congr {slices' : List DataChunk} (h : slices.flatten.length + 4 = size)
    (h' : slices'.flatten.length + 4 = size) (hflatten : slices.flatten = slices'.flatten) :
    hashes.buildCheckedArray slices h = hashes.buildCheckedArray slices' h' :=
  Subtype.ext (congrArg hashes.appendChecksum hflatten)

/-- The slices are found in the array at their places. -/
theorem cut_buildCheckedArray {widths : List Nat} (h : slices.flatten.length + 4 = size)
    (hwidths : slices.map length = widths) :
    FixedLayout.cut (widths ++ [4]) (hashes.buildCheckedArray slices h).val =
      slices ++ [ofNat 4 (hashes.bitcoinChecksum slices.flatten).toNat] := by
  have hfields := FixedLayout.cut_flatten
    (slices ++ [ofNat 4 (hashes.bitcoinChecksum slices.flatten).toNat])
  rw [map_append, hwidths, flatten_append, map_singleton,
    length_ofNat, flatten_singleton] at hfields
  exact hfields

theorem verifyChecksum_appendChecksum : hashes.verifyChecksum (hashes.appendChecksum data) := by
  have hsize : (hashes.appendChecksum data).length - 4 = data.length := by
    rw [length_appendChecksum, Nat.add_sub_cancel]
  have hlong : ¬ (hashes.appendChecksum data).length < 4 := by
    rw [length_appendChecksum]
    omega
  rw [verifyChecksum, if_neg hlong, hsize, appendChecksum, take_left, drop_left,
    toNat_ofNat_uint32, beq_self_eq_true]

theorem verifyChecksum_buildCheckedArray (h : slices.flatten.length + 4 = size) :
    hashes.verifyChecksum (hashes.buildCheckedArray slices h).val :=
  verifyChecksum_appendChecksum _

/-- Data that passes is the front of it with its checksum. -/
theorem verifyChecksum_iff {data : DataChunk} (h : 4 ≤ data.length) :
    hashes.verifyChecksum data ↔ hashes.appendChecksum (data.take (data.length - 4)) = data := by
  constructor
  · intro hpass
    rw [verifyChecksum, if_neg (not_lt.mpr h), beq_iff_eq] at hpass
    have hlen : (data.drop (data.length - 4)).length = 4 := by
      rw [length_drop]
      omega
    rw [appendChecksum, hpass, ofNat_toNat_uint32 hlen, take_append_drop]
  · intro hdata
    rw [← hdata]
    exact verifyChecksum_appendChecksum _

end BitprimCore.Hashes
