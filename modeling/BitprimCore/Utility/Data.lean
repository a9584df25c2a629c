import BitprimCore.Constants
import BitprimCore.Library.LittleEndian
import BitprimCore.Utility.Text

/-!
# Byte arrays

Arrays of a fixed size and what the library makes of them (`utility/data`, `utility/endian`).
-/

namespace BitprimCore

open List LittleEndian

/-- An array of bytes (`byte_array`). -/
abbrev Bytes (size : Nat) := { bytes : DataChunk // bytes.length = size }

/-- The characters of a text, one byte each. -/
def toChunk (text : Text) : DataChunk := text.map fun c => UInt8.ofNat c.toNat

/-- `std::vector::resize` with zeros. -/
def resizeChunk (data : DataChunk) (size : Nat) : DataChunk :=
  data.take size ++ replicate (size - data.length) 0

theorem toNat_ofNat_uint32 (value : UInt32) :
    UInt32.ofNat (toNat (ofNat 4 value.toNat)) = value := by
  have hlt : value.toNat < 256 ^ 4 := value.toNat_lt
  rw [toNat_ofNat, Nat.mod_eq_of_lt hlt, UInt32.ofNat_toNat]

theorem ofNat_toNat_uint32 {bytes : DataChunk} (h : bytes.length = 4) :
    ofNat 4 (UInt32.ofNat (toNat bytes)).toNat = bytes := by
  have hlt : toNat bytes < 2 ^ 32 := by
    have hbound := toNat_lt bytes
    rwa [h] at hbound
  rw [UInt32.toNat_ofNat_of_lt' hlt, ← h, ofNat_toNat]

namespace Bytes

variable {size left right : Nat}

/-- A range of the bytes. -/
def slice (start stop : Nat) (bytes : Bytes size) (h : stop ≤ size := by decide) :
    Bytes (stop - start) :=
  ⟨(bytes.val.drop start).take (stop - start), by
    rw [List.length_take, List.length_drop, bytes.2]
    omega⟩

/-- Joins two arrays. -/
def splice (a : Bytes left) (b : Bytes right) : Bytes (left + right) :=
  ⟨a.val ++ b.val, by rw [List.length_append, a.2, b.2]⟩

/-- The two halves. -/
def split (half : Nat) (bytes : Bytes (half + half)) : Bytes half × Bytes half :=
  (⟨bytes.val.take half, by rw [List.length_take, bytes.2]; omega⟩,
    ⟨bytes.val.drop half, by rw [List.length_drop, bytes.2]; omega⟩)

/-- The bytes of both arrays, combined by exclusive or. -/
def xor (a b : Bytes size) : Bytes size :=
  ⟨List.zipWith (· ^^^ ·) a.val b.val, by rw [List.length_zipWith, a.2, b.2, Nat.min_self]⟩

/-- Bytes of two arrays from an offset on, combined by exclusive or. -/
def xorData (count : Nat) (a : Bytes left) (b : Bytes right) (offset1 offset2 : Nat)
    (h1 : offset1 + count ≤ left := by decide) (h2 : offset2 + count ≤ right := by decide) :
    Bytes count :=
  xor ⟨(a.val.drop offset1).take count, by rw [List.length_take, List.length_drop, a.2]; omega⟩
    ⟨(b.val.drop offset2).take count, by rw [List.length_take, List.length_drop, b.2]; omega⟩

/-- An array of one byte. -/
def toArray (byte : UInt8) : Bytes 1 := ⟨[byte], rfl⟩

/-- The bytes of a number, the most significant first. -/
def ofNat (size value : Nat) : Bytes size := ⟨(LittleEndian.ofNat size value).reverse, by simp⟩

def toBigEndian (value : UInt32) : Bytes 4 := ⟨(LittleEndian.ofNat 4 value.toNat).reverse, by simp⟩

def fromBigEndian (bytes : Bytes 4) : UInt32 := UInt32.ofNat (toNat bytes.val.reverse)

theorem zipWith_xor_cancel {a b : DataChunk} (h : a.length = b.length) :
    zipWith (· ^^^ ·) (zipWith (· ^^^ ·) a b) b = a := by
  induction a generalizing b with
  | nil => rfl
  | cons x a ih =>
    cases b with
    | nil => cases h
    | cons y b =>
      rw [zipWith_cons_cons, zipWith_cons_cons, ih (Nat.succ.inj h), UInt8.xor_assoc,
        UInt8.xor_self, UInt8.xor_zero]

@[simp] theorem xor_xor_cancel (a b : Bytes size) : xor (xor a b) b = a :=
  Subtype.ext (zipWith_xor_cancel (a.2.trans b.2.symm))

/-- What was combined with bytes of an array is found again with them. -/
theorem xorData_xorData {count offset1 offset2 : Nat} (a : Bytes left) (b : Bytes right)
    (h1 : offset1 + count ≤ left) (h2 : offset2 + count ≤ right) (h : 0 + count ≤ count) :
    (xorData count (xorData count a b offset1 offset2 h1 h2) b 0 offset2 h h2).val =
      (a.val.drop offset1).take count := by
  rw [xorData, xor]
  have hlen : (xorData count a b offset1 offset2 h1 h2).val.length = count :=
    (xorData count a b offset1 offset2 h1 h2).2
  change zipWith _ (((xorData count a b offset1 offset2 h1 h2).val.drop 0).take count) _ = _
  rw [drop_zero, take_of_length_le (le_of_eq hlen)]
  apply zipWith_xor_cancel
  rw [length_take, length_take, length_drop, length_drop, a.2, b.2]
  omega

/-- Bytes of the combination are the combination of the bytes. -/
theorem val_xorData {count offset : Nat} (a b : Bytes size) (h : offset + count ≤ size) :
    (xorData count a b offset offset h h).val = ((xor a b).val.drop offset).take count := by
  rw [xor, drop_zipWith, take_zipWith]
  rfl

/-- Arrays are combined by their halves. -/
theorem splice_xorData {half : Nat} (a b : Bytes (half + half)) (h1 : 0 + half ≤ half + half)
    (h2 : half + half ≤ half + half) :
    (xorData half a b 0 0 h1 h1).splice (xorData half a b half half h2 h2) = xor a b := by
  have hrest : ((xor a b).val.drop half).take half = (xor a b).val.drop half := by
    apply take_of_length_le
    rw [List.length_drop, (xor a b).2, Nat.add_sub_cancel]
  apply Subtype.ext
  change (xorData half a b 0 0 h1 h1).val ++ (xorData half a b half half h2 h2).val = (xor a b).val
  rw [val_xorData, val_xorData, drop_zero, hrest, take_append_drop]

/-- All bytes are combined. -/
theorem xorData_zero (a b : Bytes size) (h : 0 + size ≤ size) :
    xorData size a b 0 0 h h = xor a b := by
  apply Subtype.ext
  rw [val_xorData, drop_zero, take_of_length_le (le_of_eq (xor a b).2)]

theorem split_splice {half : Nat} (a b : Bytes half) : split half (a.splice b) = (a, b) :=
  Prod.ext (Subtype.ext (take_left' a.2)) (Subtype.ext (drop_left' a.2))

theorem splice_split (half : Nat) (bytes : Bytes (half + half)) :
    (split half bytes).1.splice (split half bytes).2 = bytes :=
  Subtype.ext (take_append_drop half bytes.val)

/-- An array is two slices of it. -/
theorem slice_append_slice (middle : Nat) (bytes : Bytes size) (h : middle ≤ size) :
    (bytes.slice 0 middle h).val ++ (bytes.slice middle size (le_refl size)).val = bytes.val := by
  have hrest : (bytes.val.drop middle).take (size - middle) = bytes.val.drop middle := by
    apply take_of_length_le
    rw [length_drop, bytes.2]
  change (bytes.val.drop 0).take (middle - 0) ++ (bytes.val.drop middle).take (size - middle) = _
  rw [hrest, drop_zero, Nat.sub_zero, take_append_drop]

/-- A slice of one byte is that byte. -/
theorem take_one_drop (bytes : Bytes size) {index : Nat} (hsize : index < size) :
    (bytes.val.drop index).take 1 = [bytes.val.getD index 0] := by
  have h : index < bytes.val.length := by rwa [bytes.2]
  rw [drop_eq_getElem_cons h, take_succ_cons, take_zero,
    getD_eq_getElem?_getD, getElem?_eq_getElem h, Option.getD_some]

@[simp] theorem fromBigEndian_toBigEndian (value : UInt32) :
    fromBigEndian (toBigEndian value) = value := by
  rw [fromBigEndian, toBigEndian, reverse_reverse, toNat_ofNat_uint32]

@[simp] theorem toBigEndian_fromBigEndian (bytes : Bytes 4) :
    toBigEndian (fromBigEndian bytes) = bytes := by
  have hlen : bytes.val.reverse.length = 4 := by rw [length_reverse, bytes.2]
  apply Subtype.ext
  change (LittleEndian.ofNat 4 (fromBigEndian bytes).toNat).reverse = bytes.val
  rw [fromBigEndian, ofNat_toNat_uint32 hlen, reverse_reverse]

end Bytes

end BitprimCore
