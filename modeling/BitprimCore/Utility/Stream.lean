import BitprimCore.Constants
import BitprimCore.Library.Decoder
import BitprimCore.Library.LittleEndian
import BitprimCore.Library.PrefixCode

/-!
# Byte readers and writers

The parts of `istream_reader` and `ostream_writer` that the chain types use. A reader takes bytes
off the front of its source and fails when there are too few.
-/

namespace BitprimCore

open Decoder LittleEndian PrefixCode

/-- Take `size` bytes off the front (`read_bytes`). -/
def readBytes (size : Nat) (source : DataChunk) : Option (DataChunk × DataChunk) :=
  if source.length < size then none else some (source.take size, source.drop size)

/-- Take a number of `width` bytes off the front (`read_little_endian`). -/
def readLittleEndian (width : Nat) (source : DataChunk) : Option (Nat × DataChunk) :=
  (readBytes width source).map fun (bytes, rest) => (toNat bytes, rest)

/-- Take a variable-length number off the front (`read_variable_little_endian`). Sizes are of 64
bits, so `read_size_little_endian` is the same. -/
def readVariableLittleEndian : DataChunk → Option (Nat × DataChunk)
  | [] => none
  | value :: source =>
    if value = 0xff then readLittleEndian 8 source
    else if value = 0xfe then readLittleEndian 4 source
    else if value = 0xfd then readLittleEndian 2 source
    else some (value.toNat, source)

/-- The variable-length encoding of a count or size (`write_variable_little_endian`). -/
def writeVariableLittleEndian (value : Nat) : DataChunk :=
  if value < 0xfd then ofNat 1 value
  else if value ≤ maxUint16 then 0xfd :: ofNat 2 value
  else if value ≤ maxUint32 then 0xfe :: ofNat 4 value
  else 0xff :: ofNat 8 value

/-- The number of bytes of a variable-length encoding (`variable_uint_size`). -/
def variableUintSize (value : Nat) : Nat :=
  if value < 0xfd then 1
  else if value ≤ maxUint16 then 3
  else if value ≤ maxUint32 then 5
  else 9

variable {value size : Nat}

theorem readBytes_eq_some {source bytes rest : DataChunk}
    (h : readBytes size source = some (bytes, rest)) :
    source = bytes ++ rest ∧ bytes.length = size := by
  unfold readBytes at h
  split at h
  · cases h
  · obtain ⟨rfl, rfl⟩ : source.take size = bytes ∧ source.drop size = rest := by simpa using h
    refine ⟨(List.take_append_drop size source).symm, ?_⟩
    rw [List.length_take]
    omega

/-- Numbers of a fixed width are a prefix code. -/
theorem determines_ofNat (width : Nat) : Determines (fun n => n < 256 ^ width) (ofNat width) id :=
  .of_length width (fun n _ => length_ofNat width n) fun _ _ hm hn => ofNat_injOn hm hn

private theorem ofNat_one_eq {tag : UInt8} {r s : DataChunk} (hval : value < 256)
    (h : ofNat 1 value ++ r = tag :: s) : value = tag.toNat := by
  have hhead : UInt8.ofNat value = tag := (List.cons.inj h).1
  rw [← hhead, UInt8.toNat_ofNat']
  exact (Nat.mod_eq_of_lt hval).symm

/-- The variable-length encoding of counts below `2 ^ 64` is a prefix code. -/
theorem determines_writeVariableLittleEndian :
    Determines (fun n => n < 2 ^ 64) writeVariableLittleEndian id := by
  have hfixed : ∀ {width m n : Nat} {tag : UInt8} {r s : DataChunk}, m < 256 ^ width →
      n < 256 ^ width → tag :: ofNat width m ++ r = tag :: ofNat width n ++ s →
      m = n ∧ r = s := by
    intro width m n tag r s hm hn h
    exact determines_ofNat width hm hn r s (List.cons.inj h).2
  intro m n hm hn r s h
  change m = n ∧ r = s
  unfold writeVariableLittleEndian maxUint16 maxUint32 at h
  -- the first byte tells the four widths apart
  split_ifs at h with hm1 hn1 hn2 hn3 hm2 hn1 hn2 hn3 hm3 hn1 hn2 hn3 hn1 hn2 hn3
  · exact determines_ofNat 1 (by omega) (by omega) r s h
  · have := ofNat_one_eq (by omega) h; simp at this; omega
  · have := ofNat_one_eq (by omega) h; simp at this; omega
  · have := ofNat_one_eq (by omega) h; simp at this; omega
  · have := ofNat_one_eq (by omega) h.symm; simp at this; omega
  · exact hfixed (by omega) (by omega) h
  · simp at h
  · simp at h
  · have := ofNat_one_eq (by omega) h.symm; simp at this; omega
  · simp at h
  · exact hfixed (by omega) (by omega) h
  · simp at h
  · have := ofNat_one_eq (by omega) h.symm; simp at this; omega
  · simp at h
  · simp at h
  · exact hfixed (by omega) (by omega) h

theorem reads_readBytes {bytes : DataChunk} (h : bytes.length = size) :
    Reads (readBytes size) bytes bytes := by
  intro rest
  subst h
  simp [readBytes]

theorem reads_readLittleEndian {width : Nat} (h : value < 256 ^ width) :
    Reads (readLittleEndian width) (ofNat width value) value := by
  intro rest
  rw [readLittleEndian, reads_readBytes (length_ofNat width value)]
  simp only [Option.map_some, toNat_ofNat, Nat.mod_eq_of_lt h]

theorem reads_readVariableLittleEndian (h : value < 2 ^ 64) :
    Reads readVariableLittleEndian (writeVariableLittleEndian value) value := by
  intro rest
  unfold writeVariableLittleEndian maxUint16 maxUint32
  split_ifs with h1 h2 h3
  · have hbyte : (UInt8.ofNat value).toNat = value := UInt8.toNat_ofNat_of_lt' (h1.trans (by decide))
    have hne : ∀ tag : UInt8, 0xfd ≤ tag.toNat → UInt8.ofNat value ≠ tag := by
      intro tag htag heq
      rw [heq] at hbyte
      omega
    simp only [ofNat, List.cons_append, List.nil_append, readVariableLittleEndian,
      if_neg (hne 0xff (by decide)), if_neg (hne 0xfe (by decide)), if_neg (hne 0xfd (by decide)),
      hbyte]
  · exact reads_readLittleEndian (show value < 256 ^ 2 by omega) rest
  · exact reads_readLittleEndian (show value < 256 ^ 4 by omega) rest
  · exact reads_readLittleEndian (show value < 256 ^ 8 by omega) rest

@[simp] theorem length_writeVariableLittleEndian (value : Nat) :
    (writeVariableLittleEndian value).length = variableUintSize value := by
  unfold writeVariableLittleEndian variableUintSize
  split_ifs <;> simp

end BitprimCore
