import BitprimCore.Library.StickyReader
import BitprimCore.Utility.Stream

/-!
# Stream readers

The readers of `istream_reader` as they are: each returns a value also when the stream ends before
it is complete, and sets the state of the stream. On success they read what the readers of
`Utility.Stream` do.
-/

namespace BitprimCore.IstreamReader

open LittleEndian StickyReader List

variable {value : Nat} (width size : Nat)

/-- The size is guaranteed: bytes that do not arrive are zero. -/
def readBytes : Reader UInt8 DataChunk := do
  let bytes ← arrive size
  return bytes ++ List.replicate (size - bytes.length) 0

/-- Bytes that do not arrive count as zero. -/
def readLittleEndian : Reader UInt8 Nat := do
  return toNat (← arrive width)

def readBigEndian : Reader UInt8 Nat := do
  return toNat (← readBytes width).reverse

/-- Bytes of an array, of which the first ones are written. -/
def overwrite {size : Nat} (array : { bytes : DataChunk // bytes.length = size })
    (bytes : DataChunk) : { bytes : DataChunk // bytes.length = size } :=
  ⟨bytes.take size ++ array.val.drop bytes.length, by
    have hlength := array.property
    simp only [List.length_append, List.length_take, List.length_drop]
    omega⟩

/-- An array on the stack, of which bytes that do not arrive are not set. -/
def readForward {size : Nat} (unset : { bytes : DataChunk // bytes.length = size }) :
    Reader UInt8 { bytes : DataChunk // bytes.length = size } := do
  return overwrite unset (← arrive size)

/-- The end of the stream is read as a byte of ones. -/
def readByte : Reader UInt8 UInt8 := do
  return (← arrive 1).headD 0xff

/-- The end of the stream is seen as a byte of ones, and is no failure yet. -/
def peekByte : Reader UInt8 UInt8 := fun source =>
  (if source.failed then 0xff else source.items.headD 0xff, source)

/-- At the end or failed. -/
def isExhausted : Reader UInt8 Bool := fun source =>
  (source.failed || source.items.isEmpty, source)

/-- Sizes are of 64 bits, so `read_size_little_endian` is the same. -/
def readVariableLittleEndian : Reader UInt8 Nat := do
  let value ← readByte
  if value = 0xff then readLittleEndian 8
  else if value = 0xfe then readLittleEndian 4
  else if value = 0xfd then readLittleEndian 2
  else return value.toNat

/-- Characters up to the first null, of a size that is read in full as far as the stream goes. The
end of the stream is no failure. -/
def readStringLoop : Nat → Bool → Reader UInt8 DataChunk
  | 0, _ => return []
  | size + 1, terminated => do
    if ← isExhausted then return []
    else
      let character ← readByte
      let terminated := terminated || character == 0
      let out ← readStringLoop size terminated
      return if terminated then out else character :: out

/-- Reads a sized string. -/
def readString : Reader UInt8 DataChunk := do
  let size ← readVariableLittleEndian
  readStringLoop size false

section

variable (bytes : DataChunk) (size : Nat)

theorem readLittleEndian_after (width : Nat) :
    readLittleEndian width (after bytes size) =
      (toNat ((bytes.drop size).take width), after bytes (size + width)) := by
  rw [readLittleEndian, bind_run, arrive_after]
  rfl

theorem readBytes_after (width : Nat) :
    readBytes width (after bytes size) =
      ((bytes.drop size).take width ++
        replicate (width - ((bytes.drop size).take width).length) 0,
        after bytes (size + width)) := by
  rw [readBytes, bind_run, arrive_after]
  rfl

theorem readBigEndian_after (width : Nat) :
    (readBigEndian width (after bytes size)).2 = after bytes (size + width) := by
  rw [readBigEndian, bind_run, readBytes_after]
  rfl

theorem readForward_after {width : Nat} (unset : { bytes : DataChunk // bytes.length = width }) :
    readForward unset (after bytes size) =
      (overwrite unset ((bytes.drop size).take width), after bytes (size + width)) := by
  rw [readForward, bind_run, arrive_after]
  rfl

end

theorem decodes_arrive : Decodes (arrive size) id (BitprimCore.readBytes size) where
  sticky source hfail := by simp [arrive, hfail]
  reads items result rest hdec := by
    unfold BitprimCore.readBytes at hdec
    split at hdec
    · cases hdec
    · rename_i hsize
      obtain ⟨rfl, rfl⟩ : items.take size = result ∧ items.drop size = rest := by
        simpa using hdec
      exact ⟨items.take size, by simp [arrive, hsize], rfl⟩
  fails items hdec := by
    unfold BitprimCore.readBytes at hdec
    split at hdec
    · rename_i hsize
      simp [arrive, hsize]
    · cases hdec

theorem decodes_readLittleEndian :
    Decodes (readLittleEndian width) id (BitprimCore.readLittleEndian width) :=
  (decodes_arrive width).map fun _ _ _ _ => rfl

/-- On success there is nothing to fill up. -/
theorem decodes_readBytes : Decodes (readBytes size) id (BitprimCore.readBytes size) where
  sticky := (decodes_arrive size).sticky
  reads items result rest hdec := by
    obtain ⟨bytes, hread, rfl⟩ := (decodes_arrive size).reads items result rest hdec
    have hlength : bytes.length = size := (readBytes_eq_some hdec).2
    have hrun : readBytes size ⟨items, false⟩ =
        ((arrive size ⟨items, false⟩).1 ++
          replicate (size - (arrive size ⟨items, false⟩).1.length) 0,
          (arrive size ⟨items, false⟩).2) := rfl
    refine ⟨bytes, ?_, rfl⟩
    rw [hrun, hread]
    simp [hlength]
  fails := (decodes_arrive size).fails

/-- The first byte of a source. -/
def takeByte : DataChunk → Option (UInt8 × DataChunk)
  | [] => none
  | value :: source => some (value, source)

theorem decodes_readByte : Decodes readByte id takeByte where
  sticky := (decodes_arrive 1).sticky
  reads items result rest hdec := by
    cases items with
    | nil => cases hdec
    | cons value source =>
      obtain ⟨rfl, rfl⟩ : value = result ∧ source = rest := by simpa [takeByte] using hdec
      exact ⟨value, rfl, rfl⟩
  fails items hdec := by
    cases items with
    | nil => rfl
    | cons value source => cases hdec

theorem decodes_readVariableLittleEndian :
    Decodes readVariableLittleEndian id BitprimCore.readVariableLittleEndian := by
  have hdec : BitprimCore.readVariableLittleEndian = fun items => takeByte items >>= fun pair =>
      if pair.1 = 0xff then BitprimCore.readLittleEndian 8 pair.2
      else if pair.1 = 0xfe then BitprimCore.readLittleEndian 4 pair.2
      else if pair.1 = 0xfd then BitprimCore.readLittleEndian 2 pair.2
      else some (pair.1.toNat, pair.2) := by
    funext items
    cases items <;> rfl
  rw [hdec]
  refine decodes_readByte.bind fun value => ?_
  simp only [id]
  split_ifs
  · exact decodes_readLittleEndian 8
  · exact decodes_readLittleEndian 4
  · exact decodes_readLittleEndian 2
  · exact decodes_pure rfl

theorem takes_readLittleEndian {width : Nat} (h : value < 256 ^ width) :
    Takes (readLittleEndian width) (ofNat width value) value :=
  (decodes_readLittleEndian width).takes (reads_readLittleEndian h)

theorem takes_readBytes (bytes : DataChunk) : Takes (readBytes bytes.length) bytes bytes :=
  (decodes_readBytes bytes.length).takes (reads_readBytes rfl)

theorem takes_readBigEndian {width : Nat} (h : value < 256 ^ width) :
    Takes (readBigEndian width) (ofNat width value).reverse value := by
  have hbytes := takes_readBytes (ofNat width value).reverse
  rw [length_reverse, length_ofNat] at hbytes
  have hval := hbytes.map fun bytes => toNat bytes.reverse
  rwa [reverse_reverse, toNat_ofNat, Nat.mod_eq_of_lt h] at hval

theorem takes_readVariableLittleEndian (h : value < 2 ^ 64) :
    Takes readVariableLittleEndian (writeVariableLittleEndian value) value :=
  decodes_readVariableLittleEndian.takes (reads_readVariableLittleEndian h)

theorem takes_readStringLoop {bytes : DataChunk} (h : (0 : UInt8) ∉ bytes) :
    Takes (readStringLoop bytes.length false) bytes bytes := by
  induction bytes with
  | nil => exact takes_pure []
  | cons character bytes ih =>
    rw [mem_cons, not_or] at h
    intro rest
    have hne : (character == 0) = false := beq_false_of_ne (Ne.symm h.1)
    have hrun : readStringLoop (bytes.length + 1) false ⟨character :: (bytes ++ rest), false⟩ =
        ((if character == 0 then (readStringLoop bytes.length (character == 0) ⟨bytes ++ rest, false⟩).1
          else character :: (readStringLoop bytes.length (character == 0) ⟨bytes ++ rest, false⟩).1),
          (readStringLoop bytes.length (character == 0) ⟨bytes ++ rest, false⟩).2) := rfl
    rw [length_cons, cons_append, hrun, hne, ih h.2]
    rfl

/-- A string without nulls is read back. -/
theorem takes_readString {bytes : DataChunk} (h : (0 : UInt8) ∉ bytes)
    (hsize : bytes.length < 2 ^ 64) :
    Takes readString (writeVariableLittleEndian bytes.length ++ bytes) bytes :=
  (takes_readVariableLittleEndian hsize).bind (takes_readStringLoop h)

end BitprimCore.IstreamReader
