import BitprimCore.Constants
import BitprimCore.Library.LittleEndian
import Mathlib.Data.List.GetD

/-!
# The serializer

`serializer` writes through an iterator into memory that the caller provides, and reads sizes back
from there (`utility/serializer`). The read of a size in eight bytes runs on into the read of four:
it returns the four bytes that come first and leaves the iterator four bytes behind the size.
-/

namespace BitprimCore

open List

/-- The order of the bytes of a number. -/
inductive ByteOrder
  | big
  | little
  deriving DecidableEq

namespace ByteOrder

/-- The bytes of a number (`to_big_endian`, `to_little_endian`). -/
def toBytes : ByteOrder → Nat → Nat → DataChunk
  | .big, width, value => (LittleEndian.ofNat width value).reverse
  | .little, width, value => LittleEndian.ofNat width value

/-- The number of bytes (`from_big_endian_unsafe`, `from_little_endian_unsafe`). -/
def fromBytes : ByteOrder → DataChunk → Nat
  | .big, bytes => LittleEndian.toNat bytes.reverse
  | .little, bytes => LittleEndian.toNat bytes

variable (order : ByteOrder)

@[simp] theorem length_toBytes (width value : Nat) :
    (order.toBytes width value).length = width := by
  cases order <;> simp [toBytes]

theorem fromBytes_toBytes (width value : Nat) :
    order.fromBytes (order.toBytes width value) = value % 256 ^ width := by
  cases order <;> simp [toBytes, fromBytes, LittleEndian.toNat_ofNat]

theorem fromBytes_lt (bytes : DataChunk) : order.fromBytes bytes < 256 ^ bytes.length := by
  cases order with
  | big => simpa [fromBytes] using LittleEndian.toNat_lt bytes.reverse
  | little => exact LittleEndian.toNat_lt bytes

end ByteOrder

/-- The memory, the address the iterator is at, and whether all reads have succeeded. -/
@[ext]
structure Serializer where
  memory : Nat → UInt8
  iterator : Nat
  valid : Bool := true

namespace Serializer

/-- The bytes of `data` take the place of those behind the iterator. -/
def writeForward (data : DataChunk) (sink : Serializer) : Serializer where
  memory address :=
    if sink.iterator ≤ address ∧ address < sink.iterator + data.length then
      data.getD (address - sink.iterator) 0
    else sink.memory address
  iterator := sink.iterator + data.length
  valid := sink.valid

/-- Writes a byte. -/
def writeByte (value : UInt8) (sink : Serializer) : Serializer := sink.writeForward [value]

variable (order : ByteOrder)

/-- Writes an integer. -/
def writeEndian (width value : Nat) (sink : Serializer) : Serializer :=
  sink.writeForward (order.toBytes width value)

/-- The two orders differ in the bytes of the number only. -/
def writeVariable (value : UInt64) (sink : Serializer) : Serializer :=
  if value.toNat < 0xfd then sink.writeByte (UInt8.ofNat value.toNat)
  else if value.toNat ≤ maxUint16 then (sink.writeByte 0xfd).writeEndian order 2 value.toNat
  else if value.toNat ≤ maxUint32 then (sink.writeByte 0xfe).writeEndian order 4 value.toNat
  else (sink.writeByte 0xff).writeEndian order 8 value.toNat

def writeVariableBigEndian : UInt64 → Serializer → Serializer := writeVariable .big

def writeVariableLittleEndian : UInt64 → Serializer → Serializer := writeVariable .little

def writeSizeBigEndian : UInt64 → Serializer → Serializer := writeVariableBigEndian

def writeSizeLittleEndian : UInt64 → Serializer → Serializer := writeVariableLittleEndian

/-- The bytes from an address on. -/
def bytesAt (sink : Serializer) (address width : Nat) : DataChunk :=
  (List.range width).map fun index => sink.memory (address + index)

/-- The case of eight bytes does not return, so that of four bytes follows it, and the test of the
size behind the cases is never reached. -/
def readSize (sink : Serializer) : Nat × Serializer :=
  let lead := sink.memory sink.iterator
  let start := sink.iterator + 1
  let four (iterator : Nat) : Nat × Serializer :=
    (order.fromBytes (sink.bytesAt start 4), { sink with iterator := iterator + 4 })
  if lead = 0xff then four (start + 8)
  else if lead = 0xfe then four start
  else if lead = 0xfd then
    (order.fromBytes (sink.bytesAt start 2), { sink with iterator := start + 2 })
  else (lead.toNat, { sink with iterator := start })

def readSizeBigEndian : Serializer → Nat × Serializer := readSize .big

def readSizeLittleEndian : Serializer → Nat × Serializer := readSize .little

section

variable (sink : Serializer) {data : DataChunk}

/-- The bytes are found at their places. -/
theorem memory_writeForward {index : Nat} (h : index < data.length) :
    (sink.writeForward data).memory (sink.iterator + index) = data.getD index 0 := by
  have hrange : sink.iterator ≤ sink.iterator + index ∧
      sink.iterator + index < sink.iterator + data.length := by omega
  exact (if_pos hrange).trans (by rw [Nat.add_sub_cancel_left])

/-- All other bytes are left as they are. -/
theorem memory_writeForward_of_not_mem {address : Nat}
    (h : ¬ (sink.iterator ≤ address ∧ address < sink.iterator + data.length)) :
    (sink.writeForward data).memory address = sink.memory address :=
  if_neg h

/-- Bytes are written behind each other. -/
theorem writeForward_writeForward (first second : DataChunk) :
    (sink.writeForward first).writeForward second = sink.writeForward (first ++ second) := by
  refine Serializer.ext (funext fun address => ?_) ?_ rfl
  · by_cases hrange : sink.iterator ≤ address ∧ address < sink.iterator + (first ++ second).length
    · obtain ⟨index, rfl⟩ := Nat.exists_eq_add_of_le hrange.1
      have hidx : index < (first ++ second).length := by omega
      rw [memory_writeForward sink hidx]
      by_cases hfirst : index < first.length
      · rw [memory_writeForward_of_not_mem, memory_writeForward sink hfirst,
          getD_append _ _ _ _ hfirst]
        simp only [writeForward]
        omega
      · obtain ⟨rest, rfl⟩ := Nat.exists_eq_add_of_le (Nat.le_of_not_lt hfirst)
        have hrest : rest < second.length := by simpa using hidx
        have haddress : sink.iterator + (first.length + rest) =
            (sink.writeForward first).iterator + rest := (add_assoc _ _ _).symm
        rw [haddress, memory_writeForward _ hrest, getD_append_right _ _ _ _ (by omega),
          Nat.add_sub_cancel_left]
    · have hlen : (first ++ second).length = first.length + second.length := length_append
      rw [memory_writeForward_of_not_mem sink hrange, memory_writeForward_of_not_mem,
        memory_writeForward_of_not_mem]
      · omega
      · simp only [writeForward]
        omega
  · simp only [writeForward, length_append, add_assoc]

variable (order : ByteOrder)

/-- The encoding of a size: a first byte that tells the width, and the number. -/
def sizeBytes (value : UInt64) : DataChunk :=
  if value.toNat < 0xfd then [UInt8.ofNat value.toNat]
  else if value.toNat ≤ maxUint16 then 0xfd :: order.toBytes 2 value.toNat
  else if value.toNat ≤ maxUint32 then 0xfe :: order.toBytes 4 value.toNat
  else 0xff :: order.toBytes 8 value.toNat

theorem writeVariable_eq (value : UInt64) :
    sink.writeVariable order value = sink.writeForward (sizeBytes order value) := by
  unfold writeVariable sizeBytes
  split_ifs
  · rfl
  · exact writeForward_writeForward sink [0xfd] _
  · exact writeForward_writeForward sink [0xfe] _
  · exact writeForward_writeForward sink [0xff] _

variable {sink}

/-- The serializer with its iterator put back to where the bytes begin. -/
def rewound (sink : Serializer) (data : DataChunk) : Serializer :=
  { sink.writeForward data with iterator := sink.iterator }

theorem bytesAt_rewound {offset width : Nat} (h : offset + width ≤ data.length) :
    (rewound sink data).bytesAt (sink.iterator + offset) width = (data.drop offset).take width := by
  apply ext_getElem
  · simp only [bytesAt, length_map, length_range, length_take, length_drop]
    omega
  · intro index hidx _
    have hwidth : index < width := by simpa [bytesAt] using hidx
    have hdata : offset + index < data.length := by omega
    have hbyte : (rewound sink data).memory (sink.iterator + (offset + index)) =
        data.getD (offset + index) 0 := memory_writeForward sink hdata
    simp only [bytesAt, getElem_map, getElem_range, getElem_take, getElem_drop, add_assoc]
    rw [hbyte, getD_eq_getElem _ _ hdata]

theorem memory_rewound (lead : UInt8) (data : DataChunk) :
    (rewound sink (lead :: data)).memory sink.iterator = lead := by
  have hlen : 0 < (lead :: data).length := Nat.succ_pos data.length
  exact memory_writeForward sink hlen

/-- A number is read behind the byte that tells its width. -/
theorem fromBytes_bytesAt_rewound (lead : UInt8) {width value : Nat} (h : value < 256 ^ width) :
    order.fromBytes ((rewound sink (lead :: order.toBytes width value)).bytesAt
      (sink.iterator + 1) width) = value := by
  have hlen : 1 + width ≤ (lead :: order.toBytes width value).length := by
    rw [length_cons, ByteOrder.length_toBytes, add_comm]
  have htake : (order.toBytes width value).take width = order.toBytes width value :=
    take_of_length_le (le_of_eq (order.length_toBytes width value))
  rw [bytesAt_rewound hlen, drop_succ_cons, drop_zero, htake,
    ByteOrder.fromBytes_toBytes, Nat.mod_eq_of_lt h]

end

section

variable (sink : Serializer) (order : ByteOrder)

theorem readSize_of_byte {lead : UInt8} (h : lead.toNat < 0xfd) :
    (rewound sink [lead]).readSize order = (lead.toNat, sink.writeForward [lead]) := by
  have hlead : (rewound sink [lead]).memory (rewound sink [lead]).iterator = lead :=
    memory_rewound lead []
  have hne : ∀ other : UInt8, 0xfd ≤ other.toNat → lead ≠ other := by
    rintro other hother rfl
    omega
  unfold readSize
  rw [hlead, if_neg (hne 0xff (by decide)), if_neg (hne 0xfe (by decide)),
    if_neg (hne 0xfd (by decide))]
  rfl

/-- A number is read back if the first byte makes the reader take as many bytes as it has. -/
theorem readSize_of_width {lead : UInt8} {width value : Nat} (h : value < 256 ^ width)
    (hread : ∀ source : Serializer, source.memory source.iterator = lead →
      source.readSize order = (order.fromBytes (source.bytesAt (source.iterator + 1) width),
        { source with iterator := source.iterator + 1 + width })) :
    (rewound sink (lead :: order.toBytes width value)).readSize order =
      (value, sink.writeForward (lead :: order.toBytes width value)) := by
  rw [hread _ (memory_rewound lead _)]
  refine Prod.ext (fromBytes_bytesAt_rewound order lead h) (Serializer.ext rfl ?_ rfl)
  change sink.iterator + 1 + width = sink.iterator + (lead :: order.toBytes width value).length
  rw [length_cons, ByteOrder.length_toBytes, add_assoc, add_comm 1 width]

/-- Of eight bytes the first four are returned and twelve are passed. -/
theorem readSize_of_eight (data : DataChunk) :
    ((rewound sink (0xff :: data)).readSize order).1 < 256 ^ 4 ∧
      ((rewound sink (0xff :: data)).readSize order).2.iterator = sink.iterator + 13 := by
  have hlead : (rewound sink (0xff :: data)).memory (rewound sink (0xff :: data)).iterator = 0xff :=
    memory_rewound 0xff data
  unfold readSize
  rw [hlead]
  refine ⟨?_, rfl⟩
  have hlt := order.fromBytes_lt
    ((rewound sink (0xff :: data)).bytesAt ((rewound sink (0xff :: data)).iterator + 1) 4)
  rwa [bytesAt, length_map, length_range] at hlt

theorem readSize_writeVariable_iff (size : UInt64) :
    readSize order { sink.writeVariable order size with iterator := sink.iterator } =
        (size.toNat, sink.writeVariable order size) ↔
      size.toNat ≤ maxUint32 := by
  rw [writeVariable_eq]
  change (rewound sink (sizeBytes order size)).readSize order = _ ↔ _
  unfold sizeBytes maxUint16 maxUint32
  split_ifs with hone htwo hfour
  · have hbyte : (UInt8.ofNat size.toNat).toNat = size.toNat :=
      UInt8.toNat_ofNat_of_lt' (lt_trans hone (by decide))
    have hread := readSize_of_byte sink order (hbyte ▸ hone)
    rw [hbyte] at hread
    exact iff_of_true hread (by omega)
  · refine iff_of_true (readSize_of_width sink order (by omega) fun source hlead => ?_) (by omega)
    unfold readSize
    rw [hlead]
    rfl
  · refine iff_of_true (readSize_of_width sink order (by omega) fun source hlead => ?_) hfour
    unfold readSize
    rw [hlead]
    rfl
  · refine iff_of_false (fun hread => ?_) hfour
    have hlt := (readSize_of_eight sink order (order.toBytes 8 size.toNat)).1
    rw [hread] at hlt
    exact hfour (Nat.le_of_lt_succ hlt)

/-- A size is read back, and the iterator left behind it, exactly if it is written in at most four
bytes. -/
theorem readSize_writeSize_iff (size : UInt64) (sink : Serializer) :
    (readSizeBigEndian { sink.writeSizeBigEndian size with iterator := sink.iterator } =
        (size.toNat, sink.writeSizeBigEndian size) ↔ size.toNat ≤ maxUint32) ∧
      (readSizeLittleEndian { sink.writeSizeLittleEndian size with iterator := sink.iterator } =
        (size.toNat, sink.writeSizeLittleEndian size) ↔ size.toNat ≤ maxUint32) :=
  ⟨readSize_writeVariable_iff sink .big size, readSize_writeVariable_iff sink .little size⟩

/-- The least size that takes eight bytes is read as zero, and thirteen bytes are passed of the nine
that were written. -/
theorem readSize_writeSize_pow_32 :
    let sink : Serializer := { memory := fun _ => 0, iterator := 0 }
    let written := sink.writeSizeLittleEndian 0x100000000
    written.iterator = 9 ∧
      (readSizeLittleEndian { written with iterator := 0 }).1 = 0 ∧
      (readSizeLittleEndian { written with iterator := 0 }).2.iterator = 13 ∧
      readSizeLittleEndian { written with iterator := 0 } ≠ (0x100000000, written) := by
  refine ⟨by decide, by decide, by decide, fun hread => ?_⟩
  have hvalue := congrArg Prod.fst hread
  revert hvalue
  decide

end

end Serializer

end BitprimCore
