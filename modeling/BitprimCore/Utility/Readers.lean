import BitprimCore.Library.Interchange
import BitprimCore.Utility.Data

/-!
# The two readers

The interface of a reader (`utility/reader`) and what implements it: a reader of a stream
(`utility/istream_reader`) and a reader of a range of memory with bounds checks
(`utility/deserializer`). Unlike in `Utility.IstreamReader` the stream is given with the two flags
of its state, since a look at the end of a stream sets one of them and a second look then sets the
other.

Memory is not modelled: a size that cannot be allocated throws in both readers.
-/

namespace BitprimCore

/-- The state of a `std::istream` over bytes. -/
structure Istream where
  remaining : DataChunk
  eofbit : Bool := false
  failbit : Bool := false
  deriving DecidableEq

namespace Istream

/-- The next byte without taking it (`peek`). The end sets `eofbit`, and a stream in any other
state than good is not looked at and fails. -/
def peek (stream : Istream) : Option UInt8 × Istream :=
  if stream.eofbit || stream.failbit then (none, { stream with failbit := true })
  else
    match stream.remaining with
    | [] => (none, { stream with eofbit := true })
    | byte :: _ => (some byte, stream)

/-- The next byte (`get`). -/
def get (stream : Istream) : Option UInt8 × Istream :=
  if stream.eofbit || stream.failbit then (none, { stream with failbit := true })
  else
    match stream.remaining with
    | [] => (none, { stream with eofbit := true, failbit := true })
    | byte :: rest => (some byte, { stream with remaining := rest })

/-- The bytes of a block that arrive (`read`). -/
def read (size : Nat) (stream : Istream) : DataChunk × Istream :=
  if stream.eofbit || stream.failbit then ([], { stream with failbit := true })
  else if stream.remaining.length < size then
    (stream.remaining, { remaining := [], eofbit := true, failbit := true })
  else (stream.remaining.take size, { stream with remaining := stream.remaining.drop size })

end Istream

/-- The bytes of an integer joined, each at its place. -/
def joinBytes (place : Nat → Nat) : DataChunk → Nat → Nat → Nat
  | [], _, out => out
  | byte :: rest, i, out => joinBytes place rest (i + 1) (out ||| byte.toNat <<< (8 * place i))

def fromLittleEndianUnsafe (bytes : DataChunk) : Nat := joinBytes id bytes 0 0

def fromBigEndianUnsafe (width : Nat) (bytes : DataChunk) : Nat :=
  joinBytes (fun i => width - (i + 1)) bytes 0 0

/-- The same with the bytes of a stream, read one by one until the stream fails. The byte that does
not arrive is zero. -/
def joinStream (place : Nat → Nat) : Nat → Nat → Nat → Istream → Nat × Istream
  | 0, _, out, stream => (out, stream)
  | count + 1, i, out, stream =>
    if stream.failbit then (out, stream)
    else
      let read := stream.read 1
      let value := read.1.headD 0
      joinStream place count (i + 1) (out ||| value.toNat <<< (8 * place i)) read.2

def fromLittleEndianStreamUnsafe (width : Nat) : Istream → Nat × Istream := joinStream id width 0 0

def fromBigEndianStreamUnsafe (width : Nat) : Istream → Nat × Istream :=
  joinStream (fun i => width - (i + 1)) width 0 0

/-- What a reader implements by itself. -/
structure ByteReader (σ : Type) where
  isValid : σ → Bool
  isExhausted : σ → Bool × σ
  invalidate : σ → σ
  readForward : Nat → σ → DataChunk × σ
  readBigEndian : Nat → σ → Nat × σ
  readLittleEndian : Nat → σ → Nat × σ
  peekByte : σ → UInt8 × σ
  readByte : σ → UInt8 × σ
  readAllBytes : σ → DataChunk × σ
  readBytes : Nat → σ → DataChunk × σ
  readString : Nat → σ → DataChunk × σ
  skip : Nat → σ → σ

namespace ByteReader

variable {σ : Type} (reader : ByteReader σ)

/-- A byte, or the integer of the width that it names. Both readers have this for either order of
bytes. -/
def readVariable (readInteger : Nat → σ → Nat × σ) (s : σ) : Nat × σ :=
  let read := reader.readByte s
  if read.1 = 0xff then readInteger 8 read.2
  else if read.1 = 0xfe then readInteger 4 read.2
  else if read.1 = 0xfd then readInteger 2 read.2
  else (read.1.toNat, read.2)

def readVariableBigEndian : σ → Nat × σ := reader.readVariable reader.readBigEndian

def readVariableLittleEndian : σ → Nat × σ := reader.readVariable reader.readLittleEndian

/-- A number that is no size invalidates the reader. -/
def readSize (readNumber : σ → Nat × σ) (s : σ) : Nat × σ :=
  let size := readNumber s
  if size.1 ≤ 2 ^ 64 - 1 then size else (0, reader.invalidate size.2)

def readSizeBigEndian : σ → Nat × σ := reader.readSize reader.readVariableBigEndian

def readSizeLittleEndian : σ → Nat × σ := reader.readSize reader.readVariableLittleEndian

/-- A string after its size. -/
def readSizedString (s : σ) : DataChunk × σ :=
  let size := reader.readSizeLittleEndian s
  reader.readString size.1 size.2

end ByteReader

namespace Istream

variable (stream : Istream)

/-- The end of the stream is a byte of ones. -/
def peekByte : UInt8 × Istream :=
  let next := stream.peek
  (next.1.getD 0xff, next.2)

/-- All ones at the end. -/
def readByte : UInt8 × Istream :=
  let next := stream.get
  (next.1.getD 0xff, next.2)

/-- Peeks for the end. -/
def empty : Bool × Istream :=
  let next := stream.peek
  (next.1.isNone, next.2)

/-- At the end or failed. -/
def isExhausted : Bool × Istream :=
  if stream.failbit then (true, stream) else stream.empty

/-- The loop of `read_bytes` ends at the latest when as many bytes are read as there are. -/
def readAllLoop : Nat → Istream → DataChunk × Istream
  | 0, stream => ([], stream.isExhausted.2)
  | count + 1, stream =>
    let exhausted := stream.isExhausted
    if exhausted.1 then ([], exhausted.2)
    else
      let byte := exhausted.2.readByte
      let rest := readAllLoop count byte.2
      (byte.1 :: rest.1, rest.2)

/-- Reads to the end. -/
def readAllBytes : DataChunk × Istream := readAllLoop stream.remaining.length stream

/-- The size is guaranteed: bytes that do not arrive are zero. -/
def readBytes (size : Nat) (stream : Istream) : DataChunk × Istream :=
  if 0 < size then
    let read := stream.read size
    (read.1 ++ List.replicate (size - read.1.length) 0, read.2)
  else ([], stream)

/-- An array on the stack, of which bytes that do not arrive are as they were. -/
def readForward (unset : (size : Nat) → Bytes size) (size : Nat) (stream : Istream) :
    DataChunk × Istream :=
  let read := stream.read size
  (read.1 ++ (unset size).val.drop read.1.length, read.2)

/-- All characters of the size are read, as far as there are, and those up to a null are kept. -/
def readStringLoop : Nat → Bool → Istream → DataChunk × Istream
  | 0, _, stream => ([], stream)
  | count + 1, terminated, stream =>
    let empty := stream.empty
    if empty.1 then ([], empty.2)
    else
      let character := empty.2.readByte
      let terminated := terminated || character.1 == 0
      let rest := readStringLoop count terminated character.2
      (if terminated then rest.1 else character.1 :: rest.1, rest.2)

/-- The reader of streams. -/
def reader (unset : (size : Nat) → Bytes size) : ByteReader Istream where
  isValid stream := !stream.failbit
  isExhausted := isExhausted
  invalidate stream := { stream with failbit := true }
  readForward := readForward unset
  readBigEndian := fromBigEndianStreamUnsafe
  readLittleEndian := fromLittleEndianStreamUnsafe
  peekByte := peekByte
  readByte := readByte
  readAllBytes := readAllBytes
  readBytes := readBytes
  readString size := readStringLoop size false
  skip size stream := (stream.readBytes size).2

end Istream

/-- The bytes from the iterator to the end, and whether all reads were within them. -/
structure Deserializer where
  remaining : DataChunk
  valid : Bool := true
  deriving DecidableEq

namespace Deserializer

/-- The reader is invalidated unless the size is safe. -/
def require (size : Nat) (source : Deserializer) : Deserializer :=
  if size ≤ source.remaining.length then source else { source with valid := false }

/-- The bytes of a size if it is safe, and the default else. -/
def take {α : Type} (size : Nat) (default : α) (use : DataChunk → α) (source : Deserializer) :
    α × Deserializer :=
  let checked := source.require size
  if checked.valid then
    (use (checked.remaining.take size), { checked with remaining := checked.remaining.drop size })
  else (default, checked)

/-- Does not advance. -/
def peekByte (source : Deserializer) : UInt8 × Deserializer :=
  let checked := source.require 1
  (if checked.valid then checked.remaining.headD 0 else 0, checked)

def readByte : Deserializer → UInt8 × Deserializer := take 1 0 fun bytes => bytes.headD 0

/-- Zeros if there are too few. -/
def readBytes (size : Nat) : Deserializer → DataChunk × Deserializer :=
  take size (List.replicate size 0) id

/-- The reader of memory. -/
def reader : ByteReader Deserializer where
  isValid := valid
  isExhausted source := (!source.valid || source.remaining.length == 0, source)
  invalidate source := { source with valid := false }
  readForward size := take size (List.replicate size 0) id
  readBigEndian width := take width 0 (fromBigEndianUnsafe width)
  readLittleEndian width := take width 0 fromLittleEndianUnsafe
  peekByte := peekByte
  readByte := readByte
  readAllBytes source := source.readBytes source.remaining.length
  readBytes := readBytes
  readString size := take size [] fun bytes => bytes.takeWhile (· != 0)
  skip size source := (take size () (fun _ => ()) source).2

end Deserializer

namespace Readers

/-- The hashes that a reader reads. -/
inductive HashType where
  | long
  | short
  | mini

def HashType.size : HashType → Nat
  | .long => 32
  | .short => 20
  | .mini => 6

/-- The integers of a fixed size. -/
inductive Width where
  | two
  | four
  | eight

def Width.bytes : Width → Nat
  | .two => 2
  | .four => 4
  | .eight => 8

/-- The calls of the interface. -/
inductive Call where
  | isExhausted
  | invalidate
  | readHash (type : HashType)
  | readBigEndian (width : Width)
  | readVariableBigEndian
  | readSizeBigEndian
  | readErrorCode
  | readLittleEndian (width : Width)
  | readVariableLittleEndian
  | readSizeLittleEndian
  | peekByte
  | readByte
  | readAllBytes
  | readBytes (size : Nat)
  | readSizedString
  | readString (size : Nat)
  | skip (size : Nat)

/-- What calls return. -/
inductive Value where
  | nothing
  | flag (value : Bool)
  | number (value : Nat)
  | bytes (value : DataChunk)
  deriving DecidableEq

/-- What is seen of a reader after a call. -/
structure Report where
  valid : Bool
  exhausted : Bool
  deriving DecidableEq

end Readers

namespace ByteReader

open Readers

variable {σ : Type} (reader : ByteReader σ)

/-- Runs a call. -/
def call : Call → σ → Value × σ
  | .isExhausted, s => (reader.isExhausted s).map .flag id
  | .invalidate, s => (.nothing, reader.invalidate s)
  | .readHash type, s => (reader.readForward type.size s).map .bytes id
  | .readBigEndian width, s => (reader.readBigEndian width.bytes s).map .number id
  | .readVariableBigEndian, s => (reader.readVariableBigEndian s).map .number id
  | .readSizeBigEndian, s => (reader.readSizeBigEndian s).map .number id
  | .readErrorCode, s => (reader.readLittleEndian 4 s).map .number id
  | .readLittleEndian width, s => (reader.readLittleEndian width.bytes s).map .number id
  | .readVariableLittleEndian, s => (reader.readVariableLittleEndian s).map .number id
  | .readSizeLittleEndian, s => (reader.readSizeLittleEndian s).map .number id
  | .peekByte, s => (reader.peekByte s).map (fun byte => .number byte.toNat) id
  | .readByte, s => (reader.readByte s).map (fun byte => .number byte.toNat) id
  | .readAllBytes, s => (reader.readAllBytes s).map .bytes id
  | .readBytes size, s => (reader.readBytes size s).map .bytes id
  | .readSizedString, s => (reader.readSizedString s).map .bytes id
  | .readString size, s => (reader.readString size s).map .bytes id
  | .skip size, s => (.nothing, reader.skip size s)

/-- The reader as its callers see it. -/
def machine : Interchange.Machine Call Value Report σ where
  call := reader.call
  report s := ⟨reader.isValid s, (reader.isExhausted s).1⟩

end ByteReader

end BitprimCore
