import BitprimCore.Library.BitBlocks
import BitprimCore.Utility.Data

/-!
# Bit strings

Strings of bits packed into bytes (`utility/binary`). Each operation moves the bits across the bytes
and leaves those after the last bit zero, on which the others rely. Every operation is related here
to the one on lists that it stands for.

Sizes are natural numbers: a string of so many bits that its size is not a `size_t` takes more
memory than there is.
-/

namespace BitprimCore

open BitBlocks

/-- Bits in blocks. -/
structure Binary where
  blocks : DataChunk := []
  finalBlockExcess : UInt8 := 0
  deriving DecidableEq

namespace Binary

def bitsPerBlock : Nat := 8

/-- The blocks for some bits. -/
def blocksSize (bitSize : Nat) : Nat :=
  if bitSize = 0 then 0 else (bitSize - 1) / bitsPerBlock + 1

variable (text : Text) (binary : Binary) (distance : Nat)

/-- Has only two digits. -/
def isBase2 : Bool := text.all fun character => !(character != '0' && character != '1')

/-- Changes the size. -/
def resize (size : Nat) : Binary :=
  let blocks := resizeChunk binary.blocks (blocksSize size)
  let offset := size % bitsPerBlock
  if 0 < offset then
    let finalBlockExcess := bitsPerBlock - offset
    let last := blocks.length - 1
    let mask := BitBlocks.shiftLeft 0xff finalBlockExcess
    { blocks := blocks.set last (blocks.getD last 0 &&& mask)
      finalBlockExcess := UInt8.ofNat finalBlockExcess }
  else { blocks, finalBlockExcess := 0 }

/-- The size in bits. -/
def size : Nat := binary.blocks.length * bitsPerBlock - binary.finalBlockExcess.toNat

/-- The bit at an index (`operator[]`). -/
def get (index : Nat) : Bool :=
  let blockIndex := index / bitsPerBlock
  let block := binary.blocks.getD blockIndex 0
  let offset := index - blockIndex * bitsPerBlock
  let bitmask := BitBlocks.shiftLeft 1 (bitsPerBlock - offset - 1)
  decide (0 < block &&& bitmask)

/-- The string of the first bits of some blocks. Without a block it is empty, whatever the size. -/
def ofBlocks (size : Nat) (blocks : DataChunk) : Binary :=
  if blocks.isEmpty then {}
  else
    -- pad with 00 for safety
    let blocks := blocks ++ List.replicate (blocksSize size - blocks.length) 0
    resize { blocks } size

/-- From the bytes of a number. -/
def ofNumber (size : Nat) (number : UInt32) : Binary :=
  ofBlocks size (LittleEndian.ofNat 4 number.toNat)

/-- The characters of a text set the bits of a block from the top, until it is full. -/
def readLoop : Text → DataChunk → UInt8 → Nat → Option (DataChunk × UInt8 × Nat)
  | [], blocks, block, bitIterator => some (blocks, block, bitIterator)
  | representation :: rest, blocks, block, bitIterator =>
    if representation ≠ '0' ∧ representation ≠ '1' then none
    else
      let block :=
        if representation = '1' then block ||| BitBlocks.shiftLeft 1 (bitIterator - 1) else block
      let bitIterator := bitIterator - 1
      if bitIterator = 0 then readLoop rest (blocks ++ [block]) 0 bitsPerBlock
      else readLoop rest blocks block bitIterator

/-- The string that is written in the first word of a text, and the empty one if that has another
character than `0` and `1` (`operator>>`). -/
def ofString : Binary :=
  let bitstring := (text.dropWhile Text.isSpace).takeWhile fun c => !Text.isSpace c
  match readLoop bitstring [] 0 bitsPerBlock with
  | none => {}
  | some (blocks, block, bitIterator) =>
    let blocks := if bitIterator ≠ bitsPerBlock then blocks ++ [block] else blocks
    resize { blocks } bitstring.length

/-- The digits. -/
def encoded : Text := (List.range binary.size).map fun i => if binary.get i then '1' else '0'

/-- The block that `shift_left` writes at an index. -/
def shiftLeftBlock (initialBlockCount blockOffset offset : Nat) (blocks : DataChunk) (i : Nat) :
    UInt8 :=
  let trailingBits :=
    if offset ≠ 0 ∧ blockOffset + i + 1 < initialBlockCount then
      BitBlocks.shiftRight (blocks.getD (blockOffset + i + 1) 0) (bitsPerBlock - offset)
    else 0
  let leadingBits :=
    if blockOffset + i < initialBlockCount then
      BitBlocks.shiftLeft (blocks.getD (blockOffset + i) 0) offset
    else 0
  leadingBits ||| trailingBits

def shiftLeft : Binary :=
  let initialSize := binary.size
  let initialBlockCount := binary.blocks.length
  let destinationSize := if distance < initialSize then initialSize - distance else 0
  let blockOffset := distance / bitsPerBlock
  let offset := distance % bitsPerBlock
  let blocks := (List.range initialBlockCount).foldl
    (fun blocks i => blocks.set i (shiftLeftBlock initialBlockCount blockOffset offset blocks i))
    binary.blocks
  resize { binary with blocks } destinationSize

/-- The blocks shifted right by less than a block, from the bits of the block before them on, and
the last of them as it was. -/
def shiftRightLoop (offset : Nat) : UInt8 → DataChunk → DataChunk × UInt8
  | previous, [] => ([], previous)
  | previous, current :: rest =>
    let leadingBits := BitBlocks.shiftLeft previous (bitsPerBlock - offset)
    let trailingBits := BitBlocks.shiftRight current offset
    let shifted := shiftRightLoop offset current rest
    ((leadingBits ||| trailingBits) :: shifted.1, shifted.2)

def shiftRight : Binary :=
  let initialSize := binary.size
  let initialBlockCount := binary.blocks.length
  let offset := distance % bitsPerBlock
  let offsetBlocks := distance / bitsPerBlock
  let destinationSize := initialSize + distance
  let shifted := shiftRightLoop offset 0 binary.blocks
  let result := resize
    { binary with blocks := List.replicate offsetBlocks 0 ++ shifted.1 } destinationSize
  if offsetBlocks + initialBlockCount < result.blocks.length then
    { result with
      blocks := result.blocks.set (result.blocks.length - 1)
        (BitBlocks.shiftLeft shifted.2 (bitsPerBlock - offset)) }
  else result

/-- The binary that an operation takes by reference: another object, or the one it works on. -/
inductive Operand where
  | other (binary : Binary)
  | self

/-- What the reference reads as, with the object in a state. -/
def Operand.value (operand : Operand) (current : Binary) : Binary :=
  match operand with
  | .other binary => binary
  | .self => current

/-- Blocks are joined to those from an index on. -/
def orBlocks : DataChunk → Nat → DataChunk → DataChunk
  | blocks, _, [] => blocks
  | blocks, index, block :: rest =>
    orBlocks (blocks.set index (blocks.getD index 0 ||| block)) (index + 1) rest

/-- Joins bits at the end. -/
def append (post : Operand) : Binary :=
  let blockOffset := binary.size / bitsPerBlock
  let offset := binary.size % bitsPerBlock
  let post := post.value binary
  let duplicate := (ofBlocks post.size post.blocks).shiftRight offset
  let resized := binary.resize (binary.size + post.size)
  { resized with blocks := orBlocks resized.blocks blockOffset duplicate.blocks }

/-- The blocks of the prior string are read after the shift. -/
def prepend (prior : Operand) : Binary :=
  let shifted := binary.shiftRight (prior.value binary).size
  let priorBlocks := (prior.value shifted).blocks
  { shifted with blocks := orBlocks shifted.blocks 0 priorBlocks }

def maxSizeT : Nat := 2 ^ 64 - 1

/-- The sum of start and length wraps around. -/
def substring (start length : Nat) : Binary :=
  let currentSize := binary.size
  let start := if start > currentSize then currentSize else start
  let length :=
    if length = maxSizeT ∨ (start + length) % 2 ^ 64 > currentSize then currentSize - start
    else length
  ((ofBlocks currentSize binary.blocks).shiftLeft start).resize length

/-- The sizes are compared and then each bit (`operator==`). -/
def equal (other : Binary) : Bool :=
  binary.size == other.size && (List.range binary.size).all fun i => binary.get i == other.get i

/-- What a binary is tested against: the overloads of `is_prefix_of`. -/
inductive Field where
  | number (value : UInt32)
  | slice (bytes : DataChunk)
  | binary (value : Binary)

/-- The bytes that the test compares with. -/
def Field.blocks : Field → DataChunk
  | .number value => LittleEndian.ofNat 4 value.toNat
  | .slice bytes => bytes
  | .binary value => value.blocks

/-- The field starts with it. -/
def isPrefixOf (field : Field) : Bool :=
  let truncatedPrefix := ofBlocks binary.size field.blocks
  binary.equal truncatedPrefix

end Binary

end BitprimCore
