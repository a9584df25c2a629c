import BitprimCore.Error
import BitprimCore.Machine.Program

/-!
# Operation handlers that read no constant register

The handlers of `interpreter.ipp` that only work on the stacks. They take a program to a result
code and the program they leave behind; by their type they cannot depend on the active forks.

## Implementation notes

Handlers of one shape are one definition with parameters, and each handler is that definition at
its own values. A handler with a shape of its own keeps its own body.
-/

namespace BitprimCore

open Number

/-- A result code and the program left behind; `none` is a violated precondition. -/
abbrev Outcome := Option (ErrorCode × Program)

/-- What an opcode does. -/
abbrev Handler := Program → Outcome

namespace Interpreter

variable (p : Program)

/-- The stack encoding of a truth value. -/
def boolData (value : Bool) : DataChunk := if value then [positive1] else []

/-- Fail on a stack of fewer than `count` elements, else rearrange it. -/
def guarded (count : Nat) (failure : ErrorCode) (body : Program → Option Program) : Handler :=
  fun p =>
    if p.size < count then some (failure, p)
    else (body p).map fun p => (.success, p)

variable (failure : ErrorCode)

/-- Open a condition on the top of the stack, or on nothing in a branch that is not taken. -/
def openCondition (test : Bool → Bool) : Handler := fun p =>
  if p.succeeded then
    if p.isEmpty then some (failure, p)
    else do
      let value ← p.stackTrue false
      let (_, p) ← p.pop
      return (.success, p.open_ (test value))
  else some (.success, p.open_ false)

/-- Replace the number at the top. -/
def unaryNumber (result : Int → DataChunk) : Handler := fun p => do
  let (number, p) ← p.popNumber maxNumberSize
  match number with
  | none => return (failure, p)
  | some number => return (.success, p.pushMove (result number))

/-- Replace the two numbers at the top; the first argument is the topmost. -/
def binaryNumber (result : Int → Int → DataChunk) : Handler := fun p => do
  let (numbers, p) ← p.popBinary
  match numbers with
  | none => return (failure, p)
  | some (first, second) => return (.success, p.pushMove (result first second))

/-- Replace the top by its hash. -/
def hashTop (hash : DataChunk → DataChunk) : Handler :=
  guarded 1 failure fun p => do
    let (top, p) ← p.pop
    return p.pushMove (hash top)

/-- Does nothing. -/
def opNop : Handler := fun p => some (.success, p)

/-- Fails. -/
def opDisabled : Handler := fun p => some (.opDisabled, p)

/-- Fails. -/
def opReserved : Handler := fun p => some (.opReserved, p)

/-- Pushes a number. -/
def opPushNumber (value : UInt8) : Handler := fun p => some (.success, p.pushMove [value])

/-- A push by its opcode. -/
def opPushSize (op : Operation) : Handler := fun p =>
  if op.data.length > 75 then some (.opPushSize, p) else some (.success, p.pushMove op.data)

/-- Pushes data with its size. -/
def opPushData (data : DataChunk) (sizeLimit : Nat) : Handler := fun p =>
  if data.length > sizeLimit then some (.opPushData, p) else some (.success, p.pushMove data)

/-- Opens a branch. -/
def opIf : Handler := openCondition .opIf id

/-- Opens a negated branch. -/
def opNotif : Handler := openCondition .opNotif not

/-- Needs an open branch. -/
def opElse : Outcome :=
  if p.closed then some (.opElse, p) else p.negate.map fun p => (.success, p)

/-- Closes a branch. -/
def opEndif : Outcome :=
  if p.closed then some (.opEndif, p) else p.close.map fun p => (.success, p)

/-- Pops a true element. -/
def opVerify : Outcome :=
  if p.isEmpty then some (.opVerify1, p)
  else do
    let value ← p.stackTrue false
    if !value then return (.opVerify2, p)
    else
      let (_, p) ← p.pop
      return (.success, p)

/-- Fails. -/
def opReturn : Handler := fun p => some (.opReturn, p)

/-- Moves an element away. -/
def opToAltStack : Handler := guarded 1 .opToAltStack fun p => do
  let (item, p) ← p.pop
  return p.pushAlternate item

/-- Moves an element back. -/
def opFromAltStack : Outcome :=
  if p.emptyAlternate then some (.opFromAltStack, p)
  else do
    let (item, p) ← p.popAlternate
    return (.success, p.pushMove item)

/-- Drops two. -/
def opDrop2 : Handler := guarded 2 .opDrop2 fun p => do
  let (_, p) ← p.pop
  let (_, p) ← p.pop
  return p

/-- Copies two. -/
def opDup2 : Handler := guarded 2 .opDup2 fun p => do
  let item1 ← p.item 1
  let item0 ← p.item 0
  return (p.pushMove item1).pushMove item0

/-- Copies three. -/
def opDup3 : Handler := guarded 3 .opDup3 fun p => do
  let item2 ← p.item 2
  let item1 ← p.item 1
  let item0 ← p.item 0
  return ((p.pushMove item2).pushMove item1).pushMove item0

/-- Copies the next two. -/
def opOver2 : Handler := guarded 4 .opOver2 fun p => do
  let item3 ← p.item 3
  let item2 ← p.item 2
  return (p.pushMove item3).pushMove item2

/-- Moves the third pair up. -/
def opRot2 : Handler := guarded 6 .opRot2 fun p => do
  let copy5 ← p.item 5
  let copy4 ← p.item 4
  let p ← p.eraseRange 5 4
  return (p.pushMove copy5).pushMove copy4

/-- Swaps two pairs. -/
def opSwap2 : Handler := guarded 4 .opSwap2 fun p => do
  let p ← p.swap 3 1
  p.swap 2 0

/-- Copies what is true. -/
def opIfDup : Handler := guarded 1 .opIfDup fun p => do
  let value ← p.stackTrue false
  if value then p.duplicate 0 else return p

/-- Pushes the stack size. -/
def opDepth : Handler := fun p => some (.success, p.pushMove (data p.size))

/-- Drops one. -/
def opDrop : Handler := guarded 1 .opDrop fun p => do
  let (_, p) ← p.pop
  return p

/-- Copies the top. -/
def opDup : Handler := guarded 1 .opDup fun p => p.duplicate 0

/-- Drops the second. -/
def opNip : Handler := guarded 2 .opNip fun p => p.erase 1

/-- Copies the second. -/
def opOver : Handler := guarded 2 .opOver fun p => p.duplicate 1

/-- Copies an element up. -/
def opPick : Outcome := do
  let (position, p) ← p.popPosition
  match position with
  | none => return (.opPick, p)
  | some position =>
    let item ← p.item position
    return (.success, p.pushMove item)

/-- Moves an element up. -/
def opRoll : Outcome := do
  let (position, p) ← p.popPosition
  match position with
  | none => return (.opRoll, p)
  | some position =>
    let copy ← p.item position
    let p ← p.erase position
    return (.success, p.pushMove copy)

/-- Moves the third up. -/
def opRot : Handler := guarded 3 .opRot fun p => do
  let p ← p.swap 2 1
  p.swap 1 0

/-- Swaps two. -/
def opSwap : Handler := guarded 2 .opSwap fun p => p.swap 1 0

/-- Copies the top down. -/
def opTuck : Handler := guarded 2 .opTuck fun p => do
  let (first, p) ← p.pop
  let (second, p) ← p.pop
  return ((p.pushMove first).pushMove second).pushMove first

/-- Pushes the element size. -/
def opSize : Handler := guarded 1 .opSize fun p => do
  let (top, p) ← p.pop
  return (p.pushMove top).pushMove (data top.length)

/-- Compares bytes. -/
def opEqual : Handler := guarded 2 .opEqual fun p => do
  let (first, p) ← p.pop
  let (second, p) ← p.pop
  return p.push (first == second)

/-- The elements must be equal. -/
def opEqualVerify : Outcome :=
  if p.size < 2 then some (.opEqualVerify1, p)
  else do
    let (first, p) ← p.pop
    let (second, p) ← p.pop
    return (if first = second then .success else .opEqualVerify2, p)

def opAdd1 : Handler := unaryNumber .opAdd1 fun number => data (number + 1)

def opSub1 : Handler := unaryNumber .opSub1 fun number => data (number - 1)

def opNegate : Handler := unaryNumber .opNegate fun number => data (-number)

/-- The absolute value. -/
def opAbs : Handler := unaryNumber .opAbs fun number => data
    (if number < 0 then -number else number)

/-- Tests for zero. -/
def opNot : Handler := unaryNumber .opNot fun number => boolData (number == 0)

/-- Tests for no zero. -/
def opNonzero : Handler := unaryNumber .opNonzero fun number => boolData (number != 0)

def opAdd : Handler := binaryNumber .opAdd fun first second => data (first + second)

/-- Takes the top away. -/
def opSub : Handler := binaryNumber .opSub fun first second => data (second - first)

def opBoolAnd : Handler := binaryNumber .opBoolAnd fun first second =>
  boolData (first != 0 && second != 0)

def opBoolOr : Handler := binaryNumber .opBoolOr fun first second =>
  boolData (first != 0 || second != 0)

def opNumEqual : Handler := binaryNumber .opNumEqual fun first second => boolData (first == second)

def opNumNotEqual : Handler := binaryNumber .opNumNotEqual fun first second =>
  boolData (first != second)

def opLessThan : Handler := binaryNumber .opLessThan fun first second => boolData (second < first)

def opGreaterThan : Handler := binaryNumber .opGreaterThan fun first second =>
  boolData (second > first)

def opLessThanOrEqual : Handler := binaryNumber .opLessThanOrEqual fun first second =>
  boolData (second ≤ first)

def opGreaterThanOrEqual : Handler := binaryNumber .opGreaterThanOrEqual fun first second =>
  boolData (second ≥ first)

def opMin : Handler := binaryNumber .opMin fun first second =>
  data (if second < first then second else first)

def opMax : Handler := binaryNumber .opMax fun first second =>
  data (if second > first then second else first)

/-- The numbers must be equal. -/
def opNumEqualVerify : Outcome := do
  let (numbers, p) ← p.popBinary
  match numbers with
  | none => return (.opNumEqualVerify1, p)
  | some (first, second) =>
    return (if first = second then .success else .opNumEqualVerify2, p)

/-- The upper bound is excluded. -/
def opWithin : Outcome := do
  let (numbers, p) ← p.popTernary
  match numbers with
  | none => return (.opWithin, p)
  | some (first, second, third) =>
    return (.success, p.push (second ≤ third && third < first))

section

variable (hashes : Hashes)

def opRipemd160 : Handler := hashTop .opRipemd160 fun data => (hashes.ripemd160Hash data).val

def opSha1 : Handler := hashTop .opSha1 fun data => (hashes.sha1Hash data).val

def opSha256 : Handler := hashTop .opSha256 fun data => (hashes.sha256Hash data).val

/-- SHA-256, then RIPEMD-160. -/
def opHash160 : Handler := hashTop .opHash160 fun data =>
  (hashes.ripemd160Hash (hashes.sha256Hash data).val).val

/-- SHA-256 twice. -/
def opHash256 : Handler := hashTop .opHash256 fun data =>
  (hashes.sha256Hash (hashes.sha256Hash data).val).val

end

/-- The separator is found by its position among the operations of the script. -/
def opCodeseparator (ops : List Operation) (position : Option Nat) : Outcome :=
  let (found, p) := p.setJumpRegister ops position 1
  some (if found then .success else .opCodeSeperator, p)

end Interpreter

end BitprimCore
