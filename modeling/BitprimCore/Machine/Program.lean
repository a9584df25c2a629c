import BitprimCore.Chain.Transaction

/-!
# The program: registers and stacks of the script machine

`machine/program` split into its constant registers, the `Context`, and its mutable state, the
`Program`. Stacks are lists with the top first.

## Implementation notes

The accessors that the source says must be guarded are partial: `none` stands for the violated
precondition (an assertion, or undefined behaviour where assertions are compiled out).
-/

namespace BitprimCore

/-- The constant registers of a program. -/
structure Context where
  script : Script
  transaction : Transaction
  inputIndex : UInt32
  forks : UInt32
  value : UInt64
  version : ScriptVersion

/-- The mutable registers and stacks. The count of negative conditions is that of the condition
stack, so that `succeeded` need not walk it. -/
@[ext]
structure Program where
  negativeCount : Nat := 0
  operationCount : Nat := 0
  /-- The operation that the last code separator jumped behind, as a position in the script. -/
  jump : Nat := 0
  primary : List DataChunk := []
  alternate : List DataChunk := []
  condition : List Bool := []
  negativeCount_eq : negativeCount = condition.count false := by simp
  deriving DecidableEq

/-- Is a stack element true? A negative zero is false, and so is a zero of any length. -/
def dataToBool : DataChunk → Bool
  | [] => false
  | byte :: bytes =>
    if byte ≠ 0 then !(bytes.isEmpty && byte == Number.negative0) else dataToBool bytes

namespace Program

variable (p : Program) (clean : Bool) (index : Nat) (stack : List DataChunk) (count : Nat)

/-- A fresh program over a given primary stack. -/
def ofStack : Program where
  primary := stack

def size : Nat := p.primary.length

def isEmpty : Bool := p.primary.isEmpty

/-- The program with another primary stack. -/
def withPrimary : Program := { p with primary := stack }

section

variable (stack stack' : List DataChunk)

@[simp] theorem withPrimary_primary : (p.withPrimary stack).primary = stack := rfl

@[simp] theorem withPrimary_operationCount :
    (p.withPrimary stack).operationCount = p.operationCount := rfl

@[simp] theorem withPrimary_size : (p.withPrimary stack).size = stack.length := rfl

@[simp] theorem withPrimary_withPrimary :
    (p.withPrimary stack).withPrimary stack' = p.withPrimary stack' := rfl

@[simp] theorem withPrimary_self : p.withPrimary p.primary = p := rfl

end

/-- Too many operations. -/
def operationOverflow : Bool := decide (count > maxCountedOps)

/-- The program after some more counted operations. -/
def countOperations : Program :=
  { p with operationCount := p.operationCount + count }

@[simp] theorem countOperations_primary : (p.countOperations count).primary = p.primary := rfl

@[simp] theorem countOperations_operationCount :
    (p.countOperations count).operationCount = p.operationCount + count := rfl

@[simp] theorem countOperations_withPrimary :
    (p.withPrimary stack).countOperations count = (p.countOperations count).withPrimary stack := rfl

/-- Pushes do not count. -/
def incrementOperationCount (op : Operation) : Bool × Program :=
  let p := if op.code.isCounted then p.countOperations 1 else p
  (!operationOverflow p.operationCount, p)

/-- The keys of a multisig are counted as operations. -/
def incrementOperationCountKeys (publicKeys : Int) : Bool × Program :=
  if publicKeys < 0 ∨ publicKeys > maxScriptPublicKeys then (false, p)
  else
    let p := p.countOperations publicKeys.toNat
    (!operationOverflow p.operationCount, p)

/-- Jump behind the operation at a position of the script, if it is one of its operations. -/
def setJumpRegister (ops : List Operation) (position : Option Nat) (offset : Nat) :
    Bool × Program :=
  if ops.isEmpty then (false, p)
  else match position with
    | none => (false, { p with jump := ops.length })
    | some index =>
      if index < ops.length then (true, { p with jump := index + offset })
      else (false, { p with jump := ops.length })

/-- Pushes an element. -/
def pushMove (item : DataChunk) : Program := p.withPrimary (item :: p.primary)

/-- Pushes a truth value. -/
def push (value : Bool) : Program := p.pushMove (if value then [Number.positive1] else [])

/-- This must be guarded. -/
def pop : Option (DataChunk × Program) :=
  match p.primary with
  | [] => none
  | item :: rest => some (item, p.withPrimary rest)

/-- The element is popped even if it is not a number. -/
def popNumber (maximumSize : Nat) : Option (Option Int × Program) :=
  if p.isEmpty then some (none, p)
  else do
    let (item, p) ← p.pop
    return (Number.setData item maximumSize, p)

/-- A number of 32 bits. -/
def popInt32 : Option (Option Int × Program) := do
  let (value, p) ← p.popNumber maxNumberSize
  return (value.map Number.int32, p)

/-- The right hand side number is at the top of the stack. -/
def popBinary : Option (Option (Int × Int) × Program) := do
  let (first, p) ← p.popNumber maxNumberSize
  match first with
  | none => return (none, p)
  | some first =>
    let (second, p) ← p.popNumber maxNumberSize
    return (second.map fun second => (first, second), p)

/-- The upper bound is at stack top, lower bound next, value next. -/
def popTernary : Option (Option (Int × Int × Int) × Program) := do
  let (pair, p) ← p.popBinary
  match pair with
  | none => return (none, p)
  | some (first, second) =>
    let (third, p) ← p.popNumber maxNumberSize
    return (third.map fun third => (first, second, third), p)

/-- Determines if the popped value is a valid post-pop stack index and returns the index. -/
def popPosition : Option (Option Nat × Program) := do
  let (index, p) ← p.popInt32
  match index with
  | none => return (none, p)
  | some index =>
    if index < 0 then return (none, p)
    else if index.toNat ≥ p.size then return (none, p)
    else return (some index.toNat, p)

/-- The top goes first. -/
def popMany : (count : Nat) → Program → Option (List DataChunk × Program)
  | 0, p => some ([], p)
  | count + 1, p => do
    let (item, p) ← p.pop
    let (items, p) ← popMany count p
    return (item :: items, p)

/-- The elements in the order they are popped. -/
def popSection : Option (Option (List DataChunk) × Program) :=
  if p.size < count then some (none, p)
  else do
    let (items, p) ← popMany count p
    return (some items, p)

/-- The element below `index` others; this must be guarded. -/
def item : Option DataChunk := p.primary[index]?

/-- The number at the top. -/
def top (maximumSize : Nat) : Option (Option Int) :=
  if p.isEmpty then some none
  else do
    let item ← p.item 0
    return Number.setData item maximumSize

/-- Copies an element up. -/
def duplicate : Option Program := do
  let item ← p.item index
  return p.pushMove item

/-- Swaps two elements. -/
def swap (indexLeft indexRight : Nat) : Option Program := do
  let left ← p.item indexLeft
  let right ← p.item indexRight
  return p.withPrimary ((p.primary.set indexLeft right).set indexRight left)

/-- Drops an element. -/
def erase : Option Program :=
  if index < p.size then some (p.withPrimary (p.primary.eraseIdx index)) else none

/-- Erase the elements from the lower one at `first` up to the one at `last`. -/
def eraseRange (first last : Nat) : Option Program :=
  if last ≤ first ∧ first < p.size then
    some (p.withPrimary (p.primary.take last ++ p.primary.drop (first + 1)))
  else none

/-- Clean if it is the only one. -/
def stackToBool : Option Bool :=
  if clean && p.size != 1 then some false
  else do
    let back ← p.item 0
    return dataToBool back

/-- This must be guarded. -/
def stackTrue : Option Bool :=
  if p.isEmpty then none else p.stackToBool clean

/-- This is safe to call when empty. -/
def stackResult : Option Bool :=
  if p.isEmpty then some false else p.stackTrue clean

/-- Too many elements. -/
def isStackOverflow : Bool := decide (p.size + p.alternate.length > maxStackSize)

def emptyAlternate : Bool := p.alternate.isEmpty

/-- Pushes an element. -/
def pushAlternate (item : DataChunk) : Program := { p with alternate := item :: p.alternate }

/-- This must be guarded. -/
def popAlternate : Option (DataChunk × Program) :=
  match p.alternate with
  | [] => none
  | item :: rest => some (item, { p with alternate := rest })

/-- Opens a branch. -/
def open_ (value : Bool) : Program :=
  { p with
    negativeCount := p.negativeCount + (if value then 0 else 1)
    condition := value :: p.condition
    negativeCount_eq := by
      have h := p.negativeCount_eq
      cases value <;> simp [h] }

/-- This must be guarded. -/
def negate : Option Program :=
  match hcondition : p.condition with
  | [] => none
  | value :: rest => some
    { p with
      negativeCount := if value then p.negativeCount + 1 else p.negativeCount - 1
      condition := (!value) :: rest
      negativeCount_eq := by
        have h := p.negativeCount_eq
        rw [hcondition] at h
        cases value <;> simp [h] }

/-- This must be guarded. -/
def close : Option Program :=
  match hcondition : p.condition with
  | [] => none
  | value :: rest => some
    { p with
      negativeCount := if value then p.negativeCount else p.negativeCount - 1
      condition := rest
      negativeCount_eq := by
        have h := p.negativeCount_eq
        rw [hcondition] at h
        cases value <;> simp [h] }

/-- No branch is open. -/
def closed : Bool := p.condition.isEmpty

/-- Every branch is taken. -/
def succeeded : Bool := p.negativeCount == 0

/-- Skip the operation if failed and the operator is unconditional. -/
def if_ (op : Operation) : Bool := op.code.isConditional || p.succeeded

/-- The operations from the jump register on. -/
def subscript (ops : List Operation) : List Operation := ops.drop p.jump

/-! ### Specifications

Each guarded access is total: these are the values the interpreter computes with. -/

section

variable {p}

theorem size_eq_zero_iff : p.size = 0 ↔ p.primary = [] := by
  simp [size]

variable (op : Operation) {item : DataChunk} (maximumSize : Nat) {rest : List DataChunk}

theorem pop_of_primary (h : p.primary = item :: rest) :
    p.pop = some (item, p.withPrimary rest) := by
  simp [pop, h]

theorem exists_cons_of_size_pos (h : 0 < p.size) : ∃ item rest, p.primary = item :: rest := by
  cases hprimary : p.primary with
  | nil => simp [size, hprimary] at h
  | cons item rest => exact ⟨item, rest, rfl⟩

theorem popNumber_eq :
    p.popNumber maximumSize =
      some (p.primary.head?.bind fun item => Number.setData item maximumSize,
        p.withPrimary p.primary.tail) := by
  obtain ⟨_, _, _, primary, _, _, _⟩ := p
  cases primary <;> rfl

/-- The number at the top of a stack, as far as it fits four bytes. -/
def topInt32 (stack : List DataChunk) : Option Int :=
  (stack.head?.bind fun item => Number.setData item maxNumberSize).map Number.int32

theorem topInt32_eq_some {stack : List DataChunk} {value : Int} (h : topInt32 stack = some value) :
    ∃ item rest, stack = item :: rest ∧ topInt32 [item] = some value := by
  cases stack with
  | nil => simp [topInt32] at h
  | cons item rest => exact ⟨item, rest, rfl, by simpa [topInt32] using h⟩

@[simp] theorem topInt32_cons (item : DataChunk) (rest : List DataChunk) :
    topInt32 (item :: rest) = topInt32 [item] := rfl

theorem popInt32_eq : p.popInt32 = some (topInt32 p.primary, p.withPrimary p.primary.tail) := by
  simp [popInt32, popNumber_eq, topInt32]

theorem popMany_eq (count : Nat) (h : count ≤ p.size) :
    popMany count p = some (p.primary.take count, p.withPrimary (p.primary.drop count)) := by
  induction count generalizing p with
  | zero => simp [popMany]
  | succ count ih =>
    obtain ⟨item, rest, hprimary⟩ := exists_cons_of_size_pos (p := p) (by omega)
    have hrest : count ≤ (p.withPrimary rest).size := by
      simp only [size, hprimary, List.length_cons, withPrimary_primary] at h ⊢
      omega
    simp [popMany, pop_of_primary hprimary, ih hrest, hprimary]

theorem popSection_of_lt {count : Nat} (h : p.size < count) :
    p.popSection count = some (none, p) := by
  simp [popSection, h]

theorem popSection_of_le {count : Nat} (h : count ≤ p.size) :
    p.popSection count =
      some (some (p.primary.take count), p.withPrimary (p.primary.drop count)) := by
  simp [popSection, not_lt.mpr h, popMany_eq count h]

@[simp] theorem incrementOperationCount_primary :
    (p.incrementOperationCount op).2.primary = p.primary := by
  simp only [incrementOperationCount]
  split_ifs <;> rfl

@[simp] theorem incrementOperationCount_succeeded :
    (p.incrementOperationCount op).2.succeeded = p.succeeded := by
  simp only [incrementOperationCount]
  split_ifs <;> rfl

theorem top_isSome (p : Program) (maximumSize : Nat) :
    ∃ number, p.top maximumSize = some number := by
  cases h : p.primary with
  | nil => exact ⟨none, by simp [top, isEmpty, h]⟩
  | cons item rest => exact ⟨Number.setData item maximumSize, by simp [top, isEmpty, Program.item, h]⟩

theorem top_of_primary_nil (h : p.primary = []) : p.top maximumSize = some none := by
  simp [top, isEmpty, h]

theorem isEmpty_eq_true_iff : p.isEmpty ↔ p.primary = [] := by
  simp [isEmpty]

theorem stackTrue_of_primary (h : p.primary = item :: rest) :
    p.stackTrue false = some (dataToBool item) := by
  simp [stackTrue, stackToBool, isEmpty, Program.item, h]

theorem stackResult_isSome (clean : Bool) : ∃ result, p.stackResult clean = some result := by
  unfold stackResult stackTrue stackToBool
  cases hprimary : p.primary with
  | nil => simp [isEmpty, hprimary]
  | cons item rest =>
    simp only [isEmpty, hprimary, List.isEmpty_cons, Program.item, List.getElem?_cons_zero]
    split_ifs <;> simp

end

end Program

end BitprimCore
