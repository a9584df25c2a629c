import BitprimCore.Chain.TransactionCache
import BitprimCore.Math.Sha256

/-!
# Runs of operations on transactions

Transaction objects that are constructed, assigned, read, changed and asked in any order
(`chain/transaction`). The getters return what fresh objects return as long as each operation
meets a condition on what it does not clear; assignment, the setters that move and moving from an
object do not clear all caches.

## Implementation notes

Lists that are moved from are empty afterwards, also when an object is moved to itself, as the
vectors of the standard library leave them.
-/

namespace BitprimCore

/-- The public operations on named objects, apart from those that hand out a mutable reference. -/
inductive TransactionOp (ι : Type*)
  | construct (target : ι) (tx : Transaction)
  | copyConstruct (target source : ι)
  | moveConstruct (target source : ι)
  | copyConstructWithHash (target source : ι) (hash : HashDigest)
  | moveConstructWithHash (target source : ι) (hash : HashDigest)
  | copyAssign (target source : ι)
  | moveAssign (target source : ι)
  | fromData (target : ι) (wire witness unconfirmed : Bool) (source : DataChunk)
  | setVersion (target : ι) (version : UInt32)
  | setLocktime (target : ι) (locktime : UInt32)
  | setInputs (target : ι) (inputs : List Input)
  | moveInputs (target : ι) (inputs : List Input)
  | setOutputs (target : ι) (outputs : List Output)
  | moveOutputs (target : ι) (outputs : List Output)
  | stripWitness (target : ι)
  | recomputeHash (target : ι)
  | get (target : ι) (getter : TransactionGetter)

namespace TransactionStore

variable {ι : Type*} [DecidableEq ι]

open Function Memo TransactionStore

variable (currency : Currency)

/-- One operation on transactions. -/
def step (hashes : Hashes) (store : ι → TransactionObject) : TransactionOp ι → ι → TransactionObject
  | .construct target tx => update store target (.ofTransaction tx)
  | .copyConstruct target source => update store target (.ofTransaction (store source).tx)
  | .moveConstruct target source =>
    transfer .movedFrom store target source (.ofTransaction (store source).tx)
  | .copyConstructWithHash target source hash =>
    update store target { tx := (store source).tx, hash_ := some hash }
  | .moveConstructWithHash target source hash =>
    transfer .movedFrom store target source { tx := (store source).tx, hash_ := some hash }
  | .copyAssign target source => update store target ((store target).assign (store source).tx)
  | .moveAssign target source =>
    transfer .movedFrom store target source ((store target).assign (store source).tx)
  | .fromData target wire witness unconfirmed source =>
    update store target ((store target).fromData currency wire witness unconfirmed source)
  | .setVersion target version => update store target ((store target).setVersion version)
  | .setLocktime target locktime => update store target ((store target).setLocktime locktime)
  | .setInputs target inputs => update store target ((store target).setInputs inputs)
  | .moveInputs target inputs => update store target ((store target).moveInputs inputs)
  | .setOutputs target outputs => update store target ((store target).setOutputs outputs)
  | .moveOutputs target outputs => update store target ((store target).moveOutputs outputs)
  | .stripWitness target => update store target (store target).stripWitness
  | .recomputeHash target => update store target ((store target).recomputeHash currency hashes)
  | .get target getter => update store target ((store target).get currency hashes getter).2

/-- Nothing that is kept in the object moved from depends on the lists that it loses. -/
def RetainsMoved (store : ι → TransactionObject) (target source : ι) (o : TransactionObject) :
    Prop :=
  (update store target o source).Retains currency (update store target o source).movedFrom.tx

/-- The condition on an operation: a cache that it does not clear is empty, or belongs to fields
that it does not change; a hash that it is given is that of the transaction. -/
def Condition (hashes : Hashes) (store : ι → TransactionObject) : TransactionOp ι → Prop
  | .moveConstruct target source =>
    RetainsMoved currency store target source (.ofTransaction (store source).tx)
  | .copyConstructWithHash _ source hash => hash = (store source).tx.hash currency hashes false
  | .moveConstructWithHash target source hash =>
    hash = (store source).tx.hash currency hashes false ∧
      RetainsMoved currency store target source { tx := (store source).tx, hash_ := some hash }
  | .copyAssign target source => (store target).Retains currency (store source).tx
  | .moveAssign target source =>
    (store target).Retains currency (store source).tx ∧
      RetainsMoved currency store target source ((store target).assign (store source).tx)
  | .moveInputs target inputs => (store target).RetainsInputs inputs
  | .moveOutputs target outputs => (store target).RetainsOutputs outputs
  | _ => True

/-- All objects are coherent. -/
def Coherent (currency : Currency) (hashes : Hashes) (store : ι → TransactionObject) : Prop :=
  ∀ i, (store i).Coherent currency hashes

variable {currency : Currency} {hashes : Hashes} {store : ι → TransactionObject}

/-- What the object moved from keeps. -/
theorem coherent_movedFrom {target source : ι} {o : TransactionObject}
    (hmoved : RetainsMoved currency store target source o)
    (h : (update store target o source).Coherent currency hashes) :
    (update store target o source).movedFrom.Coherent currency hashes :=
  h.assign hmoved

/-- An operation that meets the condition keeps all objects coherent. -/
theorem Coherent.step (h : Coherent currency hashes store) {op : TransactionOp ι}
    (hcond : Condition currency hashes store op) :
    Coherent currency hashes (step currency hashes store op) := by
  have hfresh := TransactionObject.coherent_ofTransaction currency hashes
  cases op with
  | construct target tx => exact forall_update h (hfresh tx)
  | copyConstruct target source => exact forall_update h (hfresh _)
  | moveConstruct target source =>
    exact forall_transfer h (hfresh _) (coherent_movedFrom hcond)
  | copyConstructWithHash target source hash =>
    exact forall_update h (TransactionObject.coherent_withHash hcond)
  | moveConstructWithHash target source hash =>
    obtain ⟨hhash, hmoved⟩ := hcond
    exact forall_transfer h (TransactionObject.coherent_withHash hhash) (coherent_movedFrom hmoved)
  | copyAssign target source => exact forall_update h ((h target).assign hcond)
  | moveAssign target source =>
    obtain ⟨hretains, hmoved⟩ := hcond
    exact forall_transfer h ((h target).assign hretains) (coherent_movedFrom hmoved)
  | fromData target wire witness unconfirmed source =>
    exact forall_update h (.fromData currency hashes _ wire witness unconfirmed source)
  | setVersion target version => exact forall_update h ((h target).setVersion version)
  | setLocktime target locktime => exact forall_update h ((h target).setLocktime locktime)
  | setInputs target inputs => exact forall_update h ((h target).setInputs inputs)
  | moveInputs target inputs => exact forall_update h ((h target).moveInputs hcond)
  | setOutputs target outputs => exact forall_update h ((h target).setOutputs outputs)
  | moveOutputs target outputs => exact forall_update h ((h target).moveOutputs hcond)
  | stripWitness target => exact forall_update h (h target).stripWitness
  | recomputeHash target => exact forall_update h (h target).recomputeHash
  | get target getter => exact forall_update h ((h target).get getter)

/-- Objects that were just constructed. -/
def fresh (contents : ι → Transaction) (i : ι) : TransactionObject := .ofTransaction (contents i)

/-- After every run of operations that meet the condition, each getter of each object returns what
a fresh object with the same fields returns. -/
theorem getters_are_fresh {contents : ι → Transaction} {ops : List (TransactionOp ι)}
    (hguarded : Memo.Guarded (step currency hashes) (Condition currency hashes)
      (fresh contents) ops) (i : ι) (getter : TransactionGetter) :
    let o := run (step currency hashes) (fresh contents) ops i
    (o.get currency hashes getter).1 =
      ((TransactionObject.ofTransaction o.tx).get currency hashes getter).1 := by
  have hstart : Coherent currency hashes (fresh contents) := fun i =>
    TransactionObject.coherent_ofTransaction currency hashes (contents i)
  have hend := run_invariant (fun _ _ h hcondition => h.step hcondition) hstart hguarded
  exact (hend i).get_eq getter

/-- Two transactions with one output each, of value one and two. -/
def payments (second : Bool) : Transaction where
  version := 1
  locktime := 0
  inputs := []
  outputs := [{ value := if second then 2 else 1, script := ⟨[]⟩ }]

/-- The setter clears what the getter cached, so the assignment is safe. -/
def clearedBeforeAssign : List (TransactionOp Bool) :=
  [.get false .totalOutputValue, .setOutputs false [], .copyAssign false true,
    .get false (.hash false)]

theorem getters_are_fresh_clearedBeforeAssign :
    let o := run (step .btc .ofSha256) (fresh payments) clearedBeforeAssign false
    (o.get .btc .ofSha256 .totalOutputValue).1 =
      ((TransactionObject.ofTransaction o.tx).get .btc .ofSha256 .totalOutputValue).1 := by
  have hretains : TransactionObject.Retains .btc
      (run (step .btc .ofSha256) (fresh payments)
        (clearedBeforeAssign.take 2) false) (payments true) :=
    ⟨.inl rfl, .inl rfl, .inl rfl, .inl rfl, .inl rfl, .inl rfl, .inl rfl, .inl rfl⟩
  have hguarded : Memo.Guarded (step .btc .ofSha256)
      (Condition .btc .ofSha256) (fresh payments) clearedBeforeAssign :=
    ⟨trivial, trivial, hretains, trivial, trivial⟩
  exact getters_are_fresh hguarded false .totalOutputValue

/-- The total of the old outputs survives an assignment, and their hash the setter that moves. -/
theorem getters_are_stale :
    (let o := run (step .btc .ofSha256) (fresh payments)
      [.get false .totalOutputValue, .copyAssign false true] false
    (o.get .btc .ofSha256 .totalOutputValue).1 ≠
      ((TransactionObject.ofTransaction o.tx).get .btc .ofSha256 .totalOutputValue).1) ∧
    (let o := run (step .btc .ofSha256) (fresh payments)
      [.get false .outputsHash, .moveOutputs false []] false
    (o.get .btc .ofSha256 .outputsHash).1 ≠
      ((TransactionObject.ofTransaction o.tx).get .btc .ofSha256 .outputsHash).1) := by
  constructor
  · change (1 : Nat) ≠ 2
    decide
  · change Script.toOutputs .ofSha256 (payments false) ≠
      Script.toOutputs .ofSha256 { payments false with outputs := [] }
    decide +kernel

end TransactionStore

end BitprimCore
