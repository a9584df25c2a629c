import BitprimCore.Chain.BlockCache
import BitprimCore.Math.Sha256

/-!
# Runs of operations on headers and blocks

Headers and blocks that are constructed, assigned, read, changed and asked in any order
(`chain/header`, `chain/block`). The getters return the values of the fields as long as each
operation meets a condition on what it does not clear.

## Implementation notes

Transactions that are moved from are gone afterwards, as the vectors of the standard library leave
them.
-/

namespace BitprimCore

/-- The public operations on named blocks, apart from those that hand out a mutable reference.
What is copied from an argument is given by its fields. -/
inductive BlockOp (κ : Type*)
  | construct (target : κ) (block : Block)
  | constructMoved (target : κ) (header : Header) (transactions : List TransactionObject)
  | copyConstruct (target source : κ)
  | moveConstruct (target source : κ)
  | moveAssign (target source : κ)
  | fromData (target : κ) (witness : Bool) (source : DataChunk)
  | setHeader (target : κ) (header : Header)
  | setTransactions (target : κ) (inPlace : Bool) (transactions : List Transaction)
  | moveTransactions (target : κ) (transactions : List TransactionObject)
  | stripWitness (target : κ)
  | hash (target : κ)
  | serializedSize (target : κ) (witness : Bool)
  | totalInputs (target : κ) (withCoinbase : Bool)
  | isSegregated (target : κ)

open Function Memo

namespace BlockStore

variable {κ : Type*} [DecidableEq κ] (currency : Currency)

/-- One operation on named blocks. -/
def step (hashes : Hashes) (store : κ → BlockObject) : BlockOp κ → κ → BlockObject
  | .construct target block => update store target (.ofBlock block)
  | .constructMoved target header transactions =>
    update store target (.ofMoved header transactions)
  | .copyConstruct target source => update store target (.ofBlock (store source).block)
  | .moveConstruct target source =>
    transfer .movedFrom store target source
      (.ofMoved (store source).header.header (store source).transactions)
  | .moveAssign target source =>
    transfer .movedFrom store target source
      ((store target).assign (store source).header.header (store source).transactions)
  | .fromData target witness source =>
    update store target ((store target).fromData currency witness source)
  | .setHeader target header => update store target ((store target).setHeader header)
  | .setTransactions target inPlace transactions =>
    update store target ((store target).setTransactions inPlace transactions)
  | .moveTransactions target transactions =>
    update store target ((store target).moveTransactions transactions)
  | .stripWitness target => update store target (store target).stripWitness
  | .hash target => update store target ((store target).hash hashes).2
  | .serializedSize target witness =>
    update store target ((store target).serializedSize currency witness).2
  | .totalInputs target withCoinbase =>
    update store target ((store target).totalInputs withCoinbase).2
  | .isSegregated _ => store

/-- No cache of the object moved from depends on the transactions that it loses. -/
def RetainsMoved (store : κ → BlockObject) (target source : κ) (o : BlockObject) : Prop :=
  (update store target o source).Retains currency []

/-- The condition on an operation: what it does not clear, of the block, of its header and of its
transactions, is empty or belongs to fields that it does not change; transactions that are moved in
know whether they are segregated; and inputs are counted where a call is defined and the first
transaction has none. -/
def Condition (store : κ → BlockObject) : BlockOp κ → Prop
  | .constructMoved _ _ transactions | .moveTransactions _ transactions =>
    ∀ tx ∈ transactions, tx.KnowsSegregated currency
  | .moveConstruct target source =>
    RetainsMoved currency store target source
      (.ofMoved (store source).header.header (store source).transactions)
  | .moveAssign target source =>
    (store target).header.Retains (store source).header.header ∧
      (store target).Retains currency (store source).block.transactions ∧
      RetainsMoved currency store target source
        ((store target).assign (store source).header.header (store source).transactions)
  | .fromData target witness source => (store target).RetainsRead currency witness source
  | .setHeader target header => (store target).header.Retains header
  | .setTransactions target inPlace transactions =>
    inPlace = true → BlockObject.RetainsFlags currency (store target).transactions transactions
  | .totalInputs target withCoinbase =>
    (store target).totalInputs_ ≠ none ∨
      (withCoinbase = true ∨ (store target).transactions ≠ []) ∧
        ∀ tx ∈ (store target).block.transactions.head?, tx.inputs = []
  | _ => True

variable {currency : Currency} {hashes : Hashes} {store : κ → BlockObject}

/-- What the object moved from keeps. -/
theorem coherent_movedFrom {target source : κ} {o : BlockObject}
    (hmoved : RetainsMoved currency store target source o)
    (h : (update store target o source).Coherent currency hashes) :
    (update store target o source).movedFrom.Coherent currency hashes :=
  h.replace h.header (fun _ htx => nomatch htx) hmoved

theorem coherent_step (h : ∀ k, (store k).Coherent currency hashes) {op : BlockOp κ}
    (hcond : Condition currency store op) :
    ∀ k, (step currency hashes store op k).Coherent currency hashes := by
  have hfresh := HeaderObject.coherent_ofHeader hashes
  cases op with
  | construct target block =>
    exact forall_update h (BlockObject.coherent_ofBlock currency hashes block)
  | constructMoved target header transactions =>
    exact forall_update h (BlockObject.coherent_ofMoved currency hashes _ (hfresh header) hcond)
  | copyConstruct target source =>
    exact forall_update h (BlockObject.coherent_ofBlock currency hashes _)
  | moveConstruct target source =>
    refine forall_transfer h ?_ (coherent_movedFrom hcond)
    exact BlockObject.coherent_ofMoved currency hashes _ (hfresh _) (h source).transactions
  | moveAssign target source =>
    obtain ⟨hheader, hretains, hmoved⟩ := hcond
    refine forall_transfer h ?_ (coherent_movedFrom hmoved)
    exact (h target).replace ((h target).header.assign hheader) (h source).transactions hretains
  | fromData target witness source => exact forall_update h ((h target).fromData hcond)
  | setHeader target header =>
    exact forall_update h ((h target).replaceHeader ((h target).header.assign hcond))
  | setTransactions target inPlace transactions =>
    apply forall_update h
    apply BlockObject.coherent_ofMoved currency hashes _ (h target).header
    exact BlockObject.knowsSegregated_assignTransactions (h target).transactions hcond
  | moveTransactions target transactions =>
    exact forall_update h (BlockObject.coherent_ofMoved currency hashes _ (h target).header hcond)
  | stripWitness target => exact forall_update h (h target).stripWitness
  | hash target => exact forall_update h ((h target).replaceHeader (h target).header.hash)
  | serializedSize target witness => exact forall_update h ((h target).serializedSize witness)
  | totalInputs target withCoinbase =>
    exact forall_update h ((h target).totalInputs (hcond.imp id And.right))
  | isSegregated target => exact h

end BlockStore

/-- Named headers and blocks. -/
structure ChainObjects (ι κ : Type*) where
  headers : ι → HeaderObject
  blocks : κ → BlockObject

/-- Operations on headers and blocks. -/
inductive ChainOp (ι κ : Type*)
  | header (op : HeaderOp ι)
  | block (op : BlockOp κ)

namespace ChainObjects

variable {ι κ : Type*} [DecidableEq ι] [DecidableEq κ]

/-- One operation. -/
def step (currency : Currency) (hashes : Hashes) (objects : ChainObjects ι κ) :
    ChainOp ι κ → ChainObjects ι κ
  | .header op => { objects with headers := HeaderStore.step hashes objects.headers op }
  | .block op => { objects with blocks := BlockStore.step currency hashes objects.blocks op }

/-- The condition of its kind. -/
def Condition (currency : Currency) (hashes : Hashes) (objects : ChainObjects ι κ) :
    ChainOp ι κ → Prop
  | .header op => HeaderStore.Condition hashes objects.headers op
  | .block op => BlockStore.Condition currency objects.blocks op

/-- Objects that were just constructed. -/
def fresh (headers : ι → Header) (blocks : κ → Block) : ChainObjects ι κ where
  headers i := .ofHeader (headers i)
  blocks k := .ofBlock (blocks k)

/-- All caches agree with the objects. -/
structure Coherent (currency : Currency) (hashes : Hashes) (objects : ChainObjects ι κ) : Prop where
  headers : ∀ i, (objects.headers i).Coherent hashes
  blocks : ∀ k, (objects.blocks k).Coherent currency hashes

variable {currency : Currency} {hashes : Hashes} {objects : ChainObjects ι κ}

/-- An operation that meets the condition keeps all objects coherent. -/
theorem Coherent.step (h : Coherent currency hashes objects) {op : ChainOp ι κ}
    (hcond : Condition currency hashes objects op) :
    Coherent currency hashes (step currency hashes objects op) := by
  cases op with
  | header op => exact ⟨HeaderStore.coherent_step h.headers hcond, h.blocks⟩
  | block op => exact ⟨h.headers, BlockStore.coherent_step h.blocks hcond⟩

/-- After every run of operations that meet the condition, the hash of each header, and the hash,
the sizes, the numbers of inputs and the flag of each block, are those of its fields. -/
theorem caches_are_coherent {headers : ι → Header} {blocks : κ → Block}
    {ops : List (ChainOp ι κ)}
    (hguarded : Memo.Guarded (ChainObjects.step currency hashes) (Condition currency hashes)
      (fresh headers blocks) ops) :
    let objects := run (ChainObjects.step currency hashes) (fresh headers blocks) ops
    (∀ i, ((objects.headers i).hash hashes).1 = (objects.headers i).header.hash hashes) ∧
    ∀ k, ((objects.blocks k).hash hashes).1 = (objects.blocks k).block.header.hash hashes ∧
      (∀ witness, ((objects.blocks k).serializedSize currency witness).1 =
        (objects.blocks k).block.serializedSize currency witness) ∧
      (∀ withCoinbase, ∀ value ∈ (objects.blocks k).block.totalInputs withCoinbase,
        ((objects.blocks k).totalInputs withCoinbase).1 = some value) ∧
      (objects.blocks k).isSegregated currency = (objects.blocks k).block.isSegregated currency := by
  have hstart : Coherent currency hashes (fresh headers blocks) :=
    ⟨fun i => HeaderObject.coherent_ofHeader hashes (headers i),
      fun k => BlockObject.coherent_ofBlock currency hashes (blocks k)⟩
  have hend := run_invariant (fun _ _ h hcondition => h.step hcondition) hstart hguarded
  refine ⟨fun i => (hend.headers i).hash_eq, fun k => ?_⟩
  have hblock := hend.blocks k
  refine ⟨hblock.header.hash_eq, hblock.serializedSize_eq, ?_, hblock.isSegregated_eq⟩
  intro withCoinbase value hvalue
  exact hblock.totalInputs_eq hvalue

/-- A header with a nonce. -/
def nonceHeader (nonce : UInt32) : Header where
  version := 1
  previousBlockHash := nullHash
  merkle := nullHash
  timestamp := 0
  bits := 0
  nonce

/-- A block of one transaction with one input. -/
def oneInputBlock : Block where
  header := nonceHeader 0
  transactions :=
    [{ version := 1, locktime := 0, outputs := []
       inputs := [{ previousOutput := { hash := nullHash, index := 0 }, script := ⟨[]⟩,
                    witness := {}, sequence := 0 }] }]

/-- The setters clear the caches, and the header is read before its hash is asked for. -/
def clearedBeforeRead : List (ChainOp Unit Unit) :=
  [.header (.hash ()), .header (.setNonce () 1),
    .header (.fromData () true ((nonceHeader 2).toData true)), .header (.hash ()),
    .block (.serializedSize () true), .block (.setTransactions () false []), .block (.hash ())]

theorem caches_are_coherent_clearedBeforeRead :
    let objects := run (ChainObjects.step .btc .ofSha256)
      (fresh (fun _ => nonceHeader 0) fun _ => oneInputBlock) clearedBeforeRead
    ((objects.headers ()).hash .ofSha256).1 = (objects.headers ()).header.hash .ofSha256 ∧
      ((objects.blocks ()).serializedSize .btc true).1 =
        (objects.blocks ()).block.serializedSize .btc true := by
  have hguarded : Memo.Guarded (ChainObjects.step .btc .ofSha256) (Condition .btc .ofSha256)
      (fresh (fun _ => nonceHeader 0) fun _ => oneInputBlock) clearedBeforeRead :=
    ⟨trivial, trivial, fun _ _ => .inl rfl, trivial, trivial, nofun, trivial, trivial⟩
  have hrun := caches_are_coherent hguarded
  exact ⟨hrun.1 (), (hrun.2 ()).2.1 true⟩

/-- One number of inputs is returned for the other, and a header that is read again keeps its old
hash. -/
theorem caches_are_stale :
    (let objects := run (ChainObjects.step .btc .ofSha256)
      (fresh (fun _ : Unit => nonceHeader 0) fun _ : Unit => oneInputBlock)
      [.block (.totalInputs () true)]
    (objects.blocks ()).block.totalInputs false = some 0 ∧
      ((objects.blocks ()).totalInputs false).1 = some 1) ∧
    (let objects := run (ChainObjects.step .btc .ofSha256)
      (fresh (fun _ : Unit => nonceHeader 0) fun _ : Unit => oneInputBlock)
      [.header (.hash ()), .header (.fromData () true ((nonceHeader 1).toData true))]
    ((objects.headers ()).hash .ofSha256).1 ≠ (objects.headers ()).header.hash .ofSha256) := by
  refine ⟨⟨rfl, rfl⟩, ?_⟩
  decide +kernel

end ChainObjects

end BitprimCore
