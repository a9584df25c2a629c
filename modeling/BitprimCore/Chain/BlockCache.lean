import BitprimCore.Chain.HeaderCache
import BitprimCore.Chain.TransactionCache

/-!
# The caches of a block

A block object has a header and transactions with caches of their own, and caches its two sizes, the
number of its inputs and, once its witnesses are stripped, that it is not segregated
(`chain/block`).

## Implementation notes

The getters read one cache of the nested transactions, the flag that a stripped transaction keeps;
it is only ever set to false. The locks are not modelled.
-/

namespace BitprimCore

open List TransactionObject

namespace Block

/-- The number of inputs of all transactions, or of all but the first. -/
def countInputs (block : Block) (withCoinbase : Bool) : Nat :=
  ((block.transactions.drop (if withCoinbase then 0 else 1)).map fun tx => tx.inputs.length).sum

/-- Undefined when the first of no transactions is to be skipped. -/
def totalInputs (block : Block) (withCoinbase : Bool) : Option Nat :=
  if !withCoinbase && block.transactions.isEmpty then none else block.countInputs withCoinbase

end Block

/-- The size as the object takes itself for segregated. -/
def TransactionObject.serializedSize (currency : Currency) (o : TransactionObject)
    (wire witness : Bool) : Nat :=
  o.tx.serializedSize currency wire (witness && o.isSegregated currency)

/-- A block with its caches. -/
structure BlockObject where
  header : HeaderObject
  transactions : List TransactionObject
  segregated_ : Option Bool := none
  totalInputs_ : Option Nat := none
  baseSize_ : Option Nat := none
  totalSize_ : Option Nat := none
  deriving DecidableEq

namespace BlockObject

/-- The constructors that copy a header and transactions start with empty caches. -/
def ofBlock (block : Block) : BlockObject where
  header := .ofHeader block.header
  transactions := block.transactions.map .ofTransaction

/-- The constructors that move keep the caches of the transactions. -/
def ofMoved (header : Header) (transactions : List TransactionObject) : BlockObject where
  header := .ofHeader header
  transactions

section

variable (currency : Currency) (o : BlockObject)

/-- The fields of the object. -/
def block : Block where
  header := o.header.header
  transactions := o.transactions.map tx

/-- The flag is never stored here. -/
def isSegregated : Bool :=
  if currency = .bch then false
  else o.segregated_.getD (o.transactions.any fun tx => tx.isSegregated currency)

/-- The size, cached once computed. -/
def serializedSize (witness : Bool) : Nat × BlockObject :=
  let witness := if currency = .bch then false else witness
  let value := Header.serializedSize true + variableUintSize o.transactions.length +
    (o.transactions.map fun tx => tx.serializedSize currency true witness).sum
  if witness then Memo.cached o.totalSize_ value o fun value => { o with totalSize_ := value }
  else Memo.cached o.baseSize_ value o fun value => { o with baseSize_ := value }

/-- One cache for both numbers. The result is missing where the call is undefined. -/
def totalInputs (withCoinbase : Bool) : Option Nat × BlockObject :=
  match o.totalInputs_, o.block.totalInputs withCoinbase with
  | some value, _ => (some value, o)
  | none, some value => (some value, { o with totalInputs_ := some value })
  | none, none => (none, o)

/-- The hash of the header. -/
def hash (hashes : Hashes) : HashDigest × BlockObject :=
  let (value, header) := o.header.hash hashes
  (value, { o with header })

end

section

variable (currency : Currency) (o : BlockObject)

/-- The caches of the block stay. -/
def reset : BlockObject := { o with header := o.header.reset, transactions := [] }

/-- No cache of the block changes. -/
def setHeader (header : Header) : BlockObject := { o with header := o.header.assign header }

/-- A vector that is assigned takes the new elements by constructing them or, when it has the room,
by assigning them to the old ones and constructing the rest. -/
def assignTransactions (inPlace : Bool) (old : List TransactionObject) (new : List Transaction) :
    List TransactionObject :=
  if inPlace then
    List.zipWith assign old new ++ (new.drop old.length).map ofTransaction
  else new.map ofTransaction

/-- The overload that copies the transactions. -/
def setTransactions (inPlace : Bool) (transactions : List Transaction) : BlockObject where
  header := o.header
  transactions := assignTransactions inPlace o.transactions transactions

/-- The overload that moves the transactions. -/
def moveTransactions (transactions : List TransactionObject) : BlockObject where
  header := o.header
  transactions

/-- Also forgets the total size. -/
def stripWitness : BlockObject :=
  { o with
    transactions := o.transactions.map TransactionObject.stripWitness
    segregated_ := some false
    totalSize_ := none }

/-- The caches of the block that stripping does not set are those of the old block. A header that
cannot be read ends the reading before that. -/
def fromData (witness : Bool) (source : DataChunk) : BlockObject :=
  let witness := if currency = .bch then false else witness
  let finish (o : BlockObject) : BlockObject := if witness then o else o.stripWitness
  let started := { o.reset with header := o.reset.header.fromData true source }
  match Header.fromData true source, Block.fromData currency witness source with
  | none, _ => started
  | some _, none => (finish started).reset
  | some _, some (block, _) =>
    finish { started with
      transactions := block.transactions.map ofTransaction }

/-- Assignment moves the fields and the transactions, with their caches, and no cache. -/
def assign (header : Header) (transactions : List TransactionObject) : BlockObject :=
  { o with header := o.header.assign header, transactions }

/-- What a move leaves behind. -/
def movedFrom : BlockObject := { o with transactions := [] }

end

end BlockObject

/-- The cache of the number of inputs counts twice, once for each number that it stands for. -/
inductive BlockSlot
  | segregated
  | totalInputs (withCoinbase : Bool)
  | size (witness : Bool)
  deriving DecidableEq

def BlockSlot.Value : BlockSlot → Type
  | segregated => Bool
  | totalInputs _ | size _ => Nat

/-- The object knows whether it is segregated. -/
def TransactionObject.KnowsSegregated (currency : Currency) (o : TransactionObject) : Prop :=
  o.isSegregated currency = o.tx.isSegregated currency

namespace BlockObject

section

variable (currency : Currency) (hashes : Hashes)

/-- The value that belongs into each cache. -/
def compute : (slot : BlockSlot) → Block → slot.Value
  | .segregated, block => block.isSegregated currency
  | .totalInputs withCoinbase, block => block.countInputs withCoinbase
  | .size witness, block => block.serializedSize currency witness

/-- The caches that a getter can read. -/
def slot (o : BlockObject) : (slot : BlockSlot) → Option slot.Value
  | .segregated => o.segregated_
  | .totalInputs withCoinbase =>
    if !withCoinbase && o.transactions.isEmpty then none else o.totalInputs_
  | .size true => o.totalSize_
  | .size false => o.baseSize_

/-- The object as a memo. -/
def memo (o : BlockObject) : Memo.Object Block BlockSlot.Value where
  content := o.block
  slot := o.slot

/-- The caches hold the values of the fields, and so does what the getters read of the header and
of the transactions. -/
structure Coherent (o : BlockObject) : Prop where
  header : o.header.Coherent hashes
  transactions : ∀ tx ∈ o.transactions, tx.KnowsSegregated currency
  caches : o.memo.Coherent (compute currency)

/-- The caches that stripping keeps are empty, or what they were computed from is the same in the
transactions. -/
structure RetainsBase (o : BlockObject) (transactions : List Transaction) : Prop where
  totalInputs : o.totalInputs_ = none ∨
    transactions.map (fun tx => tx.inputs.length) =
      o.block.transactions.map fun tx => tx.inputs.length
  baseSize : o.baseSize_ = none ∨
    transactions.map (fun tx => tx.serializedSize currency true false) =
      o.block.transactions.map fun tx => tx.serializedSize currency true false

/-- The same of the caches that stripping sets. -/
structure RetainsWitness (o : BlockObject) (transactions : List Transaction) : Prop where
  segregated : o.segregated_ = none ∨
    ((∃ tx ∈ transactions, tx.isSegregated currency = true) ↔
      ∃ tx ∈ o.block.transactions, tx.isSegregated currency = true)
  totalSize : o.totalSize_ = none ∨
    transactions.map (fun tx => tx.serializedSize currency true true) =
      o.block.transactions.map fun tx => tx.serializedSize currency true true

/-- The same of all caches. -/
structure Retains (o : BlockObject) (transactions : List Transaction) : Prop
    extends RetainsBase currency o transactions, RetainsWitness currency o transactions

end

end BlockObject

namespace Block

variable {currency : Currency} {block block' : Block}

/-- Without witnesses in the build the sizes are the same. -/
theorem serializedSize_eq (currency : Currency) (block : Block) (witness : Bool) :
    block.serializedSize currency witness =
      Header.serializedSize true + variableUintSize block.transactions.length +
        (block.transactions.map fun tx => tx.serializedSize currency true witness).sum := by
  unfold serializedSize
  split_ifs with hcur
  · have hsize : ∀ tx : Transaction, tx.serializedSize currency true false =
        tx.serializedSize currency true witness := by
      intro tx
      have hseg : tx.isSegregated currency = false := by
        simp [Transaction.isSegregated, hcur]
      exact (Transaction.serializedSize_of_not_isSegregated hseg true witness).symm
    simp only [hsize]
  · rfl

theorem serializedSize_congr {witness : Bool}
    (h : block.transactions.map (fun tx => tx.serializedSize currency true witness) =
      block'.transactions.map fun tx => tx.serializedSize currency true witness) :
    block.serializedSize currency witness = block'.serializedSize currency witness := by
  have hlen : block.transactions.length = block'.transactions.length := by
    simpa using congrArg length h
  rw [serializedSize_eq, serializedSize_eq, h, hlen]

theorem isSegregated_congr (h : (∃ tx ∈ block.transactions, tx.isSegregated currency) ↔
      ∃ tx ∈ block'.transactions, tx.isSegregated currency) :
    block.isSegregated currency = block'.isSegregated currency := by
  apply Bool.eq_iff_iff.mpr
  simpa only [isSegregated, any_eq_true] using h

theorem countInputs_congr (withCoinbase : Bool)
    (h : block.transactions.map (fun tx => tx.inputs.length) =
      block'.transactions.map fun tx => tx.inputs.length) :
    block.countInputs withCoinbase = block'.countInputs withCoinbase := by
  rw [countInputs, countInputs, map_drop, map_drop, h]

/-- A first transaction without inputs makes no difference. -/
theorem countInputs_eq (h : ∀ tx ∈ block.transactions.head?, tx.inputs = [])
    (withCoinbase withCoinbase' : Bool) :
    block.countInputs withCoinbase = block.countInputs withCoinbase' := by
  have hboth : block.countInputs true = block.countInputs false := by
    unfold countInputs
    cases htxs : block.transactions with
    | nil => rfl
    | cons tx txs =>
      have hinputs : tx.inputs = [] := h tx (by rw [htxs]; rfl)
      simp [hinputs]
  cases withCoinbase <;> cases withCoinbase' <;> simp [hboth]

end Block

/-- Without witnesses the sizes do not see that they are stripped. -/
theorem Transaction.serializedSize_stripWitness (currency : Currency) (tx : Transaction) :
    tx.stripWitness.serializedSize currency true false = tx.serializedSize currency true false := by
  simp [serializedSize, stripWitness, Input.serializedSize, Input.stripWitness, Function.comp_def]

namespace TransactionObject

variable {currency : Currency} {o : TransactionObject}

theorem knowsSegregated_ofTransaction (currency : Currency) (tx : Transaction) :
    (ofTransaction tx).KnowsSegregated currency := by
  by_cases hcur : currency = .bch <;>
    simp [KnowsSegregated, isSegregated, ofTransaction, Transaction.isSegregated, hcur]

theorem knowsSegregated_stripWitness (currency : Currency) (o : TransactionObject) :
    o.stripWitness.KnowsSegregated currency :=
  (isSegregated_stripWitness currency o).trans (o.tx.isSegregated_stripWitness currency).symm

/-- An element that is assigned keeps its flag. -/
theorem KnowsSegregated.assign (h : o.KnowsSegregated currency) {tx : Transaction}
    (hretains : o.segregated_ = none ∨ tx.isSegregated currency = o.tx.isSegregated currency) :
    (o.assign tx).KnowsSegregated currency := by
  obtain hnone | hsame := hretains
  · have hfresh : (o.assign tx).isSegregated currency =
        (ofTransaction tx).isSegregated currency := by
      simp only [isSegregated, TransactionObject.assign, ofTransaction, hnone]
    exact hfresh.trans (knowsSegregated_ofTransaction currency tx)
  · unfold KnowsSegregated isSegregated at h ⊢
    simp only [TransactionObject.assign, hsame]
    exact h

theorem KnowsSegregated.serializedSize_eq (h : o.KnowsSegregated currency) (wire witness : Bool) :
    o.serializedSize currency wire witness = o.tx.serializedSize currency wire witness := by
  rw [serializedSize, h]
  simp only [Transaction.serializedSize, Bool.and_assoc, Bool.and_self]

end TransactionObject

namespace BlockObject

variable {currency : Currency} {hashes : Hashes} {o : BlockObject}
  {withCoinbase : Bool} {transactions : List TransactionObject} {header : HeaderObject}

/-- A property of the transactions that the objects know is one of the fields. -/
theorem map_transactions {α : Type} {f : TransactionObject → α} {g : Transaction → α}
    (h : ∀ tx ∈ o.transactions, f tx = g tx.tx) :
    o.transactions.map f = o.block.transactions.map g := by
  rw [block, map_map]
  exact map_congr_left h

theorem Coherent.isSegregated_eq (h : o.Coherent currency hashes) :
    o.isSegregated currency = o.block.isSegregated currency := by
  have hflags := map_transactions h.transactions
  have hany : (o.transactions.any fun tx => tx.isSegregated currency) =
      o.block.isSegregated currency := by
    have hid := congrArg (fun flags => flags.any id) hflags
    simp only [any_map] at hid
    exact hid
  unfold isSegregated
  split_ifs with hcur
  · simp [Block.isSegregated, Transaction.isSegregated, hcur]
  · rw [hany]
    exact h.caches.getD_eq .segregated

/-- What is cached as a size is the size of the fields. -/
theorem Coherent.size_eq (h : o.Coherent currency hashes) (witness : Bool) :
    Header.serializedSize true + variableUintSize o.transactions.length +
        (o.transactions.map fun tx => tx.serializedSize currency true witness).sum =
      o.block.serializedSize currency witness := by
  have hsizes : o.transactions.map (fun tx => tx.serializedSize currency true witness) =
      o.block.transactions.map fun tx => tx.serializedSize currency true witness := by
    apply map_transactions
    intro tx htx
    exact (h.transactions tx htx).serializedSize_eq true witness
  rw [hsizes, Block.serializedSize_eq, block, length_map]

theorem Coherent.serializedSize_eq (h : o.Coherent currency hashes) (witness : Bool) :
    (o.serializedSize currency witness).1 = o.block.serializedSize currency witness := by
  have hmask : o.block.serializedSize currency (if currency = .bch then false else witness) =
      o.block.serializedSize currency witness := by
    simp only [Block.serializedSize]
    split_ifs <;> rfl
  rw [← hmask]
  simp only [serializedSize, h.size_eq]
  cases if currency = .bch then false else witness with
  | false => exact Memo.cached_fst.trans (h.caches.getD_eq (.size false))
  | true => exact Memo.cached_fst.trans (h.caches.getD_eq (.size true))

theorem slot_totalInputs (h : (o.block.totalInputs withCoinbase).isSome) :
    o.slot (.totalInputs withCoinbase) = o.totalInputs_ ∧
      o.block.totalInputs withCoinbase = some (o.block.countInputs withCoinbase) := by
  have hempty : o.block.transactions.isEmpty = o.transactions.isEmpty := by
    rw [block, isEmpty_map]
  unfold Block.totalInputs at h ⊢
  rw [hempty] at h ⊢
  by_cases hmask : (!withCoinbase && o.transactions.isEmpty) = true
  · rw [if_pos hmask] at h
    cases h
  · exact ⟨if_neg hmask, if_neg hmask⟩

theorem Coherent.totalInputs_eq (h : o.Coherent currency hashes) {value : Nat}
    (hval : o.block.totalInputs withCoinbase = some value) :
    (o.totalInputs withCoinbase).1 = some value := by
  obtain ⟨hslot, hcount⟩ := slot_totalInputs (Option.isSome_of_eq_some hval)
  have hread := h.caches (.totalInputs withCoinbase)
  unfold totalInputs
  cases hcache : o.totalInputs_ with
  | none => rw [hval]
  | some cached =>
    have hcached : cached = o.block.countInputs withCoinbase := hread cached (hslot.trans hcache)
    rw [hcached, ← hcount, hval]

theorem coherent_ofMoved (currency : Currency) (hashes : Hashes) (header : HeaderObject)
    (hheader : header.Coherent hashes) (h : ∀ tx ∈ transactions, tx.KnowsSegregated currency) :
    ({ header, transactions } : BlockObject).Coherent currency hashes where
  header := hheader
  transactions := h
  caches := by
    apply Memo.Object.coherent_of_empty
    rintro (_ | withCoinbase | ⟨_ | _⟩)
    · rfl
    · exact ite_self none
    · rfl
    · rfl

theorem knowsSegregated_map_ofTransaction (currency : Currency) (transactions : List Transaction) :
    ∀ tx ∈ transactions.map ofTransaction, tx.KnowsSegregated currency := by
  intro o ho
  obtain ⟨tx, -, rfl⟩ := mem_map.mp ho
  exact knowsSegregated_ofTransaction currency tx

theorem coherent_ofBlock (currency : Currency) (hashes : Hashes) (block : Block) :
    (ofBlock block).Coherent currency hashes :=
  coherent_ofMoved currency hashes _ (HeaderObject.coherent_ofHeader hashes _)
    (knowsSegregated_map_ofTransaction currency _)

/-- No cache of the block depends on the header. -/
theorem Coherent.replaceHeader (h : o.Coherent currency hashes) (hheader : header.Coherent hashes) :
    ({ o with header } : BlockObject).Coherent currency hashes := by
  refine ⟨hheader, h.transactions, h.caches.of_maintains ?_⟩
  rintro (_ | withCoinbase | ⟨_ | _⟩) <;> exact .inr (.inr ⟨rfl, rfl⟩)

theorem Coherent.serializedSize (h : o.Coherent currency hashes) (witness : Bool) :
    (o.serializedSize currency witness).2.Coherent currency hashes := by
  simp only [BlockObject.serializedSize, h.size_eq]
  cases if currency = .bch then false else witness with
  | false =>
    refine Memo.cached_snd h ⟨h.header, h.transactions, h.caches.fill (.size false) rfl ?_⟩
    rintro (_ | withCoinbase | ⟨_ | _⟩) <;> rfl
  | true =>
    refine Memo.cached_snd h ⟨h.header, h.transactions, h.caches.fill (.size true) rfl ?_⟩
    rintro (_ | withCoinbase | ⟨_ | _⟩) <;> rfl

/-- The number is cached for both arguments, so the first transaction may not have inputs. -/
theorem Coherent.totalInputs (h : o.Coherent currency hashes)
    (hfirst : o.totalInputs_ ≠ none ∨ ∀ tx ∈ o.block.transactions.head?, tx.inputs = []) :
    (o.totalInputs withCoinbase).2.Coherent currency hashes := by
  unfold BlockObject.totalInputs
  cases hcache : o.totalInputs_ with
  | some cached => exact h
  | none =>
    cases hval : o.block.totalInputs withCoinbase with
    | none => exact h
    | some value =>
      have hsame := Block.countInputs_eq (hfirst.resolve_left fun hne => hne hcache)
      obtain ⟨-, hcount⟩ := slot_totalInputs (Option.isSome_of_eq_some hval)
      have hval' := Option.some.inj (hval.symm.trans hcount)
      refine ⟨h.header, h.transactions, h.caches.of_maintains ?_⟩
      rintro (_ | other | ⟨_ | _⟩)
      · exact .inr (.inr ⟨rfl, rfl⟩)
      · by_cases hmask : (!other && o.transactions.isEmpty) = true
        · exact .inl (if_pos hmask)
        · refine .inr (.inl ((if_neg hmask).trans (congrArg some ?_)))
          exact hval'.trans (hsame withCoinbase other)
      · exact .inr (.inr ⟨rfl, rfl⟩)
      · exact .inr (.inr ⟨rfl, rfl⟩)

theorem RetainsBase.slot_totalInputs {o' : BlockObject}
    (h : o.RetainsBase currency o'.block.transactions) (hcache : o'.totalInputs_ = o.totalInputs_)
    (withCoinbase : Bool) :
    o'.slot (.totalInputs withCoinbase) = none ∨
      o'.slot (.totalInputs withCoinbase) = o.slot (.totalInputs withCoinbase) ∧
        o'.block.countInputs withCoinbase = o.block.countInputs withCoinbase := by
  unfold slot
  rw [hcache]
  obtain hnone | hlengths := h.totalInputs
  · left
    rw [hnone]
    exact ite_self none
  · right
    have hlen : o'.transactions.length = o.transactions.length := by
      simpa [block] using congrArg length hlengths
    have hempty : o'.transactions.isEmpty = o.transactions.isEmpty := by
      apply Bool.eq_iff_iff.mpr
      rw [isEmpty_iff_length_eq_zero, isEmpty_iff_length_eq_zero, hlen]
    rw [hempty]
    exact ⟨rfl, Block.countInputs_congr withCoinbase hlengths⟩

/-- The header and the transactions change and no cache of the block. -/
theorem Coherent.replace (h : o.Coherent currency hashes) (hheader : header.Coherent hashes)
    (hknow : ∀ tx ∈ transactions, tx.KnowsSegregated currency)
    (hretains : o.Retains currency (transactions.map tx)) :
    ({ o with header, transactions } : BlockObject).Coherent currency hashes := by
  have hbase : o.RetainsBase currency
      ({ o with header, transactions } : BlockObject).block.transactions := hretains.toRetainsBase
  refine ⟨hheader, hknow, h.caches.of_maintains ?_⟩
  rintro (_ | withCoinbase | ⟨_ | _⟩)
  · exact hretains.segregated.imp id fun hsame => .inr ⟨rfl, Block.isSegregated_congr hsame⟩
  · exact (hbase.slot_totalInputs rfl withCoinbase).imp id .inr
  · exact hretains.baseSize.imp id fun hsizes => .inr ⟨rfl, Block.serializedSize_congr hsizes⟩
  · exact hretains.totalSize.imp id fun hsizes => .inr ⟨rfl, Block.serializedSize_congr hsizes⟩

/-- When the witnesses are stripped afterwards, two caches of the block may be stale. -/
theorem Coherent.replace_stripWitness (h : o.Coherent currency hashes)
    (hheader : header.Coherent hashes)
    (hretains : o.RetainsBase currency (transactions.map TransactionObject.tx)) :
    ({ o with header, transactions } : BlockObject).stripWitness.Coherent currency hashes := by
  have hstripped : ({ o with header, transactions } : BlockObject).stripWitness.block.transactions =
      (transactions.map TransactionObject.tx).map Transaction.stripWitness := by
    simp only [BlockObject.stripWitness, block, map_map]
    rfl
  have hbase : o.RetainsBase currency
      ({ o with header, transactions } : BlockObject).stripWitness.block.transactions := by
    rw [hstripped]
    constructor
    · rw [map_map]
      simpa only [Function.comp_def, Transaction.stripWitness, length_map]
        using hretains.totalInputs
    · rw [map_map]
      simpa only [Function.comp_def, Transaction.serializedSize_stripWitness] using hretains.baseSize
  refine ⟨hheader, ?_, h.caches.of_maintains ?_⟩
  · intro o ho
    obtain ⟨tx, -, rfl⟩ := mem_map.mp ho
    exact tx.knowsSegregated_stripWitness currency
  · rintro (_ | withCoinbase | ⟨_ | _⟩)
    · refine .inr (.inl (congrArg some ?_))
      simp [compute, memo, Block.isSegregated, hstripped, Transaction.isSegregated_stripWitness]
    · exact (hbase.slot_totalInputs rfl withCoinbase).imp id .inr
    · exact hbase.baseSize.imp id fun hsizes => .inr ⟨rfl, Block.serializedSize_congr hsizes⟩
    · exact .inl rfl

theorem retains_self (currency : Currency) (o : BlockObject) :
    o.Retains currency (o.transactions.map tx) :=
  ⟨⟨.inr rfl, .inr rfl⟩, .inr Iff.rfl, .inr rfl⟩

theorem Coherent.stripWitness (h : o.Coherent currency hashes) :
    o.stripWitness.Coherent currency hashes :=
  h.replace_stripWitness h.header (o.retains_self currency).toRetainsBase

/-- The transactions that a read leaves. -/
def readTransactions (currency : Currency) (witness : Bool) (source : DataChunk) :
    List Transaction :=
  match Block.fromData currency witness source with
  | none => []
  | some (block, _) => block.transactions

/-- What the caches of the block need to stay right when the object is read again. -/
def RetainsRead (currency : Currency) (o : BlockObject) (witness : Bool) (source : DataChunk) :
    Prop :=
  let witness := if currency = .bch then false else witness
  let stripped := witness = false ∧ (Header.fromData true source).isSome
  let transactions := readTransactions currency witness source
  o.RetainsBase currency transactions ∧ (stripped ∨ o.RetainsWitness currency transactions)

theorem map_tx_ofTransaction (transactions : List Transaction) :
    (transactions.map ofTransaction).map tx = transactions := by
  rw [map_map]
  exact map_id transactions

/-- The end of a read: the witnesses are stripped unless they were asked for. -/
theorem Coherent.replace_finish (h : o.Coherent currency hashes) {used : Bool}
    (hheader : header.Coherent hashes) (hknow : ∀ tx ∈ transactions, tx.KnowsSegregated currency)
    (hbase : o.RetainsBase currency (transactions.map tx))
    (hwit : used = false ∨ o.RetainsWitness currency (transactions.map tx)) :
    (if used then ({ o with header, transactions } : BlockObject)
      else ({ o with header, transactions } : BlockObject).stripWitness).Coherent
        currency hashes := by
  cases used with
  | false => exact h.replace_stripWitness hheader hbase
  | true =>
    obtain hfalse | hwit := hwit
    · cases hfalse
    · exact h.replace hheader hknow ⟨hbase, hwit⟩

theorem Coherent.fromData (h : o.Coherent currency hashes) {witness : Bool} {source : DataChunk}
    (hretains : o.RetainsRead currency witness source) :
    (o.fromData currency witness source).Coherent currency hashes := by
  -- The header is reset first, so it is read into an object with an empty cache.
  have hheader : (o.reset.header.fromData true source).Coherent hashes :=
    HeaderObject.Coherent.fromData (HeaderObject.coherent_ofHeader hashes _) fun _ _ => .inl rfl
  have hempty : ∀ tx ∈ ([] : List TransactionObject), tx.KnowsSegregated currency :=
    fun _ htx => nomatch htx
  unfold RetainsRead readTransactions at hretains
  unfold BlockObject.fromData
  dsimp only at hretains ⊢
  generalize (if currency = .bch then false else witness) = used at hretains ⊢
  cases hread : Header.fromData true source with
  | none =>
    have hblock : Block.fromData currency used source = none := by
      simp [Block.fromData, hread]
    rw [hblock, hread] at hretains
    obtain ⟨hbase, ⟨-, hstripped⟩ | hwit⟩ := hretains
    · cases hstripped
    · exact h.replace hheader hempty ⟨hbase, hwit⟩
  | some header =>
    cases hblock : Block.fromData currency used source with
    | none =>
      rw [hblock] at hretains
      have hdone := h.replace_finish hheader hempty hretains.1 (hretains.2.imp And.left id)
      cases used <;> exact hdone.replaceHeader (HeaderObject.coherent_ofHeader hashes _)
    | some read =>
      rw [hblock] at hretains
      dsimp only at hretains ⊢
      have hknow := knowsSegregated_map_ofTransaction currency read.1.transactions
      rw [← map_tx_ofTransaction read.1.transactions] at hretains
      exact h.replace_finish hheader hknow hretains.1 (hretains.2.imp And.left id)

/-- An element that is assigned in place keeps a flag that is empty or still right. -/
def RetainsFlags (currency : Currency) (old : List TransactionObject) (new : List Transaction) :
    Prop :=
  ∀ pair ∈ old.zip new, pair.1.segregated_ = none ∨
    pair.2.isSegregated currency = pair.1.tx.isSegregated currency

theorem knowsSegregated_assignTransactions {old : List TransactionObject}
    {new : List Transaction} {inPlace : Bool} (h : ∀ tx ∈ old, tx.KnowsSegregated currency)
    (hretains : inPlace → RetainsFlags currency old new) :
    ∀ tx ∈ assignTransactions inPlace old new, tx.KnowsSegregated currency := by
  intro o ho
  cases inPlace with
  | false => exact knowsSegregated_map_ofTransaction currency new o ho
  | true =>
    obtain hassigned | hconstructed := mem_append.mp ho
    · rw [← map_uncurry_zip_eq_zipWith] at hassigned
      obtain ⟨pair, hpair, rfl⟩ := mem_map.mp hassigned
      apply (h pair.1 (of_mem_zip hpair).1).assign
      exact hretains rfl pair hpair
    · exact knowsSegregated_map_ofTransaction currency _ o hconstructed

end BlockObject

end BitprimCore
