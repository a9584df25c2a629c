import BitprimCore.Chain.RoundTrip
import BitprimCore.Chain.Signing
import BitprimCore.Library.Memo

/-!
# The caches of a transaction

A transaction object caches its two hashes, the three hashes that version 0 signatures use, its two
totals and, once its witnesses are stripped, that it is not segregated (`chain/transaction`). The
operations that change the fields clear some of the caches.

## Implementation notes

The locks are not modelled.
-/

namespace BitprimCore

open Input List Memo Script Transaction

/-- A transaction with its caches. -/
structure TransactionObject where
  tx : Transaction
  hash_ : Option HashDigest := none
  witnessHash_ : Option HashDigest := none
  outputsHash_ : Option HashDigest := none
  inpointsHash_ : Option HashDigest := none
  sequencesHash_ : Option HashDigest := none
  totalInputValue_ : Option Nat := none
  totalOutputValue_ : Option Nat := none
  segregated_ : Option Bool := none
  deriving DecidableEq

/-- The getters that read a cache. -/
inductive TransactionGetter
  | hash (witness : Bool)
  | outputsHash
  | inpointsHash
  | sequencesHash
  | isSegregated
  | totalInputValue
  | totalOutputValue

/-- What a getter returns. -/
def TransactionGetter.Result : TransactionGetter → Type
  | hash _ | outputsHash | inpointsHash | sequencesHash => HashDigest
  | isSegregated => Bool
  | totalInputValue | totalOutputValue => Nat

namespace TransactionObject

/-- A fresh object; every constructor that takes no hash leaves the caches empty. -/
def ofTransaction (tx : Transaction) : TransactionObject where
  tx

section

variable (currency : Currency) (hashes : Hashes) (o : TransactionObject)

/-- The flag is never stored here. -/
def isSegregated : Bool :=
  if currency = .bch then false else o.segregated_.getD (o.tx.isSegregated currency)

/-- The encoding leaves the witnesses out when the object takes itself for not segregated. -/
def toData (wire witness : Bool) : DataChunk :=
  o.tx.toData currency wire (witness && o.isSegregated currency)

/-- The witness hash of a coinbase is the null hash. -/
def hash (witness : Bool) : HashDigest × TransactionObject :=
  let witness := if currency = .bch then false else witness
  if witness && o.isSegregated currency then
    cached o.witnessHash_
      (if o.tx.isCoinbase then nullHash else hashes.bitcoinHash (o.toData currency true true)) o
      fun value => { o with witnessHash_ := value }
  else
    cached o.hash_ (hashes.bitcoinHash (o.toData currency true false)) o
      fun value => { o with hash_ := value }

def outputsHash : HashDigest × TransactionObject :=
  cached o.outputsHash_ (toOutputs hashes o.tx) o
    fun value => { o with outputsHash_ := value }

def inpointsHash : HashDigest × TransactionObject :=
  cached o.inpointsHash_ (toInpoints hashes o.tx) o
    fun value => { o with inpointsHash_ := value }

def sequencesHash : HashDigest × TransactionObject :=
  cached o.sequencesHash_ (toSequences hashes o.tx) o
    fun value => { o with sequencesHash_ := value }

def totalInputValue : Nat × TransactionObject :=
  cached o.totalInputValue_ o.tx.totalInputValue o
    fun value => { o with totalInputValue_ := value }

def totalOutputValue : Nat × TransactionObject :=
  cached o.totalOutputValue_ o.tx.totalOutputValue o
    fun value => { o with totalOutputValue_ := value }

/-- Runs a getter. -/
def get : (getter : TransactionGetter) → getter.Result × TransactionObject
  | .hash witness => o.hash currency hashes witness
  | .outputsHash => o.outputsHash hashes
  | .inpointsHash => o.inpointsHash hashes
  | .sequencesHash => o.sequencesHash hashes
  | .isSegregated => (o.isSegregated currency, o)
  | .totalInputValue => o.totalInputValue
  | .totalOutputValue => o.totalOutputValue

end

section

variable (currency : Currency) (hashes : Hashes) (o : TransactionObject)

/-- Forgets both hashes. -/
def invalidateCache : TransactionObject := { o with hash_ := none, witnessHash_ := none }

/-- The validation metadata stays. -/
def reset : TransactionObject :=
  ofTransaction
    { version := 0, locktime := 0, inputs := [], outputs := [], duplicate := o.tx.duplicate }

def setVersion (version : UInt32) : TransactionObject :=
  { o with tx := { o.tx with version } }.invalidateCache

def setLocktime (locktime : UInt32) : TransactionObject :=
  { o with tx := { o.tx with locktime } }.invalidateCache

/-- The overload that copies the inputs. -/
def setInputs (inputs : List Input) : TransactionObject :=
  { { o with tx := { o.tx with inputs } }.invalidateCache with
    inpointsHash_ := none, sequencesHash_ := none, segregated_ := none, totalInputValue_ := none }

/-- The overload that moves the inputs leaves two hashes of inputs in place. -/
def moveInputs (inputs : List Input) : TransactionObject :=
  { { o with tx := { o.tx with inputs } }.invalidateCache with
    segregated_ := none, totalInputValue_ := none }

/-- The overload that copies the outputs. -/
def setOutputs (outputs : List Output) : TransactionObject :=
  { { o with tx := { o.tx with outputs } }.invalidateCache with
    outputsHash_ := none, totalOutputValue_ := none }

/-- The overload that moves the outputs leaves the hash of outputs in place. -/
def moveOutputs (outputs : List Output) : TransactionObject :=
  { { o with tx := { o.tx with outputs } }.invalidateCache with totalOutputValue_ := none }

/-- Clears the witnesses, which the hash without witnesses does not see. -/
def stripWitness : TransactionObject :=
  { o with tx := o.tx.stripWitness, segregated_ := some false }

/-- A failed read leaves the object reset. Behind an unconfirmed transaction of the store are the
sigops, the fees and a flag, of 13 bytes. -/
def fromData (wire witness unconfirmed : Bool) (source : DataChunk) : TransactionObject :=
  match Transaction.fromData currency wire witness source with
  | none => o.reset
  | some (tx, source) =>
    let read := ofTransaction { tx with duplicate := o.tx.duplicate }
    if !wire && unconfirmed && decide (source.length < 4 + 8 + 1) then o.reset
    else if (if currency = .bch then false else witness) then read
    else read.stripWitness

/-- Assignment copies or moves the fields and no cache. -/
def assign (tx : Transaction) : TransactionObject := { o with tx }

/-- What a move leaves behind. -/
def movedFrom : TransactionObject :=
  { o with tx := { o.tx with inputs := [], outputs := [] } }

/-- Fills the hash again. -/
def recomputeHash : TransactionObject :=
  (TransactionObject.hash currency hashes { o with hash_ := none } false).2

end

end TransactionObject

/-- The cached values. -/
inductive TransactionSlot
  | hash
  | witnessHash
  | outputsHash
  | inpointsHash
  | sequencesHash
  | totalInputValue
  | totalOutputValue
  | segregated
  deriving DecidableEq

/-- What a cache holds. -/
def TransactionSlot.Value : TransactionSlot → Type
  | hash | witnessHash | outputsHash | inpointsHash | sequencesHash => HashDigest
  | totalInputValue | totalOutputValue => Nat
  | segregated => Bool

namespace TransactionObject

section

variable (currency : Currency) (hashes : Hashes)

/-- The value that belongs into each cache. -/
def compute : (slot : TransactionSlot) → Transaction → slot.Value
  | .hash, tx => hashes.bitcoinHash (tx.toData currency true false)
  | .witnessHash, tx =>
    if tx.isCoinbase then nullHash else hashes.bitcoinHash (tx.toData currency true true)
  | .outputsHash, tx => toOutputs hashes tx
  | .inpointsHash, tx => toInpoints hashes tx
  | .sequencesHash, tx => toSequences hashes tx
  | .totalInputValue, tx => tx.totalInputValue
  | .totalOutputValue, tx => tx.totalOutputValue
  | .segregated, tx => tx.isSegregated currency

/-- The caches that a getter can read: the witness hash only of a segregated object. -/
def slot (o : TransactionObject) : (slot : TransactionSlot) → Option slot.Value
  | .hash => o.hash_
  | .witnessHash => if o.isSegregated currency then o.witnessHash_ else none
  | .outputsHash => o.outputsHash_
  | .inpointsHash => o.inpointsHash_
  | .sequencesHash => o.sequencesHash_
  | .totalInputValue => o.totalInputValue_
  | .totalOutputValue => o.totalOutputValue_
  | .segregated => o.segregated_

/-- The object as a memo. -/
def memo (o : TransactionObject) : Memo.Object Transaction TransactionSlot.Value where
  content := o.tx
  slot := o.slot currency

/-- Every cache that a getter can read holds the value of the fields. -/
def Coherent (o : TransactionObject) : Prop := (o.memo currency).Coherent (compute currency hashes)

end

theorem coherent_ofTransaction (currency : Currency) (hashes : Hashes) (tx : Transaction) :
    (ofTransaction tx).Coherent currency hashes := by
  apply Memo.Object.coherent_of_empty
  intro slot
  cases slot with
  | witnessHash => exact ite_self none
  | _ => rfl

variable {currency : Currency} {hashes : Hashes} {o : TransactionObject}

/-- A coherent object knows whether it is segregated. -/
theorem Coherent.isSegregated_eq (h : o.Coherent currency hashes) :
    o.isSegregated currency = o.tx.isSegregated currency := by
  unfold isSegregated
  split_ifs with hcur
  · simp [Transaction.isSegregated, hcur]
  · exact Memo.Object.Coherent.getD_eq h .segregated

theorem Coherent.hash_eq (h : o.Coherent currency hashes) (witness : Bool) :
    (o.hash currency hashes witness).1 = o.tx.hash currency hashes witness := by
  have hseg := h.isSegregated_eq
  have hmask : ((if currency = .bch then false else witness) && o.isSegregated currency) =
      (witness && o.tx.isSegregated currency) := by
    rw [hseg]
    by_cases hcur : currency = .bch <;> simp [hcur, Transaction.isSegregated]
  simp only [hash, Transaction.hash, hmask]
  cases hwit : witness && o.tx.isSegregated currency with
  | false =>
    rw [if_neg (by decide), if_neg (by decide), cached_fst]
    exact Memo.Object.Coherent.getD_eq h .hash
  | true =>
    have hobject : o.isSegregated currency := by
      rw [hseg]
      exact (Bool.and_eq_true_iff.mp hwit).2
    have hread := Memo.Object.Coherent.getD_eq h .witnessHash
    simp only [memo, slot, compute, hobject] at hread
    rw [if_pos rfl, if_pos rfl, cached_fst, toData, hobject]
    exact hread

/-- A getter of a coherent object returns what a fresh object returns. -/
theorem Coherent.get_eq (h : o.Coherent currency hashes) (getter : TransactionGetter) :
    (o.get currency hashes getter).1 = ((ofTransaction o.tx).get currency hashes getter).1 := by
  have hfresh := coherent_ofTransaction currency hashes o.tx
  have hread := Memo.Object.Coherent.getD_eq h
  cases getter with
  | hash witness => exact (h.hash_eq witness).trans (hfresh.hash_eq witness).symm
  | outputsHash => exact cached_fst.trans (hread .outputsHash)
  | inpointsHash => exact cached_fst.trans (hread .inpointsHash)
  | sequencesHash => exact cached_fst.trans (hread .sequencesHash)
  | isSegregated => exact h.isSegregated_eq.trans hfresh.isSegregated_eq.symm
  | totalInputValue => exact cached_fst.trans (hread .totalInputValue)
  | totalOutputValue => exact cached_fst.trans (hread .totalOutputValue)

/-- Each cache is empty, or the fields that it was computed from are those of the transaction. -/
structure Retains (currency : Currency) (o : TransactionObject) (tx : Transaction) : Prop where
  hash : o.hash_ = none ∨ tx.wireKey = o.tx.wireKey
  witnessHash : o.witnessHash_ = none ∨ tx.isSegregated currency = false ∨ tx.Equal o.tx
  outputsHash : o.outputsHash_ = none ∨
    tx.outputs.map Output.wireKey = o.tx.outputs.map Output.wireKey
  inpointsHash : o.inpointsHash_ = none ∨ tx.previousOutputs = o.tx.previousOutputs
  sequencesHash : o.sequencesHash_ = none ∨ tx.inputs.map sequence = o.tx.inputs.map sequence
  totalInputValue : o.totalInputValue_ = none ∨
    tx.inputs.map prevoutValue = o.tx.inputs.map prevoutValue
  totalOutputValue : o.totalOutputValue_ = none ∨
    tx.outputs.map Output.value = o.tx.outputs.map Output.value
  segregated : o.segregated_ = none ∨ tx.isSegregated currency = o.tx.isSegregated currency

end TransactionObject

section

variable {currency : Currency} {tx tx' : Transaction}

theorem Script.toOutputs_congr (hashes : Hashes)
    (h : tx.outputs.map Output.wireKey = tx'.outputs.map Output.wireKey) :
    toOutputs hashes tx = toOutputs hashes tx' := by
  have hdata : ∀ tx : Transaction, outputsData tx =
      (tx.outputs.map Output.wireKey).flatMap encodeOutputKey := by
    intro tx
    rw [flatMap_map]
    rfl
  rw [toOutputs, toOutputs, hdata, hdata, h]

theorem Script.toInpoints_congr (hashes : Hashes) (h : tx.previousOutputs = tx'.previousOutputs) :
    toInpoints hashes tx = toInpoints hashes tx' := by
  have hdata : ∀ tx : Transaction, inpointsData tx =
      tx.previousOutputs.flatMap fun point => point.toData true := by
    intro tx
    rw [previousOutputs, flatMap_map]
    rfl
  rw [toInpoints, toInpoints, hdata, hdata, h]

theorem Script.toSequences_congr (hashes : Hashes)
    (h : tx.inputs.map sequence = tx'.inputs.map sequence) :
    toSequences hashes tx = toSequences hashes tx' := by
  have hdata : ∀ tx : Transaction, sequencesData tx =
      (tx.inputs.map sequence).flatMap fun sequence => LittleEndian.ofNat 4 sequence.toNat := by
    intro tx
    rw [flatMap_map]
    rfl
  rw [toSequences, toSequences, hdata, hdata, h]

theorem Transaction.totalInputValue_congr
    (h : tx.inputs.map prevoutValue = tx'.inputs.map prevoutValue) :
    tx.totalInputValue = tx'.totalInputValue :=
  congrArg (Saturating.sum maxUint64) h

theorem Transaction.totalOutputValue_congr
    (h : tx.outputs.map Output.value = tx'.outputs.map Output.value) :
    tx.totalOutputValue = tx'.totalOutputValue := by
  have hvals : ∀ tx : Transaction, tx.totalOutputValue =
      Saturating.sum maxUint64 ((tx.outputs.map Output.value).map UInt64.toNat) := by
    intro tx
    rw [map_map]
    rfl
  rw [hvals, hvals, h]

/-- Equal transactions are one transaction when the metadata is left out. -/
theorem Transaction.Equal.bare_eq (h : tx.Equal tx') : tx.bare true = tx'.bare true := by
  obtain ⟨hver, hlock, hinputs, houtputs⟩ := h
  have hinput : ∀ inputs : List Input, inputs.map Input.bare =
      (inputs.map Input.key).map fun key =>
        { previousOutput := { toPoint := key.1.1 }, script := key.1.2.1, witness := key.2,
          sequence := key.1.2.2 } := by
    intro inputs
    rw [map_map]
    rfl
  have houtput : ∀ outputs : List Output, outputs.map (Output.bare true) =
      (outputs.map Output.wireKey).map fun key => { value := key.1, script := key.2 } := by
    intro outputs
    rw [map_map]
    rfl
  rw [bare, bare, hver, hlock, hinput, hinput, hinputs, houtput, houtput, houtputs]

theorem Transaction.isSegregated_bare (currency : Currency) (tx : Transaction) :
    (tx.bare true).isSegregated currency = tx.isSegregated currency := by
  simp only [isSegregated, bare, any_map]
  rfl

theorem Transaction.isCoinbase_bare (tx : Transaction) :
    (tx.bare true).isCoinbase = tx.isCoinbase := by
  simp only [isCoinbase, bare]
  rcases tx.inputs with _ | ⟨input, _ | ⟨next, rest⟩⟩ <;> rfl

theorem Transaction.toData_bare (currency : Currency) (tx : Transaction) (witness : Bool) :
    (tx.bare true).toData currency true witness = tx.toData currency true witness := by
  have hinput : ∀ (input : Input) (witness : Bool),
      input.bare.toData currency true witness = input.toData currency true witness :=
    fun _ _ => rfl
  have houtput : ∀ output : Output, (output.bare true).toData true = output.toData true := by
    intro output
    simp only [Output.bare, Output.toData, if_true]
  have hwit : ∀ input : Input, input.bare.witness = input.witness := fun _ => rfl
  simp only [toData, isSegregated_bare, if_true]
  simp only [bare, writeInputs, writeOutputs, writeWitnesses, length_map, flatMap_map,
    hinput, houtput, hwit]

theorem Transaction.isSegregated_stripWitness (currency : Currency) (tx : Transaction) :
    tx.stripWitness.isSegregated currency = false := by
  simp [isSegregated, stripWitness, Input.isSegregated, Input.stripWitness, Witness.isEmpty]

end

namespace TransactionObject

variable {currency : Currency} {hashes : Hashes} {o : TransactionObject} {tx : Transaction}

/-- What is computed for a segregated transaction is the same for an equal one. -/
theorem compute_witnessHash_congr {tx' : Transaction} (h : tx.Equal tx') :
    compute currency hashes .witnessHash tx = compute currency hashes .witnessHash tx' := by
  simp only [compute]
  rw [← tx.isCoinbase_bare, ← tx.toData_bare, h.bare_eq, isCoinbase_bare, toData_bare]

theorem slot_witnessHash_of_none (h : o.witnessHash_ = none) :
    o.slot currency .witnessHash = none := by
  unfold slot
  rw [h]
  exact ite_self none

theorem slot_witnessHash_of_not (h : o.isSegregated currency = false) :
    o.slot currency .witnessHash = none := by
  unfold slot
  rw [h]
  rfl

theorem isSegregated_assign (h : o.Coherent currency hashes) (hretains : o.Retains currency tx) :
    (o.assign tx).isSegregated currency = tx.isSegregated currency := by
  unfold isSegregated assign
  split_ifs with hcur
  · simp [Transaction.isSegregated, hcur]
  · cases hflag : o.segregated_ with
    | none => rfl
    | some flag =>
      have hval : flag = o.tx.isSegregated currency := h .segregated flag hflag
      obtain hnone | hsame := hretains.segregated
      · simp [hflag] at hnone
      · exact hval.trans hsame.symm

theorem Coherent.assign (h : o.Coherent currency hashes) (hretains : o.Retains currency tx) :
    (o.assign tx).Coherent currency hashes := by
  have hseg := isSegregated_assign h hretains
  apply Memo.Object.Coherent.of_maintains h
  intro slot
  cases slot with
  | hash =>
    refine hretains.hash.imp id fun hkey => .inr ⟨rfl, ?_⟩
    exact congrArg hashes.bitcoinHash (toData_wire_congr currency hkey)
  | witnessHash =>
    obtain hnone | hnot | hequal := hretains.witnessHash
    · exact .inl (slot_witnessHash_of_none hnone)
    · exact .inl (slot_witnessHash_of_not (hseg.trans hnot))
    · refine .inr (.inr ⟨?_, compute_witnessHash_congr hequal⟩)
      have hsame : (o.assign tx).isSegregated currency = o.isSegregated currency := by
        rw [hseg, h.isSegregated_eq, ← tx.isSegregated_bare, hequal.bare_eq, isSegregated_bare]
      simp only [memo, slot, hsame]
      rfl
  | outputsHash =>
    exact hretains.outputsHash.imp id fun hkeys => .inr ⟨rfl, toOutputs_congr hashes hkeys⟩
  | inpointsHash =>
    exact hretains.inpointsHash.imp id fun hpoints =>
      .inr ⟨rfl, toInpoints_congr hashes hpoints⟩
  | sequencesHash =>
    exact hretains.sequencesHash.imp id fun hseqs =>
      .inr ⟨rfl, toSequences_congr hashes hseqs⟩
  | totalInputValue =>
    exact hretains.totalInputValue.imp id fun hvals =>
      .inr ⟨rfl, totalInputValue_congr hvals⟩
  | totalOutputValue =>
    exact hretains.totalOutputValue.imp id fun hvals =>
      .inr ⟨rfl, totalOutputValue_congr hvals⟩
  | segregated => exact hretains.segregated.imp id fun hsame => .inr ⟨rfl, hsame⟩

/-- Only the two hashes depend on the version and the locktime. -/
theorem Coherent.invalidateCache (h : o.Coherent currency hashes) (version locktime : UInt32) :
    ({ o with tx := { o.tx with version, locktime } } : TransactionObject).invalidateCache.Coherent
      currency hashes := by
  apply Memo.Object.Coherent.of_maintains h
  intro slot
  cases slot with
  | hash => exact .inl rfl
  | witnessHash => exact .inl (ite_self none)
  | _ => exact .inr (.inr ⟨rfl, rfl⟩)

theorem Coherent.setVersion (h : o.Coherent currency hashes) (version : UInt32) :
    (o.setVersion version).Coherent currency hashes :=
  h.invalidateCache version o.tx.locktime

theorem Coherent.setLocktime (h : o.Coherent currency hashes) (locktime : UInt32) :
    (o.setLocktime locktime).Coherent currency hashes :=
  h.invalidateCache o.tx.version locktime

theorem Coherent.setInputs (h : o.Coherent currency hashes) (inputs : List Input) :
    (o.setInputs inputs).Coherent currency hashes := by
  apply Memo.Object.Coherent.of_maintains h
  intro slot
  cases slot with
  | outputsHash | totalOutputValue => exact .inr (.inr ⟨rfl, rfl⟩)
  | witnessHash => exact .inl (ite_self none)
  | _ => exact .inl rfl

/-- The two hashes of inputs that stay are those of the new inputs. -/
structure RetainsInputs (o : TransactionObject) (inputs : List Input) : Prop where
  inpointsHash : o.inpointsHash_ = none ∨
    inputs.map (fun input => input.previousOutput.toPoint) = o.tx.previousOutputs
  sequencesHash : o.sequencesHash_ = none ∨ inputs.map sequence = o.tx.inputs.map sequence

theorem Coherent.moveInputs (h : o.Coherent currency hashes) {inputs : List Input}
    (hretains : o.RetainsInputs inputs) : (o.moveInputs inputs).Coherent currency hashes := by
  apply Memo.Object.Coherent.of_maintains h
  intro slot
  cases slot with
  | outputsHash | totalOutputValue => exact .inr (.inr ⟨rfl, rfl⟩)
  | witnessHash => exact .inl (ite_self none)
  | inpointsHash =>
    exact hretains.inpointsHash.imp id fun hpoints =>
      .inr ⟨rfl, toInpoints_congr hashes hpoints⟩
  | sequencesHash =>
    exact hretains.sequencesHash.imp id fun hseqs =>
      .inr ⟨rfl, toSequences_congr hashes hseqs⟩
  | hash | totalInputValue | segregated => exact .inl rfl

theorem Coherent.setOutputs (h : o.Coherent currency hashes) (outputs : List Output) :
    (o.setOutputs outputs).Coherent currency hashes := by
  apply Memo.Object.Coherent.of_maintains h
  intro slot
  cases slot with
  | hash | outputsHash | totalOutputValue => exact .inl rfl
  | witnessHash => exact .inl (ite_self none)
  | _ => exact .inr (.inr ⟨rfl, rfl⟩)

/-- The hash of outputs that stays is that of the new outputs. -/
def RetainsOutputs (o : TransactionObject) (outputs : List Output) : Prop :=
  o.outputsHash_ = none ∨ outputs.map Output.wireKey = o.tx.outputs.map Output.wireKey

theorem Coherent.moveOutputs (h : o.Coherent currency hashes) {outputs : List Output}
    (hretains : o.RetainsOutputs outputs) : (o.moveOutputs outputs).Coherent currency hashes := by
  apply Memo.Object.Coherent.of_maintains h
  intro slot
  cases slot with
  | hash | totalOutputValue => exact .inl rfl
  | witnessHash => exact .inl (ite_self none)
  | outputsHash =>
    exact hretains.imp id fun hkeys => .inr ⟨rfl, toOutputs_congr hashes hkeys⟩
  | _ => exact .inr (.inr ⟨rfl, rfl⟩)

theorem isSegregated_stripWitness (currency : Currency) (o : TransactionObject) :
    o.stripWitness.isSegregated currency = false := by
  unfold isSegregated
  split_ifs <;> rfl

theorem Coherent.stripWitness (h : o.Coherent currency hashes) :
    o.stripWitness.Coherent currency hashes := by
  have hinputs : ∀ {α : Type} (f : Input → α), (∀ input : Input, f input.stripWitness = f input) →
      o.tx.stripWitness.inputs.map f = o.tx.inputs.map f := by
    intro α f hf
    simp only [Transaction.stripWitness, map_map, Function.comp_def, hf]
  apply Memo.Object.Coherent.of_maintains h
  intro slot
  cases slot with
  | hash =>
    refine .inr (.inr ⟨rfl, congrArg hashes.bitcoinHash ?_⟩)
    apply Transaction.toData_wire_congr
    have hkeys := hinputs wireKey fun _ => rfl
    exact congrArg
      (fun keys => (o.tx.version, (keys, o.tx.outputs.map Output.wireKey), o.tx.locktime)) hkeys
  | witnessHash =>
    exact .inl (slot_witnessHash_of_not (isSegregated_stripWitness currency o))
  | inpointsHash =>
    exact .inr (.inr ⟨rfl, toInpoints_congr hashes (hinputs _ fun _ => rfl)⟩)
  | sequencesHash =>
    exact .inr (.inr ⟨rfl, toSequences_congr hashes (hinputs _ fun _ => rfl)⟩)
  | totalInputValue =>
    exact .inr (.inr ⟨rfl, Transaction.totalInputValue_congr (hinputs _ fun _ => rfl)⟩)
  | outputsHash | totalOutputValue => exact .inr (.inr ⟨rfl, rfl⟩)
  | segregated =>
    exact .inr (.inl (congrArg some (o.tx.isSegregated_stripWitness currency).symm))

theorem Coherent.fromData (currency : Currency) (hashes : Hashes) (o : TransactionObject)
    (wire witness unconfirmed : Bool) (source : DataChunk) :
    (o.fromData currency wire witness unconfirmed source).Coherent currency hashes := by
  have hfresh := coherent_ofTransaction currency hashes
  unfold TransactionObject.fromData
  cases Transaction.fromData currency wire witness source with
  | none => exact hfresh _
  | some read =>
    dsimp only
    split
    · exact hfresh _
    · cases if currency = .bch then false else witness with
      | false => exact (hfresh _).stripWitness
      | true => exact hfresh _

theorem Coherent.hash (h : o.Coherent currency hashes) (witness : Bool) :
    (o.hash currency hashes witness).2.Coherent currency hashes := by
  unfold TransactionObject.hash
  dsimp only
  generalize (if currency = .bch then false else witness) = used
  split
  · next hwit =>
      have hobject : o.isSegregated currency := (Bool.and_eq_true_iff.mp hwit).2
      apply cached_snd h
      refine h.fill .witnessHash rfl ?_
      intro slot
      cases slot with
      | witnessHash =>
        rw [TransactionObject.toData, hobject]
        exact if_pos hobject
      | _ => rfl
  · apply cached_snd h
    refine h.fill .hash rfl ?_
    intro slot
    cases slot <;> rfl

theorem Coherent.get (h : o.Coherent currency hashes) (getter : TransactionGetter) :
    (o.get currency hashes getter).2.Coherent currency hashes := by
  cases getter with
  | hash witness => exact h.hash witness
  | isSegregated => exact h
  | outputsHash => exact cached_snd h (h.fill .outputsHash rfl (by intro slot; cases slot <;> rfl))
  | inpointsHash => exact cached_snd h (h.fill .inpointsHash rfl (by intro slot; cases slot <;> rfl))
  | sequencesHash =>
    exact cached_snd h (h.fill .sequencesHash rfl (by intro slot; cases slot <;> rfl))
  | totalInputValue =>
    exact cached_snd h (h.fill .totalInputValue rfl (by intro slot; cases slot <;> rfl))
  | totalOutputValue =>
    exact cached_snd h (h.fill .totalOutputValue rfl (by intro slot; cases slot <;> rfl))

theorem Coherent.recomputeHash (h : o.Coherent currency hashes) :
    (o.recomputeHash currency hashes).Coherent currency hashes := by
  have hcleared : ({ o with hash_ := none } : TransactionObject).Coherent currency hashes := by
    apply Memo.Object.Coherent.of_maintains h
    intro slot
    cases slot with
    | hash => exact .inl rfl
    | _ => exact .inr (.inr ⟨rfl, rfl⟩)
  exact hcleared.hash false

/-- A constructor that is given the hash of the transaction. -/
theorem coherent_withHash {hash : HashDigest} (h : hash = tx.hash currency hashes false) :
    ({ tx, hash_ := some hash } : TransactionObject).Coherent currency hashes := by
  refine (coherent_ofTransaction currency hashes tx).fill .hash rfl ?_
  intro slot
  cases slot with
  | hash => exact congrArg some h
  | _ => rfl

end TransactionObject

end BitprimCore
