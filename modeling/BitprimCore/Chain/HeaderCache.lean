import BitprimCore.Chain.Deserialization
import BitprimCore.Library.Memo

/-!
# The cache of a header

A header object caches its hash (`chain/header`). Assigning a header and reading it again change
the fields and leave the hash.

## Implementation notes

What a failed read leaves in `validation.median_time_past` is not modelled, and neither are the
locks.
-/

namespace BitprimCore

/-- A header with its cache. -/
structure HeaderObject where
  header : Header
  hash_ : Option HashDigest := none
  deriving DecidableEq

namespace HeaderObject

/-- A fresh object. Copying and moving a header start with an empty cache. -/
def ofHeader (header : Header) : HeaderObject where
  header

section

variable (hashes : Hashes) (o : HeaderObject)

/-- The hash, cached once computed. -/
def hash : HashDigest × HeaderObject :=
  Memo.cached o.hash_ (hashes.bitcoinHash (o.header.toData true)) o
    fun value => { o with hash_ := value }

/-- Forgets the hash. -/
def invalidateCache : HeaderObject := { o with hash_ := none }

/-- Also forgets the hash. -/
def reset : HeaderObject :=
  { o with
    header :=
      { version := 0, previousBlockHash := nullHash, merkle := nullHash, timestamp := 0, bits := 0,
        nonce := 0, medianTimePast := o.header.medianTimePast } }.invalidateCache

/-- The fields are read over the old ones. Only a read that fails clears the cache. -/
def fromData (wire : Bool) (source : DataChunk) : HeaderObject :=
  match Header.fromData wire source with
  | none => o.reset
  | some (header, _) =>
    let medianTimePast := if wire then o.header.medianTimePast else header.medianTimePast
    { o with header := { header with medianTimePast } }

/-- Assignment copies or moves the fields and not the cache. -/
def assign (header : Header) : HeaderObject := { o with header }

variable (value : UInt32)

def setVersion : HeaderObject :=
  { o with header := { o.header with version := value } }.invalidateCache

def setPreviousBlockHash (value : HashDigest) : HeaderObject :=
  { o with header := { o.header with previousBlockHash := value } }.invalidateCache

def setMerkle (value : HashDigest) : HeaderObject :=
  { o with header := { o.header with merkle := value } }.invalidateCache

def setTimestamp : HeaderObject :=
  { o with header := { o.header with timestamp := value } }.invalidateCache

def setBits : HeaderObject :=
  { o with header := { o.header with bits := value } }.invalidateCache

def setNonce : HeaderObject :=
  { o with header := { o.header with nonce := value } }.invalidateCache

/-- The one cache of a header. -/
def memo : Memo.Object Header fun _ : Unit => HashDigest where
  content := o.header
  slot _ := o.hash_

/-- A cached hash is that of the fields. -/
def Coherent : Prop := o.memo.Coherent fun _ header => header.hash hashes

/-- The cache is empty, or the fields that it was computed from are those of the header. -/
def Retains (header : Header) : Prop := o.hash_ = none ∨ header.Equal o.header

end

theorem coherent_ofHeader (hashes : Hashes) (header : Header) : (ofHeader header).Coherent hashes :=
  Memo.Object.coherent_of_empty fun _ => rfl

variable {hashes : Hashes} {o : HeaderObject} {header : Header}

theorem Coherent.hash_eq (h : o.Coherent hashes) : (o.hash hashes).1 = o.header.hash hashes :=
  Memo.cached_fst.trans (Memo.Object.Coherent.getD_eq h ())

theorem Coherent.hash (h : o.Coherent hashes) : (o.hash hashes).2.Coherent hashes := by
  apply Memo.cached_snd h
  apply Memo.Object.Coherent.of_maintains h
  intro slot
  exact .inr (.inl rfl)

theorem coherent_withHash {hash : HashDigest} (h : hash = header.hash hashes) :
    ({ header, hash_ := some hash } : HeaderObject).Coherent hashes := by
  apply Memo.Object.Coherent.of_maintains (coherent_ofHeader hashes header)
  intro slot
  exact .inr (.inl (congrArg some h))

theorem Coherent.assign (h : o.Coherent hashes) (hretains : o.Retains header) :
    (o.assign header).Coherent hashes := by
  apply Memo.Object.Coherent.of_maintains h
  intro slot
  refine hretains.imp id fun hequal => .inr ⟨rfl, ?_⟩
  -- The hash does not see the median time past, the one field that may differ.
  rw [HeaderObject.assign, hequal]
  rfl

/-- Reading is assigning, unless the read fails. -/
theorem Coherent.fromData (h : o.Coherent hashes) {wire : Bool} {source : DataChunk}
    (hretains : ∀ read ∈ Header.fromData wire source, o.Retains read.1) :
    (o.fromData wire source).Coherent hashes := by
  unfold HeaderObject.fromData
  cases hread : Header.fromData wire source with
  | none => exact coherent_ofHeader hashes _
  | some read =>
    apply h.assign
    refine (hretains read hread).imp id fun hequal => ?_
    rw [Header.Equal, hequal]

end HeaderObject

/-- The public operations on named headers, apart from those that hand out a mutable reference.
Moving a header copies it. -/
inductive HeaderOp (ι : Type*)
  | construct (target : ι) (header : Header)
  | copyConstruct (target source : ι)
  | copyConstructWithHash (target source : ι) (hash : HashDigest)
  | copyAssign (target source : ι)
  | fromData (target : ι) (wire : Bool) (source : DataChunk)
  | setVersion (target : ι) (value : UInt32)
  | setPreviousBlockHash (target : ι) (value : HashDigest)
  | setMerkle (target : ι) (value : HashDigest)
  | setTimestamp (target : ι) (value : UInt32)
  | setBits (target : ι) (value : UInt32)
  | setNonce (target : ι) (value : UInt32)
  | hash (target : ι)

open Function

namespace HeaderStore

variable {ι : Type*} [DecidableEq ι]

/-- One operation on named headers. -/
def step (hashes : Hashes) (store : ι → HeaderObject) : HeaderOp ι → ι → HeaderObject
  | .construct target header => update store target (.ofHeader header)
  | .copyConstruct target source => update store target (.ofHeader (store source).header)
  | .copyConstructWithHash target source hash =>
    update store target { header := (store source).header, hash_ := some hash }
  | .copyAssign target source => update store target ((store target).assign (store source).header)
  | .fromData target wire source => update store target ((store target).fromData wire source)
  | .setVersion target value => update store target ((store target).setVersion value)
  | .setPreviousBlockHash target value =>
    update store target ((store target).setPreviousBlockHash value)
  | .setMerkle target value => update store target ((store target).setMerkle value)
  | .setTimestamp target value => update store target ((store target).setTimestamp value)
  | .setBits target value => update store target ((store target).setBits value)
  | .setNonce target value => update store target ((store target).setNonce value)
  | .hash target => update store target ((store target).hash hashes).2

/-- The condition on an operation: the hash that it keeps is that of the new fields, and a hash
that it is given is that of the header. -/
def Condition (hashes : Hashes) (store : ι → HeaderObject) : HeaderOp ι → Prop
  | .copyConstructWithHash _ source hash => hash = (store source).header.hash hashes
  | .copyAssign target source => (store target).Retains (store source).header
  | .fromData target wire source =>
    ∀ read ∈ Header.fromData wire source, (store target).Retains read.1
  | _ => True

variable {hashes : Hashes} {store : ι → HeaderObject}

theorem coherent_step (h : ∀ i, (store i).Coherent hashes) {op : HeaderOp ι}
    (hcond : Condition hashes store op) : ∀ i, (step hashes store op i).Coherent hashes := by
  cases op with
  | copyConstructWithHash target source hash =>
    exact Memo.forall_update h (HeaderObject.coherent_withHash hcond)
  | copyAssign target source => exact Memo.forall_update h ((h target).assign hcond)
  | fromData target wire source => exact Memo.forall_update h ((h target).fromData hcond)
  | hash target => exact Memo.forall_update h (h target).hash
  -- Every other operation leaves an empty cache.
  | _ => exact Memo.forall_update h (HeaderObject.coherent_ofHeader hashes _)

end HeaderStore

end BitprimCore
