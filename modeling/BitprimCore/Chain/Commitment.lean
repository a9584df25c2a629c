import BitprimCore.Chain.Signing
import BitprimCore.Math.Sha256
import Mathlib.Data.List.Flatten

/-!
# What a signature commits to

Two signature hashes of one input index and one hash type are equal exactly when the transactions
agree on the fields the type selects. Collision resistance is asked of the messages that the two
computations hash, and of no others.
-/

namespace BitprimCore

open List LittleEndian Option PrefixCode Transaction

section

variable {α κ γ δ : Type*} {xs ys : List α} {i : Nat} {x y : α}

theorem map_pair_eq_iff (f : α → κ) (g : α → γ) :
    (xs.map fun a => (f a, g a)) = (ys.map fun a => (f a, g a)) ↔
      xs.map f = ys.map f ∧ xs.map g = ys.map g := by
  constructor
  · intro h
    have hfst := congrArg (map Prod.fst) h
    have hsnd := congrArg (map Prod.snd) h
    simp only [List.map_map, Function.comp_def] at hfst hsnd
    exact ⟨hfst, hsnd⟩
  · rintro ⟨hf, hg⟩
    have hzip := congrArg₂ zip hf hg
    rwa [zip_map', zip_map'] at hzip

/-- Two lists of which one place is changed look alike exactly when they agree on the keys that are
left in every place, and the changed places look alike. -/
theorem modify_map_eq_iff (hx : xs[i]? = some x) (hy : ys[i]? = some y) (key : α → κ) (base : κ → δ)
    (left : δ → κ) {entry : α → γ} {view : γ → δ}
    (hentry : ∀ a, view (entry a) = base (key a)) (hbase : ∀ k, left (base k) = k)
    {change change' : γ → γ} (hchange : ∀ a, left (view (change a)) = left (view a))
    (hchange' : ∀ a, left (view (change' a)) = left (view a)) :
    ((xs.map entry).modify i change).map view = ((ys.map entry).modify i change').map view ↔
      xs.map key = ys.map key ∧ view (change (entry x)) = view (change' (entry y)) := by
  constructor
  · intro h
    constructor
    · have hleft := congrArg (List.map left) h
      simp only [List.map_map] at hleft
      rw [map_modify_of_forall_eq hchange, map_modify_of_forall_eq hchange'] at hleft
      simpa [Function.comp_def, hentry, hbase] using hleft
    · have hat := congrArg (fun l => l[i]?) h
      simpa [hx, hy] using hat
  · rintro ⟨hkeys, hat⟩
    have hviews : (xs.map entry).map view = (ys.map entry).map view := by
      have hmap := congrArg (List.map base) hkeys
      simpa only [List.map_map, Function.comp_def, hentry] using hmap
    apply List.ext_getElem?
    intro j
    by_cases hij : i = j
    · subst hij
      simp [hx, hy, hat]
    · rw [List.getElem?_map, List.getElem?_map, List.getElem?_modify_ne _ _ hij,
        List.getElem?_modify_ne _ _ hij, ← List.getElem?_map, ← List.getElem?_map, hviews]

theorem forall_mem_modify {P : γ → Prop} {zs : List γ} {change : γ → γ} (h : ∀ a ∈ zs, P a)
    (hchange : ∀ a, P (change a)) : ∀ a ∈ zs.modify i change, P a := by
  intro a ha
  obtain ⟨j, hj⟩ := getElem?_of_mem ha
  rw [getElem?_modify] at hj
  obtain ⟨b, hb, rfl⟩ := map_eq_some_iff.mp hj
  split_ifs
  · exact hchange b
  · exact h b (mem_of_getElem? hb)

end

namespace Script

variable {currency : Currency} {hashes : Hashes} {tx tx' : Transaction} {inputIndex : UInt32}
  {scriptCode scriptCode' : Script} {sighashType : UInt8} {self self' : Input}

/-- The script codes agree without their separators exactly when the stripped bytes do. -/
theorem stripCodeSeparators_eq_iff (hvalid : scriptCode.isValidOperations currency)
    (hvalid' : scriptCode'.isValidOperations currency) :
    stripCodeSeparators currency scriptCode = stripCodeSeparators currency scriptCode' ↔
      withoutCodeSeparators currency scriptCode = withoutCodeSeparators currency scriptCode' := by
  constructor
  · intro h
    refine operationsToData_injOn (fun op hop => ?_) (fun op hop => ?_) (congrArg Script.bytes h)
    · exact wellFormed_operations hvalid op (mem_of_mem_filter hop)
    · exact wellFormed_operations hvalid' op (mem_of_mem_filter hop)
  · intro h
    rw [stripCodeSeparators, stripCodeSeparators, h]

theorem sized_stripCodeSeparators (hvalid : scriptCode.isValidOperations currency)
    (hsized : scriptCode.Sized) : (stripCodeSeparators currency scriptCode).Sized := by
  have hlen : (operationsToData (withoutCodeSeparators currency scriptCode)).length ≤
      (operationsToData (scriptCode.operations currency)).length :=
    (filter_sublist.flatMap Operation.toData).length_le
  rw [operationsToData_operations hvalid] at hlen
  exact lt_of_le_of_lt hlen hsized

/-- The trimmed outputs hold the output of the index, as long as their count does not wrap. -/
theorem trimOutputs_wireKey_eq_iff (hidx : inputIndex.toNat + 1 < 2 ^ 32)
    (houtput : inputIndex.toNat < tx.outputs.length)
    (houtput' : inputIndex.toNat < tx'.outputs.length) :
    (trimOutputs tx inputIndex).map Output.wireKey = (trimOutputs tx' inputIndex).map Output.wireKey ↔
      tx.outputs[inputIndex.toNat]?.map Output.wireKey =
        tx'.outputs[inputIndex.toNat]?.map Output.wireKey := by
  have hcount : (inputIndex + 1).toNat = inputIndex.toNat + 1 := by
    rw [UInt32.toNat_add, UInt32.toNat_one]
    exact Nat.mod_eq_of_lt hidx
  have hget : ∀ output output' : Output,
      ((replicate (inputIndex + 1).toNat {}).set inputIndex.toNat output).map Output.wireKey =
        ((replicate (inputIndex + 1).toNat {}).set inputIndex.toNat output').map Output.wireKey ↔
      output.wireKey = output'.wireKey := by
    intro output output'
    constructor
    · intro h
      have hat := congrArg (fun l => l[inputIndex.toNat]?) h
      simpa [hcount] using hat
    · intro h
      rw [map_set, map_set, h]
  unfold trimOutputs
  rw [hget, getD_eq_getElem?_getD, getD_eq_getElem?_getD,
    getElem?_eq_getElem houtput, getElem?_eq_getElem houtput']
  simp

/-! The counts and sizes of the rebuilt transaction can be written. -/

theorem sized_empty : Script.Sized {} := by
  simp [Script.Sized]

theorem sized_trimOutputs (htx : tx.Sized) :
    ∀ output ∈ trimOutputs tx inputIndex, output.script.Sized := by
  intro output houtput
  rcases mem_or_eq_of_mem_set houtput with hmem | rfl
  · rw [eq_of_mem_replicate hmem]
    exact sized_empty
  · rw [getD_eq_getElem?_getD]
    cases hget : tx.outputs[inputIndex.toNat]? with
    | none => exact sized_empty
    | some output => exact htx.outputScripts output (mem_of_getElem? hget)

/-- The input that signs alone, or the erased inputs. -/
theorem sized_signedInputs (self : Input) (any : Bool) (hcode : scriptCode.Sized)
    (erased : List Input) (hlen : erased.length < 2 ^ 64)
    (hscripts : ∀ input ∈ erased, input.script.Sized) :
    let inputs := if any then [retainSelf self scriptCode] else erased
    inputs.length < 2 ^ 64 ∧ ∀ input ∈ inputs, input.script.Sized := by
  cases any with
  | true => exact ⟨by simp, forall_mem_singleton.mpr hcode⟩
  | false => exact ⟨hlen, hscripts⟩

theorem sized_signedTransaction (htx : tx.Sized)
    (hvalid : scriptCode.isValidOperations currency) (hcode : scriptCode.Sized) :
    (signedTransaction currency tx inputIndex self scriptCode sighashType).Sized := by
  have hstripped := sized_stripCodeSeparators hvalid hcode
  have herased := sized_signedInputs self (isAnyoneCanPay sighashType) hstripped
    (eraseInputs tx inputIndex self _) (by simpa [eraseInputs] using htx.inputs)
    (forall_mem_modify (forall_mem_map.mpr fun _ _ => sized_empty) fun _ => hstripped)
  have hkept := sized_signedInputs self (isAnyoneCanPay sighashType) hstripped
    (eraseInputScripts tx inputIndex _) (by simpa [eraseInputScripts] using htx.inputs)
    (forall_mem_modify (forall_mem_map.mpr fun _ _ => sized_empty) fun _ => hstripped)
  have hcount : (trimOutputs tx inputIndex).length < 2 ^ 64 := by
    rw [trimOutputs, length_set, length_replicate]
    exact lt_trans (UInt32.toNat_lt _) (by decide)
  unfold signedTransaction
  split
  · exact ⟨herased.1, by simp [signNone], herased.2, by simp [signNone]⟩
  · exact ⟨herased.1, hcount, herased.2, sized_trimOutputs htx⟩
  · exact ⟨hkept.1, htx.outputs, hkept.2, htx.outputScripts⟩

/-- The points that are signed: all of them, or that of the input that signs. -/
def PointsAgree (any : Bool) (index : Nat) (tx tx' : Transaction) : Prop :=
  if any then
    (tx.inputs[index]?.map fun input => input.previousOutput.toPoint) =
      tx'.inputs[index]?.map fun input => input.previousOutput.toPoint
  else
    (tx.inputs.map fun input => input.previousOutput.toPoint) =
      tx'.inputs.map fun input => input.previousOutput.toPoint

/-- The sequences that are signed: all of them, or that of the input that signs. -/
def SequencesAgree (every : Bool) (index : Nat) (tx tx' : Transaction) : Prop :=
  if every then tx.inputs.map Input.sequence = tx'.inputs.map Input.sequence
  else tx.inputs[index]?.map Input.sequence = tx'.inputs[index]?.map Input.sequence

section

variable (any : Bool) (hself : tx.inputs[inputIndex.toNat]? = some self)
  (hself' : tx'.inputs[inputIndex.toNat]? = some self')

include hself hself'

/-- With scripts and sequences erased, the points of all inputs and the script and sequence of the
one that signs are left. -/
theorem eraseInputs_wireKey_eq_iff :
    (eraseInputs tx inputIndex self scriptCode).map Input.wireKey =
        (eraseInputs tx' inputIndex self' scriptCode').map Input.wireKey ↔
      (tx.inputs.map fun input => input.previousOutput.toPoint) =
          (tx'.inputs.map fun input => input.previousOutput.toPoint) ∧
        scriptCode = scriptCode' ∧ self.sequence = self'.sequence := by
  unfold eraseInputs
  refine (modify_map_eq_iff hself hself' (fun input => input.previousOutput.toPoint)
    (fun point => (point, {}, 0)) (fun key => key.1) ?_ ?_ ?_ ?_).trans ?_
  iterate 4 exact fun _ => rfl
  constructor
  · rintro ⟨hpoints, hat⟩
    simp only [Input.wireKey, Prod.mk.injEq] at hat
    exact ⟨hpoints, hat.2⟩
  · rintro ⟨hpoints, hcode, hseq⟩
    have hpoint := congrArg (fun l => l[inputIndex.toNat]?) hpoints
    simp only [getElem?_map, hself, hself', map_some, Option.some.injEq] at hpoint
    exact ⟨hpoints, by simp only [Input.wireKey, hpoint, hcode, hseq]⟩

/-- With scripts erased, all points and sequences and the script of the one that signs are left. -/
theorem eraseInputScripts_wireKey_eq_iff :
    (eraseInputScripts tx inputIndex scriptCode).map Input.wireKey =
        (eraseInputScripts tx' inputIndex scriptCode').map Input.wireKey ↔
      (tx.inputs.map fun input => input.previousOutput.toPoint) =
          (tx'.inputs.map fun input => input.previousOutput.toPoint) ∧
        tx.inputs.map Input.sequence = tx'.inputs.map Input.sequence ∧ scriptCode = scriptCode' := by
  unfold eraseInputScripts
  refine (modify_map_eq_iff hself hself'
    (fun input => (input.previousOutput.toPoint, input.sequence))
    (fun key => (key.1, {}, key.2)) (fun key => (key.1, key.2.2)) ?_ ?_ ?_ ?_).trans ?_
  iterate 4 exact fun _ => rfl
  rw [map_pair_eq_iff]
  constructor
  · rintro ⟨⟨hpoints, hseqs⟩, hat⟩
    simp only [Input.wireKey, Prod.mk.injEq] at hat
    exact ⟨hpoints, hseqs, hat.2.1⟩
  · rintro ⟨hpoints, hseqs, hcode⟩
    have hpoint := congrArg (fun l => l[inputIndex.toNat]?) hpoints
    have hseq := congrArg (fun l => l[inputIndex.toNat]?) hseqs
    simp only [getElem?_map, hself, hself', map_some, Option.some.injEq] at hpoint hseq
    exact ⟨⟨hpoints, hseqs⟩, by simp only [Input.wireKey, hpoint, hseq, hcode]⟩

/-- The inputs that `sign_none` and `sign_single` keep. -/
theorem erasedInputs_wireKey_eq_iff :
    (if any then [retainSelf self scriptCode] else eraseInputs tx inputIndex self scriptCode).map
          Input.wireKey =
        (if any then [retainSelf self' scriptCode'] else
          eraseInputs tx' inputIndex self' scriptCode').map Input.wireKey ↔
      PointsAgree any inputIndex.toNat tx tx' ∧ scriptCode = scriptCode' ∧
        SequencesAgree false inputIndex.toNat tx tx' := by
  cases any with
  | true => simp [PointsAgree, SequencesAgree, hself, hself', retainSelf, Input.wireKey]
  | false => simpa [PointsAgree, SequencesAgree, hself, hself'] using
      eraseInputs_wireKey_eq_iff hself hself'

/-- The inputs that `sign_all` keeps. -/
theorem keptInputs_wireKey_eq_iff :
    (if any then [retainSelf self scriptCode] else eraseInputScripts tx inputIndex scriptCode).map
          Input.wireKey =
        (if any then [retainSelf self' scriptCode'] else
          eraseInputScripts tx' inputIndex scriptCode').map Input.wireKey ↔
      PointsAgree any inputIndex.toNat tx tx' ∧ scriptCode = scriptCode' ∧
        SequencesAgree (!any) inputIndex.toNat tx tx' := by
  cases any with
  | true => simp [PointsAgree, SequencesAgree, hself, hself', retainSelf, Input.wireKey]
  | false =>
    simp only [PointsAgree, SequencesAgree, Bool.false_eq_true, if_false, Bool.not_false, if_true]
    rw [eraseInputScripts_wireKey_eq_iff hself hself']
    tauto

end

/-- The outputs that are signed: all of them, that of the index of the input, or none. -/
def OutputsAgree (sighash : SighashAlgorithm) (index : Nat) (tx tx' : Transaction) : Prop :=
  match sighash with
  | .none => True
  | .single => tx.outputs[index]?.map Output.wireKey = tx'.outputs[index]?.map Output.wireKey
  | _ => tx.outputs.map Output.wireKey = tx'.outputs.map Output.wireKey

/-- What an unversioned signature of an input commits to, stated of two transactions and two script
codes. -/
@[mk_iff]
structure UnversionedAgreement (currency : Currency) (index : Nat) (sighashType : UInt8)
    (tx tx' : Transaction) (scriptCode scriptCode' : Script) : Prop where
  version : tx.version = tx'.version
  locktime : tx.locktime = tx'.locktime
  scriptCode : withoutCodeSeparators currency scriptCode =
    withoutCodeSeparators currency scriptCode'
  points : PointsAgree (isAnyoneCanPay sighashType) index tx tx'
  sequences : SequencesAgree (!isAnyoneCanPay sighashType && decide (toSighashEnum sighashType = .all))
    index tx tx'
  outputs : OutputsAgree (toSighashEnum sighashType) index tx tx'

theorem toSighashEnum_ne_allForkid (sighashType : UInt8) :
    toSighashEnum sighashType ≠ .allForkid := by
  unfold toSighashEnum
  split_ifs <;> simp

/-- The rebuilt transactions look alike exactly when what is signed agrees. -/
theorem signedTransaction_wireKey_eq_iff (hself : tx.inputs[inputIndex.toNat]? = some self)
    (hself' : tx'.inputs[inputIndex.toNat]? = some self')
    (hvalid : scriptCode.isValidOperations currency)
    (hvalid' : scriptCode'.isValidOperations currency)
    (hsingle : toSighashEnum sighashType = .single → inputIndex.toNat + 1 < 2 ^ 32 ∧
      inputIndex.toNat < tx.outputs.length ∧ inputIndex.toNat < tx'.outputs.length) :
    (signedTransaction currency tx inputIndex self scriptCode sighashType).wireKey =
        (signedTransaction currency tx' inputIndex self' scriptCode' sighashType).wireKey ↔
      UnversionedAgreement currency inputIndex.toNat sighashType tx tx' scriptCode scriptCode' := by
  rw [unversionedAgreement_iff, ← stripCodeSeparators_eq_iff hvalid hvalid']
  unfold signedTransaction
  cases hsighash : toSighashEnum sighashType with
  | none =>
    simp only [signNone, wireKey, Prod.mk.injEq,
      erasedInputs_wireKey_eq_iff (isAnyoneCanPay sighashType) hself hself']
    simp [OutputsAgree]
    tauto
  | single =>
    obtain ⟨hidx, houtput, houtput'⟩ := hsingle hsighash
    simp only [signSingle, wireKey, Prod.mk.injEq,
      erasedInputs_wireKey_eq_iff (isAnyoneCanPay sighashType) hself hself',
      trimOutputs_wireKey_eq_iff hidx houtput houtput']
    simp [OutputsAgree]
    tauto
  | all =>
    simp only [signAll, wireKey, Prod.mk.injEq,
      keptInputs_wireKey_eq_iff (isAnyoneCanPay sighashType) hself hself']
    simp [OutputsAgree]
    tauto
  | allForkid => exact absurd hsighash (toSighashEnum_ne_allForkid sighashType)

/-- The message that the unversioned signature hash of an input in range is the hash of. -/
def unversionedMessage (currency : Currency) (tx : Transaction) (inputIndex : UInt32)
    (scriptCode : Script) (sighashType : UInt8) : DataChunk :=
  match tx.inputs[inputIndex.toNat]? with
  | none => []
  | some self => signaturePreimage currency
      (signedTransaction currency tx inputIndex self scriptCode sighashType) sighashType

/-- In range the signature hash is the hash of its message. -/
theorem generateUnversionedSignatureHash_eq (hinput : inputIndex.toNat < tx.inputs.length)
    (hsingle : toSighashEnum sighashType = .single → inputIndex.toNat < tx.outputs.length) :
    generateUnversionedSignatureHash currency hashes tx inputIndex scriptCode sighashType =
      hashes.bitcoinHash (unversionedMessage currency tx inputIndex scriptCode sighashType) := by
  have hrange : ¬ (inputIndex.toNat ≥ tx.outputs.length ∧ toSighashEnum sighashType = .single) :=
    fun h => not_lt.mpr h.1 (hsingle h.2)
  simp only [generateUnversionedSignatureHash, unversionedMessage,
    getElem?_eq_getElem hinput, if_neg hrange]

/-- An unversioned signature commits to the version, the lock time, the script code without code
separators and the points, sequences and outputs that its hash type selects, and to nothing else. -/
theorem unversioned_signature_commits (htx : tx.Sized) (htx' : tx'.Sized)
    (hcode : scriptCode.Sized) (hcode' : scriptCode'.Sized)
    (hvalid : scriptCode.isValidOperations currency = true)
    (hvalid' : scriptCode'.isValidOperations currency = true)
    (hinput : inputIndex.toNat < tx.inputs.length) (hinput' : inputIndex.toNat < tx'.inputs.length)
    (hsingle : toSighashEnum sighashType = .single → inputIndex.toNat + 1 < 2 ^ 32 ∧
      inputIndex.toNat < tx.outputs.length ∧ inputIndex.toNat < tx'.outputs.length)
    (hcollision : CollisionFree hashes.bitcoinHash
      [unversionedMessage currency tx inputIndex scriptCode sighashType,
        unversionedMessage currency tx' inputIndex scriptCode' sighashType]) :
    generateUnversionedSignatureHash currency hashes tx inputIndex scriptCode sighashType =
        generateUnversionedSignatureHash currency hashes tx' inputIndex scriptCode' sighashType ↔
      UnversionedAgreement currency inputIndex.toNat sighashType tx tx' scriptCode scriptCode' := by
  have hself := getElem?_eq_getElem hinput
  have hself' := getElem?_eq_getElem hinput'
  rw [generateUnversionedSignatureHash_eq hinput fun h => (hsingle h).2.1,
    generateUnversionedSignatureHash_eq hinput' fun h => (hsingle h).2.2,
    ← signedTransaction_wireKey_eq_iff hself hself' hvalid hvalid' hsingle,
    ← toData_wire_eq_iff currency (sized_signedTransaction htx hvalid hcode)
      (sized_signedTransaction htx' hvalid' hcode')]
  constructor
  · intro h
    have hmessage := hcollision.eq_of_hash_eq (by simp) (by simp) h
    simp only [unversionedMessage, hself, hself', signaturePreimage] at hmessage
    exact append_cancel_right hmessage
  · intro h
    simp only [unversionedMessage, hself, hself', signaturePreimage, h]

/-- The fields in front of the hash type. -/
@[ext]
structure Version0Fields where
  version : UInt32
  inpoints : HashDigest
  sequences : HashDigest
  point : Point
  scriptCode : Script
  value : UInt64
  sequence : UInt32
  outputs : HashDigest
  locktime : UInt32

namespace Version0Fields

/-- The bytes that are hashed. -/
def encode (fields : Version0Fields) : DataChunk :=
  ofNat 4 fields.version.toNat ++ (fields.inpoints.val ++ (fields.sequences.val ++
    (fields.point.toData true ++ (fields.scriptCode.toData true ++ (ofNat 8 fields.value.toNat ++
      (ofNat 4 fields.sequence.toNat ++ (fields.outputs.val ++ ofNat 4 fields.locktime.toNat)))))))

theorem determines_encode :
    Determines (fun fields : Version0Fields => fields.scriptCode.Sized) encode id := by
  have hfields :=
    (determines_uint32.field version).append ((determines_hashDigest.field inpoints).append
      ((determines_hashDigest.field sequences).append ((Point.determines_toData.field point).append
      ((Script.determines_toData.comap scriptCode).append ((determines_uint64.field value).append
      ((determines_uint32.field sequence).append ((determines_hashDigest.field outputs).append
      (determines_uint32.field locktime))))))))
  intro a b ha hb r s h
  obtain ⟨hkey, hrest⟩ := hfields ha hb r s h
  simp only [id, Prod.mk.injEq] at hkey
  obtain ⟨h1, h2, h3, h4, h5, h6, h7, h8, h9⟩ := hkey
  exact ⟨Version0Fields.ext h1 h2 h3 h4 h5 h6 h7 h8 h9, hrest⟩

end Version0Fields

/-- The fields of the preimage, for an input in range. -/
def version0Fields (currency : Currency) (hashes : Hashes) (tx : Transaction) (inputIndex : UInt32)
    (input : Input) (scriptCode : Script) (value : UInt64) (sighashType : UInt8) :
    Version0Fields where
  version := tx.version
  inpoints := inpointsHash hashes tx sighashType
  sequences := sequencesHash currency hashes tx sighashType
  point := input.previousOutput.toPoint
  scriptCode := scriptCode
  value := value
  sequence := input.sequence
  outputs := outputsHash currency hashes tx inputIndex sighashType
  locktime := tx.locktime

theorem version0Preimage_eq {value : UInt64} :
    version0Preimage currency hashes tx inputIndex self scriptCode value sighashType =
      (version0Fields currency hashes tx inputIndex self scriptCode value sighashType).encode ++
        ofNat 4 sighashType.toNat := by
  simp only [version0Preimage, Version0Fields.encode, version0Fields, append_assoc]

/-- The messages that the version 0 signature hash of an input hashes. -/
def version0Messages (currency : Currency) (hashes : Hashes) (tx : Transaction)
    (inputIndex : UInt32) (scriptCode : Script) (value : UInt64) (sighashType : UInt8) :
    List DataChunk :=
  (if isAnyoneCanPay sighashType then [] else [inpointsData tx]) ++
    (if !isAnyoneCanPay sighashType && isAll currency (toSighashEnum sighashType) then
      [sequencesData tx] else []) ++
    (if isAll currency (toSighashEnum sighashType) then [outputsData tx]
      else if isSingle currency (toSighashEnum sighashType) then
        (tx.outputs[inputIndex.toNat]?.map fun output => output.toData true).toList
      else []) ++
    (tx.inputs[inputIndex.toNat]?.map fun input =>
      version0Preimage currency hashes tx inputIndex input scriptCode value sighashType).toList

/-- What a version 0 signature of an input commits to. -/
@[mk_iff]
structure Version0Agreement (index : Nat) (sighashType : UInt8) (tx tx' : Transaction)
    (scriptCode scriptCode' : Script) (value value' : UInt64) : Prop where
  version : tx.version = tx'.version
  locktime : tx.locktime = tx'.locktime
  point : PointsAgree true index tx tx'
  sequence : SequencesAgree false index tx tx'
  scriptCode : scriptCode.bytes = scriptCode'.bytes
  value : value = value'
  points : isAnyoneCanPay sighashType = false → PointsAgree false index tx tx'
  sequences : isAnyoneCanPay sighashType = false → toSighashEnum sighashType = .all →
    SequencesAgree true index tx tx'
  outputs : OutputsAgree (toSighashEnum sighashType) index tx tx'

theorem isAll_toSighashEnum (currency : Currency) (sighashType : UInt8) :
    isAll currency (toSighashEnum sighashType) ↔ toSighashEnum sighashType = .all := by
  simp [isAll, toSighashEnum_ne_allForkid]

theorem inpointsData_eq_iff (index : Nat) :
    inpointsData tx = inpointsData tx' ↔ PointsAgree false index tx tx' := by
  have hne : ∀ input : Input, True → input.previousOutput.toPoint.toData true ≠ [] :=
    fun _ _ => ne_nil_of_length_pos (by simp [Point.toData])
  exact (Point.determines_toData.comap fun input : Input =>
    input.previousOutput.toPoint).flatMap_eq_iff hne (fun point => point.toData true)
      (fun _ => rfl) (fun _ _ => trivial) fun _ _ => trivial

theorem sequencesData_eq_iff (index : Nat) :
    sequencesData tx = sequencesData tx' ↔ SequencesAgree true index tx tx' := by
  have hne : ∀ input : Input, True → ofNat 4 input.sequence.toNat ≠ [] :=
    fun _ _ => ne_nil_of_length_pos (by simp)
  exact (determines_uint32.comap Input.sequence).flatMap_eq_iff hne
    (fun sequence => ofNat 4 sequence.toNat) (fun _ => rfl) (fun _ _ => trivial)
    fun _ _ => trivial

theorem outputsData_eq_iff (htx : tx.Sized) (htx' : tx'.Sized) :
    outputsData tx = outputsData tx' ↔
      tx.outputs.map Output.wireKey = tx'.outputs.map Output.wireKey := by
  have hne : ∀ output : Output, output.script.Sized → output.toData true ≠ [] :=
    fun _ _ => ne_nil_of_length_pos (by simp [Output.toData])
  exact Output.determines_toData.flatMap_eq_iff hne encodeOutputKey (fun _ => rfl)
    htx.outputScripts htx'.outputScripts

theorem output_toData_eq_iff {output output' : Output} (h : output.script.Sized)
    (h' : output'.script.Sized) :
    output.toData true = output'.toData true ↔ output.wireKey = output'.wireKey :=
  ⟨Output.determines_toData.key_eq h h', congrArg encodeOutputKey⟩

/-- A digest that is only written when selected commits to its message when selected. -/
theorem selected_hash_eq_iff {δ : Type*} {hash : DataChunk → δ} {messages : List DataChunk}
    (hcollision : CollisionFree hash messages) {selected : Bool} {digest : δ}
    {message message' : DataChunk}
    (hmem : selected → message ∈ messages ∧ message' ∈ messages) :
    ((if selected then hash message else digest) = if selected then hash message' else digest) ↔
      (selected → message = message') := by
  cases selected with
  | false => simp
  | true =>
    simp only [if_true, forall_const]
    exact ⟨hcollision.eq_of_hash_eq (hmem rfl).1 (hmem rfl).2, congrArg hash⟩

section

variable {value value' : UInt64}
  (hcollision : CollisionFree hashes.bitcoinHash
    (version0Messages currency hashes tx inputIndex scriptCode value sighashType ++
      version0Messages currency hashes tx' inputIndex scriptCode' value' sighashType))

include hcollision

theorem inpointsHash_eq_iff :
    inpointsHash hashes tx sighashType = inpointsHash hashes tx' sighashType ↔
      (isAnyoneCanPay sighashType = false → PointsAgree false inputIndex.toNat tx tx') := by
  unfold inpointsHash toInpoints
  rw [selected_hash_eq_iff hcollision, inpointsData_eq_iff inputIndex.toNat, Bool.not_eq_true']
  intro hany
  rw [Bool.not_eq_true'] at hany
  simp [version0Messages, hany]

theorem sequencesHash_eq_iff :
    sequencesHash currency hashes tx sighashType = sequencesHash currency hashes tx' sighashType ↔
      (isAnyoneCanPay sighashType = false → toSighashEnum sighashType = .all →
        SequencesAgree true inputIndex.toNat tx tx') := by
  unfold sequencesHash toSequences
  rw [selected_hash_eq_iff hcollision, sequencesData_eq_iff inputIndex.toNat, Bool.and_eq_true,
    Bool.not_eq_true', isAll_toSighashEnum, and_imp]
  intro hselected
  obtain ⟨hany, hall⟩ := (Bool.and_eq_true _ _).mp hselected
  rw [Bool.not_eq_true'] at hany
  simp [version0Messages, hany, hall]

section

variable (hnull : ∀ message ∈
    version0Messages currency hashes tx inputIndex scriptCode value sighashType ++
      version0Messages currency hashes tx' inputIndex scriptCode' value' sighashType,
    hashes.bitcoinHash message ≠ nullHash)

include hnull

theorem outputsHash_eq_iff (htx : tx.Sized) (htx' : tx'.Sized) :
    outputsHash currency hashes tx inputIndex sighashType =
        outputsHash currency hashes tx' inputIndex sighashType ↔
      OutputsAgree (toSighashEnum sighashType) inputIndex.toNat tx tx' := by
  cases hsighash : toSighashEnum sighashType with
  | all =>
    have hall : isAll currency .all := by simp [isAll]
    simp only [outputsHash, toOutputs, OutputsAgree, hsighash, hall, if_true]
    rw [← outputsData_eq_iff htx htx']
    constructor
    · exact hcollision.eq_of_hash_eq (by simp [version0Messages, hsighash, hall])
        (by simp [version0Messages, hsighash, hall])
    · exact congrArg hashes.bitcoinHash
  | none =>
    have hall : isAll currency .none = false := by simp [isAll]
    have hsingle : isSingle currency .none = false := by simp [isSingle]
    have hnone : ∀ t : Transaction, outputsHash currency hashes t inputIndex sighashType = nullHash := by
      intro t
      simp only [outputsHash, hsighash, hall, hsingle, Bool.false_eq_true, if_false]
      split <;> rfl
    simp [OutputsAgree, hnone]
  | single =>
    have hall : isAll currency .single = false := by simp [isAll]
    have hsingle : isSingle currency .single := by simp [isSingle]
    have hmem : ∀ output, tx.outputs[inputIndex.toNat]? = some output ∨
        tx'.outputs[inputIndex.toNat]? = some output → output.toData true ∈
          version0Messages currency hashes tx inputIndex scriptCode value sighashType ++
            version0Messages currency hashes tx' inputIndex scriptCode' value' sighashType := by
      rintro output (houtput | houtput) <;>
        simp [version0Messages, hsighash, hall, hsingle, houtput]
    simp only [outputsHash, OutputsAgree, hsighash, hall, hsingle, Bool.false_eq_true, if_false,
      if_true]
    cases houtput : tx.outputs[inputIndex.toNat]? with
    | none =>
      cases houtput' : tx'.outputs[inputIndex.toNat]? with
      | none => simp
      | some output' => simp [(hnull _ (hmem output' (.inr houtput'))).symm]
    | some output =>
      cases houtput' : tx'.outputs[inputIndex.toNat]? with
      | none => simp [hnull _ (hmem output (.inl houtput))]
      | some output' =>
        have hsized := htx.outputScripts output (mem_of_getElem? houtput)
        have hsized' := htx'.outputScripts output' (mem_of_getElem? houtput')
        simp only [map_some, Option.some.injEq]
        rw [← output_toData_eq_iff hsized hsized']
        constructor
        · exact hcollision.eq_of_hash_eq (hmem _ (.inl houtput)) (hmem _ (.inr houtput'))
        · exact congrArg hashes.bitcoinHash
  | allForkid => exact absurd hsighash (toSighashEnum_ne_allForkid sighashType)

/-- The fields agree exactly when what is signed does. -/
theorem version0Fields_eq_iff (htx : tx.Sized) (htx' : tx'.Sized)
    (hself : tx.inputs[inputIndex.toNat]? = some self)
    (hself' : tx'.inputs[inputIndex.toNat]? = some self') :
    version0Fields currency hashes tx inputIndex self scriptCode value sighashType =
        version0Fields currency hashes tx' inputIndex self' scriptCode' value' sighashType ↔
      Version0Agreement inputIndex.toNat sighashType tx tx' scriptCode scriptCode' value value' := by
  rw [version0Agreement_iff, ← inpointsHash_eq_iff hcollision, ← sequencesHash_eq_iff hcollision,
    ← outputsHash_eq_iff hcollision hnull htx htx']
  simp only [version0Fields, Version0Fields.mk.injEq, PointsAgree, SequencesAgree, hself, hself',
    map_some, Option.some.injEq, if_true, Bool.false_eq_true, if_false]
  have hbytes : scriptCode = scriptCode' ↔ scriptCode.bytes = scriptCode'.bytes :=
    ⟨congrArg Script.bytes, congrArg Script.mk⟩
  rw [hbytes]
  tauto

end

/-- A version 0 signature commits to the version, the lock time, the point and the sequence of its
input, the script code, the value spent and the points, sequences and outputs that its hash type
selects, and to nothing else. -/
theorem version0_signature_commits (htx : tx.Sized) (htx' : tx'.Sized) (hcode : scriptCode.Sized)
    (hcode' : scriptCode'.Sized) (hinput : inputIndex.toNat < tx.inputs.length)
    (hinput' : inputIndex.toNat < tx'.inputs.length)
    (hnull : ∀ message ∈ version0Messages currency hashes tx inputIndex scriptCode value sighashType ++
      version0Messages currency hashes tx' inputIndex scriptCode' value' sighashType,
        hashes.bitcoinHash message ≠ nullHash) :
    generateVersion0SignatureHash currency hashes tx inputIndex scriptCode value sighashType =
        generateVersion0SignatureHash currency hashes tx' inputIndex scriptCode' value' sighashType ↔
      Version0Agreement inputIndex.toNat sighashType tx tx' scriptCode scriptCode' value value' := by
  have hself := List.getElem?_eq_getElem hinput
  have hself' := List.getElem?_eq_getElem hinput'
  rw [← version0Fields_eq_iff hcollision hnull htx htx' hself hself']
  simp only [generateVersion0SignatureHash, hself, hself', Option.bind_eq_bind, Option.bind_some,
    Option.pure_def, Option.some.injEq]
  constructor
  · intro h
    have hpreimage := hcollision.eq_of_hash_eq (by simp [version0Messages, hself])
      (by simp [version0Messages, hself']) h
    rw [version0Preimage_eq, version0Preimage_eq] at hpreimage
    exact Version0Fields.determines_encode.key_eq hcode hcode' (List.append_cancel_right hpreimage)
  · intro h
    rw [version0Preimage_eq, version0Preimage_eq, h]

end

section

/-- One input and one output, signed at two lock times. -/
def sampleTransaction (locktime : UInt32) : Transaction where
  version := 1
  locktime
  inputs := [{ previousOutput := ⟨⟨nullHash, 0⟩, {}⟩, sequence := 0 }]
  outputs := [{ value := 1, script := ⟨[0x51]⟩ }]

theorem sized_sampleTransaction (locktime : UInt32) : (sampleTransaction locktime).Sized where
  inputs := by simp [sampleTransaction]
  outputs := by simp [sampleTransaction]
  inputScripts := by simp [sampleTransaction, Script.Sized]
  outputScripts := by simp [sampleTransaction, Script.Sized]

/-- The sample with the script code `codeseparator checksig`, signed with `all`. -/
theorem unversioned_signature_commits_sample :
    generateUnversionedSignatureHash .btc .ofSha256 (sampleTransaction 0) 0 ⟨[0xab, 0xac]⟩ 0x01 =
        generateUnversionedSignatureHash .btc .ofSha256 (sampleTransaction 1) 0 ⟨[0xab, 0xac]⟩ 0x01 ↔
      UnversionedAgreement .btc (0 : UInt32).toNat 0x01 (sampleTransaction 0) (sampleTransaction 1)
        ⟨[0xab, 0xac]⟩ ⟨[0xab, 0xac]⟩ := by
  have hcode : Script.Sized ⟨[0xab, 0xac]⟩ := by simp [Script.Sized]
  exact unversioned_signature_commits (sized_sampleTransaction 0) (sized_sampleTransaction 1) hcode
    hcode (by decide) (by decide) (by decide) (by decide) (by decide) (by decide +kernel)

/-- The sample in the `bch` build, signed with `all` and the fork id. -/
theorem version0_signature_commits_sample :
    generateVersion0SignatureHash .bch .ofSha256 (sampleTransaction 0) 0 ⟨[0xac]⟩ 5 0x41 =
        generateVersion0SignatureHash .bch .ofSha256 (sampleTransaction 1) 0 ⟨[0xac]⟩ 5 0x41 ↔
      Version0Agreement (0 : UInt32).toNat 0x41 (sampleTransaction 0) (sampleTransaction 1) ⟨[0xac]⟩
        ⟨[0xac]⟩ 5 5 := by
  have hcode : Script.Sized ⟨[0xac]⟩ := by simp [Script.Sized]
  exact version0_signature_commits (by decide +kernel) (sized_sampleTransaction 0)
    (sized_sampleTransaction 1) hcode hcode (by decide) (by decide) (by decide +kernel)

end

end Script

end BitprimCore
