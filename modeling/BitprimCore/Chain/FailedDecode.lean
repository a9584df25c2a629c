import BitprimCore.Chain.ObjectState
import BitprimCore.Message.NetworkAddress

/-!
# Failed decodes

What is left in an object when `from_data` returns false. Mostly it is what a reset leaves of the
object as it was before, wherever the source ended: metadata and caches. What the store encodings
keep beside the value is not reset but read, the bytes of a network address are written behind the
reset, and a block that is read without witnesses is marked before it.
-/

namespace BitprimCore

open LittleEndian StickyReader

variable (currency : Currency) (unset : HashDigest)

theorem readStateUInt32_after (bytes : DataChunk) (size : Nat) :
    readStateUInt32 (after bytes size) =
      (UInt32.ofNat (toNat ((bytes.drop size).take 4)), after bytes (size + 4)) := by
  rw [readStateUInt32, bind_run, IstreamReader.readLittleEndian_after]
  rfl

theorem PointState.resets_fromData (before : PointState) (wire : Bool) :
    Resets (before.fromData unset wire) reset before :=
  ends_bind _ fun _ => ends_bind _ fun _ => resets_finish rfl rfl

theorem OutputPointState.resets_fromData (before : OutputPointState) (wire : Bool) :
    Resets (before.fromData unset wire) reset before := by
  intro source
  obtain ⟨hreset, hfailed⟩ := before.toPointState.resets_fromData unset wire source
  exact ⟨congrArg (fun point => { before with toPointState := point }) hreset,
    fun hres => congrArg (fun point => { before with toPointState := point }) (hfailed hres)⟩

theorem WitnessState.resets_fromData (before : WitnessState) (withSize : Bool) :
    Resets (before.fromData currency withSize) reset before :=
  ends_bind _ fun _ => resets_finish rfl rfl

theorem InputState.resets_readBody {input before : InputState} (h : input.reset = before.reset)
    (stored : Bool) : Resets (input.readBody currency stored) reset before :=
  ends_bind _ fun _ => ends_bind _ fun _ => ends_bind _ fun _ => resets_finish h rfl

theorem InputState.resets_fromData (before : InputState) (wire witness : Bool) :
    Resets (before.fromData currency unset wire witness) reset before := by
  have hpoint := before.previousOutput.reset.resets_fromData unset wire
  refine hpoint.andThen rfl rfl fun point hreset => ?_
  apply resets_readBody
  exact congrArg (fun point => { before.reset with previousOutput := point }) hreset

theorem OutputState.resets_readBody (output : OutputState) :
    Resets (output.readBody currency) reset output :=
  ends_bind _ fun _ => ends_bind _ fun _ => resets_finish rfl rfl

/-- In the store the height of the spender is what was read in front. -/
theorem OutputState.fromData_failed (before : OutputState) (wire : Bool) (bytes : DataChunk)
    (h : (before.fromData currency wire ⟨bytes, false⟩).1.1 = false) :
    (before.fromData currency wire ⟨bytes, false⟩).1.2 =
      { before.reset with
        spenderHeight :=
          if wire then before.spenderHeight else UInt32.ofNat (toNat (bytes.take 4)) } := by
  rw [← after_zero bytes] at h ⊢
  cases wire with
  | true =>
    simp only [fromData, if_true, bind_run, pure_run] at h ⊢
    exact (resets_readBody currency _ _).2 h
  | false =>
    simp only [fromData, Bool.false_eq_true, if_false, bind_run, readStateUInt32_after] at h ⊢
    exact (resets_readBody currency _ _).2 h

variable (before : HeaderState)

theorem HeaderState.resets_fromData_wire : Resets (before.fromData unset true) reset before :=
  ends_bind _ fun _ => ends_bind _ fun _ => ends_bind _ fun _ => ends_bind _ fun _ =>
    ends_bind _ fun _ => ends_bind _ fun _ => resets_finish rfl rfl

theorem HeaderState.fromData_wire_result (bytes : DataChunk) :
    (before.fromData unset true ⟨bytes, false⟩).1.1 = !decide (bytes.length < 80) := by
  rw [← after_zero bytes]
  simp only [fromData, if_true, bind_run, pure_run, finish_run, readStateUInt32_after,
    IstreamReader.readForward_after, zero_add, Nat.reduceAdd]
  rfl

/-- In the store the median time past is what arrived behind the wire fields. -/
theorem HeaderState.fromData_failed (wire : Bool) (bytes : DataChunk)
    (h : (before.fromData unset wire ⟨bytes, false⟩).1.1 = false) :
    (before.fromData unset wire ⟨bytes, false⟩).1.2 =
      { before.reset with
        medianTimePast := if wire then before.medianTimePast
          else UInt32.ofNat (toNat ((bytes.drop 80).take 4)) } := by
  cases wire with
  | true => exact (resets_fromData_wire unset before _).2 h
  | false =>
    rw [← after_zero bytes] at h ⊢
    simp only [fromData, Bool.false_eq_true, if_false, bind_run, finish_run, readStateUInt32_after,
      IstreamReader.readForward_after, zero_add, Nat.reduceAdd, Bool.not_eq_false'] at h ⊢
    rw [h]
    rfl

namespace TransactionState

theorem ends_readStore (tx : TransactionState) (witness : Bool) {unconfirmed : Bool}
    {P : TransactionState → Source UInt8 → Prop}
    (h : ∀ version locktime inputs outputs,
      Ends ({ tx with version, locktime, inputs, outputs }.readCached unconfirmed) P) :
    Ends (tx.readStore currency unset witness unconfirmed) P := by
  refine ends_bind _ fun outputs => ends_bind _ fun inputs => ends_bind _ fun locktime =>
    ends_bind _ fun version => ?_
  split
  · exact ends_bind _ fun _ => h _ _ inputs outputs
  · exact h _ _ inputs outputs

/-- The end of the source is read as a byte of ones, which is true. -/
theorem readCached_failed (tx : TransactionState) :
    Ends (tx.readCached true) fun tx source =>
      source.failed → tx.cachedIsStandard := by
  refine ends_bind _ fun sigops => ends_bind _ fun fees => ?_
  rintro ⟨items, failed⟩ hfail
  cases failed with
  | true => rfl
  | false =>
    cases items with
    | nil => rfl
    | cons byte items =>
      have hshort : decide ((byte :: items).length < 1) := hfail
      simp at hshort

/-- Only the store has the fields of an unconfirmed transaction. -/
theorem resets_fromData (before : TransactionState) {wire unconfirmed : Bool} (witness : Bool)
    (h : wire ∨ unconfirmed = false) :
    Resets (before.fromData currency unset wire witness unconfirmed) reset before := by
  have hfinish : ∀ (tx : TransactionState) (witness : Bool), tx.reset = before.reset →
      Resets (finish (if witness then tx else tx.stripWitness)
        (if witness then tx else tx.stripWitness).reset : Reader UInt8 _) reset before := by
    intro tx witness htx
    cases witness <;> exact resets_finish htx rfl
  obtain rfl | rfl := h
  · exact Ends.bind (fun _ => rfl) fun tx htx => hfinish tx _ htx
  · cases wire with
    | true => exact Ends.bind (fun _ => rfl) fun tx htx => hfinish tx _ htx
    | false =>
      have hread : Ends (before.reset.readStore currency unset
          (if currency = .bch then false else witness) false) fun tx _ => tx.reset = before.reset :=
        ends_readStore currency unset _ _ fun _ _ _ _ _ => rfl
      exact hread.bind fun tx htx => hfinish tx _ htx

theorem fromData_unconfirmed_failed (before : TransactionState) (witness : Bool)
    (source : Source UInt8)
    (h : (before.fromData currency unset false witness true source).1.1 = false) :
    (before.fromData currency unset false witness true source).1.2.cachedIsStandard := by
  have hstandard := ends_readStore currency unset before.reset
    (if currency = .bch then false else witness) (fun _ _ _ _ => readCached_failed _) source
  simp only [fromData, Bool.false_eq_true, if_false, bind_run, finish_run,
    Bool.not_eq_false'] at h ⊢
  generalize before.reset.readStore currency unset
    (if currency = .bch then false else witness) true source = outcome at hstandard h ⊢
  rw [if_pos h]
  cases (if currency = .bch then false else witness) <;> exact hstandard h

end TransactionState

namespace BlockState

theorem resets_readBody {block before : BlockState} (h : block.reset = before.reset) :
    Resets (block.readBody currency unset true) reset before :=
  ends_bind _ fun _ => resets_finish h rfl

theorem segregated_readBody (block : BlockState) :
    Ends (block.readBody currency unset false) fun result _ =>
      result.2.segregated = some false :=
  ends_bind _ fun _ => ends_finish (fun _ _ => rfl) fun _ _ => rfl

/-- Behind its header, a block that is read without witnesses is marked as not segregated, and the
mark outlives the reset. -/
theorem fromData_failed (before : BlockState) (witness : Bool) (bytes : DataChunk)
    (h : (before.fromData currency unset witness ⟨bytes, false⟩).1.1 = false) :
    let after := (before.fromData currency unset witness ⟨bytes, false⟩).1.2
    if currency ≠ .bch ∧ witness = true ∨ bytes.length < 80 then after = before.reset
    else after.segregated = some false := by
  have hheader := before.reset.header.resets_fromData_wire unset ⟨bytes, false⟩
  have hresult := before.reset.header.fromData_wire_result unset bytes
  have hwitness : (if currency = .bch then false else witness) =
      decide (currency ≠ .bch ∧ witness = true) := by
    by_cases hcurrency : currency = .bch <;> simp [hcurrency]
  simp only [fromData, andThen, bind_run, hwitness] at h ⊢
  generalize before.reset.header.fromData unset true ⟨bytes, false⟩ = read at hheader hresult h ⊢
  obtain ⟨⟨result, header⟩, rest⟩ := read
  obtain ⟨hkept, hfailed⟩ := hheader
  obtain rfl : result = !decide (bytes.length < 80) := hresult
  by_cases hlength : bytes.length < 80
  · obtain rfl : header = before.reset.header.reset := hfailed (by simp [hlength])
    simp only [hlength, or_true, if_true, decide_true, Bool.not_true, Bool.false_eq_true, if_false]
    rfl
  · simp only [hlength, or_false, decide_false, Bool.not_false, if_true] at h ⊢
    by_cases hkeep : currency ≠ .bch ∧ witness = true
    · rw [if_pos hkeep]
      rw [decide_eq_true hkeep] at h ⊢
      have hreset : ({ before.reset with header } : BlockState).reset = before.reset :=
        congrArg (fun header => ({ before.reset with header } : BlockState)) hkept
      exact (resets_readBody currency unset hreset rest).2 h
    · rw [if_neg hkeep, decide_eq_false hkeep]
      exact segregated_readBody currency unset _ rest

end BlockState

/-- A call of `from_data`: the object as it was before, and the flags. -/
inductive FromData
  | header (before : HeaderState) (wire : Bool)
  | point (before : PointState) (wire : Bool)
  | input (before : InputState) (wire witness : Bool)
  | output (before : OutputState) (wire : Bool)
  | transaction (before : TransactionState) (wire witness unconfirmed : Bool)
  | block (before : BlockState) (witness : Bool)
  | witness (before : WitnessState) (withSize : Bool)
  | networkAddress (before : NetworkAddress) (withTimestamp : Bool)

namespace FromData

variable {bytes : DataChunk} {wire : Bool} (call : FromData)

/-- What the call returns. -/
def returns (bytes : DataChunk) : Bool :=
  match call with
  | header before wire => (before.fromData unset wire ⟨bytes, false⟩).1.1
  | point before wire => (before.fromData unset wire ⟨bytes, false⟩).1.1
  | input before wire withWitness =>
    (before.fromData currency unset wire withWitness ⟨bytes, false⟩).1.1
  | output before wire => (before.fromData currency wire ⟨bytes, false⟩).1.1
  | transaction before wire withWitness unconfirmed =>
    (before.fromData currency unset wire withWitness unconfirmed ⟨bytes, false⟩).1.1
  | block before withWitness => (before.fromData currency unset withWitness ⟨bytes, false⟩).1.1
  | witness before withSize => (before.fromData currency withSize ⟨bytes, false⟩).1.1
  | networkAddress before withTimestamp => (before.fromData withTimestamp ⟨bytes, false⟩).1.1

/-- The object is not valid, and is one that was constructed by default. -/
def IsNew {α : Type} (isValid : α → Bool) (new object : α) : Prop :=
  isValid object = false ∧ object = new

/-- The call leaves a new object. -/
def LeavesNothing (bytes : DataChunk) : Prop :=
  match call with
  | header before wire =>
    IsNew HeaderState.isValid {} (before.fromData unset wire ⟨bytes, false⟩).1.2
  | point before wire =>
    IsNew PointState.isValid {} (before.fromData unset wire ⟨bytes, false⟩).1.2
  | input before wire withWitness =>
    IsNew InputState.isValid {} (before.fromData currency unset wire withWitness ⟨bytes, false⟩).1.2
  | output before wire =>
    IsNew OutputState.isValid {} (before.fromData currency wire ⟨bytes, false⟩).1.2
  | transaction before wire withWitness unconfirmed =>
    IsNew TransactionState.isValid {}
      (before.fromData currency unset wire withWitness unconfirmed ⟨bytes, false⟩).1.2
  | block before withWitness =>
    IsNew BlockState.isValid {} (before.fromData currency unset withWitness ⟨bytes, false⟩).1.2
  | witness before withSize =>
    IsNew WitnessState.valid {} (before.fromData currency withSize ⟨bytes, false⟩).1.2
  | networkAddress before withTimestamp =>
    IsNew NetworkAddress.isValid {} (before.fromData withTimestamp ⟨bytes, false⟩).1.2

/-- What no reset clears is that of a new object: what the object had before the call, and the bytes
that go there. -/
def KeepsNothing (bytes : DataChunk) : Prop :=
  match call with
  | header before wire =>
    before.height = 0 ∧
      if wire then before.medianTimePast = 0 else ∀ byte ∈ (bytes.drop 80).take 4, byte = 0
  | point _ _ => True
  | input before _ _ => before.reset = {}
  | output before wire =>
    before.addresses = none ∧
      if wire then before.spenderHeight = 0xffffffff else bytes.take 4 = [0xff, 0xff, 0xff, 0xff]
  | transaction before wire _ unconfirmed =>
    before.reset = {} ∧ (wire = true ∨ unconfirmed = false)
  | block before withWitness =>
    before.reset = {} ∧ (currency ≠ .bch ∧ withWitness = true ∨ bytes.length < 80)
  | witness _ _ => True
  | networkAddress _ withTimestamp =>
    ∀ byte ∈ NetworkAddress.ipBytes withTimestamp bytes, byte = 0

instance {α : Type} [DecidableEq α] (isValid : α → Bool) (new object : α) :
    Decidable (IsNew isValid new object) :=
  inferInstanceAs (Decidable (_ ∧ _))

instance (call : FromData) (bytes : DataChunk) :
    Decidable (call.LeavesNothing currency unset bytes) := by
  cases call <;> exact inferInstanceAs (Decidable (IsNew _ _ _))

instance (call : FromData) (bytes : DataChunk) : Decidable (call.KeepsNothing currency bytes) := by
  -- Over the bytes there are, not over all bytes.
  letI (items : DataChunk) : Decidable (∀ byte ∈ items, byte = 0) := List.decidableBAll _ items
  unfold KeepsNothing
  cases call <;> infer_instance

theorem isNew_iff {α : Type} {isValid : α → Bool} {new object : α} (h : isValid new = false) :
    IsNew isValid new object ↔ object = new := by
  constructor
  · exact And.right
  · rintro rfl
    exact ⟨h, rfl⟩

theorem ofNat_toNat_eq_iff (h : bytes.length ≤ 4) (value : UInt32) :
    UInt32.ofNat (toNat bytes) = value ↔ toNat bytes = value.toNat := by
  have hlt : toNat bytes < 2 ^ 32 :=
    calc toNat bytes < 256 ^ bytes.length := toNat_lt bytes
      _ ≤ 256 ^ 4 := Nat.pow_le_pow_right (by decide) h
      _ = 2 ^ 32 := by decide
  rw [← UInt32.toNat_inj, UInt32.toNat_ofNat_of_lt' hlt]

theorem header_leavesNothing_iff {before : HeaderState}
    (h : (header before wire).returns currency unset bytes = false) :
    (header before wire).LeavesNothing currency unset bytes ↔
      (header before wire).KeepsNothing currency bytes := by
  have hmedian : UInt32.ofNat (toNat ((bytes.drop 80).take 4)) = 0 ↔
      ∀ byte ∈ (bytes.drop 80).take 4, byte = 0 := by
    rw [ofNat_toNat_eq_iff (List.length_take_le _ _), UInt32.toNat_zero, toNat_eq_zero_iff]
  rw [LeavesNothing, KeepsNothing, isNew_iff rfl, before.fromData_failed unset wire bytes h]
  cases wire <;> simp [HeaderState.reset, hmedian, and_comm]

/-- Only four bytes of ones are read as the height of an unspent output. -/
theorem ofNat_toNat_eq_not_spent (h : bytes.length ≤ 4) :
    UInt32.ofNat (toNat bytes) = 0xffffffff ↔ bytes = [0xff, 0xff, 0xff, 0xff] := by
  rw [ofNat_toNat_eq_iff h]
  constructor
  · intro hval
    have hlen : bytes.length = 4 := by
      by_contra hne
      have hlt : toNat bytes < 256 ^ 3 :=
        (toNat_lt bytes).trans_le (Nat.pow_le_pow_right (by decide) (by omega))
      rw [hval] at hlt
      exact absurd hlt (by decide)
    rw [← ofNat_toNat bytes, hlen, hval]
    rfl
  · rintro rfl
    rfl

theorem output_leavesNothing_iff {before : OutputState}
    (h : (output before wire).returns currency unset bytes = false) :
    (output before wire).LeavesNothing currency unset bytes ↔
      (output before wire).KeepsNothing currency bytes := by
  have hheight := ofNat_toNat_eq_not_spent (List.length_take_le 4 bytes)
  rw [LeavesNothing, KeepsNothing, isNew_iff rfl, before.fromData_failed currency wire bytes h]
  cases wire <;> simp [OutputState.reset, ScriptState.reset, hheight, and_comm]

theorem transaction_leavesNothing_iff {before : TransactionState} {withWitness unconfirmed : Bool}
    (h : (transaction before wire withWitness unconfirmed).returns currency unset bytes = false) :
    (transaction before wire withWitness unconfirmed).LeavesNothing currency unset bytes ↔
      (transaction before wire withWitness unconfirmed).KeepsNothing currency bytes := by
  rw [LeavesNothing, KeepsNothing, isNew_iff rfl]
  by_cases hkept : wire = true ∨ unconfirmed = false
  · rw [(before.resets_fromData currency unset withWitness hkept _).2 h, and_iff_left hkept]
  · obtain ⟨hwire, hunconfirmed⟩ := not_or.mp hkept
    obtain rfl : wire = false := Bool.eq_false_of_not_eq_true hwire
    obtain rfl : unconfirmed = true := Bool.eq_true_of_not_eq_false hunconfirmed
    have hstandard := before.fromData_unconfirmed_failed currency unset withWitness _ h
    refine iff_of_false (fun hnew => ?_) fun hnothing => hkept hnothing.2
    rw [hnew] at hstandard
    cases hstandard

theorem block_leavesNothing_iff {before : BlockState} {withWitness : Bool}
    (h : (block before withWitness).returns currency unset bytes = false) :
    (block before withWitness).LeavesNothing currency unset bytes ↔
      (block before withWitness).KeepsNothing currency bytes := by
  have hafter := before.fromData_failed currency unset withWitness bytes h
  rw [LeavesNothing, KeepsNothing, isNew_iff rfl]
  dsimp only at hafter
  split_ifs at hafter with hkept
  · rw [hafter, and_iff_left hkept]
  · refine iff_of_false (fun hnew => ?_) fun hnothing => hkept hnothing.2
    rw [hnew] at hafter
    cases hafter

theorem networkAddress_leavesNothing_iff {before : NetworkAddress} {withTimestamp : Bool}
    (h : (networkAddress before withTimestamp).returns currency unset bytes = false) :
    (networkAddress before withTimestamp).LeavesNothing currency unset bytes ↔
      (networkAddress before withTimestamp).KeepsNothing currency bytes := by
  have hnull : IstreamReader.overwrite nullAddress (NetworkAddress.ipBytes withTimestamp bytes ++
      List.replicate (16 - (NetworkAddress.ipBytes withTimestamp bytes).length) 0) = nullAddress ↔
      ∀ byte ∈ NetworkAddress.ipBytes withTimestamp bytes, byte = 0 :=
    NetworkAddress.overwrite_nullAddress_eq_iff (List.length_take_le _ _)
  rw [LeavesNothing, KeepsNothing, isNew_iff rfl,
    NetworkAddress.fromData_failed withTimestamp bytes before h, ← hnull]
  simp

end FromData

end BitprimCore
