import BitprimCore.Chain.FailedDecode

/-!
# Counted witnesses

A witness on the wire announces the number of its elements. The loop that reads them runs for as
long as was announced, also behind the end of the source, where every element is empty. So the
number of elements that are appended is bounded by the data only if no more were announced than the
form without a number would read.
-/

namespace BitprimCore

open IstreamReader StickyReader WitnessState

namespace WitnessState

variable (currency : Currency) {fuel : Nat} (source : Source UInt8)

/-- The number in front of a witness, as it is read. -/
def announced : Nat := (IstreamReader.readVariableLittleEndian source).1

/-- The source behind the number. -/
def behindCount : Source UInt8 := (IstreamReader.readVariableLittleEndian source).2

/-- The number of elements on the stack when the loop has ended, before any reset. -/
def appended : Nat := (readStack currency true source).1.length

/-- The source behind a number of elements. -/
def behindElements (count : Nat) (source : Source UInt8) : Source UInt8 :=
  (readMany (readElement currency) count source).2

/-- The number of elements that the form without a number reads, the last of them complete or
not. -/
def elementsPresent : Nat := (readElements currency source.items.length source).1.length

/-- The data bounds what is read of a counted witness. -/
structure DrivenByData (source : Source UInt8) : Prop where
  /-- No element is appended behind the end of the source. -/
  stops : ∀ count < appended currency source,
    (IstreamReader.isExhausted (behindElements currency count (behindCount source))).1 = false
  appended_le : appended currency source ≤ source.items.length
  /-- If the source has fewer elements than were announced the witness is cleared. -/
  missing : (∀ count, (behindElements currency count (behindCount source)).failed = false →
      count < announced source) →
    ∀ before : WitnessState, (before.fromData currency true source).1 = (false, {})

variable {currency} {source : Source UInt8}

theorem length_readMany {α : Type} (read : Reader UInt8 α) (count : Nat) (source : Source UInt8) :
    (readMany read count source).1.length = count := by
  induction count generalizing source with
  | zero => rfl
  | succ count ih =>
    change ((readMany read count (read source).2).1.length + 1) = count + 1
    rw [ih]

/-- As many are appended as were announced. -/
theorem appended_eq (source : Source UInt8) : appended currency source = announced source :=
  length_readMany _ _ _

@[simp] theorem behindElements_zero : behindElements currency 0 source = source := rfl

/-- The loop without a number takes one step at a time too. -/
theorem readElements_succ (h : (isExhausted source).1 = false) :
    (readElements currency (fuel + 1) source).1 = (readElement currency source).1 ::
      (readElements currency fuel (readElement currency source).2).1 := by
  rw [readElements, bind_run, h]
  rfl

theorem readElements_of_exhausted (h : (isExhausted source).1) :
    (readElements currency fuel source).1 = [] := by
  cases fuel with
  | zero => rfl
  | succ fuel =>
    rw [readElements, bind_run, h]
    rfl

theorem length_readElements_le (fuel : Nat) (source : Source UInt8) :
    (readElements currency fuel source).1.length ≤ fuel := by
  induction fuel generalizing source with
  | zero => exact le_refl 0
  | succ fuel ih =>
    cases hexhausted : (isExhausted source).1 with
    | true =>
      rw [readElements_of_exhausted hexhausted]
      exact Nat.zero_le _
    | false =>
      rw [readElements_succ hexhausted, List.length_cons]
      exact Nat.succ_le_succ (ih _)

/-- An element takes a byte of a source that is not exhausted. -/
theorem length_readElement_lt (h : (isExhausted source).1 = false) :
    (readElement currency source).2.items.length < source.items.length := by
  obtain ⟨items, failed⟩ := source
  obtain ⟨hfail, hitems⟩ : failed = false ∧ items.isEmpty = false := Bool.or_eq_false_iff.mp h
  subst hfail
  cases items with
  | nil => cases hitems
  | cons byte items => exact Nat.lt_succ_of_le (readStateSizedBytes_le _ byte items)

/-- Both loops begin an element in the same places, for as long as there is data. -/
theorem forall_not_exhausted_iff (hfuel : source.items.length ≤ fuel) (total : Nat) :
    (∀ count < total,
      (isExhausted (behindElements currency count source)).1 = false) ↔
      total ≤ (readElements currency fuel source).1.length := by
  induction total generalizing fuel source with
  | zero => simp
  | succ total ih =>
    cases hexhausted : (isExhausted source).1 with
    | true =>
      rw [readElements_of_exhausted hexhausted]
      constructor
      · intro h
        have hfirst := h 0 (Nat.succ_pos total)
        rw [behindElements_zero, hexhausted] at hfirst
        cases hfirst
      · exact fun h => absurd h (Nat.not_succ_le_zero total)
    | false =>
      have hshorter : (readElement currency source).2.items.length < source.items.length :=
        length_readElement_lt hexhausted
      obtain ⟨fuel, rfl⟩ : ∃ rest, fuel = rest + 1 := Nat.exists_eq_add_of_le' (by omega)
      have hrest : (readElement currency source).2.items.length ≤ fuel := by omega
      rw [readElements_succ hexhausted, List.length_cons, Nat.succ_le_succ_iff, ← ih hrest]
      constructor
      · intro h count hcount
        exact h (count + 1) (Nat.succ_lt_succ hcount)
      · intro h count hcount
        cases count with
        | zero => exact hexhausted
        | succ count => exact h count (Nat.lt_of_succ_lt_succ hcount)

theorem length_behindCount_le (source : Source UInt8) :
    (behindCount source).items.length ≤ source.items.length := by
  refine shrinks_bind (shrinks_bind (shrinks_arrive 1) fun _ => shrinks_pure _) (fun value => ?_)
    source
  split_ifs
  · exact shrinks_readLittleEndian 8
  · exact shrinks_readLittleEndian 4
  · exact shrinks_readLittleEndian 2
  · exact shrinks_pure _

/-- A witness whose elements are not all there is cleared, however many were announced. -/
theorem fromData_of_missing
    (h : ∀ count, (behindElements currency count (behindCount source)).failed = false →
      count < announced source) (before : WitnessState) :
    (before.fromData currency true source).1 = (false, {}) := by
  have hfail : (behindElements currency (announced source) (behindCount source)).failed := by
    cases hstate : (behindElements currency (announced source) (behindCount source)).failed with
    | true => rfl
    | false => exact absurd (h _ hstate) (lt_irrefl _)
  have hread : (readStack currency true source).2.failed := hfail
  rw [fromData, bind_run, finish_run, hread]
  rfl

theorem drivenByData_iff (source : Source UInt8) :
    DrivenByData currency source ↔
      announced source ≤ elementsPresent currency (behindCount source) := by
  have hstops : (∀ count < announced source,
      (IstreamReader.isExhausted (behindElements currency count (behindCount source))).1 = false) ↔
      announced source ≤ elementsPresent currency (behindCount source) :=
    forall_not_exhausted_iff (le_refl _) (announced source)
  constructor
  · intro h
    have hall := h.stops
    rw [appended_eq] at hall
    exact hstops.mp hall
  · intro h
    refine ⟨?_, ?_, fromData_of_missing⟩
    · rw [appended_eq]
      exact hstops.mpr h
    · calc appended currency source = announced source := appended_eq source
        _ ≤ elementsPresent currency (behindCount source) := h
        _ ≤ (behindCount source).items.length := length_readElements_le _ _
        _ ≤ source.items.length := length_behindCount_le source

end WitnessState

namespace TransactionState

variable (currency : Currency) (unset : HashDigest)

/-- The sources that the witnesses of the inputs are read from. -/
def witnessSources : List InputState → Source UInt8 → List (Source UInt8)
  | [], _ => []
  | input :: inputs, source =>
    source :: witnessSources inputs (input.witness.fromData currency true source).2

/-- The part of a transaction in front of the witnesses, if it has any (`from_data` up to
`read_witnesses`). -/
def readMarked (witness : Bool) :
    Reader UInt8 (Option (UInt32 × List InputState × List OutputState)) :=
  do
  let version ← readStateUInt32
  let inputs ← readInputs currency unset true witness
  let flag ← IstreamReader.peekByte
  if currency ≠ .bch && inputs.isEmpty && flag == Transaction.witnessFlag then
    let _ ← IstreamReader.readBytes 1
    let inputs ← readInputs currency unset true witness
    let outputs ← readOutputs currency true
    return some (version, inputs, outputs)
  else return none

/-- The sources that the witnesses of a segregated transaction are read from. -/
def inputSources (witness : Bool) (bytes : DataChunk) : List (Source UInt8) :=
  match readMarked currency unset witness ⟨bytes, false⟩ with
  | (some (_, inputs, _), source) => witnessSources currency inputs source
  | (none, _) => []

variable {currency unset}

theorem readWitnesses_cons (input : InputState) (inputs : List InputState) (source : Source UInt8) :
    readWitnesses currency (input :: inputs) source =
      ({ input with witness := (input.witness.fromData currency true source).1.2 } ::
          (readWitnesses currency inputs (input.witness.fromData currency true source).2).1,
        (readWitnesses currency inputs (input.witness.fromData currency true source).2).2) := rfl

/-- The witnesses of the inputs are those that are read from the sources. -/
theorem readWitnesses_eq (inputs : List InputState) (source : Source UInt8) :
    (readWitnesses currency inputs source).1 =
      List.zipWith (fun input source =>
        { input with witness := (input.witness.fromData currency true source).1.2 })
        inputs (witnessSources currency inputs source) := by
  induction inputs generalizing source with
  | nil => rfl
  | cons input inputs ih =>
    rw [readWitnesses_cons, ih]
    rfl

variable {inputs : List InputState} {version : UInt32} {witness : Bool} {outputs : List OutputState}
    {tx : TransactionState}

/-- A segregated transaction goes on with the witnesses of the inputs that were read. -/
theorem readWire_of_readMarked {source rest : Source UInt8}
    (h : readMarked currency unset witness source = (some (version, inputs, outputs), rest)) :
    (tx.readWire currency unset witness source).1.inputs =
      (readWitnesses currency inputs rest).1 := by
  simp only [readMarked, bind_run] at h
  simp only [readWire, readPutsWire, bind_run]
  split_ifs at h ⊢ with hmarked
  · simp only [bind_run, pure_run] at h ⊢
    obtain ⟨hread, hrest⟩ := Prod.mk.inj h
    obtain ⟨-, hputs⟩ := Prod.mk.inj (Option.some.inj hread)
    rw [← hrest, ← (Prod.mk.inj hputs).1]
  · cases congrArg Prod.fst h

/-- The witnesses of a transaction are read from its sources, one for each input. -/
theorem readWire_witnesses {bytes : DataChunk} {rest : Source UInt8}
    (h : readMarked currency unset witness ⟨bytes, false⟩ =
      (some (version, inputs, outputs), rest)) :
    (tx.readWire currency unset witness ⟨bytes, false⟩).1.inputs =
      List.zipWith (fun input source =>
        { input with witness := (input.witness.fromData currency true source).1.2 })
        inputs (inputSources currency unset witness bytes) := by
  rw [readWire_of_readMarked h, readWitnesses_eq, inputSources, h]

/-- A counted witness is driven by the data if and only if it does not announce more elements than
are there, on its own and in each input of a segregated transaction, whose witnesses are read from
the sources of its inputs. -/
theorem witnesses_driven_iff (currency : Currency) (unset : HashDigest) :
    (∀ bytes : DataChunk, WitnessState.DrivenByData currency ⟨bytes, false⟩ ↔
      announced ⟨bytes, false⟩ ≤ elementsPresent currency (behindCount ⟨bytes, false⟩)) ∧
    ∀ (bytes : DataChunk) (witness : Bool),
      (∀ (tx : TransactionState), ∀ marked ∈ (readMarked currency unset witness ⟨bytes, false⟩).1,
        (tx.readWire currency unset witness ⟨bytes, false⟩).1.inputs =
          List.zipWith (fun input source =>
            { input with witness := (input.witness.fromData currency true source).1.2 })
            marked.2.1 (inputSources currency unset witness bytes)) ∧
      ∀ source ∈ inputSources currency unset witness bytes,
        (WitnessState.DrivenByData currency source ↔
          announced source ≤ elementsPresent currency (behindCount source)) := by
  constructor
  · intro bytes
    exact drivenByData_iff ⟨bytes, false⟩
  · intro bytes witness
    refine ⟨?_, fun source _ => drivenByData_iff source⟩
    rintro tx ⟨version, inputs, outputs⟩ hmarked
    exact readWire_witnesses (Prod.ext hmarked rfl)

/-- Three bytes announce 65535 elements, and as many are appended. -/
theorem announced_elements_appended :
    appended .btc ⟨[0xfd, 0xff, 0xff], false⟩ = 65535 ∧
      ¬ WitnessState.DrivenByData .btc ⟨[0xfd, 0xff, 0xff], false⟩ := by
  have happended : appended .btc ⟨[0xfd, 0xff, 0xff], false⟩ = 65535 :=
    (appended_eq _).trans (by decide)
  refine ⟨happended, fun h => ?_⟩
  have hbound := h.appended_le
  rw [happended] at hbound
  exact absurd hbound (by decide)

end TransactionState

end BitprimCore
