import BitprimCore.Chain.Deserialization

/-!
# Round trips

Reading what was written gives an equal transaction, and for blocks an equal block, for both
encodings of a transaction. The sizes that the source computes are the numbers of bytes that it
writes.
-/

namespace BitprimCore

open Decoder LittleEndian List Option

theorem reads_readHash (hash : HashDigest) : Reads readHash hash.val hash := by
  intro rest
  rw [readHash, reads_readBytes hash.property]
  simp [hash.property]

theorem reads_readUInt32 (value : UInt32) : Reads readUInt32 (ofNat 4 value.toNat) value := by
  intro rest
  simp [readUInt32, (reads_readLittleEndian (show value.toNat < 256 ^ 4 from value.toNat_lt)).eq]

theorem reads_readUInt64 (value : UInt64) : Reads readUInt64 (ofNat 8 value.toNat) value := by
  intro rest
  simp [readUInt64, (reads_readLittleEndian (show value.toNat < 256 ^ 8 from value.toNat_lt)).eq]

/-- The store holds the index of the point. -/
def Point.Storable (point : Point) : Prop :=
  point.index.toNat < maxUint16 ∨ point.index = noPreviousOutput

theorem Point.reads_fromData {wire : Bool} {point : Point} (h : wire = false → point.Storable) :
    Reads (Point.fromData wire) (point.toData wire) point := by
  intro rest
  obtain ⟨hash, index⟩ := point
  have hhash := (reads_readHash hash).eq
  cases wire with
  | true => simp [Point.fromData, Point.toData, hhash, (reads_readUInt32 index).eq]
  | false =>
    obtain hidx | hidx : index.toNat < maxUint16 ∨ index = noPreviousOutput := h rfl
    · have hread := reads_readLittleEndian (show index.toNat < 256 ^ 2 by
        unfold maxUint16 at hidx; omega)
      simp [Point.fromData, Point.toData, hhash, hread.eq, hidx.ne]
    · -- the low 16 bits of the null index are the mark
      subst hidx
      have hwritten : ofNat 2 noPreviousOutput.toNat = ofNat 2 maxUint16 := by decide
      have hread := reads_readLittleEndian (show maxUint16 < 256 ^ 2 by decide)
      simp [Point.fromData, Point.toData, hhash, hwritten, hread.eq]

theorem reads_readSizedBytes {maxSize : Nat} {bytes : DataChunk} (hmax : maxSize < 2 ^ 64)
    (h : bytes.length ≤ maxSize) :
    Reads (readSizedBytes maxSize) (writeVariableLittleEndian bytes.length ++ bytes) bytes := by
  intro rest
  have hsize := reads_readVariableLittleEndian (h.trans_lt hmax)
  simp [readSizedBytes, hsize.eq, h.not_gt, (reads_readBytes rfl).eq]

theorem Currency.getMaxBlockSize_lt (currency : Currency) : currency.getMaxBlockSize < 2 ^ 64 := by
  cases currency <;> decide

theorem Currency.maxBlockWeight_lt (currency : Currency) : currency.maxBlockWeight < 2 ^ 64 := by
  cases currency <;> decide

theorem Script.reads_fromData {currency : Currency} {script : Script}
    (h : script.bytes.length ≤ currency.getMaxBlockSize) :
    Reads (Script.fromData currency) (script.toData true) script := by
  intro rest
  have hbytes := reads_readSizedBytes currency.getMaxBlockSize_lt h
  rw [Script.fromData, Script.toData, if_pos rfl, hbytes.eq]
  rfl

section

variable {currency : Currency} {wire : Bool}

/-- The sizes of a witness are within the limits of its reader. -/
structure Witness.Readable (currency : Currency) (witness : Witness) : Prop where
  count : witness.stack.length < 2 ^ 64
  elements : ∀ element ∈ witness.stack, element.length ≤ currency.maxBlockWeight

theorem Witness.reads_fromData {stack : Witness} (h : stack.Readable currency) :
    Reads (Witness.fromData currency) (stack.toData true) stack := by
  intro rest
  have hcount := reads_readVariableLittleEndian h.count
  have hstack := reads_many fun element helement =>
    reads_readSizedBytes currency.maxBlockWeight_lt (h.elements element helement)
  simp [Witness.fromData, Witness.toData, hcount.eq, hstack.eq]

/-- The sizes of an input are within the limits of its reader, and the store holds its point. -/
structure Input.Readable (currency : Currency) (wire : Bool) (input : Input) : Prop where
  point : wire = false → input.previousOutput.toPoint.Storable
  script : input.script.bytes.length ≤ currency.getMaxBlockSize
  witness : input.witness.Readable currency

/-- The input without what no reader sets. -/
def Input.bare (input : Input) : Input :=
  { input with previousOutput := { toPoint := input.previousOutput.toPoint } }

/-- An input is read as it was written, with its witness in the store only. -/
theorem Input.reads_fromData {input : Input} (h : input.Readable currency wire)
    (witness written : Bool) :
    Reads (Input.fromData currency wire witness) (input.toData currency wire written)
      (if currency ≠ .bch ∧ wire = false then input.bare else input.bare.stripWitness) := by
  intro rest
  have hpoint := (Point.reads_fromData h.point).eq
  have hscript := (Script.reads_fromData h.script).eq
  have hwit := (Witness.reads_fromData h.witness).eq
  have hseq := (reads_readUInt32 input.sequence).eq
  cases wire <;> cases currency <;>
    simp [Input.fromData, Input.toData, hpoint, hscript, hwit, hseq, Input.bare, Input.stripWitness]

/-- The output without what the reader of the wire does not set. -/
def Output.bare (wire : Bool) (output : Output) : Output :=
  { output with spenderHeight := if wire then 0xffffffff else output.spenderHeight }

theorem Output.reads_fromData {output : Output}
    (h : output.script.bytes.length ≤ currency.getMaxBlockSize) :
    Reads (Output.fromData currency wire) (output.toData wire) (output.bare wire) := by
  intro rest
  have hheight := (reads_readUInt32 output.spenderHeight).eq
  have hval := (reads_readUInt64 output.value).eq
  have hscript := (Script.reads_fromData h).eq
  cases wire <;> simp [Output.fromData, Output.toData, hheight, hval, hscript, Output.bare]

end

namespace Transaction

/-- The sizes of a transaction are within the limits of its reader. Without inputs it could be
taken for the marker of a segregated one. -/
structure Readable (currency : Currency) (wire : Bool) (tx : Transaction) : Prop where
  nonempty : tx.inputs ≠ []
  inputCount : tx.inputs.length ≤ currency.getMaxBlockSize
  outputCount : tx.outputs.length ≤ currency.getMaxBlockSize
  inputs : ∀ input ∈ tx.inputs, input.Readable currency wire
  outputs : ∀ output ∈ tx.outputs, output.script.bytes.length ≤ currency.getMaxBlockSize

/-- The transaction without what no reader sets. -/
def bare (wire : Bool) (tx : Transaction) : Transaction where
  version := tx.version
  locktime := tx.locktime
  inputs := tx.inputs.map Input.bare
  outputs := tx.outputs.map (Output.bare wire)

variable {currency : Currency} {wire : Bool} {tx : Transaction}

theorem reads_readPuts {α β : Type} {decode : DataChunk → Option (β × DataChunk)}
    {encode : α → DataChunk} {value : α → β} {items : List α}
    (hcount : items.length ≤ currency.getMaxBlockSize)
    (h : ∀ item ∈ items, Reads decode (encode item) (value item)) :
    Reads (fun source => readPuts currency source decode)
      (writeVariableLittleEndian items.length ++ items.flatMap encode) (items.map value) := by
  intro rest
  have hread := reads_readVariableLittleEndian (hcount.trans_lt currency.getMaxBlockSize_lt)
  simp [readPuts, hread.eq, hcount.not_gt, (reads_many h).eq]

theorem Readable.reads_readOutputs (h : tx.Readable currency wire) :
    Reads (fun source => readOutputs currency wire source) (writeOutputs tx.outputs wire)
      (tx.bare wire).outputs :=
  reads_readPuts h.outputCount fun output houtput => Output.reads_fromData (h.outputs output houtput)

/-- Inputs are read with their witnesses in the store only. -/
theorem Readable.reads_readInputs (h : tx.Readable currency wire) (witness written : Bool) :
    Reads (fun source => readInputs currency wire witness source)
      (writeInputs currency tx.inputs wire written)
      (if currency ≠ .bch ∧ wire = false then (tx.bare wire).inputs
        else (tx.bare wire).stripWitness.inputs) := by
  have hread := reads_readPuts h.inputCount fun input hinput =>
    Input.reads_fromData (h.inputs input hinput) witness written
  by_cases hstore : currency ≠ .bch ∧ wire = false
  · simp only [if_pos hstore] at hread ⊢
    exact hread
  · simp only [if_neg hstore] at hread ⊢
    rw [stripWitness, bare, List.map_map]
    exact hread

theorem Readable.reads_readWitnesses (h : tx.Readable currency wire) :
    Reads (fun source => readWitnesses currency source (tx.bare wire).stripWitness.inputs)
      (writeWitnesses tx.inputs) (tx.bare wire).inputs := by
  have hinputs : (tx.bare wire).stripWitness.inputs =
      tx.inputs.map fun input => input.bare.stripWitness := by
    simp [bare, stripWitness]
  rw [hinputs]
  apply reads_each
  intro input hinput rest
  have hwit := (Witness.reads_fromData (h.inputs input hinput).witness).eq
  simp [hwit, Input.bare, Input.stripWitness]

/-- The marker reads as an empty list of inputs. -/
theorem readInputs_marker (currency : Currency) (witness : Bool) (rest : DataChunk) :
    readInputs currency true witness (witnessMarker :: rest) = some ([], rest) := by
  cases currency <;> rfl

theorem stripWitness_stripWitness (tx : Transaction) :
    tx.stripWitness.stripWitness = tx.stripWitness := by
  simp [stripWitness, Input.stripWitness]

/-- A transaction that is not segregated has no witness to lose. -/
theorem stripWitness_bare (hcur : currency ≠ .bch) (h : tx.isSegregated currency = false) :
    (tx.bare wire).stripWitness = tx.bare wire := by
  have hempty : ∀ input ∈ tx.inputs, input.bare.stripWitness = input.bare := by
    intro input hinput
    rw [isSegregated, if_neg hcur, List.any_eq_false] at h
    have hstack := h input hinput
    simp only [Input.isSegregated, Witness.isEmpty, Bool.not_eq_true', Bool.not_eq_false,
      List.isEmpty_iff] at hstack
    have hwit : input.witness = {} := congrArg Witness.mk hstack
    rw [Input.stripWitness, Input.bare, hwit]
  rw [stripWitness, bare]
  congr 1
  rw [List.map_map]
  exact List.map_congr_left hempty

/-- The old encoding is read with empty witnesses. -/
theorem Readable.reads_readPutsWire (h : tx.Readable currency true) (witness : Bool) :
    Reads (readPutsWire currency witness)
      (writeInputs currency tx.inputs true false ++ writeOutputs tx.outputs true)
      ((tx.bare true).stripWitness.inputs, (tx.bare true).outputs) := by
  intro rest
  have hinputs := (h.reads_readInputs witness false).eq
  have houtputs := h.reads_readOutputs.eq
  have hnonempty : (tx.bare true).stripWitness.inputs ≠ [] := by
    simpa [stripWitness, bare] using h.nonempty
  simp [readPutsWire, hinputs, houtputs, hnonempty]

/-- The encoding behind the marker is read with the witnesses at its end. -/
theorem Readable.reads_readPutsWire_marker (h : tx.Readable currency true)
    (hcur : currency ≠ .bch) (witness : Bool) :
    Reads (readPutsWire currency witness)
      (witnessMarker :: witnessFlag :: (writeInputs currency tx.inputs true true ++
        (writeOutputs tx.outputs true ++ writeWitnesses tx.inputs)))
      ((tx.bare true).inputs, (tx.bare true).outputs) := by
  intro rest
  have hinputs := (h.reads_readInputs witness true).eq
  have houtputs := h.reads_readOutputs.eq
  have hwitnesses := h.reads_readWitnesses.eq
  simp [readPutsWire, readInputs_marker, hcur, hinputs, houtputs, hwitnesses]

theorem reads_fromDataWire_of_puts {code : DataChunk} {inputs : List Input} {outputs : List Output}
    {witness : Bool} (h : Reads (readPutsWire currency witness) code (inputs, outputs))
    (version locktime : UInt32) :
    Reads (fromDataWire currency witness)
      (ofNat 4 version.toNat ++ (code ++ ofNat 4 locktime.toNat))
      { version, locktime, inputs, outputs } := by
  intro rest
  simp [fromDataWire, (reads_readUInt32 version).eq, h.eq, (reads_readUInt32 locktime).eq]

/-- What a reader of the wire makes of a transaction that is written with or without witnesses. -/
theorem Readable.reads_fromDataWire (h : tx.Readable currency true) (witness written : Bool) :
    Reads (fromDataWire currency witness) (tx.toData currency true written)
      (if written && tx.isSegregated currency then tx.bare true
        else (tx.bare true).stripWitness) := by
  cases hwritten : written && tx.isSegregated currency with
  | true =>
    have hcur : currency ≠ .bch := by
      rintro rfl
      simp [isSegregated] at hwritten
    simp only [toData, hwritten, if_true]
    exact reads_fromDataWire_of_puts (h.reads_readPutsWire_marker hcur witness) _ _
  | false =>
    simp only [toData, hwritten, if_true, Bool.false_eq_true, if_false]
    exact reads_fromDataWire_of_puts (h.reads_readPutsWire witness) _ _

theorem Readable.reads_fromDataStore (h : tx.Readable currency false) (witness written : Bool) :
    Reads (fromDataStore currency witness) (tx.toData currency false written)
      (if currency = .bch then (tx.bare false).stripWitness else tx.bare false) := by
  intro rest
  have houtputs := h.reads_readOutputs.eq
  have hinputs := (h.reads_readInputs witness (written && tx.isSegregated currency)).eq
  have hbound : ∀ value : UInt32, value.toNat < 2 ^ 64 := fun value =>
    value.toNat_lt.trans (by decide)
  have hlock := (reads_readVariableLittleEndian (hbound tx.locktime)).eq
  have hver := (reads_readVariableLittleEndian (hbound tx.version)).eq
  have hfits : ∀ value : UInt32, ¬ maxUint32 < value.toNat := fun value =>
    not_lt.mpr (Nat.le_of_lt_succ value.toNat_lt)
  simp only [fromDataStore, toData, Bool.false_eq_true, if_false, append_assoc, houtputs,
    hinputs, hlock, hver, hfits, decide_false, Bool.or_self, bind_eq_bind,
    Option.bind_some, Option.pure_def, UInt32.ofNat_toNat]
  by_cases hcur : currency = .bch
  · simp only [hcur, ne_eq, not_true_eq_false, false_and, if_false, if_true]
    rfl
  · simp only [hcur, ne_eq, not_false_eq_true, and_self, if_false, if_true]
    rfl

/-- A transaction is read as it was written, with its witnesses if these are asked for. -/
theorem Readable.reads_fromData (h : tx.Readable currency wire) (witness : Bool) :
    Reads (fromData currency wire witness) (tx.toData currency wire witness)
      (if witness && currency ≠ .bch then tx.bare wire else (tx.bare wire).stripWitness) := by
  intro rest
  cases wire with
  | true =>
    have hread := (h.reads_fromDataWire (if currency = .bch then false else witness) witness).eq
    simp only [fromData, if_true, hread, Option.bind_eq_bind, Option.bind_some, Option.pure_def]
    by_cases hcur : currency = .bch
    · simp [hcur, isSegregated, stripWitness_stripWitness]
    · cases witness with
      | false => simp [hcur, stripWitness_stripWitness]
      | true =>
        cases hseg : tx.isSegregated currency with
        | false => simp [hcur, stripWitness_bare hcur hseg]
        | true => simp [hcur]
  | false =>
    have hread := (h.reads_fromDataStore (if currency = .bch then false else witness) witness).eq
    simp only [fromData, Bool.false_eq_true, if_false, hread, Option.bind_eq_bind,
      Option.bind_some, Option.pure_def]
    by_cases hcur : currency = .bch
    · simp [hcur, stripWitness_stripWitness]
    · simp [hcur]

end Transaction

section

variable (currency : Currency) (wire : Bool)

theorem Point.length_toData (point : Point) :
    (point.toData wire).length = Point.serializedSize wire := by
  cases wire <;> simp [Point.toData, Point.serializedSize, point.hash.property]

theorem Script.length_toData (script : Script) :
    (script.toData true).length = script.serializedSize true := by
  simp [Script.toData, Script.serializedSize, add_comm]

theorem Output.length_toData (output : Output) :
    (output.toData wire).length = output.serializedSize wire := by
  cases wire <;> simp [Output.toData, Output.serializedSize, Script.length_toData]
  omega

theorem Witness.length_toData (witness : Witness) :
    (witness.toData true).length = witness.serializedSize true := by
  simp [Witness.toData, Witness.serializedSize, length_flatMap]

/-- The size of an input with witness counts the witness that the transaction writes. -/
theorem Input.length_toData (input : Input) (witness : Bool) :
    (input.toData currency wire witness).length +
        (if wire && witness && currency ≠ .bch then (input.witness.toData true).length else 0) =
      input.serializedSize currency wire witness := by
  cases currency <;> cases wire <;> cases witness <;>
    simp [Input.toData, Input.serializedSize, Point.length_toData, Script.length_toData,
      Witness.length_toData] <;> omega

theorem Transaction.length_writeOutputs (outputs : List Output) :
    (writeOutputs outputs wire).length = variableUintSize outputs.length +
      (outputs.map fun output => output.serializedSize wire).sum := by
  simp [writeOutputs, length_flatMap, Output.length_toData]

/-- The inputs, and the witnesses behind them when the transaction writes these. -/
theorem Transaction.length_writeInputs (inputs : List Input) (witness : Bool) :
    (writeInputs currency inputs wire witness).length +
        (if wire && witness && currency ≠ .bch then (writeWitnesses inputs).length else 0) =
      variableUintSize inputs.length +
        (inputs.map fun input => input.serializedSize currency wire witness).sum := by
  simp only [writeInputs, writeWitnesses, length_append, length_flatMap,
    length_writeVariableLittleEndian, ← Input.length_toData, sum_map_add]
  split_ifs <;> simp [add_assoc]

theorem Transaction.length_toData (tx : Transaction) (witness : Bool) :
    (tx.toData currency wire witness).length = tx.serializedSize currency wire witness := by
  have houtputs := length_writeOutputs wire tx.outputs
  have hinputs := length_writeInputs currency wire tx.inputs (witness && tx.isSegregated currency)
  have hmasked : (witness && tx.isSegregated currency) → currency ≠ .bch := by
    rintro h rfl
    simp [isSegregated] at h
  unfold toData serializedSize
  generalize (witness && tx.isSegregated currency) = masked at hinputs hmasked ⊢
  cases masked with
  | false => cases wire <;> simp at hinputs ⊢ <;> omega
  | true => cases wire <;> simp [hmasked rfl] at hinputs ⊢ <;> omega

end

namespace Transaction

theorem equal_bare (wire : Bool) (tx : Transaction) : (tx.bare wire).Equal tx := by
  refine ⟨rfl, rfl, ?_, ?_⟩
  · simp only [bare, List.map_map]
    rfl
  · simp only [bare, List.map_map]
    rfl

theorem equal_bare_stripWitness (wire : Bool) (tx : Transaction) :
    (tx.bare wire).stripWitness.Equal tx.stripWitness := by
  refine ⟨rfl, rfl, ?_, ?_⟩
  · simp only [bare, stripWitness, List.map_map]
    rfl
  · simp only [bare, stripWitness, List.map_map]
    rfl

/-- Writing and reading a transaction takes exactly the bytes of its size and gives an equal
transaction, which keeps its witnesses if these are asked for and the build has them. -/
theorem round_trip {currency : Currency} {wire : Bool} {tx : Transaction}
    (h : tx.Readable currency wire) (witness : Bool) :
    (∃ tx', (∀ rest, fromData currency wire witness (tx.toData currency wire witness ++ rest) =
        some (tx', rest)) ∧
      tx'.Equal (if witness && currency ≠ .bch then tx else tx.stripWitness)) ∧
      (tx.toData currency wire witness).length = tx.serializedSize currency wire witness := by
  refine ⟨⟨_, h.reads_fromData witness, ?_⟩, length_toData currency wire tx witness⟩
  split_ifs
  · exact equal_bare wire tx
  · exact equal_bare_stripWitness wire tx

section

/-- One input with a witness of one element, which the store holds, and one output. -/
def witnessSample : Transaction where
  version := 1
  locktime := 0
  inputs := [{
    previousOutput := { hash := nullHash, index := 7 }
    script := ⟨[0x51]⟩
    witness := ⟨[[1, 2]]⟩
    sequence := 3 }]
  outputs := [{ value := 9, script := ⟨[0x51]⟩ }]

theorem readable_witnessSample (currency : Currency) (wire : Bool) :
    witnessSample.Readable currency wire where
  nonempty := by simp [witnessSample]
  inputCount := by cases currency <;> decide
  outputCount := by cases currency <;> decide
  inputs := by
    intro input hinput
    obtain rfl := mem_singleton.mp hinput
    exact {
      point := fun _ => .inl (by decide)
      script := by cases currency <;> decide
      witness := { count := by decide, elements := by cases currency <;> decide } }
  outputs := by cases currency <;> decide

theorem round_trip_witnessSample :
    (∃ tx', (∀ rest, fromData .btc true true (witnessSample.toData .btc true true ++ rest) =
        some (tx', rest)) ∧ tx'.Equal witnessSample) ∧
      (witnessSample.toData .btc true true).length = witnessSample.serializedSize .btc true true :=
  round_trip (readable_witnessSample .btc true) true

/-- The `bch` build drops the witness that it is asked to keep. -/
theorem bch_round_trip_drops_witness :
    witnessSample.Readable .bch true ∧
      ¬ ∃ tx', fromData .bch true true (witnessSample.toData .bch true true) = some (tx', []) ∧
        tx'.Equal witnessSample := by
  refine ⟨readable_witnessSample .bch true, ?_⟩
  rintro ⟨tx', hread, hequal⟩
  have hstripped : fromData .bch true true (witnessSample.toData .bch true true) =
      some (witnessSample.stripWitness, []) := by decide
  rw [hstripped, Option.some.injEq, Prod.mk.injEq] at hread
  obtain ⟨rfl, -⟩ := hread
  revert hequal
  decide

end

end Transaction

theorem Header.reads_fromData (header : Header) :
    Reads (Header.fromData true) (header.toData true) { header with medianTimePast := 0 } := by
  intro rest
  simp [Header.fromData, Header.toData, (reads_readHash _).eq, (reads_readUInt32 _).eq]

namespace Block

/-- The sizes of a block are within the limits of its reader. -/
structure Readable (currency : Currency) (block : Block) : Prop where
  count : block.transactions.length ≤ currency.getMaxBlockSize
  transactions : ∀ tx ∈ block.transactions, tx.Readable currency true

/-- The block without what no reader sets. -/
def bare (block : Block) : Block where
  header := { block.header with medianTimePast := 0 }
  transactions := block.transactions.map (Transaction.bare true)

variable {currency : Currency} {block : Block}

theorem Readable.reads_fromData (h : block.Readable currency) (witness : Bool) :
    Reads (fromData currency witness) (block.write currency witness)
      (if witness && currency ≠ .bch then block.bare else block.bare.stripWitness) := by
  intro rest
  have hheader := (Header.reads_fromData block.header).eq
  have hcount := (reads_readVariableLittleEndian (h.count.trans_lt currency.getMaxBlockSize_lt)).eq
  have hmasked : (if currency = .bch then false else witness) =
      (witness && decide (currency ≠ .bch)) := by
    by_cases hcur : currency = .bch <;> simp [hcur]
  have htxs := (reads_many fun tx htx => (h.transactions tx htx).reads_fromData
    (witness && decide (currency ≠ .bch))).eq
  simp only [fromData, write, hmasked, List.append_assoc, hheader, hcount, htxs,
    if_neg h.count.not_gt, Option.bind_eq_bind, Option.bind_some, Option.pure_def, Bool.and_assoc,
    Bool.and_self]
  cases hkept : witness && decide (currency ≠ .bch) with
  | true =>
    simp only [if_true]
    rfl
  | false =>
    have hstripped : block.transactions.map
        (fun tx => (tx.bare true).stripWitness.stripWitness) =
        block.transactions.map fun tx => (tx.bare true).stripWitness := by
      simp only [Transaction.stripWitness_stripWitness]
    simp only [Bool.false_eq_true, if_false, stripWitness, bare, List.map_map,
      Function.comp_def, hstripped]

theorem length_write (currency : Currency) (block : Block) (witness : Bool) :
    (block.write currency witness).length = block.serializedSize currency witness := by
  have hheader : (block.header.toData true).length = Header.serializedSize true := by
    simp [Header.toData, Header.serializedSize, Header.satoshiFixedSize,
      block.header.previousBlockHash.property, block.header.merkle.property]
  simp [write, serializedSize, length_flatMap, Transaction.length_toData, hheader, add_assoc]

theorem equal_bare (block : Block) : block.bare.Equal block := by
  refine ⟨rfl, ?_⟩
  rw [bare, forall₂_map_left_iff, forall₂_same]
  exact fun tx _ => tx.equal_bare true

theorem equal_bare_stripWitness (block : Block) :
    block.bare.stripWitness.Equal block.stripWitness := by
  refine ⟨rfl, ?_⟩
  simp only [bare, stripWitness, forall₂_map_left_iff, forall₂_map_right_iff, forall₂_same]
  exact fun tx _ => tx.equal_bare_stripWitness true

/-- Without segregated transactions there is nothing to write for the witnesses. -/
theorem write_of_not_isSegregated (h : block.isSegregated currency = false) (witness : Bool) :
    block.write currency witness = block.write currency false := by
  rw [isSegregated, List.any_eq_false] at h
  have htxs : ∀ witness, (block.transactions.flatMap fun tx =>
      tx.toData currency true witness) = block.transactions.flatMap fun tx =>
        tx.toData currency true false := by
    intro witness
    apply List.flatMap_congr
    intro tx htx
    have hseg := Bool.eq_false_iff.mpr (h tx htx)
    simp only [Transaction.toData, hseg, Bool.and_false]
  rw [write, write, ite_self, htxs]

theorem serializedSize_lt_witness (h : block.isSegregated .btc) :
    block.serializedSize .btc false < block.serializedSize .btc true := by
  obtain ⟨tx, htx, hseg⟩ := any_eq_true.mp h
  have hsum := sum_lt_sum (fun tx : Transaction => tx.serializedSize .btc true false)
    (fun tx => tx.serializedSize .btc true true)
    (fun tx _ => tx.serializedSize_le_witness .btc)
    ⟨tx, htx, Transaction.serializedSize_lt_witness hseg⟩
  simpa [serializedSize] using hsum

/-- The writer that is given a sink hands the witness argument on. -/
theorem write_round_trip (h : block.Readable currency) (witness : Bool) :
    (block.write currency witness).length = block.serializedSize currency witness ∧
      ∃ block', fromData currency witness (block.write currency witness) = some (block', []) ∧
        block'.Equal (if witness && currency ≠ .bch then block else block.stripWitness) := by
  have hread := (h.reads_fromData witness).eq []
  rw [append_nil] at hread
  refine ⟨length_write currency block witness, _, hread, ?_⟩
  split_ifs
  · exact block.equal_bare
  · exact block.equal_bare_stripWitness

/-- The bytes that `to_data` returns are those of the size, and are read as an equal block, exactly
when no witness is asked for or there is none. -/
theorem toData_round_trip_iff (h : block.Readable .btc) (witness : Bool) :
    ((block.toData .btc witness).length = block.serializedSize .btc witness ∧
        ∃ block', fromData .btc witness (block.toData .btc witness) = some (block', []) ∧
          block'.Equal (if witness then block else block.stripWitness)) ↔
      witness = false ∨ block.isSegregated .btc = false := by
  have hround := write_round_trip h witness
  constructor
  · rintro ⟨hlength, -⟩
    by_contra hnot
    simp only [not_or, Bool.not_eq_false] at hnot
    rw [toData, length_write, hnot.1] at hlength
    exact absurd hlength (serializedSize_lt_witness hnot.2).ne
  · intro hcases
    have hwritten : block.toData .btc witness = block.write .btc witness := by
      obtain rfl | hsegregated := hcases
      · rfl
      · exact (write_of_not_isSegregated hsegregated witness).symm
    rw [hwritten]
    simpa using hround

section

/-- A block of one transaction with a witness. -/
def witnessBlock : Block where
  header :=
    { version := 1
      previousBlockHash := nullHash
      merkle := nullHash
      timestamp := 1
      bits := 2
      nonce := 3 }
  transactions := [Transaction.witnessSample]

theorem readable_witnessBlock : witnessBlock.Readable .btc where
  count := by decide
  transactions := by
    intro tx htx
    obtain rfl := mem_singleton.mp htx
    exact Transaction.readable_witnessSample .btc true

theorem toData_round_trip_witnessBlock :
    (witnessBlock.toData .btc false).length = witnessBlock.serializedSize .btc false ∧
      ∃ block', fromData .btc false (witnessBlock.toData .btc false) = some (block', []) ∧
        block'.Equal witnessBlock.stripWitness :=
  (toData_round_trip_iff readable_witnessBlock false).mpr (.inl rfl)

/-- Asked for the witness, `to_data` leaves it out. -/
theorem toData_drops_witness :
    witnessBlock.Readable .btc ∧
      (witnessBlock.toData .btc true).length ≠ witnessBlock.serializedSize .btc true :=
  ⟨readable_witnessBlock, by decide +kernel⟩

end

end Block

end BitprimCore
