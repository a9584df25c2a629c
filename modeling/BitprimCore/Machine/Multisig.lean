import BitprimCore.Library.Matching
import BitprimCore.Machine.Signature
import BitprimCore.Math.Sha256

/-!
# Multisig: which signatures satisfy which keys

The two nested loops of `op_check_multisig_verify` are a single forward scan whose cursor stays on
the key that has signed. They succeed exactly when the endorsements can be assigned to keys without
going back, which is weaker than assigning each endorsement a key of its own.
-/

namespace BitprimCore.Interpreter

open Matching Program

variable {env : Env} {ctx : Context} {p q : Program} {operands : MultisigOperands}
  {rest keys endorsements : List DataChunk}

/-- A count of at most `bound` stands on a stack above as many elements. -/
def CountedItems (stack : List DataChunk) (bound : Nat) (items rest : List DataChunk) : Prop :=
  ∃ item, stack = item :: (items ++ rest) ∧ topInt32 [item] = some (items.length : Int) ∧
    items.length ≤ bound

/-- The keys that a multisig over the stack counts as operations: the number at the top, as far as
it is in range. -/
def countedKeys (stack : List DataChunk) : Nat :=
  match topInt32 stack with
  | none => 0
  | some count => if 0 ≤ count ∧ count ≤ maxScriptPublicKeys then count.toNat else 0

/-- The results for operands that are missing or out of range. -/
def operandFailures : List ErrorCode :=
  [.opCheckMultisigVerify1, .opCheckMultisigVerify2, .opCheckMultisigVerify3,
    .opCheckMultisigVerify4, .opCheckMultisigVerify5, .opCheckMultisigVerify6,
    .opCheckMultisigVerify7]

variable {bound : Nat} {stack publicKeys : List DataChunk}

theorem CountedItems.suffix {items : List DataChunk} (h : CountedItems stack bound items rest) :
    rest <:+ stack := by
  obtain ⟨item, rfl, -⟩ := h
  exact (List.suffix_append items rest).trans (List.suffix_cons item _)

/-- Below a count in range, as many elements are popped if they are there. -/
theorem popSection_counted {count : Int} (hcount : topInt32 p.primary = some count)
    (hnonneg : 0 ≤ count) (hbound : count ≤ bound) :
    (p.withPrimary p.primary.tail).popSection count.toNat =
        some (none, p.withPrimary p.primary.tail) ∨
      ∃ items rest, CountedItems p.primary bound items rest ∧ items.length = count.toNat ∧
        (p.withPrimary p.primary.tail).popSection count.toNat =
          some (some items, p.withPrimary rest) := by
  obtain ⟨item, stack, hprimary, hitem⟩ := topInt32_eq_some hcount
  rw [hprimary, List.tail_cons]
  rcases lt_or_ge (p.withPrimary stack).size count.toNat with hsize | hsize
  · exact .inl (popSection_of_lt hsize)
  · have hlen : (stack.take count.toNat).length = count.toNat := List.length_take_of_le hsize
    refine .inr ⟨_, _, ⟨item, ?_, ?_, ?_⟩, hlen, popSection_of_le hsize⟩
    · exact congrArg _ (List.take_append_drop _ _).symm
    · rw [hlen, Int.toNat_of_nonneg hnonneg, hitem]
    · omega

/-- The keys are taken as they lie below their count, or a failure is reported. A count in range is
counted either way. -/
theorem popPublicKeys_cases (p : Program) :
    (∃ failure ∈ operandFailures, popPublicKeys p =
      some (.error failure, (p.countOperations (countedKeys p.primary)).withPrimary p.primary.tail)) ∨
    ∃ keys rest, CountedItems p.primary maxScriptPublicKeys keys rest ∧
      p.operationCount + keys.length ≤ maxCountedOps ∧
      popPublicKeys p = some (.ok keys, (p.countOperations keys.length).withPrimary rest) := by
  simp only [popPublicKeys, popInt32_eq, Option.bind_eq_bind, Option.bind_some, countedKeys]
  cases hcount : topInt32 p.primary with
  | none => exact .inl ⟨_, by decide, rfl⟩
  | some count =>
    simp only [incrementOperationCountKeys]
    by_cases hrange : 0 ≤ count ∧ count ≤ maxScriptPublicKeys
    · have hin : ¬ (count < 0 ∨ count > maxScriptPublicKeys) := by omega
      simp only [if_pos hrange, if_neg hin, countOperations_withPrimary]
      split_ifs with hops
      · exact .inl ⟨_, by decide, rfl⟩
      · rcases popSection_counted (p := p.countOperations count.toNat) hcount hrange.1 hrange.2 with
          hpop | ⟨keys, rest, hkeys, hlen, hpop⟩
        · refine .inl ⟨.opCheckMultisigVerify3, by decide, ?_⟩
          rw [countOperations_primary] at hpop
          rw [hpop]
          rfl
        · refine .inr ⟨keys, rest, hkeys, ?_, ?_⟩
          · simpa [operationOverflow, hlen] using hops
          · rw [countOperations_primary] at hpop
            rw [hpop, hlen]
            rfl
    · have hout : count < 0 ∨ count > maxScriptPublicKeys := by omega
      simp only [if_neg hrange, if_pos hout]
      exact .inl ⟨_, by decide, rfl⟩

theorem popPublicKeys_of_counted (h : CountedItems p.primary maxScriptPublicKeys keys rest)
    (hops : p.operationCount + keys.length ≤ maxCountedOps) :
    popPublicKeys p = some (.ok keys, (p.countOperations keys.length).withPrimary rest) := by
  obtain ⟨item, hprimary, hitem, hmax⟩ := h
  have hin : ¬ ((keys.length : Int) < 0 ∨ maxScriptPublicKeys < keys.length) := by omega
  have hcounted : operationOverflow (p.operationCount + keys.length) = false :=
    decide_eq_false (not_lt.mpr hops)
  simp [popPublicKeys, popInt32_eq, hprimary, hitem, incrementOperationCountKeys, hin, hcounted,
    popSection_of_le]

theorem countedKeys_of_counted (h : CountedItems stack maxScriptPublicKeys keys rest) :
    countedKeys stack = keys.length := by
  obtain ⟨item, rfl, hitem, hmax⟩ := h
  simp [countedKeys, hitem, hmax]

theorem popEndorsements_cases (p : Program) (keyCount : Nat) :
    (∃ failure ∈ operandFailures,
      popEndorsements p keyCount = some (.error failure, p.withPrimary p.primary.tail)) ∨
    ∃ endorsements rest, CountedItems p.primary keyCount endorsements rest ∧
      popEndorsements p keyCount = some (.ok endorsements, p.withPrimary rest) := by
  simp only [popEndorsements, popInt32_eq, Option.bind_eq_bind, Option.bind_some]
  cases hcount : topInt32 p.primary with
  | none => exact .inl ⟨_, by decide, rfl⟩
  | some count =>
    dsimp only
    split_ifs with hrange
    · exact .inl ⟨_, by decide, rfl⟩
    · rcases popSection_counted hcount (by omega) (by omega : count ≤ keyCount) with
        hpop | ⟨endorsements, rest, hitems, -, hpop⟩
      · exact .inl ⟨.opCheckMultisigVerify6, by decide, by rw [hpop]; rfl⟩
      · exact .inr ⟨endorsements, rest, hitems, by rw [hpop]; rfl⟩

theorem popEndorsements_of_counted {keyCount : Nat}
    (h : CountedItems p.primary keyCount endorsements rest) :
    popEndorsements p keyCount = some (.ok endorsements, p.withPrimary rest) := by
  obtain ⟨item, hprimary, hitem, hmax⟩ := h
  simp [popEndorsements, popInt32_eq, hprimary, hitem, hmax, popSection_of_le]

/-- The operands of a multisig lie on a stack, from the top: a key count in range, the keys, a
signature count of at most as many, the endorsements and the dummy element. -/
def MultisigLayout (p : Program) (operands : MultisigOperands) (rest : List DataChunk) : Prop :=
  ∃ keyItem signatureItem,
    p.primary = keyItem :: (operands.publicKeys ++
      signatureItem :: (operands.endorsements ++ operands.dummy :: rest)) ∧
    topInt32 [keyItem] = some (operands.publicKeys.length : Int) ∧
    topInt32 [signatureItem] = some (operands.endorsements.length : Int) ∧
    operands.publicKeys.length ≤ maxScriptPublicKeys ∧
    p.operationCount + operands.publicKeys.length ≤ maxCountedOps ∧
    operands.endorsements.length ≤ operands.publicKeys.length

theorem multisigLayout_iff :
    MultisigLayout p operands rest ↔ ∃ stack,
      CountedItems p.primary maxScriptPublicKeys operands.publicKeys stack ∧
      p.operationCount + operands.publicKeys.length ≤ maxCountedOps ∧
      CountedItems stack operands.publicKeys.length operands.endorsements (operands.dummy :: rest) := by
  constructor
  · rintro ⟨keyItem, signatureItem, hprimary, hkeys, hsigs, hmax, hops, hle⟩
    exact ⟨_, ⟨keyItem, hprimary, hkeys, hmax⟩, hops, signatureItem, rfl, hsigs, hle⟩
  · rintro ⟨_, ⟨keyItem, hprimary, hkeys, hmax⟩, hops, signatureItem, rfl, hsigs, hle⟩
    exact ⟨keyItem, signatureItem, hprimary, hkeys, hsigs, hmax, hops, hle⟩

/-- The operands are taken as they lie on the stack, or a failure is reported. -/
theorem popMultisigOperands_cases (p : Program) :
    (∃ failure ∈ operandFailures, ∃ stack, stack <:+ p.primary ∧ popMultisigOperands p =
      some (.error failure, (p.countOperations (countedKeys p.primary)).withPrimary stack)) ∨
    ∃ operands rest, MultisigLayout p operands rest ∧ popMultisigOperands p =
      some (.ok operands, (p.countOperations operands.publicKeys.length).withPrimary rest) := by
  unfold popMultisigOperands
  rcases popPublicKeys_cases p with ⟨failure, hfail, hpop⟩ | ⟨keys, stack, hkeys, hops, hpop⟩
  · exact .inl ⟨failure, hfail, _, List.tail_suffix _, by simp [hpop]⟩
  · rcases popEndorsements_cases ((p.countOperations keys.length).withPrimary stack) keys.length with
      ⟨failure, hfail, hpop'⟩ | ⟨endorsements, stack', hends, hpop'⟩
    · refine .inl ⟨failure, hfail, _, (List.tail_suffix stack).trans hkeys.suffix, ?_⟩
      simp [hpop, hpop', countedKeys_of_counted hkeys]
    · have hsuffix := hends.suffix.trans hkeys.suffix
      cases stack' with
      | nil =>
        refine .inl ⟨.opCheckMultisigVerify7, by decide, _, hsuffix, ?_⟩
        simp [hpop, hpop', countedKeys_of_counted hkeys, isEmpty]
      | cons dummy rest =>
        refine .inr ⟨⟨keys, endorsements, dummy⟩, rest, ?_, ?_⟩
        · exact multisigLayout_iff.mpr ⟨stack, hkeys, hops, hends⟩
        · simp [hpop, hpop', isEmpty, Program.pop]

theorem popMultisigOperands_of_layout (h : MultisigLayout p operands rest) :
    popMultisigOperands p =
      some (.ok operands, (p.countOperations operands.publicKeys.length).withPrimary rest) := by
  obtain ⟨stack, hkeys, hops, hends⟩ := multisigLayout_iff.mp h
  have hpop := popEndorsements_of_counted
    (p := (p.countOperations operands.publicKeys.length).withPrimary stack) hends
  simp [popMultisigOperands, popPublicKeys_of_counted hkeys hops, hpop, isEmpty, Program.pop]

/-- The operands are taken exactly when they lie on the stack. -/
theorem popMultisigOperands_eq_ok_iff :
    popMultisigOperands p = some (.ok operands, q) ↔
      ∃ rest, MultisigLayout p operands rest ∧
        q = (p.countOperations operands.publicKeys.length).withPrimary rest := by
  constructor
  · intro h
    rcases popMultisigOperands_cases p with ⟨_, _, _, _, hpop⟩ | ⟨_, rest, hlayout, hpop⟩
    · cases h.symm.trans hpop
    · cases h.symm.trans hpop
      exact ⟨rest, hlayout, rfl⟩
  · rintro ⟨rest, hlayout, rfl⟩
    exact popMultisigOperands_of_layout hlayout

/-- Has the key signed, according to a check that parses the endorsement first? -/
def signedBy (check : DataChunk → Except ErrorCode (DataChunk → Bool))
    (endorsement publicKey : DataChunk) : Bool :=
  match check endorsement with
  | .error _ => false
  | .ok signed => signed publicKey

/-- The endorsement can be parsed. -/
def Parses (check : DataChunk → Except ErrorCode (DataChunk → Bool)) (endorsement : DataChunk) :
    Prop :=
  ∃ signed, check endorsement = .ok signed

theorem findPublicKey_eq (signed : DataChunk → Bool) (hkeys : keys ≠ []) :
    findPublicKey signed keys =
      some (match keys.dropWhile fun key => !signed key with
        | [] => none
        | key :: rest => some (key :: rest)) := by
  induction keys with
  | nil => exact absurd rfl hkeys
  | cons key keys ih =>
    cases keys with
    | nil => cases h : signed key <;> simp [findPublicKey, h]
    | cons next keys =>
      cases h : signed key with
      | true => simp [findPublicKey, h]
      | false => simp [findPublicKey, h, ih (List.cons_ne_nil next keys)]

/-- On endorsements that parse, the two loops are the scan of the matching library. -/
theorem verifyEndorsements_eq {check : DataChunk → Except ErrorCode (DataChunk → Bool)}
    (hparse : ∀ e ∈ endorsements, Parses check e) (hkeys : endorsements ≠ [] → publicKeys ≠ []) :
    verifyEndorsements check endorsements publicKeys =
      some (if scan (signedBy check) endorsements publicKeys then .success
        else .incorrectSignature) := by
  induction endorsements generalizing publicKeys with
  | nil => simp [verifyEndorsements, scan]
  | cons endorsement endorsements ih =>
    obtain ⟨signed, hsigned⟩ := hparse endorsement List.mem_cons_self
    have hadvance : advance (signedBy check) endorsement publicKeys =
        publicKeys.dropWhile fun key => !signed key := by
      simp [advance, signedBy, hsigned]
    rw [verifyEndorsements, hsigned, scan, hadvance]
    simp only [findPublicKey_eq signed (hkeys (List.cons_ne_nil _ _))]
    cases publicKeys.dropWhile fun key => !signed key with
    | nil => rfl
    | cons key rest =>
      exact ih (fun e he => hparse e (List.mem_cons_of_mem _ he))
        fun _ => List.cons_ne_nil key rest

/-- The loops never dereference the end of the keys. -/
theorem verifyEndorsements_isSome (check : DataChunk → Except ErrorCode (DataChunk → Bool))
    (hkeys : endorsements ≠ [] → publicKeys ≠ []) :
    (verifyEndorsements check endorsements publicKeys).isSome := by
  induction endorsements generalizing publicKeys with
  | nil => rfl
  | cons endorsement endorsements ih =>
    rw [verifyEndorsements]
    cases check endorsement with
    | error failure => rfl
    | ok signed =>
      simp only [findPublicKey_eq signed (hkeys (List.cons_ne_nil _ _))]
      cases publicKeys.dropWhile fun key => !signed key with
      | nil => rfl
      | cons key rest => exact ih fun _ => List.cons_ne_nil key rest

/-- There is a key for the first endorsement to be compared with. -/
theorem publicKeys_ne_nil (htake : popMultisigOperands p = some (.ok operands, q)) :
    operands.endorsements ≠ [] → operands.publicKeys ≠ [] := by
  obtain ⟨rest, ⟨_, _, _, _, _, _, _, hle⟩, -⟩ := popMultisigOperands_eq_ok_iff.mp htake
  intro hne hnil
  rw [hnil, List.length_nil, Nat.le_zero] at hle
  exact hne (List.eq_nil_of_length_eq_zero hle)

/-- The dummy element passes: it is empty, or bip147 is not active. -/
def DummyPasses (ctx : Context) (operands : MultisigOperands) : Prop :=
  operands.dummy = [] ∨ isEnabled ctx.forks RuleFork.bip147Rule = false

theorem dummy_not_rejected (h : DummyPasses ctx operands) :
    ¬ (!operands.dummy.isEmpty && isEnabled ctx.forks RuleFork.bip147Rule) := by
  rcases h with hempty | hforks
  · simp [hempty]
  · simp [hforks]

/-- The check that the operation makes of its endorsements, on the program the operands leave. -/
def multisigCheck (env : Env) (ctx : Context) (q : Program) (operands : MultisigOperands) :
    DataChunk → Except ErrorCode (DataChunk → Bool) :=
  endorsementCheck env ctx (scriptCode env ctx q operands.endorsements)

/-- With its operands taken and parsed, the operation reports the scan. -/
theorem opCheckMultisigVerify_eq (htake : popMultisigOperands p = some (.ok operands, q))
    (hdummy : DummyPasses ctx operands)
    (hparse : ∀ e ∈ operands.endorsements, Parses (multisigCheck env ctx q operands) e) :
    opCheckMultisigVerify env ctx p =
      some (if scan (signedBy (multisigCheck env ctx q operands)) operands.endorsements
          operands.publicKeys then .success else .incorrectSignature, q) := by
  have hloops := verifyEndorsements_eq hparse (publicKeys_ne_nil htake)
  unfold multisigCheck at hloops ⊢
  simp only [opCheckMultisigVerify, htake, Option.bind_eq_bind, Option.bind_some,
    if_neg (dummy_not_rejected hdummy), hloops]
  rfl

/-- The operation agrees with the threshold rule on a state exactly when the endorsements that can
be assigned to keys without going back can also be assigned a key each. -/
theorem multisig_threshold_iff (htake : popMultisigOperands p = some (.ok operands, q))
    (hdummy : DummyPasses ctx operands)
    (hparse : ∀ e ∈ operands.endorsements, Parses (multisigCheck env ctx q operands) e) :
    let valid := signedBy (multisigCheck env ctx q operands)
    let threshold := StrictlyMonotonic valid operands.endorsements operands.publicKeys
    ((opCheckMultisigVerify env ctx p = some (.success, q) ↔ threshold) ∧
        (opCheckMultisig env ctx p = some (.success, q.push true) ↔ threshold)) ↔
      (Monotonic valid operands.endorsements operands.publicKeys → threshold) := by
  intro valid threshold
  have hscan : scan valid operands.endorsements operands.publicKeys ↔
      Monotonic valid operands.endorsements operands.publicKeys := scan_eq_true_iff
  have hverify : opCheckMultisigVerify env ctx p = some (.success, q) ↔
      Monotonic valid operands.endorsements operands.publicKeys := by
    rw [opCheckMultisigVerify_eq htake hdummy hparse, ← hscan]
    cases scan valid operands.endorsements operands.publicKeys <;> simp
  have hpush : opCheckMultisig env ctx p = some (.success, q.push true) ↔
      Monotonic valid operands.endorsements operands.publicKeys := by
    rw [opCheckMultisig, opCheckMultisigVerify_eq htake hdummy hparse, ← hscan]
    cases scan valid operands.endorsements operands.publicKeys <;>
      simp [pushVerified, push, pushMove, Program.ext_iff]
  rw [hverify, hpush, and_self]
  exact ⟨fun h => h.mp, fun h => ⟨h, StrictlyMonotonic.monotonic⟩⟩

/-! ### One key for two signatures

A script of two keys, both signatures required, of which only the first key has signed. -/

section

/-- An oracle by which exactly the key `02` has signed. -/
def oneKeyEnv : Env where
  currency := .btc
  hashes := .ofSha256
  parseDer _ der := some der
  checkSignature _ _ publicKey _ _ _ _ _ := publicKey == [0x02]

/-- The output script `2 [03] [02] 2 checkmultisig`. -/
def twoOfTwoContext : Context where
  script := ⟨[0x52, 0x01, 0x03, 0x01, 0x02, 0x52, 0xae]⟩
  transaction :=
    { version := 1, locktime := 0, inputs := [{ previousOutput := ⟨⟨nullHash, 0⟩, {}⟩, sequence := 0 }],
      outputs := [{ value := 1 }] }
  inputIndex := 0
  forks := RuleFork.bip66Rule ||| RuleFork.bip147Rule
  value := 0
  version := .unversioned

/-- The operands when the input script has pushed one endorsement twice. -/
def repeatedOperands : MultisigOperands where
  publicKeys := [[0x02], [0x03]]
  endorsements := [[0x30, 0x01], [0x30, 0x01]]
  dummy := []

/-- The program when the operation is reached. -/
def repeatedProgram : Program := .ofStack [[2], [0x02], [0x03], [2], [0x30, 0x01], [0x30, 0x01], []]

theorem repeatedProgram_operands :
    popMultisigOperands repeatedProgram = some (.ok repeatedOperands, { operationCount := 2 }) := by
  decide

private theorem not_strictlyMonotonic_repeated :
    ¬ StrictlyMonotonic
        (signedBy (multisigCheck oneKeyEnv twoOfTwoContext { operationCount := 2 } repeatedOperands))
        repeatedOperands.endorsements repeatedOperands.publicKeys := by
  rintro ⟨f, hf, hserves⟩
  have hfirst : ∀ i, (f i : Nat) = 0 := by
    intro i
    have h := hserves i
    revert h
    generalize f i = j
    revert i j
    decide
  have hlt : f ⟨0, by decide⟩ < f ⟨1, by decide⟩ := hf (by decide)
  rw [Fin.lt_def, hfirst, hfirst] at hlt
  exact lt_irrefl 0 hlt

/-- Two signatures of the first key satisfy the two-of-two script, though no assignment gives each
signature a key of its own. -/
theorem multisig_accepts_repeated_key :
    opCheckMultisigVerify oneKeyEnv twoOfTwoContext repeatedProgram =
        some (.success, { operationCount := 2 }) ∧
      opCheckMultisig oneKeyEnv twoOfTwoContext repeatedProgram =
        some (.success, { operationCount := 2, primary := [[1]] }) ∧
      ¬ StrictlyMonotonic
        (signedBy (multisigCheck oneKeyEnv twoOfTwoContext { operationCount := 2 } repeatedOperands))
        repeatedOperands.endorsements repeatedOperands.publicKeys :=
  ⟨by decide, by decide, not_strictlyMonotonic_repeated⟩

/-- The rule at work on that state: it fails there, since its condition does. -/
theorem multisig_threshold_iff_repeated :
    ¬ ((opCheckMultisigVerify oneKeyEnv twoOfTwoContext repeatedProgram =
            some (.success, { operationCount := 2 }) ↔
          StrictlyMonotonic
            (signedBy (multisigCheck oneKeyEnv twoOfTwoContext { operationCount := 2 }
              repeatedOperands))
            repeatedOperands.endorsements repeatedOperands.publicKeys) ∧
        (opCheckMultisig oneKeyEnv twoOfTwoContext repeatedProgram =
            some (.success, Program.push { operationCount := 2 } true) ↔
          StrictlyMonotonic
            (signedBy (multisigCheck oneKeyEnv twoOfTwoContext { operationCount := 2 }
              repeatedOperands))
            repeatedOperands.endorsements repeatedOperands.publicKeys)) := by
  intro h
  have hparse : ∀ e ∈ repeatedOperands.endorsements,
      Parses (multisigCheck oneKeyEnv twoOfTwoContext { operationCount := 2 } repeatedOperands) e := by
    intro e he
    obtain rfl : e = [0x30, 0x01] := by simpa [repeatedOperands] using he
    exact ⟨_, rfl⟩
  have hmonotonic := (multisig_threshold_iff repeatedProgram_operands (.inl rfl) hparse).mp h
  have hscan : Monotonic
      (signedBy (multisigCheck oneKeyEnv twoOfTwoContext { operationCount := 2 } repeatedOperands))
      repeatedOperands.endorsements repeatedOperands.publicKeys := scan_eq_true_iff.mp (by decide)
  exact not_strictlyMonotonic_repeated (hmonotonic hscan)

end

end BitprimCore.Interpreter
