import BitprimCore.Machine.Effect

/-!
# Operands

No operation breaks a precondition, and every operation but the two that push the result of a
signature check fails when its operands are missing or malformed.
-/

namespace BitprimCore.Interpreter

open Option

open Program

/-- The outcome is an error. -/
def Fails (outcome : Outcome) : Prop :=
  ∃ failure q, outcome = some (failure, q) ∧ failure ≠ .success

section

variable {env : Env} {ctx : Context} {failure verified : ErrorCode} {p q : Program} {op : Operation}

/-- The results of a signature check that was made. -/
def signatureResults : List ErrorCode :=
  [.success, .incorrectSignature, .invalidSignatureEncoding, .invalidSignatureLaxEncoding]

variable {code : Script} {operands : MultisigOperands}

theorem endorsementCheck_error {endorsement : DataChunk}
    (h : endorsementCheck env ctx code endorsement = .error failure) :
    failure ∈ signatureResults := by
  unfold endorsementCheck at h
  split at h
  · cases h
    decide
  · dsimp only at h
    split at h
    · cases h
      split_ifs <;> decide
    · cases h

/-- The loops end in the result of a signature check. -/
theorem verifyEndorsements_mem {endorsements publicKeys : List DataChunk}
    (h : verifyEndorsements (endorsementCheck env ctx code) endorsements publicKeys =
      some verified) : verified ∈ signatureResults := by
  induction endorsements generalizing publicKeys with
  | nil =>
    cases h
    decide
  | cons endorsement endorsements ih =>
    rw [verifyEndorsements] at h
    cases hcheck : endorsementCheck env ctx code endorsement with
    | error failure =>
      obtain rfl : failure = verified := by simpa [hcheck] using h
      exact endorsementCheck_error hcheck
    | ok signed =>
      simp only [hcheck, bind_eq_bind, bind_eq_some_iff] at h
      obtain ⟨found, -, h⟩ := h
      cases found with
      | none =>
        cases h
        decide
      | some keys => exact ih h

/-- With two elements on the stack the operation makes its check. -/
theorem opCheckSigVerify_of_le (env : Env) (ctx : Context) (h : 2 ≤ p.size) :
    ∃ verified q, opCheckSigVerify env ctx p = some (verified, q) ∧ verified ∈ signatureResults := by
  obtain ⟨_, _, _, primary, _, _, _⟩ := p
  rcases primary with _ | ⟨key, _ | ⟨endorsement, rest⟩⟩
  · exact absurd h (by simp [size])
  · exact absurd h (by simp [size])
  · simp only [opCheckSigVerify, not_lt.mpr h, if_false, Program.pop, bind_eq_bind,
      bind_some, withPrimary_primary]
    split
    · next failure hcheck => exact ⟨failure, _, rfl, endorsementCheck_error hcheck⟩
    · refine ⟨_, _, rfl, ?_⟩
      split_ifs <;> decide

/-- With its operands taken and the dummy passed the operation makes its checks. -/
theorem opCheckMultisigVerify_of_take (env : Env)
    (htake : popMultisigOperands p = some (.ok operands, q)) (hdummy : DummyPasses ctx operands) :
    ∃ verified, opCheckMultisigVerify env ctx p = some (verified, q) ∧
      verified ∈ signatureResults := by
  have hsome := verifyEndorsements_isSome
    (endorsementCheck env ctx (scriptCode env ctx q operands.endorsements))
    (publicKeys_ne_nil htake)
  obtain ⟨verified, hverified⟩ := isSome_iff_exists.mp hsome
  refine ⟨verified, ?_, verifyEndorsements_mem hverified⟩
  simp only [opCheckMultisigVerify, htake, bind_eq_bind, bind_some,
    if_neg (dummy_not_rejected hdummy), hverified]
  rfl

theorem opCheckMultisigVerify_of_dummy (env : Env)
    (htake : popMultisigOperands p = some (.ok operands, q)) (hdummy : ¬ DummyPasses ctx operands) :
    opCheckMultisigVerify env ctx p = some (.opCheckMultisigVerify8, q) := by
  obtain ⟨hne, hforks⟩ : operands.dummy ≠ [] ∧ isEnabled ctx.forks RuleFork.bip147Rule = true := by
    simpa [DummyPasses] using hdummy
  simp [opCheckMultisigVerify, htake, hne, hforks]

theorem opCheckMultisigVerify_of_failure
    (hfail : popMultisigOperands p = some (.error failure, q)) :
    opCheckMultisigVerify env ctx p = some (failure, q) := by
  simp [opCheckMultisigVerify, hfail]

theorem opCheckMultisigVerify_isSome (p : Program) : (opCheckMultisigVerify env ctx p).isSome := by
  rcases popMultisigOperands_cases p with ⟨_, _, _, _, hfail⟩ | ⟨operands, rest, -, htake⟩
  · simp [opCheckMultisigVerify_of_failure hfail]
  · by_cases hdummy : DummyPasses ctx operands
    · obtain ⟨verified, hverify, -⟩ := opCheckMultisigVerify_of_take env htake hdummy
      simp [hverify]
    · simp [opCheckMultisigVerify_of_dummy env htake hdummy]

/-- No operation breaks a precondition. -/
theorem runOp_isSome (env : Env) (ctx : Context) (op : Operation) (position : Option Nat)
    (p : Program) : (runOp env ctx op position p).isSome := by
  cases hspecial : isSpecial op.code with
  | false => exact (handles_runOp hspecial).isSome p
  | true =>
    unfold runOp
    revert hspecial
    cases op.code with
    | pushSize | pushOneSize | pushTwoSize | pushFourSize =>
      simp only [opPushSize, opPushData]
      split_ifs <;> exact fun _ => rfl
    | codeseparator => exact fun _ => rfl
    | checksig => simpa [isSpecial, opCheckSig] using rearranges_opCheckSigVerify.handles.isSome p
    | checkmultisig => simpa [isSpecial, opCheckMultisig] using opCheckMultisigVerify_isSome p
    | checkmultisigverify => exact fun _ => opCheckMultisigVerify_isSome p
    | _ => exact Bool.noConfusion

/-! ### Pushed results

`op_check_sig` and `op_check_multisig` push the result of their verify variants. Only lax encoding
fails them, so what the verify variant reports of its operands is pushed as well. -/

/-- The operands are missing or malformed. -/
def OperandsMissing (ctx : Context) (code : Opcode) (p : Program) : Prop :=
  match code with
  | .checkmultisig | .checkmultisigverify => ¬ ∃ operands rest, MultisigLayout p operands rest
  | code => p.size < needed ctx code p

/-- Every other operation fails on missing operands. -/
theorem runOp_fails {position : Option Nat} (hsig : op.code ≠ .checksig)
    (hmultisig : op.code ≠ .checkmultisig) (hsucc : p.succeeded)
    (hmissing : OperandsMissing ctx op.code p) : Fails (runOp env ctx op position p) := by
  by_cases hverify : op.code = .checkmultisigverify
  · simp only [OperandsMissing, hverify] at hmissing
    rcases popMultisigOperands_cases p with
      ⟨failure, hfailure, stack, -, hfail⟩ | ⟨operands, rest, hlayout, -⟩
    · have hrun : runOp env ctx op position p = opCheckMultisigVerify env ctx p := by
        simp [runOp, hverify]
      refine ⟨failure, _, hrun.trans (opCheckMultisigVerify_of_failure hfail), ?_⟩
      rintro rfl
      exact absurd hfailure (by decide)
    · exact absurd ⟨operands, rest, hlayout⟩ hmissing
  · unfold OperandsMissing at hmissing
    split at hmissing
    · next hcode => exact absurd hcode hmultisig
    · next hcode => exact absurd hcode hverify
    · cases hspecial : isSpecial op.code with
      | false =>
        obtain ⟨result, q, hrun, -, hfails⟩ := @handles_runOp env ctx op position hspecial p
        exact ⟨result, q, hrun, hfails hsucc hmissing⟩
      | true =>
        have hnone : needed ctx op.code p = 0 := by
          revert hsig hspecial
          cases op.code with
          | checksig => exact fun hsig => absurd rfl hsig
          | pushSize | pushOneSize | pushTwoSize | pushFourSize | codeseparator | checkmultisig
          | checkmultisigverify => exact fun _ _ => rfl
          | _ => exact fun _ => Bool.noConfusion
        rw [hnone] at hmissing
        exact absurd hmissing (Nat.not_lt_zero _)

/-- The variant that an operation pushes the result of. -/
def verifyVariant (env : Env) (ctx : Context) : Opcode → Option Handler
  | .checksig => some (opCheckSigVerify env ctx)
  | .checkmultisig => some (opCheckMultisigVerify env ctx)
  | _ => none

/-- The outcome is a failed or an empty signature. -/
def Rejected (outcome : Outcome) : Prop :=
  ∃ result q, outcome = some (result, q) ∧
    (result = .incorrectSignature ∨ result = .invalidSignatureEncoding)

/-- Missing operands are an error, and only a rejected signature is pushed as false. -/
structure EnforcesOperands (env : Env) (ctx : Context) (op : Operation) (position : Option Nat)
    (p : Program) : Prop where
  missing : OperandsMissing ctx op.code p → Fails (runOp env ctx op position p)
  pushed : ∀ verify q, verifyVariant env ctx op.code = some verify →
    runOp env ctx op position p = some (.success, q) → q.primary.head? = some [] →
      Rejected (verify p)

/-- Operands that the operation does not take, and of which it pushes a result. -/
def Swallowed (ctx : Context) (code : Opcode) (p : Program) : Prop :=
  match code with
  | .checksig => p.size < 2
  | .checkmultisig => ¬ ∃ operands rest, MultisigLayout p operands rest ∧ DummyPasses ctx operands
  | _ => False

/-- A result that is not of a signature check is pushed as false all the same. -/
theorem pushVerified_of_not_mem (h : verified ∉ signatureResults) :
    pushVerified failure (verified, q) = (.success, q.push false) := by
  have hlax : verified ≠ .invalidSignatureLaxEncoding := by
    rintro rfl
    exact h (by decide)
  have hsuccess : verified ≠ .success := by
    rintro rfl
    exact h (by decide)
  simp [pushVerified, hlax, beq_false_of_ne hsuccess]

/-- Of a signature check, false is pushed for a rejected signature only. -/
theorem rejected_of_pushed {r : Program} (hfail : failure ≠ .success)
    (hverified : verified ∈ signatureResults)
    (hpush : pushVerified failure (verified, q) = (.success, r))
    (hfalse : r.primary.head? = some []) :
    verified = .incorrectSignature ∨ verified = .invalidSignatureEncoding := by
  simp only [signatureResults, List.mem_cons, List.not_mem_nil, or_false] at hverified
  rcases hverified with rfl | rfl | rfl | rfl
  · obtain rfl : q.push true = r := by simpa [pushVerified] using hpush
    simp [push, pushMove] at hfalse
  · exact .inl rfl
  · exact .inr rfl
  · exact absurd (by simpa [pushVerified] using congrArg Prod.fst hpush) hfail

/-- Swallowed operands of a multisig are reported, but by no result of a signature check. -/
theorem opCheckMultisigVerify_of_swallowed (env : Env) (h : Swallowed ctx .checkmultisig p) :
    ∃ verified q, opCheckMultisigVerify env ctx p = some (verified, q) ∧
      verified ∉ signatureResults := by
  rcases popMultisigOperands_cases p with
    ⟨failure, hfailure, stack, -, hfail⟩ | ⟨operands, rest, hlayout, htake⟩
  · refine ⟨failure, _, opCheckMultisigVerify_of_failure hfail, fun hmem => ?_⟩
    have hdisjoint : ∀ code ∈ operandFailures, code ∉ signatureResults := by decide
    exact hdisjoint failure hfailure hmem
  · have hdummy : ¬ DummyPasses ctx operands := fun hdummy => h ⟨operands, rest, hlayout, hdummy⟩
    exact ⟨_, _, opCheckMultisigVerify_of_dummy env htake hdummy, by decide⟩

/-- What the verify variant reports of swallowed operands. -/
theorem verifyVariant_of_swallowed (env : Env) (position : Option Nat)
    (h : Swallowed ctx op.code p) :
    ∃ verify verified q, verifyVariant env ctx op.code = some verify ∧
      verify p = some (verified, q) ∧ verified ∉ signatureResults ∧
      runOp env ctx op position p = some (.success, q.push false) := by
  unfold Swallowed at h
  split at h
  · next hcode =>
    have hverify : opCheckSigVerify env ctx p = some (.opCheckSigVerify1, p) := by
      simp [opCheckSigVerify, h]
    have hmem : ErrorCode.opCheckSigVerify1 ∉ signatureResults := by decide
    refine ⟨_, _, p, by simp [hcode, verifyVariant], hverify, hmem, ?_⟩
    simp [runOp, hcode, opCheckSig, hverify, pushVerified_of_not_mem hmem]
  · next hcode =>
    obtain ⟨verified, q, hverify, hmem⟩ := opCheckMultisigVerify_of_swallowed env h
    refine ⟨_, _, q, by simp [hcode, verifyVariant], hverify, hmem, ?_⟩
    simp [runOp, hcode, opCheckMultisig, hverify, pushVerified_of_not_mem hmem]
  · exact h.elim

/-- With its operands taken, an operation that pushes a result makes its signature check. -/
theorem verifyVariant_of_not_swallowed {verify : Handler} (position : Option Nat)
    (hvariant : verifyVariant env ctx op.code = some verify) (h : ¬ Swallowed ctx op.code p) :
    ∃ failure verified q, failure ≠ .success ∧ verify p = some (verified, q) ∧
      verified ∈ signatureResults ∧
      runOp env ctx op position p = some (pushVerified failure (verified, q)) := by
  unfold verifyVariant at hvariant
  split at hvariant
  · next hcode =>
    cases hvariant
    simp only [Swallowed, hcode, not_lt] at h
    obtain ⟨verified, q, hverify, hmem⟩ := opCheckSigVerify_of_le env ctx h
    exact ⟨.opCheckSig, verified, q, by simp, hverify, hmem,
      by simp [runOp, hcode, opCheckSig, hverify]⟩
  · next hcode =>
    cases hvariant
    simp only [Swallowed, hcode, not_not] at h
    obtain ⟨operands, rest, hlayout, hdummy⟩ := h
    have htake := popMultisigOperands_of_layout hlayout
    obtain ⟨verified, hverify, hmem⟩ := opCheckMultisigVerify_of_take env htake hdummy
    exact ⟨.opCheckMultisig, verified, _, by simp, hverify, hmem,
      by simp [runOp, hcode, opCheckMultisig, hverify]⟩
  · cases hvariant

/-- Missing operands without a layout, or too few for a signature check, are swallowed. -/
theorem swallowed_of_missing {code : Opcode} (hcode : code = .checksig ∨ code = .checkmultisig)
    (h : OperandsMissing ctx code p) : Swallowed ctx code p := by
  rcases hcode with rfl | rfl
  · exact h
  · rintro ⟨operands, rest, hlayout, -⟩
    exact h ⟨operands, rest, hlayout⟩

/-- In a branch that is taken, an operation fails on missing or malformed operands and pushes false
for a rejected signature only, exactly when it is not a signature check that swallows what is wrong
with its operands. -/
theorem operands_enforced_iff {op : Operation} {position : Option Nat} {p : Program}
    (hsucceeded : p.succeeded = true) :
    EnforcesOperands env ctx op position p ↔ ¬ Swallowed ctx op.code p := by
  constructor
  · intro henforces hswallowed
    obtain ⟨verify, verified, q, hvariant, hverify, hmem, hrun⟩ :=
      verifyVariant_of_swallowed env position hswallowed
    obtain ⟨result, r, hresult, hrejected⟩ := henforces.pushed verify _ hvariant hrun rfl
    rw [hverify] at hresult
    cases hresult
    rcases hrejected with rfl | rfl <;> exact hmem (by decide)
  · intro hnot
    constructor
    · intro hmissing
      have hsig : op.code ≠ .checksig := fun h => hnot (swallowed_of_missing (.inl h) hmissing)
      have hmultisig : op.code ≠ .checkmultisig := fun h =>
        hnot (swallowed_of_missing (.inr h) hmissing)
      exact runOp_fails hsig hmultisig hsucceeded hmissing
    · intro verify r hvariant hrun hfalse
      obtain ⟨failure, verified, q, hfailure, hverify, hmem, hpush⟩ :=
        verifyVariant_of_not_swallowed position hvariant hnot
      rw [hrun] at hpush
      have hrejected := rejected_of_pushed hfailure hmem (Option.some.inj hpush).symm hfalse
      exact ⟨verified, q, hverify, hrejected⟩

/-- With nothing on the stack the check of a signature succeeds and pushes false. -/
theorem checksig_swallows_underflow :
    Program.succeeded {} = true ∧ OperandsMissing twoOfTwoContext .checksig {} ∧
      runOp oneKeyEnv twoOfTwoContext { code := .checksig, data := [], valid := true } none {} =
        some (.success, .ofStack [[]]) ∧
      ¬ EnforcesOperands oneKeyEnv twoOfTwoContext
        { code := .checksig, data := [], valid := true } none {} := by
  have hmissing : OperandsMissing twoOfTwoContext .checksig {} := by
    show 0 < 2
    decide
  have hrun : runOp oneKeyEnv twoOfTwoContext { code := .checksig, data := [], valid := true } none {} =
      some (.success, .ofStack [[]]) := by decide
  refine ⟨by decide, hmissing, hrun, fun henforces => ?_⟩
  obtain ⟨failure, q, hfails, hfailure⟩ := henforces.missing hmissing
  rw [hrun] at hfails
  cases hfails
  exact hfailure rfl

/-- The verify variant enforces its operands on the same stack. -/
theorem operands_enforced_iff_checksigverify :
    Program.succeeded {} = true ∧
      EnforcesOperands oneKeyEnv twoOfTwoContext
        { code := .checksigverify, data := [], valid := true } none {} :=
  ⟨by decide, (operands_enforced_iff (by decide)).mpr fun h => h⟩

end

end BitprimCore.Interpreter
