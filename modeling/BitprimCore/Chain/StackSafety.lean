import BitprimCore.Chain.Verification
import BitprimCore.Machine.Operands

/-!
# No partial stack access

The stack accessors of the program are partial: a pop of an empty stack, or an index beyond it, is a
violated precondition. No evaluation comes to one, and the embedded script is popped off a stack
that is not empty, since the script of the previous output has hashed its top.
-/

namespace BitprimCore

open Execution Interpreter Option Program

namespace Interpreter

variable (env : Env) (ctx : Context)

theorem step_isSome (item : Operation × Nat) (p : Program) :
    ∃ signal, step env ctx item p = some signal := by
  obtain ⟨op, index⟩ := item
  simp only [step]
  obtain ⟨⟨result, q⟩, hrun⟩ := isSome_iff_exists.mp
    (runOp_isSome env ctx op (some index) (p.incrementOperationCount op).2)
  simp only [hrun, bind_eq_bind, bind_some]
  split_ifs <;> exact ⟨_, rfl⟩

/-- An evaluation comes to an end without a violated precondition. -/
theorem run_isSome (p : Program) : ∃ outcome, run env ctx p = some outcome := by
  have hstep : ∀ item ∈ (ctx.operations env).zipIdx, ∀ s : Program, True →
      ∃ signal, step env ctx item s = some signal ∧ ∀ s', signal = .next s' → True := by
    intro item _ s _
    obtain ⟨signal, hsignal⟩ := step_isSome env ctx item s
    exact ⟨signal, hsignal, fun _ _ => trivial⟩
  obtain ⟨signal, hsignal⟩ := loop_isSome (s := p) (fun _ => True) hstep trivial
  unfold run
  split_ifs
  · exact ⟨_, rfl⟩
  · cases signal <;> simp [hsignal]

/-- A script that hashes the top first fails on an empty stack. -/
theorem run_hash160_of_empty {env : Env} {op : Operation} {ops : List Operation}
    (hops : ctx.operations env = op :: ops) (hop : op.code = .hash160) {result : ErrorCode}
    {q : Program} (hrun : run env ctx (.ofStack []) = some (result, q)) : result ≠ .success := by
  have hsucc : (ofStack []).succeeded := rfl
  have hstop : ∃ failure r, step env ctx (op, 0) (.ofStack []) = some (.stop failure r) ∧
      failure ≠ .success := by
    have hmissing : OperandsMissing ctx op.code ((ofStack []).incrementOperationCount op).2 := by
      rw [hop]
      -- the operation needs one operand
      change ((ofStack []).incrementOperationCount op).2.size < 1
      simp [size, ofStack]
    have hfails : Fails (runOp env ctx op (some 0) ((ofStack []).incrementOperationCount op).2) :=
      runOp_fails (by simp [hop]) (by simp [hop]) (by simpa using hsucc) hmissing
    obtain ⟨failure, r, hfails, hfail⟩ := hfails
    have hif : ((ofStack []).incrementOperationCount op).2.if_ op := by
      simp [if_, hsucc]
    simp only [step, hif, hfails]
    split_ifs
    · exact ⟨_, _, rfl, by simp⟩
    · exact ⟨_, _, rfl, by simp⟩
    · exact ⟨_, _, rfl, by simp⟩
    · exact ⟨failure, r, by simp [hfail], hfail⟩
  obtain ⟨failure, r, hstep, hfail⟩ := hstop
  unfold run at hrun
  split_ifs at hrun
  · cases hrun
    simp
  · simp only [hops, List.zipIdx_cons, loop, hstep] at hrun
    cases hrun
    exact hfail

end Interpreter

theorem Witness.verify_isSome (env : Env) (witness : Witness) (tx : Transaction)
    (inputIndex forks : UInt32) (programScript : Script) (value : UInt64) :
    ∃ result, witness.verify env tx inputIndex forks programScript value = some result := by
  unfold Witness.verify
  split
  · split
    · exact ⟨_, rfl⟩
    · next script stack _ =>
      obtain ⟨⟨result, p⟩, hrun⟩ := run_isSome env
        { script, transaction := tx, inputIndex, forks, value, version := .zero }
        (.ofStack stack.reverse)
      obtain ⟨clean, hclean⟩ := stackResult_isSome (p := p) true
      simp only [hrun, hclean, bind_eq_bind, bind_some]
      split_ifs <;> exact ⟨_, rfl⟩
  · exact ⟨_, rfl⟩
  · exact ⟨_, rfl⟩

namespace Script

variable {env : Env} {tx : Transaction} {inputIndex forks : UInt32}

theorem verifyEmbedded_isSome (env : Env) (tx : Transaction) (inputIndex forks : UInt32)
    (inputScript : Script) (inputWitness : Witness) {input : Program}
    (hinput : input.primary ≠ []) (value : UInt64) :
    ∃ result, verifyEmbedded env tx inputIndex forks inputScript inputWitness input value =
      some result := by
  obtain ⟨encoded, rest, hprimary⟩ := List.exists_cons_of_ne_nil hinput
  obtain ⟨⟨result, embedded⟩, hrun⟩ := run_isSome env (.unversioned ⟨encoded⟩ tx inputIndex forks)
    (.ofStack rest)
  obtain ⟨embeddedTrue, htrue⟩ := stackResult_isSome (p := embedded) false
  obtain ⟨verified, hwit⟩ := inputWitness.verify_isSome env tx inputIndex forks ⟨encoded⟩ value
  simp only [verifyEmbedded, verifyPopped, pop_of_primary hprimary, withPrimary_primary, hrun,
    htrue, hwit, bind_eq_bind, bind_some]
  split_ifs <;> exact ⟨_, rfl⟩

/-- An output that pays to a script hash is only satisfied by a stack with an element to hash. -/
theorem primary_ne_nil_of_payScriptHash {prevoutScript : Script} {stack : List DataChunk}
    {prevout : Program} (hpat : prevoutScript.isPayToScriptHash env.currency forks)
    (hrun : run env (.unversioned prevoutScript tx inputIndex forks) (.ofStack stack) =
      some (.success, prevout)) : stack ≠ [] := by
  rintro rfl
  obtain ⟨-, hpat⟩ : isEnabled forks RuleFork.bip16Rule = true ∧
      isPayScriptHashPattern (prevoutScript.operations env.currency) = true := by
    simpa [isPayToScriptHash] using hpat
  unfold isPayScriptHashPattern at hpat
  split at hpat
  · next op0 op1 op2 hops =>
    have hop0 : op0.code = .hash160 := by
      simp only [Bool.and_eq_true, beq_iff_eq] at hpat
      exact hpat.1.1
    exact run_hash160_of_empty (.unversioned prevoutScript tx inputIndex forks) hops hop0 hrun rfl
  · cases hpat

theorem verify_isSome (env : Env) (tx : Transaction) (inputIndex forks : UInt32)
    (inputScript : Script) (inputWitness : Witness) (prevoutScript : Script) (value : UInt64) :
    (verify env tx inputIndex forks inputScript inputWitness prevoutScript value).isSome := by
  obtain ⟨⟨inputResult, input⟩, hinput⟩ :=
    run_isSome env (.unversioned inputScript tx inputIndex forks) (.ofStack [])
  obtain ⟨⟨prevoutResult, prevout⟩, hprevout⟩ :=
    run_isSome env (.unversioned prevoutScript tx inputIndex forks) (.ofStack input.primary)
  obtain ⟨prevoutTrue, htrue⟩ := stackResult_isSome (p := prevout) false
  obtain ⟨verified, hwit⟩ := inputWitness.verify_isSome env tx inputIndex forks prevoutScript value
  simp only [verify, hinput, hprevout, htrue, hwit, bind_eq_bind, bind_some]
  split_ifs with hres _ _ _ _ hpat
  any_goals rfl
  -- what is left is the unchecked pop of the embedded script
  have hsuccess : prevoutResult = .success := by simp_all
  subst hsuccess
  obtain ⟨result, hembedded⟩ := verifyEmbedded_isSome env tx inputIndex forks inputScript inputWitness
    (primary_ne_nil_of_payScriptHash hpat hprevout) value
  simp [hembedded]

/-- Verification of an input runs to its end for every transaction, fork set, input and previous
output: no stack is accessed beyond its contents, neither in the runs nor between them. -/
theorem verify_no_partial_access (env : Env) (tx : Transaction) (inputIndex forks : UInt32) :
    (∀ (inputScript : Script) (inputWitness : Witness) (prevoutScript : Script) (value : UInt64),
      (verify env tx inputIndex forks inputScript inputWitness prevoutScript value).isSome) ∧
      (verifyInput env tx forks inputIndex).isSome := by
  refine ⟨verify_isSome env tx inputIndex forks, ?_⟩
  unfold verifyInput
  split
  · rfl
  · exact verify_isSome env tx inputIndex forks _ _ _ _

end Script

end BitprimCore
