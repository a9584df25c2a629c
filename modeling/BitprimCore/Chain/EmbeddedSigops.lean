import BitprimCore.Chain.TransactionRules
import BitprimCore.Chain.Verification
import BitprimCore.Machine.Effect

/-!
# Signature operations of an embedded script

The signature operations of an output that pays to a script hash are counted on the data of the last
push of the input script, while the script that runs is popped off the stack. The two differ when
the last push is a number, but neither has a signature operation then.
-/

namespace BitprimCore.Script

open Execution Interpreter List

section

variable (env : Env) (tx : Transaction) (inputIndex forks : UInt32)

/-- The verification comes to run an embedded script, popped off a stack. -/
structure ReachesEmbedded (inputScript prevoutScript : Script) (embedded : Script)
    (stack : List DataChunk) : Prop where
  runs : ∃ input prevout,
    run env (.unversioned inputScript tx inputIndex forks) (.ofStack []) = some (.success, input) ∧
      run env (.unversioned prevoutScript tx inputIndex forks) (.ofStack input.primary) =
        some (.success, prevout) ∧
      prevout.stackResult false = some true ∧ input.primary = embedded.bytes :: stack
  witness : prevoutScript.isPayToWitness env.currency forks = false
  scriptHash : prevoutScript.isPayToScriptHash env.currency forks = true
  relaxed : isRelaxedPush (inputScript.operations env.currency) = true

end

variable {env : Env} {tx : Transaction} {inputIndex forks : UInt32}
  {inputScript prevoutScript embedded : Script} {stack : List DataChunk}

/-- The verification is then that of the embedded script. -/
theorem verify_of_reachesEmbedded
    (h : ReachesEmbedded env tx inputIndex forks inputScript prevoutScript embedded stack)
    (inputWitness : Witness) (value : UInt64) :
    verify env tx inputIndex forks inputScript inputWitness prevoutScript value =
      verifyPopped env tx inputIndex forks inputScript inputWitness value embedded stack := by
  obtain ⟨input, prevout, hinput, hprevout, htrue, hprimary⟩ := h.runs
  simp only [verify, hinput, hprevout, htrue, h.witness, h.scriptHash, verifyEmbedded, h.relaxed,
    Program.pop_of_primary hprimary, verifyPopped, Program.withPrimary_primary,
    Option.bind_eq_bind, Option.bind_some]
  rfl

/-- The element that an operation of the range of pushes leaves. -/
def pushedElement (op : Operation) : DataChunk :=
  match op.code with
  | .pushNegative1 => [Number.negative1]
  | .pushPositive offset => [UInt8.ofNat (offset + 1)]
  | _ => op.data

/-- An operation of that range that succeeds pushes its element; the reserved one among them fails. -/
theorem runOp_relaxedPush {ctx : Context} {op : Operation} {position : Option Nat} {p q : Program}
    (hop : op.code.isRelaxedPush) (hrun : runOp env ctx op position p = some (.success, q)) :
    q = p.pushMove (pushedElement op) := by
  unfold runOp at hrun
  unfold pushedElement
  cases hcode : op.code with
  | pushSize | pushOneSize | pushTwoSize | pushFourSize =>
    simp only [hcode, opPushSize, opPushData] at hrun
    split_ifs at hrun
    · cases hrun
    · cases hrun
      rfl
  | pushNegative1 | pushPositive =>
    simp only [hcode] at hrun
    cases hrun
    rfl
  | reserved80 =>
    simp only [hcode] at hrun
    cases hrun
  | reserved offset =>
    have hnot : ∀ offset : Fin 70, (Opcode.reserved offset).isRelaxedPush = false := by decide
    rw [hcode, hnot] at hop
    cases hop
  | _ =>
    rw [hcode] at hop
    cases hop

/-- The last push of an input script that succeeds is on top of the stack. -/
theorem top_of_run {ctx : Context} {p q : Program}
    (hrelaxed : isRelaxedPush (ctx.operations env)) (hp : p.primary = [])
    (hrun : run env ctx p = some (.success, q)) {top : DataChunk} {rest : List DataChunk}
    (hq : q.primary = top :: rest) :
    ∃ op, (ctx.operations env).getLast? = some op ∧ top = pushedElement op := by
  obtain ⟨-, hloop, hclosed⟩ := run_eq_success_iff.mp hrun
  rcases eq_nil_or_concat (ctx.operations env) with hnil | ⟨ops, op, hops⟩
  · rw [hnil] at hloop
    cases hloop
    rw [hp] at hq
    cases hq
  · refine ⟨op, by simp [hops], ?_⟩
    have hop : op.code.isRelaxedPush := by
      rw [isRelaxedPush, all_eq_true] at hrelaxed
      exact hrelaxed op (by simp [hops])
    rw [hops, concat_eq_append, zipIdx_append, zipIdx_singleton, loop_append_eq_next_iff] at hloop
    obtain ⟨r, -, hstep⟩ := hloop
    rw [loop_singleton] at hstep
    obtain ⟨-, -, ⟨-, hlastRun, -⟩ | ⟨hskipped, rfl⟩⟩ := step_next_cases hstep
    · rw [runOp_relaxedPush hop hlastRun] at hq
      cases hq
      rfl
    · -- no condition is open at the end, so the last operation is not skipped
      refine absurd ?_ hskipped
      have hnone : (r.incrementOperationCount op).2.succeeded := by
        have hempty : (r.incrementOperationCount op).2.condition = [] := isEmpty_iff.mp hclosed
        rw [Program.succeeded, Program.negativeCount_eq, hempty]
        rfl
      rw [Program.incrementOperationCount_succeeded] at hnone
      simp [Executes, Program.if_, hnone]

/-- A script of the byte of a number has no signature operation: it is a disabled operation, or a
push that is cut off. -/
theorem sigops_number (currency : Currency) (op : Operation) (hop : op.WellFormed) :
    sigops currency ⟨pushedElement op⟩ true = sigops currency ⟨op.data⟩ true := by
  obtain ⟨-, hdata⟩ := hop
  unfold pushedElement
  cases hcode : op.code with
  | pushNegative1 =>
    rw [hcode] at hdata
    rw [hdata]
    cases currency <;> decide
  | pushPositive offset =>
    rw [hcode] at hdata
    have htable : ∀ (offset : Fin 16), sigops currency ⟨[UInt8.ofNat (offset + 1)]⟩ true =
        sigops currency ⟨[]⟩ true := by
      cases currency <;> decide
    rw [hdata]
    exact htable offset
  | _ => rfl

/-- What is counted for the embedded script, on top of the operations of the input script itself, is
what the script has that the verification pops and runs. -/
theorem embedded_sigops_counted (env : Env) (tx : Transaction) (inputIndex forks : UInt32)
    (input : Input) (embedded : Script) (stack : List DataChunk)
    (h : ReachesEmbedded env tx inputIndex forks input.script
      input.previousOutput.validation.cache.script embedded stack) :
    verify env tx inputIndex forks input.script input.witness
        input.previousOutput.validation.cache.script input.previousOutput.validation.cache.value =
      verifyPopped env tx inputIndex forks input.script input.witness
        input.previousOutput.validation.cache.value embedded stack ∧
    input.signatureOperations env.currency true false =
      input.script.sigops env.currency false + embedded.sigops env.currency true := by
  refine ⟨verify_of_reachesEmbedded h _ _, ?_⟩
  obtain ⟨p, prevout, hinput, -, -, hprimary⟩ := h.runs
  have hrelaxed : isRelaxedPush
      ((Context.unversioned input.script tx inputIndex forks).operations env) = true := h.relaxed
  obtain ⟨op, hlast, htop⟩ := top_of_run hrelaxed rfl hinput hprimary
  have hvalid : input.script.isValidOperations env.currency := by
    have hprogram := (run_eq_success_iff.mp hinput).1
    simp only [isValid, Bool.and_eq_true] at hprogram
    exact hprogram.1
  have hwellFormed := wellFormed_operations hvalid op (mem_of_getLast? hlast)
  have hpattern : isPayScriptHashPattern
      (input.previousOutput.validation.cache.script.operations env.currency) = true := by
    have hhash := h.scriptHash
    simp only [isPayToScriptHash, Bool.and_eq_true] at hhash
    exact hhash.2
  have hextract : input.extractEmbeddedScript env.currency = some ⟨op.data⟩ := by
    have hbip16 : isEnabled RuleFork.bip16Rule RuleFork.bip16Rule := by decide
    have hops : (input.script.operations env.currency).getLast? = some op := hlast
    simp [Input.extractEmbeddedScript, isPayToScriptHash, hbip16, hpattern, h.relaxed, hops]
  have hsame : embedded.sigops env.currency true = sigops env.currency ⟨op.data⟩ true := by
    rw [← sigops_number env.currency op hwellFormed, ← htop]
  rw [hsame]
  simp [Input.signatureOperations, hextract]

/-- The output script that pays to the hash of the script `checksig`. -/
def payChecksigHash : Script :=
  ⟨0xa9 :: 0x14 ::
    ((Hashes.ofSha256.ripemd160Hash (Hashes.ofSha256.sha256Hash [0xac]).val).val ++ [0x87])⟩

/-- An input that pushes the script `checksig`. -/
def checksigInput : Input where
  previousOutput := ⟨⟨nullHash, 0⟩, { cache := { value := 1, script := payChecksigHash } }⟩
  script := ⟨[0x01, 0xac]⟩
  sequence := 0

/-- The one signature operation of the script is counted. -/
theorem embedded_sigops_counted_checksig :
    ReachesEmbedded oneKeyEnv twoOfTwoContext.transaction 0 RuleFork.bip16Rule
        checksigInput.script payChecksigHash ⟨[0xac]⟩ [] ∧
      checksigInput.signatureOperations .btc true false = 0 + 1 := by
  have hreaches : ReachesEmbedded oneKeyEnv twoOfTwoContext.transaction 0 RuleFork.bip16Rule
      checksigInput.script payChecksigHash ⟨[0xac]⟩ [] := by
    constructor
    · exact ⟨.ofStack [[0xac]], { operationCount := 2, primary := [[0x01]] }, by decide +kernel,
        by decide +kernel, rfl, rfl⟩
    · decide +kernel
    · decide +kernel
    · decide
  exact ⟨hreaches, (embedded_sigops_counted oneKeyEnv twoOfTwoContext.transaction 0
    RuleFork.bip16Rule checksigInput ⟨[0xac]⟩ [] hreaches).2⟩

end BitprimCore.Script
