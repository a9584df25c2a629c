import BitprimCore.Machine.Effect

/-!
# The bytes of a script and of its subscripts

Operations that were read are written back in the bytes they were read from, of the size that is
computed for them. The subscript of a program is what follows the code separator that was run last,
so the signature hash is made of those bytes.
-/

namespace BitprimCore

open Execution List Script

namespace Script

theorem operationsToData_append (front back : List Operation) :
    operationsToData (front ++ back) = operationsToData front ++ operationsToData back :=
  flatMap_append

/-- The sizes are those of the bytes that are written. -/
theorem sum_serializedSize (ops : List Operation) :
    (ops.map Operation.serializedSize).sum = (operationsToData ops).length := by
  induction ops with
  | nil => rfl
  | cons op ops ih =>
    rw [map_cons, sum_cons, ih, ← op.length_toData, ← length_append]
    rfl

end Script

namespace Interpreter

open Program

variable {env : Env} {ctx : Context}

/-- A code separator that is run jumps behind itself. -/
theorem jump_of_separator {op : Operation} {index : Nat} {p q : Program}
    (hop : op.code = .codeseparator) (hidx : index < (ctx.operations env).length)
    (hexec : Executes p op) (h : step env ctx (op, index) p = some (.next q)) :
    q.jump = index + 1 := by
  obtain ⟨-, -, ⟨-, hrun, -⟩ | ⟨hskipped, -⟩⟩ := step_next_cases h
  · have hne : (ctx.operations env).isEmpty = false := by
      rw [isEmpty_eq_false_iff]
      exact ne_nil_of_length_pos (Nat.zero_lt_of_lt hidx)
    simp only [runOp, hop, opCodeseparator, setJumpRegister, hne, hidx, Bool.false_eq_true,
      if_false, if_true, Option.some.injEq, Prod.mk.injEq, true_and] at hrun
    rw [← hrun]
  · exact absurd hexec hskipped

/-- Serialization gives the bytes of a script back, in the size computed for it; and in any run, from
where a code separator was run to where the next one is, the subscript is made of the bytes that
follow it. -/
theorem script_bytes_survive (env : Env) (ctx : Context)
    (hvalid : ∀ op ∈ ctx.operations env, op.valid = true) :
    operationsToData (ctx.operations env) = ctx.script.bytes ∧
      ((ctx.operations env).map Operation.serializedSize).sum = ctx.script.bytes.length ∧
      ∀ (start p q : Program) (before between after : List Operation) (separator : Operation)
        (signal : Signal Program ErrorCode),
        ctx.operations env = before ++ separator :: (between ++ after) →
        separator.code = .codeseparator →
        loop (step env ctx) before.zipIdx start = some (.next p) → Executes p separator →
        step env ctx (separator, before.length) p = some (.next q) →
        loop (step env ctx) (between.zipIdx (before.length + 1)) q = some signal →
        (∀ op index state, Visits (step env ctx) (between.zipIdx (before.length + 1)) q (op, index)
          state → op.code = .codeseparator → ¬ Executes state op) →
        ctx.script.bytes = operationsToData before ++ (separator.toData ++
          (ofOperations (signal.state.subscript (ctx.operations env))).bytes) := by
  have hbytes : operationsToData (ctx.operations env) = ctx.script.bytes :=
    operationsToData_parseOperations (le_refl _) hvalid
  refine ⟨hbytes, ?_, ?_⟩
  · rw [sum_serializedSize, hbytes]
  · intro start p q before between after separator signal hops hseparator _ hexecutes hstep hloop
      hbetween
    have hindex : before.length < (ctx.operations env).length := by
      rw [hops, length_append, length_cons]
      omega
    have hjump : q.jump = before.length + 1 := jump_of_separator hseparator hindex hexecutes hstep
    -- no separator is run in between, so the jump register stays
    have hkeep : ∀ item state next,
        Visits (step env ctx) (between.zipIdx (before.length + 1)) q item state →
        state.jump = before.length + 1 → step env ctx item state = some next →
        next.state.jump = before.length + 1 := by
      rintro ⟨op, index⟩ state next hvisit hstate hnext
      rw [jump_of_step hnext fun hop => hbetween op index state hvisit hop, hstate]
    have hkept : signal.state.jump = before.length + 1 := by
      have hends := loop_ends (fun state => state.jump = before.length + 1)
        (fun state => state.jump = before.length + 1)
        (fun item state next => hkeep item state (.next next))
        (fun item state result next => hkeep item state (.stop result next)) hjump hloop
      cases signal with
      | next t => exact hends
      | stop result t => exact hends
    have hsubscript : signal.state.subscript (ctx.operations env) = between ++ after := by
      rw [subscript, hkept, hops, ← drop_drop, drop_left]
      rfl
    rw [hsubscript, ← hbytes, hops, operationsToData_append]
    rfl

/-- A separator between two pushes. -/
def separatorContext : Context :=
  { twoOfTwoContext with script := ⟨[0x51, 0xab, 0x52]⟩ }

/-- The program when the separator was run. -/
def separatorProgram : Program :=
  { Program.ofStack [[0x01]] with operationCount := 1, jump := 2 }

/-- Behind the separator the subscript is the second push. -/
theorem script_bytes_survive_separator :
    (∀ op ∈ separatorContext.operations oneKeyEnv, op.valid = true) ∧
      ([0x51, 0xab, 0x52] : DataChunk) = [0x51] ++ ([0xab] ++ (ofOperations
        (separatorProgram.subscript (separatorContext.operations oneKeyEnv))).bytes) := by
  have hvalid : ∀ op ∈ separatorContext.operations oneKeyEnv, op.valid := by decide
  refine ⟨hvalid, ?_⟩
  exact (script_bytes_survive oneKeyEnv separatorContext hvalid).2.2 {} (.ofStack [[0x01]])
    separatorProgram [{ code := .pushPositive 0 }] [] [{ code := .pushPositive 1 }]
    { code := .codeseparator } (.next separatorProgram) (by decide) rfl rfl (by decide) rfl rfl
    (fun _ _ _ h => nomatch h)

end Interpreter

end BitprimCore
