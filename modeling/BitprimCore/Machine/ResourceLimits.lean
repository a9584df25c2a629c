import BitprimCore.Machine.Effect

/-!
# Resource limits

No run leaves an element above the push limit or more elements than the stacks may hold. The count
of operations is kept below its limit by every operation but `checkmultisig`: when the keys exceed
the limit, that operation pushes false and the keys stay counted, so a run that goes on from there
can succeed above the limit.
-/

namespace BitprimCore.Interpreter

open Execution Program

variable {env : Env} {ctx : Context} {p q : Program} {op : Operation} {index : Nat}

theorem items_incrementOperationCount (p : Program) (op : Operation) :
    (p.incrementOperationCount op).2.items = p.items := by
  simp only [incrementOperationCount]
  split_ifs <;> rfl

theorem operationCount_le_increment (p : Program) (op : Operation) :
    p.operationCount ≤ (p.incrementOperationCount op).2.operationCount := by
  simp only [incrementOperationCount]
  split_ifs
  · exact Nat.le_add_right _ _
  · exact le_refl _

/-- The elements and the sizes of the stacks stay within their limits. -/
theorem withinLimits_of_step (hp : p.WithinLimits)
    (h : step env ctx (op, index) p = some (.next q)) : q.WithinLimits := by
  have hitems := items_incrementOperationCount p op
  have hcounted : (p.incrementOperationCount op).2.WithinLimits := by
    constructor
    · rw [hitems]
      exact hp.items
    · rw [hitems]
      exact hp.size
  obtain ⟨hsize, -, ⟨-, hrun, hstacks⟩ | ⟨-, rfl⟩⟩ := step_next_cases h
  · exact ⟨(runEffect_runOp hsize hrun).items hcounted, hstacks⟩
  · exact hcounted

/-- The count never goes down. -/
theorem operationCount_le_of_step (h : step env ctx (op, index) p = some (.next q)) :
    p.operationCount ≤ q.operationCount := by
  have hincrement := operationCount_le_increment p op
  obtain ⟨hsize, -, ⟨-, hrun, -⟩ | ⟨-, rfl⟩⟩ := step_next_cases h
  · rw [(runEffect_runOp hsize hrun).operationCount]
    omega
  · exact hincrement

/-- The operation is a `checkmultisig` that is run and whose keys exceed the limit. -/
def Overcounts (p : Program) (op : Operation) : Prop :=
  op.code = .checkmultisig ∧ Executes p op ∧
    maxCountedOps < p.operationCount + 1 + countedKeys p.primary

theorem operationCount_checkmultisig (hop : op.code = .checkmultisig) :
    (p.incrementOperationCount op).2.operationCount = p.operationCount + 1 := by
  simp only [incrementOperationCount, hop]
  rfl

/-- Every other operation that succeeds counts within the limit. -/
theorem operationCount_le_iff_of_step (h : step env ctx (op, index) p = some (.next q)) :
    q.operationCount ≤ maxCountedOps ↔ ¬ Overcounts p op := by
  obtain ⟨hsize, hcount, ⟨hexec, hrun, -⟩ | ⟨hskipped, rfl⟩⟩ := step_next_cases h
  · have hkeys := (runEffect_runOp hsize hrun).operationCount
    by_cases hmultisig : op.code = .checkmultisig
    · rw [hkeys, operationCount_checkmultisig hmultisig, hmultisig]
      simp only [Overcounts, hmultisig, hexec, true_and, not_lt, operationKeys,
        incrementOperationCount_primary]
    · have hnot : ¬ Overcounts p op := fun hover => hmultisig hover.1
      refine iff_of_true ?_ hnot
      rw [hkeys]
      by_cases hverify : op.code = .checkmultisigverify
      · simp only [runOp, hverify] at hrun
        rw [hverify]
        exact (opCheckMultisigVerify_leaves hrun).2 rfl
      · have hnone : operationKeys op.code (p.incrementOperationCount op).2.primary = 0 := by
          unfold operationKeys
          split
          · next hcode => exact absurd hcode hmultisig
          · next hcode => exact absurd hcode hverify
          · rfl
        rw [hnone]
        exact hcount
  · exact iff_of_true hcount fun hover => hskipped hover.2.1

/-- The limits on what a run over the operations of the script leaves: after every operation that has
not failed the stacks are within theirs, and a run that succeeds is within the count. -/
structure LimitsHold (env : Env) (ctx : Context) (stack : List DataChunk) : Prop where
  within : ∀ item p q, Visits (step env ctx) (ctx.operations env).zipIdx (.ofStack stack) item p →
    step env ctx item p = some (.next q) → q.WithinLimits
  count : ∀ q, run env ctx (.ofStack stack) = some (.success, q) → q.operationCount ≤ maxCountedOps

/-- The count at the end of a loop is within the limit when no operation exceeds it. -/
theorem operationCount_le_iff_of_loop {items : List (Operation × Nat)}
    (hp : p.operationCount ≤ maxCountedOps)
    (hloop : loop (step env ctx) items p = some (.next q)) :
    q.operationCount ≤ maxCountedOps ↔
      ∀ op index state, Visits (step env ctx) items p (op, index) state → ¬ Overcounts state op := by
  constructor
  · intro hq op index state hvisit hover
    obtain ⟨next, rest, hstep, -, hrest⟩ := hvisit.next_of_loop hloop
    have hnext : ¬ next.operationCount ≤ maxCountedOps :=
      fun hle => (operationCount_le_iff_of_step hstep).mp hle hover
    -- what was counted stays counted
    have hmono : next.operationCount ≤ q.operationCount := by
      refine loop_ends (fun state : Program => next.operationCount ≤ state.operationCount)
        (fun _ => True) ?_ (fun _ _ _ _ _ _ _ => trivial) (le_refl _) hrest
      intro item state state' _ hle hturn
      exact hle.trans (operationCount_le_of_step hturn)
    exact hnext (hmono.trans hq)
  · intro hnot
    refine loop_ends (fun state : Program => state.operationCount ≤ maxCountedOps) (fun _ => True)
      ?_ (fun _ _ _ _ _ _ _ => trivial) hp hloop
    intro item state next hvisit _ hturn
    exact (operationCount_le_iff_of_step hturn).mpr (hnot item.1 item.2 state hvisit)

/-- From a stack within its limits, a run keeps the limits exactly when it does not succeed after a
`checkmultisig` whose keys exceed the count. -/
theorem resource_limits_iff (env : Env) (ctx : Context) (stack : List DataChunk)
    (hsize : stack.length ≤ maxStackSize)
    (hitems : ∀ item ∈ stack, item.length ≤ maxPushDataSize) :
    LimitsHold env ctx stack ↔
      ∀ q, run env ctx (.ofStack stack) = some (.success, q) →
        ∀ op index p, Visits (step env ctx) (ctx.operations env).zipIdx (.ofStack stack) (op, index) p →
          ¬ Overcounts p op := by
  have hstart : (Program.ofStack stack).WithinLimits := by
    constructor
    · simpa [items, ofStack] using hitems
    · simpa [items, ofStack] using hsize
  have hcount : ∀ q, run env ctx (.ofStack stack) = some (.success, q) →
      (q.operationCount ≤ maxCountedOps ↔ ∀ op index p, Visits (step env ctx)
        (ctx.operations env).zipIdx (.ofStack stack) (op, index) p → ¬ Overcounts p op) := by
    intro q hrun
    obtain ⟨-, hloop, -⟩ := run_eq_success_iff.mp hrun
    exact operationCount_le_iff_of_loop (Nat.zero_le _) hloop
  constructor
  · intro hlimits q hrun
    exact (hcount q hrun).mp (hlimits.count q hrun)
  · intro hnot
    constructor
    · intro item p q hvisit hstep
      have hp : p.WithinLimits := hvisit.state WithinLimits
        (fun _ _ _ _ hstate hturn => withinLimits_of_step hstate hturn) hstart
      exact withinLimits_of_step hp hstep
    · intro q hrun
      exact (hcount q hrun).mpr (hnot q hrun)

/-- Ten times `[14] checkmultisig`: no signature of twenty keys. -/
def overcountContext : Context :=
  { twoOfTwoContext with script := ⟨(List.replicate 10 [0x01, 0x14, 0xae]).flatten⟩ }

/-- The operands of nine of the checks, empty elements all of them. -/
def overcountStack : List DataChunk := List.replicate 190 []

/-- The tenth check exceeds the limit, and the run succeeds with 210 operations counted. -/
theorem checkmultisig_overcounts :
    run oneKeyEnv overcountContext (.ofStack overcountStack) =
        some (.success, { operationCount := 210, primary := [[], [0x01]] }) ∧
      ¬ LimitsHold oneKeyEnv overcountContext overcountStack := by
  have hrun : run oneKeyEnv overcountContext (.ofStack overcountStack) =
      some (.success, { operationCount := 210, primary := [[], [0x01]] }) := by
    decide +kernel
  refine ⟨hrun, fun hlimits => ?_⟩
  exact absurd (hlimits.count _ hrun) (by decide)

/-- The two-of-two script behind `dup drop`. -/
def countedContext : Context :=
  { twoOfTwoContext with script := ⟨0x76 :: 0x75 :: twoOfTwoContext.script.bytes⟩ }

/-- Three operations and two keys are counted, and the limits hold. -/
theorem resource_limits_iff_counted :
    run oneKeyEnv countedContext (.ofStack [[0x30, 0x01], [0x30, 0x01], []]) =
        some (.success, { operationCount := 5, primary := [[0x01]] }) ∧
      LimitsHold oneKeyEnv countedContext [[0x30, 0x01], [0x30, 0x01], []] := by
  refine ⟨by decide +kernel, (resource_limits_iff oneKeyEnv _ _ (by decide) (by decide)).mpr ?_⟩
  intro q _ op index p hvisit hover
  have hnone : ∀ visit ∈ visits (step oneKeyEnv countedContext)
      (countedContext.operations oneKeyEnv).zipIdx (.ofStack [[0x30, 0x01], [0x30, 0x01], []]),
      ¬ Overcounts visit.2 visit.1.1 := by
    unfold Overcounts
    decide +kernel
  exact hnone _ hvisit.mem_visits hover

end BitprimCore.Interpreter
