import BitprimCore.Machine.Effect

/-!
# Conditions

The registers of the condition stack as `machine/program` has them: the negative conditions are
counted by a `size_t`, which is added to and subtracted from as branches are opened, negated and
closed. Along every run the count is that of the stack, and a run that succeeds has closed every
branch that it has opened.
-/

namespace BitprimCore

open List Option

/-- The registers, with the top of the stack first. -/
structure Conditions where
  negativeCount : UInt64
  condition : List Bool

namespace Opcode

/-- The branches that an operation opens. -/
def opens : Opcode → Nat
  | if_ | notif => 1
  | _ => 0

/-- The branches that an operation closes. -/
def closes : Opcode → Nat
  | endif => 1
  | _ => 0

theorem branch_cases (code : Opcode) :
    code.opens = 0 ∧ code.closes = 0 ∨
      code.opens = 1 ∧ code.closes = 0 ∧ code.isCounted ∨
      code.opens = 0 ∧ code.closes = 1 ∧ code = .endif := by
  cases code with
  | if_ | notif => exact .inr (.inl ⟨rfl, rfl, by decide⟩)
  | endif => exact .inr (.inr ⟨rfl, rfl, rfl⟩)
  | _ => exact .inl ⟨rfl, rfl⟩

end Opcode

namespace Conditions

variable (c : Conditions)

/-- Opens a branch. -/
def open_ (value : Bool) : Conditions :=
  ⟨c.negativeCount + (if value then 0 else 1), value :: c.condition⟩

/-- This must be guarded. -/
def negate : Conditions :=
  match c.condition with
  | [] => c
  | value :: rest => ⟨c.negativeCount + (if value then 1 else -1), (!value) :: rest⟩

/-- This must be guarded. -/
def close : Conditions :=
  match c.condition with
  | [] => c
  | value :: rest => ⟨c.negativeCount + (if value then 0 else -1), rest⟩

/-- Every branch is taken. -/
def succeeded : Bool := c.negativeCount == 0

/-- What an operation that succeeds does to the registers, given the truth of the element at the top. -/
def apply (code : Opcode) (top : Bool) : Conditions :=
  match code with
  | .if_ => c.open_ (if c.succeeded then top else false)
  | .notif => c.open_ (if c.succeeded then !top else false)
  | .else_ => c.negate
  | .endif => c.close
  | _ => c

theorem apply_of_not_conditional {code : Opcode} (h : code.isConditional = false) (top : Bool) :
    c.apply code top = c := by
  cases code with
  | if_ | notif | else_ | endif => cases h
  | _ => rfl

theorem length_apply {code : Opcode} (h : code = .endif → c.condition ≠ []) (top : Bool) :
    (c.apply code top).condition.length + code.closes = c.condition.length + code.opens := by
  obtain ⟨_, condition⟩ := c
  cases code with
  | else_ => cases condition <;> rfl
  | endif =>
    cases condition with
    | nil => exact absurd rfl (h rfl)
    | cons => rfl
  | _ => rfl

theorem length_apply_le (code : Opcode) (top : Bool) :
    (c.apply code top).condition.length ≤ c.condition.length + 1 := by
  by_cases h : code = .endif ∧ c.condition = []
  · obtain ⟨rfl, hnil⟩ := h
    simp [apply, close, hnil]
  · have hlen := c.length_apply (fun hcode hnil => h ⟨hcode, hnil⟩) top
    have hcodes := code.branch_cases
    omega

end Conditions

namespace Program

variable {p q : Program}

/-- The registers that a program stands for. -/
def conditions (p : Program) : Conditions := ⟨UInt64.ofNat p.negativeCount, p.condition⟩

/-- The top element is true. -/
def topTrue (p : Program) : Bool := (p.primary.head?.map dataToBool).getD false

theorem conditions_congr (h : q.condition = p.condition) : q.conditions = p.conditions := by
  rw [conditions, conditions, q.negativeCount_eq, p.negativeCount_eq, h]

theorem conditions_open (p : Program) (value : Bool) :
    (p.open_ value).conditions = p.conditions.open_ value := by
  cases value <;> simp [conditions, open_, Conditions.open_]

/-- One negative condition less. -/
theorem ofNat_pred {count : Nat} (h : 0 < count) :
    UInt64.ofNat (count - 1) = UInt64.ofNat count + -1 := by
  obtain ⟨n, rfl⟩ := Nat.exists_eq_succ_of_ne_zero h.ne'
  have hcancel : (1 : UInt64) + -1 = 0 := by decide
  rw [Nat.succ_sub_one, Nat.succ_eq_add_one, UInt64.ofNat_add, UInt64.add_assoc]
  exact ((congrArg (UInt64.ofNat n + ·) hcancel).trans (UInt64.add_zero _)).symm

theorem negativeCount_pos {rest : List Bool} (h : p.condition = false :: rest) :
    0 < p.negativeCount := by
  simp [p.negativeCount_eq, h]

theorem conditions_negate (h : p.negate = some q) : q.conditions = p.conditions.negate := by
  unfold negate at h
  split at h
  · cases h
  · next value rest hcond =>
    cases h
    cases value with
    | true => simp [conditions, Conditions.negate, hcond]
    | false => simp [conditions, Conditions.negate, hcond, ofNat_pred (negativeCount_pos hcond)]

theorem conditions_close (h : p.close = some q) : q.conditions = p.conditions.close := by
  unfold close at h
  split at h
  · cases h
  · next value rest hcond =>
    cases h
    cases value with
    | true => simp [conditions, Conditions.close, hcond]
    | false => simp [conditions, Conditions.close, hcond, ofNat_pred (negativeCount_pos hcond)]

/-- The loop that the count stands for. -/
theorem succeeded_iff (p : Program) : p.succeeded ↔ ∀ value ∈ p.condition, value := by
  rw [succeeded, beq_iff_eq, p.negativeCount_eq, count_eq_zero]
  constructor
  · intro hmem value hval
    cases value with
    | true => rfl
    | false => exact absurd hval hmem
  · exact fun hall hmem => Bool.noConfusion (hall false hmem)

/-- The count of the registers is that of the stack, so they say whether all branches are taken. -/
structure Counted (p : Program) : Prop where
  negativeCount : p.conditions.negativeCount.toNat = p.condition.count false
  succeeded : p.conditions.succeeded = true ↔ ∀ value ∈ p.condition, value = true

/-- The counter does not wrap. -/
theorem toNat_negativeCount (h : p.condition.length ≤ maxCountedOps + 1) :
    p.conditions.negativeCount.toNat = p.negativeCount := by
  have hcount : p.negativeCount ≤ p.condition.length := p.negativeCount_eq ▸ count_le_length
  rw [conditions, UInt64.toNat_ofNat', Nat.mod_eq_of_lt]
  simp only [maxCountedOps] at h
  omega

theorem succeeded_conditions (h : p.condition.length ≤ maxCountedOps + 1) :
    p.conditions.succeeded = p.succeeded := by
  rw [Conditions.succeeded, succeeded, ← toNat_negativeCount h, Bool.eq_iff_iff, beq_iff_eq,
    beq_iff_eq, ← UInt64.toNat_inj, UInt64.toNat_zero]

theorem counted_of_length (h : p.condition.length ≤ maxCountedOps + 1) : p.Counted := by
  refine ⟨(toNat_negativeCount h).trans p.negativeCount_eq, ?_⟩
  rw [succeeded_conditions h]
  exact p.succeeded_iff

end Program

namespace Interpreter

open Execution Program

variable {env : Env} {ctx : Context} {p q : Program} {op : Operation} {index : Nat}
  {result : ErrorCode}

theorem conditions_openCondition {failure : ErrorCode} {test : Bool → Bool}
    (hfail : failure ≠ .success) (hlen : p.condition.length ≤ maxCountedOps + 1)
    (h : openCondition failure test p = some (result, q)) :
    q.conditions = if result = .success then
      p.conditions.open_ (if p.conditions.succeeded then test p.topTrue else false)
    else p.conditions := by
  rw [succeeded_conditions hlen]
  unfold openCondition at h
  split_ifs at h with hsucc hempty
  · cases h
    rw [if_neg hfail]
  · cases hprimary : p.primary with
    | nil => exact absurd (isEmpty_eq_true_iff.mpr hprimary) hempty
    | cons top rest =>
      simp only [stackTrue_of_primary hprimary, pop_of_primary hprimary, bind_eq_bind,
        bind_some] at h
      cases h
      rw [if_pos rfl, if_pos hsucc, topTrue, hprimary]
      exact conditions_open _ _
  · cases h
    rw [if_pos rfl, if_neg hsucc]
    exact conditions_open _ _

/-- The conditions are found closed, or changed. -/
theorem conditions_guarded {failure : ErrorCode} {change : Program → Option Program}
    {change' : Conditions → Conditions} (hfail : failure ≠ .success)
    (hchange : ∀ {q}, change p = some q → q.conditions = change' p.conditions)
    (h : (if p.closed then some (failure, p) else (change p).map fun p => (.success, p)) =
      some (result, q)) :
    q.conditions = if result = .success then change' p.conditions else p.conditions := by
  split_ifs at h
  · cases h
    rw [if_neg hfail]
  · obtain ⟨r, hr, h⟩ := map_eq_some_iff.mp h
    cases h
    rw [if_pos rfl]
    exact hchange hr

/-- An operation that succeeds does to the registers what the source does; one that fails leaves
them. -/
theorem conditions_runOp {position : Option Nat} (hlen : p.condition.length ≤ maxCountedOps + 1)
    (hsize : op.data.length ≤ maxPushDataSize)
    (h : runOp env ctx op position p = some (result, q)) :
    q.conditions = if result = .success then p.conditions.apply op.code p.topTrue else p.conditions := by
  cases hcond : op.code.isConditional with
  | false =>
    rw [conditions_congr ((runEffect_runOp hsize h).condition hcond),
      Conditions.apply_of_not_conditional _ hcond, ite_self]
  | true =>
    rcases Opcode.eq_of_isConditional hcond with hcode | hcode | hcode | hcode <;>
      simp only [runOp, hcode] at h <;> rw [hcode]
    · rw [opIf] at h
      rw [conditions_openCondition (by simp) hlen h]
      rfl
    · rw [opNotif] at h
      rw [conditions_openCondition (by simp) hlen h]
      rfl
    · rw [opElse] at h
      rw [conditions_guarded (by simp) conditions_negate h]
      rfl
    · rw [opEndif] at h
      rw [conditions_guarded (by simp) conditions_close h]
      rfl

theorem condition_incrementOperationCount (p : Program) (op : Operation) :
    (p.incrementOperationCount op).2.condition = p.condition := by
  simp only [incrementOperationCount]
  split_ifs <;> rfl

/-- A turn that goes on does to the registers what the source does; one that stops may leave them. -/
theorem conditions_of_step {signal : Signal Program ErrorCode}
    (hlen : p.condition.length ≤ maxCountedOps) (h : step env ctx (op, index) p = some signal) :
    signal.Ends (fun q => q.conditions = p.conditions.apply op.code p.topTrue) fun q =>
      q.conditions = p.conditions ∨ q.conditions = p.conditions.apply op.code p.topTrue := by
  have hcounted := conditions_congr (condition_incrementOperationCount p op)
  simp only [step, Operation.isOversized] at h
  split_ifs at h with hsize hdisabled hcount hif
  · cases h
    exact .inl rfl
  · cases h
    exact .inl rfl
  · cases h
    exact .inl hcounted
  · simp only [bind_eq_bind, bind_eq_some_iff] at h
    obtain ⟨⟨result, q⟩, hrun, h⟩ := h
    have hconds := conditions_runOp
      (by rw [condition_incrementOperationCount]; omega) (by simpa using hsize) hrun
    rw [hcounted, topTrue, incrementOperationCount_primary] at hconds
    dsimp only at h
    split_ifs at h with hres
    · cases h
      rw [if_neg hres] at hconds
      exact .inl hconds
    · cases h
      rw [if_pos (not_not.mp hres)] at hconds
      exact .inr hconds
    · cases h
      rw [if_pos (not_not.mp hres)] at hconds
      exact hconds
  · cases h
    rw [incrementOperationCount_if, if_, Bool.or_eq_true, not_or, Bool.not_eq_true] at hif
    exact hcounted.trans (Conditions.apply_of_not_conditional _ hif.1 _).symm

/-- A turn that goes on opens one branch, closes one that is open, or leaves their number. -/
theorem length_of_step (hlen : p.condition.length ≤ maxCountedOps)
    (h : step env ctx (op, index) p = some (.next q)) :
    q.condition.length + op.code.closes = p.condition.length + op.code.opens := by
  have hconds : q.conditions = p.conditions.apply op.code p.topTrue := conditions_of_step hlen h
  rw [show q.condition = (p.conditions.apply op.code p.topTrue).condition from
    congrArg Conditions.condition hconds]
  apply Conditions.length_apply
  intro hcode hclosed
  obtain ⟨-, -, ⟨-, hrun, -⟩ | ⟨hskipped, -⟩⟩ := step_next_cases h
  · have hempty : (p.incrementOperationCount op).2.closed := by
      rw [closed, condition_incrementOperationCount]
      exact isEmpty_iff.mpr hclosed
    simp [runOp, hcode, opEndif, hempty] at hrun
  · simp [Executes, if_, hcode, Opcode.isConditional] at hskipped

/-- The count of operations bounds that of the open branches. -/
structure Bounded (p : Program) : Prop where
  operations : p.condition.length ≤ p.operationCount
  limit : p.condition.length ≤ maxCountedOps

theorem bounded_of_step (hp : Bounded p) (h : step env ctx (op, index) p = some (.next q)) :
    Bounded q := by
  have hturn := length_of_step hp.limit h
  have hops := hp.operations
  obtain ⟨hsize, hcount, hcases⟩ := step_next_cases h
  have hq : (p.incrementOperationCount op).2.operationCount ≤ q.operationCount := by
    rcases hcases with ⟨-, hrun, -⟩ | ⟨-, rfl⟩
    · rw [(runEffect_runOp hsize hrun).operationCount]
      exact Nat.le_add_right _ _
    · exact le_refl _
  have hopens : p.operationCount + op.code.opens ≤
      (p.incrementOperationCount op).2.operationCount := by
    have hcodes := op.code.branch_cases
    simp only [incrementOperationCount]
    split_ifs with hcounted
    · simp only [countOperations]
      omega
    · have hopens : op.code.opens = 0 := by
        rcases hcodes with h | h | h
        · exact h.1
        · exact absurd h.2.2 hcounted
        · exact h.1
      omega
  have hlimit := hp.limit
  constructor <;> omega

/-- How many branches are open behind the operations, if each that is closed was open. -/
def depth (open_ : Nat) : List Operation → Option Nat
  | [] => some open_
  | op :: ops =>
    if op.code.closes ≤ open_ then depth (open_ + op.code.opens - op.code.closes) ops else none

/-- Each `if` or `notif` has its own `endif`. -/
inductive Matched : List Operation → Prop
  | nil : Matched []
  | plain {op : Operation} {ops : List Operation} (hopens : op.code.opens = 0)
      (hcloses : op.code.closes = 0) (h : Matched ops) : Matched (op :: ops)
  | block {op close : Operation} {body ops : List Operation} (hopens : op.code.opens = 1)
      (hbody : Matched body) (hclose : close.code = .endif) (h : Matched ops) :
    Matched (op :: (body ++ close :: ops))

/-- The operations close a number of branches that are open before, and match the others. -/
inductive Closes : Nat → List Operation → Prop
  | zero {ops : List Operation} (h : Matched ops) : Closes 0 ops
  | succ {count : Nat} {close : Operation} {body ops : List Operation} (hbody : Matched body)
      (hclose : close.code = .endif) (h : Closes count ops) :
    Closes (count + 1) (body ++ close :: ops)

theorem closes_of_depth {count : Nat} {ops : List Operation} (h : depth count ops = some 0) :
    Closes count ops := by
  induction ops generalizing count with
  | nil =>
    cases h
    exact .zero .nil
  | cons op ops ih =>
    rw [depth] at h
    split_ifs at h with hcloses
    have hops := ih h
    rcases op.code.branch_cases with ⟨hopens, hzero⟩ | ⟨hopens, hzero, -⟩ | ⟨hopens, hone, hcode⟩
    · rw [hopens, hzero] at hops
      cases hops with
      | zero hmatched => exact .zero (.plain hopens hzero hmatched)
      | succ hbody hclose hrest => exact .succ (.plain hopens hzero hbody) hclose hrest
    · rw [hopens, hzero] at hops
      cases hops with
      | succ hbody hclose hrest =>
        cases hrest with
        | zero hmatched => exact .zero (.block hopens hbody hclose hmatched)
        | succ hbody' hclose' hrest =>
          simpa using Closes.succ (.block hopens hbody hclose hbody') hclose' hrest
    · rw [hone] at hcloses
      obtain ⟨n, rfl⟩ := Nat.exists_eq_add_of_le' hcloses
      rw [hopens, hone] at hops
      exact .succ .nil hcode hops

/-- What holds of the branches between two states of a loop. -/
theorem depth_of_loop {items : List (Operation × Nat)} (hp : Bounded p)
    (hloop : loop (step env ctx) items p = some (.next q)) :
    Bounded q ∧ depth p.condition.length (items.map Prod.fst) = some q.condition.length := by
  induction items generalizing p with
  | nil =>
    cases hloop
    exact ⟨hp, rfl⟩
  | cons item items ih =>
    cases hstep : step env ctx item p with
    | none => simp [loop, hstep] at hloop
    | some signal =>
      cases signal with
      | stop => simp [loop, hstep] at hloop
      | next r =>
        obtain ⟨hq, hdepth⟩ := ih (bounded_of_step hp hstep) (by simpa [loop, hstep] using hloop)
        have hlen := length_of_step hp.limit hstep
        refine ⟨hq, ?_⟩
        have hcodes := item.1.code.branch_cases
        rw [map_cons, depth, if_pos (by omega), ← hdepth]
        congr 1
        omega

/-- In every state that a run comes to the count of the registers is that of the stack, and an
operation other than a conditional is executed exactly if all branches around it are taken. The
number of these is that of the branches that the operations before it have opened, and a run that
succeeds is over a script whose branches are matched. -/
theorem conditions_of_run (hp : p.condition = []) :
    (∀ op index q, Visits (step env ctx) (ctx.operations env).zipIdx p (op, index) q →
        q.Counted ∧
        (op.code.isConditional = false → (Executes q op ↔ ∀ value ∈ q.condition, value = true)) ∧
        (∃ before, before ++ [op] <+: ctx.operations env ∧ depth 0 before = some q.condition.length) ∧
        ∀ signal, step env ctx (op, index) q = some signal → signal.state.Counted ∧
          signal.Ends (fun r => r.conditions = q.conditions.apply op.code q.topTrue) fun r =>
            r.conditions = q.conditions ∨ r.conditions = q.conditions.apply op.code q.topTrue) ∧
      ∀ q, run env ctx p = some (.success, q) → Matched (ctx.operations env) := by
  have hbounded : Bounded p := by
    constructor <;> simp [hp]
  have hops : (ctx.operations env).zipIdx.map Prod.fst = ctx.operations env := zipIdx_map_fst ..
  constructor
  · intro op index q hvisits
    obtain ⟨before, after, hitems, hloop⟩ := hvisits.loop_before
    obtain ⟨hq, hdepth⟩ := depth_of_loop hbounded hloop
    rw [hp] at hdepth
    have hlimit := hq.limit
    refine ⟨counted_of_length (by omega), fun hplain => ?_, ⟨before.map Prod.fst, ?_, hdepth⟩, ?_⟩
    · rw [Executes, if_, hplain, Bool.false_or, succeeded_iff]
    · rw [← hops, hitems]
      exact ⟨after.map Prod.fst, by simp⟩
    · intro signal hstep
      have hends := conditions_of_step hlimit hstep
      refine ⟨counted_of_length ?_, hends⟩
      have happly := q.conditions.length_apply_le op.code q.topTrue
      have hstate : signal.state.conditions = q.conditions ∨
          signal.state.conditions = q.conditions.apply op.code q.topTrue := by
        cases signal with
        | stop => exact hends
        | next => exact .inr hends
      have hlength : signal.state.condition.length ≤ q.condition.length + 1 := by
        change signal.state.conditions.condition.length ≤ _
        rcases hstate with hstate | hstate <;> rw [hstate]
        · exact Nat.le_succ _
        · exact happly
      omega
  · intro q hrun
    obtain ⟨-, hloop, hclosed⟩ := run_eq_success_iff.mp hrun
    obtain ⟨-, hdepth⟩ := depth_of_loop hbounded hloop
    rw [hp, hops, isEmpty_iff.mp hclosed] at hdepth
    cases closes_of_depth hdepth with
    | zero hmatched => exact hmatched

/-- `[1] if endif`. -/
def ifContext : Context :=
  { twoOfTwoContext with script := ⟨[0x51, 0x63, 0x68]⟩ }

theorem conditions_of_run_if :
    run oneKeyEnv ifContext (.ofStack []) = some (.success, { operationCount := 2 }) ∧
      Matched (ifContext.operations oneKeyEnv) := by
  have hrun : run oneKeyEnv ifContext (.ofStack []) = some (.success, { operationCount := 2 }) := by
    decide +kernel
  exact ⟨hrun, (conditions_of_run rfl).2 _ hrun⟩

end Interpreter

end BitprimCore
