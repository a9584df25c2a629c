import BitprimCore.Machine.Interpreter
import BitprimCore.Machine.Multisig
import BitprimCore.Machine.NumberCodec

/-!
# What an operation does

Handlers rearrange the stacks and the conditions. Every handler guards its accesses, so none breaks a
precondition, and fails when the stack holds fewer elements than it needs. The jump register is moved
by the code separator only and the operation count by the keys of a multisig only; and a handler that
finds no element above the push limit leaves none.
-/

namespace BitprimCore

open List Option

namespace Program

/-- The elements of both stacks. -/
def items (p : Program) : List DataChunk := p.primary ++ p.alternate

/-- The limits on the elements of both stacks and on their number. -/
structure WithinLimits (p : Program) : Prop where
  items : ∀ item ∈ p.items, item.length ≤ maxPushDataSize
  size : p.items.length ≤ maxStackSize

theorem WithinLimits.primary {p : Program} (h : p.WithinLimits) :
    ∀ item ∈ p.primary, item.length ≤ maxPushDataSize :=
  fun item hitem => h.items item (mem_append_left _ hitem)

theorem WithinLimits.alternate {p : Program} (h : p.WithinLimits) :
    ∀ item ∈ p.alternate, item.length ≤ maxPushDataSize :=
  fun item hitem => h.items item (mem_append_right _ hitem)

@[simp] theorem pushMove_primary (p : Program) (item : DataChunk) :
    (p.pushMove item).primary = item :: p.primary := rfl

end Program

theorem Opcode.eq_of_isConditional {code : Opcode} (h : code.isConditional) :
    code = .if_ ∨ code = .notif ∨ code = .else_ ∨ code = .endif := by
  cases code with
  | if_ | notif | else_ | endif => simp
  | _ => cases h

namespace Interpreter

open Execution Program

variable {result : ErrorCode}

/-- A program left behind by a handler that neither jumps nor counts. -/
structure Effect (p q : Program) : Prop where
  jump : q.jump = p.jump
  operationCount : q.operationCount = p.operationCount
  items : p.WithinLimits → ∀ item ∈ q.items, item.length ≤ maxPushDataSize

/-- It leaves the conditions as well. -/
structure Frame (p q : Program) : Prop extends Effect p q where
  condition : q.condition = p.condition

/-- What a handler does to every program: it breaks no precondition, it neither jumps nor counts, and
in a branch that is taken it fails when the stack holds fewer elements than it needs. -/
def Handles (needed : Program → Nat) (handler : Handler) : Prop :=
  ∀ p, ∃ result q, handler p = some (result, q) ∧ Effect p q ∧
    (p.succeeded = true → p.size < needed p → result ≠ .success)

/-- A handler that works on the stacks only. -/
def Rearranges (needed : Program → Nat) (handler : Handler) : Prop :=
  ∀ p, ∃ result q, handler p = some (result, q) ∧ Frame p q ∧
    (p.succeeded = true → p.size < needed p → result ≠ .success)

variable {p q : Program} {failure : ErrorCode} {stack : List DataChunk}

theorem Frame.refl (p : Program) : Frame p p := ⟨⟨rfl, rfl, fun h => h.items⟩, rfl⟩

theorem effect_withPrimary (h : p.WithinLimits → ∀ item ∈ stack, item.length ≤ maxPushDataSize) :
    Frame p (p.withPrimary stack) := by
  refine ⟨⟨rfl, rfl, fun hlimits item hitem => ?_⟩, rfl⟩
  rcases mem_append.mp hitem with hprimary | halternate
  · exact h hlimits item hprimary
  · exact hlimits.alternate item halternate

/-- Elements are popped. -/
theorem effect_of_suffix (h : stack <:+ p.primary) : Frame p (p.withPrimary stack) :=
  effect_withPrimary fun hlimits item hitem => hlimits.primary item (h.subset hitem)

/-- Elements are popped and one is pushed. -/
theorem effect_cons_of_suffix {pushed : DataChunk} (h : stack <:+ p.primary)
    (hpushed : p.WithinLimits → pushed.length ≤ maxPushDataSize) :
    Frame p (p.withPrimary (pushed :: stack)) := by
  apply effect_withPrimary
  intro hlimits
  rw [forall_mem_cons]
  exact ⟨hpushed hlimits, fun item hitem => hlimits.primary item (h.subset hitem)⟩

section

variable {handler : Handler} {needed : Program → Nat}

theorem Rearranges.handles (h : Rearranges needed handler) : Handles needed handler := by
  intro p
  obtain ⟨result, q, hrun, hframe, hfails⟩ := h p
  exact ⟨result, q, hrun, hframe.toEffect, hfails⟩

theorem Rearranges.frame (h : Rearranges needed handler) (hrun : handler p = some (result, q)) :
    Frame p q := by
  obtain ⟨result', q', hhandler, hframe, -⟩ := h p
  rw [hhandler] at hrun
  cases hrun
  exact hframe

theorem Handles.isSome (h : Handles needed handler) (p : Program) : (handler p).isSome := by
  obtain ⟨result, q, hrun, -⟩ := h p
  rw [hrun]
  rfl

/-- The handler needs nothing on the stack. -/
theorem rearranges_zero (h : ∀ p, ∃ result q, handler p = some (result, q) ∧ Frame p q) :
    Rearranges (fun _ => 0) handler := by
  intro p
  obtain ⟨result, q, hrun, heffect⟩ := h p
  exact ⟨result, q, hrun, heffect, fun _ hsize => absurd hsize (Nat.not_lt_zero _)⟩

end

theorem rearranges_guarded {count : Nat} {body : Program → Option Program}
    (hfail : failure ≠ .success)
    (hbody : ∀ (p : Program) (stack : List DataChunk), count ≤ stack.length →
      ∃ stack', body (p.withPrimary stack) = some (p.withPrimary stack') ∧
        ((∀ item ∈ stack, item.length ≤ maxPushDataSize) →
          ∀ item ∈ stack', item.length ≤ maxPushDataSize)) :
    Rearranges (fun _ => count) (guarded count failure body) := by
  intro p
  unfold guarded
  split_ifs with hsize
  · exact ⟨failure, p, rfl, .refl p, fun _ _ => hfail⟩
  · obtain ⟨stack, hstack, hsmall⟩ := hbody p p.primary (Nat.le_of_not_lt hsize)
    rw [withPrimary_self] at hstack
    rw [hstack]
    exact ⟨.success, _, rfl, effect_withPrimary fun hlimits => hsmall hlimits.primary,
      fun _ h => absurd h hsize⟩

theorem rearranges_hashTop {hash : DataChunk → DataChunk} (hfail : failure ≠ .success)
    (hhash : ∀ data, (hash data).length ≤ maxPushDataSize) :
    Rearranges (fun _ => 1) (hashTop failure hash) := by
  apply rearranges_guarded hfail
  intro p stack hsize
  match stack, hsize with
  | top :: rest, _ =>
    refine ⟨hash top :: rest, rfl, ?_⟩
    simp only [forall_mem_cons]
    exact fun h => ⟨hhash top, h.2⟩

theorem handles_openCondition {test : Bool → Bool} (hfail : failure ≠ .success) :
    Handles (fun _ => 1) (openCondition failure test) := by
  intro p
  unfold openCondition
  split_ifs with hsucc hempty
  · exact ⟨failure, p, rfl, (Frame.refl p).toEffect, fun _ _ => hfail⟩
  · cases hprimary : p.primary with
    | nil => exact absurd (isEmpty_eq_true_iff.mpr hprimary) hempty
    | cons top rest =>
      have heffect : Effect p (p.withPrimary rest) :=
        (effect_of_suffix (hprimary ▸ suffix_cons top rest)).toEffect
      simp only [stackTrue_of_primary hprimary, pop_of_primary hprimary, bind_eq_bind, bind_some]
      exact ⟨.success, _, rfl, ⟨heffect.jump, heffect.operationCount, heffect.items⟩,
        fun _ h => absurd h (by simp [size, hprimary])⟩
  · exact ⟨.success, _, rfl, ⟨rfl, rfl, fun h => h.items⟩, fun h => absurd h hsucc⟩

/-- A number at the top is of four bytes. -/
theorem number_of_head? {number : Int}
    (h : (stack.head?.bind fun item => Number.setData item maxNumberSize) = some number) :
    number.natAbs < 2 ^ 31 ∧ stack.tail.length + 1 = stack.length := by
  obtain ⟨item, hhead, hitem⟩ := bind_eq_some_iff.mp h
  cases stack with
  | nil => cases hhead
  | cons top rest => exact ⟨(Number.natAbs_lt_of_setData hitem).2, rfl⟩

theorem rearranges_unaryNumber {result : Int → DataChunk} (hfail : failure ≠ .success)
    (hres : ∀ a : Int, a.natAbs < 2 ^ 31 → (result a).length ≤ maxPushDataSize) :
    Rearranges (fun _ => 1) (unaryNumber failure result) := by
  intro p
  have hsuffix := tail_suffix p.primary
  simp only [unaryNumber, popNumber_eq, bind_eq_bind, bind_some]
  split
  · exact ⟨failure, _, rfl, effect_of_suffix hsuffix, fun _ _ => hfail⟩
  · next number hnum =>
    obtain ⟨hsmall, hlen⟩ := number_of_head? hnum
    refine ⟨.success, _, rfl, effect_cons_of_suffix hsuffix fun _ => hres number hsmall, ?_⟩
    exact fun _ h => absurd h (by rw [size]; omega)

/-- Two numbers are popped, or what stands in their place. -/
theorem popBinary_spec (p : Program) :
    ∃ numbers stack, p.popBinary = some (numbers, p.withPrimary stack) ∧ stack <:+ p.primary ∧
      ∀ a b, numbers = some (a, b) →
        a.natAbs < 2 ^ 31 ∧ b.natAbs < 2 ^ 31 ∧ stack.length + 2 = p.size := by
  simp only [popBinary, popNumber_eq, bind_eq_bind, bind_some]
  split
  · exact ⟨none, _, rfl, tail_suffix _, nofun⟩
  · next first hfirst =>
    refine ⟨_, p.primary.tail.tail, rfl, (tail_suffix _).trans (tail_suffix _),
      fun a b hsome => ?_⟩
    obtain ⟨second, hsecond, hpair⟩ := map_eq_some_iff.mp hsome
    cases hpair
    obtain ⟨ha, hlen⟩ := number_of_head? hfirst
    obtain ⟨hb, hlen'⟩ := number_of_head? hsecond
    rw [withPrimary_primary] at hlen'
    exact ⟨ha, hb, by rw [size]; omega⟩

theorem rearranges_binaryNumber {result : Int → Int → DataChunk} (hfail : failure ≠ .success)
    (hres : ∀ a b : Int, a.natAbs < 2 ^ 31 → b.natAbs < 2 ^ 31 →
      (result a b).length ≤ maxPushDataSize) :
    Rearranges (fun _ => 2) (binaryNumber failure result) := by
  intro p
  obtain ⟨numbers, stack, hpop, hsuffix, hnums⟩ := popBinary_spec p
  simp only [binaryNumber, hpop, bind_eq_bind, bind_some]
  cases numbers with
  | none => exact ⟨failure, _, rfl, effect_of_suffix hsuffix, fun _ _ => hfail⟩
  | some pair =>
    obtain ⟨ha, hb, hsize⟩ := hnums pair.1 pair.2 rfl
    exact ⟨.success, _, rfl, effect_cons_of_suffix hsuffix fun _ => hres _ _ ha hb,
      fun _ h => absurd h (by omega)⟩

theorem length_boolData_le (value : Bool) : (boolData value).length ≤ maxPushDataSize := by
  cases value <;> decide

/-- A number of 33 bits is far below the push limit. -/
theorem length_data_le_of_natAbs {a : Int} (h : a.natAbs < 2 ^ 33) :
    (Number.data a).length ≤ maxPushDataSize := by
  have hlen : (Number.data a).length ≤ 5 := by
    apply Number.length_data_le
    · omega
    · omega
  exact hlen.trans (by decide)

theorem length_digest_le {length : Nat} (digest : { bytes : DataChunk // bytes.length = length })
    (h : length ≤ maxPushDataSize) : digest.val.length ≤ maxPushDataSize :=
  digest.property.le.trans h

theorem rearranges_opVerify : Rearranges (fun _ => 1) opVerify := by
  intro p
  unfold opVerify
  split_ifs with hempty
  · exact ⟨.opVerify1, p, rfl, .refl p, by simp⟩
  · cases hprimary : p.primary with
    | nil => exact absurd (isEmpty_eq_true_iff.mpr hprimary) hempty
    | cons top rest =>
      have hsize : ¬ p.size < 1 := by simp [size, hprimary]
      simp only [stackTrue_of_primary hprimary, pop_of_primary hprimary, bind_eq_bind, bind_some]
      split_ifs
      · exact ⟨_, p, rfl, .refl p, fun _ h => absurd h hsize⟩
      · exact ⟨_, _, rfl, effect_of_suffix (hprimary ▸ suffix_cons top rest),
          fun _ h => absurd h hsize⟩

/-- An element goes from one stack to the other. -/
theorem effect_of_items (hjump : q.jump = p.jump) (hcount : q.operationCount = p.operationCount)
    (hcond : q.condition = p.condition) (hitems : ∀ item ∈ q.items, item ∈ p.items) :
    Frame p q :=
  ⟨⟨hjump, hcount, fun hlimits item hitem => hlimits.items item (hitems item hitem)⟩, hcond⟩

theorem rearranges_opToAltStack : Rearranges (fun _ => 1) opToAltStack := by
  rintro ⟨_, _, _, primary, _, _, _⟩
  cases primary with
  | nil => exact ⟨.opToAltStack, _, rfl, .refl _, by simp⟩
  | cons top rest =>
    refine ⟨.success, _, rfl, effect_of_items rfl rfl rfl ?_, fun _ h => absurd h (by simp [size])⟩
    simp only [items, pushAlternate, withPrimary, mem_append, mem_cons]
    tauto

theorem rearranges_opFromAltStack : Rearranges (fun _ => 0) opFromAltStack := by
  apply rearranges_zero
  rintro ⟨_, _, _, _, alternate, _, _⟩
  cases alternate with
  | nil => exact ⟨_, _, rfl, .refl _⟩
  | cons top rest =>
    refine ⟨_, _, rfl, effect_of_items rfl rfl rfl ?_⟩
    simp only [items, pushMove, withPrimary, mem_append, mem_cons]
    tauto

theorem rearranges_opDepth : Rearranges (fun _ => 0) opDepth := by
  apply rearranges_zero
  refine fun p => ⟨_, _, rfl, effect_cons_of_suffix suffix_rfl fun hlimits => ?_⟩
  apply length_data_le_of_natAbs
  have hsize := hlimits.size
  simp only [items, length_append, maxStackSize] at hsize
  simp only [Program.size]
  omega

/-- How deep the element lies that the position at the top addresses, the position included. -/
def positionDepth (p : Program) : Nat :=
  match topInt32 p.primary with
  | none => 1
  | some index => index.toNat + 2

/-- The position is popped; it is an index into what is left below it. -/
theorem popPosition_cases (p : Program) :
    (p.popPosition = some (none, p.withPrimary p.primary.tail)) ∨
      ∃ index, p.popPosition = some (some index, p.withPrimary p.primary.tail) ∧
        index < p.primary.tail.length ∧ ¬ p.size < positionDepth p := by
  simp only [popPosition, popInt32_eq, bind_eq_bind, bind_some, positionDepth]
  cases topInt32 p.primary with
  | none => exact .inl rfl
  | some index =>
    simp only [withPrimary_size]
    rcases lt_or_ge index 0 with hneg | hnonneg
    · exact .inl (if_pos hneg)
    rw [if_neg (not_lt.mpr hnonneg)]
    rcases lt_or_ge index.toNat p.primary.tail.length with hsize | hsize
    · refine .inr ⟨index.toNat, if_neg (not_le.mpr hsize), hsize, ?_⟩
      rw [length_tail] at hsize
      rw [size]
      omega
    · exact .inl (if_pos hsize)

theorem rearranges_opPick : Rearranges positionDepth opPick := by
  intro p
  have hsuffix := tail_suffix p.primary
  rcases popPosition_cases p with hpop | ⟨index, hpop, hidx, hdepth⟩
  · simp only [opPick, hpop, bind_eq_bind, bind_some]
    exact ⟨.opPick, _, rfl, effect_of_suffix hsuffix, by simp⟩
  · have hitem : (p.withPrimary p.primary.tail).item index = some p.primary.tail[index] :=
      getElem?_eq_getElem hidx
    simp only [opPick, hpop, hitem, bind_eq_bind, bind_some]
    refine ⟨.success, _, rfl, effect_cons_of_suffix hsuffix fun hlimits => ?_,
      fun _ h => absurd h hdepth⟩
    exact hlimits.primary _ (hsuffix.subset (getElem_mem hidx))

theorem rearranges_opRoll : Rearranges positionDepth opRoll := by
  intro p
  have hsuffix := tail_suffix p.primary
  rcases popPosition_cases p with hpop | ⟨index, hpop, hidx, hdepth⟩
  · simp only [opRoll, hpop, bind_eq_bind, bind_some]
    exact ⟨.opRoll, _, rfl, effect_of_suffix hsuffix, by simp⟩
  · have hitem : (p.withPrimary p.primary.tail).item index = some p.primary.tail[index] :=
      getElem?_eq_getElem hidx
    have herase : (p.withPrimary p.primary.tail).erase index =
        some (p.withPrimary (p.primary.tail.eraseIdx index)) := if_pos hidx
    simp only [opRoll, hpop, hitem, herase, bind_eq_bind, bind_some]
    refine ⟨.success, _, rfl, effect_withPrimary fun hlimits => ?_, fun _ h => absurd h hdepth⟩
    simp only [withPrimary_primary, forall_mem_cons]
    have hsmall : ∀ item ∈ p.primary.tail, item.length ≤ maxPushDataSize :=
      fun item hitem => hlimits.primary item (hsuffix.subset hitem)
    exact ⟨hsmall _ (getElem_mem hidx),
      fun item hitem => hsmall item (mem_of_mem_eraseIdx hitem)⟩

theorem rearranges_opEqualVerify : Rearranges (fun _ => 2) opEqualVerify := by
  rintro ⟨_, _, _, primary, _, _, _⟩
  rcases primary with _ | ⟨first, _ | ⟨second, rest⟩⟩
  · exact ⟨.opEqualVerify1, _, rfl, .refl _, by simp⟩
  · exact ⟨.opEqualVerify1, _, rfl, .refl _, by simp⟩
  · have hsuffix := (suffix_cons second rest).trans (suffix_cons first _)
    exact ⟨_, _, rfl, effect_of_suffix hsuffix, fun _ h => absurd h (by simp [size])⟩

theorem rearranges_opNumEqualVerify : Rearranges (fun _ => 2) opNumEqualVerify := by
  intro p
  obtain ⟨numbers, stack, hpop, hsuffix, hnums⟩ := popBinary_spec p
  simp only [opNumEqualVerify, hpop, bind_eq_bind, bind_some]
  cases numbers with
  | none => exact ⟨.opNumEqualVerify1, _, rfl, effect_of_suffix hsuffix, by simp⟩
  | some pair =>
    obtain ⟨-, -, hsize⟩ := hnums pair.1 pair.2 rfl
    exact ⟨_, _, rfl, effect_of_suffix hsuffix, fun _ h => absurd h (by omega)⟩

theorem rearranges_opWithin : Rearranges (fun _ => 3) opWithin := by
  intro p
  obtain ⟨numbers, stack, hpop, hsuffix, hnums⟩ := popBinary_spec p
  simp only [opWithin, popTernary, hpop, bind_eq_bind, bind_some]
  cases numbers with
  | none => exact ⟨.opWithin, _, rfl, effect_of_suffix hsuffix, by simp⟩
  | some pair =>
    have htail := (tail_suffix stack).trans hsuffix
    simp only [popNumber_eq, withPrimary_primary, bind_some]
    cases hthird : stack.head?.bind fun item => Number.setData item maxNumberSize with
    | none => exact ⟨.opWithin, _, rfl, effect_of_suffix htail, by simp⟩
    | some third =>
      obtain ⟨-, -, hsize⟩ := hnums pair.1 pair.2 rfl
      obtain ⟨-, hlen⟩ := number_of_head? hthird
      exact ⟨.success, _, rfl, effect_cons_of_suffix htail fun _ => length_boolData_le _,
        fun _ h => absurd h (by omega)⟩

/-- The lock time operations look at the stack and leave it. -/
theorem opCheckLocktimeVerify_leaves (ctx : Context) (p : Program) :
    ∃ result, opCheckLocktimeVerify ctx p = some (result, p) ∧
      (isEnabled ctx.forks RuleFork.bip65Rule → p.primary = [] → result ≠ .success) := by
  obtain ⟨number, hnum⟩ := top_isSome p maxCheckLocktimeVerifyNumberSize
  have hnil := @top_of_primary_nil p maxCheckLocktimeVerifyNumberSize
  simp only [opCheckLocktimeVerify, hnum, opNop, bind_eq_bind, bind_some] at hnil ⊢
  repeat' split
  all_goals exact ⟨_, rfl, by simp_all⟩

theorem opCheckSequenceVerify_leaves (ctx : Context) (p : Program) :
    ∃ result, opCheckSequenceVerify ctx p = some (result, p) ∧
      (isEnabled ctx.forks RuleFork.bip112Rule → p.primary = [] → result ≠ .success) := by
  obtain ⟨number, hnum⟩ := top_isSome p maxCheckSequenceVerifyNumberSize
  have hnil := @top_of_primary_nil p maxCheckSequenceVerifyNumberSize
  simp only [opCheckSequenceVerify, hnum, opNop, bind_eq_bind, bind_some] at hnil ⊢
  repeat' split
  all_goals exact ⟨_, rfl, by simp_all⟩

/-- A lock time operation needs the number that it looks at once it is enabled. -/
theorem rearranges_lock {handler : Handler} {enabled : Bool}
    (h : ∀ p, ∃ result, handler p = some (result, p) ∧
      (enabled → p.primary = [] → result ≠ .success)) :
    Rearranges (fun _ => if enabled then 1 else 0) handler := by
  intro p
  obtain ⟨result, hrun, hfails⟩ := h p
  refine ⟨result, p, hrun, .refl p, fun _ hsize => ?_⟩
  cases enabled with
  | false => exact absurd hsize (Nat.not_lt_zero _)
  | true => exact hfails rfl (size_eq_zero_iff.mp (Nat.lt_one_iff.mp hsize))

section

variable {env : Env} {ctx : Context} {op : Operation} {position : Option Nat}

theorem rearranges_opCheckSigVerify : Rearranges (fun _ => 2) (opCheckSigVerify env ctx) := by
  intro p
  by_cases hsize : p.size < 2
  · exact ⟨.opCheckSigVerify1, p, if_pos hsize, .refl p, by simp⟩
  · obtain ⟨_, _, _, primary, _, _, _⟩ := p
    rcases primary with _ | ⟨key, _ | ⟨endorsement, rest⟩⟩
    · exact absurd two_pos hsize
    · exact absurd one_lt_two hsize
    · have hsuffix := (suffix_cons endorsement rest).trans (suffix_cons key _)
      simp only [opCheckSigVerify, hsize, if_false, Program.pop, bind_eq_bind,
        bind_some, withPrimary_primary]
      split <;> exact ⟨_, _, rfl, effect_of_suffix hsuffix, fun _ => False.elim⟩

/-- The result of a check is pushed on what the check has left. -/
theorem effect_pushVerified {verified : ErrorCode} (h : Frame p q) {r : Program}
    (hpush : pushVerified failure (verified, q) = (result, r)) : Frame p r := by
  simp only [pushVerified] at hpush
  split_ifs at hpush
  · cases hpush
    exact h
  · cases hpush
    refine ⟨⟨h.jump, h.operationCount, fun hlimits item hitem => ?_⟩, h.condition⟩
    rcases mem_cons.mp hitem with rfl | hitem
    · exact length_boolData_le _
    · exact h.items hlimits item hitem

/-- A multisig counts its keys, whatever becomes of it; it succeeds within the limit only. -/
theorem opCheckMultisigVerify_leaves (h : opCheckMultisigVerify env ctx p = some (result, q)) :
    (∃ stack, stack <:+ p.primary ∧
      q = (p.countOperations (countedKeys p.primary)).withPrimary stack) ∧
    (result = .success → p.operationCount + countedKeys p.primary ≤ maxCountedOps) := by
  unfold opCheckMultisigVerify at h
  rcases popMultisigOperands_cases p with
    ⟨failure, hfail, stack, hstack, hpop⟩ | ⟨operands, rest, hlayout, hpop⟩
  · rw [hpop] at h
    cases h
    refine ⟨⟨stack, hstack, rfl⟩, ?_⟩
    rintro rfl
    exact absurd hfail (by decide)
  · obtain ⟨stack, hkeys, hops, hends⟩ := multisigLayout_iff.mp hlayout
    have hsuffix : rest <:+ p.primary :=
      (suffix_cons _ rest).trans (hends.suffix.trans hkeys.suffix)
    rw [countedKeys_of_counted hkeys]
    simp only [hpop, bind_eq_bind, bind_some] at h
    refine ⟨⟨rest, hsuffix, ?_⟩, fun _ => hops⟩
    split_ifs at h
    · cases h
      rfl
    · obtain ⟨verified, -, h⟩ := bind_eq_some_iff.mp h
      cases h
      rfl

/-- How many elements the operation takes from the stack, or looks at. The operands of a multisig
have no fixed number; their layout is said by `MultisigLayout`. -/
def needed (ctx : Context) : Opcode → Program → Nat
  | .if_ | .notif | .verify | .toaltstack | .ifdup | .drop | .dup | .size | .add1 | .sub1
  | .negate | .abs | .not_ | .nonzero | .ripemd160 | .sha1 | .sha256 | .hash160 | .hash256 =>
    fun _ => 1
  | .drop2 | .dup2 | .nip | .over_ | .swap | .tuck | .equal | .equalverify | .add | .sub | .booland
  | .boolor | .numequal | .numequalverify | .numnotequal | .lessthan | .greaterthan
  | .lessthanorequal | .greaterthanorequal | .min | .max | .checksig | .checksigverify =>
    fun _ => 2
  | .dup3 | .rot | .within => fun _ => 3
  | .over2 | .swap2 => fun _ => 4
  | .rot2 => fun _ => 6
  | .pick | .roll => positionDepth
  | .checklocktimeverify => fun _ => if isEnabled ctx.forks RuleFork.bip65Rule then 1 else 0
  | .checksequenceverify => fun _ => if isEnabled ctx.forks RuleFork.bip112Rule then 1 else 0
  | _ => fun _ => 0

/-- The operations that push their own data, count keys, jump, or push the result of a signature
check. -/
def isSpecial : Opcode → Bool
  | .pushSize _ | .pushOneSize | .pushTwoSize | .pushFourSize | .codeseparator | .checksig
  | .checkmultisig | .checkmultisigverify => true
  | _ => false

theorem rearranges_runOp (h : (isSpecial op.code || op.code.isConditional) = false) :
    Rearranges (needed ctx op.code) (runOp env ctx op position) := by
  unfold runOp
  revert h
  cases op.code with
  | pushSize | pushOneSize | pushTwoSize | pushFourSize | codeseparator | checksig | checkmultisig
  | checkmultisigverify | if_ | notif | else_ | endif => exact Bool.noConfusion
  | pushNegative1 | pushPositive =>
    refine fun _ => rearranges_zero fun p => ⟨_, _, rfl, ?_⟩
    refine effect_cons_of_suffix suffix_rfl fun _ => ?_
    rw [length_singleton]
    decide
  | verify => exact fun _ => rearranges_opVerify
  | toaltstack => exact fun _ => rearranges_opToAltStack
  | fromaltstack => exact fun _ => rearranges_opFromAltStack
  | drop | dup | drop2 | dup2 | nip | over_ | swap | tuck | dup3 | rot | over2 | swap2 | rot2 =>
    refine fun _ => rearranges_guarded (by simp) fun p stack hsize => ?_
    rcases stack with _ | ⟨_, _ | ⟨_, _ | ⟨_, _ | ⟨_, _ | ⟨_, _ | _⟩⟩⟩⟩⟩ <;>
      first | exact ⟨_, rfl, by simp +contextual⟩ | simp at hsize
  | size =>
    refine fun _ => rearranges_guarded (by simp) fun p stack hsize => ?_
    match stack, hsize with
    | a :: rest, _ =>
      refine ⟨Number.data a.length :: a :: rest, rfl, fun hsmall => ?_⟩
      rw [forall_mem_cons]
      refine ⟨length_data_le_of_natAbs ?_, hsmall⟩
      have ha := hsmall a mem_cons_self
      simp only [maxPushDataSize] at ha
      omega
  | ifdup =>
    refine fun _ => rearranges_guarded (by simp) fun p stack hsize => ?_
    match stack, hsize with
    | a :: rest, _ =>
      simp only [stackTrue_of_primary (p := p.withPrimary (a :: rest)) rfl, bind_eq_bind, bind_some]
      split_ifs
      · exact ⟨a :: a :: rest, rfl, by simp +contextual⟩
      · exact ⟨a :: rest, rfl, id⟩
  | equal =>
    refine fun _ => rearranges_guarded (by simp) fun p stack hsize => ?_
    match stack, hsize with
    | a :: b :: rest, _ =>
      exact ⟨boolData (a == b) :: rest, rfl, by simp +contextual [length_boolData_le]⟩
  | depth => exact fun _ => rearranges_opDepth
  | pick => exact fun _ => rearranges_opPick
  | roll => exact fun _ => rearranges_opRoll
  | equalverify => exact fun _ => rearranges_opEqualVerify
  | numequalverify => exact fun _ => rearranges_opNumEqualVerify
  | within => exact fun _ => rearranges_opWithin
  | add1 | sub1 | negate | abs =>
    refine fun _ => rearranges_unaryNumber (by simp) fun a ha => length_data_le_of_natAbs ?_
    omega
  | not_ | nonzero =>
    exact fun _ => rearranges_unaryNumber (by simp) fun _ _ => length_boolData_le _
  | add | sub | min | max =>
    refine fun _ => rearranges_binaryNumber (by simp) fun a b ha hb => length_data_le_of_natAbs ?_
    omega
  | booland | boolor | numequal | numnotequal | lessthan | greaterthan | lessthanorequal
  | greaterthanorequal =>
    exact fun _ => rearranges_binaryNumber (by simp) fun _ _ _ _ => length_boolData_le _
  | ripemd160 | sha1 | sha256 | hash160 | hash256 =>
    exact fun _ => rearranges_hashTop (by simp) fun data => length_digest_le _ (by decide)
  | checksigverify => exact fun _ => rearranges_opCheckSigVerify
  | checklocktimeverify => exact fun _ => rearranges_lock (opCheckLocktimeVerify_leaves ctx)
  | checksequenceverify => exact fun _ => rearranges_lock (opCheckSequenceVerify_leaves ctx)
  | _ => exact fun _ => rearranges_zero fun p => ⟨_, p, rfl, .refl p⟩

theorem handles_runOp (h : isSpecial op.code = false) :
    Handles (needed ctx op.code) (runOp env ctx op position) := by
  cases hcond : op.code.isConditional with
  | false => exact (rearranges_runOp (by rw [h, hcond]; rfl)).handles
  | true =>
    unfold runOp
    rcases Opcode.eq_of_isConditional hcond with hcode | hcode | hcode | hcode <;> rw [hcode]
    · exact handles_openCondition (by simp)
    · exact handles_openCondition (by simp)
    -- the conditions are changed or found closed
    all_goals
      rintro ⟨_, _, _, _, _, condition, _⟩
      cases condition <;> exact ⟨_, _, rfl, ⟨rfl, rfl, fun h => h.items⟩, fun _ => nofun⟩

/-- The keys that an operation counts besides itself. -/
def operationKeys (code : Opcode) (stack : List DataChunk) : Nat :=
  match code with
  | .checkmultisig | .checkmultisigverify => countedKeys stack
  | _ => 0

/-- A program left behind by an operation, whatever its result. -/
structure RunEffect (code : Opcode) (p q : Program) : Prop where
  jump : code ≠ .codeseparator → q.jump = p.jump
  operationCount : q.operationCount = p.operationCount + operationKeys code p.primary
  items : p.WithinLimits → ∀ item ∈ q.items, item.length ≤ maxPushDataSize

/-- Only the conditional operations touch the conditions. -/
structure RunFrame (code : Opcode) (p q : Program) : Prop extends RunEffect code p q where
  condition : code.isConditional = false → q.condition = p.condition

/-- The keys are counted before the rest of a multisig, which has the effect of any operation. -/
theorem runEffect_of_counted {code : Opcode} {keys : Nat}
    (hcode : operationKeys code p.primary = keys)
    (h : Frame (p.countOperations keys) q) : RunFrame code p q := by
  refine ⟨⟨fun _ => h.jump, ?_, fun hlimits => h.items ⟨hlimits.items, hlimits.size⟩⟩,
    fun _ => h.condition⟩
  rw [hcode]
  exact h.operationCount

theorem opCheckMultisigVerify_effect (h : opCheckMultisigVerify env ctx p = some (result, q)) :
    Frame (p.countOperations (countedKeys p.primary)) q := by
  obtain ⟨⟨stack, hstack, rfl⟩, -⟩ := opCheckMultisigVerify_leaves h
  exact effect_of_suffix hstack

/-- A jump changes the jump register only. -/
theorem setJumpRegister_snd (p : Program) (ops : List Operation) (position : Option Nat)
    (offset : Nat) : ∃ jump, (p.setJumpRegister ops position offset).2 = { p with jump } := by
  unfold setJumpRegister
  split_ifs
  · exact ⟨p.jump, rfl⟩
  · cases position with
    | none => exact ⟨ops.length, rfl⟩
    | some index =>
      dsimp only
      split_ifs
      · exact ⟨index + offset, rfl⟩
      · exact ⟨ops.length, rfl⟩

theorem runEffect_runOp (hoversized : op.data.length ≤ maxPushDataSize)
    (h : runOp env ctx op position p = some (result, q)) : RunFrame op.code p q := by
  cases hspecial : isSpecial op.code with
  | false =>
    have hkeys : operationKeys op.code p.primary = 0 := by
      revert hspecial
      cases op.code with
      | checkmultisig | checkmultisigverify => exact Bool.noConfusion
      | _ => exact fun _ => rfl
    cases hcond : op.code.isConditional with
    | false =>
      exact runEffect_of_counted hkeys ((rearranges_runOp (by rw [hspecial, hcond]; rfl)).frame h)
    | true =>
      obtain ⟨_, _, hrun, heffect, -⟩ := handles_runOp hspecial p
      cases h.symm.trans hrun
      refine ⟨⟨fun _ => heffect.jump, ?_, heffect.items⟩, ?_⟩
      · rw [hkeys]
        exact heffect.operationCount
      · rw [hcond]
        exact Bool.noConfusion
  | true =>
    cases hcode : op.code with
    | pushSize | pushOneSize | pushTwoSize | pushFourSize =>
      simp only [runOp, hcode, opPushSize, opPushData] at h
      split_ifs at h
      · cases h
        exact runEffect_of_counted rfl (.refl p)
      · cases h
        exact runEffect_of_counted rfl (effect_cons_of_suffix suffix_rfl fun _ => hoversized)
    | codeseparator =>
      simp only [runOp, hcode, opCodeseparator] at h
      obtain ⟨jump, hjump⟩ := setJumpRegister_snd p (ctx.operations env) position 1
      rw [hjump] at h
      cases h
      exact ⟨⟨fun hne => absurd rfl hne, rfl, fun hlimits => hlimits.items⟩, fun _ => rfl⟩
    | checksig =>
      simp only [runOp, hcode] at h
      obtain ⟨⟨verified, r⟩, hverify, hpush⟩ := map_eq_some_iff.mp h
      exact runEffect_of_counted rfl
        (effect_pushVerified (rearranges_opCheckSigVerify.frame hverify) hpush)
    | checkmultisig =>
      simp only [runOp, hcode] at h
      obtain ⟨⟨verified, r⟩, hverify, hpush⟩ := map_eq_some_iff.mp h
      exact runEffect_of_counted rfl
        (effect_pushVerified (opCheckMultisigVerify_effect hverify) hpush)
    | checkmultisigverify =>
      simp only [runOp, hcode] at h
      exact runEffect_of_counted rfl (opCheckMultisigVerify_effect h)
    | _ =>
      rw [hcode] at hspecial
      cases hspecial

/-- The operation is run, and not skipped in a branch that is not taken. -/
def Executes (p : Program) (op : Operation) : Prop := p.if_ op = true

instance (p : Program) (op : Operation) : Decidable (Executes p op) :=
  inferInstanceAs (Decidable (p.if_ op = true))

theorem incrementOperationCount_if (p : Program) (op other : Operation) :
    (p.incrementOperationCount op).2.if_ other = p.if_ other := by
  simp only [if_, incrementOperationCount_succeeded]

/-- A turn that goes on has counted the operation within the limit, and has run it unless it is
skipped. -/
theorem step_next_cases {index : Nat} (h : step env ctx (op, index) p = some (.next q)) :
    op.data.length ≤ maxPushDataSize ∧
      (p.incrementOperationCount op).2.operationCount ≤ maxCountedOps ∧
      ((Executes p op ∧ runOp env ctx op (some index) (p.incrementOperationCount op).2 =
          some (.success, q) ∧ q.items.length ≤ maxStackSize) ∨
        ¬ Executes p op ∧ q = (p.incrementOperationCount op).2) := by
  obtain ⟨hsize, -, hcounted, hrun⟩ := step_eq_next_iff.mp h
  refine ⟨by simpa [Operation.isOversized] using hsize, ?_, ?_⟩
  · simpa [incrementOperationCount, operationOverflow] using hcounted
  · rw [incrementOperationCount_if] at hrun
    split_ifs at hrun with hexec
    · refine .inl ⟨hexec, hrun.1, ?_⟩
      simpa [isStackOverflow, items, Program.size] using hrun.2
    · exact .inr ⟨hexec, hrun⟩

/-- Whether a turn goes on or stops, only a code separator that is run moves the jump register. -/
theorem jump_of_step {index : Nat} {signal : Signal Program ErrorCode}
    (h : step env ctx (op, index) p = some signal)
    (hsep : op.code = .codeseparator → ¬ Executes p op) : signal.state.jump = p.jump := by
  have hjump : (p.incrementOperationCount op).2.jump = p.jump := by
    simp only [incrementOperationCount]
    split_ifs <;> rfl
  simp only [step, Operation.isOversized] at h
  split_ifs at h with hsize hdisabled hcounted hif
  · cases h
    rfl
  · cases h
    rfl
  · cases h
    exact hjump
  · rw [incrementOperationCount_if] at hif
    have hne : op.code ≠ .codeseparator := fun hcode => hsep hcode hif
    simp only [bind_eq_bind, bind_eq_some_iff] at h
    obtain ⟨⟨result, q⟩, hrun, h⟩ := h
    have hoversized : op.data.length ≤ maxPushDataSize := by simpa using hsize
    have heffect := (runEffect_runOp hoversized hrun).jump hne
    have hstate : signal.state = q := by
      dsimp only at h
      split_ifs at h <;>
      · cases h
        rfl
    rw [hstate, heffect, hjump]
  · cases h
    exact hjump

end

end Interpreter

end BitprimCore
