import BitprimCore.Chain.TransactionRules
import BitprimCore.Machine.Signature

/-!
# Lock times

A script can ask for an absolute or a relative lock time, and the rules of blocks enforce the lock
times of transactions. The two meet in the transaction: the script operation compares its operand
with the lock time of the transaction or with the sequence of the input, and these are what the
block rules test.
-/

namespace BitprimCore

open Interpreter Option RuleFork

/-- A spend, under the forks of the two operations, of an output found at height 100 and time
1000. -/
def spendContext (locktime sequence : UInt32) : Context where
  script := {}
  transaction := {
    version := 2
    locktime
    inputs := [{
      previousOutput := {
        hash := nullHash, index := 0, validation := { height := 100, medianTimePast := 1000 } }
      sequence }]
    outputs := [] }
  inputIndex := 0
  forks := bip65Rule ||| bip112Rule
  value := 0
  version := .unversioned

section

/-- What a successful `op_check_locktime_verify` has compared. -/
structure Interpreter.LocktimeVerified (ctx : Context) (input : Input) (locktime : Int) : Prop where
  notFinal : input.isFinal = false
  nonneg : 0 ≤ locktime
  sameKind : locktime.toNat < locktimeThreshold ↔ ctx.transaction.locktime.toNat < locktimeThreshold
  le : locktime.toNat ≤ ctx.transaction.locktime.toNat

theorem Interpreter.locktimeVerified_of_success {ctx : Context} {p p' : Program}
    {locktime : Int} (hfork : isEnabled ctx.forks bip65Rule)
    (htop : p.top maxCheckLocktimeVerifyNumberSize = some (some locktime))
    (h : opCheckLocktimeVerify ctx p = some (.success, p')) :
    p' = p ∧ ∃ input ∈ ctx.transaction.inputs, LocktimeVerified ctx input locktime := by
  cases hinput : ctx.transaction.inputs[ctx.inputIndex.toNat]? with
  | none => simp [opCheckLocktimeVerify, hfork, hinput] at h
  | some input =>
    simp only [opCheckLocktimeVerify, hfork, hinput, htop, Bool.not_true, Bool.false_eq_true,
      if_false, bind_eq_bind, bind_some, pure_def] at h
    -- every branch but the last one returns another code
    split_ifs at h with hfinal hneg hkind hless <;>
      simp only [Option.some.injEq, Prod.mk.injEq, reduceCtorEq, false_and] at h
    refine ⟨h.2.symm, input, List.mem_of_getElem? hinput, ?_⟩
    exact {
      notFinal := Bool.eq_false_iff.mpr hfinal
      nonneg := Int.not_lt.mp hneg
      sameKind := by simpa using hkind
      le := not_lt.mp hless }

/-- A transaction with an input that is not final is final by its lock time only. -/
theorem Transaction.locktime_lt_of_isFinal {tx : Transaction} {input : Input} {height : Nat}
    {time : UInt32} (hmem : input ∈ tx.inputs) (hinput : input.isFinal = false)
    (hheight : height < 2 ^ 32) (h : tx.isFinal height time = some true) :
    tx.locktime = 0 ∨
      tx.locktime.toNat < if tx.locktime.toNat < locktimeThreshold then height else time.toNat := by
  have hinputs : tx.allInputsFinal = false := by
    rw [allInputsFinal, List.all_eq_false]
    exact ⟨input, hmem, by simp [hinput]⟩
  by_cases hzero : tx.locktime = 0
  · exact .inl hzero
  · right
    have hsafe : safeUnsigned32 height = some (UInt32.ofNat height) := by
      rw [safeUnsigned32, maxUint32, if_neg (by omega)]
    rw [isFinal, if_neg hzero, hsafe, hinputs] at h
    split_ifs at h ⊢
    · have hlt : tx.locktime.toNat < height % 2 ^ 32 := by
        simpa [UInt32.lt_iff_toNat_lt] using h
      rwa [Nat.mod_eq_of_lt hheight] at hlt
    · simpa [UInt32.lt_iff_toNat_lt] using h

/-- A script that has checked an absolute lock time is only spent behind it. -/
theorem opCheckLocktimeVerify_honoured {ctx : Context} {p p' : Program} {locktime : Int}
    {height : Nat} {time : UInt32} (hfork : isEnabled ctx.forks bip65Rule = true)
    (htop : p.top maxCheckLocktimeVerifyNumberSize = some (some locktime))
    (hverify : opCheckLocktimeVerify ctx p = some (.success, p'))
    (hheight : height < 2 ^ 32) (hfinal : ctx.transaction.isFinal height time = some true) :
    (locktime = 0 ∨
      locktime < if locktime < locktimeThreshold then (height : Int) else time.toNat) ∧
      p' = p := by
  obtain ⟨hprogram, input, hmem, hverified⟩ := locktimeVerified_of_success hfork htop hverify
  refine ⟨?_, hprogram⟩
  obtain ⟨value, rfl⟩ := Int.eq_ofNat_of_zero_le hverified.nonneg
  have hkind : value < locktimeThreshold ↔ ctx.transaction.locktime.toNat < locktimeThreshold :=
    hverified.sameKind
  have hle : value ≤ ctx.transaction.locktime.toNat := hverified.le
  obtain hzero | hlocktime :=
    Transaction.locktime_lt_of_isFinal hmem hverified.notFinal hheight hfinal
  · rw [hzero] at hle
    exact .inl (by simpa using hle)
  · right
    rw [← if_congr hkind rfl rfl] at hlocktime
    simp only [Nat.cast_lt]
    split_ifs at hlocktime ⊢ <;> omega

/-- The lock time 120 is passed at height 151. -/
theorem opCheckLocktimeVerify_honoured_spend :
    ((120 : Int) = 0 ∨
      (120 : Int) < if (120 : Int) < locktimeThreshold then ((151 : Nat) : Int)
        else (2000 : UInt32).toNat) ∧
      Program.ofStack [[120, 0]] = .ofStack [[120, 0]] := by
  have hverify : opCheckLocktimeVerify (spendContext 150 0) (.ofStack [[120, 0]]) =
      some (.success, .ofStack [[120, 0]]) := by decide
  exact opCheckLocktimeVerify_honoured (by decide) (by decide) hverify (by decide) (by decide)

end

section

/-- What a successful `op_check_sequence_verify` has compared, when its operand is enabled. -/
structure Interpreter.SequenceVerified (ctx : Context) (input : Input) (sequence : Nat) : Prop where
  version : relativeLocktimeMinVersion ≤ ctx.transaction.version.toNat
  enabled : input.sequence.toNat &&& relativeLocktimeDisabled = 0
  sameKind : sequence &&& relativeLocktimeTimeLocked =
    input.sequence.toNat &&& relativeLocktimeTimeLocked
  le : sequence &&& relativeLocktimeMask ≤ input.sequence.toNat &&& relativeLocktimeMask

theorem Interpreter.sequenceVerified_of_success {ctx : Context} {p p' : Program}
    {input : Input} {sequence : Int} (hfork : isEnabled ctx.forks bip112Rule)
    (hinput : ctx.transaction.inputs[ctx.inputIndex.toNat]? = some input)
    (htop : p.top maxCheckSequenceVerifyNumberSize = some (some sequence))
    (henabled : sequence.toNat &&& relativeLocktimeDisabled = 0)
    (h : opCheckSequenceVerify ctx p = some (.success, p')) :
    SequenceVerified ctx input sequence.toNat := by
  simp only [opCheckSequenceVerify, hfork, hinput, htop, henabled, Bool.not_true,
    Bool.false_eq_true, if_false, ne_eq, not_true_eq_false, bind_eq_bind, bind_some, pure_def] at h
  split_ifs at h with hneg hver hdisabled hkind hless <;>
    simp only [Option.some.injEq, Prod.mk.injEq, reduceCtorEq, false_and] at h
  exact {
    version := not_lt.mp hver
    enabled := hdisabled
    sameKind := hkind
    le := not_lt.mp hless }

/-- The age that the sequence of an input asks for, in blocks or in seconds. -/
theorem Input.age_of_not_isLocked {input : Input} {height : Nat} {time : UInt32}
    (henabled : input.sequence.toNat &&& relativeLocktimeDisabled = 0)
    (h : input.isLocked height time = false)
    (hheight : input.previousOutput.validation.height ≤ height)
    (htime : input.previousOutput.validation.medianTimePast ≤ time) :
    if input.sequence.toNat &&& relativeLocktimeTimeLocked = 0 then
      input.sequence.toNat &&& relativeLocktimeMask ≤
        height - input.previousOutput.validation.height
    else (input.sequence.toNat &&& relativeLocktimeMask) * 512 ≤
      time.toNat - input.previousOutput.validation.medianTimePast.toNat := by
  have hbits : ∀ flag : Nat, flag < 2 ^ 32 →
      (input.sequence &&& UInt32.ofNat flag).toNat = input.sequence.toNat &&& flag := by
    intro flag hflag
    rw [UInt32.toNat_and, UInt32.toNat_ofNat_of_lt' hflag]
  have hmask : input.sequence.toNat &&& relativeLocktimeMask < 2 ^ 16 :=
    Nat.and_lt_two_pow _ (by decide)
  have htimeLocked : (input.sequence &&& UInt32.ofNat relativeLocktimeTimeLocked) = 0 ↔
      input.sequence.toNat &&& relativeLocktimeTimeLocked = 0 := by
    rw [← UInt32.toNat_inj, hbits _ (by decide)]
    rfl
  have hdisabled : (input.sequence &&& UInt32.ofNat relativeLocktimeDisabled) = 0 := by
    rw [← UInt32.toNat_inj, hbits _ (by decide), henabled]
    rfl
  simp only [isLocked, hdisabled, bne_self_eq_false, Bool.false_eq_true, if_false, bne_iff_ne,
    ne_eq, htimeLocked, ite_not] at h
  split_ifs at h ⊢ with hkind
  · -- the difference of heights in 64 bits is at most the true one
    rw [decide_eq_false_iff_not, not_lt, hbits _ (by decide)] at h
    omega
  · rw [decide_eq_false_iff_not, UInt32.lt_iff_toNat_lt, not_lt, UInt32.toNat_sub_of_le _ _ htime,
      UInt32.toNat_shiftLeft, hbits _ (by decide)] at h
    have hshift : (UInt32.ofNat relativeLocktimeSecondsShift).toNat % 32 = 9 := by decide
    rw [hshift, Nat.shiftLeft_eq] at h
    omega

/-- A script that has checked a relative lock time is only spent when the output is of that age. -/
theorem opCheckSequenceVerify_honoured {ctx : Context} {p p' : Program} {input : Input}
    {sequence : Int} {height : Nat} {time : UInt32}
    (hfork : isEnabled ctx.forks bip112Rule = true)
    (hcoinbase : ctx.transaction.isCoinbase = false)
    (hinput : ctx.transaction.inputs[ctx.inputIndex.toNat]? = some input)
    (htop : p.top maxCheckSequenceVerifyNumberSize = some (some sequence))
    (hverify : opCheckSequenceVerify ctx p = some (.success, p'))
    (henabled : sequence.toNat &&& relativeLocktimeDisabled = 0)
    (hunlocked : ctx.transaction.isLocked height time = false)
    (hheight : input.previousOutput.validation.height ≤ height)
    (htime : input.previousOutput.validation.medianTimePast ≤ time) :
    if sequence.toNat &&& relativeLocktimeTimeLocked = 0 then
      sequence.toNat % 2 ^ 16 ≤ height - input.previousOutput.validation.height
    else (sequence.toNat % 2 ^ 16) * 512 ≤
      time.toNat - input.previousOutput.validation.medianTimePast.toNat := by
  have hverified := sequenceVerified_of_success hfork hinput htop henabled hverify
  have hlocked : input.isLocked height time = false := by
    have hversion := not_lt.mpr hverified.version
    simp only [Transaction.isLocked, hversion, hcoinbase, decide_false, Bool.or_self,
      Bool.false_eq_true, if_false, List.any_eq_false, Bool.not_eq_true] at hunlocked
    exact hunlocked input (List.mem_of_getElem? hinput)
  have hage := Input.age_of_not_isLocked hverified.enabled hlocked hheight htime
  have hmask : sequence.toNat % 2 ^ 16 ≤ input.sequence.toNat &&& relativeLocktimeMask := by
    rw [← Nat.and_two_pow_sub_one_eq_mod]
    exact hverified.le
  rw [hverified.sameKind]
  split_ifs at hage ⊢
  · exact hmask.trans hage
  · exact (Nat.mul_le_mul_right 512 hmask).trans hage

/-- The relative lock time of 10 blocks is passed 20 blocks behind the output. -/
theorem opCheckSequenceVerify_honoured_spend :
    if (10 : Int).toNat &&& relativeLocktimeTimeLocked = 0 then (10 : Int).toNat % 2 ^ 16 ≤ 120 - 100
    else ((10 : Int).toNat % 2 ^ 16) * 512 ≤ (2000 : UInt32).toNat - (1000 : UInt32).toNat := by
  have hverify : opCheckSequenceVerify (spendContext 0 15) (.ofStack [[10]]) =
      some (.success, .ofStack [[10]]) := by decide
  have htop : (Program.ofStack [[10]]).top maxCheckSequenceVerifyNumberSize = some (some 10) := by
    decide
  have hunlocked : (spendContext 0 15).transaction.isLocked 120 2000 = false := by decide
  exact opCheckSequenceVerify_honoured (by decide) (by decide) rfl htop hverify (by decide)
    hunlocked (by decide) (by decide)

end

end BitprimCore
