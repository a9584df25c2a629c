import BitprimCore.Machine.Operands

/-!
# Evaluation under more rules

Two evaluations of one script that differ in the active forks. Rules that are added make operations
fail; where they do not, the operation leaves the same program, so an evaluation that succeeds under
more rules succeeds under fewer. The exception is the dummy element of a multisig, which is pushed
as false under bip147.
-/

namespace BitprimCore

open Execution Option RuleFork

/-- The same registers under other forks. -/
def Context.withForks (ctx : Context) (forks : UInt32) : Context := { ctx with forks }

section

variable (ctx : Context) (forks : UInt32)

@[simp] theorem Context.withForks_forks : (ctx.withForks forks).forks = forks := rfl

@[simp] theorem Context.withForks_version : (ctx.withForks forks).version = ctx.version := rfl

@[simp] theorem Context.withForks_script : (ctx.withForks forks).script = ctx.script := rfl

@[simp] theorem Context.withForks_transaction :
    (ctx.withForks forks).transaction = ctx.transaction := rfl

@[simp] theorem Context.withForks_inputIndex : (ctx.withForks forks).inputIndex = ctx.inputIndex :=
    rfl

@[simp] theorem Context.withForks_operations (env : Env) :
    (ctx.withForks forks).operations env = ctx.operations env := rfl

end

/-- The lax signature parser agrees with the strict one on what that accepts. -/
def Env.LaxExtendsStrict (env : Env) : Prop :=
  ∀ der signature, env.parseDer true der = some signature → env.parseDer false der = some signature

namespace Interpreter

open Program

variable {verified : ErrorCode}

/-- The second forks hold every rule of the first that makes an operation fail. For a witness
script they hold the signature hash rule exactly when the first do. -/
structure Restricts (version : ScriptVersion) (forks forks' : UInt32) : Prop where
  bip65 : isEnabled forks bip65Rule = true → isEnabled forks' bip65Rule = true
  bip66 : isEnabled forks bip66Rule = true → isEnabled forks' bip66Rule = true
  bip112 : isEnabled forks bip112Rule = true → isEnabled forks' bip112Rule = true
  bip147 : isEnabled forks bip147Rule = true → isEnabled forks' bip147Rule = true
  bip143 : version = .unversioned ∨ isEnabled forks' bip143Rule = isEnabled forks bip143Rule

variable {env : Env} {ctx : Context} {forks forks' : UInt32} {p q : Program}

theorem scriptCode_withForks (h : Restricts ctx.version forks forks')
    (endorsements : List DataChunk) :
    scriptCode env (ctx.withForks forks) p endorsements =
      scriptCode env (ctx.withForks forks') p endorsements := by
  rcases h.bip143 with hver | hforks
  · simp [scriptCode, hver]
  · simp [scriptCode, hforks]

/-- What the strict parser accepts is parsed alike under fewer rules. -/
theorem parseSignature_withForks (hlax : env.LaxExtendsStrict) {der : DataChunk}
    {strict strict' : Bool} (h : strict → strict')
    (hparse : strict' → env.parseSignature der strict' ≠ none) :
    env.parseSignature der strict = env.parseSignature der strict' := by
  cases strict' with
  | false =>
    cases strict with
    | false => rfl
    | true => exact absurd (h rfl) (by simp)
  | true =>
    cases strict with
    | true => rfl
    | false =>
      obtain ⟨signature, hsig⟩ := ne_none_iff_exists'.mp (hparse rfl)
      rw [hsig]
      unfold Env.parseSignature at hsig ⊢
      split_ifs at hsig ⊢
      exact hlax der signature hsig

/-- A check that does not fail for its encoding is the same under fewer rules. -/
theorem endorsementCheck_withForks (hlax : env.LaxExtendsStrict)
    (h : Restricts ctx.version forks forks') {code : Script} {endorsement : DataChunk}
    (hcheck : endorsementCheck env (ctx.withForks forks') code endorsement ≠
      .error .invalidSignatureLaxEncoding) :
    endorsementCheck env (ctx.withForks forks) code endorsement =
      endorsementCheck env (ctx.withForks forks') code endorsement := by
  have hver :
      (if isEnabled (ctx.withForks forks).forks bip143Rule then ctx.version
        else .unversioned) =
      if isEnabled (ctx.withForks forks').forks bip143Rule then ctx.version
        else .unversioned := by
    rcases h.bip143 with hver | hforks
    · simp [hver]
    · rw [Context.withForks_forks, Context.withForks_forks, hforks]
  have hbip66 := h.bip66
  unfold endorsementCheck at hcheck ⊢
  cases hend : parseEndorsement endorsement with
  | none => rfl
  | some pair =>
    obtain ⟨sighash, der⟩ := pair
    simp only [hend, Context.withForks_version] at hcheck ⊢
    rw [← Context.withForks_forks ctx forks, ← Context.withForks_forks ctx forks'] at hbip66
    rw [hver]
    generalize isEnabled (ctx.withForks forks).forks bip66Rule = strict at *
    generalize isEnabled (ctx.withForks forks').forks bip66Rule = strict' at *
    have hparse : strict' → env.parseSignature der strict' ≠ none := by
      rintro rfl hnone
      exact hcheck (by simp [hnone])
    rw [parseSignature_withForks hlax hbip66 hparse]
    cases hsig : env.parseSignature der strict' with
    | some signature => rfl
    | none =>
      -- neither parser was strict
      have hstrict' : strict' ≠ true := fun hstrict' => hparse hstrict' hsig
      have hstrict : strict ≠ true := fun hstrict => hstrict' (hbip66 hstrict)
      simp [hstrict, hstrict']

theorem opCheckSigVerify_withForks (hlax : env.LaxExtendsStrict)
    (h : Restricts ctx.version forks forks')
    (hrun : opCheckSigVerify env (ctx.withForks forks') p = some (verified, q))
    (hverified : verified ≠ .invalidSignatureLaxEncoding) :
    opCheckSigVerify env (ctx.withForks forks) p = some (verified, q) := by
  rw [← hrun]
  unfold opCheckSigVerify at hrun ⊢
  split_ifs at hrun ⊢
  · rfl
  cases hkey : p.pop with
  | none => rfl
  | some key =>
    cases hend : key.2.pop with
    | none => simp [hend]
    | some endorsement =>
      simp only [hkey, hend, bind_eq_bind, bind_some] at hrun ⊢
      rw [scriptCode_withForks h, endorsementCheck_withForks hlax h]
      intro hcheck
      rw [hcheck] at hrun
      cases hrun
      exact hverified rfl

/-- The loops give the same result with checks that only differ where the encoding fails. -/
theorem verifyEndorsements_withForks
    {check check' : DataChunk → Except ErrorCode (DataChunk → Bool)}
    (hcheck : ∀ e, check' e ≠ .error .invalidSignatureLaxEncoding → check e = check' e)
    {endorsements publicKeys : List DataChunk}
    (h : verifyEndorsements check' endorsements publicKeys = some verified)
    (hverified : verified ≠ .invalidSignatureLaxEncoding) :
    verifyEndorsements check endorsements publicKeys = some verified := by
  induction endorsements generalizing publicKeys with
  | nil => exact h
  | cons endorsement endorsements ih =>
    rw [verifyEndorsements] at h ⊢
    have hne : check' endorsement ≠ .error .invalidSignatureLaxEncoding := by
      intro hcheck'
      rw [hcheck'] at h
      cases h
      exact hverified rfl
    rw [hcheck endorsement hne]
    cases hcheck' : check' endorsement with
    | error failure => simpa [hcheck'] using h
    | ok signed =>
      simp only [hcheck', bind_eq_bind] at h ⊢
      cases hfind : findPublicKey signed publicKeys with
      | none => simp [hfind] at h
      | some found =>
        rw [hfind] at h
        cases found with
        | none => exact h
        | some keys => exact ih h

/-- A multisig of which the dummy passes, or is rejected under the fewer rules too, gives the same
result unless an encoding fails. -/
theorem opCheckMultisigVerify_withForks (hlax : env.LaxExtendsStrict)
    (h : Restricts ctx.version forks forks')
    (hdummy : ∀ operands rest, MultisigLayout p operands rest →
      isEnabled forks' bip147Rule = isEnabled forks bip147Rule ∨
        DummyPasses (ctx.withForks forks') operands)
    (hrun : opCheckMultisigVerify env (ctx.withForks forks') p = some (verified, q))
    (hverified : verified ≠ .invalidSignatureLaxEncoding) :
    opCheckMultisigVerify env (ctx.withForks forks) p = some (verified, q) := by
  rcases popMultisigOperands_cases p with ⟨_, _, _, _, hfail⟩ | ⟨operands, rest, hlayout, htake⟩
  · rw [opCheckMultisigVerify_of_failure hfail] at hrun ⊢
    exact hrun
  · by_cases hpasses' : DummyPasses (ctx.withForks forks') operands
    · have hpasses : DummyPasses (ctx.withForks forks) operands := by
        rcases hpasses' with hempty | hforks'
        · exact .inl hempty
        · refine .inr (Bool.eq_false_iff.mpr fun hforks => ?_)
          exact Bool.eq_false_iff.mp hforks' (h.bip147 hforks)
      simp only [opCheckMultisigVerify, htake, bind_eq_bind, bind_some,
        if_neg (dummy_not_rejected hpasses'), if_neg (dummy_not_rejected hpasses),
        bind_eq_some_iff, pure_def, Option.some.injEq, Prod.mk.injEq] at hrun ⊢
      obtain ⟨result, hres, rfl, rfl⟩ := hrun
      rw [scriptCode_withForks h]
      exact ⟨result, verifyEndorsements_withForks
        (fun e he => endorsementCheck_withForks hlax h he) hres hverified, rfl, rfl⟩
    · have hforks := (hdummy operands rest hlayout).resolve_right hpasses'
      have hpasses : ¬ DummyPasses (ctx.withForks forks) operands := by
        simpa [DummyPasses, hforks] using hpasses'
      rw [opCheckMultisigVerify_of_dummy env htake hpasses'] at hrun
      rw [opCheckMultisigVerify_of_dummy env htake hpasses, hrun]

/-- An operation that succeeds has not pushed the result of a failed encoding. -/
theorem pushVerified_eq_success {failure : ErrorCode} (hfail : failure ≠ .success)
    {outcome : Outcome} (h : outcome.map (pushVerified failure) = some (.success, q)) :
    ∃ verified r, outcome = some (verified, r) ∧ verified ≠ .invalidSignatureLaxEncoding ∧
      pushVerified failure (verified, r) = (.success, q) := by
  obtain ⟨⟨verified, r⟩, houtcome, hpush⟩ := map_eq_some_iff.mp h
  refine ⟨verified, r, houtcome, ?_, hpush⟩
  rintro rfl
  exact hfail (by simpa [pushVerified] using congrArg Prod.fst hpush)

/-- The dummy element of every multisig the program can take is empty, or bip147 decides alike under
both forks. -/
def DummiesAgree (forks forks' : UInt32) (p : Program) : Prop :=
  isEnabled forks' bip147Rule = isEnabled forks bip147Rule ∨
    ∀ operands rest, MultisigLayout p operands rest → operands.dummy = []

/-- An operation that succeeds under more rules leaves the same program under fewer. -/
theorem runOp_withForks (hlax : env.LaxExtendsStrict) (h : Restricts ctx.version forks forks')
    {op : Operation} {position : Option Nat}
    (hdummy : op.code = .checkmultisig → DummiesAgree forks forks' p)
    (hrun : runOp env (ctx.withForks forks') op position p = some (.success, q)) :
    runOp env (ctx.withForks forks) op position p = some (.success, q) := by
  unfold runOp at hrun ⊢
  revert hrun hdummy
  cases op.code with
  | checksig =>
    intro _ hrun
    obtain ⟨verified, r, hverify, hne, hpush⟩ := pushVerified_eq_success (by simp) hrun
    simp only [opCheckSig, opCheckSigVerify_withForks hlax h hverify hne, map_some, hpush]
  | checksigverify =>
    intro _ hrun
    exact opCheckSigVerify_withForks hlax h hrun (by simp)
  | checkmultisig =>
    intro hdummy hrun
    obtain ⟨verified, r, hverify, hne, hpush⟩ := pushVerified_eq_success (by simp) hrun
    have hagree : ∀ operands rest, MultisigLayout p operands rest →
        isEnabled forks' bip147Rule = isEnabled forks bip147Rule ∨
          DummyPasses (ctx.withForks forks') operands := by
      intro operands rest hlayout
      exact (hdummy rfl).imp_right fun hempty => .inl (hempty operands rest hlayout)
    simp only [opCheckMultisig, opCheckMultisigVerify_withForks hlax h hagree hverify hne,
      map_some, hpush]
  | checkmultisigverify =>
    intro _ hrun
    refine opCheckMultisigVerify_withForks hlax h (fun operands rest hlayout => ?_) hrun (by simp)
    -- a dummy that is rejected fails the operation
    by_contra hnot
    have htake := popMultisigOperands_of_layout hlayout
    have hrejected := opCheckMultisigVerify_of_dummy env htake fun hpasses =>
      hnot (.inr hpasses)
    exact absurd (hrun.symm.trans hrejected) (by simp)
  | checklocktimeverify =>
    intro _ hrun
    obtain ⟨result, hleaves, -⟩ := opCheckLocktimeVerify_leaves (ctx.withForks forks') p
    cases hleaves.symm.trans hrun
    cases hforks : isEnabled forks bip65Rule with
    | false => simp [opCheckLocktimeVerify, hforks, opNop]
    | true =>
      unfold opCheckLocktimeVerify at hrun ⊢
      rw [if_neg (by simp [h.bip65 hforks])] at hrun
      rw [if_neg (by simp [hforks])]
      exact hrun
  | checksequenceverify =>
    intro _ hrun
    obtain ⟨result, hleaves, -⟩ := opCheckSequenceVerify_leaves (ctx.withForks forks') p
    cases hleaves.symm.trans hrun
    cases hforks : isEnabled forks bip112Rule with
    | false => simp [opCheckSequenceVerify, hforks, opNop]
    | true =>
      unfold opCheckSequenceVerify at hrun ⊢
      rw [if_neg (by simp [h.bip112 hforks])] at hrun
      rw [if_neg (by simp [hforks])]
      exact hrun
  | _ => exact fun _ hrun => hrun

/-- A step that goes on under more rules goes on alike under fewer. -/
theorem step_withForks (hlax : env.LaxExtendsStrict) (h : Restricts ctx.version forks forks')
    {op : Operation} {index : Nat}
    (hdummy : op.code = .checkmultisig → (p.incrementOperationCount op).2.if_ op →
      DummiesAgree forks forks' (p.incrementOperationCount op).2)
    (hstep : step env (ctx.withForks forks') (op, index) p = some (.next q)) :
    step env (ctx.withForks forks) (op, index) p = some (.next q) := by
  obtain ⟨hsize, hdisabled, hcounted, hrun⟩ := step_eq_next_iff.mp hstep
  refine step_eq_next_iff.mpr ⟨hsize, hdisabled, hcounted, ?_⟩
  split_ifs at hrun ⊢ with hif
  · exact ⟨runOp_withForks hlax h (fun hop => hdummy hop hif) hrun.1, hrun.2⟩
  · exact hrun

/-- No `checkmultisig` that the run executes takes a dummy element that is not empty. -/
def NullDummies (env : Env) (ctx : Context) (p : Program) : Prop :=
  ∀ op index state, Visits (step env ctx) (ctx.operations env).zipIdx p (op, index) state →
    op.code = .checkmultisig → (state.incrementOperationCount op).2.if_ op = true →
      ∀ operands rest, MultisigLayout (state.incrementOperationCount op).2 operands rest →
        operands.dummy = []

/-- The dummy element that a `checkmultisig` takes from the stack, if it gets so far, is empty. -/
def nullDummy (op : Operation) (state : Program) : Bool :=
  op.code != .checkmultisig ||
    match popMultisigOperands (state.incrementOperationCount op).2 with
    | some (.ok operands, _) => operands.dummy.isEmpty
    | _ => true

theorem nullDummies_of_visits
    (h : ∀ visit ∈ visits (step env ctx) (ctx.operations env).zipIdx p,
      nullDummy visit.1.1 visit.2) : NullDummies env ctx p := by
  intro op index state hvisits hop _ operands rest hlayout
  have hnull := h _ hvisits.mem_visits
  simp only [nullDummy, hop, popMultisigOperands_of_layout hlayout] at hnull
  simpa using hnull

/-- A run that succeeds under more rules succeeds under fewer and leaves the same program. -/
theorem run_withForks (ctx : Context) (hlax : env.LaxExtendsStrict)
    (h : Restricts ctx.version forks forks')
    (hdummies : isEnabled forks' bip147Rule = isEnabled forks bip147Rule ∨
      NullDummies env (ctx.withForks forks') p)
    (hrun : run env (ctx.withForks forks') p = some (.success, q)) :
    run env (ctx.withForks forks) p = some (.success, q) := by
  obtain ⟨hvalid, hloop, hclosed⟩ := run_eq_success_iff.mp hrun
  refine run_eq_success_iff.mpr ⟨hvalid, ?_, hclosed⟩
  refine loop_eq_next_of_visits (fun item state hvisits state' hstep => ?_) hloop
  obtain ⟨op, index⟩ := item
  refine step_withForks hlax h (fun hop hif => ?_) hstep
  exact hdummies.imp_right fun hnull => hnull op index state hvisits hop hif

end Interpreter

end BitprimCore
