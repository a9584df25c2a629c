import BitprimCore.Chain.Endorsement
import BitprimCore.Chain.ScriptTemplate
import BitprimCore.Chain.SoftFork

/-!
# Spending an output that pays to a key hash

The runs of `script::verify` over an input script of two pushes, an endorsement and a key, and a
previous output script that pays to the hash of the key. With the right key the verification comes
down to the check of the one signature, over the output script without the endorsement.
-/

namespace BitprimCore

open Execution Interpreter List Operation Script

variable {data endorsement key : DataChunk} {signed : DataChunk → Bool}

/-- Hash the key as `bitcoin_short_hash` does. -/
def Hashes.bitcoinShortHash (hashes : Hashes) (data : DataChunk) : ShortHash :=
  hashes.ripemd160Hash (hashes.sha256Hash data).val

namespace Script

/-- The script that pays to a key hash. -/
def payKeyHash (hash : ShortHash) : Script := ofOperations (toPayKeyHashPattern hash.val)

/-- The script that pushes an endorsement, then a key. -/
def spendKeyHash (endorsement key : DataChunk) : Script :=
  ofOperations [{ code := nominalOpcodeFromData endorsement, data := endorsement },
    { code := nominalOpcodeFromData key, data := key }]

theorem nominalOpcode_of_le (h : data.length ≤ 75) :
    nominalOpcodeFromData data = .pushSize ⟨data.length, by omega⟩ := by
  simp [nominalOpcodeFromData, opcodeFromSize, h]

theorem ofUncoded_shortHash (hash : ShortHash) :
    ofUncoded hash.val true = { code := .pushSize 20, data := hash.val } := by
  obtain ⟨bytes, hlen⟩ := hash
  have hcode : minimalOpcodeFromData bytes = .pushSize 20 := by
    match bytes, hlen with
    | first :: second :: rest, hlen =>
      simp [minimalOpcodeFromData, opcodeFromSize, hlen]
  have hfits : ¬ bytes.length > maxPushDataSize := by
    rw [hlen]
    decide
  rw [ofUncoded, if_neg hfits]
  simp only [opcodeFromData, if_true, hcode]
  rfl

section

variable {currency : Currency}

theorem readable_pushSize (h : data.length ≤ 75) :
    Readable currency { code := .pushSize ⟨data.length, by omega⟩, data } :=
  ⟨⟨rfl, rfl⟩, le_getMaxBlockSize currency (by simp only; omega)⟩

theorem readable_payKeyHash (hash : ShortHash) :
    ∀ op ∈ toPayKeyHashPattern hash.val, Readable currency op := by
  have hempty : ∀ code : Opcode, Operation.WellFormed { code } → Readable currency { code } :=
    fun code hcode => ⟨hcode, Nat.zero_le _⟩
  have hpush : Readable currency { code := .pushSize 20, data := hash.val } := by
    refine ⟨⟨rfl, hash.2⟩, le_getMaxBlockSize currency ?_⟩
    simp only [hash.2]
    decide
  simp only [toPayKeyHashPattern, ofUncoded_shortHash, forall_mem_cons, not_mem_nil,
    false_implies, implies_true, and_true]
  exact ⟨hempty _ ⟨rfl, rfl⟩, hempty _ ⟨rfl, rfl⟩, hpush, hempty _ ⟨rfl, rfl⟩, hempty _ ⟨rfl, rfl⟩⟩

theorem operations_payKeyHash (hash : ShortHash) :
    (payKeyHash hash).operations currency = toPayKeyHashPattern hash.val :=
  operations_of_readable (readable_payKeyHash hash)

end

end Script

/-- A program outside of any branch. -/
def Program.ofCounted (count : Nat) (stack : List DataChunk) : Program :=
  { Program.ofStack stack with operationCount := count }

namespace Interpreter

variable {env : Env} {ctx : Context} {p q : Program} {count position : Nat}

/-- An operation that succeeds is followed by the next one. -/
theorem step_ofCounted {op : Operation} {total : Nat} {stack stack' : List DataChunk}
    (hsize : op.data.length ≤ maxPushDataSize) (hdisabled : op.code.isDisabled = false)
    (hcount : count < maxCountedOps)
    (htotal : (if op.code.isCounted then count + 1 else count) = total)
    (hstack : stack'.length ≤ maxStackSize)
    (hrun : runOp env ctx op (some position) (.ofCounted total stack) =
      some (.success, .ofCounted total stack')) :
    step env ctx (op, position) (.ofCounted count stack) =
      some (.next (.ofCounted total stack')) := by
  have hoversized : op.isOversized = false := by
    simpa [isOversized] using hsize
  have hincrement : (Program.ofCounted count stack).incrementOperationCount op =
      (true, .ofCounted total stack) := by
    rw [← htotal]
    unfold Program.incrementOperationCount Program.operationOverflow
    split_ifs
    · simp only [Program.ofCounted, Program.countOperations, Prod.mk.injEq, and_true]
      simp
      omega
    · simp only [Program.ofCounted, Prod.mk.injEq, and_true]
      simp
      omega
  have hif : (Program.ofCounted total stack).if_ op := by
    simp [Program.if_, Program.succeeded, Program.ofCounted, Program.ofStack]
  have hover : (Program.ofCounted total stack').isStackOverflow = false := by
    simpa [Program.isStackOverflow, Program.ofCounted, Program.ofStack, Program.size] using hstack
  simp only [step, hoversized, hdisabled, hincrement, hif, hrun, Bool.false_eq_true, if_false,
    if_true, Bool.not_true, Option.bind_eq_bind, Option.bind_some, ne_eq, not_true_eq_false,
    hover, Option.pure_def]

theorem loop_of_step {step : Operation × Nat → Program → Option (Signal Program ErrorCode)}
    {item : Operation × Nat} {items : List (Operation × Nat)} (h : step item p = some (.next q)) :
    loop step (item :: items) p = loop step items q := by
  rw [loop, h]

/-- A direct push of data. -/
theorem step_push {stack : List DataChunk} {size : Fin 76} (hlen : data.length ≤ 75)
    (hcount : count < maxCountedOps) (hstack : stack.length < maxStackSize) :
    step env ctx ({ code := .pushSize size, data }, position) (.ofCounted count stack) =
      some (.next (.ofCounted count (data :: stack))) := by
  have hcounted : (Opcode.pushSize size).isCounted = false := by
    revert size
    decide
  have hsize : data.length ≤ maxPushDataSize := hlen.trans (by decide)
  have hpushed : (data :: stack).length ≤ maxStackSize := hstack
  apply step_ofCounted hsize rfl hcount (by rw [hcounted]; rfl) hpushed
  simp only [runOp, opPushSize, if_neg (not_lt.mpr hlen)]
  rfl

/-- A script of readable operations that is short and does not start with a return is evaluated
operation by operation. -/
theorem run_of_readable {ops : List Operation} {first : Operation} (hhead : ops.head? = some first)
    (hreadable : ∀ op ∈ ops, Script.Readable env.currency op) (hreturn : first.code ≠ .return_)
    (hlen : (ofOperations ops).bytes.length ≤ maxScriptSize)
    (hscript : ctx.script = .ofOperations ops)
    (hloop : loop (step env ctx) ops.zipIdx p = some (.next q)) (hclosed : q.closed) :
    run env ctx p = some (.success, q) := by
  have hoperations : ctx.script.operations env.currency = ops := by
    rw [hscript]
    exact operations_of_readable hreadable
  have hvalid : isValid env ctx := by
    have hlast : ctx.script.isValidOperations env.currency := by
      unfold isValidOperations
      rw [hoperations]
      cases hgetLast : ops.getLast? with
      | none => rfl
      | some op => exact (hreadable op (List.mem_of_getLast? hgetLast)).1.1
    have hspendable : ctx.script.isUnspendable env.currency = false := by
      rw [← hscript] at hlen
      obtain ⟨rest, hops⟩ := List.head?_eq_some_iff.mp hhead
      rw [isUnspendable, hoperations, hops]
      simp [hreturn, hlen]
    simp [isValid, hlast, hspendable]
  simp only [run, hvalid, Context.operations, hoperations, hloop, Bool.not_true, Bool.false_eq_true,
    if_false, Option.bind_eq_bind, Option.bind_some, hclosed, if_true, Option.pure_def]

theorem loop_spendKeyHash (size size' : Fin 76) (hend : endorsement.length ≤ 75)
    (hkey : key.length ≤ 75) :
    loop (step env ctx) (zipIdx [{ code := .pushSize size, data := endorsement },
        { code := .pushSize size', data := key }]) (.ofCounted 0 []) =
      some (.next (.ofCounted 0 [key, endorsement])) := by
  have hfirst : step env ctx ({ code := .pushSize size, data := endorsement }, 0)
      (.ofCounted 0 []) = some (.next (.ofCounted 0 [endorsement])) :=
    step_push hend (by decide) (show 0 < maxStackSize by decide)
  have hsecond : step env ctx ({ code := .pushSize size', data := key }, 1)
      (.ofCounted 0 [endorsement]) = some (.next (.ofCounted 0 [key, endorsement])) :=
    step_push hkey (by decide) (show 1 < maxStackSize by decide)
  simp only [zipIdx_cons, zipIdx_nil, zero_add]
  rw [loop_of_step hfirst, loop_of_step hsecond]
  rfl

/-- The input script leaves the key on top of the endorsement. -/
theorem run_spendKeyHash (hend : endorsement.length ≤ 75) (hkey : key.length ≤ 75)
    (hscript : ctx.script = spendKeyHash endorsement key) :
    run env ctx (.ofStack []) = some (.success, .ofCounted 0 [key, endorsement]) := by
  rw [spendKeyHash, nominalOpcode_of_le hend, nominalOpcode_of_le hkey] at hscript
  refine run_of_readable rfl ?_ ?_ ?_ hscript (loop_spendKeyHash _ _ hend hkey) rfl
  · simp only [forall_mem_cons, not_mem_nil, false_implies, implies_true, and_true]
    exact ⟨readable_pushSize hend, readable_pushSize hkey⟩
  · simp
  · simp [ofOperations, operationsToData, toData_of_pushSize, maxScriptSize]
    omega

/-- What `op_check_sig` leaves when the endorsement parses and the key has signed. -/
theorem opCheckSig_ofCounted {rest : List DataChunk} (hcheck : endorsementCheck env ctx
      (scriptCode env ctx (.ofCounted count rest) [endorsement]) endorsement = .ok signed) :
    opCheckSig env ctx (.ofCounted count (key :: endorsement :: rest)) =
      some (.success, .ofCounted count (boolData (signed key) :: rest)) := by
  have hverify : opCheckSigVerify env ctx (.ofCounted count (key :: endorsement :: rest)) =
      some (if signed key then .success else .incorrectSignature, .ofCounted count rest) := by
    have hsize : ¬ (Program.ofCounted count (key :: endorsement :: rest)).size < 2 := by
      simp [Program.size, Program.ofCounted, Program.ofStack]
    have hkey : (Program.ofCounted count (key :: endorsement :: rest)).pop =
        some (key, .ofCounted count (endorsement :: rest)) := rfl
    have hend : (Program.ofCounted count (endorsement :: rest)).pop =
        some (endorsement, .ofCounted count rest) := rfl
    rw [opCheckSigVerify, if_neg hsize]
    simp only [hkey, hend, Option.bind_eq_bind, Option.bind_some, hcheck, Option.pure_def]
  rw [opCheckSig, hverify]
  cases hsigned : signed key <;> rfl

/-- The operations of the output script one by one, down to the check of the signature. -/
theorem loop_payKeyHash
    (hcheck : endorsementCheck env ctx (scriptCode env ctx (.ofCounted 4 []) [endorsement])
      endorsement = .ok signed) :
    loop (step env ctx)
        (toPayKeyHashPattern (env.hashes.bitcoinShortHash key).val).zipIdx
        (.ofCounted 0 [key, endorsement]) =
      some (.next (.ofCounted 4 [boolData (signed key)])) := by
  set hash := env.hashes.bitcoinShortHash key with hhash
  have hdup : step env ctx ({ code := .dup }, 0) (.ofCounted 0 [key, endorsement]) =
      some (.next (.ofCounted 1 [key, key, endorsement])) :=
    step_ofCounted (Nat.zero_le _) rfl (by decide) rfl (show 3 ≤ maxStackSize by decide) rfl
  have hhashed : step env ctx ({ code := .hash160 }, 1) (.ofCounted 1 [key, key, endorsement]) =
      some (.next (.ofCounted 2 [hash.val, key, endorsement])) :=
    step_ofCounted (Nat.zero_le _) rfl (by decide) rfl (show 3 ≤ maxStackSize by decide) rfl
  have hpush : step env ctx ({ code := .pushSize 20, data := hash.val }, 2)
      (.ofCounted 2 [hash.val, key, endorsement]) =
      some (.next (.ofCounted 2 [hash.val, hash.val, key, endorsement])) :=
    step_push (by rw [hash.2]; decide) (by decide) (show 3 < maxStackSize by decide)
  have hequal : step env ctx ({ code := .equalverify }, 3)
      (.ofCounted 2 [hash.val, hash.val, key, endorsement]) =
      some (.next (.ofCounted 3 [key, endorsement])) := by
    have hrun : opEqualVerify (.ofCounted 3 [hash.val, hash.val, key, endorsement]) =
        some (.success, .ofCounted 3 [key, endorsement]) := by
      simp [opEqualVerify, Program.ofCounted, Program.ofStack, Program.size, Program.pop,
        Program.withPrimary]
    exact step_ofCounted (Nat.zero_le _) rfl (by decide) rfl (show 2 ≤ maxStackSize by decide) hrun
  have hchecksig : step env ctx ({ code := .checksig }, 4) (.ofCounted 3 [key, endorsement]) =
      some (.next (.ofCounted 4 [boolData (signed key)])) :=
    step_ofCounted (Nat.zero_le _) rfl (by decide) rfl (show 1 ≤ maxStackSize by decide)
      (opCheckSig_ofCounted hcheck)
  simp only [toPayKeyHashPattern, ofUncoded_shortHash, List.zipIdx_cons,
    List.zipIdx_nil, Nat.zero_add]
  rw [loop_of_step hdup, loop_of_step hhashed, loop_of_step hpush, loop_of_step hequal,
    loop_of_step hchecksig]
  rfl

/-- The output script comes down to the check of the signature. -/
theorem run_payKeyHash (hscript : ctx.script = payKeyHash (env.hashes.bitcoinShortHash key))
    (hcheck : endorsementCheck env ctx (scriptCode env ctx (.ofCounted 4 []) [endorsement])
      endorsement = .ok signed) :
    run env ctx (.ofStack [key, endorsement]) =
      some (.success, .ofCounted 4 [boolData (signed key)]) := by
  refine run_of_readable rfl (readable_payKeyHash _) (by simp) ?_ hscript
    (loop_payKeyHash hcheck) rfl
  generalize env.hashes.bitcoinShortHash key = hash
  have hpush : (toData { code := .pushSize 20, data := hash.val }).length = 21 := by
    rw [toData_of_pushSize rfl, length_cons, hash.2]
  simp only [ofOperations, operationsToData, toPayKeyHashPattern,
    ofUncoded_shortHash, flatMap_cons, flatMap_nil, length_append, hpush]
  decide

/-- The output script has no operation to delete unless the endorsement is the key hash. -/
theorem scriptCode_payKeyHash {hash : ShortHash} (hscript : ctx.script = payKeyHash hash)
    (hver : ctx.version = .unversioned) (hjump : p.jump = 0) (hempty : endorsement ≠ [])
    (hlen : endorsement.length ≤ 75) (hhash : endorsement ≠ hash.val) :
    scriptCode env ctx p [endorsement] = payKeyHash hash := by
  have hsize : endorsement.length ≤ maxPushDataSize := hlen.trans (by decide)
  have hpush : ofUncoded endorsement false =
      { code := .pushSize ⟨endorsement.length, by omega⟩, data := endorsement } := by
    rw [ofUncoded, if_neg (not_lt.mpr hsize)]
    simp [opcodeFromData, nominalOpcode_of_le hlen]
  have hkept : (toPayKeyHashPattern hash.val).filter (fun op =>
      op != ofUncoded endorsement false) = toPayKeyHashPattern hash.val := by
    rw [filter_eq_self, hpush, toPayKeyHashPattern, ofUncoded_shortHash]
    simp [Ne.symm hhash]
  have hsubscript : p.subscript (ctx.operations env) = toPayKeyHashPattern hash.val := by
    rw [Program.subscript, hjump, drop_zero, Context.operations, hscript, operations_payKeyHash]
  simp only [scriptCode, hsubscript, hver]
  rw [if_neg (by simp), findAndDelete_ofOperations hempty hsize (readable_payKeyHash hash), hkept]
  rfl

end Interpreter

namespace Script

variable {env : Env} {tx : Transaction} {inputIndex forks : UInt32}

/-- An endorsement that the key has signed, and the key, spend an output that pays to the hash of
the key, unless the endorsement is that hash. -/
theorem verify_payKeyHash {witness : Witness} (value : UInt64) (hempty : endorsement ≠ [])
    (hend : endorsement.length ≤ 75) (hkey : key.length ≤ 75)
    (hhash : endorsement ≠ (env.hashes.bitcoinShortHash key).val)
    (hwit : witness.isEmpty) (hcheck : endorsementCheck env
      (.unversioned (payKeyHash (env.hashes.bitcoinShortHash key)) tx inputIndex forks)
      (payKeyHash (env.hashes.bitcoinShortHash key)) endorsement = .ok signed)
    (hsigned : signed key) :
    verify env tx inputIndex forks (spendKeyHash endorsement key) witness
      (payKeyHash (env.hashes.bitcoinShortHash key)) value = some .success := by
  set hash := env.hashes.bitcoinShortHash key
  have hinput : run env (.unversioned (spendKeyHash endorsement key) tx inputIndex forks)
      (.ofStack []) = some (.success, .ofCounted 0 [key, endorsement]) :=
    run_spendKeyHash hend hkey rfl
  have hcode : scriptCode env (.unversioned (payKeyHash hash) tx inputIndex forks)
      (.ofCounted 4 []) [endorsement] = payKeyHash hash :=
    scriptCode_payKeyHash rfl rfl rfl hempty hend hhash
  have hprevout : run env (.unversioned (payKeyHash hash) tx inputIndex forks)
      (.ofStack [key, endorsement]) = some (.success, .ofCounted 4 [boolData (signed key)]) := by
    apply run_payKeyHash rfl
    rw [hcode]
    exact hcheck
  rw [hsigned] at hprevout
  rw [verify_eq_success_iff]
  refine ⟨_, _, hinput, hprevout, rfl, ?_⟩
  have hpat : isWitnessProgramPattern ((payKeyHash hash).operations env.currency) = false ∧
      isPayScriptHashPattern ((payKeyHash hash).operations env.currency) = false := by
    rw [operations_payKeyHash]
    exact ⟨rfl, rfl⟩
  rw [isPayToWitness, isPayToScriptHash, hpat.1, hpat.2]
  simpa using hwit

end Script

end BitprimCore
