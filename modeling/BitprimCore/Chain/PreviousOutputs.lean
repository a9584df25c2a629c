import BitprimCore.Chain.TransactionRules

/-!
# Missing previous outputs

A previous output is missing when its cache is not populated and the input is not that of a coinbase.
The points that are missing are collected, but the hashes of their transactions are not: the list
that is made distinct stays empty.
-/

namespace BitprimCore.Transaction

variable {tx : Transaction}

/-- The input spends an output that was not found. -/
def Missing (input : Input) : Prop :=
  input.previousOutput.isNull = false ∧ input.previousOutput.validation.cache.isValid = false

instance (input : Input) : Decidable (Missing input) := inferInstanceAs (Decidable (_ ∧ _))

theorem isMissingPreviousOutputs_eq_false_iff :
    tx.isMissingPreviousOutputs = false ↔ ∀ input ∈ tx.inputs, ¬ Missing input := by
  rw [isMissingPreviousOutputs, List.any_eq_false]
  apply forall₂_congr
  intro input _
  simp [Missing]

/-- No hash is collected, whatever points are missing. -/
theorem missingPreviousTransactions_eq_nil (tx : Transaction) :
    tx.missingPreviousTransactions = [] := by
  have hkept : ∀ points : List Point,
      points.foldl (fun hashes point => (hasher hashes point).1) [] = [] := by
    intro points
    induction points with
    | nil => rfl
    | cons point points ih => exact ih
  rw [missingPreviousTransactions, hkept, Duplicates.distinct_nil]

/-- The transactions that the missing points refer to are reported, each of them once, and there are
none just when nothing is missing. -/
structure MissingReported (tx : Transaction) : Prop where
  nodup : tx.missingPreviousTransactions.Nodup
  exact : ∀ hash, hash ∈ tx.missingPreviousTransactions ↔
    ∃ input ∈ tx.inputs, Missing input ∧ input.previousOutput.hash = hash
  empty : tx.missingPreviousTransactions = [] ↔ tx.isMissingPreviousOutputs = false

/-- They are reported just when every input is that of a coinbase or spends an output that was
found. -/
theorem missingReported_iff (tx : Transaction) :
    MissingReported tx ↔ ∀ input ∈ tx.inputs, input.previousOutput.isNull = true ∨
      input.previousOutput.validation.cache.isValid = true := by
  have hfound : (∀ input ∈ tx.inputs, input.previousOutput.isNull ∨
      input.previousOutput.validation.cache.isValid = true) ↔
      ∀ input ∈ tx.inputs, ¬ Missing input := by
    apply forall₂_congr
    intro input _
    rw [Missing, not_and_or, Bool.not_eq_false, Bool.not_eq_false]
  rw [hfound]
  constructor
  · intro hreported
    exact isMissingPreviousOutputs_eq_false_iff.mp
      (hreported.empty.mp (missingPreviousTransactions_eq_nil tx))
  · intro hnone
    have hnil := missingPreviousTransactions_eq_nil tx
    constructor
    · rw [hnil]
      exact List.nodup_nil
    · intro hash
      rw [hnil]
      refine iff_of_false List.not_mem_nil ?_
      rintro ⟨input, hinput, hmissing, -⟩
      exact hnone input hinput hmissing
    · exact iff_of_true hnil (isMissingPreviousOutputs_eq_false_iff.mpr hnone)

/-- A transaction that spends the first output of a transaction that was not found. -/
def unfoundTransaction : Transaction where
  version := 1
  locktime := 0
  inputs := [{ previousOutput := ⟨⟨nullHash, 0⟩, {}⟩, sequence := 0 }]
  outputs := [{ value := 1 }]

/-- Its point is missing and collected, and no transaction is reported. -/
theorem missing_transaction_unreported :
    unfoundTransaction.isMissingPreviousOutputs = true ∧
      unfoundTransaction.missingPreviousOutputs = [⟨nullHash, 0⟩] ∧
      unfoundTransaction.missingPreviousTransactions = [] ∧ ¬ MissingReported unfoundTransaction := by
  have hmissing : unfoundTransaction.isMissingPreviousOutputs := by decide
  refine ⟨hmissing, by decide, missingPreviousTransactions_eq_nil _, fun hreported => ?_⟩
  have hfalse := hreported.empty.mp (missingPreviousTransactions_eq_nil _)
  rw [hmissing] at hfalse
  cases hfalse

end BitprimCore.Transaction
