import BitprimCore.Chain.Block

/-!
# Double spends and forward references

The searches that keep a transaction and a block from spending one output twice, and from spending
an output that comes later in the block. Both are exact: the sorted points have equal neighbours
just when two inputs spend one point, and the walk from the last transaction has seen just the
hashes that the transaction in hand may not spend.
-/

namespace BitprimCore

open Duplicates List

variable {tx : Transaction}

theorem Point.lt_irrefl (a : Point) : ¬ a.Lt a := by
  rw [Lt, if_pos rfl]
  exact List.lt_irrefl _

theorem Point.lt_trans {a b c : Point} (hab : a.Lt b) (hbc : b.Lt c) : a.Lt c := by
  unfold Lt at *
  by_cases hfirst : a.index = b.index
  · by_cases hsecond : b.index = c.index
    · rw [if_pos hfirst] at hab
      rw [if_pos hsecond] at hbc
      rw [if_pos (hfirst.trans hsecond)]
      exact List.lt_trans hab hbc
    · rw [if_neg hsecond] at hbc
      rwa [hfirst, if_neg hsecond]
  · rw [if_neg hfirst] at hab
    by_cases hsecond : b.index = c.index
    · rwa [← hsecond, if_neg hfirst]
    · rw [if_neg hsecond] at hbc
      have hlt : a.index < c.index := UInt32.lt_trans hab hbc
      rwa [if_neg (UInt32.ne_of_lt hlt)]

/-- Points that the order does not tell apart are equal. -/
theorem Point.eq_of_not_lt {a b : Point} (hab : ¬ a.Lt b) (hba : ¬ b.Lt a) : a = b := by
  unfold Lt at hab hba
  by_cases hidx : a.index = b.index
  · rw [if_pos hidx, List.not_lt] at hab
    rw [if_pos hidx.symm, List.not_lt] at hba
    obtain ⟨hashA, indexA⟩ := a
    obtain ⟨hashB, indexB⟩ := b
    exact congrArg₂ Point.mk (Subtype.ext (List.le_antisymm hba hab)) hidx
  · rw [if_neg hidx, UInt32.not_lt] at hab
    rw [if_neg (Ne.symm hidx), UInt32.not_lt] at hba
    exact absurd (UInt32.le_antisymm hba hab) hidx

instance : IsStrictTotalOrder Point Point.Lt where
  irrefl := Point.lt_irrefl
  trans _ _ _ := Point.lt_trans
  trichotomous _ _ := Point.eq_of_not_lt

theorem Transaction.isInternalDoubleSpend_eq_false_iff :
    tx.isInternalDoubleSpend = false ↔ tx.previousOutputs.Nodup := by
  rw [isInternalDoubleSpend, Bool.not_eq_false', isDistinct_iff_nodup]

theorem Transaction.isInternalDoubleSpend_iff :
    tx.isInternalDoubleSpend ↔
      ∃ (i j : Nat) (a b : Input), i ≠ j ∧ tx.inputs[i]? = some a ∧ tx.inputs[j]? = some b ∧
        a.previousOutput.toPoint = b.previousOutput.toPoint := by
  rw [← Bool.not_eq_false, isInternalDoubleSpend_eq_false_iff, List.nodup_iff_getElem?_ne_getElem?]
  push Not
  constructor
  · rintro ⟨i, j, hij, hj, heq⟩
    have hlen : j < tx.inputs.length := by simpa [previousOutputs] using hj
    have hpoints : tx.previousOutputs[i]? = tx.previousOutputs[j]? := heq
    simp only [previousOutputs, List.getElem?_map, List.getElem?_eq_getElem hlen,
      List.getElem?_eq_getElem (hij.trans hlen), Option.map_some, Option.some.injEq] at hpoints
    exact ⟨i, j, _, _, hij.ne, List.getElem?_eq_getElem (hij.trans hlen),
      List.getElem?_eq_getElem hlen, hpoints⟩
  · rintro ⟨i, j, a, b, hij, ha, hb, hpoint⟩
    have hi : tx.previousOutputs[i]? = some a.previousOutput.toPoint := by
      simp [previousOutputs, ha]
    have hj : tx.previousOutputs[j]? = some a.previousOutput.toPoint := by
      simp [previousOutputs, hb, hpoint]
    rcases Nat.lt_or_gt_of_ne hij with hlt | hlt
    · exact ⟨i, j, hlt, (List.getElem?_eq_some_iff.mp hj).1, hi.trans hj.symm⟩
    · exact ⟨j, i, hlt, (List.getElem?_eq_some_iff.mp hi).1, hj.trans hi.symm⟩

namespace Block

variable {currency : Currency} {hashes : Hashes} {block : Block}

/-- The points behind the first transaction. -/
theorem isInternalDoubleSpend_eq_false_iff :
    block.isInternalDoubleSpend = false ↔
      (block.transactions.tail.flatMap Transaction.previousOutputs).Nodup := by
  unfold isInternalDoubleSpend
  split
  · next hempty => simp [hempty]
  · next first txs hcons =>
      rw [Bool.not_eq_false', isDistinct_iff_nodup, hcons, tail_cons]

/-- The input at a position of a transaction at a position of the block. -/
def inputAt (block : Block) (position : Nat × Nat) : Option Input :=
  block.transactions[position.1]?.bind fun tx => tx.inputs[position.2]?

/-- The positions behind the first transaction, as those of the points that are merged. -/
theorem entry_tail (t i : Nat) :
    entry Transaction.previousOutputs block.transactions.tail (t, i) =
      (block.inputAt (t + 1, i)).map fun input => input.previousOutput.toPoint := by
  simp only [entry, inputAt, Transaction.previousOutputs, getElem?_tail, getElem?_map]
  cases block.transactions[t + 1]? <;> rfl

theorem isInternalDoubleSpend_iff :
    block.isInternalDoubleSpend ↔
      ∃ p q a b, p ≠ q ∧ 0 < p.1 ∧ 0 < q.1 ∧
        block.inputAt p = some a ∧ block.inputAt q = some b ∧
        a.previousOutput.toPoint = b.previousOutput.toPoint := by
  rw [← Bool.not_eq_false, isInternalDoubleSpend_eq_false_iff, nodup_flatMap_iff_entry]
  push Not
  constructor
  · rintro ⟨⟨t, i⟩, ⟨u, j⟩, point, hp, hq, hne⟩
    rw [entry_tail, Option.map_eq_some_iff] at hp hq
    obtain ⟨a, ha, hpoint⟩ := hp
    obtain ⟨b, hb, rfl⟩ := hq
    refine ⟨(t + 1, i), (u + 1, j), a, b, ?_, Nat.succ_pos t, Nat.succ_pos u, ha, hb, hpoint⟩
    intro heq
    simp only [Prod.mk.injEq, Nat.add_right_cancel_iff] at heq
    exact hne (Prod.ext heq.1 heq.2)
  · rintro ⟨⟨t, i⟩, ⟨u, j⟩, a, b, hne, ht, hu, ha, hb, hpoint⟩
    obtain ⟨t, rfl⟩ : ∃ t', t = t' + 1 := ⟨t - 1, (Nat.succ_pred ht.ne').symm⟩
    obtain ⟨u, rfl⟩ : ∃ u', u = u' + 1 := ⟨u - 1, (Nat.succ_pred hu.ne').symm⟩
    refine ⟨(t, i), (u, j), a.previousOutput.toPoint, ?_, ?_, ?_⟩
    · rw [entry_tail, ha, Option.map_some]
    · rw [entry_tail, hb, Option.map_some, hpoint]
    · intro heq
      obtain ⟨rfl, rfl⟩ := Prod.mk.inj heq
      exact hne rfl

/-- In a block that starts with its only coinbase the transactions behind the first are those that
are no coinbase. -/
theorem isCoinbase_iff_position {first : Transaction} {t : Nat}
    (hfirst : block.transactions[0]? = some first) (hcoinbase : first.isCoinbase)
    (hextra : block.isExtraCoinbases = false) (htx : block.transactions[t]? = some tx) :
    0 < t ↔ tx.isCoinbase = false := by
  constructor
  · intro ht
    obtain ⟨t, rfl⟩ : ∃ t', t = t' + 1 := ⟨t - 1, (Nat.succ_pred ht.ne').symm⟩
    rw [isExtraCoinbases, any_eq_false] at hextra
    rw [← getElem?_tail] at htx
    exact Bool.eq_false_iff.mpr (hextra tx (mem_of_getElem? htx))
  · intro hspend
    rcases Nat.eq_zero_or_pos t with rfl | ht
    · obtain rfl : first = tx := Option.some.inj (hfirst.symm.trans htx)
      rw [hcoinbase] at hspend
      cases hspend
    · exact ht

/-- The walk finds a transaction that spends a hash seen before it, or its own. -/
theorem isForwardReferenceLoop_iff {reversed : List Transaction} {seen : List HashDigest} :
    isForwardReferenceLoop currency hashes reversed seen ↔
      ∃ later tx earlier, reversed = later ++ tx :: earlier ∧
        ∃ input ∈ tx.inputs, input.previousOutput.hash ∈ seen ∨
          ∃ target ∈ tx :: later, input.previousOutput.hash = target.hash currency hashes false := by
  induction reversed generalizing seen with
  | nil => simp [isForwardReferenceLoop]
  | cons first rest ih =>
    simp only [isForwardReferenceLoop]
    split_ifs with hspends
    · -- the transaction in hand is the one that is found
      simp only [any_eq_true, contains_iff_mem, mem_cons] at hspends
      obtain ⟨input, hinput, hhash⟩ := hspends
      refine iff_of_true rfl ⟨[], first, rest, rfl, input, hinput, ?_⟩
      rcases hhash with hself | hseen
      · exact .inr ⟨first, mem_cons_self, hself⟩
      · exact .inl hseen
    · simp only [any_eq_true, contains_iff_mem, not_exists, not_and] at hspends
      rw [ih]
      constructor
      · rintro ⟨later, tx, earlier, rfl, input, hinput, hhash⟩
        refine ⟨first :: later, tx, earlier, rfl, input, hinput, ?_⟩
        rcases hhash with hseen | ⟨target, htarget, hhash⟩
        · rcases mem_cons.mp hseen with hfirst | hseen
          · exact .inr ⟨first, by simp, hfirst⟩
          · exact .inl hseen
        · refine .inr ⟨target, ?_, hhash⟩
          rcases mem_cons.mp htarget with rfl | hlater
          · exact mem_cons_self
          · exact mem_cons_of_mem _ (mem_cons_of_mem _ hlater)
      · rintro ⟨later, tx, earlier, hsplit, input, hinput, hhash⟩
        cases later with
        | nil =>
          obtain ⟨rfl, rfl⟩ : first = tx ∧ rest = earlier := by simpa using hsplit
          have hnot := hspends input hinput
          rcases hhash with hseen | ⟨target, htarget, hhash⟩
          · exact absurd (mem_cons_of_mem _ hseen) hnot
          · obtain rfl : target = first := by simpa using htarget
            exact absurd (hhash ▸ mem_cons_self) hnot
        | cons last later =>
          obtain ⟨rfl, rfl⟩ : first = last ∧ rest = later ++ tx :: earlier := by
            simpa using hsplit
          refine ⟨later, tx, earlier, rfl, input, hinput, ?_⟩
          rcases hhash with hseen | ⟨target, htarget, hhash⟩
          · exact .inl (mem_cons_of_mem _ hseen)
          · rcases mem_cons.mp htarget with rfl | hmem
            · exact .inr ⟨target, mem_cons_self, hhash⟩
            · rcases mem_cons.mp hmem with rfl | hmem
              · exact .inl (mem_cons.mpr (.inl hhash))
              · exact .inr ⟨target, mem_cons_of_mem _ hmem, hhash⟩

theorem isForwardReference_iff :
    block.isForwardReference currency hashes ↔
      ∃ earlier tx later, block.transactions = earlier ++ tx :: later ∧
        ∃ input ∈ tx.inputs, ∃ target ∈ tx :: later,
          input.previousOutput.hash = target.hash currency hashes false := by
  rw [isForwardReference, isForwardReferenceLoop_iff]
  constructor
  · rintro ⟨later, tx, earlier, hsplit, input, hinput, hhash⟩
    refine ⟨earlier.reverse, tx, later.reverse, ?_, input, hinput, ?_⟩
    · have hreverse := congrArg reverse hsplit
      simpa using hreverse
    · rcases hhash with hseen | ⟨target, htarget, hhash⟩
      · cases hseen
      · exact ⟨target, by simpa using htarget, hhash⟩
  · rintro ⟨earlier, tx, later, hsplit, input, hinput, target, htarget, hhash⟩
    refine ⟨later.reverse, tx, earlier.reverse, ?_, input, hinput, .inr ⟨target, ?_, hhash⟩⟩
    · simp [hsplit]
    · simpa using htarget

/-- The searches for double spends and forward references are exact. -/
theorem spend_searches_exact (currency : Currency) (hashes : Hashes) :
    (∀ tx : Transaction, tx.isInternalDoubleSpend = true ↔
      ∃ (i j : Nat) (a b : Input), i ≠ j ∧ tx.inputs[i]? = some a ∧ tx.inputs[j]? = some b ∧
        a.previousOutput.toPoint = b.previousOutput.toPoint) ∧
    (∀ block : Block, block.isInternalDoubleSpend = true ↔
      ∃ p q a b, p ≠ q ∧ 0 < p.1 ∧ 0 < q.1 ∧
        block.inputAt p = some a ∧ block.inputAt q = some b ∧
        a.previousOutput.toPoint = b.previousOutput.toPoint) ∧
    (∀ (block : Block) (first tx : Transaction) (t : Nat), block.transactions[0]? = some first →
      first.isCoinbase = true → block.isExtraCoinbases = false →
      block.transactions[t]? = some tx → (0 < t ↔ tx.isCoinbase = false)) ∧
    (∀ block : Block, block.isForwardReference currency hashes = true ↔
      ∃ earlier tx later, block.transactions = earlier ++ tx :: later ∧
        ∃ input ∈ tx.inputs, ∃ target ∈ tx :: later,
          input.previousOutput.hash = target.hash currency hashes false) := by
  refine ⟨?_, ?_, ?_, ?_⟩
  · intro tx
    exact Transaction.isInternalDoubleSpend_iff
  · intro block
    exact isInternalDoubleSpend_iff
  · intro block first tx t hfirst hcoinbase hextra htx
    exact isCoinbase_iff_position hfirst hcoinbase hextra htx
  · intro block
    exact isForwardReference_iff

end Block

end BitprimCore
