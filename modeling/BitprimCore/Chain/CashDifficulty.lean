import BitprimCore.Chain.Retarget
import BitprimCore.Chain.TargetArithmetic
import Mathlib.Algebra.Order.BigOperators.Group.List

/-!
# The difficulty adjustment of the `bch` build

The rule is stated over a window of 147 blocks. Its end points are the middle of the last three
blocks and the middle of the first three by time. The work done between them, scaled to the spacing
of two blocks by the time that passed, is the work that the next target stands for.

`cash_difficulty_adjustment` has the end points and the blocks of the rule. Its timespan is a
difference of unsigned numbers of 32 bits, so end points whose times are not in order are taken to be
far apart where the rule takes them to be close. Its work is a number of 256 bits.
-/

namespace BitprimCore.ChainState

open BitprimCore.Compact Header List Option

variable (a b c : Nat × UInt32)

/-- Two blocks in the order of their times. -/
def compareAndSwap (a b : Nat × UInt32) : (Nat × UInt32) × (Nat × UInt32) :=
  if b.2 < a.2 then (b, a) else (a, b)

/-- The middle of three blocks after three compare-and-swap steps: of the outer two, of the first
two and of the last two. -/
def suitableBlock (a b c : Nat × UInt32) : Nat × UInt32 :=
  let outer := compareAndSwap a c
  let front := compareAndSwap outer.1 b
  (compareAndSwap front.2 outer.2).1

namespace Data

variable (values : Data)

/-- A block of the window, by its position. -/
def windowBlock (position : Nat) : Nat × UInt32 :=
  (position, (values.timestampOrdered[position]?).getD 0)

/-- The end point among the first three blocks of the window. -/
def startBlock : Nat × UInt32 :=
  suitableBlock (values.windowBlock 0) (values.windowBlock 1) (values.windowBlock 2)

/-- The end point among the last three blocks of the window. -/
def endBlock : Nat × UInt32 :=
  suitableBlock (values.windowBlock 144) (values.windowBlock 145) (values.windowBlock 146)

/-- The bits of the window, which the queue of bits may hold more than. -/
def windowBits : List UInt32 := values.bitsOrdered.drop (values.bitsOrdered.length - 147)

/-- The bits of the blocks after the first end point up to the last. -/
def spannedBits : List UInt32 :=
  (values.windowBits.drop (values.startBlock.1 + 1)).take (values.endBlock.1 - values.startBlock.1)

/-- The work between the end points. -/
def spannedWork : Nat := (values.spannedBits.map proof).sum

/-- The signed time between the end points, bounded on both sides. -/
def spannedTime : Int :=
  max (72 * 600) (min (288 * 600) ((values.endBlock.2.toNat : Int) - values.startBlock.2.toNat))

/-- The work of one block at the pace of the window. -/
def projectedWork : Nat := values.spannedWork * 600 / values.spannedTime.toNat

/-- The target that the projected work stands for, not above the limit. -/
def projectedTarget : Nat :=
  min (Currency.powLimit .bch) ((2 ^ 256 - values.projectedWork) / values.projectedWork)

end Data

theorem Data.cashDifficultyAdjustment_eq (currency : Currency) (values : Data) :
    values.cashDifficultyAdjustment currency = do
      let steps ← values.cashAdjustment currency
      if steps.work = 0 then none
      else
        return normalTarget currency ((2 ^ 256 - steps.work) / steps.work) currency.powLimit :=
  rfl

/-- The selection of the source is the middle after the three steps, also for equal times. -/
theorem selectMedian_eq_suitableBlock : selectMedian a b c = suitableBlock a b c := by
  have hasymm : ∀ {x y : UInt32}, x < y → ¬ y < x := fun h => UInt32.lt_asymm h
  by_cases hca : c.2 < a.2
  · by_cases hbc : b.2 < c.2
    · simp [selectMedian, suitableBlock, compareAndSwap, hca, hbc, hasymm hca]
    · by_cases hab : a.2 < b.2 <;>
        simp [selectMedian, suitableBlock, compareAndSwap, hca, hbc, hab]
  · by_cases hba : b.2 < a.2
    · simp [selectMedian, suitableBlock, compareAndSwap, hca, hba]
    · by_cases hcb : c.2 < b.2 <;>
        simp [selectMedian, suitableBlock, compareAndSwap, hca, hba, hcb]

theorem compareAndSwap_eq : compareAndSwap a b = (a, b) ∨ compareAndSwap a b = (b, a) := by
  unfold compareAndSwap
  split_ifs
  · exact .inr rfl
  · exact .inl rfl

theorem suitableBlock_eq :
    suitableBlock a b c = a ∨ suitableBlock a b c = b ∨ suitableBlock a b c = c := by
  simp only [suitableBlock]
  obtain houter | houter := compareAndSwap_eq a c <;> rw [houter]
  · obtain hfront | hfront := compareAndSwap_eq a b <;> rw [hfront]
    · obtain h | h := compareAndSwap_eq b c <;> simp [h]
    · simp [houter]
  · obtain hfront | hfront := compareAndSwap_eq c b <;> rw [hfront]
    · obtain h | h := compareAndSwap_eq b a <;> simp [h]
    · obtain h | h := compareAndSwap_eq c a <;> simp [h]

section

variable {f : Nat × UInt32 → Nat × UInt32}

theorem compareAndSwap_map (hf : ∀ block, (f block).2 = block.2) (a b : Nat × UInt32) :
    compareAndSwap (f a) (f b) = Prod.map f f (compareAndSwap a b) := by
  unfold compareAndSwap
  rw [hf, hf]
  split_ifs <;> rfl

/-- The middle depends on the times only, not on where the positions are counted from. -/
theorem suitableBlock_map (hf : ∀ block, (f block).2 = block.2) (a b c : Nat × UInt32) :
    suitableBlock (f a) (f b) (f c) = f (suitableBlock a b c) := by
  simp only [suitableBlock, compareAndSwap_map hf, Prod.map_fst, Prod.map_snd]

end

/-- A run of indices into a list yields the part of the list. -/
theorem mapM_getElem_range' {α : Type} (items : List α) (start count : Nat)
    (hle : start + count ≤ items.length) :
    (range' start count).mapM (fun index => items[index]?) =
      some ((items.drop start).take count) := by
  induction count generalizing start with
  | zero => simp
  | succ count ih =>
    have hstart : start < items.length := by omega
    have htail := ih (start + 1) (by omega)
    rw [range'_succ, mapM_cons, getElem?_eq_getElem hstart, htail,
      drop_eq_getElem_cons hstart, take_succ_cons]
    rfl

/-- A sum that is reduced at every step is the reduced sum. -/
theorem foldl_add_mod (modulus total : Nat) (items : List Nat) :
    items.foldl (fun total item => (total + item) % modulus) (total % modulus) =
      (total + items.sum) % modulus := by
  induction items generalizing total with
  | nil => simp
  | cons item items ih =>
    rw [foldl_cons, Nat.mod_add_mod, ih, sum_cons, add_assoc]

namespace Data

variable {values : Data}

/-- A window of 147 timestamps and of bits with targets from one to the limit. -/
structure FullWindow (values : Data) : Prop where
  timestamps : values.timestampOrdered.length = 147
  bits : 147 ≤ values.bitsOrdered.length
  bits_lt : values.bitsOrdered.length < 2 ^ 64
  targets : ∀ bits ∈ values.windowBits, 1 ≤ expand bits ∧ expand bits ≤ Currency.powLimit .bch

theorem startBlock_lt (values : Data) : values.startBlock.1 < 3 := by
  unfold startBlock
  obtain h | h | h := suitableBlock_eq (values.windowBlock 0) (values.windowBlock 1)
    (values.windowBlock 2) <;> rw [h] <;> simp [windowBlock]

theorem endBlock_bounds (values : Data) : 144 ≤ values.endBlock.1 ∧ values.endBlock.1 < 147 := by
  unfold endBlock
  obtain h | h | h := suitableBlock_eq (values.windowBlock 144) (values.windowBlock 145)
    (values.windowBlock 146) <;> rw [h] <;> simp [windowBlock]

/-- The difference of 32 bits between the times of the end points, bounded on both sides. -/
def wrappedTime (values : Data) : Nat :=
  max (72 * 600) (min (288 * 600) (values.endBlock.2 - values.startBlock.2).toNat)

/-- A block of the window, with its position counted in the queue of bits. -/
def queuedBlock (values : Data) (block : Nat × UInt32) : Nat × UInt32 :=
  (values.bitsOrdered.length - 147 + block.1, block.2)

theorem block_eq (hwindow : FullWindow values) {back index : Nat} (hsum : back + index = 147)
    (hpos : 0 < back) :
    (values.timestampOrdered[index]?).map (fun time =>
        ((values.bitsOrdered.length + (2 ^ 64 - back)) % 2 ^ 64, time)) =
      some (values.queuedBlock (values.windowBlock index)) := by
  obtain ⟨htimes, hbits, hlt, -⟩ := hwindow
  have hidx : index < values.timestampOrdered.length := by omega
  have hposition : (values.bitsOrdered.length + (2 ^ 64 - back)) % 2 ^ 64 =
      values.bitsOrdered.length - 147 + index := by omega
  rw [getElem?_eq_getElem hidx, map_some, hposition, queuedBlock, windowBlock,
    getElem?_eq_getElem hidx, getD_some]

theorem selectMedian_queuedBlock :
    selectMedian (values.queuedBlock a) (values.queuedBlock b) (values.queuedBlock c) =
      values.queuedBlock (suitableBlock a b c) := by
  rw [selectMedian_eq_suitableBlock]
  exact suitableBlock_map (f := values.queuedBlock) (fun _ => rfl) a b c

theorem bounded_eq {low high : Nat} (hle : low ≤ high) (timespan : Nat) :
    (if timespan > high then high else if timespan < low then low else timespan) =
      max low (min high timespan) := by
  split
  · omega
  · split <;> omega

theorem cashAdjustment_eq (hwindow : FullWindow values) :
    values.cashAdjustment .bch = some
      { first := values.queuedBlock values.endBlock
        last := values.queuedBlock values.startBlock
        bits := values.spannedBits
        timespan := values.wrappedTime
        work := values.spannedWork * 600 % 2 ^ 256 / values.wrappedTime } := by
  have hbits := hwindow.bits
  have hlt := hwindow.bits_lt
  have hstart := startBlock_lt values
  have hend := endBlock_bounds values
  have hspan : ((values.queuedBlock values.startBlock).1 + 1) % 2 ^ 64 =
      values.bitsOrdered.length - 147 + (values.startBlock.1 + 1) := by
    unfold queuedBlock
    omega
  have hcount : (values.queuedBlock values.endBlock).1 + 1 -
      (values.bitsOrdered.length - 147 + (values.startBlock.1 + 1)) =
      values.endBlock.1 - values.startBlock.1 := by
    unfold queuedBlock
    omega
  have hspanned : (range' (values.bitsOrdered.length - 147 + (values.startBlock.1 + 1))
      (values.endBlock.1 - values.startBlock.1)).mapM (fun index => values.bitsOrdered[index]?) =
      some values.spannedBits := by
    rw [mapM_getElem_range' _ _ _ (by omega), spannedBits, windowBits, drop_drop]
  have hsum := foldl_add_mod (2 ^ 256) 0 (values.spannedBits.map proof)
  rw [Nat.zero_mod, zero_add, ← spannedWork] at hsum
  have hfirst : selectMedian (values.queuedBlock (values.windowBlock 144))
      (values.queuedBlock (values.windowBlock 145)) (values.queuedBlock (values.windowBlock 146)) =
      values.queuedBlock values.endBlock := selectMedian_queuedBlock _ _ _
  have hlast : selectMedian (values.queuedBlock (values.windowBlock 0))
      (values.queuedBlock (values.windowBlock 1)) (values.queuedBlock (values.windowBlock 2)) =
      values.queuedBlock values.startBlock := selectMedian_queuedBlock _ _ _
  simp only [cashAdjustment, block_eq hwindow (show 3 + 144 = 147 from rfl) (by omega),
    block_eq hwindow (show 2 + 145 = 147 from rfl) (by omega),
    block_eq hwindow (show 1 + 146 = 147 from rfl) (by omega),
    block_eq hwindow (show 147 + 0 = 147 from rfl) (by omega),
    block_eq hwindow (show 146 + 1 = 147 from rfl) (by omega),
    block_eq hwindow (show 145 + 2 = 147 from rfl) (by omega),
    bind_eq_bind, bind_some, hfirst, hlast]
  rw [hspan, hcount, hspanned, bind_some, hsum, bounded_eq (by decide), Nat.mod_mul_mod]
  rfl

theorem wrappedTime_pos (values : Data) : 0 < values.wrappedTime := by
  unfold wrappedTime
  omega

theorem wrappedTime_le (values : Data) : values.wrappedTime ≤ 172800 := by
  unfold wrappedTime
  omega

/-- The difference of 32 bits is the signed one, or both are below the lower bound or at it. -/
theorem wrappedTime_eq_iff (values : Data) :
    (values.wrappedTime : Int) = values.spannedTime ↔
      values.startBlock.2.toNat ≤ values.endBlock.2.toNat ∨
        2 ^ 32 - 72 * 600 ≤ values.startBlock.2.toNat - values.endBlock.2.toNat := by
  have hstart := values.startBlock.2.toNat_lt
  have hend := values.endBlock.2.toNat_lt
  have hsub := UInt32.toNat_sub values.endBlock.2 values.startBlock.2
  unfold wrappedTime spannedTime
  omega

theorem le_proof_of_window (hwindow : FullWindow values) {bits : UInt32}
    (hbits : bits ∈ values.windowBits) : 2 ^ 32 ≤ proof bits := by
  obtain ⟨hpos, hlimit⟩ := hwindow.targets bits hbits
  calc 2 ^ 32 ≤ proof (Currency.retargetProofOfWorkLimit .bch) := by decide +kernel
    _ ≤ proof bits := proof_anti hpos hlimit

/-- The blocks between the end points are many, and each has a proof of at least 32 bits. -/
theorem le_spannedWork (hwindow : FullWindow values) : 2 ^ 32 ≤ values.spannedWork := by
  have hbits := hwindow.bits
  have hstart := startBlock_lt values
  have hend := endBlock_bounds values
  have hlen : 0 < values.spannedBits.length := by
    simp only [spannedBits, windowBits, length_take, length_drop]
    omega
  obtain ⟨bits, hmem⟩ := exists_mem_of_length_pos hlen
  calc 2 ^ 32 ≤ proof bits := le_proof_of_window hwindow (mem_of_mem_drop (mem_of_mem_take hmem))
    _ ≤ values.spannedWork :=
        List.single_le_sum (fun _ _ => Nat.zero_le _) _ (List.mem_map_of_mem hmem)

/-- A quotient by a small divisor shows whether a number was reduced. -/
theorem mod_div_eq_iff (number : Nat) {modulus divisor : Nat} (hpos : 0 < divisor)
    (hle : divisor ≤ modulus) :
    number % modulus / divisor = number / divisor ↔ number < modulus := by
  refine ⟨?_, fun hlt => by rw [Nat.mod_eq_of_lt hlt]⟩
  intro heq
  by_contra hge
  have hsplit : number % modulus + divisor ≤ number := by
    have hmod := Nat.mod_add_div number modulus
    have hquotient : 1 ≤ number / modulus := Nat.div_pos (not_lt.mp hge) (by omega)
    have hmul := Nat.le_mul_of_pos_right modulus hquotient
    omega
  have hstep := Nat.div_le_div_right (c := divisor) hsplit
  rw [Nat.add_div_right _ hpos] at hstep
  omega

/-- The steps and the result of the source are those of the rule. -/
structure FollowsRule (values : Data) (steps : CashAdjustment) (result : Option UInt32) : Prop where
  first : steps.first = values.queuedBlock values.endBlock
  last : steps.last = values.queuedBlock values.startBlock
  bits : steps.bits = values.spannedBits
  timespan : (steps.timespan : Int) = values.spannedTime
  work : steps.work = values.projectedWork
  work_ne_zero : values.projectedWork ≠ 0
  result : result = some (fromBig values.projectedTarget)

theorem projectedWork_ne_zero (hwindow : FullWindow values) : values.projectedWork ≠ 0 := by
  have hwork := le_spannedWork hwindow
  have htime : 0 < values.spannedTime.toNat ∧ values.spannedTime.toNat ≤ 172800 := by
    unfold spannedTime
    omega
  exact (Nat.div_pos (by omega) htime.1).ne'

/-- `cash_difficulty_adjustment` follows the rule exactly when the scaled work fits in 256 bits and
the last end point is not before the first in time, unless by so much that the difference of 32 bits
is small again. -/
theorem cashDifficultyAdjustment_followsRule_iff (values : Data) (hwindow : FullWindow values) :
    (∃ steps, values.cashAdjustment .bch = some steps ∧
        FollowsRule values steps (values.cashDifficultyAdjustment .bch)) ↔
      values.spannedWork * 600 < 2 ^ 256 ∧
        (values.startBlock.2.toNat ≤ values.endBlock.2.toNat ∨
          2 ^ 32 - 72 * 600 ≤ values.startBlock.2.toNat - values.endBlock.2.toNat) := by
  have hsteps := cashAdjustment_eq hwindow
  have hpos := wrappedTime_pos values
  have hle := wrappedTime_le values
  have hreduced := mod_div_eq_iff (values.spannedWork * 600) hpos
    (hle.trans (show 172800 ≤ 2 ^ 256 by decide))
  rw [← wrappedTime_eq_iff]
  constructor
  · rintro ⟨steps, heq, hfollows⟩
    rw [hsteps, Option.some.injEq] at heq
    have htime : (values.wrappedTime : Int) = values.spannedTime := by
      rw [← hfollows.timespan, ← heq]
    have hwork := hfollows.work
    rw [projectedWork, ← htime, Int.toNat_natCast, ← heq] at hwork
    exact ⟨hreduced.mp hwork, htime⟩
  · rintro ⟨hlt, htime⟩
    have hwork : values.spannedWork * 600 % 2 ^ 256 / values.wrappedTime = values.projectedWork := by
      rw [hreduced.mpr hlt, projectedWork, ← htime, Int.toNat_natCast]
    refine ⟨_, hsteps, rfl, rfl, rfl, htime, hwork, projectedWork_ne_zero hwindow, ?_⟩
    rw [cashDifficultyAdjustment_eq, hsteps]
    simp only [Option.bind_eq_bind, Option.bind_some, hwork, projectedWork_ne_zero hwindow,
      if_false, Option.pure_def, projectedTarget]
    rw [normalTarget_powLimit (by decide +kernel)]

/-- A window whose last blocks are so many seconds apart and whose first three are as late as
stated, all at the limit. -/
def windowFrom (early : UInt32) (spacing : Nat) : Data where
  height := 600000
  hash := nullHash
  allowCollisionsHash := nullHash
  bip9Bit0Hash := nullHash
  bip9Bit1Hash := nullHash
  bitsSelf := 0x1d00ffff
  bitsOrdered := List.replicate 147 0x1d00ffff
  versionSelf := 4
  versionOrdered := []
  timestampSelf := 0
  timestampRetarget := 0
  timestampOrdered := List.replicate 3 early ++
    (List.range' 3 144).map fun position => UInt32.ofNat (position * spacing)

theorem fullWindow_windowFrom (early : UInt32) (spacing : Nat) :
    FullWindow (windowFrom early spacing) where
  timestamps := by simp [windowFrom]
  bits := by simp [windowFrom]
  bits_lt := by simp [windowFrom]
  targets := by
    intro bits hbits
    obtain rfl : bits = 0x1d00ffff := eq_of_mem_replicate (mem_of_mem_drop hbits)
    decide +kernel

theorem cashDifficultyAdjustment_followsRule_windowFrom :
    FullWindow (windowFrom 0 600) ∧
      ∃ steps, (windowFrom 0 600).cashAdjustment .bch = some steps ∧
        FollowsRule (windowFrom 0 600) steps ((windowFrom 0 600).cashDifficultyAdjustment .bch) :=
  ⟨fullWindow_windowFrom 0 600,
    (cashDifficultyAdjustment_followsRule_iff _ (fullWindow_windowFrom 0 600)).mpr
      (by decide +kernel)⟩

theorem cashDifficultyAdjustment_unordered :
    FullWindow (windowFrom 1000000 1) ∧
      (windowFrom 1000000 1).endBlock = (145, 145) ∧
      (windowFrom 1000000 1).startBlock = (1, 1000000) ∧
      (windowFrom 1000000 1).spannedTime = 72 * 600 ∧
      ((windowFrom 1000000 1).cashAdjustment .bch).map CashAdjustment.timespan = some (288 * 600) ∧
      fromBig (windowFrom 1000000 1).projectedTarget = 0x1c7fff80 ∧
      (windowFrom 1000000 1).cashDifficultyAdjustment .bch = some 0x1d00ffff :=
  ⟨fullWindow_windowFrom _ _, by decide +kernel⟩

end Data

end BitprimCore.ChainState
