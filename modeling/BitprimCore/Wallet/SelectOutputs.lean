import BitprimCore.Chain.Transaction
import BitprimCore.Library.LargestFirst
import Mathlib.Data.List.Sort

/-!
# Selection of outputs

The outputs that a wallet spends to pay an amount (`wallet/select_outputs`, `chain/points_value`).

## Implementation notes

`std::partition` and `std::sort` need not be stable, so the selection is about every implementation
that does what the standard says: `Algorithms` has the functions and what is known of their results.
An element is its hash, index and value, which is what is compared and what is exchanged when the
elements of a list change places.
-/

namespace BitprimCore

open List

/-- A point with the value of its output. -/
structure PointValue extends Point where
  value : UInt64
  deriving DecidableEq

namespace SelectOutputs

variable {items : List PointValue} {minimumValue : UInt64}

/-- The functions of the standard library that reorder a list. -/
structure Algorithms (α : Type) where
  /-- The elements that meet the condition, then the others. -/
  partition : (α → Bool) → List α → List α × List α
  sort : (less : α → α → Bool) → List α → List α
  partition_perm : ∀ condition items,
    ((partition condition items).1 ++ (partition condition items).2).Perm items
  partition_fst : ∀ condition items, ∀ item ∈ (partition condition items).1, condition item = true
  partition_snd : ∀ condition items, ∀ item ∈ (partition condition items).2, condition item = false
  sort_perm : ∀ less items, (sort less items).Perm items
  /-- The comparison has to be a strict weak ordering. -/
  sort_pairwise : ∀ less items, IsStrictWeakOrder α (fun left right => less left right = true) →
    (sort less items).Pairwise fun left right => less right left = false

/-- The first of the smallest elements (`std::min_element`). -/
def minElement {α : Type} (less : α → α → Bool) : List α → Option α
  | [] => none
  | first :: rest =>
    some (rest.foldl (fun smallest item => if less item smallest then item else smallest) first)

/-- What ends a selection without a result. -/
inductive Fault where
  | additionOverflow
  | unreachableCode
  deriving DecidableEq

/-- Fails on overflow. -/
def safeAdd (left right : UInt64) : Except Fault UInt64 :=
  if left > 0xffffffffffffffff - right then .error .additionOverflow else .ok (left + right)

/-- The sum of the values (`points_value::value`). -/
def value (points : List PointValue) : Except Fault UInt64 :=
  points.foldlM (fun total point => safeAdd total point.value) 0

def lesser (left right : PointValue) : Bool := decide (left.value < right.value)

def greater (left right : PointValue) : Bool := decide (left.value > right.value)

/-- Take points from a list until their value is enough. -/
def gather (minimumValue : UInt64) : (out points : List PointValue) → Except Fault (List PointValue)
  | _, [] => .error .unreachableCode
  | out, point :: rest => do
    let out := out ++ [point]
    if (← value out) ≥ minimumValue then return out
    gather minimumValue out rest

variable (algorithms : Algorithms PointValue) (points unspent : List PointValue)

/-- One point, or the largest ones. -/
def greedy (minimumValue : UInt64) :
    Except Fault (List PointValue) := do
  -- The minimum required value does not exist.
  if (← value unspent) < minimumValue then return []
  match unspent with
  | [point] => return [point]
  | _ =>
    let below := fun point : PointValue => decide (point.value < minimumValue)
    let copy := algorithms.partition below unspent
    match minElement lesser copy.2 with
    | some minimum => return [minimum]
    | none => gather minimumValue [] (algorithms.sort greater (copy.1 ++ copy.2))

/-- All that suffice alone. -/
def individual (minimumValue : UInt64) : List PointValue :=
  algorithms.sort lesser (unspent.filter fun point => decide (point.value ≥ minimumValue))

/-- The ways to select (`select_outputs::algorithm`). -/
inductive Algorithm where
  | greedy
  | individual

/-- Selects in either way. -/
def select (minimumValue : UInt64) (option : Algorithm) : Except Fault (List PointValue) :=
  match option with
  | .individual => .ok (individual algorithms unspent minimumValue)
  | .greedy => greedy algorithms unspent minimumValue

/-- The sum of the values as a number. -/
def total : Nat := (points.map fun point => point.value.toNat).sum

theorem safeAdd_of_lt {left right : UInt64} (h : left.toNat + right.toNat < 2 ^ 64) :
    safeAdd left right = .ok (left + right) := by
  have hle : ¬ left > 0xffffffffffffffff - right := by
    have hright := right.toNat_lt
    rw [gt_iff_lt, UInt64.lt_iff_toNat_lt, UInt64.toNat_sub]
    simp only [UInt64.reduceToNat]
    omega
  rw [safeAdd, if_neg hle]

theorem foldlM_safeAdd {points : List PointValue} {start : UInt64}
    (h : start.toNat + total points < 2 ^ 64) :
    ∃ sum, points.foldlM (fun total point => safeAdd total point.value) start = Except.ok sum ∧
      sum.toNat = start.toNat + total points := by
  induction points generalizing start with
  | nil => exact ⟨start, rfl, rfl⟩
  | cons point points ih =>
    simp only [total, map_cons, sum_cons] at h ih ⊢
    have hadd : start.toNat + point.value.toNat < 2 ^ 64 := by omega
    have hsum : (start + point.value).toNat = start.toNat + point.value.toNat := by
      rw [UInt64.toNat_add, Nat.mod_eq_of_lt hadd]
    obtain ⟨sum, hfold, hval⟩ := @ih (start + point.value) (by rw [hsum]; omega)
    refine ⟨sum, ?_, by omega⟩
    rw [foldlM_cons, safeAdd_of_lt hadd]
    exact hfold

/-- The values are added up when their sum is a word. -/
theorem value_eq_ok {points : List PointValue} (h : total points < 2 ^ 64) :
    ∃ sum, value points = .ok sum ∧ sum.toNat = total points := by
  obtain ⟨sum, hsum, hval⟩ := @foldlM_safeAdd points 0 (by simpa using h)
  exact ⟨sum, hsum, by simpa using hval⟩

theorem total_perm {points others : List PointValue} (h : points.Perm others) :
    total points = total others :=
  (h.map _).sum_eq

theorem total_take_le (count : Nat) : total (points.take count) ≤ total points :=
  ((List.take_sublist count points).map _).sum_le_sum (fun _ _ => Nat.zero_le _)

theorem foldl_smallest {first : PointValue} :
    let smallest :=
      items.foldl (fun smallest item => if lesser item smallest then item else smallest) first
    smallest ∈ first :: items ∧ ∀ item ∈ first :: items, smallest.value ≤ item.value := by
  induction items generalizing first with
  | nil => simp
  | cons item items ih =>
    intro smallest
    by_cases hless : item.value < first.value
    · have hsmallest : smallest = items.foldl
          (fun smallest item => if lesser item smallest then item else smallest) item := by
        simp [smallest, lesser, hless]
      obtain ⟨hmem, hle⟩ := @ih item
      rw [← hsmallest] at hmem hle
      refine ⟨mem_cons_of_mem _ hmem, ?_⟩
      intro other hother
      obtain rfl | hother := mem_cons.mp hother
      · exact UInt64.le_trans (hle item mem_cons_self) (UInt64.le_of_lt hless)
      · exact hle other hother
    · have hsmallest : smallest = items.foldl
          (fun smallest item => if lesser item smallest then item else smallest) first := by
        simp [smallest, lesser, hless]
      obtain ⟨hmem, hle⟩ := @ih first
      rw [← hsmallest] at hmem hle
      refine ⟨?_, ?_⟩
      · obtain hfirst | hmem := mem_cons.mp hmem
        · exact hfirst ▸ mem_cons_self
        · exact mem_cons_of_mem _ (mem_cons_of_mem _ hmem)
      · intro other hother
        obtain rfl | hother := mem_cons.mp hother
        · exact hle other mem_cons_self
        · obtain rfl | hother := mem_cons.mp hother
          · exact UInt64.le_trans (hle first mem_cons_self) (UInt64.not_lt.mp hless)
          · exact hle other (mem_cons_of_mem _ hother)

theorem minElement_eq_some {minimum : PointValue} (h : minElement lesser items = some minimum) :
    minimum ∈ items ∧ ∀ item ∈ items, minimum.value ≤ item.value := by
  cases items with
  | nil => cases h
  | cons first rest =>
    obtain rfl := Option.some.inj h
    exact foldl_smallest

theorem minElement_eq_none (h : minElement lesser items = none) : items = [] := by
  cases items with
  | nil => rfl
  | cons first rest => cases h

/-- Points are taken up to the first that makes their value enough. -/
theorem gather_spec {out points : List PointValue} (hout : total out < minimumValue.toNat)
    (htotal : total (out ++ points) < 2 ^ 64)
    (henough : minimumValue.toNat ≤ total (out ++ points)) :
    ∃ count, gather minimumValue out points = .ok ((out ++ points).take count) ∧
      minimumValue.toNat ≤ total ((out ++ points).take count) ∧
      ∀ n, out.length ≤ n → n < count → total ((out ++ points).take n) < minimumValue.toNat := by
  induction points generalizing out with
  | nil =>
    rw [append_nil] at henough
    omega
  | cons point points ih =>
    have hassoc : out ++ point :: points = out ++ [point] ++ points := by simp
    have htake : (out ++ point :: points).take (out ++ [point]).length = out ++ [point] := by
      rw [hassoc]
      exact take_left
    have hlt : total (out ++ [point]) < 2 ^ 64 := by
      rw [← htake]
      exact (total_take_le _ _).trans_lt htotal
    obtain ⟨sum, hsum, hval⟩ := value_eq_ok hlt
    have hbelow : ∀ n, out.length ≤ n → n < (out ++ [point]).length →
        total ((out ++ point :: points).take n) < minimumValue.toNat := by
      intro n hle hn
      have hn : n = out.length := by
        rw [length_append, length_singleton] at hn
        omega
      rw [hn, take_left]
      exact hout
    by_cases hreached : sum ≥ minimumValue
    · refine ⟨(out ++ [point]).length, ?_, ?_, hbelow⟩
      · rw [htake]
        simp [gather, hsum, hreached, bind, Except.bind, pure, Except.pure]
      · rw [htake, ← hval]
        exact UInt64.le_iff_toNat_le.mp hreached
    · have hshort : total (out ++ [point]) < minimumValue.toNat := by
        rw [← hval]
        exact UInt64.lt_iff_toNat_lt.mp (UInt64.not_le.mp hreached)
      obtain ⟨count, hgather, hcount, hshorter⟩ := ih hshort (by rwa [← hassoc]) (by rwa [← hassoc])
      rw [← hassoc] at hgather hcount hshorter
      refine ⟨count, ?_, hcount, ?_⟩
      · rw [← hgather]
        simp [gather, hsum, hreached, bind, Except.bind]
      · intro n hle hn
        by_cases hlast : n < (out ++ [point]).length
        · exact hbelow n hle hlast
        · exact hshorter n (not_lt.mp hlast) hn

theorem greater_iff {left right : PointValue} :
    greater left right ↔ right.value.toNat < left.value.toNat := by
  rw [greater, decide_eq_true_iff, gt_iff_lt, UInt64.lt_iff_toNat_lt]

theorem lesser_iff {left right : PointValue} :
    lesser left right ↔ left.value.toNat < right.value.toNat := by
  rw [lesser, decide_eq_true_iff, UInt64.lt_iff_toNat_lt]

theorem isStrictWeakOrder_greater :
    IsStrictWeakOrder PointValue fun left right => greater left right = true where
  irrefl := by simp [greater_iff]
  trans := by
    intro a b c
    simp only [greater_iff]
    omega
  incomp_trans := by
    intro a b c
    simp only [greater_iff]
    omega

theorem isStrictWeakOrder_lesser :
    IsStrictWeakOrder PointValue fun left right => lesser left right = true where
  irrefl := by simp [lesser_iff]
  trans := by
    intro a b c
    simp only [lesser_iff]
    omega
  incomp_trans := by
    intro a b c
    simp only [lesser_iff]
    omega

variable {algorithms}

theorem pairwise_sort_greater :
    ((algorithms.sort greater points).map fun point => point.value.toNat).Pairwise (· ≥ ·) := by
  have hsorted := algorithms.sort_pairwise greater points isStrictWeakOrder_greater
  rw [pairwise_map]
  refine hsorted.imp ?_
  intro left right h
  have hle : ¬ right.value > left.value := of_decide_eq_false h
  exact UInt64.le_iff_toNat_le.mp (UInt64.not_lt.mp hle)

/-- What the selection has to be: enough, of the points, as few as can be, and a smallest point
where one point is enough. -/
structure Selects (unspent : List PointValue) (minimumValue : UInt64)
    (selected : List PointValue) : Prop where
  subperm : selected.Subperm unspent
  enough : minimumValue.toNat ≤ total selected
  fewest : ∀ other : List PointValue, other.Subperm unspent → other ≠ [] →
    minimumValue.toNat ≤ total other → selected.length ≤ other.length
  smallest : (∃ point ∈ unspent, minimumValue ≤ point.value) →
    ∃ point ∈ unspent, selected = [point] ∧ minimumValue ≤ point.value ∧
      ∀ other ∈ unspent, minimumValue ≤ other.value → point.value ≤ other.value

/-- One point that is enough, and not above the others that are, is a selection. -/
theorem selects_singleton {unspent : List PointValue} {point : PointValue} (hmem : point ∈ unspent)
    (henough : minimumValue ≤ point.value)
    (hsmallest : ∀ other ∈ unspent, minimumValue ≤ other.value → point.value ≤ other.value) :
    Selects unspent minimumValue [point] where
  subperm := singleton_subperm_iff.mpr hmem
  enough := by
    simpa [total] using UInt64.le_iff_toNat_le.mp henough
  fewest := by
    intro other _ hne _
    exact length_pos_iff.mpr hne
  smallest _ := ⟨point, hmem, rfl, henough, hsmallest⟩

/-- Where no point is enough, the largest points make a selection. -/
theorem selects_gather {unspent : List PointValue} (htotal : total unspent < 2 ^ 64)
    (henough : minimumValue.toNat ≤ total unspent)
    (hbelow : ∀ point ∈ unspent, point.value < minimumValue) (hpos : 0 < minimumValue.toNat)
    {sorted : List PointValue} (hperm : sorted.Perm unspent)
    (hsorted : (sorted.map fun point => point.value.toNat).Pairwise (· ≥ ·)) :
    ∃ selected, gather minimumValue [] sorted = .ok selected ∧
      Selects unspent minimumValue selected := by
  have htotals := total_perm hperm
  obtain ⟨count, hgather, hcount, hshorter⟩ :=
    @gather_spec minimumValue [] sorted hpos (by simpa [htotals] using htotal)
      (by simpa [htotals] using henough)
  rw [nil_append] at hgather hcount hshorter
  refine ⟨sorted.take count, hgather, ?_, hcount, ?_, ?_⟩
  · exact (take_sublist count sorted).subperm.trans hperm.subperm
  · intro other hother _ hreaches
    have hshort : ∀ n < count,
        ((sorted.map fun point => point.value.toNat).take n).sum < minimumValue.toNat := by
      intro n hn
      rw [← map_take]
      exact hshorter n (Nat.zero_le n) hn
    have hsub : (other.map fun point => point.value.toNat).Subperm
        (sorted.map fun point => point.value.toNat) := by
      obtain ⟨part, hpart, hsublist⟩ := hother.trans hperm.symm.subperm
      exact ⟨_, hpart.map _, hsublist.map _⟩
    have hlen := LargestFirst.le_length_of_le_sum hsorted hshort hsub hreaches
    rw [length_map] at hlen
    exact (length_take_le count sorted).trans hlen
  · rintro ⟨point, hmem, hsufficient⟩
    exact absurd (hbelow point hmem) (UInt64.not_lt.mpr hsufficient)

theorem greedy_of_lt {unspent : List PointValue} (htotal : total unspent < 2 ^ 64)
    (hlt : total unspent < minimumValue.toNat) :
    greedy algorithms unspent minimumValue = .ok [] := by
  obtain ⟨sum, hsum, hval⟩ := value_eq_ok htotal
  have hless : sum < minimumValue := by
    rw [UInt64.lt_iff_toNat_lt, hval]
    exact hlt
  simp [greedy, hsum, hless, bind, Except.bind, pure, Except.pure]

theorem greedy_of_le {unspent : List PointValue} (htotal : total unspent < 2 ^ 64)
    (hle : minimumValue.toNat ≤ total unspent) (hsome : unspent ≠ [] ∨ 0 < minimumValue) :
    ∃ selected, greedy algorithms unspent minimumValue = .ok selected ∧
      Selects unspent minimumValue selected := by
  obtain ⟨sum, hsum, hval⟩ := value_eq_ok htotal
  have hnot : ¬ sum < minimumValue := by
    rw [UInt64.lt_iff_toNat_lt, hval]
    exact not_lt.mpr hle
  unfold greedy
  simp only [hsum, hnot, bind, Except.bind, pure, Except.pure, if_false]
  split
  · rename_i point
    refine ⟨[point], rfl, selects_singleton mem_cons_self ?_ ?_⟩
    · rw [UInt64.le_iff_toNat_le]
      simpa [total] using hle
    · intro other hother _
      obtain rfl := mem_singleton.mp hother
      exact UInt64.le_refl _
  · set below := fun point : PointValue => decide (point.value < minimumValue) with hbelow
    have hperm := algorithms.partition_perm below unspent
    have hfst := algorithms.partition_fst below unspent
    have hsnd := algorithms.partition_snd below unspent
    split
    · rename_i minimum hmin
      obtain ⟨hmem, hleast⟩ := minElement_eq_some hmin
      refine ⟨[minimum], rfl, selects_singleton ?_ ?_ ?_⟩
      · exact hperm.subset (mem_append_right _ hmem)
      · exact UInt64.not_lt.mp (of_decide_eq_false (hsnd minimum hmem))
      · intro other hother hother_le
        obtain hin | hin := mem_append.mp (hperm.symm.subset hother)
        · exact absurd (of_decide_eq_true (hfst other hin)) (UInt64.not_lt.mpr hother_le)
        · exact hleast other hin
    · rename_i hmin
      have hnil := minElement_eq_none hmin
      rw [hnil, append_nil] at hperm ⊢
      have hall : ∀ point ∈ unspent, point.value < minimumValue := fun point hpoint =>
        of_decide_eq_true (hfst point (hperm.symm.subset hpoint))
      have hpos : 0 < minimumValue.toNat := by
        obtain hne | hpos := hsome
        · obtain ⟨point, hpoint⟩ := exists_mem_of_ne_nil unspent hne
          exact (Nat.zero_le _).trans_lt (UInt64.lt_iff_toNat_lt.mp (hall point hpoint))
        · exact UInt64.lt_iff_toNat_lt.mp hpos
      exact selects_gather htotal hle hall hpos ((algorithms.sort_perm greater _).trans hperm)
        (pairwise_sort_greater _)

/-- Greedy selection returns: nothing when all points are not enough, and else points that are
enough, as few as can be. -/
theorem greedy_selects (algorithms : Algorithms PointValue) (unspent : List PointValue)
    (minimumValue : UInt64) (htotal : total unspent < 2 ^ 64)
    (hsome : unspent ≠ [] ∨ 0 < minimumValue) :
    ∃ selected, greedy algorithms unspent minimumValue = .ok selected ∧
      (total unspent < minimumValue.toNat → selected = []) ∧
      (minimumValue.toNat ≤ total unspent → Selects unspent minimumValue selected) := by
  by_cases hlt : total unspent < minimumValue.toNat
  · refine ⟨[], greedy_of_lt htotal hlt, fun _ => rfl, ?_⟩
    intro hle
    omega
  · obtain ⟨selected, hgreedy, hselects⟩ := greedy_of_le htotal (not_lt.mp hlt) hsome
    refine ⟨selected, hgreedy, ?_, fun _ => hselects⟩
    intro hless
    exact absurd hless hlt

/-- Individual selection returns the points that are enough each, in ascending order. -/
theorem individual_spec (minimumValue : UInt64) :
    (individual algorithms unspent minimumValue).Perm
        (unspent.filter fun point => decide (point.value ≥ minimumValue)) ∧
      (individual algorithms unspent minimumValue).Pairwise fun left right =>
        left.value ≤ right.value := by
  refine ⟨algorithms.sort_perm lesser _, ?_⟩
  refine (algorithms.sort_pairwise lesser _ isStrictWeakOrder_lesser).imp ?_
  intro left right h
  exact UInt64.not_lt.mp (of_decide_eq_false h)

section

variable {α : Type} {less : α → α → Bool}
  (h : IsStrictWeakOrder α fun left right => less left right = true)

include h

theorem total_of_strictWeakOrder : Std.Total fun left right => less right left = false where
  total left right := by
    by_contra hnot
    simp only [not_or, Bool.not_eq_false] at hnot
    exact h.irrefl _ (h.trans _ _ _ hnot.1 hnot.2)

theorem isTrans_of_strictWeakOrder : IsTrans α fun left right => less right left = false where
  trans a b c hab hbc := by
    have hab : ¬ less b a := Bool.eq_false_iff.mp hab
    have hbc : ¬ less c b := Bool.eq_false_iff.mp hbc
    refine Bool.eq_false_iff.mpr fun hca => ?_
    -- neither pair is ordered the other way, so the three are equivalent
    have hba : ¬ less a b := fun hlt => hbc (h.trans _ _ _ hca hlt)
    have hcb : ¬ less b c := fun hlt => hab (h.trans _ _ _ hlt hca)
    exact (h.incomp_trans a b c ⟨hba, hab⟩ ⟨hcb, hbc⟩).2 hca

end

/-- The stable algorithms. -/
def Algorithms.stable (α : Type) : Algorithms α where
  partition condition items := items.partition condition
  sort less items := items.insertionSort fun left right => less right left = false
  partition_perm := by
    intro condition items
    rw [List.partition_eq_filter_filter]
    exact List.filter_append_perm condition items
  partition_fst := by
    intro condition items item hitem
    rw [List.partition_eq_filter_filter] at hitem
    exact (List.mem_filter.mp hitem).2
  partition_snd := by
    intro condition items item hitem
    rw [List.partition_eq_filter_filter] at hitem
    simpa using (List.mem_filter.mp hitem).2
  sort_perm less items := List.perm_insertionSort _ items
  sort_pairwise := by
    intro less items hless
    have := total_of_strictWeakOrder hless
    have := isTrans_of_strictWeakOrder hless
    exact List.pairwise_insertionSort _ items

def samplePoint (value : UInt64) : PointValue := ⟨⟨nullHash, 0⟩, value⟩

/-- Two of three points are needed. -/
theorem greedy_selects_pair :
    let unspent := [samplePoint 3, samplePoint 5, samplePoint 4]
    total unspent < 2 ^ 64 ∧
      ∃ selected, greedy (.stable PointValue) unspent 8 = .ok selected ∧
        Selects unspent 8 selected := by
  intro unspent
  have htotal : total unspent < 2 ^ 64 := by decide
  obtain ⟨selected, hgreedy, -, hselects⟩ :=
    greedy_selects (.stable PointValue) unspent 8 htotal (.inl (by decide))
  exact ⟨htotal, selected, hgreedy, hselects (by decide)⟩

end SelectOutputs

end BitprimCore
