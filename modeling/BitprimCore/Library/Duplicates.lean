import Mathlib.Data.List.Destutter
import Mathlib.Data.List.Sort

/-!
# Duplicates by sorting

To see whether the elements of a list differ, sort the list, drop every element that is equal to its
neighbour, and compare the lengths. For a strict total order this is exact.
-/

namespace Duplicates

open List

variable {α : Type*} (lt : α → α → Prop)

section

variable [IsStrictTotalOrder α lt]

theorem not_lt_total (a b : α) : ¬ lt b a ∨ ¬ lt a b := by
  rcases trichotomous_of lt a b with hlt | rfl | hlt
  · exact .inl (asymm_of lt hlt)
  · exact .inl (irrefl_of lt a)
  · exact .inr (asymm_of lt hlt)

theorem not_lt_trans {a b c : α} (hab : ¬ lt b a) (hbc : ¬ lt c b) : ¬ lt c a := by
  intro hca
  rcases trichotomous_of lt a b with hlt | rfl | hlt
  · exact hbc (trans_of lt hca hlt)
  · exact hbc hca
  · exact hab hlt

/-- In a sorted list equal elements are neighbours. -/
theorem isChain_ne_iff_nodup {l : List α} (hsorted : l.Pairwise fun a b => ¬ lt b a) :
    (l.IsChain fun a b => a ≠ b) ↔ l.Nodup := by
  refine ⟨?_, List.Pairwise.isChain⟩
  intro hchain
  have : Trans lt lt lt := ⟨trans_of lt⟩
  have hstrict : l.IsChain lt := by
    have hle := isChain_iff_getElem.mp hsorted.isChain
    have hne := isChain_iff_getElem.mp hchain
    rw [isChain_iff_getElem]
    intro i hi
    rcases trichotomous_of lt l[i] l[i + 1] with hlt | heq | hlt
    · exact hlt
    · exact absurd heq (hne i hi)
    · exact absurd hlt (hle i hi)
  refine hstrict.pairwise.imp ?_
  rintro a b hlt rfl
  exact irrefl_of lt a hlt

end

section

variable {β : Type*} {f : β → List α} {l : List β}

/-- The element at a position of one of the lists that are merged. -/
def entry (f : β → List α) (l : List β) (position : Nat × Nat) : Option α :=
  l[position.1]?.bind fun x => (f x)[position.2]?

theorem entry_eq_some_iff {position : Nat × Nat} {a : α} :
    entry f l position = some a ↔ ∃ x, l[position.1]? = some x ∧ (f x)[position.2]? = some a :=
  Option.bind_eq_some_iff

/-- The merged list has no duplicates when different positions hold different elements. -/
theorem nodup_flatMap_iff_entry :
    (l.flatMap f).Nodup ↔ ∀ p q a, entry f l p = some a → entry f l q = some a → p = q := by
  rw [List.nodup_flatMap]
  constructor
  · rintro ⟨hnodup, hdisjoint⟩ ⟨t, i⟩ ⟨u, j⟩ a hp hq
    obtain ⟨x, hx, hi⟩ := entry_eq_some_iff.mp hp
    obtain ⟨y, hy, hj⟩ := entry_eq_some_iff.mp hq
    obtain ⟨ht, rfl⟩ := List.getElem?_eq_some_iff.mp hx
    obtain ⟨hu, rfl⟩ := List.getElem?_eq_some_iff.mp hy
    rw [List.pairwise_iff_getElem] at hdisjoint
    rcases Nat.lt_trichotomy t u with hlt | rfl | hlt
    · exact absurd (List.mem_of_getElem? hj) (hdisjoint t u ht hu hlt (List.mem_of_getElem? hi))
    · have hsame := hnodup _ (List.getElem_mem ht)
      obtain ⟨hi, rfl⟩ := List.getElem?_eq_some_iff.mp hi
      obtain ⟨hj, heq⟩ := List.getElem?_eq_some_iff.mp hj
      exact congrArg (Prod.mk t) (hsame.getElem_inj_iff.mp heq).symm
    · exact absurd (List.mem_of_getElem? hi) (hdisjoint u t hu ht hlt (List.mem_of_getElem? hj))
  · intro hentry
    constructor
    · intro x hx
      obtain ⟨t, ht⟩ := List.getElem?_of_mem hx
      rw [List.nodup_iff_getElem?_ne_getElem?]
      intro i j hij hj heq
      obtain ⟨a, ha⟩ : ∃ a, (f x)[j]? = some a := ⟨_, List.getElem?_eq_getElem hj⟩
      have hposition := hentry (t, i) (t, j) a (entry_eq_some_iff.mpr ⟨x, ht, heq.trans ha⟩)
        (entry_eq_some_iff.mpr ⟨x, ht, ha⟩)
      exact hij.ne (Prod.ext_iff.mp hposition).2
    · rw [List.pairwise_iff_getElem]
      intro t u ht hu htu a hleft hright
      obtain ⟨i, hi⟩ := List.getElem?_of_mem hleft
      obtain ⟨j, hj⟩ := List.getElem?_of_mem hright
      have hposition := hentry (t, i) (u, j) a
        (entry_eq_some_iff.mpr ⟨_, List.getElem?_eq_getElem ht, hi⟩)
        (entry_eq_some_iff.mpr ⟨_, List.getElem?_eq_getElem hu, hj⟩)
      exact htu.ne (Prod.ext_iff.mp hposition).1

end

/-- One pass that drops each element equal to the one kept before it. -/
def unique [DecidableEq α] (l : List α) : List α := l.destutter fun a b => a ≠ b

theorem length_unique_eq_iff [DecidableEq α] {l : List α} :
    (unique l).length = l.length ↔ l.IsChain fun a b => a ≠ b := by
  rw [← destutter_eq_self_iff]
  constructor
  · intro hlen
    exact (destutter_sublist _ l).eq_of_length hlen
  · intro hself
    rw [unique, hself]

variable [DecidableRel lt]

/-- The list in the order that the comparison `lt` gives. -/
def sort (l : List α) : List α := l.insertionSort fun a b => ¬ lt b a

theorem pairwise_sort [IsStrictTotalOrder α lt] (l : List α) :
    (sort lt l).Pairwise fun a b => ¬ lt b a := by
  have : Std.Total fun a b => ¬ lt b a := ⟨not_lt_total lt⟩
  have : IsTrans α fun a b => ¬ lt b a := ⟨fun _ _ _ => not_lt_trans lt⟩
  exact pairwise_insertionSort _ l

variable [DecidableEq α]

/-- The elements of the list in order, each of them once. -/
def distinct (l : List α) : List α := unique (sort lt l)

@[simp] theorem distinct_nil : distinct lt ([] : List α) = [] := rfl

/-- No neighbour is dropped from the sorted list. -/
def isDistinct (l : List α) : Bool := decide ((unique (sort lt l)).length = (sort lt l).length)

theorem isDistinct_iff_nodup [IsStrictTotalOrder α lt] (l : List α) :
    isDistinct lt l ↔ l.Nodup := by
  rw [isDistinct, decide_eq_true_iff, length_unique_eq_iff,
    isChain_ne_iff_nodup lt (pairwise_sort lt l)]
  exact (perm_insertionSort _ l).nodup_iff

end Duplicates
