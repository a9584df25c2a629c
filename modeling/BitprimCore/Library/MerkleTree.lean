import Mathlib.Data.List.Infix
import Mathlib.Data.Set.Function

/-!
# Hash trees that double the last element

A list is reduced level by level: neighbours are joined by a node function, and a last element
without a neighbour is joined with itself. Reduction is not injective, since doubling the tail of a
list can leave the root as it is; it is injective on lists without repetition whose elements are no
nodes, as long as the node function is injective on the pairs that the two reductions join.

The argument compares the complete trees. `expand d xs` lists the leaves of the complete tree of
depth `d` over `xs`; it starts with `xs`, repeats only elements of `xs`, and is fixed by the root.
-/

namespace MerkleTree

open List

universe u

variable {α : Type u}

/-- Pair neighbours; a last element without a neighbour is paired with itself. -/
def pairUp : List α → List (α × α)
  | [] => []
  | [a] => [(a, a)]
  | a :: b :: rest => (a, b) :: pairUp rest

/-- The next level of the tree. -/
def level (node : α × α → α) (xs : List α) : List α := (pairUp xs).map node

/-- The list after a number of levels. -/
def reduce (node : α × α → α) : Nat → List α → List α
  | 0, xs => xs
  | d + 1, xs => reduce node d (level node xs)

/-- Reduce while there is more than one element. -/
def reduceLoop (node : α × α → α) : (fuel : Nat) → List α → List α
  | 0, xs => xs
  | fuel + 1, xs => if xs.length > 1 then reduceLoop node fuel (level node xs) else xs

/-- The pairs that a number of levels join. -/
def joined (node : α × α → α) : Nat → List α → List (α × α)
  | 0, _ => []
  | d + 1, xs => pairUp xs ++ joined node d (level node xs)

/-- The number of levels until one element is left. -/
def depth : (fuel : Nat) → (size : Nat) → Nat
  | 0, _ => 0
  | fuel + 1, size => if size > 1 then depth fuel ((size + 1) / 2) + 1 else 0

/-- The leaves of the complete tree of a depth. -/
def expand : Nat → {α : Type u} → List α → List α
  | 0, _, xs => xs
  | d + 1, _, xs => (expand d (pairUp xs)).flatMap fun p => [p.1, p.2]

section

variable (node : α × α → α)

@[simp] theorem length_pairUp (xs : List α) : (pairUp xs).length = (xs.length + 1) / 2 := by
  fun_induction pairUp xs with
  | case1 => simp
  | case2 => simp
  | case3 a b rest ih =>
    simp only [length_cons, ih]
    omega

@[simp] theorem length_level (xs : List α) : (level node xs).length = (xs.length + 1) / 2 := by
  simp [level]

theorem pairUp_map {β : Type u} (f : α → β) (xs : List α) :
    pairUp (xs.map f) = (pairUp xs).map fun p => (f p.1, f p.2) := by
  fun_induction pairUp xs with
  | case1 => rfl
  | case2 => rfl
  | case3 a b rest ih => simp [pairUp, ih]

theorem prefix_flatMap_pairUp (xs : List α) : xs <+: (pairUp xs).flatMap fun p => [p.1, p.2] := by
  fun_induction pairUp xs with
  | case1 => exact prefix_rfl
  | case2 a => exact ⟨[a], rfl⟩
  | case3 a b rest ih =>
    obtain ⟨tail, htail⟩ := ih
    exact ⟨tail, by simp [← htail]⟩

theorem mem_of_mem_pairUp {xs : List α} {p : α × α} (hp : p ∈ pairUp xs) : p.1 ∈ xs ∧ p.2 ∈ xs := by
  fun_induction pairUp xs with
  | case1 => simp at hp
  | case2 a =>
    obtain rfl := mem_singleton.mp hp
    simp
  | case3 a b rest ih =>
    rcases mem_cons.mp hp with rfl | hp
    · simp
    · simp [ih hp]

theorem reduce_add (d k : Nat) (xs : List α) :
    reduce node (k + d) xs = reduce node d (reduce node k xs) := by
  induction k generalizing xs with
  | zero => simp [reduce]
  | succ k ih =>
    rw [Nat.add_right_comm, reduce, reduce]
    exact ih (level node xs)

theorem joined_add (d k : Nat) (xs : List α) :
    joined node (k + d) xs = joined node k xs ++ joined node d (reduce node k xs) := by
  induction k generalizing xs with
  | zero => simp [joined, reduce]
  | succ k ih =>
    rw [Nat.add_right_comm, joined, joined, reduce, ih, List.append_assoc]

theorem reduceLoop_eq (fuel : Nat) (xs : List α) :
    reduceLoop node fuel xs = reduce node (depth fuel xs.length) xs := by
  induction fuel generalizing xs with
  | zero => rfl
  | succ fuel ih =>
    rw [reduceLoop, depth]
    split
    · rw [ih, length_level, reduce]
    · rfl

/-- With enough fuel one element is left. -/
theorem length_reduce_depth {fuel : Nat} {xs : List α} (hfuel : xs.length ≤ fuel) (hne : xs ≠ []) :
    (reduce node (depth fuel xs.length) xs).length = 1 := by
  induction fuel generalizing xs with
  | zero => exact absurd (eq_nil_of_length_eq_zero (Nat.le_zero.mp hfuel)) hne
  | succ fuel ih =>
    have hpos : 0 < xs.length := length_pos_of_ne_nil hne
    rw [depth]
    split
    · next hsize =>
        rw [reduce, ← length_level node]
        have hlen := length_level node xs
        exact ih (by omega) (ne_nil_of_length_pos (by omega))
    · next hsize =>
        rw [reduce]
        omega

end

theorem expand_map (d : Nat) {β : Type u} (f : α → β) (xs : List α) :
    expand d (xs.map f) = (expand d xs).map f := by
  induction d generalizing α β with
  | zero => rfl
  | succ d ih => simp [expand, pairUp_map, ih, flatMap_map, map_flatMap]

/-- The leaves start with the list. -/
theorem prefix_expand (d : Nat) (xs : List α) : xs <+: expand d xs := by
  induction d generalizing α with
  | zero => exact prefix_rfl
  | succ d ih =>
    obtain ⟨tail, htail⟩ := ih (pairUp xs)
    rw [expand, ← htail, flatMap_append]
    exact (prefix_flatMap_pairUp xs).trans (prefix_append _ _)

/-- The leaves repeat elements of the list only. -/
theorem mem_of_mem_expand {d : Nat} {xs : List α} {a : α} (ha : a ∈ expand d xs) : a ∈ xs := by
  induction d generalizing α with
  | zero => exact ha
  | succ d ih =>
    obtain ⟨p, hp, hap⟩ := mem_flatMap.mp ha
    have hmem := mem_of_mem_pairUp (ih hp)
    rcases mem_pair.mp hap with rfl | rfl
    · exact hmem.1
    · exact hmem.2

section

variable {node : α × α → α} {xs ys : List α} {d e : Nat}

private theorem eq_of_map_eq {β : Type u} {f : α → β} {s : Set α} (hf : Set.InjOn f s)
    {xs ys : List α} (hxs : ∀ x ∈ xs, x ∈ s) (hys : ∀ y ∈ ys, y ∈ s) (h : xs.map f = ys.map f) :
    xs = ys := by
  induction xs generalizing ys with
  | nil => exact (map_eq_nil_iff.mp h.symm).symm
  | cons x xs ih =>
    cases ys with
    | nil => simp at h
    | cons y ys =>
      rw [forall_mem_cons] at hxs hys
      simp only [map_cons, List.cons.injEq] at h
      rw [hf hxs.1 hys.1 h.1, ih hxs.2 hys.2 h.2]

/-- What a number of levels leaves fixes the leaves of the complete tree. -/
theorem expand_eq_of_reduce_eq
    (hinj : Set.InjOn node { p | p ∈ joined node d xs ∨ p ∈ joined node d ys })
    (h : reduce node d xs = reduce node d ys) : expand d xs = expand d ys := by
  induction d generalizing xs ys with
  | zero => exact h
  | succ d ih =>
    have hlevel : expand d (level node xs) = expand d (level node ys) := by
      apply ih (hinj.mono _) h
      intro p hp
      exact hp.imp (mem_append_right _) (mem_append_right _)
    rw [level, level, expand_map, expand_map] at hlevel
    have hpairs : expand d (pairUp xs) = expand d (pairUp ys) := by
      apply eq_of_map_eq hinj _ _ hlevel
      · intro p hp
        exact Or.inl (mem_append_left _ (mem_of_mem_expand hp))
      · intro p hp
        exact Or.inr (mem_append_left _ (mem_of_mem_expand hp))
    rw [expand, expand, hpairs]

private theorem eq_of_prefix_of_subset {zs : List α} (hx : xs.Nodup) (hy : ys.Nodup)
    (hxs : xs <+: zs) (hys : ys <+: zs) (hzx : ∀ z ∈ zs, z ∈ xs) (hzy : ∀ z ∈ zs, z ∈ ys) :
    xs = ys := by
  have hshort : ∀ {us vs : List α}, us <+: vs → vs.Nodup → (∀ v ∈ vs, v ∈ us) → us = vs := by
    rintro us _ ⟨tail, rfl⟩ hnodup hsub
    have htail : tail = [] := by
      rw [eq_nil_iff_forall_not_mem]
      intro a ha
      exact (nodup_append.mp hnodup).2.2 a (hsub a (mem_append_right _ ha)) a ha rfl
    rw [htail, append_nil]
  rcases prefix_or_prefix_of_prefix hxs hys with hprefix | hprefix
  · exact hshort hprefix hy fun v hv => hzx v (hys.subset hv)
  · exact (hshort hprefix hx fun v hv => hzy v (hxs.subset hv)).symm

/-- At one depth, lists without repetition are fixed by what the levels leave. -/
theorem eq_of_reduce_eq (hx : xs.Nodup) (hy : ys.Nodup)
    (hinj : Set.InjOn node { p | p ∈ joined node d xs ∨ p ∈ joined node d ys })
    (h : reduce node d xs = reduce node d ys) : xs = ys := by
  have hexpand := expand_eq_of_reduce_eq hinj h
  apply eq_of_prefix_of_subset hx hy (prefix_expand d xs) (hexpand ▸ prefix_expand d ys)
  · exact fun z hz => mem_of_mem_expand hz
  · exact fun z hz => mem_of_mem_expand (hexpand ▸ hz)

/-- At two depths, the first leaf of the shallow tree is a node of the deep one. -/
theorem head_mem_of_reduce_eq {k : Nat} (hx : xs ≠ [])
    (hinj : Set.InjOn node { p | p ∈ joined node d xs ∨ p ∈ joined node (k + 1 + d) ys })
    (h : reduce node d xs = reduce node (k + 1 + d) ys) :
    ∃ x ∈ xs, ∃ p ∈ joined node (k + 1 + d) ys, x = node p := by
  rw [joined_add] at hinj ⊢
  rw [reduce_add] at h
  have hexpand := expand_eq_of_reduce_eq (hinj.mono fun p hp =>
    hp.imp_right (mem_append_right _)) h
  obtain ⟨x, xs, rfl⟩ := exists_cons_of_ne_nil hx
  have hlast := reduce_add node 1 k ys
  have hjoined : joined node (k + 1) ys = joined node k ys ++ pairUp (reduce node k ys) := by
    rw [joined_add, joined, joined, append_nil]
  have hmem : x ∈ reduce node (k + 1) ys := by
    apply mem_of_mem_expand (d := d)
    rw [← hexpand]
    exact (prefix_expand d (x :: xs)).subset mem_cons_self
  rw [hlast] at hmem
  obtain ⟨p, hp, rfl⟩ := mem_map.mp hmem
  refine ⟨node p, mem_cons_self, p, ?_, rfl⟩
  rw [hjoined]
  exact mem_append_left _ (mem_append_right _ hp)

/-- Nonempty lists without repetition, none of whose elements is a node, are fixed by what is left
at any two depths. -/
theorem eq_of_roots_eq (hx : xs.Nodup) (hy : ys.Nodup) (hxne : xs ≠ []) (hyne : ys ≠ [])
    (hinj : Set.InjOn node { p | p ∈ joined node d xs ∨ p ∈ joined node e ys })
    (hleaf : ∀ a, a ∈ xs ∨ a ∈ ys → ∀ p, p ∈ joined node d xs ∨ p ∈ joined node e ys → a ≠ node p)
    (h : reduce node d xs = reduce node e ys) : xs = ys := by
  rcases Nat.lt_trichotomy d e with hlt | rfl | hlt
  · obtain ⟨k, rfl⟩ : ∃ k, e = k + 1 + d := ⟨e - d - 1, by omega⟩
    obtain ⟨x, hmem, p, hp, hnode⟩ := head_mem_of_reduce_eq hxne hinj h
    exact absurd hnode (hleaf x (Or.inl hmem) p (Or.inr hp))
  · exact eq_of_reduce_eq hx hy hinj h
  · obtain ⟨k, rfl⟩ : ∃ k, d = k + 1 + e := ⟨d - e - 1, by omega⟩
    have hinj' := hinj.mono fun p hp => Or.symm hp
    obtain ⟨y, hmem, p, hp, hnode⟩ := head_mem_of_reduce_eq hyne hinj' h.symm
    exact absurd hnode (hleaf y (Or.inr hmem) p (Or.inl hp))

end

end MerkleTree
