import Mathlib.Logic.Function.Basic

/-!
# Cached values and guarded runs

An object keeps a content and caches values that are computed from it, one in each slot. It is
coherent when every cached value is the one that its content gives. Coherence is kept by a change
that clears a slot, fills it, or leaves it alone and leaves the value that belongs in it alone.

Objects have names. An operation replaces one object, or two when it moves one to the other. A run
applies operations one after the other. What every operation keeps, if it meets a condition on the
state that it is applied to, holds at the end of every run that meets the condition.
-/

namespace Memo

section

variable {γ σ : Type*} {ν : σ → Type*}

/-- A content with a cache for each slot. -/
structure Object (γ : Type*) {σ : Type*} (ν : σ → Type*) where
  content : γ
  slot : (s : σ) → Option (ν s)

variable {compute : (s : σ) → γ → ν s} {o o' : Object γ ν}

/-- Every cached value is the one that the content gives. -/
def Object.Coherent (compute : (s : σ) → γ → ν s) (o : Object γ ν) : Prop :=
  ∀ s, ∀ value ∈ o.slot s, value = compute s o.content

/-- A slot is cleared, filled, or left alone together with its value. -/
def Object.Maintains (compute : (s : σ) → γ → ν s) (o o' : Object γ ν) : Prop :=
  ∀ s, o'.slot s = none ∨ o'.slot s = some (compute s o'.content) ∨
    (o'.slot s = o.slot s ∧ compute s o'.content = compute s o.content)

theorem Object.coherent_of_empty (h : ∀ s, o.slot s = none) : o.Coherent compute := by
  intro s value hval
  rw [h s] at hval
  cases hval

theorem Object.Coherent.of_maintains (h : o.Coherent compute) (hstep : o.Maintains compute o') :
    o'.Coherent compute := by
  intro s value hval
  obtain hnone | hfilled | ⟨hkept, hsame⟩ := hstep s
  · rw [hnone] at hval
    cases hval
  · rw [hfilled] at hval
    exact (Option.some.inj hval).symm
  · rw [hkept] at hval
    exact (h s value hval).trans hsame.symm

/-- One slot is filled with the value that belongs into it, the others stay. -/
theorem Object.Coherent.fill [DecidableEq σ] (h : o.Coherent compute) (filled : σ)
    (hcontent : o'.content = o.content)
    (hslots : ∀ s, o'.slot s = if s = filled then some (compute s o.content) else o.slot s) :
    o'.Coherent compute := by
  apply h.of_maintains
  intro s
  by_cases hs : s = filled
  · right; left
    rw [hslots, if_pos hs, hcontent]
  · right; right
    rw [hslots, if_neg hs, hcontent]
    exact ⟨rfl, rfl⟩

/-- A cached value is the computed one, so reading the cache first changes nothing. -/
theorem Object.Coherent.getD_eq (h : o.Coherent compute) (s : σ) :
    (o.slot s).getD (compute s o.content) = compute s o.content := by
  cases hslot : o.slot s with
  | none => rfl
  | some value => exact h s value hslot

end

section

variable {α ω : Type*} {cache : Option α} {value : α} {o : ω} {fill : Option α → ω}

/-- Read a cache of an object, and fill it when it is empty. -/
def cached (cache : Option α) (value : α) (o : ω) (fill : Option α → ω) : α × ω :=
  match cache with
  | some value => (value, o)
  | none => (value, fill (some value))

theorem cached_fst : (cached cache value o fill).1 = cache.getD value := by
  cases cache <;> rfl

/-- What holds of the object and of the filled one holds afterwards. -/
theorem cached_snd {P : ω → Prop} (h : P o) (hfill : P (fill (some value))) :
    P (cached cache value o fill).2 := by
  cases cache with
  | none => exact hfill
  | some value => exact h

end

section

open Function

variable {ι ω : Type*} [DecidableEq ι] {store : ι → ω} {target source : ι} {o : ω} {P : ω → Prop}

/-- Put an object in its place, then change the one that it was moved from. -/
def transfer (moved : ω → ω) (store : ι → ω) (target source : ι) (o : ω) : ι → ω :=
  let store := update store target o
  update store source (moved (store source))

theorem forall_update (h : ∀ i, P (store i)) (ho : P o) : ∀ i, P (update store target o i) :=
  (forall_update_iff store fun _ o => P o).mpr ⟨ho, fun i _ => h i⟩

theorem forall_transfer {moved : ω → ω} (h : ∀ i, P (store i)) (ho : P o)
    (hmoved : P (update store target o source) → P (moved (update store target o source))) :
    ∀ i, P (transfer moved store target source o i) := by
  have hplaced : ∀ i, P (update store target o i) := forall_update h ho
  exact forall_update hplaced (hmoved (hplaced source))

end

section

variable {σ α : Type*} {step : σ → α → σ} {guard : σ → α → Prop}

/-- Apply operations one after the other. -/
def run (step : σ → α → σ) (s : σ) (ops : List α) : σ := ops.foldl step s

/-- Every operation meets the condition in the state that it is applied to. -/
def Guarded (step : σ → α → σ) (guard : σ → α → Prop) : σ → List α → Prop
  | _, [] => True
  | s, op :: ops => guard s op ∧ Guarded step guard (step s op) ops

theorem run_invariant {Inv : σ → Prop} (hstep : ∀ s op, Inv s → guard s op → Inv (step s op))
    {s : σ} {ops : List α} (hs : Inv s) (hguarded : Guarded step guard s ops) :
    Inv (run step s ops) := by
  induction ops generalizing s with
  | nil => exact hs
  | cons op ops ih => exact ih (hstep s op hs hguarded.1) hguarded.2

end

end Memo
