import Mathlib.Logic.Basic

/-!
# Interchangeable objects

Two objects with the same calls, seen by a caller through the values they return and a report on
their state after each call. They are the same to a sequence of calls if they return and report the
same, for as long as they are alive. If a relation between their states is kept by every call that
meets a condition, and the calls that do not meet it are seen to differ, then the sequences to which
the objects are the same are those whose calls meet the condition.

A caller chooses its calls by what it sees. Objects that are dead stay so, so a caller that ends
with one alive object ends with the same result on the other.
-/

namespace Interchange

variable {κ ω ρ σ τ α : Type}

/-- An object with calls that return values, and a report on its state. -/
structure Machine (κ ω ρ σ : Type) where
  call : κ → σ → ω × σ
  report : σ → ρ

/-- The state after a call. -/
def Machine.next (machine : Machine κ ω ρ σ) (c : κ) (s : σ) : σ := (machine.call c s).2

section

variable (alive : ρ → Bool) (left : Machine κ ω ρ σ) (right : Machine κ ω ρ τ)

/-- A call is seen to do the same. -/
def SameCall (c : κ) (s : σ) (t : τ) : Prop :=
  (left.call c s).1 = (right.call c t).1 ∧
    left.report (left.next c s) = right.report (right.next c t)

/-- The calls are seen to do the same, up to and including the first after which the objects are
not alive. -/
def Same : List κ → σ → τ → Prop
  | [], _, _ => True
  | c :: calls, s, t =>
    SameCall left right c s t ∧
      (alive (left.report (left.next c s)) = true → Same calls (left.next c s) (right.next c t))

/-- The calls meet a condition on the state before them, as far as they are looked at. -/
def Meets (condition : κ → σ → Prop) : List κ → σ → Prop
  | [], _ => True
  | c :: calls, s =>
    condition c s ∧
      (alive (left.report (left.next c s)) = true → Meets condition calls (left.next c s))

/-- The relation is kept by the calls that do the same, and these are those of the condition. -/
structure Lockstep (related : σ → τ → Prop) (condition : κ → σ → Prop) : Prop where
  same_iff : ∀ c s t, related s t → (SameCall left right c s t ↔ condition c s)
  keeps : ∀ c s t, related s t → condition c s →
    alive (left.report (left.next c s)) = true → related (left.next c s) (right.next c t)

variable {alive left right} {related : σ → τ → Prop} {condition : κ → σ → Prop}

theorem Lockstep.same_iff_meets (h : Lockstep alive left right related condition)
    (calls : List κ) {s : σ} {t : τ} (hrel : related s t) :
    Same alive left right calls s t ↔ Meets alive left condition calls s := by
  induction calls generalizing s t with
  | nil => exact Iff.rfl
  | cons c calls ih =>
    rw [Same, Meets, h.same_iff c s t hrel]
    apply and_congr_right
    intro hcond
    apply imp_congr_right
    intro halive
    exact ih (h.keeps c s t hrel hcond halive)

end

/-- A caller of an object, which goes on by the value and by whether the object is alive. -/
inductive Caller (κ ω α : Type) where
  | done (result : α)
  | call (c : κ) (next : ω → Bool → Caller κ ω α)

section

variable (alive : ρ → Bool) (left : Machine κ ω ρ σ) (right : Machine κ ω ρ τ)

/-- Runs a caller. -/
def Caller.run (machine : Machine κ ω ρ σ) : Caller κ ω α → σ → α × σ
  | .done result, s => (result, s)
  | .call c next, s =>
    (next (machine.call c s).1 (alive (machine.report (machine.next c s)))).run machine
      (machine.next c s)

/-- The calls of the caller meet a condition while the object is alive. -/
def Caller.Meets (condition : κ → σ → Prop) : Caller κ ω α → σ → Prop
  | .done _, _ => True
  | .call c next, s =>
    condition c s ∧
      (alive (left.report (left.next c s)) = true →
        (next (left.call c s).1 true).Meets condition (left.next c s))

/-- An object that is not alive stays so. -/
def Sticky (machine : Machine κ ω ρ σ) : Prop :=
  ∀ c s, alive (machine.report s) = false → alive (machine.report (machine.next c s)) = false

variable {alive left right} {related : σ → τ → Prop} {condition : κ → σ → Prop}

theorem Sticky.run {machine : Machine κ ω ρ σ} (h : Sticky alive machine)
    (caller : Caller κ ω α) {s : σ} (hs : alive (machine.report s) = false) :
    alive (machine.report (caller.run alive machine s).2) = false := by
  induction caller generalizing s with
  | done result => exact hs
  | call c next ih => exact ih _ _ (h c s hs)

/-- A caller whose calls meet the condition ends alive with both objects or with none, and if it
does, it ends with the same result. -/
theorem Lockstep.run_eq (h : Lockstep alive left right related condition)
    (hleft : Sticky alive left) (hright : Sticky alive right)
    (hreport : ∀ s t, related s t → alive (left.report s) = alive (right.report t))
    (caller : Caller κ ω α) {s : σ} {t : τ} (hrel : related s t)
    (hmeets : caller.Meets alive left condition s) :
    alive (left.report (caller.run alive left s).2) =
        alive (right.report (caller.run alive right t).2) ∧
      (alive (left.report (caller.run alive left s).2) →
        (caller.run alive left s).1 = (caller.run alive right t).1) := by
  induction caller generalizing s t with
  | done result => exact ⟨hreport s t hrel, fun _ => rfl⟩
  | call c next ih =>
    obtain ⟨hcond, hnext⟩ := hmeets
    obtain ⟨hval, hsame⟩ := (h.same_iff c s t hrel).mpr hcond
    rw [Caller.run, Caller.run, ← hval, ← hsame]
    cases halive : alive (left.report (left.next c s)) with
    | true => exact ih _ _ (h.keeps c s t hrel hcond halive) (hnext halive)
    | false =>
      have hdead := hleft.run (next (left.call c s).1 false) halive
      have hdead' := hright.run (next (left.call c s).1 false) (hsame ▸ halive)
      rw [hdead, hdead']
      exact ⟨rfl, fun hfalse => Bool.noConfusion hfalse⟩

end

end Interchange
