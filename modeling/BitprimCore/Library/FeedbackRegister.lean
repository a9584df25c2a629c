import Mathlib.Algebra.Group.Basic
import Mathlib.Algebra.Group.Hom.Defs
import Mathlib.Data.List.Basic

/-!
# Feedback registers

A register takes in symbols one by one. In each turn its state is shifted by an additive map and
the symbol is added. What two runs differ by is then the run of the differences, so a word of
symbols can be completed to reach a given state, and a change within a short window is seen at the
end, however much follows.
-/

namespace FeedbackRegister

open List

/-- The two additive maps of a register. -/
structure Register (G D : Type*) [AddCommGroup G] [AddCommGroup D] where
  shift : G →+ G
  inject : D →+ G

namespace Register

variable {G D : Type*} [AddCommGroup G] [AddCommGroup D] (register : Register G D)
  (state : G) (symbols : List D)

/-- Shifts a symbol in. -/
def step (state : G) (symbol : D) : G := register.shift state + register.inject symbol

/-- Shifts all symbols in. -/
def run (state : G) (symbols : List D) : G := symbols.foldl register.step state

@[simp] theorem run_nil : register.run state [] = state := rfl

@[simp] theorem run_cons (symbol : D) (symbols : List D) :
    register.run state (symbol :: symbols) = register.run (register.step state symbol) symbols := rfl

theorem run_append (front back : List D) :
    register.run state (front ++ back) = register.run (register.run state front) back :=
  foldl_append

theorem step_add (state' : G) (symbol symbol' : D) :
    register.step (state + state') (symbol + symbol') =
      register.step state symbol + register.step state' symbol' := by
  unfold step
  rw [map_add, map_add]
  exact add_add_add_comm _ _ _ _

/-- A run from a sum over sums of symbols is the sum of the runs. -/
theorem run_add {state state' : G} {symbols symbols' : List D}
    (h : symbols.length = symbols'.length) :
    register.run (state + state') (zipWith (· + ·) symbols symbols') =
      register.run state symbols + register.run state' symbols' := by
  induction symbols generalizing state state' symbols' with
  | nil =>
    obtain rfl : symbols' = [] := eq_nil_of_length_eq_zero h.symm
    rfl
  | cons symbol symbols ih =>
    cases symbols' with
    | nil => cases h
    | cons symbol' symbols' =>
      rw [zipWith_cons_cons, run_cons, step_add, ih (Nat.succ.inj h)]
      rfl

theorem zipWith_zero_add : zipWith (· + ·) (replicate symbols.length 0) symbols = symbols := by
  induction symbols with
  | nil => rfl
  | cons symbol symbols ih =>
    rw [length_cons, replicate_succ, zipWith_cons_cons, ih, zero_add]

/-- The state and the symbols add up: the state goes through zeros, and the symbols start from
zero. -/
theorem run_eq_add :
    register.run state symbols =
      register.run state (replicate symbols.length 0) + register.run 0 symbols := by
  rw [← register.run_add (length_replicate ..), add_zero, zipWith_zero_add]

/-- A register whose shift is injective keeps states apart. -/
theorem run_left_injective (hshift : Function.Injective register.shift) (symbols : List D) :
    Function.Injective fun state => register.run state symbols := by
  induction symbols with
  | nil => exact fun _ _ h => h
  | cons symbol symbols ih =>
    intro state state' h
    exact hshift (add_right_cancel (ih h))

/-- Two words that differ in a window only, on which runs from zero are injective, lead to
different states. -/
theorem window_eq_of_run_eq (hshift : Function.Injective register.shift) {state : G}
    {front window window' back : List D} (hlen : window.length = window'.length)
    (hwindow : register.run 0 window = register.run 0 window' → window = window')
    (h : register.run state (front ++ window ++ back) =
      register.run state (front ++ window' ++ back)) : window = window' := by
  simp only [run_append] at h
  have hinner := register.run_left_injective hshift back h
  rw [run_eq_add _ _ window, run_eq_add _ _ window', hlen] at hinner
  exact hwindow (add_left_cancel hinner)

end Register

/-- Bits whose addition is exclusive or. -/
@[ext]
structure XorVec (width : Nat) where
  bits : BitVec width
  deriving DecidableEq

namespace XorVec

variable {width : Nat}

instance : Add (XorVec width) := ⟨fun a b => ⟨a.bits ^^^ b.bits⟩⟩

instance : Zero (XorVec width) := ⟨⟨0⟩⟩

instance : Neg (XorVec width) := ⟨id⟩

@[simp] theorem bits_add (a b : XorVec width) : (a + b).bits = a.bits ^^^ b.bits := rfl

@[simp] theorem bits_zero : (0 : XorVec width).bits = 0 := rfl

instance : AddCommGroup (XorVec width) where
  add_assoc a b c := by
    ext1
    exact BitVec.xor_assoc a.bits b.bits c.bits
  zero_add a := by
    ext1
    exact BitVec.zero_xor
  add_zero a := by
    ext1
    exact BitVec.xor_zero
  add_comm a b := by
    ext1
    exact BitVec.xor_comm a.bits b.bits
  neg_add_cancel a := by
    ext1
    exact BitVec.xor_self
  nsmul := nsmulRec
  zsmul := zsmulRec

/-- Every element is its own negative. -/
theorem add_self (a : XorVec width) : a + a = 0 := by
  ext1
  exact BitVec.xor_self

theorem add_add_cancel (a b : XorVec width) : a + (a + b) = b := by
  rw [← add_assoc, add_self, zero_add]

theorem add_eq_iff {a b c : XorVec width} : a + b = c ↔ a + c = b := by
  constructor
  · rintro rfl
    exact add_add_cancel a b
  · rintro rfl
    exact add_add_cancel a c

end XorVec

end FeedbackRegister
