import Mathlib.Order.Fin.Basic

/-!
# In-order matching by a single forward scan

Items of one list are served in order by items of a second list. A cursor that stays on the
server it last used decides whether a weakly monotone assignment exists; an assignment in which
no server serves twice is strictly monotone.
-/

namespace Matching

variable {σ κ : Type*} (serves : σ → κ → Bool)

/-- Every item is assigned a server, never going back. -/
def Monotonic (items : List σ) (servers : List κ) : Prop :=
  ∃ f : Fin items.length → Fin servers.length,
    Monotone f ∧ ∀ i, serves (items.get i) (servers.get (f i)) = true

/-- Every item is assigned a server of its own, in order. -/
def StrictlyMonotonic (items : List σ) (servers : List κ) : Prop :=
  ∃ f : Fin items.length → Fin servers.length,
    StrictMono f ∧ ∀ i, serves (items.get i) (servers.get (f i)) = true

/-- The servers from the first one that serves the item on. -/
def advance (item : σ) (servers : List κ) : List κ :=
  servers.dropWhile fun server => !serves item server

/-- Serve the items one after the other; the cursor stays on the server last used. -/
def scan : List σ → List κ → Bool
  | [], _ => true
  | item :: items, servers =>
    match advance serves item servers with
    | [] => false
    | server :: rest => scan items (server :: rest)

variable {serves} {item : σ} {server : κ} {items : List σ} {servers : List κ}

theorem advance_cons_of_serves (h : serves item server) :
    advance serves item (server :: servers) = server :: servers := by
  simp [advance, h]

theorem advance_cons_of_not_serves (h : serves item server = false) :
    advance serves item (server :: servers) = advance serves item servers := by
  simp [advance, h]

/-- An assignment of its own server to each item is in particular an assignment. -/
theorem StrictlyMonotonic.monotonic (h : StrictlyMonotonic serves items servers) :
    Monotonic serves items servers := by
  obtain ⟨f, hf, hserves⟩ := h
  exact ⟨f, hf.monotone, hserves⟩

theorem Monotonic.nil : Monotonic serves [] servers :=
  ⟨Fin.elim0, fun i => i.elim0, fun i => i.elim0⟩

/-- A server put in front may stay unused. -/
theorem Monotonic.skip (h : Monotonic serves items servers) :
    Monotonic serves items (server :: servers) := by
  obtain ⟨f, hf, hserves⟩ := h
  refine ⟨fun i => (f i).succ, fun i j hij => ?_, fun i => by simpa using hserves i⟩
  exact Fin.succ_le_succ_iff.mpr (hf hij)

/-- The first server may serve one more item in front. -/
theorem Monotonic.take (hserver : serves item server)
    (h : Monotonic serves items (server :: servers)) :
    Monotonic serves (item :: items) (server :: servers) := by
  obtain ⟨f, hf, hserves⟩ := h
  refine ⟨Fin.cases 0 f, ?_, ?_⟩
  · intro i j hij
    induction i using Fin.cases with
    | zero => exact Fin.zero_le _
    | succ i =>
      induction j using Fin.cases with
      | zero => exact absurd hij (not_le.mpr (Fin.succ_pos i))
      | succ j => simpa using hf (Fin.succ_le_succ_iff.mp hij)
  · intro i
    induction i using Fin.cases with
    | zero => simpa using hserver
    | succ i => simpa using hserves i

theorem Monotonic.tail (h : Monotonic serves (item :: items) servers) :
    Monotonic serves items servers := by
  obtain ⟨f, hf, hserves⟩ := h
  refine ⟨fun i => f i.succ, fun i j hij => ?_, fun i => by simpa using hserves i.succ⟩
  exact hf (Fin.succ_le_succ_iff.mpr hij)

theorem not_monotonic_cons_nil : ¬ Monotonic serves (item :: items) [] := by
  rintro ⟨f, -, -⟩
  exact (f 0).elim0

/-- Without the first server: no assignment starts at it when it does not serve the first item. -/
theorem Monotonic.drop (hserver : serves item server = false)
    (h : Monotonic serves (item :: items) (server :: servers)) :
    Monotonic serves (item :: items) servers := by
  obtain ⟨f, hf, hserves⟩ := h
  have hfirst : f 0 ≠ 0 := by
    intro h0
    have := hserves 0
    simp [h0, hserver] at this
  have hne : ∀ i, f i ≠ 0 := by
    intro i h0
    have hle : f 0 ≤ f i := hf (Fin.zero_le i)
    rw [h0] at hle
    exact hfirst (Fin.le_zero_iff.mp hle)
  refine ⟨fun i => (f i).pred (hne i), fun i j hij => ?_, fun i => ?_⟩
  · exact Fin.pred_le_pred_iff.mpr (hf hij)
  · have hget : (server :: servers).get ((f i).pred (hne i)).succ =
        servers.get ((f i).pred (hne i)) := rfl
    rw [← hget, Fin.succ_pred]
    exact hserves i

/-- Looking for the first server that serves the item loses no assignment. -/
theorem monotonic_cons_iff :
    Monotonic serves (item :: items) servers ↔
      advance serves item servers ≠ [] ∧ Monotonic serves items (advance serves item servers) := by
  induction servers with
  | nil => simp [advance, not_monotonic_cons_nil]
  | cons server servers ih =>
    cases hserver : serves item server with
    | true =>
      rw [advance_cons_of_serves hserver]
      refine ⟨fun h => ⟨List.cons_ne_nil _ _, h.tail⟩, fun h => h.2.take hserver⟩
    | false =>
      rw [advance_cons_of_not_serves hserver, ← ih]
      exact ⟨fun h => h.drop hserver, fun h => h.skip⟩

/-- The scan succeeds exactly when a weakly monotone assignment exists. -/
theorem scan_eq_true_iff : scan serves items servers ↔ Monotonic serves items servers := by
  induction items generalizing servers with
  | nil => simp [scan, Monotonic.nil]
  | cons item items ih =>
    rw [monotonic_cons_iff, scan]
    cases advance serves item servers with
    | nil => simp
    | cons server rest => simp [ih]

end Matching
