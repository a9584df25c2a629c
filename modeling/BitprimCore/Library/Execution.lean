import Mathlib.Init

/-!
# Loops with an early exit

A loop runs a step for every item of a list. A step goes on with a new state, leaves the loop with
a result, or breaks a precondition. The rules say when no precondition is ever broken, what holds of
the states a loop visits and of the one it ends in, and when two loops over the same items agree on
the states that one of them visits.
-/

namespace Execution

open List

variable {ι σ ε : Type*}

/-- How a step ends when no precondition is broken. -/
inductive Signal (σ ε : Type*)
  | stop (result : ε) (state : σ)
  | next (state : σ)

/-- The state that a step leaves, wherever it goes from there. -/
def Signal.state : Signal σ ε → σ
  | .stop _ s => s
  | .next s => s

/-- One property holds where it goes on, the other where it stops. -/
def Signal.Ends (P Q : σ → Prop) : Signal σ ε → Prop
  | .stop _ s => Q s
  | .next s => P s

/-- Run the step on every item until one stops; `none` is a broken precondition. -/
def loop (step : ι → σ → Option (Signal σ ε)) : List ι → σ → Option (Signal σ ε)
  | [], s => some (.next s)
  | item :: items, s =>
    match step item s with
    | none => none
    | some (.stop result s) => some (.stop result s)
    | some (.next s) => loop step items s

/-- The loop over the items from the first state comes to the second item in the second state. -/
inductive Visits (step : ι → σ → Option (Signal σ ε)) : List ι → σ → ι → σ → Prop
  | here {item items s} : Visits step (item :: items) s item s
  | later {item items s next item' s'} (hstep : step item s = some (.next next))
      (tail : Visits step items next item' s') : Visits step (item :: items) s item' s'

variable {step step' : ι → σ → Option (Signal σ ε)} {items : List ι} {s t : σ}

/-- The items that a loop comes to, each with the state. -/
def visits (step : ι → σ → Option (Signal σ ε)) : List ι → σ → List (ι × σ)
  | [], _ => []
  | item :: items, s =>
    (item, s) ::
      match step item s with
      | some (.next t) => visits step items t
      | _ => []

theorem Visits.mem_visits {item : ι} (h : Visits step items s item t) :
    (item, t) ∈ visits step items s := by
  induction h with
  | here => exact mem_cons_self
  | later hstep _ ih =>
    rw [visits, hstep]
    exact mem_cons_of_mem _ ih

/-- A loop whose steps keep an invariant and break no precondition under it runs to an end. -/
theorem loop_isSome (Inv : σ → Prop)
    (hstep : ∀ item ∈ items, ∀ s, Inv s → ∃ signal, step item s = some signal ∧
      ∀ s', signal = .next s' → Inv s') (hs : Inv s) : ∃ signal, loop step items s = some signal := by
  induction items generalizing s with
  | nil => exact ⟨.next s, rfl⟩
  | cons item items ih =>
    obtain ⟨signal, hsignal, hkeep⟩ := hstep item mem_cons_self s hs
    cases signal with
    | stop result s' => exact ⟨.stop result s', by simp [loop, hsignal]⟩
    | next s' =>
      obtain ⟨final, hfinal⟩ := ih
        (fun item hitem => hstep item (mem_cons_of_mem _ hitem)) (hkeep s' rfl)
      exact ⟨final, by simpa [loop, hsignal] using hfinal⟩

/-- What holds of every result that a step stops with holds of the result of the loop. -/
theorem loop_stop (Q : ε → Prop)
    (hstep : ∀ item s result s', step item s = some (.stop result s') → Q result) {result : ε}
    (hloop : loop step items s = some (.stop result t)) : Q result := by
  induction items generalizing s with
  | nil => simp [loop] at hloop
  | cons item items ih =>
    cases h : step item s with
    | none => simp [loop, h] at hloop
    | some signal =>
      cases signal with
      | stop first s' =>
        obtain ⟨rfl, rfl⟩ : first = result ∧ s' = t := by simpa [loop, h] using hloop
        exact hstep item s first s' h
      | next s' => exact ih (by simpa [loop, h] using hloop)

/-- What the steps of a loop keep from the states it visits holds where it runs through, and what a
stopping step makes of it where it stops. -/
theorem loop_ends (P Q : σ → Prop) {signal : Signal σ ε}
    (hnext : ∀ item state next, Visits step items s item state → P state →
      step item state = some (.next next) → P next)
    (hstop : ∀ item state result next, Visits step items s item state → P state →
      step item state = some (.stop result next) → Q next)
    (hs : P s) (hloop : loop step items s = some signal) : signal.Ends P Q := by
  induction items generalizing s with
  | nil =>
    cases hloop
    exact hs
  | cons item items ih =>
    cases h : step item s with
    | none => simp [loop, h] at hloop
    | some first =>
      cases first with
      | stop result s' =>
        obtain rfl : Signal.stop result s' = signal := by simpa [loop, h] using hloop
        exact hstop item s result s' .here hs h
      | next s' =>
        apply ih
        · exact fun item' state next hvisit => hnext item' state next (.later h hvisit)
        · exact fun item' state result next hvisit =>
            hstop item' state result next (.later h hvisit)
        · exact hnext item s s' .here hs h
        · simpa [loop, h] using hloop

/-- What the steps of a loop keep holds in the states it visits. -/
theorem Visits.state (P : σ → Prop) {item : ι} (h : Visits step items s item t)
    (hstep : ∀ item ∈ items, ∀ state next, P state → step item state = some (.next next) → P next)
    (hs : P s) : P t := by
  induction h with
  | here => exact hs
  | later hnext tail ih =>
    apply ih
    · exact fun item hitem => hstep item (mem_cons_of_mem _ hitem)
    · exact hstep _ mem_cons_self _ _ hs hnext

/-- The loop over the items before the one that it comes to ends in its state. -/
theorem Visits.loop_before {item : ι} (h : Visits step items s item t) :
    ∃ before after, items = before ++ item :: after ∧ loop step before s = some (.next t) := by
  induction h with
  | here => exact ⟨[], _, rfl, rfl⟩
  | later hstep _ ih =>
    obtain ⟨before, after, rfl, hloop⟩ := ih
    exact ⟨_ :: before, after, rfl, by simpa [loop, hstep] using hloop⟩

theorem loop_singleton (item : ι) : loop step [item] s = step item s := by
  cases h : step item s with
  | none => simp [loop, h]
  | some signal => cases signal <;> simp [loop, h]

/-- A loop over two lists runs through when the loop over the second does from where the first ends. -/
theorem loop_append_eq_next_iff {items' : List ι} :
    loop step (items ++ items') s = some (.next t) ↔
      ∃ u, loop step items s = some (.next u) ∧ loop step items' u = some (.next t) := by
  induction items generalizing s with
  | nil => simp [loop]
  | cons item items ih =>
    cases h : step item s with
    | none => simp [loop, h]
    | some signal =>
      cases signal with
      | stop result s' => simp [loop, h]
      | next s' => simpa [loop, h] using ih

/-- A loop that runs through has gone on from each state it visits. -/
theorem Visits.next_of_loop {item : ι} {final : σ} (h : Visits step items s item t)
    (hloop : loop step items s = some (.next final)) :
    ∃ next rest, step item t = some (.next next) ∧ rest ⊆ items ∧
      loop step rest next = some (.next final) := by
  induction h with
  | @here item items s =>
    cases hstep : step item s with
    | none => simp [loop, hstep] at hloop
    | some signal =>
      cases signal with
      | stop result s' => simp [loop, hstep] at hloop
      | next s' =>
        exact ⟨s', items, rfl, subset_cons_self item items,
          by simpa [loop, hstep] using hloop⟩
  | @later item items s next item' s' hstep tail ih =>
    obtain ⟨after, rest, hafter, hsubset, hrest⟩ := ih (by simpa [loop, hstep] using hloop)
    exact ⟨after, rest, hafter, List.Subset.trans hsubset (subset_cons_self item items), hrest⟩

/-- A loop that runs through is followed by any other whose steps go the same way from the states
the first visits. -/
theorem loop_eq_next_of_visits (hagree : ∀ item state, Visits step items s item state → ∀ state',
      step item state = some (.next state') → step' item state = some (.next state'))
    (hloop : loop step items s = some (.next t)) : loop step' items s = some (.next t) := by
  induction items generalizing s with
  | nil => exact hloop
  | cons item items ih =>
    cases hstep : step item s with
    | none => simp [loop, hstep] at hloop
    | some signal =>
      cases signal with
      | stop result s' => simp [loop, hstep] at hloop
      | next s' =>
        have hstep' : step' item s = some (.next s') := hagree item s .here s' hstep
        have htail : loop step items s' = some (.next t) := by
          simpa [loop, hstep] using hloop
        have hagree' := fun item' state hvisit =>
          hagree item' state (Visits.later hstep hvisit)
        simpa [loop, hstep'] using ih hagree' htail

end Execution
