import BitprimCore.Library.Decoder

/-!
# Readers with a failure flag

A stream hands out what it has. A read that asks for more gets the items that arrive and sets a
flag, and every read behind it fails too. Such a reader returns a value in any case. It decodes as
a given decoder does if it returns the value of the decoder when there is one and has failed when
there is none.
-/

namespace StickyReader

open Decoder List

/-- The items left to read, and whether a read has failed. -/
structure Source (σ : Type) where
  items : List σ
  failed : Bool := false
  deriving DecidableEq

/-- A read on a source. -/
abbrev Reader (σ α : Type) := StateM (Source σ) α

section

variable {σ α : Type}

/-- The items that arrive of a read. A failed source gives none. -/
def arrive (size : Nat) : Reader σ (List σ) := fun source =>
  if source.failed then ([], source)
  else (source.items.take size, ⟨source.items.drop size, decide (source.items.length < size)⟩)

/-- Every later read fails. -/
def invalidate : Reader σ PUnit := fun source => (⟨⟩, { source with failed := true })

def hasFailed : Reader σ Bool := fun source => (source.failed, source)

/-- Clear the object if the source has failed, and return the state of the source. -/
def finish (object cleared : α) : Reader σ (Bool × α) := do
  if ← hasFailed then return (false, cleared) else return (true, object)

/-- Go on if the reader returned true, and else return at once. -/
def andThen {β : Type} (read : Reader σ (Bool × α)) (next : α → Reader σ (Bool × β))
    (skipped : α → β) : Reader σ (Bool × β) := do
  let (result, value) ← read
  if result then next value else return (false, skipped value)

/-- Read each of the items for as long as the reader succeeds. -/
def readWhile (read : α → Reader σ (Bool × α)) : Bool → List α → Reader σ (List α)
  | true, item :: items => do
    let (result, item) ← read item
    let items ← readWhile read result items
    return item :: items
  | _, items => return items

/-- Read each of the items, also behind a failure. -/
def readAll {β : Type} (read : α → Reader σ β) : List α → Reader σ (List β)
  | [] => return []
  | item :: items => do
    let value ← read item
    let values ← readAll read items
    return value :: values

/-- Read a number of values. -/
def readMany (read : Reader σ α) (count : Nat) : Reader σ (List α) :=
  readAll (fun _ : PUnit => read) (List.replicate count ⟨⟩)

end

section

variable {σ α β : Type}

theorem bind_run (read : Reader σ α) (next : α → Reader σ β) (source : Source σ) :
    (read >>= next) source = next (read source).1 (read source).2 := rfl

theorem pure_run (a : α) (source : Source σ) : (pure a : Reader σ α) source = (a, source) := rfl

theorem finish_run (object cleared : α) (source : Source σ) :
    finish object cleared source =
      ((!source.failed, if source.failed then cleared else object), source) := by
  obtain ⟨items, failed⟩ := source
  cases failed <;> rfl

end

section

variable {σ α β : Type}

/-- The relation holds between what the reader returns and the source it leaves. -/
def Ends (read : Reader σ α) (P : α → Source σ → Prop) : Prop :=
  ∀ source, P (read source).1 (read source).2

theorem ends_bind (read : Reader σ α) {next : α → Reader σ β} {P : β → Source σ → Prop}
    (h : ∀ a, Ends (next a) P) : Ends (read >>= next) P :=
  fun source => h (read source).1 (read source).2

theorem ends_finish {object cleared : α} {P : Bool × α → Source σ → Prop}
    (hfail : ∀ source, source.failed → P (false, cleared) source)
    (hgood : ∀ source, source.failed = false → P (true, object) source) :
    Ends (finish object cleared) P := by
  intro source
  rw [finish_run]
  cases hstate : source.failed with
  | true => exact hfail source hstate
  | false => exact hgood source hstate

theorem ends_andThen {read : Reader σ (Bool × α)} {next : α → Reader σ (Bool × β)}
    {skipped : α → β} {P : Bool × α → Source σ → Prop} {Q : Bool × β → Source σ → Prop}
    (h : Ends read P) (hskipped : ∀ a source, P (false, a) source → Q (false, skipped a) source)
    (hnext : ∀ a source, P (true, a) source → Q (next a source).1 (next a source).2) :
    Ends (andThen read next skipped) Q := by
  intro source
  have hfirst := h source
  rw [andThen, bind_run]
  generalize read source = outcome at hfirst ⊢
  obtain ⟨⟨result, a⟩, rest⟩ := outcome
  cases result with
  | true => exact hnext a rest hfirst
  | false => exact hskipped a rest hfirst

theorem Ends.bind {read : Reader σ α} {next : α → Reader σ β} {P : α → Prop}
    {Q : β → Source σ → Prop}
    (h : Ends read fun a _ => P a) (hnext : ∀ a, P a → Ends (next a) Q) : Ends (read >>= next) Q :=
  fun source => hnext _ (h source) _

end

section

variable {σ α β : Type} {reset : α → α} {object : α}

/-- The reader keeps what a reset leaves of the object, and if it fails it has reset the object. -/
def Resets (read : Reader σ (Bool × α)) (reset : α → α) (object : α) : Prop :=
  Ends read fun result _ =>
    reset result.2 = reset object ∧ (result.1 = false → result.2 = reset object)

theorem resets_finish {changed : α} (h : reset changed = reset object)
    (hreset : reset (reset object) = reset object) :
    Resets (finish changed (reset changed) : Reader σ (Bool × α)) reset object := by
  refine ends_finish (fun _ _ => ?_) fun _ _ => ⟨h, fun hres => by cases hres⟩
  rw [h]
  exact ⟨hreset, fun _ => rfl⟩

/-- A part of an object is read first, and the rest only behind it. -/
theorem Resets.andThen {read : Reader σ (Bool × α)} {next : α → Reader σ (Bool × β)}
    {skipped : α → β} {reset' : β → β} {whole : β} (h : Resets read reset object)
    (hskipped : skipped (reset object) = reset' whole)
    (hreset : reset' (reset' whole) = reset' whole)
    (hnext : ∀ a, reset a = reset object → Resets (next a) reset' whole) :
    Resets (andThen read next skipped) reset' whole := by
  refine ends_andThen h ?_ fun a source hread => hnext a hread.1 source
  rintro a source ⟨-, hfailed⟩
  obtain rfl : a = reset object := hfailed rfl
  rw [hskipped]
  exact ⟨hreset, fun _ => rfl⟩

end

section

variable {σ α β : Type}

/-- The reader puts nothing back. -/
def Shrinks (read : Reader σ α) : Prop :=
  ∀ source, (read source).2.items.length ≤ source.items.length

theorem shrinks_bind {read : Reader σ α} {next : α → Reader σ β} (h : Shrinks read)
    (hnext : ∀ a, Shrinks (next a)) : Shrinks (read >>= next) :=
  fun source => Nat.le_trans (hnext _ _) (h source)

theorem shrinks_pure (a : α) : Shrinks (pure a : Reader σ α) := fun _ => Nat.le_refl _

theorem shrinks_invalidate : Shrinks (invalidate : Reader σ PUnit) := fun _ => Nat.le_refl _

theorem shrinks_arrive (size : Nat) : Shrinks (arrive size : Reader σ (List σ)) := by
  intro source
  unfold arrive
  split
  · exact Nat.le_refl _
  · rw [length_drop]
    exact Nat.sub_le _ _

end

section

variable {σ : Type} (items : List σ)

/-- The source after a read of so many items. -/
def after (size : Nat) : Source σ := ⟨items.drop size, decide (items.length < size)⟩

theorem after_zero : after items 0 = ⟨items, false⟩ := by
  simp [after]

/-- In a row of reads each gets what stands at its place, be it complete or not. -/
theorem arrive_after (size width : Nat) :
    arrive width (after items size) =
      ((items.drop size).take width, after items (size + width)) := by
  by_cases hshort : items.length < size
  · have hempty : items.drop size = [] := List.drop_eq_nil_of_le (Nat.le_of_lt hshort)
    have hempty' : items.drop (size + width) = [] := drop_eq_nil_of_le (by omega)
    have hshort' : items.length < size + width := by omega
    simp [arrive, after, hshort, hshort', hempty, hempty']
  · have hfail : decide (items.length < size) = false := decide_eq_false hshort
    have hiff : (items.drop size).length < width ↔ items.length < size + width := by
      rw [length_drop]
      omega
    simp only [arrive, after, hfail, Bool.false_eq_true, if_false, drop_drop,
      decide_eq_decide.mpr hiff]

end

section

variable {σ α β γ δ : Type}

/-- The reader succeeds when the decoder does, with its value and its rest. -/
structure Decodes (read : Reader σ α) (value : α → β) (decode : List σ → Option (β × List σ)) :
    Prop where
  sticky : ∀ source, source.failed = true → (read source).2.failed = true
  reads : ∀ items result rest, decode items = some (result, rest) →
    ∃ a, read ⟨items, false⟩ = (a, ⟨rest, false⟩) ∧ value a = result
  fails : ∀ items, decode items = none → (read ⟨items, false⟩).2.failed = true

theorem decodes_pure {a : α} {value : α → β} {b : β} (h : value a = b) :
    Decodes (pure a : Reader σ α) value fun items => some (b, items) where
  sticky _ hfail := hfail
  reads items result rest hdec := by
    obtain ⟨rfl, rfl⟩ : b = result ∧ items = rest := by simpa using hdec
    exact ⟨a, rfl, h⟩
  fails _ hdec := by cases hdec

/-- One reader behind another, which needs to decode only what the first returns on success. -/
theorem Decodes.bind_of {read : Reader σ α} {value : α → β} {decode : List σ → Option (β × List σ)}
    {next : α → Reader σ γ} {value' : γ → δ} {decode' : β × List σ → Option (δ × List σ)}
    (h : Decodes read value decode)
    (hsticky : ∀ a source, source.failed → (next a source).2.failed)
    (hnext : ∀ items a rest, read ⟨items, false⟩ = (a, ⟨rest, false⟩) →
      Decodes (next a) value' fun items => decode' (value a, items)) :
    Decodes (read >>= next) value' fun items => decode items >>= decode' where
  sticky source hfail := hsticky _ _ (h.sticky source hfail)
  reads items result rest hdec := by
    obtain ⟨⟨b, between⟩, hfirst, hsecond⟩ := Option.bind_eq_some_iff.mp hdec
    obtain ⟨a, hread, rfl⟩ := h.reads items b between hfirst
    obtain ⟨c, hread', hval⟩ := (hnext items a between hread).reads between result rest hsecond
    refine ⟨c, ?_, hval⟩
    change next (read ⟨items, false⟩).1 (read ⟨items, false⟩).2 = _
    rw [hread]
    exact hread'
  fails items hdec := by
    change (next (read ⟨items, false⟩).1 (read ⟨items, false⟩).2).2.failed = true
    cases hfirst : decode items with
    | none => exact hsticky _ _ (h.fails items hfirst)
    | some pair =>
      obtain ⟨b, between⟩ := pair
      obtain ⟨a, hread, rfl⟩ := h.reads items b between hfirst
      have hnone : decode' (value a, between) = none := by
        rw [hfirst] at hdec
        exact hdec
      rw [hread]
      exact (hnext items a between hread).fails between hnone

theorem Decodes.bind {read : Reader σ α} {value : α → β} {decode : List σ → Option (β × List σ)}
    {next : α → Reader σ γ} {value' : γ → δ} {decode' : β × List σ → Option (δ × List σ)}
    (h : Decodes read value decode)
    (hnext : ∀ a, Decodes (next a) value' fun items => decode' (value a, items)) :
    Decodes (read >>= next) value' fun items => decode items >>= decode' :=
  h.bind_of (fun a => (hnext a).sticky) fun _ a _ _ => hnext a

theorem Decodes.map {read : Reader σ α} {value : α → β} {decode : List σ → Option (β × List σ)}
    {f : α → γ} {g : β → δ} {value' : γ → δ} (h : Decodes read value decode)
    (hval : ∀ items a rest, read ⟨items, false⟩ = (a, ⟨rest, false⟩) → value' (f a) = g (value a)) :
    Decodes (do return f (← read)) value' fun items =>
      (decode items).map fun pair => (g pair.1, pair.2) := by
  have hbind : Decodes (read >>= fun a => pure (f a)) value'
      fun items => decode items >>= fun pair => some (g pair.1, pair.2) :=
    h.bind_of (fun _ _ hfail => hfail)
      fun items a rest hread => decodes_pure (hval items a rest hread)
  have hmap : (fun items => (decode items).map fun pair => (g pair.1, pair.2)) =
      fun items => decode items >>= fun pair => some (g pair.1, pair.2) := by
    funext items
    exact Option.map_eq_bind
  rw [hmap]
  exact hbind

end

section

variable {σ α β : Type}

/-- The reader takes a code off the front of its source and returns the value of it. -/
def Takes (read : Reader σ α) (code : List σ) (a : α) : Prop :=
  ∀ rest, read ⟨code ++ rest, false⟩ = (a, ⟨rest, false⟩)

theorem takes_pure (a : α) : Takes (pure a : Reader σ α) [] a := fun _ => rfl

theorem Takes.bind {read : Reader σ α} {code code' : List σ} {a : α} {next : α → Reader σ β} {b : β}
    (h : Takes read code a) (h' : Takes (next a) code' b) :
    Takes (read >>= next) (code ++ code') b := by
  intro rest
  rw [bind_run, append_assoc, h]
  exact h' rest

theorem Takes.map {read : Reader σ α} {code : List σ} {a : α} (h : Takes read code a) (f : α → β) :
    Takes (do return f (← read)) code (f a) := by
  intro rest
  rw [bind_run, h]
  rfl

/-- A reader takes the codes that its decoder reads. -/
theorem Decodes.takes {read : Reader σ α} {decode : List σ → Option (α × List σ)}
    (h : Decodes read id decode) {code : List σ} {a : α} (hreads : Reads decode code a) :
    Takes read code a := by
  intro rest
  obtain ⟨a', hread, rfl⟩ := h.reads _ _ _ (hreads rest)
  exact hread

end

end StickyReader
