import Mathlib.Data.List.Basic

/-!
# Decoders

A decoder takes a value off the front of a string and returns the rest. It reads a value from a
code when it takes exactly the code off, whatever follows. A list is read item by item, by a
decoder that may depend on what is known of the item.
-/

namespace Decoder

universe u

variable {σ α β : Type u} {γ : Type*}

/-- The decoder takes the code off the front of any string and returns the value. -/
def Reads (decode : List σ → Option (β × List σ)) (code : List σ) (value : β) : Prop :=
  ∀ rest, decode (code ++ rest) = some (value, rest)

theorem Reads.eq {decode : List σ → Option (β × List σ)} {code : List σ} {value : β}
    (h : Reads decode code value) (rest : List σ) : decode (code ++ rest) = some (value, rest) :=
  h rest

/-- Read one value for each of the given items. -/
def each (decode : α → List σ → Option (β × List σ)) : List α → List σ → Option (List β × List σ)
  | [], source => some ([], source)
  | item :: items, source => do
    let (value, source) ← decode item source
    let (values, source) ← each decode items source
    return (value :: values, source)

/-- Read a number of values. -/
def many (decode : List σ → Option (β × List σ)) (count : Nat) :
    List σ → Option (List β × List σ) :=
  each (fun _ : PUnit => decode) (List.replicate count ⟨⟩)

/-- The codes of the items in a row are read back if each of them is. -/
theorem reads_each {decode : α → List σ → Option (β × List σ)} {known : γ → α}
    {encode : γ → List σ} {value : γ → β} {items : List γ}
    (h : ∀ item ∈ items, Reads (decode (known item)) (encode item) (value item)) :
    Reads (each decode (items.map known)) (items.flatMap encode) (items.map value) := by
  induction items with
  | nil =>
    intro rest
    rfl
  | cons item items ih =>
    rw [List.forall_mem_cons] at h
    intro rest
    simp only [List.flatMap_cons, List.append_assoc, List.map_cons, each, h.1 _, (ih h.2).eq,
      Option.bind_eq_bind, Option.bind_some, Option.pure_def]

theorem reads_many {decode : List σ → Option (β × List σ)} {encode : γ → List σ} {value : γ → β}
    {items : List γ} (h : ∀ item ∈ items, Reads decode (encode item) (value item)) :
    Reads (many decode items.length) (items.flatMap encode) (items.map value) := by
  rw [many, ← List.map_const']
  exact reads_each h

end Decoder
