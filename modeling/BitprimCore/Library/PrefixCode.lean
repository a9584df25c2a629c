import Mathlib.Data.List.Basic

/-!
# Prefix codes

An encoder determines a key of the values it encodes when the encoding of a value, followed by
anything, fixes both the key and what follows. The notion is closed under concatenation, under a
counted list and under a list of nonempty codes, which is how a byte format is built up.

The key need not be the whole value: a format may leave some fields of a record out.
-/

namespace PrefixCode

open List

variable {α β κ ι σ : Type*}

/-- Encodings of values in `P` followed by anything fix the key of the value and the rest. -/
def Determines (P : α → Prop) (encode : α → List σ) (key : α → κ) : Prop :=
  ∀ ⦃a b : α⦄, P a → P b → ∀ r s : List σ, encode a ++ r = encode b ++ s → key a = key b ∧ r = s

namespace Determines

variable {P : α → Prop} {encode : α → List σ} {key : α → κ}

/-- Without anything behind them, two equal encodings have equal keys. -/
theorem key_eq (h : Determines P encode key) {a b : α} (ha : P a) (hb : P b)
    (hab : encode a = encode b) : key a = key b :=
  (h ha hb [] [] (by rw [hab])).1

theorem mono {Q : α → Prop} (h : Determines P encode key) (hQ : ∀ a, Q a → P a) :
    Determines Q encode key :=
  fun _ _ ha hb => h (hQ _ ha) (hQ _ hb)

/-- An encoder read through a projection of the value. -/
theorem comap (h : Determines P encode key) (f : β → α) :
    Determines (fun b => P (f b)) (fun b => encode (f b)) (fun b => key (f b)) :=
  fun _ _ ha hb => h ha hb

/-- A part of the value of which nothing is required. -/
theorem field {Q : β → Prop} (h : Determines (fun _ => True) encode key) (f : β → α) :
    Determines Q (fun b => encode (f b)) (fun b => key (f b)) :=
  (h.comap f).mono fun _ _ => trivial

/-- Codes of one fixed length that are injective are prefix codes. -/
theorem of_length (n : Nat) (hlen : ∀ a, P a → (encode a).length = n)
    (hinj : ∀ a b, P a → P b → encode a = encode b → key a = key b) : Determines P encode key := by
  intro a b ha hb r s hab
  obtain ⟨hcode, hrest⟩ := append_inj hab ((hlen a ha).trans (hlen b hb).symm)
  exact ⟨hinj a b ha hb hcode, hrest⟩

/-- Two prefix codes in a row determine both keys. -/
theorem append {encode' : α → List σ} {key' : α → ι} (h : Determines P encode key)
    (h' : Determines P encode' key') :
    Determines P (fun a => encode a ++ encode' a) (fun a => (key a, key' a)) := by
  intro a b ha hb r s hab
  simp only [append_assoc] at hab
  obtain ⟨hkey, hrest⟩ := h ha hb _ _ hab
  obtain ⟨hkey', hrest'⟩ := h' ha hb _ _ hrest
  exact ⟨Prod.ext hkey hkey', hrest'⟩

/-- Two lists of one length with equal concatenated codes have equal keys. -/
theorem flatMap_of_length (h : Determines P encode key) {xs ys : List α} (hxs : ∀ x ∈ xs, P x)
    (hys : ∀ y ∈ ys, P y) (hlen : xs.length = ys.length) (r s : List σ)
    (hxy : xs.flatMap encode ++ r = ys.flatMap encode ++ s) : xs.map key = ys.map key ∧ r = s := by
  induction xs generalizing ys with
  | nil =>
    obtain rfl : ys = [] := eq_nil_of_length_eq_zero hlen.symm
    simpa using hxy
  | cons x xs ih =>
    cases ys with
    | nil => simp at hlen
    | cons y ys =>
      simp only [flatMap_cons, append_assoc] at hxy
      rw [forall_mem_cons] at hxs hys
      obtain ⟨hkey, hrest⟩ := h hxs.1 hys.1 _ _ hxy
      obtain ⟨hkeys, hend⟩ := ih hxs.2 hys.2 (by simpa using hlen) hrest
      exact ⟨by simp [hkey, hkeys], hend⟩

/-- A list behind the code of its length. -/
theorem counted {count : Nat → List σ} {N : Nat → Prop} (hcount : Determines N count id)
    (h : Determines P encode key) :
    Determines (fun xs : List α => N xs.length ∧ ∀ x ∈ xs, P x)
      (fun xs => count xs.length ++ xs.flatMap encode) (fun xs => xs.map key) := by
  intro xs ys hxs hys r s hxy
  simp only [append_assoc] at hxy
  obtain ⟨hlen, hrest⟩ := hcount hxs.1 hys.1 _ _ hxy
  exact h.flatMap_of_length hxs.2 hys.2 hlen r s hrest

/-- A string behind the code of its length. -/
theorem counted_string {count : Nat → List σ} {N : Nat → Prop} (hcount : Determines N count id) :
    Determines (fun xs : List σ => N xs.length) (fun xs => count xs.length ++ xs) id := by
  intro xs ys hxs hys r s hxy
  simp only [append_assoc] at hxy
  obtain ⟨hlen, hrest⟩ := hcount hxs hys _ _ hxy
  exact append_inj hrest hlen

/-- With no count, nonempty codes that fill the whole string still fix the list. -/
theorem flatMap (h : Determines P encode key) (hne : ∀ a, P a → encode a ≠ [])
    {xs ys : List α} (hxs : ∀ x ∈ xs, P x) (hys : ∀ y ∈ ys, P y)
    (hxy : xs.flatMap encode = ys.flatMap encode) : xs.map key = ys.map key := by
  induction xs generalizing ys with
  | nil =>
    cases ys with
    | nil => rfl
    | cons y ys =>
      have hy : encode y ≠ [] := hne y (hys y mem_cons_self)
      simp [flatMap_cons, hy] at hxy
  | cons x xs ih =>
    cases ys with
    | nil =>
      have hx : encode x ≠ [] := hne x (hxs x mem_cons_self)
      simp [flatMap_cons, hx] at hxy
    | cons y ys =>
      simp only [flatMap_cons] at hxy
      rw [forall_mem_cons] at hxs hys
      obtain ⟨hkey, hrest⟩ := h hxs.1 hys.1 _ _ hxy
      simp [hkey, ih hxs.2 hys.2 hrest]

/-- Where the codes are written from the keys, the lists have one string exactly when they have the
same keys. -/
theorem flatMap_eq_iff (h : Determines P encode key) (hne : ∀ a, P a → encode a ≠ [])
    (write : κ → List σ) (hwrite : ∀ a, encode a = write (key a)) {xs ys : List α}
    (hxs : ∀ x ∈ xs, P x) (hys : ∀ y ∈ ys, P y) :
    xs.flatMap encode = ys.flatMap encode ↔ xs.map key = ys.map key := by
  refine ⟨h.flatMap hne hxs hys, fun hkeys => ?_⟩
  have hmap := congrArg (List.flatMap write) hkeys
  simpa only [List.flatMap_map, ← hwrite] using hmap

end Determines

end PrefixCode
