import Mathlib.Algebra.Group.Nat.Defs
import Mathlib.Data.List.Basic

/-!
# Text

Strings as lists of characters, with the few operations on them that parsers of the library use
(`utility/string`, and the algorithms of `boost` that it calls).
-/

namespace BitprimCore

open List

/-- A string, which the library never decodes: each character is one byte. -/
abbrev Text := List Char

/-- A literal stands for its characters. -/
instance : Coe String Text := ⟨String.toList⟩

namespace Text

/-- The white space of the classic locale. -/
def isSpace (c : Char) : Bool :=
  c == ' ' || c == '\t' || c == '\n' || c == '\x0b' || c == '\x0c' || c == '\r'

/-- Drops outer space. -/
def trim (text : Text) : Text := ((text.dropWhile isSpace).reverse.dropWhile isSpace).reverse

/-- Split at runs of delimiters (`token_compress_on`). A delimiter in front or at the end leaves an
empty word there. -/
def splitTokens (delimiter : Char → Bool) : Text → List Text
  | [] => [[]]
  | c :: rest =>
    if delimiter c then
      match rest with
      | [] => [[], []]
      | next :: _ => if delimiter next then splitTokens delimiter rest
        else [] :: splitTokens delimiter rest
    else
      match splitTokens delimiter rest with
      | [] => [[c]]
      | word :: words => (c :: word) :: words

/-- Splits at delimiters. -/
def split (sentence delimiters : Text) (trimmed : Bool) : List Text :=
  splitTokens (fun c => delimiters.contains c) (if trimmed then trim sentence else sentence)

/-- The value of a text of digits. -/
def digitsValue (text : Text) : Option Nat :=
  if text.isEmpty || !text.all Char.isDigit then none
  else some (text.foldl (fun total c => 10 * total + (c.toNat - '0'.toNat)) 0)

/-- A number of 64 bits with an optional sign (`lexical_cast<int64_t>`). -/
def lexicalCastInt64 (text : Text) : Option Int :=
  match text with
  | '-' :: digits => do
    let value ← digitsValue digits
    if value ≤ 2 ^ 63 then some (-value) else none
  | '+' :: digits => do
    let value ← digitsValue digits
    if value < 2 ^ 63 then some value else none
  | digits => do
    let value ← digitsValue digits
    if value < 2 ^ 63 then some value else none

section

variable {delimiter : Char → Bool}

/-- A text without delimiters is one word. -/
theorem splitTokens_of_none {text : Text} (h : ∀ c ∈ text, delimiter c = false) :
    splitTokens delimiter text = [text] := by
  induction text with
  | nil => rfl
  | cons c rest ih =>
    rw [forall_mem_cons] at h
    simp [splitTokens, h.1, ih h.2]

variable {word : Text} {words : List Text}

/-- A delimiter between words ends the first of them. -/
theorem splitTokens_append {rest : Text} {c next : Char} (hword : ∀ c ∈ word, delimiter c = false)
    (hc : delimiter c) (hnext : delimiter next = false) :
    splitTokens delimiter (word ++ c :: next :: rest) =
      word :: splitTokens delimiter (next :: rest) := by
  induction word with
  | nil =>
    rw [nil_append, splitTokens]
    simp [hc, hnext]
  | cons first word ih =>
    rw [forall_mem_cons] at hword
    rw [cons_append, splitTokens.eq_def]
    simp only [hword.1, Bool.false_eq_true, if_false, ih hword.2]

/-- A text that is not empty and has no delimiter. -/
def IsWord (delimiter : Char → Bool) (text : Text) : Prop :=
  text ≠ [] ∧ ∀ c ∈ text, delimiter c = false

instance (text : Text) : Decidable (IsWord delimiter text) := inferInstanceAs (Decidable (_ ∧ _))

/-- Words are found again behind single delimiters. -/
theorem splitTokens_words {c : Char} (hword : IsWord delimiter word)
    (hwords : ∀ other ∈ words, IsWord delimiter other) (hc : delimiter c) :
    splitTokens delimiter (word ++ words.flatMap fun other => c :: other) = word :: words := by
  induction words generalizing word with
  | nil =>
    rw [flatMap_nil, append_nil]
    exact splitTokens_of_none hword.2
  | cons other words ih =>
    rw [forall_mem_cons] at hwords
    have htail := ih hwords.1 hwords.2
    obtain ⟨next, rest, rfl⟩ := exists_cons_of_ne_nil hwords.1.1
    have hnext : delimiter next = false := hwords.1.2 next mem_cons_self
    rw [flatMap_cons, cons_append, cons_append,
      splitTokens_append hword.2 hc hnext, ← cons_append, htail]

/-- The text of words behind delimiters ends as one of them does. -/
theorem getLast?_words (c : Char) (hword : word ≠ []) (hwords : ∀ other ∈ words, other ≠ []) :
    ∃ other ∈ word :: words,
      (word ++ words.flatMap fun other => c :: other).getLast? = other.getLast? := by
  induction words generalizing word with
  | nil => exact ⟨word, mem_cons_self, by simp⟩
  | cons first words ih =>
    rw [forall_mem_cons] at hwords
    obtain ⟨other, hother, hlast⟩ := ih hwords.1 hwords.2
    refine ⟨other, mem_cons_of_mem _ hother, ?_⟩
    have hne : first ++ words.flatMap (fun other => c :: other) ≠ [] := by
      simp [hwords.1]
    rw [flatMap_cons, cons_append, ← hlast, getLast?_append_of_ne_nil _ (by simp),
      getLast?_cons_of_ne_nil hne]

end

/-- White space is a control character or the space itself. -/
theorem isSpace_of_visible {c : Char} (h : ' ' < c) : isSpace c = false := by
  rw [Bool.eq_false_iff]
  intro hspace
  simp only [isSpace, Bool.or_eq_true, beq_iff_eq] at hspace
  obtain ((((rfl | rfl) | rfl) | rfl) | rfl) | rfl := hspace <;> revert h <;> decide

theorem isWord_of_visible {text : Text} (hne : text ≠ []) (h : ∀ c ∈ text, ' ' < c) :
    IsWord isSpace text :=
  ⟨hne, fun c hc => isSpace_of_visible (h c hc)⟩

/-- A text that neither starts nor ends in white space is kept. -/
theorem trim_eq_self {text : Text} (hfirst : ∀ c ∈ text.head?, isSpace c = false)
    (hlast : ∀ c ∈ text.getLast?, isSpace c = false) : trim text = text := by
  have hfront : ∀ {text : Text}, (∀ c ∈ text.head?, isSpace c = false) →
      text.dropWhile isSpace = text := by
    intro text h
    cases text with
    | nil => rfl
    | cons c rest => rw [dropWhile_cons_of_neg (by simp [h c rfl])]
  rw [trim, hfront hfirst, hfront (by simpa using hlast), reverse_reverse]

section

variable {word : Text} {words : List Text} (hword : IsWord isSpace word)
  (hwords : ∀ other ∈ words, IsWord isSpace other)

include hword hwords

/-- Words behind single spaces have no space at their ends. -/
theorem trim_words : trim (word ++ words.flatMap fun other => ' ' :: other) =
    word ++ words.flatMap fun other => ' ' :: other := by
  apply trim_eq_self
  · intro c hc
    rw [head?_append_of_ne_nil _ hword.1] at hc
    exact hword.2 c (mem_of_mem_head? hc)
  · intro c hc
    obtain ⟨other, hother, hlast⟩ :=
      getLast?_words ' ' hword.1 fun other hother => (hwords other hother).1
    rw [hlast] at hc
    have hisWord : IsWord isSpace other := forall_mem_cons.mpr ⟨hword, hwords⟩ other hother
    exact hisWord.2 c (mem_of_mem_getLast? hc)

/-- Words behind single spaces are split again. -/
theorem split_words :
    split (word ++ words.flatMap fun other => ' ' :: other) [' '] true = word :: words := by
  have hspace : ∀ {text : Text}, IsWord isSpace text → IsWord [' '].contains text := by
    rintro text ⟨hne, hall⟩
    refine ⟨hne, fun c hc => ?_⟩
    have hc' : isSpace c = false := hall c hc
    simp only [isSpace, Bool.or_eq_false_iff] at hc'
    simpa using hc'.1.1.1.1.1
  rw [split, if_pos rfl, trim_words hword hwords]
  exact splitTokens_words (hspace hword) (fun other hother => hspace (hwords other hother))
    (by decide)

end

end Text

end BitprimCore
