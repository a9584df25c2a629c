import BitprimCore.Constants
import BitprimCore.Library.PointNumeral
import BitprimCore.Utility.Text
import Mathlib.Data.List.DropRight
import Mathlib.Data.UInt

/-!
# Decimal amounts

Amounts with a number of decimal places as text (`formats/base_10`). The decoder takes the point
out of the text, moves it by adding or removing digits at the end, and notes whether it removed any
but zeros. So it reads the rational number that the text spells, scaled and rounded up.
-/

namespace BitprimCore

open List Option Positional

namespace Base10

def isDigit (c : Char) : Bool := decide ('0' ≤ c ∧ c ≤ '9')

/-- The number that a digit stands for. -/
def digit (c : Char) : Nat := c.toNat - '0'.toNat

/-- What a stream makes of a text of digits (`stream >> number`). -/
def extractNumber (text : Text) : Option UInt64 :=
  let number := value 10 (text.map digit)
  if number ≤ maxUint64 then some (UInt64.ofNat number) else none

/-- What a stream writes of a number (`stream << amount`). -/
def insertNumber (number : Nat) : Text :=
  if number = 0 then ['0']
  else (significant 10 number).map fun digit => Char.ofNat ('0'.toNat + digit)

end Base10

open Base10

variable {c : Char} (amount : Text)

/-- Reads a decimal amount. -/
def decodeBase10 (decimalPlaces : UInt8) (strict : Bool) : Option UInt64 :=
  -- the point is found, or the end, and erased
  let point := amount.idxOf '.'
  let value := amount.eraseIdx point
  if value.all isDigit then
    let actualPlaces := value.length - point
    let places := decimalPlaces.toNat
    let padded :=
      if actualPlaces < places then value ++ List.replicate (places - actualPlaces) '0' else value
    let stop := if actualPlaces > places then point + places else padded.length
    let round := !(padded.drop stop).all (· == '0')
    let rest := padded.take stop
    if strict && round then none
    else
      (if rest.isEmpty then some 0 else extractNumber rest).bind fun number =>
        if round && number.toNat == maxUint64 then none
        else some (number + if round then 1 else 0)
  else none

/-- Writes a decimal amount. -/
def encodeBase10 (amount : UInt64) (decimalPlaces : UInt8) : Text :=
  let places := decimalPlaces.toNat
  let digits := insertNumber amount.toNat
  let filled := List.replicate (1 + places - digits.length) '0' ++ digits
  let point := filled.length - places
  let string := filled.take point ++ '.' :: filled.drop point
  (string.rdropWhile (· == '0')).rdropWhile (· == '.')

/-- A text of digits in front of and behind a point, which may be missing. -/
def IsAmount (whole fraction : Text) : Prop :=
  (∀ c ∈ whole ++ fraction, isDigit c) ∧
    (amount = whole ++ '.' :: fraction ∨ amount = whole ∧ fraction = [])

/-- The number that it spells. -/
def amountValue (whole fraction : Text) : ℚ := pointValue 10 (whole.map digit) (fraction.map digit)

theorem digit_lt (h : isDigit c) : digit c < 10 := by
  obtain ⟨hlow, hhigh⟩ := of_decide_eq_true h
  have hle : c.toNat ≤ '9'.toNat := hhigh
  change c.toNat - 48 < 10
  change c.toNat ≤ 57 at hle
  omega

theorem digit_eq_zero_iff (h : isDigit c) : digit c = 0 ↔ c = '0' := by
  obtain ⟨hlow, hhigh⟩ := of_decide_eq_true h
  have hle : '0'.toNat ≤ c.toNat := hlow
  constructor
  · intro hzero
    apply Char.toNat_inj.mp
    change c.toNat - 48 = 0 at hzero
    change 48 ≤ c.toNat at hle
    change c.toNat = 48
    omega
  · rintro rfl
    rfl

theorem ne_point_of_isDigit (h : isDigit c) : c ≠ '.' := by
  rintro rfl
  revert h
  decide

/-- The point is found and erased, and the text is left if there is none. -/
theorem exists_eraseIdx_point :
    ∃ whole fraction : Text, (amount = whole ++ '.' :: fraction ∨ amount = whole ∧ fraction = []) ∧
      amount.idxOf '.' = whole.length ∧ amount.eraseIdx (amount.idxOf '.') = whole ++ fraction := by
  by_cases hpoint : '.' ∈ amount
  · refine ⟨amount.take (amount.idxOf '.'), amount.drop (amount.idxOf '.' + 1), Or.inl ?_, ?_, ?_⟩
    · have hlt : amount.idxOf '.' < amount.length := idxOf_lt_length_of_mem hpoint
      have hget : amount.get ⟨amount.idxOf '.', hlt⟩ = '.' := getElem_idxOf hlt
      conv_lhs => rw [← take_append_drop (amount.idxOf '.') amount]
      rw [drop_eq_getElem_cons hlt]
      exact congrArg (fun c => _ ++ c :: _) hget
    · rw [length_take, min_eq_left idxOf_le_length]
    · exact eraseIdx_eq_take_drop_succ amount _
  · have hend : amount.idxOf '.' = amount.length := idxOf_eq_length hpoint
    refine ⟨amount, [], Or.inr ⟨rfl, rfl⟩, hend, ?_⟩
    rw [hend, eraseIdx_of_length_le (le_refl _), append_nil]

theorem IsAmount.idxOf_point {amount whole fraction : Text} (h : IsAmount amount whole fraction) :
    amount.idxOf '.' = whole.length ∧ amount.eraseIdx (amount.idxOf '.') = whole ++ fraction := by
  have hwhole : '.' ∉ whole := fun hmem =>
    ne_point_of_isDigit (h.1 '.' (mem_append_left _ hmem)) rfl
  rcases h.2 with rfl | ⟨rfl, rfl⟩
  · have hidx : (whole ++ '.' :: fraction).idxOf '.' = whole.length := by
      rw [idxOf_append_of_notMem hwhole, idxOf_cons_self, add_zero]
    refine ⟨hidx, ?_⟩
    rw [hidx, List.eraseIdx_append_of_length_le (Nat.le_refl _), Nat.sub_self, eraseIdx_cons_zero]
  · have hend : amount.idxOf '.' = amount.length := idxOf_eq_length hwhole
    refine ⟨hend, ?_⟩
    rw [hend, eraseIdx_of_length_le (le_refl _), append_nil]

section

variable {amount whole fraction : Text} {decimalPlaces : UInt8} {strict : Bool} {number : UInt64}

/-- The digits up to the new place of the point, behind the old one. -/
def keptDigits (fraction : Text) (places : Nat) : Text :=
  (fraction ++ List.replicate (places - fraction.length) '0').take places

/-- Digits that were removed round the number up. -/
def roundUp (strict : Bool) (digits removed : Text) : Option UInt64 :=
  let round := !removed.all (· == '0')
  if strict && round then none
  else
    (if digits.isEmpty then some 0 else extractNumber digits).bind fun number =>
      if round && number.toNat == maxUint64 then none
      else some (number + if round then 1 else 0)

theorem length_keptDigits (fraction : Text) (places : Nat) :
    (keptDigits fraction places).length = places := by
  rw [keptDigits, length_take, length_append, length_replicate]
  omega

theorem keptDigits_append_drop (fraction : Text) (places : Nat) :
    keptDigits fraction places ++ fraction.drop places =
      fraction ++ replicate (places - fraction.length) '0' := by
  have hdrop : fraction.drop places =
      (fraction ++ replicate (places - fraction.length) '0').drop places := by
    rcases Nat.le_total fraction.length places with hle | hle
    · rw [drop_eq_nil_of_le hle, drop_eq_nil_of_le]
      rw [length_append, length_replicate]
      omega
    · rw [Nat.sub_eq_zero_of_le hle, replicate_zero, append_nil]
  rw [keptDigits, hdrop, take_append_drop]

theorem keptDigits_of_le {places : Nat} (h : fraction.length ≤ places) :
    keptDigits fraction places = fraction ++ replicate (places - fraction.length) '0' := by
  apply take_of_length_le
  rw [length_append, length_replicate]
  omega

theorem keptDigits_of_ge {places : Nat} (h : places ≤ fraction.length) :
    keptDigits fraction places = fraction.take places := by
  rw [keptDigits, Nat.sub_eq_zero_of_le h, replicate_zero, append_nil]

theorem decodeBase10_eq_roundUp (h : IsAmount amount whole fraction) :
    decodeBase10 amount decimalPlaces strict =
      roundUp strict (whole ++ keptDigits fraction decimalPlaces.toNat)
        (fraction.drop decimalPlaces.toNat) := by
  obtain ⟨hidx, herase⟩ := h.idxOf_point
  rw [hidx] at herase
  have hdigits : (whole ++ fraction).all isDigit := all_eq_true.mpr h.1
  have hplaces : (whole ++ fraction).length - whole.length = fraction.length := by
    rw [length_append, Nat.add_sub_cancel_left]
  simp only [decodeBase10, hidx, herase, hdigits, if_true, hplaces]
  set places := decimalPlaces.toNat
  rcases Nat.lt_trichotomy fraction.length places with hlt | heq | hgt
  · -- zeros are added, and nothing is removed
    rw [if_pos hlt, if_neg (lt_asymm hlt), drop_length, take_length,
      keptDigits_of_le hlt.le, drop_eq_nil_of_le hlt.le, append_assoc]
    rfl
  · rw [if_neg (not_lt.mpr heq.ge), if_neg (not_lt.mpr heq.le), drop_length, take_length,
      keptDigits_of_ge heq.ge, drop_eq_nil_of_le heq.le, take_of_length_le heq.le]
    rfl
  · rw [if_neg (lt_asymm hgt), if_pos hgt, drop_length_add_append,
      take_length_add_append, keptDigits_of_ge hgt.le]
    rfl

/-- Without the digits the text is rejected. -/
theorem exists_isAmount (h : decodeBase10 amount decimalPlaces strict = some number) :
    ∃ whole fraction, IsAmount amount whole fraction := by
  obtain ⟨whole, fraction, hamount, -, herase⟩ := exists_eraseIdx_point amount
  refine ⟨whole, fraction, ?_, hamount⟩
  rw [← herase]
  by_contra hdigits
  have hall : ¬ (amount.eraseIdx (amount.idxOf '.')).all isDigit := by
    rw [List.all_eq_true]
    exact hdigits
  simp only [decodeBase10, if_neg hall] at h
  cases h

theorem all_zero_iff {text : Text} (h : ∀ c ∈ text, isDigit c) :
    text.all (· == '0') ↔ value 10 (text.map digit) = 0 := by
  rw [value_eq_zero_iff (by decide), List.all_eq_true, List.forall_mem_map]
  refine forall₂_congr fun c hc => ?_
  rw [beq_iff_eq, digit_eq_zero_iff (h c hc)]

theorem extractNumber_eq_some_iff {text : Text} :
    (if text.isEmpty then some 0 else extractNumber text) = some number ↔
      number.toNat = value 10 (text.map digit) := by
  have hbound : number.toNat ≤ maxUint64 := Nat.le_of_lt_succ number.toNat_lt
  cases text with
  | nil =>
    change some 0 = some number ↔ number.toNat = (0 : UInt64).toNat
    rw [some_inj, UInt64.toNat_inj, eq_comm]
  | cons c text =>
    change extractNumber (c :: text) = some number ↔ _
    simp only [extractNumber]
    split_ifs with hfits
    · rw [some_inj, ← UInt64.toNat_inj, UInt64.toNat_ofNat_of_lt' (Nat.lt_succ_of_le hfits)]
      exact eq_comm
    · refine iff_of_false (fun hnone => by cases hnone) fun hnum => ?_
      exact hfits (hnum ▸ hbound)

theorem toNat_add_one (h : number.toNat ≠ maxUint64) : (number + 1).toNat = number.toNat + 1 := by
  have hlt : number.toNat < 2 ^ 64 := number.toNat_lt
  have hone : (1 : UInt64).toNat = 1 := rfl
  unfold maxUint64 at h
  rw [UInt64.toNat_add, hone]
  omega

theorem roundUp_eq_some_iff {digits removed : Text} (h : ∀ c ∈ removed, isDigit c) :
    roundUp strict digits removed = some number ↔
      (strict → value 10 (removed.map digit) = 0) ∧
        number.toNat = value 10 (digits.map digit) +
          if value 10 (removed.map digit) = 0 then 0 else 1 := by
  by_cases hzero : value 10 (removed.map digit) = 0
  · have hall : removed.all (· == '0') := (all_zero_iff h).mpr hzero
    simp only [roundUp, hall, Bool.not_true, Bool.and_false, Bool.false_and, Bool.false_eq_true,
      if_false, bind_fun_some, extractNumber_eq_some_iff, hzero, if_true,
      implies_true, true_and, add_zero]
  · have hall : removed.all (· == '0') = false := by
      rw [← Bool.not_eq_true, all_zero_iff h]
      exact hzero
    cases strict with
    | true => simp [roundUp, hall, hzero]
    | false =>
      simp only [roundUp, hall, Bool.not_false, Bool.false_and, Bool.true_and, Bool.false_eq_true,
        if_false, if_true, hzero, false_imp_iff, true_and]
      rw [bind_eq_some_iff]
      constructor
      · rintro ⟨whole, hwhole, hround⟩
        rw [extractNumber_eq_some_iff] at hwhole
        split_ifs at hround with hmax
        cases hround
        have hne : whole.toNat ≠ maxUint64 := by simpa using hmax
        rw [← hwhole]
        exact toNat_add_one hne
      · intro hnum
        have hlt : value 10 (digits.map digit) + 1 < 2 ^ 64 := hnum ▸ number.toNat_lt
        have hwhole : (UInt64.ofNat (value 10 (digits.map digit))).toNat = _ :=
          UInt64.toNat_ofNat_of_lt' (Nat.lt_of_succ_lt hlt)
        have hne : (UInt64.ofNat (value 10 (digits.map digit))).toNat ≠ maxUint64 := by
          rw [hwhole]
          exact ne_of_lt (Nat.lt_of_succ_lt_succ hlt)
        refine ⟨_, extractNumber_eq_some_iff.mpr hwhole, ?_⟩
        rw [if_neg (by simpa using hne), some_inj, ← UInt64.toNat_inj, toNat_add_one hne,
          hwhole, hnum]

/-- The rounded number is the rational one, rounded up, and it was whole if nothing was rounded. -/
theorem decodeBase10_eq_some_iff (h : IsAmount amount whole fraction) :
    decodeBase10 amount decimalPlaces strict = some number ↔
      (strict → ∃ k : Nat, amountValue whole fraction * 10 ^ decimalPlaces.toNat = k) ∧
        number.toNat = ⌈amountValue whole fraction * 10 ^ decimalPlaces.toNat⌉₊ := by
  set places := decimalPlaces.toNat with hplaces
  have hdigits : ∀ c ∈ fraction.drop places, isDigit c :=
    fun c hc => h.1 c (mem_append_right _ (mem_of_mem_drop hc))
  have hlt : value 10 ((fraction.drop places).map digit) <
      10 ^ ((fraction.drop places).map digit).length := by
    refine value_lt (by decide) fun d hd => ?_
    obtain ⟨c, hc, rfl⟩ := mem_map.mp hd
    exact digit_lt (hdigits c hc)
  have hscaled : amountValue whole fraction * 10 ^ places =
      (value 10 ((whole ++ keptDigits fraction places).map digit) : ℚ) +
        value 10 ((fraction.drop places).map digit) /
          ((10 ^ ((fraction.drop places).map digit).length : Nat) : ℚ) := by
    have hzeros : pointValue 10 (whole.map digit)
        (fraction.map digit ++ replicate (places - fraction.length) 0) = _ :=
      pointValue_append_zeros (by decide) _ _ _
    have hmoved : pointValue 10 (whole.map digit)
        ((keptDigits fraction places).map digit ++ (fraction.drop places).map digit) *
          ((10 : Nat) : ℚ) ^ places = _ :=
      pointValue_append_mul_pow (by decide) _ _ _ (by rw [length_map, length_keptDigits])
    have hreplicate : replicate (places - fraction.length) 0 =
        (replicate (places - fraction.length) '0').map digit := by
      rw [map_replicate]
      rfl
    rw [hreplicate, ← map_append, ← keptDigits_append_drop, map_append] at hzeros
    rw [amountValue, ← hzeros, map_append]
    push_cast at hmoved ⊢
    exact hmoved
  rw [decodeBase10_eq_roundUp h, roundUp_eq_some_iff hdigits, hscaled,
    natCeil_add_div hlt, exists_natCast_eq_iff hlt]

end

section

theorem digit_ofNat :
    ∀ n < 10, digit (Char.ofNat ('0'.toNat + n)) = n ∧ isDigit (Char.ofNat ('0'.toNat + n)) := by
  decide

theorem insertNumber_spec (number : Nat) :
    (∀ c ∈ insertNumber number, isDigit c) ∧
      value 10 ((insertNumber number).map digit) = number := by
  unfold insertNumber
  split_ifs with hzero
  · rw [hzero]
    exact ⟨List.forall_mem_singleton.mpr (by decide), rfl⟩
  · have hlt : ∀ d ∈ significant 10 number, d < 10 :=
      fun d hd => lt_of_mem_significant (by decide) hd
    constructor
    · rw [List.forall_mem_map]
      exact fun d hd => (digit_ofNat d (hlt d hd)).2
    · rw [List.map_map]
      have hdigits : (significant 10 number).map
          (digit ∘ fun digit => Char.ofNat ('0'.toNat + digit)) =
          significant 10 number :=
        (List.map_congr_left fun d hd => (digit_ofNat d (hlt d hd)).1).trans (List.map_id' _)
      rw [hdigits, value_significant]

/-- What is trimmed at the end does not reach over a character that is kept. -/
theorem rdropWhile_append_cons {p : Char → Bool} {c : Char} (hc : ¬ p c) (front back : Text) :
    (front ++ c :: back).rdropWhile p = front ++ c :: back.rdropWhile p := by
  induction back using reverseRecOn with
  | nil => exact rdropWhile_concat_neg p front c hc
  | append_singleton back d ih =>
    have hassoc : front ++ c :: (back ++ [d]) = (front ++ c :: back) ++ [d] := by simp
    rw [hassoc, rdropWhile_concat, rdropWhile_concat]
    split_ifs
    · exact ih
    · exact hassoc.symm

theorem rdropWhile_point {text : Text} (h : ∀ c ∈ text, isDigit c) :
    text.rdropWhile (· == '.') = text := by
  rw [rdropWhile_eq_self_iff]
  intro hne hlast
  exact ne_point_of_isDigit (h _ (getLast_mem hne)) (beq_iff_eq.mp hlast)

/-- A text with a point, trimmed at the end, is an amount of the same value. -/
theorem exists_isAmount_trim {whole fraction : Text} (h : ∀ c ∈ whole ++ fraction, isDigit c) :
    ∃ fraction', IsAmount (((whole ++ '.' :: fraction).rdropWhile (· == '0')).rdropWhile (· == '.'))
      whole fraction' ∧ amountValue whole fraction' = amountValue whole fraction := by
  set fraction' := fraction.rdropWhile (· == '0') with hfraction'
  obtain ⟨count, hzeros⟩ : ∃ count, fraction = fraction' ++ replicate count '0' := by
    refine ⟨(fraction.rtakeWhile (· == '0')).length, ?_⟩
    have htail : fraction.rtakeWhile (· == '0') =
        replicate (fraction.rtakeWhile (· == '0')).length '0' := by
      apply eq_replicate_of_mem
      intro c hc
      have hzero := mem_rtakeWhile_imp hc
      exact beq_iff_eq.mp hzero
    rw [hfraction', ← htail]
    exact rdropWhile_append_rtakeWhile.symm
  have hdigits : ∀ c ∈ whole ++ fraction', isDigit c := by
    intro c hc
    apply h c
    rw [hzeros, ← append_assoc]
    exact mem_append_left _ hc
  refine ⟨fraction', ⟨hdigits, ?_⟩, ?_⟩
  · rw [rdropWhile_append_cons (by decide), ← hfraction']
    by_cases hempty : fraction' = []
    · right
      rw [hempty, rdropWhile_concat_pos _ _ _ (by decide)]
      exact ⟨rdropWhile_point fun c hc => hdigits c (mem_append_left _ hc), rfl⟩
    · left
      rw [rdropWhile_eq_self_iff]
      intro hne hlast
      rw [getLast_append_of_ne_nil _ (by simp), getLast_cons hempty] at hlast
      exact ne_point_of_isDigit
        (hdigits _ (mem_append_right _ (getLast_mem hempty))) (beq_iff_eq.mp hlast)
  · have hmap : fraction.map digit = fraction'.map digit ++ replicate count 0 := by
      rw [hzeros, map_append, map_replicate]
      rfl
    rw [amountValue, amountValue, hmap, pointValue_append_zeros (by decide)]

theorem exists_isAmount_encodeBase10 (amount : UInt64) (decimalPlaces : UInt8) :
    ∃ whole fraction, IsAmount (encodeBase10 amount decimalPlaces) whole fraction ∧
      amountValue whole fraction * 10 ^ decimalPlaces.toNat = amount.toNat := by
  set places := decimalPlaces.toNat with hplaces
  set filled := replicate (1 + places - (insertNumber amount.toNat).length) '0' ++
    insertNumber amount.toNat with hfilled
  obtain ⟨hdigits, hval⟩ := insertNumber_spec amount.toNat
  have hlen : places ≤ filled.length := by
    rw [hfilled, length_append, length_replicate]
    omega
  have hfilledDigits : ∀ c ∈ filled, isDigit c := by
    intro c hc
    rcases mem_append.mp hc with hzero | hdigit
    · rw [(mem_replicate.mp hzero).2]
      decide
    · exact hdigits c hdigit
  have hfilledValue : value 10 (filled.map digit) = amount.toNat := by
    rw [hfilled, map_append, map_replicate]
    exact (value_replicate_zero_append _ _).trans hval
  set stop := filled.length - places with hstop
  have hfraction : (filled.drop stop).length = places := by
    rw [length_drop]
    omega
  have hsplit : ∀ c ∈ filled.take stop ++ filled.drop stop, isDigit c := by
    rw [take_append_drop]
    exact hfilledDigits
  obtain ⟨fraction, hamount, hsame⟩ := exists_isAmount_trim hsplit
  refine ⟨filled.take stop, fraction, hamount, ?_⟩
  · have hscaled : pointValue 10 ((filled.take stop).map digit)
        ((filled.drop stop).map digit ++ []) * ((10 : Nat) : ℚ) ^ places = _ :=
      pointValue_append_mul_pow (by decide) _ _ _ (by rw [length_map, hfraction])
    rw [append_nil, ← map_append, take_append_drop, hfilledValue] at hscaled
    rw [hsame, amountValue]
    simpa using hscaled

end

/-- An amount is read back from its text. A text is read exactly if it is one of digits with at most
one point whose value, scaled and rounded up, fits, and if nothing is rounded where the reading is
strict. What is read is that number. -/
theorem decodeBase10_exact :
    (∀ amount decimalPlaces strict,
      decodeBase10 (encodeBase10 amount decimalPlaces) decimalPlaces strict = some amount) ∧
      ∀ amount decimalPlaces strict,
        ((decodeBase10 amount decimalPlaces strict).isSome ↔
          ∃ whole fraction, IsAmount amount whole fraction ∧
            ⌈amountValue whole fraction * 10 ^ decimalPlaces.toNat⌉₊ ≤ maxUint64 ∧
            (strict → ∃ k : Nat, amountValue whole fraction * 10 ^ decimalPlaces.toNat = k)) ∧
        ∀ whole fraction number, IsAmount amount whole fraction →
          decodeBase10 amount decimalPlaces strict = some number →
          number.toNat = ⌈amountValue whole fraction * 10 ^ decimalPlaces.toNat⌉₊ := by
  refine ⟨?_, fun amount decimalPlaces strict => ⟨⟨?_, ?_⟩, ?_⟩⟩
  · intro amount decimalPlaces strict
    obtain ⟨whole, fraction, hamount, hvalue⟩ := exists_isAmount_encodeBase10 amount decimalPlaces
    rw [decodeBase10_eq_some_iff hamount, hvalue, Nat.ceil_natCast]
    exact ⟨fun _ => ⟨amount.toNat, rfl⟩, rfl⟩
  · intro hsome
    obtain ⟨number, hdecode⟩ := isSome_iff_exists.mp hsome
    obtain ⟨whole, fraction, hamount⟩ := exists_isAmount hdecode
    obtain ⟨hstrict, hnumber⟩ := (decodeBase10_eq_some_iff hamount).mp hdecode
    refine ⟨whole, fraction, hamount, ?_, hstrict⟩
    rw [← hnumber]
    exact Nat.le_of_lt_succ number.toNat_lt
  · rintro ⟨whole, fraction, hamount, hfits, hstrict⟩
    rw [isSome_iff_exists]
    refine ⟨UInt64.ofNat ⌈amountValue whole fraction * 10 ^ decimalPlaces.toNat⌉₊, ?_⟩
    rw [decodeBase10_eq_some_iff hamount]
    exact ⟨hstrict, UInt64.toNat_ofNat_of_lt' (Nat.lt_succ_of_le hfits)⟩
  · intro whole fraction number hamount hdecode
    exact ((decodeBase10_eq_some_iff hamount).mp hdecode).2

end BitprimCore
