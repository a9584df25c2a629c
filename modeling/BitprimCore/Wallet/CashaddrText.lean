import BitprimCore.Wallet.CashaddrChecksum

/-!
# Reading cash addresses back

What the sanity checks let through is a word of letters and digits, behind a prefix of letters or
alone. A text that was encoded is read back, and the cut of the checksum is in range unless a prefix
is completed by fewer than eight values.
-/

namespace BitprimCore.Cashaddr

open List Option

variable {values payload : DataChunk} {text prefixText : Text}

theorem fromCharset_getD :
    ∀ n < 32, fromCharset (charset.getD n '\x00') = some (UInt8.ofNat n) := by
  decide +kernel

variable {value : UInt8} {c : Char}

theorem fromCharset_toCharset (h : value < 32) : fromCharset (toCharset value) = some value := by
  rw [toCharset, fromCharset_getD value.toNat h, UInt8.ofNat_toNat]

theorem mapM_fromCharset (h : ∀ d ∈ values, d < 32) :
    (values.map toCharset).mapM fromCharset = some values := by
  induction values with
  | nil => rfl
  | cons d values ih =>
    rw [forall_mem_cons] at h
    rw [map_cons, mapM_cons, fromCharset_toCharset h.1, ih h.2]
    rfl

/-- A lower case letter or a digit. -/
def IsPlain (c : Char) : Prop := ('a' ≤ c ∧ c ≤ 'z') ∨ ('0' ≤ c ∧ c ≤ '9')

instance : DecidablePred IsPlain := fun c =>
  inferInstanceAs (Decidable (('a' ≤ c ∧ c ≤ 'z') ∨ ('0' ≤ c ∧ c ≤ '9')))

theorem isPlain_toCharset (h : value < 32) : IsPlain (toCharset value) := by
  have hall : ∀ n < 32, IsPlain (charset.getD n '\x00') := by decide
  exact hall value.toNat h

/-- Setting the bit of lower case leaves a lower case letter alone. -/
theorem lowerCase_of_lower (h : 'a' ≤ c ∧ c ≤ 'z') : lowerCase c = c := by
  have hall : ∀ n < 128, 97 ≤ n → n ≤ 122 → n ||| 0x20 = n := by decide
  have hlow : 97 ≤ c.toNat := h.1
  have hhigh : c.toNat ≤ 122 := h.2
  rw [lowerCase, hall c.toNat (by omega) hlow hhigh, Char.ofNat_toNat]

theorem map_lowerCase (h : ∀ c ∈ text, 'a' ≤ c ∧ c ≤ 'z') : text.map lowerCase = text := by
  rw [List.map_congr_left fun c hc => lowerCase_of_lower (h c hc), List.map_id']

theorem Scan.run_append (scan : Scan) (i : Nat) (front back : Text) :
    scan.run i (front ++ back) =
      (scan.run i front).bind fun scan => scan.run (i + front.length) back := by
  induction front generalizing scan i with
  | nil => rfl
  | cons c front ih =>
    rw [cons_append, Scan.run, Scan.run]
    cases scan.next i c with
    | none => rfl
    | some scan =>
      rw [bind_eq_bind, bind_some, bind_some, ih, length_cons, add_right_comm, add_assoc]

/-- Lower case letters and digits pass, and only a digit is a number. -/
theorem Scan.run_plain (h : ∀ c ∈ text, IsPlain c) (scan : Scan) (i : Nat) :
    ∃ scan', scan.run i text = some scan' ∧ scan'.upper = scan.upper ∧
      scan'.prefixSize = scan.prefixSize ∧
      ((∀ c ∈ text, 'a' ≤ c ∧ c ≤ 'z') → scan'.hasNumber = scan.hasNumber) := by
  induction text generalizing scan i with
  | nil => exact ⟨scan, rfl, rfl, rfl, fun _ => rfl⟩
  | cons c text ih =>
    rw [forall_mem_cons] at h
    obtain ⟨scan', hnext, hupper, hsize, hnum⟩ : ∃ scan', scan.next i c = some scan' ∧
        scan'.upper = scan.upper ∧ scan'.prefixSize = scan.prefixSize ∧
        ('a' ≤ c ∧ c ≤ 'z' → scan'.hasNumber = scan.hasNumber) := by
      by_cases hlower : 'a' ≤ c ∧ c ≤ 'z'
      · exact ⟨_, if_pos hlower, rfl, rfl, fun _ => rfl⟩
      · have hdigit := h.1.resolve_left hlower
        have hupper : ¬ ('A' ≤ c ∧ c ≤ 'Z') := by
          rintro ⟨hletter, -⟩
          have hle : 'A' ≤ '9' := Char.le_trans hletter hdigit.2
          exact absurd hle (by decide)
        refine ⟨{ scan with hasNumber := true }, ?_, rfl, rfl, fun hc => absurd hc hlower⟩
        rw [Scan.next, if_neg hlower, if_neg hupper, if_pos hdigit]
    obtain ⟨scan'', hrun, hupper', hsize', hnum'⟩ := ih h.2 scan' (i + 1)
    refine ⟨scan'', ?_, hupper'.trans hupper, hsize'.trans hsize, ?_⟩
    · rw [Scan.run, hnext]
      exact hrun
    · intro hletters
      rw [forall_mem_cons] at hletters
      exact (hnum' hletters.2).trans (hnum hletters.1)

/-- A prefix of letters and a word of lower case letters and digits, with a separator between. -/
theorem Scan.run_prefix {front back : Text} (hfront : ∀ c ∈ front, 'a' ≤ c ∧ c ≤ 'z')
    (hne : front ≠ []) (hback : ∀ c ∈ back, IsPlain c) :
    ∃ scan, Scan.run {} 0 (front ++ ':' :: back) = some scan ∧ scan.upper = false ∧
      scan.prefixSize = front.length := by
  obtain ⟨scan, hrun, hupper, hsize, hnum⟩ := Scan.run_plain (fun c hc => .inl (hfront c hc)) {} 0
  have hnext : scan.next (0 + front.length) ':' =
      some { scan with prefixSize := 0 + front.length } := by
    have hpos : (0 + front.length == 0) = false := by
      simp [hne]
    have hguard : (scan.hasNumber || 0 + front.length == 0 || scan.prefixSize != 0) = false := by
      rw [hnum hfront, hsize, hpos]
      rfl
    simp only [Scan.next, hguard, Bool.false_eq_true, if_false]
    rfl
  obtain ⟨scan', hrun', hupper', hsize', -⟩ :=
    Scan.run_plain hback { scan with prefixSize := 0 + front.length } (0 + front.length + 1)
  refine ⟨scan', ?_, hupper'.trans hupper, by rw [hsize', zero_add]⟩
  rw [Scan.run_append, hrun, bind_some, Scan.run, hnext]
  exact hrun'

theorem parse_prefix {front : Text} (hfront : ∀ c ∈ front, 'a' ≤ c ∧ c ≤ 'z') (hne : front ≠ [])
    (h : ∀ d ∈ values, d < 32) (defaultPrefix : Text) :
    parse (front ++ ':' :: values.map toCharset) defaultPrefix = some (front, values) := by
  have hplain : ∀ c ∈ values.map toCharset, IsPlain c := by
    intro c hc
    obtain ⟨d, hd, rfl⟩ := mem_map.mp hc
    exact isPlain_toCharset (h d hd)
  obtain ⟨scan, hrun, hupper, hsize⟩ := Scan.run_prefix hfront hne hplain
  have hpos : scan.prefixSize ≠ 0 := by
    rw [hsize]
    exact mt eq_nil_of_length_eq_zero hne
  have hdrop : (front ++ ':' :: values.map toCharset).drop (scan.prefixSize + 1) =
      values.map toCharset := by
    rw [hsize, ← drop_drop, drop_left]
    rfl
  have htake : (front ++ ':' :: values.map toCharset).take scan.prefixSize = front := by
    rw [hsize, take_left]
  rw [parse, hrun]
  simp only [bind_eq_bind, bind_some, hupper, Bool.false_and, Bool.false_eq_true,
    if_false, hpos, hdrop, htake, mapM_fromCharset h, map_lowerCase hfront]
  rfl

theorem decode_encode (hne : prefixText ≠ []) (hletters : ∀ c ∈ prefixText, 'a' ≤ c ∧ c ≤ 'z')
    (h : ∀ d ∈ payload, d < 32) (defaultPrefix : Text) :
    decode (encode prefixText payload) defaultPrefix = some (prefixText, payload) := by
  have hvals : ∀ d ∈ payload ++ createChecksum prefixText payload, d < 32 :=
    forall_mem_append.mpr ⟨h, createChecksum_lt prefixText payload⟩
  have hpass := verifyChecksum_createChecksum prefixText h
  have hlen : (payload ++ createChecksum prefixText payload).length = payload.length + 8 := by
    rw [length_append, length_createChecksum]
  rw [decode, encode, parse_prefix hletters hne hvals]
  simp [hpass, hlen]

/-- What was encoded under a prefix of letters is decoded, and the checksum completes it. -/
theorem decode_encode_spec {prefixText : Text} {payload : DataChunk} (hne : prefixText ≠ [])
    (hletters : ∀ c ∈ prefixText, 'a' ≤ c ∧ c ≤ 'z') (h : ∀ d ∈ payload, d < 32) :
    (∀ defaultPrefix, decode (encode prefixText payload) defaultPrefix = some (prefixText, payload)) ∧
      polyMod (expandPrefix prefixText ++ payload ++ createChecksum prefixText payload) = 0 := by
  refine ⟨decode_encode hne hletters h, ?_⟩
  have hpass := verifyChecksum_createChecksum prefixText h
  rwa [verifyChecksum, beq_iff_eq, ← append_assoc] at hpass

/-- The address of a key hash. -/
theorem decode_encode_spec_address :
    let payload := [0, 1, 2, 2, 7, 19, 30, 18, 1, 26, 7, 21, 30, 4, 4, 6, 7, 11, 17, 17, 27, 29, 11, 3,
      8, 24, 16, 13, 6, 26, 24, 15, 24, 12]
    let prefixText := "bitcoincash".toList
    encode prefixText payload = "bitcoincash:qpzz8n7jp6847yyx8t33matrgcsdx6c0cvmtevrfgz".toList ∧
      (∀ defaultPrefix, decode (encode prefixText payload) defaultPrefix =
        some (prefixText, payload)) ∧
      polyMod (expandPrefix prefixText ++ payload ++ createChecksum prefixText payload) = 0 :=
  ⟨by decide +kernel, decode_encode_spec (by decide) (by simp) (by simp)⟩

/-- Values of five bits, as the table holds them. -/
theorem fromCharset_eq_some (h : fromCharset c = some value) :
    value < 32 ∧ toCharset value = c.toLower := by
  have hall : ∀ n < 128, ∀ value ∈ fromCharset (Char.ofNat n),
      value < 32 ∧ toCharset value = (Char.ofNat n).toLower := by
    decide +kernel
  have hlt : c.toNat < 128 := by
    by_contra hge
    rw [fromCharset, if_pos (by omega)] at h
    cases h
  have hmem : value ∈ fromCharset (Char.ofNat c.toNat) := by rwa [Char.ofNat_toNat]
  have hspec := hall c.toNat hlt value hmem
  rwa [Char.ofNat_toNat] at hspec

theorem mapM_eq_some (h : text.mapM fromCharset = some values) :
    (∀ d ∈ values, d < 32) ∧ values.map toCharset = text.map Char.toLower := by
  induction text generalizing values with
  | nil =>
    cases h
    exact ⟨by simp, rfl⟩
  | cons c text ih =>
    rw [mapM_cons] at h
    obtain ⟨d, hd, htail⟩ := bind_eq_some_iff.mp h
    obtain ⟨tail, hmapM, hvals⟩ := bind_eq_some_iff.mp htail
    cases hvals
    obtain ⟨hlt, hchar⟩ := fromCharset_eq_some hd
    obtain ⟨htailLt, htailText⟩ := ih hmapM
    refine ⟨forall_mem_cons.mpr ⟨hlt, htailLt⟩, ?_⟩
    rw [map_cons, map_cons, hchar, htailText]

/-- Setting the bit of lower case makes a letter lower case. -/
theorem lowerCase_of_letter (h : ('a' ≤ c ∧ c ≤ 'z') ∨ ('A' ≤ c ∧ c ≤ 'Z')) :
    lowerCase c = c.toLower := by
  have hall : ∀ n < 128, 65 ≤ n → lowerCase (Char.ofNat n) = (Char.ofNat n).toLower ∨ 122 < n ∨
      90 < n ∧ n < 97 := by
    decide +kernel
  have hlow : 65 ≤ c.toNat := by
    rcases h with h | h
    · exact le_trans (by decide) (show 97 ≤ c.toNat from h.1)
    · exact h.1
  have hhigh : c.toNat ≤ 122 ∧ ¬ (90 < c.toNat ∧ c.toNat < 97) := by
    rcases h with ⟨h, h'⟩ | ⟨h, h'⟩
    · have hmore : 97 ≤ c.toNat := h
      have hless : c.toNat ≤ 122 := h'
      omega
    · have hless : c.toNat ≤ 90 := h'
      omega
  have hspec := hall c.toNat (by omega) hlow
  rw [Char.ofNat_toNat] at hspec
  exact hspec.resolve_right (by omega)

/-- What one character does to the checks, if it passes. -/
theorem Scan.next_cases {scan scan' : Scan} {i : Nat} (h : scan.next i c = some scan') :
    ((('a' ≤ c ∧ c ≤ 'z') ∨ ('A' ≤ c ∧ c ≤ 'Z')) ∧ scan'.hasNumber = scan.hasNumber ∧
        scan'.prefixSize = scan.prefixSize) ∨
      (c ≠ ':' ∧ scan'.hasNumber ∧ scan'.prefixSize = scan.prefixSize) ∨
      (c = ':' ∧ scan.hasNumber = false ∧ i ≠ 0 ∧ scan.prefixSize = 0 ∧ scan'.prefixSize = i) := by
  unfold Scan.next at h
  split_ifs at h with hlower hupper hdigit hsep hguard
  · cases h
    exact .inl ⟨.inl hlower, rfl, rfl⟩
  · cases h
    exact .inl ⟨.inr hupper, rfl, rfl⟩
  · cases h
    refine .inr (.inl ⟨?_, rfl, rfl⟩)
    rintro rfl
    exact absurd hdigit (by decide)
  · cases h
    simp only [Bool.or_eq_true, beq_iff_eq, bne_iff_ne, not_or, not_not, Bool.not_eq_true] at hguard
    exact .inr (.inr ⟨hsep, hguard.1.1, hguard.1.2, hguard.2, rfl⟩)

/-- A text that passes is a word, or a prefix of letters and a word with a separator between. -/
theorem Scan.run_cases {scan scan' : Scan} {i : Nat} (h : scan.run i text = some scan') :
    (':' ∉ text ∧ scan'.prefixSize = scan.prefixSize) ∨
      ∃ front back, text = front ++ ':' :: back ∧
        (∀ c ∈ front, ('a' ≤ c ∧ c ≤ 'z') ∨ ('A' ≤ c ∧ c ≤ 'Z')) ∧
        scan.hasNumber = false ∧ scan.prefixSize = 0 ∧ i + front.length ≠ 0 ∧
        scan'.prefixSize = i + front.length := by
  induction text generalizing scan i with
  | nil =>
    cases h
    exact .inl ⟨not_mem_nil, rfl⟩
  | cons c text ih =>
    obtain ⟨next, hnext, hrun⟩ := bind_eq_some_iff.mp h
    rcases Scan.next_cases hnext with ⟨hletter, hnum, hsize⟩ | ⟨hc, hnum, hsize⟩ |
        ⟨rfl, hnum, hi, hsize, hsize'⟩
    · have hc : ':' ≠ c := by
        rintro rfl
        exact absurd hletter (by decide)
      rcases ih hrun with ⟨hword, hend⟩ | ⟨front, back, rfl, hfront, hnum', hzero, -, hend⟩
      · exact .inl ⟨by simp [hc, hword], hend.trans hsize⟩
      · refine .inr ⟨c :: front, back, rfl, forall_mem_cons.mpr ⟨hletter, hfront⟩,
          hnum.symm.trans hnum', hsize.symm.trans hzero, ?_, ?_⟩
        · rw [length_cons]
          omega
        · rw [hend, length_cons]
          omega
    · rcases ih hrun with ⟨hword, hend⟩ | ⟨-, -, -, -, hnum', -⟩
      · exact .inl ⟨by simp [Ne.symm hc, hword], hend.trans hsize⟩
      · rw [hnum] at hnum'
        cases hnum'
    · rcases ih hrun with ⟨-, hend⟩ | ⟨-, -, -, -, -, hzero, -⟩
      · exact .inr ⟨[], text, rfl, by simp, hnum, hsize, hi, hend.trans hsize'⟩
      · exact absurd (hsize'.symm.trans hzero) hi

/-- The text in lower case, behind the default prefix if it has none. -/
def canonical (str defaultPrefix : Text) : Text :=
  if ':' ∈ str then str.map Char.toLower else defaultPrefix ++ ':' :: str.map Char.toLower

/-- What is read is what the text in lower case spells. -/
theorem parse_spec {str defaultPrefix : Text}
    (h : parse str defaultPrefix = some (prefixText, values)) :
    (∀ d ∈ values, d < 32) ∧
      canonical str defaultPrefix = prefixText ++ ':' :: values.map toCharset := by
  obtain ⟨scan, hrun, h⟩ := bind_eq_some_iff.mp h
  split_ifs at h with hmixed hnone
  · obtain ⟨tail, hmapM, hvals⟩ := bind_eq_some_iff.mp h
    cases hvals
    obtain ⟨hlt, htext⟩ := mapM_eq_some hmapM
    rcases Scan.run_cases hrun with ⟨hword, -⟩ | ⟨front, back, -, -, -, -, hne, hsize⟩
    · exact ⟨hlt, by rw [canonical, if_neg hword, htext]⟩
    · exact absurd (hsize.symm.trans hnone) hne
  · obtain ⟨tail, hmapM, hvals⟩ := bind_eq_some_iff.mp h
    cases hvals
    obtain ⟨hlt, htext⟩ := mapM_eq_some hmapM
    rcases Scan.run_cases hrun with ⟨-, hsize⟩ | ⟨front, back, rfl, hfront, -, -, -, hsize⟩
    · exact absurd hsize hnone
    · rw [zero_add] at hsize
      have htake : (front ++ ':' :: back).take scan.prefixSize = front := by
        rw [hsize, take_left]
      have hdrop : (front ++ ':' :: back).drop (scan.prefixSize + 1) = back := by
        rw [hsize, ← drop_drop, drop_left]
        rfl
      rw [hdrop] at htext
      refine ⟨hlt, ?_⟩
      rw [canonical, if_pos (by simp), htake, htext, map_append, map_cons,
        map_congr_left fun c hc => lowerCase_of_letter (hfront c hc)]
      rfl

/-- A text that is accepted is the encoding of what it is decoded to. -/
theorem decode_spec {str defaultPrefix : Text}
    (h : decode str defaultPrefix = some (prefixText, payload)) :
    (prefixText = [] ∧ payload = []) ∨
      (∀ d ∈ payload, d < 32) ∧ canonical str defaultPrefix = encode prefixText payload := by
  unfold decode at h
  split at h
  · cases h
    exact .inl ⟨rfl, rfl⟩
  · rename_i parsed values hparse
    split_ifs at h with hpass hshort
    · cases h
      exact .inl ⟨rfl, rfl⟩
    · cases h
      rw [Bool.not_eq_true, Bool.not_eq_false'] at hpass
      obtain ⟨hlt, htext⟩ := parse_spec hparse
      set size := values.length - 8 with hsize
      have hsplit : values.take size ++ values.drop size = values := take_append_drop _ _
      have hlen : (values.drop size).length = 8 := by
        rw [length_drop]
        omega
      rw [← hsplit] at hpass hlt
      have hsum := eq_createChecksum hlt hlen hpass
      refine .inr ⟨fun d hd => hlt d (mem_append_left _ hd), ?_⟩
      rw [encode, ← hsum, hsplit, htext]

theorem toCharset_ne_separator (h : ∀ d ∈ values, d < 32) : ':' ∉ values.map toCharset := by
  intro hmem
  obtain ⟨d, hd, hchar⟩ := mem_map.mp hmem
  have hplain := isPlain_toCharset (h d hd)
  rw [hchar] at hplain
  exact absurd hplain (by decide)

theorem map_toCharset_inj {values' : DataChunk} (h : ∀ d ∈ values, d < 32)
    (h' : ∀ d ∈ values', d < 32) (heq : values.map toCharset = values'.map toCharset) :
    values = values' := by
  have hmapM := mapM_fromCharset h
  rw [heq, mapM_fromCharset h'] at hmapM
  exact (Option.some.inj hmapM).symm

/-- The text tells the prefix and the payload. -/
theorem encode_inj {prefixText' : Text} {payload' : DataChunk} (hfront : ':' ∉ prefixText)
    (h : ∀ d ∈ payload, d < 32) (h' : ∀ d ∈ payload', d < 32)
    (heq : encode prefixText payload = encode prefixText' payload') :
    prefixText = prefixText' ∧ payload = payload' := by
  have hvals : ∀ d ∈ payload ++ createChecksum prefixText payload, d < 32 :=
    forall_mem_append.mpr ⟨h, createChecksum_lt prefixText payload⟩
  have hvals' : ∀ d ∈ payload' ++ createChecksum prefixText' payload', d < 32 :=
    forall_mem_append.mpr ⟨h', createChecksum_lt prefixText' payload'⟩
  obtain ⟨hfrontEq, -, htext⟩ :=
    (append_cons_inj_of_notMem hfront (toCharset_ne_separator hvals)).mp heq
  refine ⟨hfrontEq, (append_inj' (map_toCharset_inj hvals hvals' htext) ?_).1⟩
  rw [length_createChecksum, length_createChecksum]

/-- The text announces no complete checksum, but its few values spell what is left of the prefix. -/
def CompletedEarly (str defaultPrefix : Text) : Prop :=
  ∃ prefixText values, parse str defaultPrefix = some (prefixText, values) ∧ values.length < 8 ∧
    (polyMod (expandPrefix prefixText ++ List.replicate values.length 0)).toNat =
      Positional.value 32 (values.map UInt8.toNat)

/-- The range without the checksum is valid unless fewer than eight values complete the prefix. -/
theorem decode_defined_iff (str defaultPrefix : Text) :
    decode str defaultPrefix ≠ none ↔ ¬ CompletedEarly str defaultPrefix := by
  rw [ne_eq, not_iff_not]
  constructor
  · intro hnone
    unfold decode at hnone
    split at hnone
    · cases hnone
    · rename_i prefixText values hparse
      split_ifs at hnone with hpass hshort
      rw [Bool.not_eq_true, Bool.not_eq_false', verifyChecksum_iff (parse_spec hparse).1,
        remainder_append_eq_one_iff (expandPrefix_lt _) (parse_spec hparse).1 hshort.le] at hpass
      exact ⟨prefixText, values, hparse, hshort, hpass⟩
  · rintro ⟨prefixText, values, hparse, hshort, hspell⟩
    rw [← remainder_append_eq_one_iff (expandPrefix_lt _) (parse_spec hparse).1 hshort.le,
      ← verifyChecksum_iff (parse_spec hparse).1] at hspell
    simp [decode, hparse, hspell, hshort]

/-- A prefix of eight letters that leaves the remainder one, without any value. -/
theorem decode_cuts_before_start : decode "rpzrrzpr:".toList "bitcoincash".toList = none := by
  decide +kernel

end BitprimCore.Cashaddr
