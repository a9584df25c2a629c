import BitprimCore.Utility.Readers

/-!
# Where the two readers are the same

While both readers are valid they have the same bytes before them, and the stream may know that it
is at its end. From such states each call is seen to do the same in both readers exactly if it
meets a condition on the stream: mostly, that the bytes it asks for are there.
-/

namespace BitprimCore.Readers

open Interchange Istream List

variable {bytes : DataChunk}

/-- Both readers are valid and at the same place. -/
structure Related (stream : Istream) (source : Deserializer) : Prop where
  failbit : stream.failbit = false
  valid : source.valid = true
  remaining : stream.remaining = source.remaining
  eofbit : stream.eofbit = true → stream.remaining = []

/-- Both readers are at the same place, or both are invalid. -/
def Agree (stream : Istream) (source : Deserializer) : Prop :=
  Related stream source ∨ (stream.failbit = true ∧ source.valid = false)

/-- What two calls return and leave: readers that agree, with the same value exactly if the
condition holds, or readers of which one is invalid, which the condition excludes. -/
def Outcome {α : Type} (left : α × Istream) (right : α × Deserializer) (condition : Prop) : Prop :=
  (Agree left.2 right.2 ∧ (left.1 = right.1 ↔ condition)) ∨
    ((!left.2.failbit) ≠ right.2.valid ∧ ¬ condition)

section

variable {α β : Type} {left : α × Istream} {right : α × Deserializer} {condition condition' : Prop}

theorem Outcome.map (h : Outcome left right condition) {f : α → β} (hf : Function.Injective f) :
    Outcome (left.map f id) (right.map f id) condition := by
  obtain ⟨hagree, hval⟩ | hdiffer := h
  · exact .inl ⟨hagree, hf.eq_iff.trans hval⟩
  · exact .inr hdiffer

theorem Outcome.congr (h : Outcome left right condition) (hiff : condition ↔ condition') :
    Outcome left right condition' := by
  rwa [Outcome, ← hiff]

/-- The same value and the same place. -/
theorem outcome_of_related {value : α} {stream : Istream} {source : Deserializer}
    (h : Related stream source) (hcond : condition) :
    Outcome (value, stream) (value, source) condition :=
  .inl ⟨.inl h, iff_of_true rfl hcond⟩

/-- Both readers become invalid. -/
theorem outcome_of_failed (hleft : left.2.failbit) (hright : right.2.valid = false)
    (hval : left.1 = right.1 ↔ condition) : Outcome left right condition :=
  .inl ⟨.inr ⟨hleft, hright⟩, hval⟩

end

variable {stream : Istream} {source : Deserializer}

section

variable (h : Related stream source)

namespace Related

include h

theorem not_eofbit (hrem : stream.remaining ≠ []) : stream.eofbit = false := by
  rw [← Bool.not_eq_true]
  exact fun heof => hrem (h.eofbit heof)

/-- The readers after a number of bytes. -/
theorem drop (size : Nat) :
    Related { stream with remaining := stream.remaining.drop size }
      { source with remaining := source.remaining.drop size } where
  failbit := h.failbit
  valid := h.valid
  remaining := congrArg (List.drop size) h.remaining
  eofbit heof := by
    dsimp only at heof ⊢
    rw [h.eofbit heof, drop_nil]

variable {size : Nat}

theorem read_of_le (hpos : 0 < size) (hsize : size ≤ stream.remaining.length) :
    stream.read size = (stream.remaining.take size,
      { stream with remaining := stream.remaining.drop size }) := by
  have hne : stream.remaining ≠ [] := ne_nil_of_length_pos (hpos.trans_le hsize)
  simp [Istream.read, h.not_eofbit hne, h.failbit, not_lt.mpr hsize]

theorem read_of_lt (hsize : stream.remaining.length < size) :
    (stream.read size).1 = stream.remaining ∧ (stream.read size).2.failbit := by
  cases heof : stream.eofbit with
  | true => simp [Istream.read, heof, h.eofbit heof]
  | false => simp [Istream.read, heof, h.failbit, hsize]

variable {α : Type}

/-- The bytes of a size are there. -/
theorem take_of_le (hsize : size ≤ stream.remaining.length) (default : α) (use : DataChunk → α) :
    source.take size default use = (use (stream.remaining.take size),
      { source with remaining := source.remaining.drop size }) := by
  rw [h.remaining] at hsize
  simp [Deserializer.take, Deserializer.require, hsize, h.valid, h.remaining]

theorem take_of_lt (hsize : stream.remaining.length < size) (default : α) (use : DataChunk → α) :
    source.take size default use = (default, { source with valid := false }) := by
  rw [h.remaining] at hsize
  simp [Deserializer.take, Deserializer.require, not_le.mpr hsize]

/-- The readers take bytes that are there, and both fail at those that are not. -/
theorem outcome_take {default : α} {use : DataChunk → α} {left : α × Istream} {condition : Prop}
    (hle : size ≤ stream.remaining.length → condition ∧ left =
      (use (stream.remaining.take size), { stream with remaining := stream.remaining.drop size }))
    (hlt : stream.remaining.length < size → left.2.failbit ∧ (left.1 = default ↔ condition)) :
    Outcome left (source.take size default use) condition := by
  rcases Nat.lt_or_ge stream.remaining.length size with hsize | hsize
  · obtain ⟨hfail, hval⟩ := hlt hsize
    rw [h.take_of_lt hsize]
    exact outcome_of_failed hfail rfl hval
  · obtain ⟨hcond, rfl⟩ := hle hsize
    rw [h.take_of_le hsize]
    exact outcome_of_related (h.drop size) hcond

end Related

variable (place : Nat → Nat)

theorem joinStream_of_failbit (count i out : Nat) {stream : Istream} (h : stream.failbit) :
    joinStream place count i out stream = (out, stream) := by
  cases count with
  | zero => rfl
  | succ count => rw [joinStream, if_pos h]

include h

theorem Related.joinStream_of_le {count : Nat} (hcount : count ≤ stream.remaining.length)
    (i out : Nat) :
    joinStream place count i out stream = (joinBytes place (stream.remaining.take count) i out,
      { stream with remaining := stream.remaining.drop count }) := by
  induction count generalizing stream source i out with
  | zero => rfl
  | succ count ih =>
    obtain ⟨byte, rest, hrem⟩ := exists_cons_of_length_pos (Nat.zero_lt_of_lt hcount)
    have hone : 1 ≤ stream.remaining.length := by omega
    have hrest := ih (h.drop 1) (by rw [length_drop]; omega) (i + 1)
      (out ||| byte.toNat <<< (8 * place i))
    rw [joinStream, if_neg (by simp [h.failbit]), h.read_of_le Nat.one_pos hone]
    simp only [hrem, take_succ_cons, take_zero, headD_cons, drop_succ_cons, drop_zero] at hrest ⊢
    rw [hrest, joinBytes]

/-- Bytes that do not arrive are zero. -/
theorem Related.joinStream_of_lt {count : Nat} (hcount : stream.remaining.length < count)
    (i out : Nat) :
    (joinStream place count i out stream).1 = joinBytes place stream.remaining i out ∧
      (joinStream place count i out stream).2.failbit := by
  induction count generalizing stream source i out with
  | zero => exact absurd hcount (Nat.not_lt_zero _)
  | succ count ih =>
    rw [joinStream, if_neg (by simp [h.failbit])]
    dsimp only
    cases hrem : stream.remaining with
    | nil =>
      obtain ⟨hbytes, hfail⟩ := h.read_of_lt (show stream.remaining.length < 1 by simp [hrem])
      rw [joinStream_of_failbit _ _ _ _ hfail, hbytes, hrem]
      simp [joinBytes, hfail]
    | cons byte rest =>
      have hone : 1 ≤ stream.remaining.length := by simp [hrem]
      have hrest := ih (h.drop 1) (by rw [length_drop]; omega) (i + 1)
        (out ||| byte.toNat <<< (8 * place i))
      rw [h.read_of_le Nat.one_pos hone]
      simp only [hrem, take_succ_cons, take_zero, headD_cons, drop_succ_cons, drop_zero] at hrest ⊢
      exact hrest

omit h

theorem joinBytes_eq_zero_iff (bytes : DataChunk) (i out : Nat) :
    joinBytes place bytes i out = 0 ↔ out = 0 ∧ ∀ byte ∈ bytes, byte = 0 := by
  induction bytes generalizing i out with
  | nil => simp [joinBytes]
  | cons byte rest ih =>
    have hbyte : byte.toNat = 0 ↔ byte = 0 := by
      rw [← UInt8.toNat_inj]
      rfl
    rw [joinBytes, ih, Nat.or_eq_zero_iff, Nat.shiftLeft_eq_zero_iff, forall_mem_cons,
      and_assoc, hbyte]

/-- The bytes that arrive, and zeros, are joined. -/
theorem joinStream_eq_joinBytes (count i out : Nat) (stream : Istream) :
    ∃ bytes : DataChunk, bytes.length ≤ count ∧
      (joinStream place count i out stream).1 = joinBytes place bytes i out := by
  induction count generalizing i out stream with
  | zero => exact ⟨[], le_rfl, rfl⟩
  | succ count ih =>
    rw [joinStream]
    split_ifs
    · exact ⟨[], Nat.zero_le _, rfl⟩
    · obtain ⟨bytes, hlen, heq⟩ := ih (i + 1) _ _
      exact ⟨_ :: bytes, Nat.succ_le_succ hlen, heq⟩

theorem joinBytes_lt {place : Nat → Nat} {i out : Nat}
    (hplace : ∀ j, i ≤ j → j < i + bytes.length → place j < 8) (hout : out < 2 ^ 64) :
    joinBytes place bytes i out < 2 ^ 64 := by
  induction bytes generalizing i out with
  | nil => exact hout
  | cons byte rest ih =>
    have hhere : place i < 8 := hplace i le_rfl (by rw [List.length_cons]; omega)
    have hshift : byte.toNat <<< (8 * place i) < 2 ^ 64 := by
      have hpow : 2 ^ (8 * place i) ≤ 2 ^ 56 := Nat.pow_le_pow_right (by decide) (by omega)
      calc byte.toNat <<< (8 * place i) = byte.toNat * 2 ^ (8 * place i) := Nat.shiftLeft_eq ..
        _ ≤ 255 * 2 ^ 56 := Nat.mul_le_mul (Nat.le_of_lt_succ byte.toNat_lt) hpow
        _ < 2 ^ 64 := by decide
    rw [joinBytes]
    apply ih
    · intro j hj hlt
      exact hplace j (by omega) (by rw [List.length_cons]; omega)
    · exact Nat.or_lt_two_pow hout hshift

end

/-- The bytes are there, or those that are there are the zeros that a failed read returns. -/
def Fits (size : Nat) (bytes : DataChunk) : Prop := size ≤ bytes.length ∨ ∀ byte ∈ bytes, byte = 0

/-- The bytes that follow the first byte of a variable integer. -/
def variableWidth (byte : UInt8) : Nat :=
  if byte = 0xff then 8 else if byte = 0xfe then 4 else if byte = 0xfd then 2 else 0

def FitsVariable : DataChunk → Prop
  | [] => True
  | byte :: rest => Fits (variableWidth byte) rest

variable (place : Nat → Nat → Nat)

/-- The variable integer of a byte and the bytes behind it, whose places depend on the width. -/
def variableValue (byte : UInt8) (rest : DataChunk) : Nat :=
  if variableWidth byte = 0 then byte.toNat
  else joinBytes (place (variableWidth byte)) (rest.take (variableWidth byte)) 0 0

/-- A string is there if its size is. -/
def FitsString : DataChunk → Prop
  | [] => True
  | byte :: rest => variableWidth byte ≤ rest.length →
      variableValue (fun _ => id) byte rest ≤ (rest.drop (variableWidth byte)).length

/-- The condition on the stream before a call. -/
def Satisfied (unset : (size : Nat) → Bytes size) : Call → Istream → Prop
  | .isExhausted, stream => stream.eofbit = false
  | .invalidate, _ => True
  | .readHash type, stream =>
    type.size ≤ stream.remaining.length ∨
      stream.remaining ++ (unset type.size).val.drop stream.remaining.length =
        List.replicate type.size 0
  | .readBigEndian width, stream => Fits width.bytes stream.remaining
  | .readVariableBigEndian, stream => FitsVariable stream.remaining
  | .readSizeBigEndian, stream => FitsVariable stream.remaining
  | .readErrorCode, stream => Fits 4 stream.remaining
  | .readLittleEndian width, stream => Fits width.bytes stream.remaining
  | .readVariableLittleEndian, stream => FitsVariable stream.remaining
  | .readSizeLittleEndian, stream => FitsVariable stream.remaining
  | .peekByte, stream => stream.remaining ≠ []
  | .readByte, stream => stream.remaining ≠ []
  | .readAllBytes, stream => stream.eofbit = false
  | .readBytes size, stream => Fits size stream.remaining
  | .readSizedString, stream => FitsString stream.remaining
  | .readString size, stream => size ≤ stream.remaining.length ∨ stream.eofbit = true
  | .skip _, _ => True

namespace Related

variable (h : Related stream source)

include h

theorem outcome_join (place : Nat → Nat) {width : Nat} :
    Outcome (joinStream place width 0 0 stream)
      (source.take width 0 fun bytes => joinBytes place bytes 0 0)
      (Fits width stream.remaining) := by
  refine h.outcome_take (fun hwidth => ⟨.inl hwidth, h.joinStream_of_le place hwidth 0 0⟩) ?_
  intro hwidth
  obtain ⟨hval, hfail⟩ := h.joinStream_of_lt place hwidth 0 0
  rw [hval, joinBytes_eq_zero_iff]
  exact ⟨hfail, by simp [Fits, not_le.mpr hwidth]⟩

variable {size : Nat}

theorem outcome_readForward (unset : (size : Nat) → Bytes size) (hpos : 0 < size) :
    Outcome (stream.readForward unset size) (source.take size (replicate size 0) id)
      (size ≤ stream.remaining.length ∨
        stream.remaining ++ (unset size).val.drop stream.remaining.length = replicate size 0) := by
  rw [readForward]
  refine h.outcome_take (fun hsize => ⟨.inl hsize, ?_⟩) fun hsize => ?_
  · have hunset : (unset size).val.drop size = [] := drop_of_length_le (unset size).property.le
    rw [h.read_of_le hpos hsize]
    dsimp only [id]
    rw [length_take_of_le hsize, hunset, append_nil]
  · obtain ⟨hbytes, hfail⟩ := h.read_of_lt hsize
    refine ⟨hfail, ?_⟩
    dsimp only
    rw [hbytes]
    simp [not_le.mpr hsize]

theorem readBytes_of_le (hsize : size ≤ stream.remaining.length) :
    stream.readBytes size =
      (stream.remaining.take size, { stream with remaining := stream.remaining.drop size }) := by
  rw [Istream.readBytes]
  split_ifs with hpos
  · rw [h.read_of_le hpos hsize]
    dsimp only
    rw [length_take_of_le hsize, Nat.sub_self, replicate_zero, append_nil]
  · obtain rfl : size = 0 := Nat.eq_zero_of_not_pos hpos
    rfl

theorem readBytes_of_lt (hsize : stream.remaining.length < size) :
    (stream.readBytes size).1 = stream.remaining ++ replicate (size - stream.remaining.length) 0 ∧
      (stream.readBytes size).2.failbit := by
  obtain ⟨hbytes, hfail⟩ := h.read_of_lt hsize
  rw [Istream.readBytes, if_pos (Nat.zero_lt_of_lt hsize)]
  dsimp only
  rw [hbytes]
  exact ⟨rfl, hfail⟩

theorem outcome_readBytes (size : Nat) :
    Outcome (stream.readBytes size) (source.readBytes size) (Fits size stream.remaining) := by
  refine h.outcome_take (fun hsize => ⟨.inl hsize, h.readBytes_of_le hsize⟩) fun hsize => ?_
  obtain ⟨hbytes, hfail⟩ := h.readBytes_of_lt hsize
  refine ⟨hfail, ?_⟩
  rw [hbytes, eq_replicate_iff, length_append, length_replicate, Nat.add_sub_cancel' hsize.le,
    forall_mem_append]
  simp [Fits, not_le.mpr hsize]

theorem outcome_skip (size : Nat) :
    Outcome ((), (stream.readBytes size).2) (source.take size () fun _ => ()) True :=
  h.outcome_take (fun hsize => ⟨trivial, by rw [h.readBytes_of_le hsize]⟩)
    fun hsize => ⟨(h.readBytes_of_lt hsize).2, iff_of_true rfl trivial⟩

theorem readByte_cons
    (hrem : stream.remaining = byte :: rest) :
    stream.readByte = (byte, { stream with remaining := rest }) ∧
      source.readByte = (byte, { source with remaining := rest }) ∧
      Related { stream with remaining := rest } { source with remaining := rest } := by
  have heof : stream.eofbit = false := h.not_eofbit (by simp [hrem])
  have hone : 1 ≤ stream.remaining.length := by simp [hrem]
  have hdrop := h.drop 1
  have hsource := h.take_of_le hone (0 : UInt8) fun bytes => bytes.headD 0
  simp only [← h.remaining, hrem, drop_succ_cons, drop_zero, take_succ_cons,
    headD_cons] at hdrop hsource
  refine ⟨?_, hsource, hdrop⟩
  simp [Istream.readByte, Istream.get, heof, h.failbit, hrem]

theorem readByte_nil (hrem : stream.remaining = []) :
    stream.readByte.1 = 0xff ∧ stream.readByte.2.failbit ∧
      source.readByte = (0, { source with valid := false }) := by
  have hsource := h.take_of_lt (show stream.remaining.length < 1 by simp [hrem]) (0 : UInt8)
    fun bytes => bytes.headD 0
  refine ⟨?_, ?_, hsource⟩
  · cases heof : stream.eofbit <;>
      simp [Istream.readByte, Istream.get, heof, h.failbit, hrem]
  · cases heof : stream.eofbit <;>
      simp [Istream.readByte, Istream.get, heof, h.failbit, hrem]

theorem outcome_readByte : Outcome stream.readByte source.readByte (stream.remaining ≠ []) := by
  cases hrem : stream.remaining with
  | nil =>
    obtain ⟨hval, hfail, hsource⟩ := h.readByte_nil hrem
    rw [hsource]
    refine outcome_of_failed hfail rfl ?_
    simp [hval]
  | cons byte rest =>
    obtain ⟨hstream, hsource, hrel⟩ := h.readByte_cons hrem
    rw [hstream, hsource]
    exact outcome_of_related hrel (cons_ne_nil byte rest)

/-- At the end the stream shows a byte and stays valid, unless the end has been seen before. -/
theorem outcome_peekByte : Outcome stream.peekByte source.peekByte (stream.remaining ≠ []) := by
  have hsource := h.remaining
  cases hrem : stream.remaining with
  | nil =>
    rw [hrem] at hsource
    cases heof : stream.eofbit with
    | false =>
      refine .inr ⟨?_, by simp⟩
      simp [peekByte, peek, heof, h.failbit, hrem, Deserializer.peekByte,
        Deserializer.require, ← hsource]
    | true =>
      apply outcome_of_failed
      · simp [peekByte, peek, heof]
      · simp [Deserializer.peekByte, Deserializer.require, ← hsource]
      · simp [peekByte, peek, heof, Deserializer.peekByte, Deserializer.require, ← hsource]
  | cons byte rest =>
    rw [hrem] at hsource
    have heof : stream.eofbit = false := h.not_eofbit (by simp [hrem])
    have hleft : stream.peekByte = (byte, stream) := by
      simp [peekByte, peek, heof, h.failbit, hrem]
    have hright : source.peekByte = (byte, source) := by
      simp [Deserializer.peekByte, Deserializer.require, ← hsource, h.valid]
    rw [hleft, hright]
    exact outcome_of_related h (cons_ne_nil byte rest)

/-- The end is seen only once. -/
theorem isExhausted_eq :
    stream.isExhausted = (stream.remaining.isEmpty,
      { stream with
        eofbit := stream.remaining.isEmpty
        failbit := stream.eofbit }) := by
  cases heof : stream.eofbit with
  | true => simp [isExhausted, empty, peek, h.failbit, heof, h.eofbit heof]
  | false =>
    cases hrem : stream.remaining with
    | nil => simp [isExhausted, empty, peek, h.failbit, heof, hrem]
    | cons byte rest =>
      obtain ⟨remaining, eofbit, failbit⟩ := stream
      obtain rfl : failbit = false := h.failbit
      obtain rfl : eofbit = false := heof
      obtain rfl : remaining = byte :: rest := hrem
      rfl

theorem exhausted (heof : stream.eofbit = false) :
    Related { stream with eofbit := stream.remaining.isEmpty, failbit := stream.eofbit } source where
  failbit := heof
  valid := h.valid
  remaining := h.remaining
  eofbit hempty := isEmpty_iff.mp hempty

theorem deserializer_isExhausted :
    Deserializer.reader.isExhausted source = (stream.remaining.isEmpty, source) := by
  rw [h.remaining]
  cases hrem : source.remaining <;> simp [Deserializer.reader, h.valid, hrem]

theorem outcome_isExhausted :
    Outcome stream.isExhausted (Deserializer.reader.isExhausted source) (stream.eofbit = false) := by
  rw [h.isExhausted_eq, h.deserializer_isExhausted]
  cases heof : stream.eofbit with
  | false =>
    have hrel := h.exhausted heof
    rw [heof] at hrel
    exact outcome_of_related hrel rfl
  | true => exact .inr ⟨by simp [h.valid], by simp⟩

theorem empty_cons (hrem : stream.remaining = byte :: rest) : stream.empty = (false, stream) := by
  have heof : stream.eofbit = false := h.not_eofbit (by simp [hrem])
  simp [empty, peek, heof, h.failbit, hrem]

theorem readAllLoop_eq (heof : stream.eofbit = false) :
    readAllLoop stream.remaining.length stream =
      (stream.remaining, { remaining := [], eofbit := true, failbit := false }) := by
  generalize hbytes : stream.remaining = bytes
  induction bytes generalizing stream source with
  | nil =>
    rw [length_nil, readAllLoop, h.isExhausted_eq, hbytes, heof]
    rfl
  | cons byte rest ih =>
    have hexhausted : stream.isExhausted = (false, stream) := by
      rw [isExhausted, h.failbit, h.empty_cons hbytes]
      rfl
    obtain ⟨hstream, -, hrel⟩ := h.readByte_cons hbytes
    rw [length_cons, readAllLoop, hexhausted]
    simp only [Bool.false_eq_true, if_false, hstream]
    rw [ih hrel heof rfl]

theorem outcome_readAllBytes :
    Outcome stream.readAllBytes (source.readBytes source.remaining.length)
      (stream.eofbit = false) := by
  have hright : source.readBytes source.remaining.length =
      (stream.remaining, { source with remaining := [] }) := by
    rw [Deserializer.readBytes, ← h.remaining, h.take_of_le le_rfl, take_length, ← h.remaining,
      drop_length]
    rfl
  rw [readAllBytes, hright]
  cases heof : stream.eofbit with
  | false =>
    rw [h.readAllLoop_eq heof]
    refine outcome_of_related ?_ rfl
    exact ⟨rfl, h.valid, rfl, fun _ => rfl⟩
  | true =>
    refine .inr ⟨?_, by simp⟩
    rw [h.eofbit heof, length_nil, readAllLoop, h.isExhausted_eq, heof]
    simp [h.valid]

theorem readStringLoop_of_le (hsize : size ≤ stream.remaining.length) (terminated : Bool) :
    readStringLoop size terminated stream =
      (if terminated then [] else (stream.remaining.take size).takeWhile (· != 0),
        { stream with remaining := stream.remaining.drop size }) := by
  induction size generalizing stream source terminated with
  | zero => cases terminated <;> rfl
  | succ size ih =>
    obtain ⟨byte, rest, hrem⟩ := exists_cons_of_length_pos (Nat.zero_lt_of_lt hsize)
    obtain ⟨hstream, -, hrel⟩ := h.readByte_cons hrem
    have hrest := ih hrel (by rw [hrem] at hsize; exact Nat.le_of_succ_le_succ hsize)
      (terminated || byte == 0)
    rw [readStringLoop, h.empty_cons hrem]
    simp only [Bool.false_eq_true, if_false, hstream, hrest, hrem, take_succ_cons, drop_succ_cons]
    cases terminated with
    | true => rfl
    | false => cases hbyte : byte == 0 <;> simp_all

/-- A string that is too short leaves the stream valid, unless the end has been seen before. -/
theorem readStringLoop_of_lt (hsize : stream.remaining.length < size) (terminated : Bool) :
    (readStringLoop size terminated stream).2.failbit = stream.eofbit := by
  induction size generalizing stream source terminated with
  | zero => exact absurd hsize (Nat.not_lt_zero _)
  | succ size ih =>
    rw [readStringLoop]
    cases hrem : stream.remaining with
    | nil =>
      cases heof : stream.eofbit <;>
        simp [empty, peek, heof, h.failbit, hrem]
    | cons byte rest =>
      obtain ⟨hstream, -, hrel⟩ := h.readByte_cons hrem
      rw [hrem, length_cons] at hsize
      rw [h.empty_cons hrem]
      simp only [Bool.false_eq_true, if_false, hstream]
      exact ih hrel (Nat.lt_of_succ_lt_succ hsize) _

theorem outcome_readString (size : Nat) :
    Outcome (readStringLoop size false stream)
      (source.take size [] fun bytes => bytes.takeWhile (· != 0))
      (size ≤ stream.remaining.length ∨ stream.eofbit) := by
  by_cases hsize : size ≤ stream.remaining.length
  · rw [h.readStringLoop_of_le hsize, h.take_of_le hsize]
    exact outcome_of_related (h.drop size) (.inl hsize)
  · have hlt := not_le.mp hsize
    have hfail := h.readStringLoop_of_lt hlt false
    rw [h.take_of_lt hlt]
    cases heof : stream.eofbit with
    | false =>
      refine .inr ⟨?_, by simp [hsize]⟩
      rw [hfail, heof]
      exact Bool.noConfusion
    | true =>
      obtain ⟨size, rfl⟩ := Nat.exists_eq_succ_of_ne_zero (Nat.ne_zero_of_lt hlt)
      refine outcome_of_failed (hfail.trans heof) rfl (iff_of_true ?_ (.inr rfl))
      simp [readStringLoop, empty, peek, heof]

end Related

theorem readVariable_eq {σ : Type} (reader : ByteReader σ) (readInteger : Nat → σ → Nat × σ)
    (s : σ) :
    reader.readVariable readInteger s =
      if variableWidth (reader.readByte s).1 = 0 then
        ((reader.readByte s).1.toNat, (reader.readByte s).2)
      else readInteger (variableWidth (reader.readByte s).1) (reader.readByte s).2 := by
  rw [ByteReader.readVariable, variableWidth]
  split_ifs <;> first | rfl | contradiction

/-- The integers of a stream and of memory, with places that depend on the width. -/
def streamInteger (width : Nat) : Istream → Nat × Istream := joinStream (place width) width 0 0

/-- An integer from memory. -/
def memoryInteger (width : Nat) : Deserializer → Nat × Deserializer :=
  Deserializer.take width 0 fun bytes => joinBytes (place width) bytes 0 0

variable (unset : (size : Nat) → Bytes size)

/-- The integer is read from both, or both fail. -/
theorem Related.readVariable_cases (h : Related stream source) (place : Nat → Nat → Nat) :
    let left := (reader unset).readVariable (streamInteger place) stream
    let right := Deserializer.reader.readVariable (memoryInteger place) source
    (left.2.failbit = true ∧ right.1 = 0 ∧ right.2.valid = false ∧
        (left.1 = 0 ↔ FitsVariable stream.remaining) ∧ FitsString stream.remaining) ∨
      ∃ byte rest, stream.remaining = byte :: rest ∧ variableWidth byte ≤ rest.length ∧
        left = (variableValue place byte rest,
          { stream with remaining := rest.drop (variableWidth byte) }) ∧
        right = (variableValue place byte rest,
          { source with remaining := rest.drop (variableWidth byte) }) := by
  dsimp only
  rw [readVariable_eq, readVariable_eq]
  cases hrem : stream.remaining with
  | nil =>
    obtain ⟨hval, hfail, hsource⟩ := h.readByte_nil hrem
    have hleft : ((reader unset).readByte stream).1 = 0xff := hval
    have hright : Deserializer.reader.readByte source = (0, { source with valid := false }) := hsource
    have hjoin : ∀ width, streamInteger place width ((reader unset).readByte stream).2 =
      (0, stream.readByte.2) := fun _ => joinStream_of_failbit _ _ _ _ hfail
    rw [hleft, hright, if_neg (by decide), hjoin]
    exact .inl ⟨hfail, rfl, rfl, iff_of_true rfl trivial, trivial⟩
  | cons byte rest =>
    obtain ⟨hstream, hsource, hrel⟩ := h.readByte_cons hrem
    have hleft : (reader unset).readByte stream = _ := hstream
    have hright : Deserializer.reader.readByte source = _ := hsource
    rw [hleft, hright]
    dsimp only
    rcases Nat.lt_or_ge rest.length (variableWidth byte) with hwidth | hwidth
    · have hzero : variableWidth byte ≠ 0 := Nat.ne_zero_of_lt hwidth
      obtain ⟨hval, hfail⟩ := hrel.joinStream_of_lt (place (variableWidth byte)) hwidth 0 0
      rw [if_neg hzero, if_neg hzero, streamInteger, memoryInteger, hrel.take_of_lt hwidth,
        hval, joinBytes_eq_zero_iff]
      refine .inl ⟨hfail, rfl, rfl, ?_, fun hle => absurd hle (not_le.mpr hwidth)⟩
      simp [FitsVariable, Fits, not_le.mpr hwidth]
    · refine .inr ⟨byte, rest, rfl, hwidth, ?_⟩
      rw [variableValue]
      split_ifs with hzero
      · rw [hzero]
        exact ⟨rfl, rfl⟩
      · exact ⟨hrel.joinStream_of_le _ hwidth 0 0, hrel.take_of_le hwidth _ _⟩

theorem Related.outcome_readVariable (h : Related stream source) (place : Nat → Nat → Nat) :
    Outcome ((reader unset).readVariable (streamInteger place) stream)
      (Deserializer.reader.readVariable (memoryInteger place) source)
      (FitsVariable stream.remaining) := by
  rcases h.readVariable_cases unset place with
    ⟨hfail, hzero, hinvalid, hfits, -⟩ | ⟨byte, rest, hrem, hwidth, hleft, hright⟩
  · refine outcome_of_failed hfail hinvalid ?_
    rw [hzero]
    exact hfits
  · have hdrop := (h.readByte_cons hrem).2.2.drop (variableWidth byte)
    rw [hleft, hright, hrem]
    exact outcome_of_related hdrop (.inl hwidth)

section

variable {place : Nat → Nat → Nat}

/-- The places of an integer are below its width. -/
def Places (place : Nat → Nat → Nat) : Prop := ∀ width i, i < width → place width i < width

theorem places_littleEndian : Places fun _ => id := fun _ _ h => h

theorem places_bigEndian : Places fun width i => width - (i + 1) := by
  intro width i h
  change width - (i + 1) < width
  omega

theorem joinBytes_le (hplace : Places place) {width : Nat} (hwidth : width ≤ 8) {bytes : DataChunk}
    (h : bytes.length ≤ width) : joinBytes (place width) bytes 0 0 ≤ 2 ^ 64 - 1 := by
  apply Nat.le_sub_one_of_lt
  apply joinBytes_lt
  · intro j _ hj
    have hlt := hplace width j (by omega)
    omega
  · decide

theorem streamInteger_le (hplace : Places place) (width : Nat) (stream : Istream)
    (hwidth : width ≤ 8) : (streamInteger place width stream).1 ≤ 2 ^ 64 - 1 := by
  obtain ⟨bytes, hlen, heq⟩ := joinStream_eq_joinBytes (place width) width 0 0 stream
  rw [streamInteger, heq]
  exact joinBytes_le hplace hwidth hlen

theorem memoryInteger_le (hplace : Places place) (width : Nat) (source : Deserializer)
    (hwidth : width ≤ 8) : (memoryInteger place width source).1 ≤ 2 ^ 64 - 1 := by
  rw [memoryInteger, Deserializer.take]
  split_ifs
  · exact joinBytes_le hplace hwidth (length_take_le _ _)
  · exact Nat.zero_le _

/-- All numbers are sizes. -/
theorem readSize_eq {σ : Type} (reader : ByteReader σ) {readInteger : Nat → σ → Nat × σ}
    (hinteger : ∀ width s, width ≤ 8 → (readInteger width s).1 ≤ 2 ^ 64 - 1) (s : σ) :
    reader.readSize (reader.readVariable readInteger) s = reader.readVariable readInteger s := by
  rw [ByteReader.readSize]
  apply if_pos
  rw [readVariable_eq]
  split_ifs
  · have hbyte := (reader.readByte s).1.toNat_lt
    dsimp only
    omega
  · apply hinteger
    rw [variableWidth]
    split_ifs <;> decide

theorem Related.outcome_readSize (h : Related stream source) (hplace : Places place) :
    Outcome ((reader unset).readSize ((reader unset).readVariable (streamInteger place)) stream)
      (Deserializer.reader.readSize (Deserializer.reader.readVariable (memoryInteger place)) source)
      (FitsVariable stream.remaining) := by
  rw [readSize_eq _ (streamInteger_le hplace), readSize_eq _ (memoryInteger_le hplace)]
  exact h.outcome_readVariable unset place

theorem readStringLoop_of_failbit (size : Nat) {stream : Istream} (h : stream.failbit) :
    (readStringLoop size false stream).1 = [] ∧ (readStringLoop size false stream).2.failbit := by
  cases size with
  | zero => exact ⟨rfl, h⟩
  | succ size => simp [readStringLoop, empty, peek, h]

theorem take_of_not_valid {α : Type} {source : Deserializer} (h : source.valid = false)
    (size : Nat) (default : α) (use : DataChunk → α) :
    (source.take size default use).1 = default ∧ (source.take size default use).2.valid = false := by
  have hchecked : (source.require size).valid = false := by
    rw [Deserializer.require]
    split_ifs
    · exact h
    · rfl
  simp [Deserializer.take, hchecked]

/-- If the size is not there, both strings are empty. -/
theorem Related.outcome_readSizedString (h : Related stream source) :
    Outcome ((reader unset).readSizedString stream)
      (Deserializer.reader.readSizedString source) (FitsString stream.remaining) := by
  have hsize : (reader unset).readSizeLittleEndian stream =
      (reader unset).readVariable (streamInteger fun _ => id) stream :=
    readSize_eq _ (streamInteger_le places_littleEndian) stream
  have hsize' : Deserializer.reader.readSizeLittleEndian source =
      Deserializer.reader.readVariable (memoryInteger fun _ => id) source :=
    readSize_eq _ (memoryInteger_le places_littleEndian) source
  rw [ByteReader.readSizedString, ByteReader.readSizedString, hsize, hsize']
  rcases h.readVariable_cases unset fun _ => id with
    ⟨hfail, -, hinvalid, -, hfits⟩ | ⟨byte, rest, hrem, hwidth, hleft, hright⟩
  · obtain ⟨hempty, hstill⟩ := readStringLoop_of_failbit _ hfail
    obtain ⟨hempty', hstill'⟩ := take_of_not_valid hinvalid _ ([] : DataChunk) _
    exact outcome_of_failed hstill hstill' (iff_of_true (hempty.trans hempty'.symm) hfits)
  · have hdrop := (h.readByte_cons hrem).2.2.drop (variableWidth byte)
    have heof : stream.eofbit = false := h.not_eofbit (by simp [hrem])
    rw [hleft, hright]
    apply (hdrop.outcome_readString (variableValue (fun _ => id) byte rest)).congr
    simp [FitsString, hrem, hwidth, heof]

end

/-- The two readers on one call. -/
theorem Related.outcome_call (h : Related stream source) (call : Call) :
    Outcome ((reader unset).call call stream) (Deserializer.reader.call call source)
      (Satisfied unset call stream) := by
  have hnum : Function.Injective Value.number := fun _ _ => Value.number.inj
  have hbytes : Function.Injective Value.bytes := fun _ _ => Value.bytes.inj
  have hbyte : Function.Injective fun byte : UInt8 => Value.number byte.toNat :=
    fun _ _ heq => UInt8.toNat_inj.mp (Value.number.inj heq)
  cases call with
  | isExhausted => exact h.outcome_isExhausted.map fun _ _ => Value.flag.inj
  | invalidate => exact outcome_of_failed rfl rfl (iff_of_true rfl trivial)
  | readHash type =>
    exact (h.outcome_readForward unset (by cases type <;> decide)).map hbytes
  | readBigEndian width => exact (h.outcome_join _).map hnum
  | readVariableBigEndian =>
    exact (h.outcome_readVariable unset fun width i => width - (i + 1)).map hnum
  | readSizeBigEndian => exact (h.outcome_readSize unset places_bigEndian).map hnum
  | readErrorCode => exact (h.outcome_join id).map hnum
  | readLittleEndian width => exact (h.outcome_join id).map hnum
  | readVariableLittleEndian =>
    exact (h.outcome_readVariable unset fun _ => id).map hnum
  | readSizeLittleEndian => exact (h.outcome_readSize unset places_littleEndian).map hnum
  | peekByte => exact h.outcome_peekByte.map hbyte
  | readByte => exact h.outcome_readByte.map hbyte
  | readAllBytes => exact h.outcome_readAllBytes.map hbytes
  | readBytes size => exact (h.outcome_readBytes size).map hbytes
  | readSizedString => exact (h.outcome_readSizedString unset).map hbytes
  | readString size => exact (h.outcome_readString size).map hbytes
  | skip size =>
    exact (h.outcome_skip size).map (f := fun _ => Value.nothing) fun _ _ _ => rfl

end BitprimCore.Readers
