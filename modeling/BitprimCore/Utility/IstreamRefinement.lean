import BitprimCore.Library.SignMagnitude
import BitprimCore.Utility.IstreamReader
import BitprimCore.Utility.ReaderSimulation

/-!
# The stream readers of the decoders

The decoders are modelled with readers that know whether the stream has failed, but not whether its
end was seen (`Utility.IstreamReader`). These do what the readers of a stream with both flags do
(`Utility.Readers`), as long as nothing looks for the end of a stream whose end was seen before.
-/

namespace BitprimCore.Istream

open LittleEndian StickyReader List Readers

/-- What the readers of the decoders see: the bytes left to read, while the stream has not failed. -/
def toSource (stream : Istream) : Source UInt8 :=
  ⟨if stream.failbit then [] else stream.remaining, stream.failbit⟩

/-- The stream has failed, or its end is seen only where it is, and only if it may be. -/
def Sound (seen : Bool) (stream : Istream) : Prop :=
  stream.failbit = true ∨
    Related stream ⟨stream.remaining, true⟩ ∧ (stream.eofbit = true → seen = true)

/-- The reader returns and leaves what that of the stream does. A reader that looks for the end
takes a stream whose end was not seen to one whose end may be seen. -/
structure Refines {α : Type} (before after : Bool) (detailed : Istream → α × Istream)
    (read : Reader UInt8 α) : Prop where
  eq : ∀ stream, stream.Sound before →
    read stream.toSource = ((detailed stream).1, (detailed stream).2.toSource)
  sound : ∀ stream, stream.Sound before → (detailed stream).2.Sound after

section

variable {α β : Type} {before between after seen : Bool} {detailed : Istream → α × Istream}
  {read : Reader UInt8 α}

theorem refines_pure (value : α) :
    Refines seen seen (fun stream => (value, stream)) (pure value) where
  eq _ _ := rfl
  sound _ h := h

theorem Refines.bind {second : α → Istream → β × Istream} {next : α → Reader UInt8 β}
    (h : Refines before between detailed read)
    (hnext : ∀ value, Refines between after (second value) (next value)) :
    Refines before after (fun stream => second (detailed stream).1 (detailed stream).2)
      (read >>= next) where
  eq stream hsound := by
    rw [bind_run, h.eq stream hsound]
    exact (hnext _).eq _ (h.sound stream hsound)
  sound stream hsound := (hnext _).sound _ (h.sound stream hsound)

theorem toSource_of_failbit {stream : Istream} (h : stream.failbit) :
    stream.toSource = ⟨[], true⟩ := by
  simp [toSource, h]

/-- A read is told by what it returns of the bytes that arrive. -/
theorem refines_arrive {size : Nat} {value : DataChunk → α}
    (hfailed : ∀ stream : Istream, stream.failbit →
      (detailed stream).1 = value [] ∧ (detailed stream).2.failbit)
    (hle : ∀ {stream source}, Related stream source → size ≤ stream.remaining.length →
      detailed stream = (value (stream.remaining.take size),
        { stream with remaining := stream.remaining.drop size }))
    (hlt : ∀ {stream source}, Related stream source → stream.remaining.length < size →
      (detailed stream).1 = value stream.remaining ∧ (detailed stream).2.failbit) :
    Refines seen seen detailed (arrive size >>= fun bytes => pure (value bytes)) where
  eq := by
    rintro stream (hfail | ⟨hrel, -⟩)
    · obtain ⟨hvalue, hnext⟩ := hfailed stream hfail
      rw [toSource_of_failbit hfail, toSource_of_failbit hnext, hvalue]
      rfl
    · have hsource : stream.toSource = ⟨stream.remaining, false⟩ := by
        simp [toSource, hrel.failbit]
      rw [hsource]
      rcases Nat.lt_or_ge stream.remaining.length size with hsize | hsize
      · obtain ⟨hvalue, hnext⟩ := hlt hrel hsize
        rw [toSource_of_failbit hnext, hvalue]
        simp [-bind_pure_comp, bind_run, pure_run, arrive, hsize, take_of_length_le hsize.le,
          drop_of_length_le hsize.le]
      · rw [hle hrel hsize]
        simp [-bind_pure_comp, bind_run, pure_run, arrive, toSource, hrel.failbit, not_lt.mpr hsize]
  sound := by
    rintro stream (hfail | ⟨hrel, heof⟩)
    · exact .inl (hfailed stream hfail).2
    · rcases Nat.lt_or_ge stream.remaining.length size with hsize | hsize
      · exact .inl (hlt hrel hsize).2
      · rw [hle hrel hsize]
        exact .inr ⟨hrel.drop size, heof⟩

end

variable {seen : Bool}

theorem read_of_failbit (size : Nat) {stream : Istream} (h : stream.failbit) :
    read size stream = ([], { stream with failbit := true }) := by
  simp [read, h]

theorem refines_readBytes (size : Nat) :
    Refines seen seen (readBytes size) (IstreamReader.readBytes size) := by
  refine refines_arrive (fun stream hfail => ?_) (fun hrel hsize => ?_) fun hrel hsize =>
    hrel.readBytes_of_lt hsize
  · rw [readBytes, read_of_failbit size hfail]
    split_ifs with hpos
    · exact ⟨rfl, rfl⟩
    · obtain rfl : size = 0 := Nat.eq_zero_of_not_pos hpos
      exact ⟨rfl, hfail⟩
  · rw [hrel.readBytes_of_le hsize, length_take_of_le hsize, Nat.sub_self, replicate_zero,
      append_nil]

theorem refines_readByte : Refines seen seen readByte IstreamReader.readByte := by
  refine refines_arrive (fun stream hfail => ?_) (fun {stream _} hrel hsize => ?_)
    fun hrel hsize => ?_
  · simp [readByte, get, hfail]
  · obtain ⟨byte, rest, hrem⟩ := exists_cons_of_length_pos hsize
    rw [(hrel.readByte_cons hrem).1, hrem]
    rfl
  · have hrem := eq_nil_of_length_eq_zero (Nat.lt_one_iff.mp hsize)
    obtain ⟨hvalue, hfail, -⟩ := hrel.readByte_nil hrem
    exact ⟨by rw [hvalue, hrem]; rfl, hfail⟩

theorem refines_readForward {size : Nat} (hpos : 0 < size) (unset : (size : Nat) → Bytes size) :
    Refines seen seen (readForward unset size)
      (IstreamReader.readForward (unset size) >>= fun array => pure array.val) := by
  have hvalue : ∀ {bytes : DataChunk}, bytes.length ≤ size →
      bytes ++ (unset size).val.drop bytes.length =
        (IstreamReader.overwrite (unset size) bytes).val := by
    intro bytes hbytes
    simp [IstreamReader.overwrite, take_of_length_le hbytes]
  change Refines seen seen _ (arrive size >>= fun bytes =>
    pure (IstreamReader.overwrite (unset size) bytes).val)
  refine refines_arrive (fun stream hfail => ?_) (fun hrel hsize => ?_) fun hrel hsize => ?_
  · rw [readForward, read_of_failbit size hfail]
    exact ⟨@hvalue [] (Nat.zero_le size), rfl⟩
  · rw [readForward, hrel.read_of_le hpos hsize, ← hvalue (length_take_le _ _)]
  · obtain ⟨hbytes, hfail⟩ := hrel.read_of_lt hsize
    rw [readForward, hbytes]
    exact ⟨hvalue hsize.le, hfail⟩

theorem joinBytes_append (place : Nat → Nat) (bytes : DataChunk) (byte : UInt8) (i out : Nat) :
    joinBytes place (bytes ++ [byte]) i out =
      joinBytes place bytes i out ||| byte.toNat <<< (8 * place (i + bytes.length)) := by
  induction bytes generalizing i out with
  | nil => rfl
  | cons first bytes ih =>
    rw [cons_append, joinBytes, ih, joinBytes, length_cons, Nat.add_right_comm, Nat.add_assoc]

/-- Each byte is above the bytes before it. -/
theorem joinBytes_littleEndian (bytes : DataChunk) : joinBytes id bytes 0 0 = toNat bytes := by
  induction bytes using reverseRecOn with
  | nil => rfl
  | append_singleton bytes byte ih =>
    have hlt : toNat bytes < 2 ^ (8 * bytes.length) := by
      rw [Nat.pow_mul]
      exact toNat_lt bytes
    rw [joinBytes_append, ih, SignMagnitude.toNat_append, toNat_cons, toNat_nil, Nat.zero_add, id,
      Nat.shiftLeft_eq, Nat.or_comm, Nat.mul_comm byte.toNat, ← Nat.two_pow_add_eq_or_of_lt hlt,
      Nat.pow_mul]
    ring

theorem toNat_replicate_append (count : Nat) (bytes : DataChunk) :
    toNat (replicate count (0 : UInt8) ++ bytes) = toNat bytes <<< (8 * count) := by
  induction count with
  | zero => rfl
  | succ count ih =>
    rw [replicate_succ, cons_append, toNat_cons, ih, Nat.mul_succ, Nat.shiftLeft_add,
      Nat.shiftLeft_eq _ 8, UInt8.toNat_zero]
    ring

/-- Each byte is below the bytes before it, which are above the bytes to come. -/
theorem joinBytes_bigEndian {width : Nat} {bytes : DataChunk} (h : bytes.length ≤ width) :
    joinBytes (fun i => width - (i + 1)) bytes 0 0 =
      toNat (bytes ++ replicate (width - bytes.length) 0).reverse := by
  rw [reverse_append, reverse_replicate, toNat_replicate_append]
  induction bytes using reverseRecOn with
  | nil => rw [joinBytes, reverse_nil, toNat_nil, Nat.zero_shiftLeft]
  | append_singleton bytes byte ih =>
    rw [length_append, length_singleton] at h ⊢
    have hplace : 8 * (width - bytes.length) = 8 + 8 * (width - (bytes.length + 1)) := by omega
    have hbyte : byte.toNat < 2 ^ 8 := byte.toNat_lt
    rw [joinBytes_append, ih (Nat.le_of_succ_le h), Nat.zero_add, hplace, Nat.shiftLeft_add,
      ← Nat.shiftLeft_or_distrib, Nat.shiftLeft_eq _ 8, Nat.mul_comm,
      ← Nat.two_pow_add_eq_or_of_lt hbyte, reverse_append, reverse_singleton, singleton_append,
      toNat_cons, Nat.add_comm]

/-- An integer that is read byte by byte is made of the bytes that arrive. -/
theorem refines_joinStream {place : Nat → Nat} {width : Nat} {value : DataChunk → Nat}
    (hvalue : ∀ {bytes}, bytes.length ≤ width → joinBytes place bytes 0 0 = value bytes) :
    Refines seen seen (joinStream place width 0 0)
      (arrive width >>= fun bytes => pure (value bytes)) := by
  refine refines_arrive (fun stream hfail => ?_) (fun hrel hsize => ?_) fun hrel hsize => ?_
  · rw [joinStream_of_failbit place width 0 0 hfail]
    exact ⟨@hvalue [] (Nat.zero_le width), hfail⟩
  · rw [hrel.joinStream_of_le place hsize, hvalue (length_take_le _ _)]
  · rw [← hvalue hsize.le]
    exact hrel.joinStream_of_lt place hsize 0 0

theorem refines_readLittleEndian (width : Nat) :
    Refines seen seen (fromLittleEndianStreamUnsafe width) (IstreamReader.readLittleEndian width) :=
  refines_joinStream fun _ => joinBytes_littleEndian _

theorem refines_readBigEndian (width : Nat) :
    Refines seen seen (fromBigEndianStreamUnsafe width) (IstreamReader.readBigEndian width) :=
  refines_joinStream fun h => joinBytes_bigEndian h

/-- A byte, or the integer of the width that it names. -/
theorem refines_readVariableLittleEndian (unset : (size : Nat) → Bytes size) :
    Refines seen seen (reader unset).readVariableLittleEndian
      IstreamReader.readVariableLittleEndian := by
  have hnext : ∀ value : UInt8, Refines seen seen
      (fun stream =>
        if value = 0xff then fromLittleEndianStreamUnsafe 8 stream
        else if value = 0xfe then fromLittleEndianStreamUnsafe 4 stream
        else if value = 0xfd then fromLittleEndianStreamUnsafe 2 stream
        else (value.toNat, stream))
      (if value = 0xff then IstreamReader.readLittleEndian 8
        else if value = 0xfe then IstreamReader.readLittleEndian 4
        else if value = 0xfd then IstreamReader.readLittleEndian 2
        else pure value.toNat) := by
    intro value
    split_ifs
    · exact refines_readLittleEndian 8
    · exact refines_readLittleEndian 4
    · exact refines_readLittleEndian 2
    · exact refines_pure value.toNat
  exact refines_readByte.bind hnext

/-- A look at a stream whose end was not seen takes nothing and does not fail. -/
theorem Sound.peek_spec {stream : Istream} (h : stream.Sound false) :
    stream.peek.1 = stream.toSource.items.head? ∧ stream.peek.2.toSource = stream.toSource ∧
      stream.peek.2.Sound true ∧ (stream.peek.1.isSome → stream.peek.2 = stream) := by
  obtain hfail | ⟨hrel, heof⟩ := h
  · have hpeek : stream.peek = (none, { stream with failbit := true }) := by simp [peek, hfail]
    rw [hpeek]
    simp [toSource, hfail, Sound]
  · have heof : stream.eofbit = false := by simpa using heof
    cases hrem : stream.remaining with
    | nil =>
      have hpeek : stream.peek = (none, { stream with eofbit := true }) := by
        simp [peek, heof, hrel.failbit, hrem]
      rw [hpeek]
      have hseen : Sound true { stream with eofbit := true } :=
        .inr ⟨⟨hrel.failbit, rfl, rfl, fun _ => hrem⟩, fun _ => rfl⟩
      exact ⟨by simp [toSource, hrem], rfl, hseen, Bool.noConfusion⟩
    | cons byte rest =>
      have hpeek : stream.peek = (some byte, stream) := by simp [peek, heof, hrel.failbit, hrem]
      rw [hpeek]
      exact ⟨by simp [toSource, hrel.failbit, hrem], rfl, .inr ⟨hrel, fun _ => rfl⟩, fun _ => rfl⟩

theorem refines_peekByte : Refines false true peekByte IstreamReader.peekByte where
  eq stream hsound := by
    obtain ⟨hnext, hsource, -, -⟩ := hsound.peek_spec
    simp only [IstreamReader.peekByte, peekByte, hnext, hsource]
    cases hfail : stream.failbit <;> simp [toSource, hfail, headD_eq_head?_getD]
  sound stream hsound := hsound.peek_spec.2.2.1

theorem refines_empty : Refines false true empty IstreamReader.isExhausted where
  eq stream hsound := by
    obtain ⟨hnext, hsource, -, -⟩ := hsound.peek_spec
    simp only [IstreamReader.isExhausted, empty, hnext, hsource]
    cases hfail : stream.failbit <;> cases hrem : stream.remaining <;> simp [toSource, hfail, hrem]
  sound stream hsound := hsound.peek_spec.2.2.1

theorem refines_isExhausted : Refines false true isExhausted IstreamReader.isExhausted where
  eq stream hsound := by
    unfold isExhausted
    split_ifs with hfail
    · rw [toSource_of_failbit hfail]
      rfl
    · exact refines_empty.eq stream hsound
  sound stream hsound := by
    unfold isExhausted
    split_ifs
    · rename_i hfail
      exact .inl hfail
    · exact refines_empty.sound stream hsound

/-- Every look but the last one is at a character, so the end is seen at most once. -/
theorem refines_readStringLoop (count : Nat) (terminated : Bool) :
    Refines false true (readStringLoop count terminated)
      (IstreamReader.readStringLoop count terminated) := by
  induction count generalizing terminated with
  | zero => exact ⟨fun _ _ => rfl, fun _ h => h.imp_right fun h => ⟨h.1, fun _ => rfl⟩⟩
  | succ count ih =>
    have hrest : ∀ character : UInt8, Refines false true
        (fun stream =>
          let rest := readStringLoop count (terminated || character == 0) stream
          (if terminated || character == 0 then rest.1 else character :: rest.1, rest.2))
        (do
          let out ← IstreamReader.readStringLoop count (terminated || character == 0)
          return if terminated || character == 0 then out else character :: out) := by
      intro character
      refine ⟨fun stream hsound => ?_, (ih _).sound⟩
      rw [bind_run, (ih _).eq stream hsound]
      rfl
    have hcharacter := refines_readByte.bind hrest
    constructor
    · intro stream hsound
      rw [IstreamReader.readStringLoop, readStringLoop, bind_run, refines_empty.eq stream hsound]
      cases hnext : stream.peek.1 with
      | none => simp [empty, hnext, pure_run]
      | some byte =>
        have hsame : stream.peek.2 = stream := hsound.peek_spec.2.2.2 (by rw [hnext]; rfl)
        simpa [empty, hnext, hsame] using hcharacter.eq stream hsound
    · intro stream hsound
      rw [readStringLoop]
      cases hnext : stream.peek.1 with
      | none => simpa [empty, hnext] using hsound.peek_spec.2.2.1
      | some byte =>
        have hsame : stream.peek.2 = stream := hsound.peek_spec.2.2.2 (by rw [hnext]; rfl)
        simpa [empty, hnext, hsame] using hcharacter.sound stream hsound

/-- Every number is a size. -/
theorem refines_readString (unset : (size : Nat) → Bytes size) :
    Refines false true (reader unset).readSizedString IstreamReader.readString := by
  have hsize : (reader unset).readSizeLittleEndian = (reader unset).readVariableLittleEndian :=
    funext (readSize_eq _ (streamInteger_le places_littleEndian))
  have hread := (refines_readVariableLittleEndian unset).bind
    fun size => refines_readStringLoop size false
  rwa [← hsize] at hread

end BitprimCore.Istream
