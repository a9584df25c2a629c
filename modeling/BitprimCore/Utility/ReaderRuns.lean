import BitprimCore.Utility.ReaderSimulation

/-!
# Runs with the two readers

A caller sees the values that a reader returns, and its validity and exhaustion after each call. To
a sequence of calls the two readers are the same exactly if each call meets its condition, up to the
first that leaves them invalid. A decoder, which chooses its calls by what it sees, accepts with
both readers or with none if its calls meet their conditions, and reads the same.
-/

namespace BitprimCore.Readers

open Deserializer Interchange

section

variable {stream : Istream} {source : Deserializer} {unset : (size : Nat) → Bytes size}

theorem Agree.report_eq (h : Agree stream source) :
    (Istream.reader unset).machine.report stream = reader.machine.report source := by
  obtain hrel | ⟨hfail, hinvalid⟩ := h
  · have hvalid : (!stream.failbit) = source.valid := by rw [hrel.failbit, hrel.valid]; rfl
    have hexhausted : stream.isExhausted.1 = (reader.isExhausted source).1 := by
      rw [hrel.isExhausted_eq, hrel.deserializer_isExhausted]
    exact congrArg₂ Report.mk hvalid hexhausted
  · have hexhausted : stream.isExhausted.1 := by rw [Istream.isExhausted, if_pos hfail]
    have hexhausted' : (reader.isExhausted source).1 := by
      simp [reader, hinvalid]
    exact congrArg₂ Report.mk (by simp [Istream.reader, reader, hfail, hinvalid])
      (hexhausted.trans hexhausted'.symm)

theorem lockstep (unset : (size : Nat) → Bytes size) :
    Lockstep Report.valid (Istream.reader unset).machine reader.machine Related
      (Satisfied unset) where
  same_iff call stream source hrel := by
    obtain ⟨hagree, hval⟩ | ⟨hvalid, hcond⟩ := hrel.outcome_call unset call
    · rw [← hval]
      exact and_iff_left hagree.report_eq
    · refine iff_of_false ?_ hcond
      rintro ⟨-, hreport⟩
      exact hvalid (congrArg Report.valid hreport)
  keeps call stream source hrel hcond halive := by
    obtain ⟨hagree, -⟩ | ⟨-, hnot⟩ := hrel.outcome_call unset call
    · obtain hnext | ⟨hfail, -⟩ := hagree
      · exact hnext
      · change (!((Istream.reader unset).call call stream).2.failbit) = true at halive
        rw [hfail] at halive
        exact Bool.noConfusion halive
    · exact absurd hcond hnot

end

/-- A property of the state that all functions of a reader keep. -/
structure Keeps {σ : Type} (reader : ByteReader σ) (P : σ → Prop) : Prop where
  isExhausted : ∀ s, P s → P (reader.isExhausted s).2
  invalidate : ∀ s, P s → P (reader.invalidate s)
  readForward : ∀ size s, P s → P (reader.readForward size s).2
  readBigEndian : ∀ width s, P s → P (reader.readBigEndian width s).2
  readLittleEndian : ∀ width s, P s → P (reader.readLittleEndian width s).2
  peekByte : ∀ s, P s → P (reader.peekByte s).2
  readByte : ∀ s, P s → P (reader.readByte s).2
  readAllBytes : ∀ s, P s → P (reader.readAllBytes s).2
  readBytes : ∀ size s, P s → P (reader.readBytes size s).2
  readString : ∀ size s, P s → P (reader.readString size s).2
  skip : ∀ size s, P s → P (reader.skip size s)

section

variable {σ : Type} {reader : ByteReader σ} {P : σ → Prop}

theorem Keeps.readVariable (h : Keeps reader P) {readInteger : Nat → σ → Nat × σ}
    (hinteger : ∀ width s, P s → P (readInteger width s).2) {s : σ} (hs : P s) :
    P (reader.readVariable readInteger s).2 := by
  have hbyte := h.readByte s hs
  rw [readVariable_eq]
  split_ifs
  · exact hbyte
  · exact hinteger _ _ hbyte

theorem Keeps.readSize (h : Keeps reader P) {readNumber : σ → Nat × σ} {s : σ}
    (hnum : P (readNumber s).2) : P (reader.readSize readNumber s).2 := by
  rw [ByteReader.readSize]
  split_ifs
  · exact hnum
  · exact h.invalidate _ hnum

theorem Keeps.call (h : Keeps reader P) (call : Call) {s : σ} (hs : P s) :
    P (reader.call call s).2 := by
  have hbig : P (reader.readVariableBigEndian s).2 := h.readVariable h.readBigEndian hs
  have hlittle : P (reader.readVariableLittleEndian s).2 := h.readVariable h.readLittleEndian hs
  cases call with
  | isExhausted => exact h.isExhausted s hs
  | invalidate => exact h.invalidate s hs
  | readHash type => exact h.readForward _ s hs
  | readBigEndian width => exact h.readBigEndian _ s hs
  | readVariableBigEndian => exact hbig
  | readSizeBigEndian => exact h.readSize hbig
  | readErrorCode => exact h.readLittleEndian 4 s hs
  | readLittleEndian width => exact h.readLittleEndian _ s hs
  | readVariableLittleEndian => exact hlittle
  | readSizeLittleEndian => exact h.readSize hlittle
  | peekByte => exact h.peekByte s hs
  | readByte => exact h.readByte s hs
  | readAllBytes => exact h.readAllBytes s hs
  | readBytes size => exact h.readBytes size s hs
  | readSizedString => exact h.readString _ _ (h.readSize hlittle)
  | readString size => exact h.readString size s hs
  | skip size => exact h.skip size s hs

end

theorem failbit_readBytes (size : Nat) {stream : Istream} (h : stream.failbit) :
    (stream.readBytes size).2.failbit := by
  rw [Istream.readBytes]
  split_ifs
  · simp [Istream.read, h]
  · exact h

/-- A failed stream stays failed. -/
theorem keeps_failbit (unset : (size : Nat) → Bytes size) :
    Keeps (Istream.reader unset) fun stream => stream.failbit = true where
  isExhausted stream h := by
    change stream.isExhausted.2.failbit = true
    rwa [Istream.isExhausted, if_pos h]
  invalidate _ _ := rfl
  readForward size stream h := by simp [Istream.reader, Istream.readForward, Istream.read, h]
  readBigEndian width stream h := by
    change (joinStream _ width 0 0 stream).2.failbit = true
    rwa [joinStream_of_failbit _ _ _ _ h]
  readLittleEndian width stream h := by
    change (joinStream _ width 0 0 stream).2.failbit = true
    rwa [joinStream_of_failbit _ _ _ _ h]
  peekByte stream h := by simp [Istream.reader, Istream.peekByte, Istream.peek, h]
  readByte stream h := by simp [Istream.reader, Istream.readByte, Istream.get, h]
  readAllBytes stream h := by
    change (Istream.readAllLoop stream.remaining.length stream).2.failbit = true
    cases stream.remaining.length <;> simp [Istream.readAllLoop, Istream.isExhausted, h]
  readBytes size _ h := failbit_readBytes size h
  readString size _ h := (readStringLoop_of_failbit size h).2
  skip size _ h := failbit_readBytes size h

/-- An invalid deserializer stays invalid. -/
theorem keeps_invalid : Keeps reader fun source => source.valid = false where
  isExhausted _ h := h
  invalidate _ _ := rfl
  readForward _ _ h := (take_of_not_valid h _ _ _).2
  readBigEndian _ _ h := (take_of_not_valid h _ _ _).2
  readLittleEndian _ _ h := (take_of_not_valid h _ _ _).2
  peekByte source h := by
    change (source.require 1).valid = false
    rw [require]
    split_ifs
    · exact h
    · rfl
  readByte _ h := (take_of_not_valid h _ _ _).2
  readAllBytes _ h := (take_of_not_valid h _ _ _).2
  readBytes _ _ h := (take_of_not_valid h _ _ _).2
  readString _ _ h := (take_of_not_valid h _ _ _).2
  skip _ _ h := (take_of_not_valid h _ _ _).2

theorem sticky_istream (unset : (size : Nat) → Bytes size) :
    Sticky Report.valid (Istream.reader unset).machine := by
  intro call stream hstream
  have hfail : stream.failbit := by
    change (!stream.failbit) = false at hstream
    simpa using hstream
  change (!((Istream.reader unset).call call stream).2.failbit) = false
  rw [(keeps_failbit unset).call call hfail]
  rfl

theorem sticky_deserializer : Sticky Report.valid reader.machine :=
  fun call _ hsource => keeps_invalid.call call hsource

theorem related_start (bytes : DataChunk) : Related { remaining := bytes } { remaining := bytes }
    where
  failbit := rfl
  valid := rfl
  remaining := rfl
  eofbit heof := Bool.noConfusion heof

section

/-- Arrays on the stack that happen to hold ones. -/
def staleArrays (size : Nat) : Bytes size := ⟨List.replicate size 0xff, List.length_replicate⟩

end

end BitprimCore.Readers
