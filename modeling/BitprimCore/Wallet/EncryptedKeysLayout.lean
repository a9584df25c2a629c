import BitprimCore.Wallet.EncryptedKeys

/-!
# The layout of encrypted keys

What a parser finds in an array is what the array was built of.
-/

namespace BitprimCore

open List

variable {hashes : Hashes} (context flags : UInt8) (salt : EkSalt) (entropy : EkEntropy)

/-- The array of a private key is parsed to its parts. -/
theorem ParseEncryptedPrivate.parse_build (data1 : Bytes 8) (data2 : Bytes 16)
    (h : [magic.val, [context], [flags], salt.val, entropy.val, data1.val,
      data2.val].flatten.length + 4 = 43) :
    parse hashes (hashes.buildCheckedArray [magic.val, [context], [flags], salt.val, entropy.val,
        data1.val, data2.val] h) =
      ⟨⟨true, context, flags, salt, entropy⟩, data1, data2⟩ := by
  set key : EncryptedPrivate := hashes.buildCheckedArray _ h
  have hwidths : [magic.val, [context], [flags], salt.val, entropy.val, data1.val,
      data2.val].map length = [1, 1, 1, 4, 8, 8, 16] := by
    simp [magic.2, salt.2, entropy.2, data1.2, data2.2]
  have hfields : FixedLayout.cut [1, 1, 1, 4, 8, 8, 16, 4] key.val = _ :=
    Hashes.cut_buildCheckedArray h hwidths
  have hbyte (index : Nat) (hidx : index < 43) := Bytes.take_one_drop key hidx
  simp only [FixedLayout.cut, drop_drop, Nat.reduceAdd, hbyte 1 (by decide),
    hbyte 2 (by decide), cons_append, nil_append, List.cons.injEq, and_true] at hfields
  obtain ⟨hmagic, hcontext, hflags, hsalt, hent, hdata1, hdata2, -⟩ := hfields
  have hmagic : key.slice 0 1 = magic := Subtype.ext hmagic
  have hsalt : key.slice 3 7 = salt := Subtype.ext hsalt
  have hent : key.slice 7 15 = entropy := Subtype.ext hent
  have hdata1 : key.slice 15 23 = data1 := Subtype.ext hdata1
  have hdata2 : key.slice 23 39 = data2 := Subtype.ext hdata2
  have hsum : hashes.verifyChecksum key.val := Hashes.verifyChecksum_buildCheckedArray h
  rw [parse, hmagic, hsum, beq_self_eq_true, hcontext, hflags, hsalt, hent, hdata1, hdata2,
    Bool.and_self]

/-- The array of a public key is parsed to its parts. -/
theorem ParseEncryptedPublic.parse_build (sign : UInt8) (data : Bytes 32)
    (h : [magic.val, [context], [flags], salt.val, entropy.val, [sign],
      data.val].flatten.length + 4 = 55) :
    parse hashes (hashes.buildCheckedArray [magic.val, [context], [flags], salt.val, entropy.val,
        [sign], data.val] h) =
      ⟨⟨true, context, flags, salt, entropy⟩, sign, data⟩ := by
  set key : EncryptedPublic := hashes.buildCheckedArray _ h
  have hwidths : [magic.val, [context], [flags], salt.val, entropy.val, [sign],
      data.val].map length = [4, 1, 1, 4, 8, 1, 32] := by
    simp [magic.2, salt.2, entropy.2, data.2]
  have hfields : FixedLayout.cut [4, 1, 1, 4, 8, 1, 32, 4] key.val = _ :=
    Hashes.cut_buildCheckedArray h hwidths
  have hbyte (index : Nat) (hidx : index < 55) := Bytes.take_one_drop key hidx
  simp only [FixedLayout.cut, drop_drop, Nat.reduceAdd, hbyte 4 (by decide), hbyte 5 (by decide),
    hbyte 18 (by decide), cons_append, nil_append, List.cons.injEq, and_true] at hfields
  obtain ⟨hmagic, hcontext, hflags, hsalt, hent, hsign, hdata, -⟩ := hfields
  have hmagic : key.slice 0 4 = magic := Subtype.ext hmagic
  have hsalt : key.slice 6 10 = salt := Subtype.ext hsalt
  have hent : key.slice 10 18 = entropy := Subtype.ext hent
  have hdata : key.slice 19 51 = data := Subtype.ext hdata
  have hsum : hashes.verifyChecksum key.val := Hashes.verifyChecksum_buildCheckedArray h
  rw [parse, hmagic, hsum, beq_self_eq_true, hcontext, hflags, hsalt, hent, hsign, hdata,
    Bool.and_self]

/-- The array of a token is parsed to its parts. -/
theorem ParseEncryptedToken.parse_build {context : UInt8} (hcontext : verifyContext context)
    (entropy : EkEntropy) (sign : UInt8) (data : Bytes 32)
    (h : [magic.val, [context], entropy.val, [sign], data.val].flatten.length + 4 = 53) :
    parse hashes (hashes.buildCheckedArray [magic.val, [context], entropy.val, [sign], data.val] h) =
      ⟨true, context, entropy, sign, data⟩ := by
  set token : EncryptedToken := hashes.buildCheckedArray _ h
  have hwidths : [magic.val, [context], entropy.val, [sign], data.val].map length =
      [7, 1, 8, 1, 32] := by
    simp [magic.2, entropy.2, data.2]
  have hfields : FixedLayout.cut [7, 1, 8, 1, 32, 4] token.val = _ :=
    Hashes.cut_buildCheckedArray h hwidths
  have hbyte (index : Nat) (hidx : index < 53) := Bytes.take_one_drop token hidx
  simp only [FixedLayout.cut, drop_drop, Nat.reduceAdd, hbyte 7 (by decide),
    hbyte 16 (by decide), cons_append, nil_append, List.cons.injEq, and_true] at hfields
  obtain ⟨hmagic, hcontext', hent, hsign, hdata, -⟩ := hfields
  have hmagic : token.slice 0 7 = magic := Subtype.ext hmagic
  have hent : token.slice 8 16 = entropy := Subtype.ext hent
  have hdata : token.slice 17 49 = data := Subtype.ext hdata
  have hsum : hashes.verifyChecksum token.val := Hashes.verifyChecksum_buildCheckedArray h
  rw [parse, hmagic, hsum, beq_self_eq_true, hcontext', hcontext, hent, hsign, hdata,
    Bool.and_self, Bool.and_self]

/-- A point is its first byte and its hash. -/
theorem toArray_splice_pointHash (point : EcCompressed) :
    (Bytes.toArray (point.val.getD 0 0)).splice (pointHash point) = point := by
  have hfirst : (Bytes.slice 0 1 point).val = [point.val.getD 0 0] :=
    Bytes.take_one_drop point (by decide)
  have hpoint := Bytes.slice_append_slice 1 point (by decide)
  rw [hfirst] at hpoint
  exact Subtype.ext hpoint

/-- The token that `create_token` writes is parsed to what it was made of. -/
theorem ParseEncryptedToken.parse_build_point (lotSequence : Bool) (entropy : EkEntropy)
    (point : EcCompressed)
    (h : [(prefixFactory lotSequence).val, entropy.val, point.val].flatten.length + 4 = 53) :
    parse hashes (hashes.buildCheckedArray
        [(prefixFactory lotSequence).val, entropy.val, point.val] h) =
      ⟨true, if lotSequence then lotContext else defaultContext, entropy, point.val.getD 0 0,
        pointHash point⟩ := by
  have hcontext : verifyContext (if lotSequence then lotContext else defaultContext) := by
    cases lotSequence <;> rfl
  have hpoint : [point.val.getD 0 0] ++ (pointHash point).val = point.val :=
    congrArg Subtype.val (toArray_splice_pointHash point)
  rw [← parse_build hcontext entropy (point.val.getD 0 0) (pointHash point) (by
    simp [magic.2, entropy.2, (pointHash point).2])]
  congr 1
  apply Hashes.buildCheckedArray_congr
  simp only [flatten_cons, flatten_nil, append_nil, hpoint]
  exact append_assoc _ _ _

end BitprimCore
