import BitprimCore.Math.KeyTable
import BitprimCore.Wallet.HdKeyText

/-!
# Derivation of extended keys

The public key of a child is derived from the public key alone, for indexes that are not hardened.
It is the public key of the child that is derived from the secret, for as long as every step of the
path succeeds. A step that fails leaves an invalid private key, and the public key of that is valid:
it is written and read again, and its prefix is the one it was written with.
-/

namespace BitprimCore

open Bytes HdPrivate List

theorem Bytes.toBigEndian_injective : Function.Injective toBigEndian := by
  intro a b h
  have hval := congrArg fromBigEndian h
  rwa [fromBigEndian_toBigEndian, fromBigEndian_toBigEndian] at hval

namespace HdKey

/-- The fields of a key that was built are those it was built of. -/
theorem build_spec (hashes : Hashes) (lineage : HdLineage) (version : UInt32) (chain : Bytes 32)
    (point : Bytes 33) (prefixes : UInt64) :
    let key := build hashes lineage version chain point
    key.version = version ∧ key.lineage prefixes = { lineage with prefixes := prefixes } ∧
      key.chain = chain ∧ key.point = point := by
  intro key
  have hwidths : (lineage.fields version ++ [chain.val, point.val]).map length =
      [4, 1, 4, 4, 32, 33] := by
    simp [HdLineage.fields, chain.2, point.2, (toBigEndian _).2]
  have hfields : FixedLayout.cut [4, 1, 4, 4, 32, 33, 4] key.val = _ :=
    Hashes.cut_buildCheckedArray _ hwidths
  rw [cut_eq key prefixes] at hfields
  simp only [HdLineage.fields, cons_append, nil_append, List.cons.injEq,
    Subtype.val_inj, toBigEndian_injective.eq_iff] at hfields
  obtain ⟨hver, ⟨hdepth, -⟩, hparent, hchild, hchain, hpoint, -⟩ := hfields
  exact ⟨hver, HdLineage.ext rfl hdepth hparent hchild, hchain, hpoint⟩

end HdKey

namespace HdPrivate

variable {curve : KeyArithmetic}

/-- The public key of a private one is valid, also if the private one is not. -/
theorem toPublic_eq (hashes : Hashes) (key : HdPrivate curve.toEllipticCurve) :
    key.toPublic hashes =
      ⟨true, key.chain,
        { key.lineage with prefixes := (HdPublic.toPrefix key.lineage.prefixes).toUInt64 },
        key.point⟩ := by
  obtain ⟨hver, hlineage, hchain, hpoint⟩ := HdKey.build_spec hashes key.lineage
    (HdPublic.toPrefix key.lineage.prefixes) key.chain key.point
    (HdPublic.toPrefix key.lineage.prefixes).toUInt64
  rw [toPublic, HdPublic.fromKeyVersion, HdPublic.toHdKey, if_neg (not_not.mpr hver), hlineage,
    hchain, hpoint]

theorem toPublic_valid (hashes : Hashes) (key : HdPrivate curve.toEllipticCurve) :
    (key.toPublic hashes).valid := by
  rw [toPublic_eq]

end HdPrivate

/-- Addition to a secret and to its point agree and fail together, and a point that is null is not
on the curve. -/
structure KeyArithmetic.AddsTogether (curve : KeyArithmetic) : Prop where
  add : ∀ secret point tweak child, curve.secretToPublic secret = some point →
    curve.addSecret secret tweak = some child → curve.addPoint point tweak = curve.secretToPublic child
  isSome_iff : ∀ secret point tweak, curve.secretToPublic secret = some point →
    ((curve.addPoint point tweak).isSome ↔ (curve.addSecret secret tweak).isSome)
  null : ∀ tweak, curve.addPoint nullCompressedPoint tweak = none

namespace HdPrivate

variable {curve : KeyArithmetic} (hashes : KeyHashes)

/-- The child exists: the depth can be counted up and the addition succeeds. -/
def Derives (key : HdPrivate curve.toEllipticCurve) (index : UInt32) : Prop :=
  key.lineage.depth ≠ 0xff ∧
    (curve.addSecret key.secret (hdIntermediate hashes key.point.val index key.chain).1).isSome = true

/-- Every child along a path exists. -/
def DerivesAlong : HdPrivate curve.toEllipticCurve → List UInt32 → Prop
  | _, [] => True
  | key, index :: path => key.Derives hashes index ∧
      DerivesAlong (key.derivePrivate hashes index) path

variable {hashes} {key : HdPrivate curve.toEllipticCurve} {index : UInt32}

theorem derivePrivate_of_derives (hcurve : curve.AddsTogether) (hvalid : key.valid)
    (hidx : index < hdFirstHardenedKey) (h : key.Derives hashes index) :
    (key.derivePrivate hashes index).valid ∧
      (key.derivePrivate hashes index).toPublic hashes.toHashes =
        (key.toPublic hashes.toHashes).derivePublic hashes curve index := by
  obtain ⟨hdepth, hadd⟩ := h
  set intermediate := hdIntermediate hashes key.point.val index key.chain with hintermediate
  obtain ⟨child, hchild⟩ := Option.isSome_iff_exists.mp hadd
  have hpoint := key.secretToPublic_of_valid hvalid
  have hsum : curve.addPoint key.point intermediate.1 = curve.secretToPublic child :=
    hcurve.add key.secret key.point intermediate.1 child hpoint hchild
  have hisSome : (curve.secretToPublic child).isSome := by
    rw [← hsum]
    exact (hcurve.isSome_iff _ _ _ hpoint).mpr hadd
  obtain ⟨combined, hcombined⟩ := Option.isSome_iff_exists.mp hisSome
  rw [hcombined] at hsum
  have hderive : key.derivePrivate hashes index = ofSecret curve child intermediate.2
      (key.lineage.child (key.fingerprint hashes.toHashes) index) := by
    simp only [derivePrivate, if_neg (UInt32.not_le.mpr hidx), ← hintermediate, hchild,
      if_neg hdepth]
  have hpublic : (key.derivePrivate hashes index).toHdPublic = ⟨true, intermediate.2,
      key.lineage.child (key.fingerprint hashes.toHashes) index, combined⟩ := by
    rw [hderive]
    change HdPublic.fromSecret curve.toEllipticCurve child _ _ = _
    rw [HdPublic.fromSecret, hcombined]
  refine ⟨by rw [hpublic], ?_⟩
  rw [toPublic_eq, toPublic_eq, hpublic]
  simp only [HdPublic.derivePublic, if_neg (UInt32.not_le.mpr hidx), ← hintermediate, hsum,
    if_neg hdepth]
  rfl

/-- Where a private child fails the public one is invalid. -/
theorem derivePublic_of_not_derives (hcurve : curve.AddsTogether) (hvalid : key.valid)
    (hidx : index < hdFirstHardenedKey) (h : ¬ key.Derives hashes index) :
    (key.toPublic hashes.toHashes).derivePublic hashes curve index = {} := by
  set intermediate := hdIntermediate hashes key.point.val index key.chain with hintermediate
  rw [toPublic_eq]
  simp only [HdPublic.derivePublic, if_neg (UInt32.not_le.mpr hidx), ← hintermediate]
  cases hsum : curve.addPoint key.point intermediate.1 with
  | none => rfl
  | some combined =>
    have hadd : (curve.addSecret key.secret intermediate.1).isSome := by
      rw [← hcurve.isSome_iff _ _ _ (key.secretToPublic_of_valid hvalid), hsum]
      rfl
    by_cases hdepth : key.lineage.depth = 0xff
    · exact if_pos hdepth
    · exact absurd ⟨hdepth, hadd⟩ h

/-- Nothing is derived from a key that is invalid. -/
theorem foldl_derivePublic_invalid (hcurve : curve.AddsTogether) (path : List UInt32) :
    path.foldl (HdPublic.derivePublic hashes curve) {} = {} := by
  induction path with
  | nil => rfl
  | cons index path ih =>
    have hstep : HdPublic.derivePublic hashes curve {} index = {} := by
      have hnull : ∀ tweak, curve.addPoint (HdPublic.point {}) tweak = none := hcurve.null
      by_cases hidx : index ≥ hdFirstHardenedKey
      · exact if_pos hidx
      · rw [HdPublic.derivePublic, if_neg hidx]
        simp only [hnull]
    rw [foldl_cons, hstep, ih]

theorem toPublic_foldl_iff (hcurve : curve.AddsTogether) {path : List UInt32}
    (hpath : ∀ index ∈ path, index < hdFirstHardenedKey) {key : HdPrivate curve.toEllipticCurve}
    (hvalid : key.valid) :
    (path.foldl (derivePrivate hashes) key).toPublic hashes.toHashes =
        path.foldl (HdPublic.derivePublic hashes curve) (key.toPublic hashes.toHashes) ↔
      key.DerivesAlong hashes path := by
  induction path generalizing key with
  | nil => exact iff_of_true rfl trivial
  | cons index path ih =>
    rw [forall_mem_cons] at hpath
    rw [foldl_cons, foldl_cons]
    by_cases hstep : key.Derives hashes index
    · obtain ⟨hchild, hpublic⟩ := derivePrivate_of_derives hcurve hvalid hpath.1 hstep
      rw [← hpublic, ih hpath.2 hchild]
      exact (and_iff_right hstep).symm
    · -- the public side is invalid from here on, and the private side ends in a valid key
      rw [derivePublic_of_not_derives hcurve hvalid hpath.1 hstep, foldl_derivePublic_invalid hcurve]
      constructor
      · intro hequal
        have hfalse := congrArg HdPublic.valid hequal
        rw [toPublic_valid] at hfalse
        cases hfalse
      · exact fun halong => absurd halong.1 hstep

end HdPrivate

/-- Public and private derivation agree, at an index and along a path of indexes that are not
hardened, if and only if every child exists. -/
theorem hd_derivation_iff (hashes : KeyHashes) {curve : KeyArithmetic} (hcurve : curve.AddsTogether)
    {key : HdPrivate curve.toEllipticCurve} (hvalid : key.valid = true) :
    (∀ index < hdFirstHardenedKey,
      key.derivePublic hashes index =
          (key.toPublic hashes.toHashes).derivePublic hashes curve index ↔
        key.Derives hashes index) ∧
    ∀ path : List UInt32, (∀ index ∈ path, index < hdFirstHardenedKey) →
      ((path.foldl (derivePrivate hashes) key).toPublic hashes.toHashes =
          path.foldl (HdPublic.derivePublic hashes curve) (key.toPublic hashes.toHashes) ↔
        key.DerivesAlong hashes path) := by
  refine ⟨fun index hindex => ?_, fun path hpath => toPublic_foldl_iff hcurve hpath hvalid⟩
  have hpath : ∀ i ∈ [index], i < hdFirstHardenedKey := by simpa using hindex
  have hone : key.DerivesAlong hashes [index] ↔ key.Derives hashes index := and_iff_left trivial
  rw [← hone]
  exact toPublic_foldl_iff hcurve hpath hvalid

theorem KeyTable.addsTogether (table : KeyTable)
    (hnull : table.publicToSecret nullCompressedPoint = none) : table.curve.AddsTogether where
  add _ _ _ _ hpoint hsum := by
    refine (combinePoint_eq hpoint).trans ?_
    rw [show table.combine _ _ _ = _ from hsum]
    rfl
  isSome_iff secret point tweak hpoint := by
    change (table.combinePoint _ point tweak).isSome ↔ (table.combine _ secret tweak).isSome
    rw [combinePoint_eq hpoint]
    cases hsum : table.combine (· + ·) secret tweak with
    | none => rfl
    | some sum => exact iff_of_true (secretToPublic_isSome_of_combine hsum) rfl
  null tweak := by
    change table.combinePoint _ nullCompressedPoint tweak = none
    rw [combinePoint, hnull]
    rfl

/-! ### A key of the curve

The secret one, whose point is the generator, with no chain code, and its first child. -/

namespace HdSample

def one : EcSecret := ofNat 32 1

def generator : EcCompressed :=
  ofNat 33 0x0279be667ef9dcbbac55a06295ce870b07029bfcdb2dce28d959f2815b16f81798

/-- The halves of the hash that the first child is made from. -/
def intermediate : Bytes 64 :=
  (ofNat 32 0x23f2740ea906f427c10cd03910c510f0c468e703f042a8d06c5b7721f2c15b33).splice
    (ofNat 32 0x8aedbb4c67c846b9ed458f1fb89b9c7c62d695f210ab89c9c3f99989302a85c7)

def table : KeyTable where
  keys :=
    [(one, generator),
      (ofNat 32 0x23f2740ea906f427c10cd03910c510f0c468e703f042a8d06c5b7721f2c15b34,
        ofNat 33 0x036c0047046bdc1701884d3fde89878a1c04f9730a1c0a6bcaa6f4654fed3987a9)]
  single := by decide

def arithmetic : KeyArithmetic := table.curve

/-- The values of the hash functions that the example needs. -/
def hashes : KeyHashes where
  toHashes :=
    { Hashes.ofSha256 with
      ripemd160Hash := fun _ => ofNat 20 0x751e76e8199196d454941c45d1b3a323f1433bd6 }
  hmacSha512Hash _ _ := intermediate
  scrypt size _ _ _ _ _ := ⟨List.replicate size 0, List.length_replicate⟩

/-- A key at some depth. -/
def key (depth : UInt8) : HdPrivate arithmetic.toEllipticCurve :=
  ofSecret arithmetic one nullHash { prefixes := mainnet, depth := depth }

theorem addsTogether : arithmetic.AddsTogether := table.addsTogether (by decide)

end HdSample

open HdSample

theorem hd_derivation_iff_first_child :
    (key 0).derivePublic hashes 0 =
      ((key 0).toPublic hashes.toHashes).derivePublic hashes arithmetic 0 :=
  ((hd_derivation_iff hashes addsTogether (by decide)).1 0 (by decide)).mpr ⟨by decide, by decide⟩

/-- Where the depth cannot be counted up only one of the two is invalid. -/
theorem failed_child_valid :
    ((key 0xff).derivePublic hashes 0).valid = true ∧
      (((key 0xff).toPublic hashes.toHashes).derivePublic hashes arithmetic 0).valid = false := by
  refine ⟨toPublic_valid _ _, ?_⟩
  rw [derivePublic_of_not_derives addsTogether (by decide) (by decide)]
  exact fun h => h.1 (by decide)

end BitprimCore
