import BitprimCore.Chain.Activation

/-!
# Version majorities

The rules bip34, bip66 and bip65 and the required block version follow the number of past blocks
whose version is high enough. Versions are meant to be signed. The comparison converts a negative
version to a large unsigned number, so a block with the high bit set counts towards every majority.
-/

namespace BitprimCore.ChainState

open ChainState List RuleFork

variable {version : UInt32} (history : List UInt32)

/-- The number of past blocks whose version, as a signed number, is at least this. -/
def signedCount (version : UInt32) : Nat :=
  history.countP fun value => decide ((version.toNat : Int) ≤ value.toBitVec.toInt)

/-- The number of past blocks whose version has the high bit set. -/
def highBitCount : Nat := history.countP fun value => decide (2 ^ 31 ≤ value.toNat)

theorem toInt_eq (value : UInt32) :
    value.toBitVec.toInt =
      if value.toNat < 2 ^ 31 then (value.toNat : Int) else value.toNat - 2 ^ 32 := by
  rw [BitVec.toInt_eq_toNat_cond, UInt32.toNat_toBitVec]
  split_ifs <;> first | rfl | omega

/-- The comparison lets a version pass that is high enough, or that is negative. -/
theorem signExtend_ge_iff {value : UInt32} (hver : version.toNat < 2 ^ 31) :
    signExtend value ≥ version.toNat ↔
      (version.toNat : Int) ≤ value.toBitVec.toInt ∨ 2 ^ 31 ≤ value.toNat := by
  have hval := value.toNat_lt
  rw [toInt_eq, signExtend]
  split_ifs <;> omega

theorem countVersions_eq (hver : version.toNat < 2 ^ 31) :
    countVersions history version = signedCount history version + highBitCount history := by
  induction history with
  | nil => rfl
  | cons value history ih =>
    have hval := value.toNat_lt
    simp only [countVersions, signedCount, highBitCount, countP_cons,
      signExtend_ge_iff hver, decide_eq_true_eq] at ih ⊢
    rw [ih]
    have hsign := toInt_eq value
    -- a version is not both high enough and negative
    by_cases hhigh : 2 ^ 31 ≤ value.toNat
    · have hneg : ¬ (version.toNat : Int) ≤ value.toBitVec.toInt := by
        rw [hsign, if_neg (not_lt.mpr hhigh)]
        omega
      simp only [hhigh, hneg, or_true, if_true, if_false]
      omega
    · simp only [hhigh, or_false, if_false]
      omega

theorem highBitCount_eq_zero_iff {history : List UInt32} :
    highBitCount history = 0 ↔ ∀ value ∈ history, value.toNat < 2 ^ 31 := by
  simp [highBitCount, countP_eq_zero]

/-- The rules that a majority activates, each with the version that is counted. The `ltc` build
activates bip34 at a fixed height only. -/
def majorityRules (currency : Currency) : List (UInt32 × UInt32) :=
  (if currency = .ltc then [] else [(bip34Rule, bip34Version)]) ++
    [(bip66Rule, bip66Version), (bip65Rule, bip65Version)]

/-- The version that the enforced majorities of a count require. -/
def requiredVersion (count : UInt32 → Nat) (mainnet : Bool) : UInt32 :=
  if isEnforced (count bip65Version) mainnet then bip65Version
  else if isEnforced (count bip66Version) mainnet then bip66Version
  else if isEnforced (count bip34Version) mainnet then bip34Version
  else firstVersion

/-- The outcome of an activation is that of a count of versions. -/
structure FollowsCount (currency : Currency) (count : UInt32 → Nat) (values : Data) (forks : UInt32)
    (result : Activations) : Prop where
  rules : ∀ rule ∈ majorityRules currency,
    isEnabled result.forks rule.1 =
      (isEnabled forks rule.1 &&
        (isActive (count rule.2) (Configuration.ofForks forks).mainnet &&
          decide (values.versionSelf ≥ rule.2)))
  bip34 : currency = .ltc → isEnabled result.forks bip34Rule = false
  minimumVersion :
    result.minimumVersion = requiredVersion count (Configuration.ofForks forks).mainnet

section

variable {currency : Currency} {times : ActivationTimes} {values : Data} {forks : UInt32}

/-- Neither a checkpoint nor the `bch` build activates one of the three rules. -/
theorem isEnabled_activation_version {rule : UInt32}
    (hrule : rule = bip34Rule ∨ rule = bip66Rule ∨ rule = bip65Rule) :
    isEnabled (values.activation currency times forks).forks rule =
      isEnabled (values.versionForks currency forks) rule := by
  have hcheckpoint : isEnabled (values.checkpointForks currency forks) rule = false := by
    rcases hrule with rfl | rfl | rfl <;>
      simp (disch := decide) only [Data.checkpointForks, isEnabled_or,
        isEnabled_enable_of_disjoint, Bool.or_self]
  have hcash : isEnabled (values.cashForks currency times forks) rule = false := by
    rcases hrule with rfl | rfl | rfl <;>
      simp (disch := decide) only [Data.cashForks, isEnabled_or, isEnabled_enable_of_disjoint,
        Bool.or_self]
  have hbuild : isEnabled (if currency = .bch then values.cashForks currency times forks else 0)
      rule = false := by
    split
    · exact hcash
    · simp [isEnabled]
  simp only [Data.activation, isEnabled_or, hcheckpoint, hbuild, Bool.or_false]

theorem mem_majorityRules {rule : UInt32 × UInt32} :
    rule ∈ majorityRules currency ↔
      currency ≠ .ltc ∧ rule = (bip34Rule, bip34Version) ∨
        rule = (bip66Rule, bip66Version) ∨ rule = (bip65Rule, bip65Version) := by
  by_cases hbuild : currency = .ltc <;> simp [majorityRules, hbuild]

/-- Without frozen heights the outcome is that of the code's own count. -/
theorem followsCount_countVersions (hfrozen : isEnabled forks bip90Rule = false) :
    FollowsCount currency (countVersions values.versionOrdered) values forks
      (values.activation currency times forks) where
  rules := by
    intro rule hrule
    rcases mem_majorityRules.mp hrule with ⟨hbuild, rfl⟩ | rfl | rfl
    · rw [isEnabled_activation_version (.inl rfl)]
      simp (disch := decide) only [Data.versionForks, isEnabled_or, isEnabled_enable_of_disjoint,
        isEnabled_enable_self, Bool.or_self, Bool.or_false, Bool.false_or, if_neg hbuild]
      simp [Configuration.ofForks, hfrozen, bip34, isFrozen, Bool.and_comm]
    · rw [isEnabled_activation_version (.inr (.inl rfl))]
      simp (disch := decide) only [Data.versionForks, isEnabled_or, isEnabled_enable_of_disjoint,
        isEnabled_enable_self, Bool.or_self, Bool.or_false, Bool.false_or]
      simp [Configuration.ofForks, hfrozen, bip66, isFrozen, Bool.and_comm]
    · rw [isEnabled_activation_version (.inr (.inr rfl))]
      simp (disch := decide) only [Data.versionForks, isEnabled_or, isEnabled_enable_of_disjoint,
        isEnabled_enable_self, Bool.or_self, Bool.false_or]
      simp [Configuration.ofForks, hfrozen, bip65, isFrozen, Bool.and_comm]
  bip34 := by
    rintro rfl
    rw [isEnabled_activation_version (.inl rfl)]
    simp (disch := decide) only [Data.versionForks, isEnabled_or, isEnabled_enable_of_disjoint,
      isEnabled_enable_self, Bool.or_self, Bool.or_false, Bool.false_or, if_true]
    simp [Configuration.ofForks, hfrozen, bip34, isFrozen]
  minimumVersion := by
    simp [Data.activation, Data.minimumVersion, requiredVersion, Configuration.ofForks, hfrozen,
      bip34, bip65, bip66, isFrozen]

end

/-- A test that holds of the count holds of a greater one. -/
def GrowsWithCount (test : Nat → Bool → Bool) : Prop :=
  ∀ small large mainnet, small ≤ large → test small mainnet = true → test large mainnet = true

theorem growsWithCount_isActive : GrowsWithCount isActive := by
  intro small large mainnet hle htest
  rw [isActive, decide_eq_true_iff] at htest ⊢
  exact htest.trans hle

theorem growsWithCount_isEnforced : GrowsWithCount isEnforced := by
  intro small large mainnet hle htest
  rw [isEnforced, decide_eq_true_iff] at htest ⊢
  exact htest.trans hle

section

variable (test : Nat → Bool → Bool) (history : List UInt32) (version : UInt32) (mainnet : Bool)

/-- A test of the count fails for the signed versions and holds with the blocks that have the high
bit set. -/
def HighBitDecides : Prop :=
  test (signedCount history version) mainnet = false ∧
    test (signedCount history version + highBitCount history) mainnet = true

variable {test history version mainnet}

theorem test_countVersions_eq_iff (htest : GrowsWithCount test) (hver : version.toNat < 2 ^ 31) :
    test (countVersions history version) mainnet = test (signedCount history version) mainnet ↔
      ¬ HighBitDecides test history version mainnet := by
  rw [countVersions_eq history hver, HighBitDecides]
  have hmono : test (signedCount history version) mainnet →
      test (signedCount history version + highBitCount history) mainnet = true :=
    htest _ _ _ (Nat.le_add_right _ _)
  cases hsigned : test (signedCount history version) mainnet with
  | false => simp
  | true => simp [hmono hsigned]

end

theorem signedCount_anti {low high : UInt32} (hle : low ≤ high) :
    signedCount history high ≤ signedCount history low := by
  apply countP_mono_left
  intro value _ hval
  rw [decide_eq_true_iff] at hval ⊢
  have hlow : low.toNat ≤ high.toNat := UInt32.le_iff_toNat_le.mp hle
  omega

theorem countVersions_anti {low high : UInt32} (hle : low ≤ high) :
    countVersions history high ≤ countVersions history low := by
  apply countP_mono_left
  intro value _ hval
  rw [decide_eq_true_iff] at hval ⊢
  exact (UInt32.le_iff_toNat_le.mp hle).trans hval

/-- The required version tells the three enforced majorities apart. -/
theorem requiredVersion_eq_iff {count count' : UInt32 → Nat} {mainnet : Bool}
    (hcount : ∀ {low high}, low ≤ high → count high ≤ count low)
    (hcount' : ∀ {low high}, low ≤ high → count' high ≤ count' low) :
    requiredVersion count mainnet = requiredVersion count' mainnet ↔
      ∀ version ∈ [bip34Version, bip66Version, bip65Version],
        isEnforced (count version) mainnet = isEnforced (count' version) mainnet := by
  have hchain : ∀ {count : UInt32 → Nat} {low high : UInt32}, count high ≤ count low →
      (isEnforced (count high) mainnet → isEnforced (count low) mainnet) := by
    intro count low high hle
    exact growsWithCount_isEnforced _ _ _ hle
  have h32 := hchain (hcount (show bip34Version ≤ bip66Version by decide))
  have h43 := hchain (hcount (show bip66Version ≤ bip65Version by decide))
  have h32' := hchain (hcount' (show bip34Version ≤ bip66Version by decide))
  have h43' := hchain (hcount' (show bip66Version ≤ bip65Version by decide))
  simp only [requiredVersion, forall_mem_cons, not_mem_nil, false_imp_iff, implies_true, and_true]
  generalize isEnforced (count bip34Version) mainnet = e2 at *
  generalize isEnforced (count bip66Version) mainnet = e3 at *
  generalize isEnforced (count bip65Version) mainnet = e4 at *
  generalize isEnforced (count' bip34Version) mainnet = f2 at *
  generalize isEnforced (count' bip66Version) mainnet = f3 at *
  generalize isEnforced (count' bip65Version) mainnet = f4 at *
  clear hcount hcount' hchain
  revert e2 e3 e4 f2 f3 f4
  decide

/-- The versions of the three majorities. -/
def majorityVersions : List UInt32 := [bip34Version, bip66Version, bip65Version]

theorem majorityVersion_lt (h : version ∈ majorityVersions) : version.toNat < 2 ^ 31 := by
  simp only [majorityVersions, mem_cons, not_mem_nil, or_false] at h
  rcases h with rfl | rfl | rfl <;> decide

theorem mem_majorityVersions {currency : Currency} {rule : UInt32 × UInt32}
    (h : rule ∈ majorityRules currency) : rule.2 ∈ majorityVersions := by
  rcases mem_majorityRules.mp h with ⟨-, rfl⟩ | rfl | rfl <;> simp [majorityVersions]

section

variable {currency : Currency} {times : ActivationTimes} {values : Data} {forks : UInt32}

/-- The outcome is that of the signed versions just when the high bit decides no test that the
outcome depends on. -/
theorem followsCount_signedCount_iff (hfrozen : isEnabled forks bip90Rule = false) :
    FollowsCount currency (signedCount values.versionOrdered) values forks
        (values.activation currency times forks) ↔
      (∀ version ∈ majorityVersions, ¬ HighBitDecides isEnforced values.versionOrdered version
        (Configuration.ofForks forks).mainnet) ∧
      (∀ rule ∈ majorityRules currency, isEnabled forks rule.1 →
        values.versionSelf ≥ rule.2 → ¬ HighBitDecides isActive values.versionOrdered rule.2
          (Configuration.ofForks forks).mainnet) := by
  have hcode : FollowsCount currency (countVersions values.versionOrdered) values forks
      (values.activation currency times forks) := followsCount_countVersions hfrozen
  have hrequired : ∀ {mainnet},
      requiredVersion (countVersions values.versionOrdered) mainnet =
        requiredVersion (signedCount values.versionOrdered) mainnet ↔
      ∀ version ∈ majorityVersions,
        ¬ HighBitDecides isEnforced values.versionOrdered version mainnet := by
    intro mainnet
    rw [requiredVersion_eq_iff (countVersions_anti _) (signedCount_anti _)]
    refine forall₂_congr ?_
    intro version hver
    exact test_countVersions_eq_iff growsWithCount_isEnforced (majorityVersion_lt hver)
  constructor
  · intro hsigned
    refine ⟨hrequired.mp (hcode.minimumVersion.symm.trans hsigned.minimumVersion), ?_⟩
    intro rule hrule hconfigured hself
    have hver := majorityVersion_lt (mem_majorityVersions hrule)
    rw [← test_countVersions_eq_iff growsWithCount_isActive hver]
    have hrules := (hcode.rules rule hrule).symm.trans (hsigned.rules rule hrule)
    simpa [hconfigured, hself] using hrules
  · rintro ⟨henforced, hactive⟩
    refine ⟨?_, hcode.bip34, hcode.minimumVersion.trans (hrequired.mpr henforced)⟩
    intro rule hrule
    have hver := majorityVersion_lt (mem_majorityVersions hrule)
    rw [hcode.rules rule hrule]
    cases hconfigured : isEnabled forks rule.1 with
    | false => rfl
    | true =>
      by_cases hself : values.versionSelf ≥ rule.2
      · have hequal := (test_countVersions_eq_iff growsWithCount_isActive hver).mpr
          (hactive rule hrule hconfigured hself)
        rw [hequal]
      · simp only [hself, decide_false, Bool.and_false]

/-- No version with the high bit set passes the comparison with one of the three versions. -/
def NeverCounts (history : List UInt32) : Prop :=
  ∀ value ∈ history, 2 ^ 31 ≤ value.toNat → ∀ version ∈ majorityVersions,
    ¬ signExtend value ≥ version.toNat

theorem neverCounts_iff {history : List UInt32} :
    NeverCounts history ↔ ∀ value ∈ history, value.toNat < 2 ^ 31 := by
  constructor
  · intro hnever value hval
    by_contra hhigh
    have hver : bip34Version ∈ majorityVersions := mem_cons_self
    exact hnever value hval (not_lt.mp hhigh) bip34Version hver
      ((signExtend_ge_iff (majorityVersion_lt hver)).mpr (.inr (not_lt.mp hhigh)))
  · intro hlow value hval hhigh
    exact absurd (hlow value hval) (not_lt.mpr hhigh)

/-- Majorities are those of the signed versions, and no negative version counts, just for histories
without the high bit. The outcome alone is right just when the high bit decides no test. -/
theorem signed_majorities_iff (hfrozen : isEnabled forks bip90Rule = false) :
    ((FollowsCount currency (signedCount values.versionOrdered) values forks
          (values.activation currency times forks) ∧ NeverCounts values.versionOrdered) ↔
        ∀ value ∈ values.versionOrdered, value.toNat < 2 ^ 31) ∧
      (FollowsCount currency (signedCount values.versionOrdered) values forks
          (values.activation currency times forks) ↔
        (∀ version ∈ majorityVersions, ¬ HighBitDecides isEnforced values.versionOrdered version
          (Configuration.ofForks forks).mainnet) ∧
        (∀ rule ∈ majorityRules currency, isEnabled forks rule.1 = true →
          values.versionSelf ≥ rule.2 → ¬ HighBitDecides isActive values.versionOrdered rule.2
            (Configuration.ofForks forks).mainnet)) := by
  refine ⟨?_, followsCount_signedCount_iff hfrozen⟩
  rw [neverCounts_iff]
  refine and_iff_right_of_imp ?_
  intro hlow
  have hzero := highBitCount_eq_zero_iff.mpr hlow
  have hnone : ∀ {test version mainnet},
      ¬ HighBitDecides test values.versionOrdered version mainnet := by
    rintro test version mainnet ⟨hfails, hholds⟩
    rw [hzero, add_zero, hfails] at hholds
    cases hholds
  rw [followsCount_signedCount_iff hfrozen]
  exact ⟨fun _ _ => hnone, fun _ _ _ _ => hnone⟩

end

/-- Values for a test network whose blocks have all one version. -/
def uniformValues (version : UInt32) : Data where
  height := 1000
  hash := nullHash
  allowCollisionsHash := nullHash
  bip9Bit0Hash := nullHash
  bip9Bit1Hash := nullHash
  bitsSelf := 0
  bitsOrdered := []
  versionSelf := 4
  versionOrdered := List.replicate 100 version
  timestampSelf := 0
  timestampRetarget := 0
  timestampOrdered := []

/-- The three rules on a test network with retargeting. -/
def majorityForks : UInt32 := bip34Activations ||| easyBlocks ||| retarget

/-- A history of version 3 activates what the signed versions do. -/
theorem signed_majorities_version3 :
    isEnabled majorityForks bip90Rule = false ∧
      FollowsCount .btc (signedCount (uniformValues 3).versionOrdered) (uniformValues 3)
        majorityForks ((uniformValues 3).activation .btc {} majorityForks) := by
  have hfrozen : isEnabled majorityForks bip90Rule = false := by decide
  refine ⟨hfrozen, ((signed_majorities_iff hfrozen).1.mpr ?_).1⟩
  intro value hvalue
  rw [eq_of_mem_replicate hvalue]
  decide

/-- A hundred blocks of the least signed version require version 4. -/
theorem negative_versions_enforce :
    isEnabled majorityForks bip90Rule = false ∧
      ((uniformValues 0x80000000).activation .btc {} majorityForks).minimumVersion = 4 ∧
      requiredVersion (signedCount (uniformValues 0x80000000).versionOrdered)
        (Configuration.ofForks majorityForks).mainnet = 1 := by
  decide +kernel

end BitprimCore.ChainState
