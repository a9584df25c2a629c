import BitprimCore.Chain.Promotion

/-!
# Promotion and rule activation

Three rules are activated by the hash of a block at a checkpoint height. A state that is built from
scratch requests that hash above the height only. Promotion caches it at the height and does not
look it up above it, so a rule is active one block early if the hash is cached on the way, and never
if the first state is the one at the checkpoint height.
-/

namespace BitprimCore.ChainState

open RuleFork

section

variable {hashes : Hashes} {chain : Nat → Header} {forks : UInt32} {height : Nat} {data data' : Data}

/-- Versions, times and heights activate the same rules whichever way the values were obtained. -/
theorem Follows.versionForks_eq (h : Follows hashes chain forks height data)
    (h' : Follows hashes chain forks height data') :
    data.versionForks .btc forks = data'.versionForks .btc forks := by
  simp only [Data.versionForks, h.height_eq, h'.height_eq, h.hash, h'.hash, h.versions, h'.versions,
    h.versionSelf, h'.versionSelf, h.timestampSelf, h'.timestampSelf]

theorem Follows.minimumVersion_eq (h : Follows hashes chain forks height data)
    (h' : Follows hashes chain forks height data') :
    data.minimumVersion .btc forks = data'.minimumVersion .btc forks := by
  simp only [Data.minimumVersion, h.height_eq, h'.height_eq, h.versions, h'.versions]

end

/-- No rule that a checkpoint hash activates is among the others. -/
theorem isEnabled_versionForks (data : Data) (forks : UInt32) {fork : UInt32}
    (hfork : fork = allowCollisions ∨ fork = bip9Bit0Group ∨
      fork = bip9Bit1Group) : isEnabled (data.versionForks .btc forks) fork = false := by
  simp only [Data.versionForks, isEnabled_or, isEnabled_enable]
  rcases hfork with rfl | rfl | rfl <;>
    simp only [Bool.or_eq_false_iff, Bool.and_eq_false_iff] <;>
    exact ⟨⟨⟨⟨⟨⟨⟨.inr (isEnabled_zero _), .inr (isEnabled_zero _)⟩, .inr (isEnabled_zero _)⟩,
      .inr (isEnabled_zero _)⟩, .inr (isEnabled_zero _)⟩, .inr (isEnabled_zero _)⟩,
      .inr (isEnabled_zero _)⟩, .inr (isEnabled_zero _)⟩

/-- A rule that the hash at a checkpoint height activates: its flags, its hash among the values, the
height whose hash is requested, the heights at which promotion caches a hash, and the hashes that
activate it. -/
structure CheckpointRule where
  flags : UInt32
  cached : Data → HashDigest
  requested : Nat
  caches : Nat → Bool
  activates : HashDigest → Bool
  requested_lt : requested < Map.unrequested
  caches_eq : ∀ height, 2 ≤ height → caches height = true → height = requested
  activates_null : activates nullHash = false

namespace CheckpointRule

variable (rule : CheckpointRule) (hashes : Hashes) (chain : Nat → Header) (forks : UInt32)
  (start height : Nat)

/-- The hash that is gathered at a height. -/
def scratchHash : HashDigest := requestedHash hashes chain (requestAbove height rule.requested)

/-- The checkpoint is passed on the way and promotion caches its hash. -/
def Caught : Prop :=
  start < rule.requested ∧ rule.requested ≤ height ∧ rule.caches rule.requested = true

instance : Decidable (rule.Caught start height) := inferInstanceAs (Decidable (_ ∧ _))

/-- The hash after promotion to a height from values gathered at the start. -/
def promotedHash : HashDigest :=
  if rule.Caught start height then (chain rule.requested).hash hashes
  else rule.scratchHash hashes chain start

/-- The rule is configured and the chain holds its checkpoint. Either promotion caches the hash at
the checkpoint height, or it has passed that height from a start at which the hash is not requested
and has not cached it. -/
def Diverges : Prop :=
  isEnabled forks rule.flags = true ∧ rule.activates ((chain rule.requested).hash hashes) = true ∧
    (rule.Caught start height ∧ height = rule.requested ∨
      ¬ rule.Caught start height ∧ start ≤ rule.requested ∧ rule.requested < height)

/-- The rule is configured, the chain holds its checkpoint, and the height is the one above the
checkpoint, or the checkpoint height if promotion caches there. -/
def AtBoundary : Prop :=
  isEnabled forks rule.flags = true ∧ rule.activates ((chain rule.requested).hash hashes) = true ∧
    (height = rule.requested + 1 ∨ height = rule.requested ∧ rule.caches height = true)

theorem scratchHash_eq :
    rule.scratchHash hashes chain height =
      if height > rule.requested then (chain rule.requested).hash hashes else nullHash := by
  have hne := ne_of_lt rule.requested_lt
  simp only [scratchHash, requestedHash, requestAbove]
  by_cases habove : height > rule.requested
  · simp only [if_pos habove, if_neg hne]
  · simp only [if_neg habove, if_true]

/-- Without a step the hash is the gathered one. -/
theorem promotedHash_start :
    rule.promotedHash hashes chain start start = rule.scratchHash hashes chain start := by
  apply if_neg
  rintro ⟨hlt, hle, -⟩
  omega

/-- A step caches the hash of its header or keeps the one at hand. -/
theorem promotedHash_succ (hpos : 1 ≤ start) (hle : start ≤ height) :
    rule.promotedHash hashes chain start (height + 1) =
      if rule.caches (height + 1) then (chain (height + 1)).hash hashes
      else rule.promotedHash hashes chain start height := by
  by_cases hcache : rule.caches (height + 1) = true
  · have hheight := rule.caches_eq (height + 1) (by omega) hcache
    have hcaught : rule.Caught start (height + 1) := ⟨by omega, by omega, hheight ▸ hcache⟩
    rw [promotedHash, if_pos hcaught, if_pos hcache, hheight]
  · have hcaught : rule.Caught start (height + 1) ↔ rule.Caught start height := by
      refine ⟨fun h => ⟨h.1, ?_, h.2.2⟩, fun h => ⟨h.1, h.2.1.trans (Nat.le_succ _), h.2.2⟩⟩
      by_contra habove
      have hheight : rule.requested = height + 1 := le_antisymm h.2.1 (not_le.mp habove)
      exact hcache (hheight ▸ h.2.2)
    simp only [promotedHash, hcaught, if_neg hcache]

/-- The two ways to acquire the hash disagree on the rule where they diverge. -/
theorem enable_agree_iff (hle : start ≤ height) :
    (rule.activates (rule.promotedHash hashes chain start height) && isEnabled forks rule.flags) =
        (rule.activates (rule.scratchHash hashes chain height) && isEnabled forks rule.flags) ↔
      ¬ rule.Diverges hashes chain forks start height := by
  have hnull := rule.activates_null
  rw [Diverges, promotedHash, scratchHash_eq, scratchHash_eq]
  cases isEnabled forks rule.flags with
  | false => simp
  | true =>
    simp only [Bool.and_true, true_and]
    by_cases hcaught : rule.Caught start height
    · -- the cached hash is requested at all heights above the checkpoint, but not at it
      have hreached := hcaught.2.1
      rcases lt_or_eq_of_le hreached with hlt | heq
      · simp [hcaught, hlt, ne_of_gt hlt]
      · simp [hcaught, heq, hnull]
    · rcases lt_or_ge rule.requested start with hlt | hge
      · have hlt' := lt_of_lt_of_le hlt hle
        simp [hcaught, hlt, hlt', not_le.mpr hlt]
      · rcases lt_or_ge rule.requested height with habove | hbelow
        · simp [hcaught, habove, not_lt.mpr hge, hge, hnull]
        · simp [hcaught, not_lt.mpr hge, not_lt.mpr hbelow]

/-- A single step diverges at the boundary. -/
theorem diverges_step_iff :
    rule.Diverges hashes chain forks height (height + 1) ↔
      rule.AtBoundary hashes chain forks (height + 1) := by
  refine and_congr_right fun _ => and_congr_right fun _ => ?_
  constructor
  · rintro (⟨hcaught, heq⟩ | ⟨-, hle, hlt⟩)
    · exact .inr ⟨heq, heq ▸ hcaught.2.2⟩
    · exact .inl (by omega)
  · rintro (heq | ⟨heq, hcache⟩)
    · refine .inr ⟨fun hcaught => ?_, by omega, by omega⟩
      have hbelow := hcaught.1
      omega
    · exact .inl ⟨⟨by omega, by omega, heq ▸ hcache⟩, heq⟩

end CheckpointRule

section

variable (forks : UInt32)

theorem activationHeight_lt {checkpoints : ActiveCheckpoints}
    (h : checkpoints.mainnet.height < maxUint64 ∧ checkpoints.testnet.height < maxUint64 ∧
      checkpoints.regtest.height < maxUint64) :
    activationHeight forks checkpoints < Map.unrequested := by
  simp only [activationHeight, Map.unrequested]
  split_ifs
  · exact h.2.1
  · exact h.2.2
  · exact h.1

/-- Promotion caches the hash at the height that is requested. -/
theorem eq_activationHeight_of_matchesHeight {checkpoints : ActiveCheckpoints} {height : Nat}
    (h : checkpoints.matchesHeight (Configuration.ofForks forks).mainnet
      (Configuration.ofForks forks).testnet height) :
    height = activationHeight forks checkpoints := by
  simp only [ActiveCheckpoints.matchesHeight, Configuration.ofForks, activationHeight] at h ⊢
  cases heasy : isEnabled forks easyBlocks <;>
    cases hretarget : isEnabled forks retarget <;>
    simpa [heasy, hretarget] using h

/-- Collisions after BIP34. -/
def allowCollisionsRule : CheckpointRule where
  flags := allowCollisions
  cached := Data.allowCollisionsHash
  requested := activationHeight forks (Currency.bip34ActiveCheckpoints .btc)
  caches := allowCollisionsAtHeight .btc (Configuration.ofForks forks).mainnet
    (Configuration.ofForks forks).testnet
  activates := allowCollisionsAtHash .btc (Configuration.ofForks forks).mainnet
    (Configuration.ofForks forks).testnet
  requested_lt := activationHeight_lt forks (by decide)
  caches_eq _ _ h := eq_activationHeight_of_matchesHeight forks h
  activates_null :=
    have hnull : ∀ mainnet testnet,
        allowCollisionsAtHash .btc mainnet testnet nullHash = false := by decide
    hnull _ _

/-- BIP68, BIP112 and BIP113. -/
def bip9Bit0Rule : CheckpointRule where
  flags := bip9Bit0Group
  cached := Data.bip9Bit0Hash
  requested := activationHeight forks (Currency.bip9Bit0ActiveCheckpoints .btc)
  caches := bip9Bit0ActiveAtHeight .btc (Configuration.ofForks forks).mainnet
    (Configuration.ofForks forks).testnet
  activates := bip9Bit0ActiveAtHash .btc (Configuration.ofForks forks).mainnet
    (Configuration.ofForks forks).testnet
  requested_lt := activationHeight_lt forks (by decide)
  caches_eq _ _ h := eq_activationHeight_of_matchesHeight forks h
  activates_null :=
    have hnull : ∀ mainnet testnet,
        bip9Bit0ActiveAtHash .btc mainnet testnet nullHash = false := by decide
    hnull _ _

/-- On regtest the requested height is that of mainnet, and the cached one is zero. -/
def bip9Bit1Rule : CheckpointRule where
  flags := bip9Bit1Group
  cached := Data.bip9Bit1Hash
  requested := bip9Bit1ActivationHeight .btc forks
  caches := bip9Bit1ActiveAtHeight .btc (Configuration.ofForks forks).mainnet
    (Configuration.ofForks forks).testnet
  activates := bip9Bit1ActiveAtHash .btc (Configuration.ofForks forks).mainnet
    (Configuration.ofForks forks).testnet
  requested_lt := by
    simp only [bip9Bit1ActivationHeight]
    split <;> decide
  caches_eq := by
    intro height h2 h
    simp only [bip9Bit1ActiveAtHeight, ActiveCheckpoints.matchesHeight, Configuration.ofForks,
      bip9Bit1ActivationHeight] at h ⊢
    cases heasy : isEnabled forks easyBlocks <;>
      cases hretarget : isEnabled forks retarget <;>
      simp [heasy, hretarget, Currency.bip9Bit1ActiveCheckpoints] at h ⊢ <;> omega
  activates_null :=
    have hnull : ∀ mainnet testnet,
        bip9Bit1ActiveAtHash .btc mainnet testnet nullHash = false := by decide
    hnull _ _

/-- The rules with a checkpoint. -/
def checkpointRules : List CheckpointRule :=
  [allowCollisionsRule forks, bip9Bit0Rule forks, bip9Bit1Rule forks]

theorem mem_checkpointRules {forks : UInt32} {rule : CheckpointRule} :
    rule ∈ checkpointRules forks ↔ rule = allowCollisionsRule forks ∨ rule = bip9Bit0Rule forks ∨
      rule = bip9Bit1Rule forks := by
  simp [checkpointRules]

section

variable {forks} {times : ActivationTimes} {data data' : Data}

/-- A rule with a checkpoint is active where its cached hash activates it. -/
theorem isEnabled_activation (data : Data) {rule : CheckpointRule}
    (hrule : rule ∈ checkpointRules forks) :
    isEnabled (data.activation .btc times forks).forks rule.flags =
      (rule.activates (rule.cached data) && isEnabled forks rule.flags) := by
  rw [mem_checkpointRules] at hrule
  have hver : isEnabled (data.versionForks .btc forks) rule.flags = false := by
    apply isEnabled_versionForks
    rcases hrule with rfl | rfl | rfl
    · exact .inl rfl
    · exact .inr (.inl rfl)
    · exact .inr (.inr rfl)
  simp only [Data.activation, Data.checkpointForks, isEnabled_or, hver, isEnabled_enable]
  have hcollisions0 : allowCollisions &&& bip9Bit0Group = 0 := by decide
  have hcollisions1 : allowCollisions &&& bip9Bit1Group = 0 := by decide
  have hbits : bip9Bit0Group &&& bip9Bit1Group = 0 := by decide
  rcases hrule with rfl | rfl | rfl
  · simp [allowCollisionsRule, hcollisions0, hcollisions1, isEnabled]
  · simp [bip9Bit0Rule, hbits, UInt32.and_comm _ allowCollisions, hcollisions0, isEnabled]
  · simp [bip9Bit1Rule, UInt32.and_comm bip9Bit1Group, hcollisions1, hbits, isEnabled]

/-- The active rules agree if those with a checkpoint do. -/
theorem activation_forks_eq_iff
    (hver : data.versionForks .btc forks = data'.versionForks .btc forks) :
    (data.activation .btc times forks).forks = (data'.activation .btc times forks).forks ↔
      ∀ rule ∈ checkpointRules forks,
        (rule.activates (rule.cached data) && isEnabled forks rule.flags) =
          (rule.activates (rule.cached data') && isEnabled forks rule.flags) := by
  constructor
  · intro h rule hrule
    rw [← isEnabled_activation data hrule, ← isEnabled_activation data' hrule, h]
  · intro h
    have hcoll :=
      enable_eq_of_isEnabled (h (allowCollisionsRule forks) (mem_checkpointRules.mpr (.inl rfl)))
    have hbit0 := enable_eq_of_isEnabled (h _ (mem_checkpointRules.mpr (.inr (.inl rfl))))
    have hbit1 := enable_eq_of_isEnabled (h _ (mem_checkpointRules.mpr (.inr (.inr rfl))))
    have hcheckpoint : data.checkpointForks .btc forks = data'.checkpointForks .btc forks :=
      congrArg₂ (· ||| ·) (congrArg₂ (· ||| ·) hcoll hbit0) hbit1
    simp only [Data.activation, hver, hcheckpoint, reduceCtorEq, if_false]

end

section

variable {forks} {hashes : Hashes} {chain : Nat → Header} {height : Nat} {rule : CheckpointRule}

theorem cached_gather (unspecified : UInt32) (hpos : 0 < height)
    (hrule : rule ∈ checkpointRules forks) :
    rule.cached (gather hashes chain unspecified height (getMap .btc height forks)) =
      rule.scratchHash hashes chain height := by
  rw [mem_checkpointRules] at hrule
  rw [getMap, if_neg (ne_of_gt hpos)]
  rcases hrule with rfl | rfl | rfl <;> rfl

theorem CachesNext.cached {data next : Data} (hrule : rule ∈ checkpointRules forks)
    (h : CachesNext hashes forks height (chain height) data next) :
    rule.cached next = if rule.caches height then (chain height).hash hashes else rule.cached data := by
  rw [mem_checkpointRules] at hrule
  rcases hrule with rfl | rfl | rfl
  · exact h.allowCollisionsHash
  · exact h.bip9Bit0Hash
  · exact h.bip9Bit1Hash

/-- The hashes are those that promotion from the start leaves. -/
def CachedFrom (hashes : Hashes) (chain : Nat → Header) (forks : UInt32) (start height : Nat)
    (data : Data) : Prop :=
  start ≤ height ∧ ∀ rule ∈ checkpointRules forks,
    rule.cached data = rule.promotedHash hashes chain start height

theorem CachedFrom.next {start : Nat} (hpos : 1 ≤ start) (height : Nat) (data next : Data)
    (hcaches : CachesNext hashes forks (height + 1) (chain (height + 1)) data next)
    (h : CachedFrom hashes chain forks start height data) :
    CachedFrom hashes chain forks start (height + 1) next := by
  refine ⟨h.1.trans (Nat.le_succ height), fun rule hrule => ?_⟩
  rw [hcaches.cached hrule, h.2 rule hrule, rule.promotedHash_succ _ _ _ _ hpos h.1]

end

end

/-- A state that is promoted any number of times requires the version that the state built from
scratch requires. The active rules are the same unless a rule with a checkpoint diverges; one whose
checkpoint is the height of the first state is then missing from all states above it. -/
theorem promoteAll_forks_eq_iff (hashes : Hashes) (chain : Nat → Header)
    (unspecified forks : UInt32) (checkpoints : List Checkpoint) (times : ActivationTimes)
    (start : Nat) (routes : List Route) (hpos : 1 ≤ start) (hlt : start + routes.length < 2 ^ 64) :
    ∃ first promoted scratch,
      fromScratch .btc hashes chain unspecified checkpoints forks times start = some first ∧
      promoteAll .btc hashes chain routes start first = some promoted ∧
      fromScratch .btc hashes chain unspecified checkpoints forks times (start + routes.length) =
        some scratch ∧
      promoted.minimumVersion = scratch.minimumVersion ∧
      (promoted.enabledForks = scratch.enabledForks ↔
        ∀ rule ∈ checkpointRules (forks ||| allowCollisions),
          ¬ rule.Diverges hashes chain (forks ||| allowCollisions) start
            (start + routes.length)) := by
  obtain ⟨first, hfirst, hfollows, hdata⟩ := fromScratch_follows hashes chain unspecified forks
    checkpoints times hpos (by omega)
  have hcached : CachedFrom hashes chain (forks ||| allowCollisions) start start first.data := by
    refine ⟨le_refl start, fun rule hrule => ?_⟩
    rw [hdata, cached_gather unspecified hpos hrule, rule.promotedHash_start]
  obtain ⟨promoted, hpromoted, hnext, hreached⟩ :=
    StateFollows.promoteAll _ (CachedFrom.next hpos) hfollows hcached routes hlt
  obtain ⟨scratch, hscratch, hbuilt, hgathered⟩ := fromScratch_follows hashes chain unspecified forks
    checkpoints times (by omega) hlt
  refine ⟨first, promoted, scratch, hfirst, hpromoted, hscratch, ?_, ?_⟩
  · rw [minimumVersion, minimumVersion, (constructed_of_construct hnext.constructed).active_eq,
      (constructed_of_construct hbuilt.constructed).active_eq]
    exact hnext.data.minimumVersion_eq hbuilt.data
  · rw [enabledForks, enabledForks, (constructed_of_construct hnext.constructed).active_eq,
      (constructed_of_construct hbuilt.constructed).active_eq,
      activation_forks_eq_iff (hnext.data.versionForks_eq hbuilt.data)]
    apply forall₂_congr
    intro rule hrule
    rw [hreached.2 rule hrule, hgathered, cached_gather unspecified (by omega) hrule,
      rule.enable_agree_iff hashes chain _ _ _ (Nat.le_add_right _ _)]

/-- A state that is promoted, along either route, from the state below requires the version that the
state built from scratch requires. It has the same active rules unless the height is at the boundary
of a rule with a checkpoint. -/
theorem promote_agrees_fromScratch_iff (hashes : Hashes) (chain : Nat → Header)
    (unspecified forks : UInt32) (checkpoints : List Checkpoint) (times : ActivationTimes)
    (height : Nat) (route : Route) (h2 : 2 ≤ height) (hlt : height < 2 ^ 64) :
    ∃ parent promoted scratch,
      fromScratch .btc hashes chain unspecified checkpoints forks times (height - 1) = some parent ∧
      promote .btc hashes route parent (chain height) = some promoted ∧
      fromScratch .btc hashes chain unspecified checkpoints forks times height = some scratch ∧
      promoted.minimumVersion = scratch.minimumVersion ∧
      (promoted.enabledForks = scratch.enabledForks ↔
        ∀ rule ∈ checkpointRules (forks ||| allowCollisions),
          ¬ rule.AtBoundary hashes chain (forks ||| allowCollisions) height) := by
  obtain ⟨below, rfl⟩ : ∃ below, height = below + 1 := ⟨height - 1, by omega⟩
  obtain ⟨parent, promoted, scratch, hparent, hpromoted, hscratch, hversion, hforks⟩ :=
    promoteAll_forks_eq_iff hashes chain unspecified forks checkpoints times below [route] (by omega)
      hlt
  refine ⟨parent, promoted, scratch, hparent, ?_, hscratch, hversion, ?_⟩
  · simpa [promoteAll] using hpromoted
  · refine hforks.trans (forall₂_congr fun rule _ => not_congr ?_)
    exact rule.diverges_step_iff hashes chain _ below

/-- A mainnet configuration with the rules that block versions signal. -/
def mainnetForks : UInt32 := retarget ||| bip34Activations ||| bip9Bit0Group ||| bip9Bit1Group

/-- A mainnet state is promoted to the same rules far below the checkpoints. -/
theorem promote_agrees_fromScratch_mainnet :
    ∃ parent promoted scratch,
      fromScratch .btc .ofSha256 sampleChain 0 [] mainnetForks {} 2016 = some parent ∧
      promote .btc .ofSha256 (.pool []) parent (sampleChain 2017) = some promoted ∧
      fromScratch .btc .ofSha256 sampleChain 0 [] mainnetForks {} 2017 = some scratch ∧
      promoted.minimumVersion = scratch.minimumVersion ∧
      promoted.enabledForks = scratch.enabledForks := by
  obtain ⟨parent, promoted, scratch, hparent, hpromoted, hscratch, hversion, hforks⟩ :=
    promote_agrees_fromScratch_iff .ofSha256 sampleChain 0 mainnetForks [] {} 2017 (.pool [])
      (by decide) (by decide)
  refine ⟨parent, promoted, scratch, hparent, hpromoted, hscratch, hversion, hforks.mpr ?_⟩
  rintro rule hrule ⟨-, -, hheight⟩
  rw [mem_checkpointRules] at hrule
  rcases hrule with rfl | rfl | rfl <;> revert hheight <;> decide

/-- The header of the mainnet block at the checkpoint of segregated witness. -/
def segwitHeader : Header where
  version := 0x20000002
  previousBlockHash := hashLiteral 0x000000000000000000cbeff0b533f8e1189cf09dfbebf57a8ebe349362811b80
  merkle := hashLiteral 0x6438250cad442b982801ae6994edb8a9ec63c0a0ba117779fbe7ef7f07cad140
  timestamp := 1503539857
  bits := 0x18013ce9
  nonce := 575995682

/-- A chain that holds the checkpoint of segregated witness. -/
def segwitChain (height : Nat) : Header :=
  if height = 481824 then segwitHeader else sampleChain height

/-- At the checkpoint height promotion activates segregated witness. It is not active in the state
that is built from scratch at that height. -/
theorem promote_ne_fromScratch_segwit :
    (do let parent ← fromScratch .btc .ofSha256 segwitChain 0 [] mainnetForks {} 481823
        let promoted ← promote .btc .ofSha256 .header parent (segwitChain 481824)
        return promoted.isForkEnabled bip141Rule) = some true ∧
      (fromScratch .btc .ofSha256 segwitChain 0 [] mainnetForks {} 481824).map
        (·.isForkEnabled bip141Rule) = some false := by
  decide +kernel

end BitprimCore.ChainState
