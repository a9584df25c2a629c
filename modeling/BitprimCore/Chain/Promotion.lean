import BitprimCore.Chain.ChainState
import BitprimCore.Math.Sha256

/-!
# Promotion of chain states

A chain state is built from values gathered over a chain of headers, or promoted from the state of
the height below. The values differ: a promoted queue drops at most one value a step while the
number of requested values jumps at retarget heights. What is computed from them does not.

`requiredWork` and `medianTime` say what the work and the median time past are as functions of the
chain, and `Follows` says which values suffice to compute them. Gathered values follow the chain,
and promotion keeps values that follow it.

## Implementation notes

The results are about the `btc` build, in which the queue of timestamps holds what the median time
past needs and nothing more.
-/

namespace BitprimCore

open Currency Option RuleFork SlidingWindow

@[simp] theorem Currency.retargetingInterval_eq (currency : Currency) :
    currency.retargetingInterval = 2016 := by
  cases currency <;> rfl

namespace ChainState

@[simp] theorem isRetargetHeight_eq_true_iff {currency : Currency} {height : Nat} :
    isRetargetHeight currency height ↔ height % 2016 = 0 := by
  simp [isRetargetHeight, retargetDistance]

theorem decrement_eq {height : Nat} (hpos : 0 < height) (hlt : height < 2 ^ 64) :
    decrement height = height - 1 := by
  simp only [decrement]
  omega

section

variable (currency : Currency) (hashes : Hashes) (chain : Nat → Header)

/-- The hash at a requested height, or the null hash. -/
def requestedHash (height : Nat) : HashDigest :=
  if height = Map.unrequested then nullHash else (chain height).hash hashes

/-- The values that a map requests. The retarget timestamp is not specified if it is not
requested. -/
def gather (unspecified : UInt32) (height : Nat) (map : Map) : Data where
  height
  hash := (chain height).hash hashes
  allowCollisionsHash := requestedHash hashes chain map.allowCollisionsHeight
  bip9Bit0Hash := requestedHash hashes chain map.bip9Bit0Height
  bip9Bit1Hash := requestedHash hashes chain map.bip9Bit1Height
  bitsSelf := (chain map.bitsSelf).bits
  bitsOrdered := window (fun height => (chain height).bits) (map.bits.high + 1) map.bits.count
  versionSelf := (chain map.versionSelf).version
  versionOrdered :=
    window (fun height => (chain height).version) (map.version.high + 1) map.version.count
  timestampSelf := (chain map.timestampSelf).timestamp
  timestampRetarget :=
    if map.timestampRetarget = Map.unrequested then unspecified
    else (chain map.timestampRetarget).timestamp
  timestampOrdered :=
    window (fun height => (chain height).timestamp) (map.timestamp.high + 1) map.timestamp.count

/-- The state built from the values that are requested for a height. -/
def fromScratch (unspecified : UInt32) (checkpoints : List Checkpoint) (forks : UInt32)
    (times : ActivationTimes) (height : Nat) : Option ChainState :=
  ofData currency (gather hashes chain unspecified height (getMap currency height forks)) checkpoints
    forks times

/-- The two ways from the state of a block to that of the next: through the pool state with the
block, or with the header alone. -/
inductive Route
  | pool (transactions : List Transaction)
  | header

/-- The next state along a route. -/
def promote (route : Route) (state : ChainState) (header : Header) : Option ChainState :=
  match route with
  | .pool transactions => do
    let pool ← ofTop currency state
    ofPool currency hashes pool { header, transactions }
  | .header => ofParent currency hashes state header

/-- Promotion along a list of routes, from a height on. -/
def promoteAll : List Route → (height : Nat) → ChainState → Option ChainState
  | [], _, state => some state
  | route :: routes, height, state => do
    let state ← promote currency hashes route state (chain (height + 1))
    promoteAll routes (height + 1) state

end

section

variable (chain : Nat → Header) (forks : UInt32) (height : Nat)

/-- The highest bits, at or below a height, of a block that does not claim the limit or is at a
retarget height. -/
def lastNonLimit (currency : Currency) (bits : Nat → UInt32) : Nat → UInt32
  | 0 => bits 0
  | height + 1 =>
    if isRetargetOrNonLimit currency (height + 1) (bits (height + 1)) then bits (height + 1)
    else lastNonLimit currency bits height

/-- The target scaled by the bounded time from the retarget block to the highest one. -/
def scaledTarget (currency : Currency) (bits high retarget : UInt32) : UInt32 :=
  let timespan := rangeConstrain ((high.toNat : Int) - retarget.toNat) currency.minTimespan
    currency.maxTimespan
  let target := (Compact.ofUInt32 bits).big * timespan.toNat % 2 ^ 256 /
    currency.targetTimespanSeconds
  Data.normalTarget currency target (Compact.ofUInt32 currency.retargetProofOfWorkLimit).big

/-- The work that a block of a given time must claim on top of a chain of the `btc` build. -/
def requiredWork (time : UInt32) : UInt32 :=
  let high := chain (height - 1)
  if !isEnabled forks retarget then high.bits
  else if height % 2016 = 0 then
    scaledTarget .btc high.bits high.timestamp (chain (height - 2016)).timestamp
  else if isEnabled forks easyBlocks then
    if time > domainConstrain32 ((high.timestamp.toNat : Int) + easySpacingSeconds .btc) then
      retargetProofOfWorkLimit .btc
    else lastNonLimit .btc (fun height => (chain height).bits) (height - 1)
  else high.bits

/-- The median of the timestamps of the eleven blocks below a height, or of all if there are
fewer. -/
def medianTime : UInt32 :=
  let times := (window (fun height => (chain height).timestamp) height (min height 11)).insertionSort
    (· ≤ ·)
  (times[times.length / 2]?).getD 0

end

section

variable (hashes : Hashes) (chain : Nat → Header) (forks : UInt32)

/-- The queues hold what is needed at a height. On testnet the bits reach back to the last retarget
height. -/
structure History (height : Nat) (data : Data) : Prop where
  height_eq : data.height = height
  bits : ∃ count, 0 < count ∧ count ≤ height ∧
    (isEnabled forks easyBlocks = true → isEnabled forks retarget = true → height % 2016 ≤ count) ∧
    data.bitsOrdered = window (fun height => (chain height).bits) height count
  versions : data.versionOrdered =
    window (fun height => (chain height).version) height (versionCount height forks)
  timestamps : data.timestampOrdered =
    window (fun height => (chain height).timestamp) height (min height 11)
  retarget : isEnabled forks retarget = true →
    data.timestampRetarget = (chain (retargetHeight .btc height forks)).timestamp

/-- The queues hold what is needed and the other values are those of the header. -/
structure Follows (height : Nat) (data : Data) : Prop extends History chain forks height data where
  hash : data.hash = (chain height).hash hashes
  bitsSelf : data.bitsSelf = (chain height).bits
  versionSelf : data.versionSelf = (chain height).version
  timestampSelf : data.timestampSelf = (chain height).timestamp

variable {hashes chain forks} {height : Nat} {data : Data}

/-- The search through the bits of a window that reaches back to the last retarget height. -/
theorem easyBits_window {bits : Nat → UInt32} {count : Nat} (hlt : height < 2 ^ 64)
    (hle : count ≤ height) (hreach : height % 2016 ≤ count) (hret : height % 2016 ≠ 0) :
    Data.easyBits .btc height (window bits height count).reverse =
      some (lastNonLimit .btc bits (height - 1)) := by
  induction count generalizing height with
  | zero => omega
  | succ count ih =>
    rw [reverse_window_succ bits hle, Data.easyBits, decrement_eq (by omega) hlt]
    obtain ⟨below, rfl⟩ : ∃ n, height = n + 1 := ⟨height - 1, by omega⟩
    rw [Nat.add_sub_cancel]
    cases below with
    | zero => simp [isRetargetOrNonLimit, lastNonLimit]
    | succ below =>
      rw [lastNonLimit]
      by_cases hstop : isRetargetOrNonLimit .btc (below + 1) (bits (below + 1)) = true
      · simp only [if_pos hstop]
      · have hbelow : ¬ (below + 1) % 2016 = 0 := by
          intro hzero
          apply hstop
          rw [isRetargetOrNonLimit, Bool.or_eq_true, isRetargetHeight_eq_true_iff]
          exact Or.inr hzero
        simp only [if_neg hstop]
        exact ih (by omega) (by omega) (by omega) hbelow

section

variable (h : History chain forks height data)

include h

theorem History.bitsHigh : data.bitsHigh = some (chain (height - 1)).bits := by
  obtain ⟨count, hpos, hle, -, hbits⟩ := h.bits
  rw [Data.bitsHigh, hbits, getLast?_window _ hpos hle]

theorem History.timestampHigh (hpos : 0 < height) :
    data.timestampHigh = some (chain (height - 1)).timestamp := by
  rw [Data.timestampHigh, h.timestamps, getLast?_window _ (by omega) (by omega)]

theorem History.workRequiredRetarget (hpos : 0 < height)
    (hret : isEnabled forks RuleFork.retarget) (hzero : height % 2016 = 0) :
    data.workRequiredRetarget .btc = some (scaledTarget .btc (chain (height - 1)).bits
      (chain (height - 1)).timestamp (chain (height - 2016)).timestamp) := by
  have hstart : retargetHeight .btc height forks = height - 2016 := by
    simp [retargetHeight, hret, hzero]
  simp only [Data.workRequiredRetarget, Data.retargetTimespan, h.bitsHigh, h.timestampHigh hpos,
    h.retarget hret, hstart, scaledTarget]
  rfl

theorem History.easyWorkRequired (hpos : 0 < height)
    (hlt : height < 2 ^ 64) (hret : isEnabled forks RuleFork.retarget)
    (heasy : isEnabled forks RuleFork.easyBlocks) (hzero : height % 2016 ≠ 0) :
    data.easyWorkRequired .btc false = some
      (if data.timestampSelf > domainConstrain32
          (((chain (height - 1)).timestamp.toNat : Int) + easySpacingSeconds .btc) then
        retargetProofOfWorkLimit .btc
      else lastNonLimit .btc (fun height => (chain height).bits) (height - 1)) := by
  obtain ⟨count, -, hle, hreach, hbits⟩ := h.bits
  have hsearch : Data.easyBits .btc data.height data.bitsOrdered.reverse =
      some (lastNonLimit .btc (fun height => (chain height).bits) (height - 1)) := by
    rw [h.height_eq, hbits]
    exact easyBits_window hlt hle (hreach heasy hret) hzero
  simp only [Data.easyWorkRequired, Data.easyTimeLimit, h.timestampHigh hpos, hsearch]
  simp only [bind_eq_bind, bind_some, pure_def, Bool.false_eq_true, if_false, getD_some]
  split <;> rfl

/-- Values with a history give the required work. -/
theorem History.workRequired (hpos : 0 < height)
    (hlt : height < 2 ^ 64) :
    data.workRequired .btc forks = some (requiredWork chain forks height data.timestampSelf) := by
  have hheight : height ≠ 0 := ne_of_gt hpos
  simp only [Data.workRequired, requiredWork, h.height_eq, if_neg hheight, h.bitsHigh, reduceCtorEq,
    decide_false, Bool.false_and, Bool.not_false, Bool.and_true, isRetargetHeight_eq_true_iff]
  cases hret : isEnabled forks RuleFork.retarget with
  | false => simp
  | true =>
    simp only [Bool.not_true, Bool.false_eq_true, if_false]
    by_cases hzero : height % 2016 = 0
    · rw [if_pos hzero, if_pos hzero, h.workRequiredRetarget hpos hret hzero]
    · rw [if_neg hzero, if_neg hzero]
      cases heasy : isEnabled forks RuleFork.easyBlocks with
      | false => simp
      | true =>
        simp only [if_true]
        exact h.easyWorkRequired hpos hlt hret heasy hzero

/-- Values with a history give the median time past. -/
theorem History.medianTimePast : data.medianTimePast .btc true = medianTime chain height := by
  have hsubset : timestampsSubset .btc data.timestampOrdered true = data.timestampOrdered := by
    have hlen : data.timestampOrdered.length ≤ 11 := by
      rw [h.timestamps, length_window]
      exact min_le_right _ _
    have hposition : timestampsPosition .btc data.timestampOrdered true = 0 := by
      simp [timestampsPosition, not_lt.mpr hlen]
    rw [timestampsSubset, hposition, List.drop_zero]
    exact List.take_of_length_le hlen
  rw [h.timestamps] at hsubset
  simp only [Data.medianTimePast, medianTime, h.timestamps, hsubset]

end

theorem retargetHeight_lt (hpos : 0 < height) (hlt : height < 2 ^ 64)
    (hret : isEnabled forks retarget) :
    retargetHeight .btc height forks < Map.unrequested := by
  simp only [retargetHeight, hret, Bool.not_true, Bool.false_eq_true, if_false,
    isRetargetHeight_eq_true_iff, retargetingInterval_eq, retargetDistance, Map.unrequested,
    maxUint64]
  split <;> omega

theorem bitsCount_pos (hpos : 0 < height) : 0 < bitsCount .btc height forks := by
  simp only [bitsCount, retargetingInterval_eq, reduceCtorEq, if_false]
  split <;> omega

theorem bitsCount_le (hpos : 0 < height) : bitsCount .btc height forks ≤ height := by
  simp only [bitsCount, retargetingInterval_eq, reduceCtorEq, if_false]
  split <;> omega

/-- On testnet the requested bits reach back to the last retarget height. -/
theorem bitsCount_reach (height : Nat) (heasy : isEnabled forks easyBlocks)
    (hret : isEnabled forks retarget) :
    height % 2016 ≤ bitsCount .btc height forks := by
  simp only [bitsCount, heasy, hret, Bool.and_self, Bool.true_and, Bool.not_eq_true',
    Bool.eq_false_iff, ne_eq, isRetargetHeight_eq_true_iff, retargetingInterval_eq,
    reduceCtorEq, if_false]
  split <;> omega

/-- Gathered values follow the chain. -/
theorem gather_follows (hashes : Hashes) (chain : Nat → Header) (forks unspecified : UInt32)
    (hpos : 0 < height) (hlt : height < 2 ^ 64) :
    Follows hashes chain forks height
      (gather hashes chain unspecified height (getMap .btc height forks)) := by
  have hheight : height ≠ 0 := ne_of_gt hpos
  have hbelow : height - 1 + 1 = height := Nat.sub_add_cancel hpos
  simp only [gather, getMap, if_neg hheight, hbelow]
  exact {
    height_eq := rfl
    bits := ⟨bitsCount .btc height forks, bitsCount_pos hpos, bitsCount_le hpos, bitsCount_reach height,
      rfl⟩
    versions := rfl
    timestamps := rfl
    retarget := fun hret =>
      if_neg (ne_of_lt (retargetHeight_lt hpos hlt hret))
    hash := rfl
    bitsSelf := rfl
    versionSelf := rfl
    timestampSelf := rfl }

/-- The retarget timestamp of the next height is that of the block at a retarget height, and else
the one at hand. -/
theorem retargetHeight_succ (hret : isEnabled forks retarget) :
    retargetHeight .btc (height + 1) forks =
      if height % 2016 = 0 then height else retargetHeight .btc height forks := by
  simp only [retargetHeight, hret, Bool.not_true, Bool.false_eq_true, if_false,
    isRetargetHeight_eq_true_iff, retargetingInterval_eq, retargetDistance]
  split_ifs <;> omega

theorem versionCount_succ (height : Nat) (forks : UInt32) :
    versionCount (height + 1) forks =
      if versionCount (height + 1) forks ≤ versionCount height forks then versionCount height forks
      else versionCount height forks + 1 := by
  simp only [versionCount]
  split_ifs <;> omega

/-- The queue of bits keeps reaching back to the last retarget height. -/
theorem bits_succ {count : Nat} (hpos : 0 < count) (hle : count ≤ height)
    (hreach : isEnabled forks easyBlocks → isEnabled forks retarget → height % 2016 ≤ count) :
    let next := if bitsCount .btc (height + 1) forks ≤ count then count else count + 1
    0 < next ∧ next ≤ height + 1 ∧ (isEnabled forks easyBlocks = true →
      isEnabled forks retarget = true → (height + 1) % 2016 ≤ next) := by
  intro next
  refine ⟨?_, ?_, ?_⟩
  · simp only [next]
    split <;> omega
  · simp only [next]
    split <;> omega
  · intro heasy hret
    have hrequest := bitsCount_reach (height + 1) heasy hret
    have hcount := hreach heasy hret
    simp only [next]
    split <;> omega

theorem toPool_btc (data : Data) (forks : UInt32) :
    data.toPool .btc forks = some
      { data with
        height := (data.height + 1) % 2 ^ 64
        hash := nullHash
        bitsSelf := workLimit .btc (isEnabled forks retarget)
        bitsOrdered := enqueue data.bitsOrdered data.bitsSelf
          (bitsCount .btc ((data.height + 1) % 2 ^ 64) forks)
        versionSelf := signalVersion forks
        versionOrdered := enqueue data.versionOrdered data.versionSelf
          (versionCount ((data.height + 1) % 2 ^ 64) forks)
        timestampSelf := 0xffffffff
        timestampRetarget :=
          if isEnabled forks retarget &&
              isRetargetHeight .btc (decrement ((data.height + 1) % 2 ^ 64)) then data.timestampSelf
          else data.timestampRetarget
        timestampOrdered := enqueue data.timestampOrdered data.timestampSelf
          (timestampCount .btc ((data.height + 1) % 2 ^ 64)) } := by
  simp only [Data.toPool]
  split <;> rfl

/-- The pool values above values that follow the chain have a history and the same cached hashes. -/
theorem Follows.toPool (h : Follows hashes chain forks height data) (hlt : height + 1 < 2 ^ 64) :
    ∃ pool, data.toPool .btc forks = some pool ∧ History chain forks (height + 1) pool ∧
      pool.allowCollisionsHash = data.allowCollisionsHash ∧
      pool.bip9Bit0Hash = data.bip9Bit0Hash ∧ pool.bip9Bit1Hash = data.bip9Bit1Hash := by
  have hnext : (data.height + 1) % 2 ^ 64 = height + 1 := by
    rw [h.height_eq, Nat.mod_eq_of_lt hlt]
  have hlast : decrement (height + 1) = height := decrement_eq (Nat.succ_pos height) hlt
  refine ⟨_, toPool_btc data forks, ?_, rfl, rfl, rfl⟩
  rw [hnext, hlast]
  exact {
    height_eq := rfl
    bits := by
      obtain ⟨count, hpos, hle, hreach, hbits⟩ := h.bits
      obtain ⟨hpos', hle', hreach'⟩ := bits_succ hpos hle hreach
      exact ⟨_, hpos', hle', hreach', by rw [hbits, h.bitsSelf, enqueue_window _ _ hle]⟩
    versions := by
      have hle : versionCount height forks ≤ height := by
        simp only [versionCount]
        split <;> omega
      rw [h.versions, h.versionSelf, enqueue_window _ _ hle, ← versionCount_succ]
    timestamps := by
      have hcount : (if timestampCount .btc (height + 1) ≤ min height 11 then min height 11
          else min height 11 + 1) = min (height + 1) 11 := by
        simp only [timestampCount, reduceCtorEq, if_false, medianTimePastInterval]
        split <;> omega
      rw [h.timestamps, h.timestampSelf, enqueue_window _ _ (min_le_left _ _), hcount]
    retarget := by
      intro hret
      rw [retargetHeight_succ hret]
      simp only [hret, Bool.true_and, isRetargetHeight_eq_true_iff]
      split
      · exact h.timestampSelf
      · exact h.retarget hret }

/-- Pool values with a history follow the chain when they take its header. -/
theorem History.withHeader (hashes : Hashes) (h : History chain forks height data) :
    Follows hashes chain forks height (data.withHeader .btc hashes forks (chain height)) where
  height_eq := h.height_eq
  bits := h.bits
  versions := h.versions
  timestamps := h.timestamps
  retarget := h.retarget
  hash := rfl
  bitsSelf := rfl
  versionSelf := rfl
  timestampSelf := rfl

end

section

variable (hashes : Hashes) (chain : Nat → Header) (forks : UInt32) (checkpoints : List Checkpoint)
  (times : ActivationTimes)

/-- A state constructed from values that follow the chain. -/
structure StateFollows (height : Nat) (state : ChainState) : Prop where
  data : Follows hashes chain forks height state.data
  constructed : construct .btc state.data forks checkpoints times = some state

variable {hashes chain forks checkpoints times} {height : Nat} {data : Data} {state : ChainState}

/-- What a constructed state holds. -/
structure Constructed (currency : Currency) (data : Data) (forks : UInt32)
    (checkpoints : List Checkpoint) (times : ActivationTimes) (state : ChainState) : Prop where
  data_eq : state.data = data
  forks_eq : state.forks = forks
  checkpoints_eq : state.checkpoints = checkpoints
  times_eq : state.activationTimes = times
  active_eq : state.active = data.activation currency times forks
  medianTimePast_eq : state.medianTimePast = data.medianTimePast currency true
  workRequired_eq : data.workRequired currency forks = some state.workRequired

theorem constructed_of_construct {currency : Currency}
    (h : construct currency data forks checkpoints times = some state) :
    Constructed currency data forks checkpoints times state := by
  obtain ⟨work, hwork, hstate⟩ := bind_eq_some_iff.mp h
  cases hstate
  exact ⟨rfl, rfl, rfl, rfl, rfl, rfl, hwork⟩

/-- States can be constructed from values with a history. -/
theorem History.construct (h : History chain forks height data) (hpos : 0 < height)
    (hlt : height < 2 ^ 64) (checkpoints : List Checkpoint) (times : ActivationTimes) :
    ∃ state, ChainState.construct .btc data forks checkpoints times = some state ∧
      state.data = data := by
  have hwork := h.workRequired hpos hlt
  simp only [ChainState.construct, hwork, bind_eq_bind, bind_some, pure_def]
  exact ⟨_, rfl, rfl⟩

theorem StateFollows.workRequired
    (h : StateFollows hashes chain forks checkpoints times height state)
    (hpos : 0 < height) (hlt : height < 2 ^ 64) :
    state.workRequired = requiredWork chain forks height (chain height).timestamp := by
  have hwork := (constructed_of_construct h.constructed).workRequired_eq
  rw [h.data.workRequired hpos hlt, h.data.timestampSelf] at hwork
  exact (Option.some.inj hwork).symm

theorem StateFollows.medianTimePast
    (h : StateFollows hashes chain forks checkpoints times height state) :
    state.medianTimePast = medianTime chain height := by
  rw [(constructed_of_construct h.constructed).medianTimePast_eq, h.data.medianTimePast]

/-- The cached hashes behind a header: its own at a checkpoint height, and else those at hand. -/
structure CachesNext (hashes : Hashes) (forks : UInt32) (height : Nat) (header : Header)
    (data next : Data) : Prop where
  allowCollisionsHash : next.allowCollisionsHash =
    if allowCollisionsAtHeight .btc (Configuration.ofForks forks).mainnet
      (Configuration.ofForks forks).testnet height then header.hash hashes
    else data.allowCollisionsHash
  bip9Bit0Hash : next.bip9Bit0Hash =
    if bip9Bit0ActiveAtHeight .btc (Configuration.ofForks forks).mainnet
      (Configuration.ofForks forks).testnet height then header.hash hashes
    else data.bip9Bit0Hash
  bip9Bit1Hash : next.bip9Bit1Hash =
    if bip9Bit1ActiveAtHeight .btc (Configuration.ofForks forks).mainnet
      (Configuration.ofForks forks).testnet height then header.hash hashes
    else data.bip9Bit1Hash

/-- Either route leads from a state that follows the chain to the next. -/
theorem StateFollows.promote (h : StateFollows hashes chain forks checkpoints times height state)
    (hlt : height + 1 < 2 ^ 64) (route : Route) :
    ∃ next, ChainState.promote .btc hashes route state (chain (height + 1)) = some next ∧
      StateFollows hashes chain forks checkpoints times (height + 1) next ∧
      CachesNext hashes forks (height + 1) (chain (height + 1)) state.data next.data := by
  have hstate := constructed_of_construct h.constructed
  obtain ⟨pool, hpool, hhist, hcoll, hbit0, hbit1⟩ := h.data.toPool hlt
  have hfollows := hhist.withHeader hashes
  obtain ⟨next, hnext, hdata⟩ := hfollows.construct (Nat.succ_pos height) hlt checkpoints times
  refine ⟨next, ?_, ⟨?_, ?_⟩, ?_⟩
  · cases route with
    | header =>
      simp only [ChainState.promote, ofParent, Data.toHeader, hstate.forks_eq,
        hstate.checkpoints_eq, hstate.times_eq, hpool, map_some, bind_eq_bind, bind_some]
      exact hnext
    | pool transactions =>
      obtain ⟨top, htop, hpooled⟩ := hhist.construct (Nat.succ_pos height) hlt checkpoints times
      have htop' := constructed_of_construct htop
      simp only [ChainState.promote, ofTop, hstate.forks_eq, hstate.checkpoints_eq,
        hstate.times_eq, hpool, bind_eq_bind, bind_some, htop, ofPool, Data.toBlock,
        hpooled, htop'.forks_eq, htop'.checkpoints_eq, htop'.times_eq]
      exact hnext
  · rw [hdata]
    exact hfollows
  · rw [hdata]
    exact hnext
  · rw [hdata]
    constructor
    · rw [← hcoll, ← hhist.height_eq]
      rfl
    · rw [← hbit0, ← hhist.height_eq]
      rfl
    · rw [← hbit1, ← hhist.height_eq]
      rfl

/-- Any number of steps lead from a state that follows the chain to another, and keep what each step
keeps. -/
theorem StateFollows.promoteAll (Inv : Nat → Data → Prop)
    (hstep : ∀ height data next, CachesNext hashes forks (height + 1) (chain (height + 1)) data next →
      Inv height data → Inv (height + 1) next)
    (h : StateFollows hashes chain forks checkpoints times height state) (hinv : Inv height state.data)
    (routes : List Route) (hlt : height + routes.length < 2 ^ 64) :
    ∃ last, ChainState.promoteAll .btc hashes chain routes height state = some last ∧
      StateFollows hashes chain forks checkpoints times (height + routes.length) last ∧
      Inv (height + routes.length) last.data := by
  induction routes generalizing height state with
  | nil => exact ⟨state, rfl, h, hinv⟩
  | cons route routes ih =>
    rw [List.length_cons] at hlt ⊢
    obtain ⟨next, hnext, hfollows, hcaches⟩ := h.promote (by omega) route
    obtain ⟨last, hlast, hreached⟩ := ih hfollows (hstep _ _ _ hcaches hinv) (by omega)
    refine ⟨last, ?_, ?_⟩
    · simp only [ChainState.promoteAll, hnext, bind_eq_bind, bind_some, hlast]
    · rwa [add_comm routes.length, ← add_assoc]

/-- The rule that is not configurable requests nothing. -/
theorem getMap_or_allowCollisions (height : Nat) (forks : UInt32) :
    getMap .btc height (forks ||| allowCollisions) = getMap .btc height forks := by
  have hrule : ∀ rule, rule &&& allowCollisions = 0 →
      isEnabled (forks ||| allowCollisions) rule = isEnabled forks rule := by
    intro rule hdisjoint
    rw [isEnabled_or, isEnabled, isEnabled, hdisjoint]
    simp
  simp only [getMap, bitsCount, versionCount, retargetHeight, collisionHeight, bip9Bit0Height,
    bip9Bit1Height, activationHeight, bip9Bit1ActivationHeight, hrule easyBlocks rfl,
    hrule retarget rfl, hrule bip90Rule rfl, hrule bip34Activations rfl]

/-- The state built from scratch follows the chain. -/
theorem fromScratch_follows (hashes : Hashes) (chain : Nat → Header) (unspecified forks : UInt32)
    (checkpoints : List Checkpoint) (times : ActivationTimes) (hpos : 0 < height)
    (hlt : height < 2 ^ 64) :
    ∃ state, fromScratch .btc hashes chain unspecified checkpoints forks times height = some state ∧
      StateFollows hashes chain (forks ||| allowCollisions) checkpoints times height state ∧
      state.data = gather hashes chain unspecified height
        (getMap .btc height (forks ||| allowCollisions)) := by
  have hfollows := gather_follows hashes chain (forks ||| allowCollisions) unspecified hpos hlt
  obtain ⟨state, hstate, hdata⟩ := hfollows.construct hpos hlt checkpoints times
  refine ⟨state, ?_, ⟨by rwa [hdata], by rwa [hdata]⟩, hdata⟩
  rw [fromScratch, ofData, ← getMap_or_allowCollisions]
  exact hstate

/-- A state that is promoted any number of times, along any routes, has the required work and the
median time past of the state that is built from scratch at the height it has reached. -/
theorem promoteAll_agrees_fromScratch (hashes : Hashes) (chain : Nat → Header)
    (unspecified forks : UInt32) (checkpoints : List Checkpoint) (times : ActivationTimes)
    (start : Nat) (routes : List Route) (hpos : 1 ≤ start) (hlt : start + routes.length < 2 ^ 64) :
    ∃ first promoted scratch,
      fromScratch .btc hashes chain unspecified checkpoints forks times start = some first ∧
      promoteAll .btc hashes chain routes start first = some promoted ∧
      fromScratch .btc hashes chain unspecified checkpoints forks times (start + routes.length) =
        some scratch ∧
      promoted.height = start + routes.length ∧
      promoted.workRequired = scratch.workRequired ∧
      promoted.medianTimePast = scratch.medianTimePast := by
  obtain ⟨first, hfirst, hfollows, -⟩ := fromScratch_follows hashes chain unspecified forks
    checkpoints times hpos (by omega)
  obtain ⟨promoted, hpromoted, hreached, -⟩ :=
    StateFollows.promoteAll (fun _ _ => True) (fun _ _ _ _ => id) hfollows trivial routes hlt
  obtain ⟨scratch, hscratch, hbuilt, -⟩ := fromScratch_follows hashes chain unspecified forks
    checkpoints times (by omega) hlt
  refine ⟨first, promoted, scratch, hfirst, hpromoted, hscratch, hreached.data.height_eq, ?_, ?_⟩
  · rw [hreached.workRequired (by omega) hlt, hbuilt.workRequired (by omega) hlt]
  · rw [hreached.medianTimePast, hbuilt.medianTimePast]

/-- A chain of testnet headers that claim the limit except at retarget heights. -/
def sampleChain (height : Nat) : Header where
  version := 4
  previousBlockHash := nullHash
  merkle := nullHash
  timestamp := UInt32.ofNat (600 * height)
  bits := if height % 2016 = 0 then 0x1c0fffff else 0x1d00ffff
  nonce := 0

/-- A testnet state promoted over a retarget height, by header and then with a block. -/
theorem promoteAll_agrees_fromScratch_testnet :
    ∃ first promoted scratch,
      fromScratch .btc .ofSha256 sampleChain 0 [] (easyBlocks ||| retarget) {} 2015 = some first ∧
      promoteAll .btc .ofSha256 sampleChain [.header, .pool []] 2015 first = some promoted ∧
      fromScratch .btc .ofSha256 sampleChain 0 [] (easyBlocks ||| retarget) {} 2017 = some scratch ∧
      promoted.height = 2017 ∧ promoted.workRequired = scratch.workRequired ∧
      promoted.medianTimePast = scratch.medianTimePast :=
  promoteAll_agrees_fromScratch .ofSha256 sampleChain 0 (easyBlocks ||| retarget)
    [] {} 2015 [.header, .pool []] (by decide) (by decide)

end

end ChainState

end BitprimCore
