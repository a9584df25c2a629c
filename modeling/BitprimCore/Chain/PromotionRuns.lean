import BitprimCore.Chain.Promotion

/-!
# Runs of promotion

The states that are reached over a chain of headers: one built from scratch at a start height, and
every state promoted from it, to the pool above a block, from the pool to a block, or from a block to
the next header. In every build the queue of timestamps of a reached state is the window that
would be gathered at its height. In the `btc` build the other queues hold what is needed, and no
step of a run fails.
-/

namespace BitprimCore.ChainState

open Option

open SlidingWindow

variable {stage : Stage}

/-- A state is that of a block, or that of the pool above one. -/
inductive Stage
  | pool
  | block
  deriving DecidableEq, Repr

section

variable (currency : Currency) (hashes : Hashes) (chain : Nat → Header) (unspecified : UInt32)
  (checkpoints : List Checkpoint) (forks : UInt32) (times : ActivationTimes) (start : Nat)

/-- The states reached over a chain from the state that is built from scratch at a height. -/
inductive Reached : Stage → (height : Nat) → ChainState → Prop
  | scratch {state : ChainState}
      (hstate : fromScratch currency hashes chain unspecified checkpoints forks times start =
        some state) : Reached .block start state
  | toPool {height : Nat} {state pool : ChainState} (hreached : Reached .block height state)
      (hlt : height + 1 < 2 ^ 64) (hpool : ofTop currency state = some pool) :
      Reached .pool (height + 1) pool
  | toBlock {height : Nat} {pool state : ChainState} {block : Block}
      (hreached : Reached .pool height pool) (hheader : block.header = chain height)
      (hstate : ofPool currency hashes pool block = some state) : Reached .block height state
  | toHeader {height : Nat} {state next : ChainState} (hreached : Reached .block height state)
      (hlt : height + 1 < 2 ^ 64)
      (hnext : ofParent currency hashes state (chain (height + 1)) = some next) :
      Reached .block (height + 1) next

end

section

variable {currency : Currency} {hashes : Hashes} {chain : Nat → Header} {unspecified : UInt32}
  {checkpoints : List Checkpoint} {forks : UInt32} {times : ActivationTimes} {start : Nat}

/-- What promotion to the pool does to the height and the timestamps. -/
theorem toPool_eq_some {data pool : Data} (h : data.toPool currency forks = some pool) :
    pool.height = (data.height + 1) % 2 ^ 64 ∧
      pool.timestampOrdered = enqueue data.timestampOrdered data.timestampSelf
        (timestampCount currency ((data.height + 1) % 2 ^ 64)) := by
  simp only [Data.toPool] at h
  split at h
  · cases currency with
    | ltc =>
      simp only at h
      split at h
      · cases h
      · obtain ⟨retarget, -, hpool⟩ := bind_eq_some_iff.mp h
        cases hpool
        exact ⟨rfl, rfl⟩
    | btc =>
      cases h
      exact ⟨rfl, rfl⟩
    | bch =>
      cases h
      exact ⟨rfl, rfl⟩
  · cases h
    exact ⟨rfl, rfl⟩

/-- The timestamps of a state are the window that is gathered at its height. -/
structure Timed (currency : Currency) (chain : Nat → Header) (stage : Stage) (height : Nat)
    (state : ChainState) : Prop where
  lt : height < 2 ^ 64
  height_eq : state.data.height = height
  timestamps : state.data.timestampOrdered =
    window (fun height => (chain height).timestamp) height (timestampCount currency height)
  timestampSelf : stage = .block → state.data.timestampSelf = (chain height).timestamp
  medianTimePast : state.medianTimePast = state.data.medianTimePast currency true

/-- A window of timestamps takes the next one. -/
theorem enqueue_timestamps (currency : Currency) (chain : Nat → Header) (height : Nat) :
    enqueue (window (fun height => (chain height).timestamp) height (timestampCount currency height))
        (chain height).timestamp (timestampCount currency (height + 1)) =
      window (fun height => (chain height).timestamp) (height + 1)
        (timestampCount currency (height + 1)) := by
  have hle : timestampCount currency height ≤ height := min_le_left _ _
  have hcount : (if timestampCount currency (height + 1) ≤ timestampCount currency height then
      timestampCount currency height else timestampCount currency height + 1) =
      timestampCount currency (height + 1) := by
    unfold timestampCount
    split_ifs <;> omega
  rw [enqueue_window (fun height => (chain height).timestamp) _ hle, hcount]

variable {height : Nat} {state : ChainState}

/-- Promotion to the next height keeps the window. -/
theorem Timed.toPool {pool : Data} (h : Timed currency chain .block height state)
    (hlt : height + 1 < 2 ^ 64) (hpool : state.data.toPool currency forks = some pool) :
    pool.height = height + 1 ∧ pool.timestampOrdered =
      window (fun height => (chain height).timestamp) (height + 1)
        (timestampCount currency (height + 1)) := by
  obtain ⟨hheight, htimes⟩ := toPool_eq_some hpool
  rw [h.height_eq, Nat.mod_eq_of_lt hlt] at hheight htimes
  refine ⟨hheight, ?_⟩
  rw [htimes, h.timestamps, h.timestampSelf rfl, enqueue_timestamps]

theorem gather_timestampOrdered (height : Nat) :
    (gather hashes chain unspecified height (getMap currency height forks)).timestampOrdered =
      window (fun height => (chain height).timestamp) height (timestampCount currency height) := by
  cases height with
  | zero => simp [gather, getMap, timestampCount, window]
  | succ height => simp [gather, getMap]

theorem gather_timestampSelf (height : Nat) :
    (gather hashes chain unspecified height (getMap currency height forks)).timestampSelf =
      (chain height).timestamp := by
  cases height with
  | zero => rfl
  | succ height => rfl

/-- A state constructed over values that follow the timestamps follows them. -/
theorem Constructed.timed {data : Data}
    (h : Constructed currency data forks checkpoints times state) (hlt : height < 2 ^ 64)
    (hheight : data.height = height) (htimes : data.timestampOrdered =
      window (fun height => (chain height).timestamp) height (timestampCount currency height))
    (hself : stage = .block → data.timestampSelf = (chain height).timestamp) :
    Timed currency chain stage height state where
  lt := hlt
  height_eq := by rw [h.data_eq, hheight]
  timestamps := by rw [h.data_eq, htimes]
  timestampSelf := by
    rw [h.data_eq]
    exact hself
  medianTimePast := by rw [h.data_eq, h.medianTimePast_eq]

/-- The timestamps of every reached state are those of its height. -/
theorem Reached.timed (hstart : start < 2 ^ 64) (h : Reached currency hashes chain unspecified
      checkpoints forks times start stage height state) :
    Timed currency chain stage height state := by
  induction h with
  | @scratch state hstate =>
    exact (constructed_of_construct hstate).timed hstart rfl (gather_timestampOrdered start)
      fun _ => gather_timestampSelf start
  | @toPool height state pool _ hlt hpool ih =>
    obtain ⟨data, hdata, hbuilt⟩ := bind_eq_some_iff.mp hpool
    obtain ⟨hheight, htimes⟩ := ih.toPool hlt hdata
    exact (constructed_of_construct hbuilt).timed hlt hheight htimes (by rintro ⟨⟩)
  | @toBlock height pool state block _ hheader hstate ih =>
    have hself : (pool.data.toBlock currency hashes pool.forks block).timestampSelf =
        (chain height).timestamp := by
      rw [← hheader]
      rfl
    exact (constructed_of_construct hstate).timed ih.lt ih.height_eq ih.timestamps fun _ => hself
  | @toHeader height state next _ hlt hnext ih =>
    obtain ⟨data, hdata, hbuilt⟩ := bind_eq_some_iff.mp hnext
    obtain ⟨pool, hpool, rfl⟩ := map_eq_some_iff.mp hdata
    obtain ⟨hheight, htimes⟩ := ih.toPool hlt hpool
    exact (constructed_of_construct hbuilt).timed hlt hheight htimes fun _ => rfl

end

section

variable {hashes : Hashes} {chain : Nat → Header} {unspecified : UInt32} {forks : UInt32}
  {checkpoints : List Checkpoint} {times : ActivationTimes} {start height : Nat} {data : Data}
  {state pool : ChainState}

/-- Values that can be promoted: those gathered for the first block, or values that follow the
chain. -/
def Promotable (hashes : Hashes) (chain : Nat → Header) (unspecified forks : UInt32) (height : Nat)
    (data : Data) : Prop :=
  height = 0 ∧ data = gather hashes chain unspecified 0 (getMap .btc 0 forks) ∨
    0 < height ∧ Follows hashes chain forks height data

/-- The queues of the pool above the first block hold the values of that block. -/
theorem toPool_genesis (hashes : Hashes) (chain : Nat → Header) (unspecified forks : UInt32) :
    ∃ pool, (gather hashes chain unspecified 0 (getMap .btc 0 forks)).toPool .btc forks = some pool ∧
      History chain forks 1 pool := by
  refine ⟨_, toPool_btc _ forks, ?_⟩
  have hnext : (0 + 1) % 2 ^ 64 = 1 := rfl
  have hlast : decrement 1 = 0 := rfl
  have hbits : bitsCount .btc 1 forks = 1 := by
    simp [bitsCount]
  simp only [gather, getMap, if_true, hnext, hlast, hbits]
  exact {
    height_eq := rfl
    bits := ⟨1, Nat.one_pos, le_refl 1, fun _ _ => by decide, rfl⟩
    versions := by
      have hcount : versionCount 1 forks = 0 ∨ versionCount 1 forks = 1 := by
        unfold versionCount
        have hsample : ∀ mainnet, 1 ≤ versionSampleSize mainnet := by decide
        split
        · exact .inl rfl
        · exact .inr (min_eq_left (hsample _))
      rcases hcount with hcount | hcount <;> simp [hcount, enqueue, window]
    timestamps := rfl
    retarget := by
      intro hret
      have hstart : retargetHeight .btc 1 forks = 0 := by
        simp [retargetHeight, hret, isRetargetHeight, retargetDistance]
      simp [hret, hstart, isRetargetHeight, retargetDistance] }

theorem Promotable.toPool (h : Promotable hashes chain unspecified forks height data)
    (hlt : height + 1 < 2 ^ 64) :
    ∃ pool, data.toPool .btc forks = some pool ∧ History chain forks (height + 1) pool := by
  rcases h with ⟨rfl, rfl⟩ | ⟨-, hfollows⟩
  · exact toPool_genesis hashes chain unspecified forks
  · obtain ⟨pool, hpool, hhist, -⟩ := hfollows.toPool hlt
    exact ⟨pool, hpool, hhist⟩

/-- A state whose values are sound at its stage. -/
structure SoundState (hashes : Hashes) (chain : Nat → Header) (unspecified forks : UInt32)
    (checkpoints : List Checkpoint) (times : ActivationTimes) (stage : Stage) (height : Nat)
    (state : ChainState) : Prop where
  lt : height < 2 ^ 64
  constructed : Constructed .btc state.data forks checkpoints times state
  pool : stage = .pool → 0 < height ∧ History chain forks height state.data
  block : stage = .block → Promotable hashes chain unspecified forks height state.data

/-- A state constructed over the values of a pool is sound. -/
theorem Constructed.sound_pool (h : Constructed .btc data forks checkpoints times state)
    (hlt : height < 2 ^ 64) (hpos : 0 < height) (hhist : History chain forks height data) :
    SoundState hashes chain unspecified forks checkpoints times .pool height state where
  lt := hlt
  constructed := h.data_eq ▸ h
  pool := by
    rw [h.data_eq]
    exact fun _ => ⟨hpos, hhist⟩
  block := by rintro ⟨⟩

/-- A state constructed over values that can be promoted is sound. -/
theorem Constructed.sound_block (h : Constructed .btc data forks checkpoints times state)
    (hlt : height < 2 ^ 64) (hpromotable : Promotable hashes chain unspecified forks height data) :
    SoundState hashes chain unspecified forks checkpoints times .block height state where
  lt := hlt
  constructed := h.data_eq ▸ h
  pool := by rintro ⟨⟩
  block := by
    rw [h.data_eq]
    exact fun _ => hpromotable

/-! The steps of promotion from a sound state, over the parameters of the run. -/

theorem SoundState.ofTop_eq
    (h : SoundState hashes chain unspecified forks checkpoints times stage height state) :
    ofTop .btc state = (state.data.toPool .btc forks).bind fun data =>
      construct .btc data forks checkpoints times := by
  rw [ofTop, h.constructed.forks_eq, h.constructed.checkpoints_eq, h.constructed.times_eq]
  rfl

theorem SoundState.ofPool_eq {block : Block}
    (h : SoundState hashes chain unspecified forks checkpoints times stage height pool)
    (hheader : block.header = chain height) :
    ofPool .btc hashes pool block =
      construct .btc (pool.data.withHeader .btc hashes forks (chain height)) forks checkpoints
        times := by
  rw [ofPool, h.constructed.forks_eq, h.constructed.checkpoints_eq, h.constructed.times_eq,
    Data.toBlock, hheader]

theorem SoundState.ofParent_eq (header : Header)
    (h : SoundState hashes chain unspecified forks checkpoints times stage height state) :
    ofParent .btc hashes state header =
      ((state.data.toPool .btc forks).map fun data =>
        data.withHeader .btc hashes forks header).bind fun data =>
          construct .btc data forks checkpoints times := by
  rw [ofParent, h.constructed.forks_eq, h.constructed.checkpoints_eq, h.constructed.times_eq]
  rfl

/-- Every reached state is sound. -/
theorem Reached.sound (hstart : start < 2 ^ 64)
    (h : Reached .btc hashes chain unspecified checkpoints forks times start stage height state) :
    SoundState hashes chain unspecified (forks ||| RuleFork.allowCollisions) checkpoints times stage
      height state := by
  induction h with
  | @scratch state hstate =>
    apply (constructed_of_construct hstate).sound_block hstart
    rw [← getMap_or_allowCollisions]
    rcases Nat.eq_zero_or_pos start with rfl | hpos
    · exact .inl ⟨rfl, rfl⟩
    · exact .inr ⟨hpos, gather_follows hashes chain _ unspecified hpos hstart⟩
  | @toPool height state pool _ hlt hpool ih =>
    obtain ⟨data, hdata, hhist⟩ := (ih.block rfl).toPool hlt
    rw [ih.ofTop_eq, hdata, bind_some] at hpool
    exact (constructed_of_construct hpool).sound_pool hlt (Nat.succ_pos height) hhist
  | @toBlock height pool state block _ hheader hstate ih =>
    rw [ih.ofPool_eq hheader] at hstate
    apply (constructed_of_construct hstate).sound_block ih.lt
    exact .inr ⟨(ih.pool rfl).1, (ih.pool rfl).2.withHeader hashes⟩
  | @toHeader height state next _ hlt hnext ih =>
    obtain ⟨data, hdata, hhist⟩ := (ih.block rfl).toPool hlt
    rw [ih.ofParent_eq, hdata, map_some, bind_some] at hnext
    apply (constructed_of_construct hnext).sound_block hlt
    exact .inr ⟨Nat.succ_pos height, hhist.withHeader hashes⟩

theorem SoundState.exists_ofTop
    (h : SoundState hashes chain unspecified forks checkpoints times .block height state)
    (hlt : height + 1 < 2 ^ 64) : ∃ pool, ofTop .btc state = some pool := by
  obtain ⟨data, hdata, hhist⟩ := (h.block rfl).toPool hlt
  obtain ⟨pool, hpool, -⟩ := hhist.construct (Nat.succ_pos height) hlt checkpoints times
  exact ⟨pool, by rw [h.ofTop_eq, hdata, bind_some, hpool]⟩

theorem SoundState.exists_ofPool
    (h : SoundState hashes chain unspecified forks checkpoints times .pool height pool)
    {block : Block} (hheader : block.header = chain height) :
    ∃ state, ofPool .btc hashes pool block = some state := by
  obtain ⟨hpos, hhist⟩ := h.pool rfl
  obtain ⟨state, hstate, -⟩ := (hhist.withHeader hashes).construct hpos h.lt checkpoints times
  exact ⟨state, by rw [h.ofPool_eq hheader, hstate]⟩

theorem SoundState.exists_ofParent
    (h : SoundState hashes chain unspecified forks checkpoints times .block height state)
    (hlt : height + 1 < 2 ^ 64) :
    ∃ next, ofParent .btc hashes state (chain (height + 1)) = some next := by
  obtain ⟨data, hdata, hhist⟩ := (h.block rfl).toPool hlt
  obtain ⟨next, hnext, -⟩ := (hhist.withHeader hashes).construct (Nat.succ_pos height) hlt
    checkpoints times
  exact ⟨next, by rw [h.ofParent_eq, hdata, map_some, bind_some, hnext]⟩

end

end BitprimCore.ChainState
