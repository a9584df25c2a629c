import BitprimCore.Chain.PromotionRuns

/-!
# Easy work on testnet

Off the retarget heights a testnet block may claim the limit when it comes late. Else it must claim
the bits of the nearest block below that does not claim the limit or is at a retarget height. The
search for that block goes back through the queue of bits. In every state that is reached over a
chain the queue reaches back to the last retarget height, so the search ends with a block.
-/

namespace BitprimCore.ChainState

open SlidingWindow

/-- The heights at which the search compares, in its order. -/
def searchedHeights (currency : Currency) : (height : Nat) → (reversed : List UInt32) → List Nat
  | _, [] => []
  | height, bits :: rest =>
    let height := decrement height
    height :: if isRetargetOrNonLimit currency height bits then []
      else searchedHeights currency height rest

/-- The search through a window counts down from the height and does not pass zero. -/
theorem searchedHeights_lt {currency : Currency} {bits : Nat → UInt32} {height count : Nat}
    (hlt : height < 2 ^ 64) (hle : count ≤ height) :
    ∀ visited ∈ searchedHeights currency height (window bits height count).reverse,
      visited < height := by
  induction count generalizing height with
  | zero => simp [searchedHeights]
  | succ count ih =>
    rw [reverse_window_succ bits hle, searchedHeights, decrement_eq (by omega) hlt]
    intro visited hvisited
    rcases List.mem_cons.mp hvisited with rfl | hrest
    · omega
    · split at hrest
      · cases hrest
      · have hbelow := ih (by omega) (by omega) visited hrest
        omega

/-- The closest block below a height that is at a retarget height or does not claim the limit. -/
structure IsNearest (chain : Nat → Header) (height nearest : Nat) : Prop where
  lt : nearest < height
  stops : isRetargetOrNonLimit .btc nearest (chain nearest).bits = true
  between : ∀ above, nearest < above → above < height →
    isRetargetOrNonLimit .btc above (chain above).bits = false

/-- Zero is a retarget height, so there is a closest block. -/
theorem exists_isNearest (chain : Nat → Header) (height : Nat) :
    ∃ nearest, IsNearest chain (height + 1) nearest ∧
      lastNonLimit .btc (fun height => (chain height).bits) height = (chain nearest).bits := by
  induction height with
  | zero =>
    refine ⟨0, ⟨Nat.one_pos, ?_, ?_⟩, rfl⟩
    · simp [isRetargetOrNonLimit, isRetargetHeight, retargetDistance]
    · intro above hlow hhigh
      omega
  | succ height ih =>
    rw [lastNonLimit]
    cases hstop : isRetargetOrNonLimit .btc (height + 1) (chain (height + 1)).bits with
    | true =>
      refine ⟨height + 1, ⟨Nat.lt_succ_self _, hstop, ?_⟩, if_pos rfl⟩
      intro above hlow hhigh
      omega
    | false =>
      obtain ⟨nearest, hnearest, hbits⟩ := ih
      refine ⟨nearest, ⟨hnearest.lt.trans (Nat.lt_succ_self _), hnearest.stops, ?_⟩, ?_⟩
      · intro above hlow hhigh
        rcases Nat.lt_succ_iff_lt_or_eq.mp hhigh with hbelow | rfl
        · exact hnearest.between above hlow hbelow
        · exact hstop
      · rw [← hbits]
        exact if_neg (by simp)

/-- The search succeeds and the work is that of the time rule, or of the closest block. -/
def EasyWorkFound (chain : Nat → Header) (height : Nat) (data : Data) : Prop :=
  ∃ nearest, IsNearest chain height nearest ∧
    Data.easyBits .btc data.height data.bitsOrdered.reverse = some (chain nearest).bits ∧
    data.easyWorkRequired .btc false = some
      (if data.timestampSelf > domainConstrain32
          (((chain (height - 1)).timestamp.toNat : Int) + Currency.easySpacingSeconds .btc) then
        Currency.retargetProofOfWorkLimit .btc
      else (chain nearest).bits) ∧
    ∀ visited ∈ searchedHeights .btc data.height data.bitsOrdered.reverse, visited < height

section

variable {chain : Nat → Header} {forks : UInt32} {height : Nat} {data : Data}

/-- The time of the candidate is no part of the history. -/
theorem History.withTime (h : History chain forks height data) (time : UInt32) :
    History chain forks height { data with timestampSelf := time } where
  height_eq := h.height_eq
  bits := h.bits
  versions := h.versions
  timestamps := h.timestamps
  retarget := h.retarget

theorem History.easyWorkFound (h : History chain forks height data) (hpos : 0 < height)
    (hlt : height < 2 ^ 64) (hret : isEnabled forks RuleFork.retarget)
    (heasy : isEnabled forks RuleFork.easyBlocks) (hheight : height % 2016 ≠ 0) :
    EasyWorkFound chain height data := by
  obtain ⟨count, -, hle, hreach, hbits⟩ := h.bits
  obtain ⟨below, rfl⟩ : ∃ below, height = below + 1 := ⟨height - 1, by omega⟩
  obtain ⟨nearest, hnearest, hlast⟩ := exists_isNearest chain below
  refine ⟨nearest, hnearest, ?_, ?_, ?_⟩
  · rw [h.height_eq, hbits, easyBits_window hlt hle (hreach heasy hret) hheight,
      Nat.add_sub_cancel, hlast]
  · rw [h.easyWorkRequired hpos hlt hret heasy hheight, Nat.add_sub_cancel, hlast]
  · rw [h.height_eq, hbits]
    exact searchedHeights_lt hlt hle

/-- Off the retarget heights the work of testnet is the easy work. -/
theorem workRequired_eq_easyWorkRequired (hheight : data.height % 2016 ≠ 0)
    (hret : isEnabled forks RuleFork.retarget)
    (heasy : isEnabled forks RuleFork.easyBlocks) :
    data.workRequired .btc forks = data.easyWorkRequired .btc false := by
  have hpos : data.height ≠ 0 := by
    intro hzero
    rw [hzero] at hheight
    exact hheight rfl
  have hoff : isRetargetHeight .btc data.height = false := by
    rw [Bool.eq_false_iff, ne_eq, isRetargetHeight_eq_true_iff]
    exact hheight
  simp [Data.workRequired, hpos, hret, heasy, hoff]

end

section

variable (hashes : Hashes) (chain : Nat → Header) (unspecified forks : UInt32)
  (checkpoints : List Checkpoint) (times : ActivationTimes) (start : Nat)

/-- A state can be built from scratch at every height. -/
theorem exists_fromScratch (hstart : start < 2 ^ 64) :
    ∃ state, fromScratch .btc hashes chain unspecified checkpoints forks times start =
      some state := by
  rcases Nat.eq_zero_or_pos start with rfl | hpos
  · exact ⟨_, rfl⟩
  · obtain ⟨state, hstate, -⟩ := fromScratch_follows hashes chain unspecified forks checkpoints times
      hpos hstart
    exact ⟨state, hstate⟩

/-- In every state that is reached over a chain of testnet headers the easy work is found for a block
of any time, and every further step leads to a state. -/
theorem easyWork_found_of_reached (hstart : start < 2 ^ 64)
    (hretarget : isEnabled forks RuleFork.retarget = true)
    (heasy : isEnabled forks RuleFork.easyBlocks = true) :
    (∃ state, fromScratch .btc hashes chain unspecified checkpoints forks times start =
      some state) ∧
    ∀ stage height state,
      Reached .btc hashes chain unspecified checkpoints forks times start stage height state →
      (height % 2016 ≠ 0 → ∀ time, ∀ data : Data, data = { state.data with timestampSelf := time } →
        data.workRequired .btc state.forks = data.easyWorkRequired .btc false ∧
        EasyWorkFound chain height data) ∧
      (stage = .pool → ∀ block : Block, block.header = chain height →
        ∃ next, ofPool .btc hashes state block = some next) ∧
      (stage = .block → height + 1 < 2 ^ 64 →
        (∃ pool, ofTop .btc state = some pool) ∧
        ∃ next, ofParent .btc hashes state (chain (height + 1)) = some next) := by
  refine ⟨exists_fromScratch hashes chain unspecified forks checkpoints times start hstart, ?_⟩
  intro stage height state hreached
  have hsound := hreached.sound hstart
  have hretarget' : isEnabled (forks ||| RuleFork.allowCollisions) RuleFork.retarget := by
    rw [isEnabled_or, hretarget, Bool.true_or]
  have heasy' : isEnabled (forks ||| RuleFork.allowCollisions) RuleFork.easyBlocks := by
    rw [isEnabled_or, heasy, Bool.true_or]
  refine ⟨?_, ?_, ?_⟩
  · rintro hheight time data rfl
    have hpos : 0 < height := Nat.pos_of_ne_zero fun hzero => hheight (by rw [hzero])
    have hhistory : History chain (forks ||| RuleFork.allowCollisions) height state.data := by
      cases stage with
      | pool => exact (hsound.pool rfl).2
      | block =>
        rcases hsound.block rfl with ⟨hzero, -⟩ | ⟨-, hfollows⟩
        · exact absurd hzero hpos.ne'
        · exact hfollows.toHistory
    have hhistory := hhistory.withTime time
    refine ⟨?_, hhistory.easyWorkFound hpos hsound.lt hretarget' heasy' hheight⟩
    rw [hsound.constructed.forks_eq]
    exact workRequired_eq_easyWorkRequired (hhistory.height_eq.symm ▸ hheight) hretarget' heasy'
  · rintro rfl block hheader
    exact hsound.exists_ofPool hheader
  · rintro rfl hlt
    exact ⟨hsound.exists_ofTop hlt, hsound.exists_ofParent hlt⟩

/-- The state of the second testnet block behind a retarget height, built from scratch. -/
theorem easyWork_found_testnet :
    ∃ state, fromScratch .btc .ofSha256 sampleChain 0 []
        (RuleFork.easyBlocks ||| RuleFork.retarget) {} 2018 = some state ∧
      EasyWorkFound sampleChain 2018 state.data := by
  obtain ⟨⟨state, hstate⟩, hreached⟩ := easyWork_found_of_reached .ofSha256 sampleChain 0
    (RuleFork.easyBlocks ||| RuleFork.retarget) [] {} 2018 (by decide) (by decide) (by decide)
  exact ⟨state, hstate, ((hreached .block 2018 state (.scratch hstate)).1 (by decide) _ _ rfl).2⟩

end

end BitprimCore.ChainState
