import BitprimCore.Constants
import Mathlib.Tactic.Tauto

/-!
# Rule forks and script versions

The fork flags of `rule_fork.hpp`, the test for an active fork and the witness script versions.
-/

namespace BitprimCore

namespace RuleFork

def noRules : UInt32 := 0
/-- Minimum difficulty blocks. -/
def easyBlocks : UInt32 := (1 : UInt32) <<< 0
/-- Pay to script hash. -/
def bip16Rule : UInt32 := (1 : UInt32) <<< 1
/-- No duplicate unspent ids. -/
def bip30Rule : UInt32 := (1 : UInt32) <<< 2
/-- Height in the coinbase. -/
def bip34Rule : UInt32 := (1 : UInt32) <<< 3
/-- Strict DER signatures. -/
def bip66Rule : UInt32 := (1 : UInt32) <<< 4
/-- Check lock time. -/
def bip65Rule : UInt32 := (1 : UInt32) <<< 5
/-- Frozen activation heights. -/
def bip90Rule : UInt32 := (1 : UInt32) <<< 6
/-- Collisions cannot happen. -/
def allowCollisions : UInt32 := (1 : UInt32) <<< 7
/-- Relative lock time. -/
def bip68Rule : UInt32 := (1 : UInt32) <<< 8
/-- Check sequence. -/
def bip112Rule : UInt32 := (1 : UInt32) <<< 9
/-- Locks by median time. -/
def bip113Rule : UInt32 := (1 : UInt32) <<< 10
/-- Segregated witness. -/
def bip141Rule : UInt32 := (1 : UInt32) <<< 11
/-- Witness version 0. -/
def bip143Rule : UInt32 := (1 : UInt32) <<< 12
/-- No malleable dummy. -/
def bip147Rule : UInt32 := (1 : UInt32) <<< 13
def cashLowSRule : UInt32 := (1 : UInt32) <<< 15
def cashVerifyFlagsScriptEnableSighashForkid : UInt32 := (1 : UInt32) <<< 16
def cashReplayProtection : UInt32 := (1 : UInt32) <<< 17
def cashCheckdatasig : UInt32 := (1 : UInt32) <<< 18
/-- Retargets difficulty. -/
def retarget : UInt32 := (1 : UInt32) <<< 30

/-- Rules that use bip34-based activation. -/
def bip34Activations : UInt32 := bip34Rule ||| bip65Rule ||| bip66Rule

/-- Rules that use BIP9 bit zero first time activation. -/
def bip9Bit0Group : UInt32 := bip68Rule ||| bip112Rule ||| bip113Rule

/-- Rules that use BIP9 bit one first time activation. -/
def bip9Bit1Group : UInt32 := bip141Rule ||| bip143Rule ||| bip147Rule

end RuleFork

/-- Is one of the flags of `fork` among the active ones (`script::is_enabled`)? -/
def isEnabled (activeForks fork : UInt32) : Bool := (fork &&& activeForks) != 0

theorem isEnabled_or (forks added fork : UInt32) :
    isEnabled (forks ||| added) fork = (isEnabled forks fork || isEnabled added fork) := by
  rw [Bool.eq_iff_iff]
  simp only [isEnabled, bne_iff_ne, ne_eq, Bool.or_eq_true, ← UInt32.toNat_inj]
  have hdistrib : fork &&& (forks ||| added) = fork &&& forks ||| fork &&& added := by
    apply UInt32.eq_of_toBitVec_eq
    simp [BitVec.and_or_distrib_left]
  rw [hdistrib, UInt32.toNat_or]
  simp [Nat.or_eq_zero_iff]
  tauto

/-- The version of a witness program; scripts outside a witness are unversioned. -/
inductive ScriptVersion
  | zero
  | reserved
  | unversioned
  deriving DecidableEq, Repr

end BitprimCore
