import BitprimCore.Chain.StackSafety
import BitprimCore.Chain.Commitment
import BitprimCore.Chain.MerkleCommitment
import BitprimCore.Chain.RulePromotion
import BitprimCore.Chain.Emission
import BitprimCore.Chain.Locktime
import BitprimCore.Chain.SigopLimit
import BitprimCore.Chain.BlockRuns
import BitprimCore.Chain.TransactionRuns
import BitprimCore.Chain.VersionMajority
import BitprimCore.Chain.EasyWork
import BitprimCore.Chain.MedianTime
import BitprimCore.Chain.CashDifficulty
import BitprimCore.Machine.Arithmetic
import BitprimCore.Chain.CoinbaseHeight
import BitprimCore.Chain.ScriptBytes
import BitprimCore.Machine.ResourceLimits
import BitprimCore.Chain.EmbeddedSigops
import BitprimCore.Chain.PreviousOutputs
import BitprimCore.Chain.ScriptText
import BitprimCore.Chain.Locator
import BitprimCore.Chain.WitnessCount
import BitprimCore.Wallet.CashAddressRoundTrip
import BitprimCore.Wallet.HdDerivation
import BitprimCore.Wallet.EncryptedKeysRoundTrip
import BitprimCore.Formats.Base64
import BitprimCore.Formats.Base85
import BitprimCore.Utility.Serializer
import BitprimCore.Message.Version
import BitprimCore.Message.CompactBlock
import BitprimCore.Utility.ReaderRuns
import BitprimCore.Utility.IstreamRefinement
import BitprimCore.Math.SipHasher
import BitprimCore.Wallet.Mnemonic
import BitprimCore.Wallet.SelectOutputs
import BitprimCore.Keoken.Transaction
import BitprimCore.Wallet.BitcoinUri
import BitprimCore.Machine.Conditions
import BitprimCore.Unicode.TerminalCharacter
