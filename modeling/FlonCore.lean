import FlonCore.BlockAdmission
import FlonCore.CrashSafety
import FlonCore.PolicyRetrieval
import FlonCore.ProducerValidator
import FlonCore.ProposerLifecycle
import FlonCore.RamMinting
import FlonCore.BilledAgreement
import FlonCore.SwitchConsistency
import FlonCore.ForkReopening
import FlonCore.KeySufficiency
import FlonCore.PermissionSnapshot
import FlonCore.CheckedTransactions
import FlonCore.NativeLedger
import FlonCore.ContractRuns
import FlonCore.WeakFinalLimit
import FlonCore.StrongVotes
import FlonCore.VotePartition
import FlonCore.HistoryRuns
import FlonCore.DiffRoundTrip
import FlonCore.MerkleLegacy
import FlonCore.ValidationRoots
import FlonCore.ForkValidity
import FlonCore.DoubleConfirm
import FlonCore.LegacyIrreversible
import FlonCore.GasConversions
import FlonCore.BlockBudgets
import FlonCore.UsageTotals
import FlonCore.SlotChunks
import FlonCore.FeatureChain
import FlonCore.BlockSignatures
import FlonCore.ActorList
import FlonCore.ParameterPacking
import FlonCore.ActionRuns
import FlonCore.NameCodec
import FlonCore.RecoveryAnchor
import FlonCore.LogCatalog
import FlonCore.VoteAdmission
import FlonCore.UnappliedTransactionQueue
import FlonCore.AsyncWorker
import FlonCore.QueuedBuffer
import FlonCore.RawPacking
import FlonCore.WhitelistedIntrinsics
