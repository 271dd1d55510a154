import IeumChain.Lib.Result
import IeumChain.Lib.Errors
import IeumChain.Lib.HashMap
import IeumChain.Lib.Bytes
import IeumChain.Lib.Text
import IeumChain.Lib.Json
import IeumChain.Lib.Quorum
import IeumChain.Lib.Sha256
import IeumChain.Lib.Window
import IeumChain.Lib.Like
import IeumChain.Lib.SortedEntries
import IeumChain.Lib.Tally
import IeumChain.Lib.Calendar
import IeumChain.Lib.Runs
import IeumChain.Lib.Ranking
import IeumChain.Lib.Paths
import IeumChain.Lib.Disk
import IeumChain.Primitives
import IeumChain.Wallet
import IeumChain.Registration
import IeumChain.ScheduledEvent
import IeumChain.Model
import IeumChain.Mempool
import IeumChain.RawTransaction
import IeumChain.Chain
import IeumChain.Consensus
import IeumChain.Genesis
import IeumChain.ConsensusEra
import IeumChain.ConsensusRuntime
import IeumChain.NodeLoop
import IeumChain.Storage
import IeumChain.ConsensusWal
import IeumChain.ChainTheorems
import IeumChain.CertificateTheorems
import IeumChain.AccountabilityTheorems
import IeumChain.ConsensusTheorems
import IeumChain.RuntimeMoves
import IeumChain.Devnet
import IeumChain.RebuildTheorems
import IeumChain.NonceTheorems
import IeumChain.VotingTheorems
import IeumChain.AgreementTheorems
import IeumChain.LockTheorems
import IeumChain.QuorumTheorems
import IeumChain.ProposalTheorems
import IeumChain.SyncTheorems
import IeumChain.SnapshotTheorems
import IeumChain.RestartTheorems
import IeumChain.EventTheorems
import IeumChain.BlockHashTheorems
import IeumChain.TimestampTheorems
import IeumChain.StateHashTheorems
import IeumChain.ScheduleTheorems
import IeumChain.RewardTheorems
import IeumChain.HeightTheorems
import IeumChain.MempoolTheorems
import IeumChain.BallotTheorems
import IeumChain.DeliveryTheorems
import IeumChain.DrainTheorems
import IeumChain.AddressTheorems
import IeumChain.WalTheorems
import IeumChain.SigningTheorems
import IeumChain.RlpTheorems
import IeumChain.RawTransactionTheorems
import IeumChain.RpcTheorems
import IeumChain.CandidateTheorems
import IeumChain.FinalisationTheorems
import IeumChain.CustodyTheorems
import IeumChain.ProposerTheorems
import IeumChain.Communication
import IeumChain.EmbeddedDb
import IeumChain.Governance
import IeumChain.TipQuorum
import IeumChain.SnapshotScheduler
import IeumChain.EraManager
import IeumChain.Archive
import IeumChain.ValidatorPolicy
import IeumChain.SnapshotSync
import IeumChain.OverflowTheorems
import IeumChain.AllocationTheorems
import IeumChain.CanonicalTheorems
import IeumChain.PayeeTheorems
import IeumChain.PoolTheorems
import IeumChain.SessionTheorems
import IeumChain.EarlyVoteTheorems
import IeumChain.EvidenceTheorems
import IeumChain.CommunicationTheorems
import IeumChain.EmbeddedDbTheorems
import IeumChain.ImportTheorems
import IeumChain.GovernanceTheorems
import IeumChain.TipTheorems
import IeumChain.SchedulerTheorems
import IeumChain.PeriodTheorems
import IeumChain.PolicyTheorems
import IeumChain.KeyTheorems
import IeumChain.DownloadTheorems
import IeumChain.LimitTheorems
import IeumChain.EraTheorems
import IeumChain.GenerationTheorems
import IeumChain.RecoveryTheorems
import IeumChain.ModuleTheorems
import IeumChain.EmissionTheorems
import IeumChain.LotteryTheorems
import IeumChain.SelectionTheorems
import IeumChain.ContributionTheorems
import IeumChain.StateRootTheorems
import IeumChain.SliceTheorems
import IeumChain.BackupTheorems
import IeumChain.RotationTheorems
import IeumChain.Amounts
import IeumChain.Wire
import IeumChain.IndexTheorems
import IeumChain.HistoryTheorems
import IeumChain.Installation
import IeumChain.RestoreTheorems
import IeumChain.CrashTheorems
import IeumChain.CompactionTheorems
import IeumChain.Bootstrap
import IeumChain.BootstrapTheorems
import IeumChain.Keystore
import IeumChain.KeystoreTheorems
import IeumChain.LedgerTheorems
import IeumChain.Network
import IeumChain.NetworkTheorems
import IeumChain.ServerFiles
import IeumChain.ServerFilesTheorems
import IeumChain.Lib.NewFiles
import IeumChain.Lib.CaughtErrors
import IeumChain.Lib.Sealing
import IeumChain.NodeKeys
