import Sailfish.Lib.Weight
import Sailfish.Lib.Traversal
import Sailfish.Lib.Layered
import Sailfish.Lib.Splits
import Sailfish.Lib.Effects
import Sailfish.Crypto
import Sailfish.Config
import Sailfish.Messages
import Sailfish.QuorumIntersection
import Sailfish.Consensus
import Sailfish.DagState
import Sailfish.SubDag
import Sailfish.Trace
import Sailfish.IncrementalCommit
import Sailfish.Sequence
import Sailfish.DoubleCommit
import Sailfish.ValidDag
import Sailfish.Dependencies
import Sailfish.DeliveryOrder
import Sailfish.LeaderReachability
import Sailfish.LeaderAgreement
import Sailfish.Aggregators
import Sailfish.Synchronizer
import Sailfish.Core
import Sailfish.CoreEffects
import Sailfish.CoreMoves
import Sailfish.VoteOnce
import Sailfish.LeaderSkips
import Sailfish.HeaderVotes
import Sailfish.CommitState
import Sailfish.CausalDelivery
import Sailfish.HeaderForwarding
import Sailfish.StoreTask
import Sailfish.ReliableSender
import Sailfish.StateTransition
import Sailfish.Proposer
import Sailfish.ProposedHeaders
import Sailfish.Primary
import Sailfish.NoVotes
import Sailfish.SignedMessages
import Sailfish.VoteCertificates
import Sailfish.BatchMaker
import Sailfish.Traversals
import Sailfish.HeaderQuorum
import Sailfish.ExecutedBatches
import Sailfish.Extractor
import Sailfish.BatchFile
import Sailfish.CrashRecovery
import Sailfish.Arrivals
import Sailfish.OwnVote
import Sailfish.SoundVotes
import Sailfish.Helper
import Sailfish.QuorumWaiter
import Sailfish.HeaderWaiter
import Sailfish.SyncRequests
import Sailfish.GcBoundary
import Sailfish.AnnouncedTimeouts
import Sailfish.HeaderDigest
import Sailfish.ForwardedRounds
import Sailfish.BatchCli
import Sailfish.EmptyBatches
import Sailfish.CertificateEmissions
import Sailfish.UpdateOrder
import Sailfish.CleanupBounds
import Sailfish.SampleTransactions
import Sailfish.Lib.Base64
import Sailfish.Keys
import Sailfish.KeyInput
import Sailfish.Lib.Json
import Sailfish.Lib.PrettyJson
import Sailfish.OrderedCertificates
import Sailfish.Lib.Parties
import Sailfish.System
import Sailfish.CertificateUniqueness
import Sailfish.CertifiedHeaders
import Sailfish.Receiver
import Sailfish.WorkerSynchronizer
import Sailfish.Worker
import Sailfish.BatchRequests
import Sailfish.Dissemination
import Sailfish.Payloads
import Sailfish.Authorities
import Sailfish.StoredBatches
import Sailfish.BareCertificates
import Sailfish.Lib.Logs
import Sailfish.LeaderLogs
import Sailfish.HonestDag
import Sailfish.HonestHeaders
import Sailfish.Agreement
import Sailfish.TotalOrder
