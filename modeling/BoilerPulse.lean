import BoilerPulse.Framework.Runs
import BoilerPulse.Framework.Recency
import BoilerPulse.Framework.TokenBucket
import BoilerPulse.Framework.Windows
import BoilerPulse.Framework.Versions
import BoilerPulse.Framework.Election
import BoilerPulse.Framework.TermLog
import BoilerPulse.Framework.TermLogSafety
import BoilerPulse.Framework.Frames
import BoilerPulse.Framework.Decimal
import BoilerPulse.Framework.Base64
import BoilerPulse.Framework.Checksum
import BoilerPulse.Framework.Wakeup
import BoilerPulse.Framework.Batching
import BoilerPulse.Framework.Percent
import BoilerPulse.Framework.Json
import BoilerPulse.Framework.Rfc3339
import BoilerPulse.Raft.Types
import BoilerPulse.Raft.Node
import BoilerPulse.Raft.Server
import BoilerPulse.Raft.Cluster
import BoilerPulse.Raft.NodeLemmas
import BoilerPulse.Raft.ElectionSafety
import BoilerPulse.Raft.Replication
import BoilerPulse.Raft.Commitment
import BoilerPulse.Raft.Process
import BoilerPulse.Raft.Hosting
import BoilerPulse.Raft.Snapshots
import BoilerPulse.Raft.Appending
import BoilerPulse.Raft.Entries
import BoilerPulse.Raft.IndexOrder
import BoilerPulse.Raft.Proposals
import BoilerPulse.Raft.Waiting
import BoilerPulse.Raft.Overwritten
import BoilerPulse.Raft.Covering
import BoilerPulse.Raft.Acknowledging
import BoilerPulse.Raft.Negotiation
import BoilerPulse.Raft.Voting
import BoilerPulse.Raft.Applying
import BoilerPulse.Raft.Durable
import BoilerPulse.Raft.Mirror
import BoilerPulse.Raft.FileStorage
import BoilerPulse.Raft.FileOffsets
import BoilerPulse.Raft.CrashRecovery
import BoilerPulse.Raft.LogRecovery
import BoilerPulse.Raft.Waking
import BoilerPulse.Raft.Intake
import BoilerPulse.Raft.Syncing
import BoilerPulse.Raft.CatchUp
import BoilerPulse.Raft.Acknowledged
import BoilerPulse.Storage.Types
import BoilerPulse.Storage.Wal
import BoilerPulse.Framework.Layers
import BoilerPulse.Framework.Linearizable
import BoilerPulse.Framework.Programs
import BoilerPulse.Framework.Utf8
import BoilerPulse.Storage.Contract
import BoilerPulse.Storage.Encoding
import BoilerPulse.Storage.Convergence
import BoilerPulse.Storage.SSTable
import BoilerPulse.Storage.TableFiles
import BoilerPulse.Gateway.Cache
import BoilerPulse.Gateway.CacheRefinement
import BoilerPulse.Gateway.RateLimit
import BoilerPulse.Gateway.Proxy
import BoilerPulse.Gateway.Addressing
import BoilerPulse.Gateway.Events
import BoilerPulse.Gateway.CachedExpiry
import BoilerPulse.Gateway.Attempts
import BoilerPulse.Gateway.Retry
import BoilerPulse.Gateway.Discovery
import BoilerPulse.Storage.Replay
import BoilerPulse.Storage.FailedWrites
import BoilerPulse.Storage.Expiry
import BoilerPulse.Storage.TableOrder
import BoilerPulse.Storage.Versions
import BoilerPulse.Storage.GroupCommit
import BoilerPulse.Storage.GroupOrder
import BoilerPulse.Storage.Observed
import BoilerPulse.Storage.Linearizability
import BoilerPulse.Storage.Lifetime
import BoilerPulse.Workload.Monitoring
import BoilerPulse.Workload.Engine
