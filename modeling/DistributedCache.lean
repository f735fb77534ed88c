import DistributedCache.Raft.CommitBounds
import DistributedCache.Raft.Panics
import DistributedCache.Raft.Votes
import DistributedCache.Raft.Safety
import DistributedCache.Raft.StateMachine
import DistributedCache.Raft.Leadership
import DistributedCache.Raft.Timers
import DistributedCache.Raft.Recovery
import DistributedCache.Raft.Progress
import DistributedCache.Raft.ApplyOrder
import DistributedCache.Raft.Waiters
import DistributedCache.Raft.Traffic
import DistributedCache.Cache.TtlMap
import DistributedCache.Cache.Eviction
import DistributedCache.Cache.WorkingSet
import DistributedCache.Raft.Notified
import DistributedCache.Replication.ReadYourWrite
import DistributedCache.Replication.Deletion
import DistributedCache.Replication.Agreement
import DistributedCache.Raft.Commute
import DistributedCache.Raft.Repair
import DistributedCache.Protocol.Smuggling
import DistributedCache.Server.Routing
import DistributedCache.Server.Readable
import DistributedCache.Lib.Serving
import DistributedCache.Server.Connection
import DistributedCache.Server.Listener
import DistributedCache.Server.Transport
import DistributedCache.Server.Client
import DistributedCache.Server.Launch
import DistributedCache.Replication.Placement
import DistributedCache.Replication.Atomic
import DistributedCache.Replication.Provenance
import DistributedCache.Replication.OneMap
import DistributedCache.Protocol.Fidelity
import DistributedCache.Protocol.Allocation
import DistributedCache.Cluster.Peers
import DistributedCache.Metrics.Registry
