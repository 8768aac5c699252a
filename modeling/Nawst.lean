import Nawst.Lib.Machine
import Nawst.Lib.CasLoop
import Nawst.Lib.Pipeline
import Nawst.Lib.ByteStream
import Nawst.Lib.Buffer
import Nawst.Lib.FiniteMap
import Nawst.Lib.Apportion
import Nawst.Lib.Descent
import Nawst.Lib.EpochLog
import Nawst.Lib.MovingAverage
import Nawst.Core.Store
import Nawst.Core.StoreApply
import Nawst.Core.StoreIndex
import Nawst.Core.StoreInvariant
import Nawst.Core.Convergence
import Nawst.Core.Request
import Nawst.Core.WalFormat
import Nawst.Core.WalReplay
import Nawst.Core.WalWriter
import Nawst.Core.WalDurability
import Nawst.Core.WalLog
import Nawst.Core.WalWait
import Nawst.Core.EventLoop
import Nawst.Core.LoopRequests
import Nawst.Core.LoopOrder
import Nawst.Core.DiskError
import Nawst.Core.Recovery
import Nawst.Core.Restart
import Nawst.Core.Server
import Nawst.Core.NextVersion
import Nawst.Core.StreamKV
import Nawst.Core.StreamAnswers
import Nawst.Core.GetCall
import Nawst.Core.Calls
import Nawst.Cluster.Placement
import Nawst.Cluster.Migration
import Nawst.Cluster.Scores
import Nawst.Cluster.TargetCounts
import Nawst.Cluster.Assign
import Nawst.Cluster.Replicas
import Nawst.Cluster.Raft
import Nawst.Cluster.Update
import Nawst.Cluster.Rebalance
import Nawst.Cluster.Drift
import Nawst.Cluster.Stability
import Nawst.Cluster.ShortTerm
import Nawst.Cluster.Degradation
import Nawst.Cluster.Collector
import Nawst.Cluster.PlacementLog
import Nawst.Cluster.MigrationPlan
import Nawst.Cluster.BatchWorker
import Nawst.Cluster.BatchAccount
import Nawst.Cluster.BatchOrder
import Nawst.Cluster.Quorum
import Nawst.Cluster.Handoff
import Nawst.Cluster.Transfer
import Nawst.Cluster.StoreHistory
import Nawst.Cluster.Replicate
import Nawst.Cluster.ReplicationLink
import Nawst.Cluster.WritePath
import Nawst.Cluster.NodeData
import Nawst.Cluster.Metadata
import Nawst.Cluster.Router
import Nawst.Cluster.MinVersion
import Nawst.Cluster.Membership
import Nawst.Cluster.Reconcile
import Nawst.Cluster.Members
import Nawst.Cluster.Connections
