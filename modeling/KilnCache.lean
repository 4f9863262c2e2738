import KilnCache.Cluster.Replication
import KilnCache.Cluster.Agreement
import KilnCache.Cluster.Provenance
import KilnCache.Cluster.Repairs
import KilnCache.Cluster.Durability
import KilnCache.Cluster.Forwarding
import KilnCache.Cluster.Placement
import KilnCache.Storage.Reconcile
import KilnCache.Cluster.VerifiedReads
import KilnCache.Storage.Quota
import KilnCache.Storage.Policy
import KilnCache.Storage.Disruption
import KilnCache.Storage.Shortcut
import KilnCache.Storage.StrayFiles
import KilnCache.Storage.Touches
import KilnCache.Storage.Recency
import KilnCache.Storage.Flush
import KilnCache.Cluster.CorruptCopies
import KilnCache.Cluster.FrontDoors
import KilnCache.Cluster.LocalService
import KilnCache.Cluster.Wakeups
import KilnCache.Cluster.Atomicity
import KilnCache.Data.Keyset
import KilnCache.Cluster.Weights
import KilnCache.Http.Paths
import KilnCache.Config.Membership
import KilnCache.Bench.UniqueGen
import KilnCache.Storage.Accounting
import KilnCache.Storage.CopyLoops
import KilnCache.Cluster.AuditCursor
import KilnCache.Cluster.AuditBudget
import KilnCache.Cluster.ReplicationMetrics
import KilnCache.Cluster.HealthyAudit
import KilnCache.Cluster.Mending
import KilnCache.Cluster.Orderly
import KilnCache.Cluster.Convergence
import KilnCache.Cluster.ReadBack
import KilnCache.Repair.Shutdown
import KilnCache.Lifecycle
import KilnCache.Chaos
