import MobileTestkit.Core.LTS
import MobileTestkit.Core.Proc
import MobileTestkit.Core.PyStr
import MobileTestkit.Core.CasStore
import MobileTestkit.Core.History
import MobileTestkit.Core.Interleave
import MobileTestkit.L5Concurrency.ServerPool
import MobileTestkit.L5Concurrency.PoolAlone
import MobileTestkit.L5Concurrency.PoolConcurrent
import MobileTestkit.Core.JsonText
import MobileTestkit.L1Encoding.ValueSerializer
import MobileTestkit.L2Cluster.GenerateClusters
import MobileTestkit.L2Cluster.Allocation
import MobileTestkit.L2Cluster.Topology
import MobileTestkit.L2Cluster.TopologyAgree
import MobileTestkit.L2Cluster.Nginx
import MobileTestkit.L2Cluster.UrlNodes
import MobileTestkit.Core.CallLog
import MobileTestkit.L4App.DbConfig
import MobileTestkit.L4App.DbIsolation
import MobileTestkit.L4App.DbUniform
import MobileTestkit.Core.OpPrec
import MobileTestkit.L3Query.RqgParser
import MobileTestkit.L3Query.WhereTree
import MobileTestkit.Core.ExceptLoop
import MobileTestkit.L4App.JunitReports
import MobileTestkit.L4App.ReportMerge
import MobileTestkit.L4App.RerunMerge
import MobileTestkit.L4App.ChangesTracking
import MobileTestkit.L4App.VerifyChanges
import MobileTestkit.Core.DigitOrder
import MobileTestkit.Core.JsonDoc
import MobileTestkit.L1Encoding.Versions
import MobileTestkit.L2Cluster.PoolFile
import MobileTestkit.L4App.ConvertJson
import MobileTestkit.L4App.BucketDiscovery
import MobileTestkit.Core.Ini
import MobileTestkit.Core.JsonDump
import MobileTestkit.L4App.ClusterProps
import MobileTestkit.Core.PyFloat
import MobileTestkit.Core.JsonValue
import MobileTestkit.L4App.DocCompare
import MobileTestkit.L4App.DocVerdicts
import MobileTestkit.L4App.CblDatabase
import MobileTestkit.L4App.ChangesTracker
import MobileTestkit.Core.Subst
import MobileTestkit.L3Query.WherePredicates
import MobileTestkit.L3Query.WhereBetween
import MobileTestkit.L4App.ClientChecks
import MobileTestkit.Core.Turns
import MobileTestkit.L4App.DocsInChanges
import MobileTestkit.L4App.DocsPresent
import MobileTestkit.Core.Rely
import MobileTestkit.L4App.ReplicatorIdle
import MobileTestkit.L5Concurrency.ReserveNode
import MobileTestkit.Core.PyJson
import MobileTestkit.L5Concurrency.UpdateDoc
import MobileTestkit.Core.JsonPieces
import MobileTestkit.Core.PyLines
import MobileTestkit.L4App.BulkDocs
import MobileTestkit.L4App.BulkGet
import MobileTestkit.L3Query.JsonQuery
import MobileTestkit.L3Query.QueryClauses
import MobileTestkit.L3Query.OperatorNames
import MobileTestkit.L3Query.PhrasePredicates
import MobileTestkit.L2Cluster.PindexDistribution
import MobileTestkit.L2Cluster.RebalanceIn
import MobileTestkit.L4App.RerunLists
import MobileTestkit.L4App.UserCache
import MobileTestkit.Core.Tasks
import MobileTestkit.L4App.SgwReplicationWait
import MobileTestkit.L5Concurrency.UserUpdates
import MobileTestkit.L5Concurrency.UpdatesVerified
import MobileTestkit.Core.PyText
import MobileTestkit.L4App.AttachmentBytes
import MobileTestkit.Core.PyRepr
import MobileTestkit.Core.Regex
import MobileTestkit.L4App.EventChanges
import MobileTestkit.L3Query.WhereOperators
import MobileTestkit.L3Query.OperatorRuns
import MobileTestkit.L3Query.OperatorTexts
import MobileTestkit.L2Cluster.NginxLines
import MobileTestkit.L1Encoding.ArgsIteration
import MobileTestkit.L2Cluster.BucketQuotas
import MobileTestkit.L2Cluster.RebalanceCalls
import MobileTestkit.L3Query.TreeStrings
import MobileTestkit.L3Query.FilledTrees
import MobileTestkit.L3Query.LiteralTexts
import MobileTestkit.L3Query.ItemValues
import MobileTestkit.L3Query.LiteralParts
import MobileTestkit.L3Query.LiteralMarks
import MobileTestkit.L3Query.StringLiterals
import MobileTestkit.Core.ChangeLog
import MobileTestkit.L5Concurrency.TrackerFeed
import MobileTestkit.Core.Shards
import MobileTestkit.L5Concurrency.UpdateDocs
import MobileTestkit.L5Concurrency.PoolLedger
import MobileTestkit.L4App.DocsDeleted
import MobileTestkit.L2Cluster.DeleteBuckets
import MobileTestkit.L2Cluster.BucketsDeleted
import MobileTestkit.Core.RevTree
import MobileTestkit.L4App.Conflicts
import MobileTestkit.L5Concurrency.PoolClusters
import MobileTestkit.L4App.ConflictsDeleted
import MobileTestkit.Core.Pool
import MobileTestkit.L5Concurrency.InParallel
