import AdaptiveQF.QueryPaths
import AdaptiveQF.Invariant
import AdaptiveQF.Monotone
import AdaptiveQF.Protocol
import AdaptiveQF.PartitionedCounter
import AdaptiveQF.MergeReports
import AdaptiveQF.BulkFingerprints
import AdaptiveQF.Resize
import AdaptiveQF.LockBalance
import AdaptiveQF.LoadCap
import AdaptiveQF.MinirunRank
import AdaptiveQF.Counters
import AdaptiveQF.AllOrNothing
import AdaptiveQF.LockCover
import AdaptiveQF.LlTable
import AdaptiveQF.AdaptExact
import AdaptiveQF.Visit
import AdaptiveQF.RankAdapt
import AdaptiveQF.RemoveExact
import AdaptiveQF.StoredCount
import AdaptiveQF.BulkKeys
import AdaptiveQF.Reports
import AdaptiveQF.Churn
import AdaptiveQF.SearchExact
import AdaptiveQF.LockArray
import AdaptiveQF.Workload
import AdaptiveQF.Packed
import AdaptiveQF.BlockRange
import AdaptiveQF.SkiRental
import AdaptiveQF.Select
import AdaptiveQF.HashUtil
import AdaptiveQF.Threads
import AdaptiveQF.RepeatDetector
import AdaptiveQF.Membership
