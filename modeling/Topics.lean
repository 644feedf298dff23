import Topics.Lib.Exec
import Topics.Lib.Gates
import Topics.Lib.GroupCommit
import Topics.Types
import Topics.Index
import Topics.Tags
import Topics.QueueProjection
import Topics.TopicState
import Topics.SnapshotTopic
import Topics.Router
import Topics.Engine
import Topics.Replay
import Topics.WritePath
import Topics.DiskReservation
import Topics.AppendStream
import Topics.AckedSurvival
import Topics.DiskCycles
import Topics.QueueClaim
import Topics.QueueRecovery
import Topics.Lib.Buckets
import Topics.SplitTopics
import Topics.NameReplay
import Topics.ShardedLog
import Topics.RouterReplay
import Topics.Registry
import Topics.RegistryReplay
import Topics.RegistryTopics
import Topics.RegistryRouters
import Topics.RegistryRecovery
import Topics.CheckpointPosition
import Topics.ShardLayouts
import Topics.ShardRecovery
import Topics.Lib.Bytes
import Topics.WalCodec
import Topics.FailedBatches
import Topics.Diff
import Topics.Retention
import Topics.TopicRun
import Topics.EvictedRecords
import Topics.KeptRecords
import Topics.ClassChanges
import Topics.Lib.PrefixRange
import Topics.SelectorDelete
import Topics.DeleteReplay
import Topics.Lib.Threads
import Topics.DurableFloors
import Topics.DeadRecords
import Topics.AckedJobs
import Topics.Forwarding
import Topics.RoutedCalls
import Topics.DirectWrites
import Topics.TopicSteps
import Topics.Paging
import Topics.RejectTopics
import Topics.LogContract
import Topics.ReaderGaps
import Topics.SourceTrims
import Topics.QueueCalls
import Topics.LeaseHistory
import Topics.LeaseRecovery
import Topics.WatchPages
import Topics.Watch
import Topics.WatchDrain
import Topics.WatchResume
import Topics.QueueMoves
import Topics.QueueSteps
import Topics.DeadLetters
import Topics.KeyedWrites
import Topics.FailedWrites
import Topics.Lib.Liveness
import Topics.ClaimCoordinator
import Topics.ClaimPlaces
import Topics.WorkConnections
import Topics.CohortLeaders
import Topics.CohortReplies
import Topics.CoalescedClaims
import Topics.Lib.Disk
import Topics.SnapshotFiles
import Topics.RouterWakeups
import Topics.TailRollback
import Topics.Relocation
import Topics.PagedReads
import Topics.ExactDeletes
import Topics.DeadLetterCopies
import Topics.TopicCap
import Topics.Accounts
import Topics.IndexRun
import Topics.Connections
import Topics.SegmentFiles
import Topics.RouterCycles
