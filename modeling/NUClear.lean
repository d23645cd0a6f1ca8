import NUClear.Foundation.Reachability
import NUClear.Foundation.Interleaving
import NUClear.Foundation.PublishRing
import NUClear.Foundation.BucketQueue
import NUClear.Scheduler.Priority
import NUClear.Scheduler.Group.Basic
import NUClear.Scheduler.Group.Interleaved
import NUClear.Scheduler.Group.Accounting
import NUClear.Scheduler.Group.Exclusion
import NUClear.Scheduler.Group.Stranding
import NUClear.Scheduler.Group.Wakeup
import NUClear.Scheduler.Group.Operations
import NUClear.Scheduler.Group.Sequential
import NUClear.Scheduler.Group.Order
import NUClear.Scheduler.Group.Handles
import NUClear.Scheduler.Group.Rank
import NUClear.Scheduler.Group.SlowPath
import NUClear.Scheduler.CombinedLock
import NUClear.Scheduler.Deadlock
import NUClear.Scheduler.Pool
import NUClear.Scheduler.Ownership
import NUClear.Scheduler.Walk
import NUClear.Scheduler.Sleep
import NUClear.Scheduler.Submission
import NUClear.Scheduler.Dispatch
import NUClear.Foundation.Heap
import NUClear.Foundation.Varint
import NUClear.Extension.ChronoController
import NUClear.Extension.Timers
import NUClear.Foundation.BinarySearch
import NUClear.Extension.IOController
import NUClear.Extension.IORebuild
import NUClear.Extension.IOPolling
import NUClear.Extension.IOMasks
import NUClear.Extension.IOWakeup
import NUClear.Extension.IOWindows
import NUClear.Extension.Reentry
import NUClear.Threading.Statistics
import NUClear.Foundation.IteratedVector
import NUClear.Dsl.Emit
import NUClear.Foundation.DefBeforeUse
import NUClear.Extension.TraceController
import NUClear.Extension.Trace.Protobuf
import NUClear.Scheduler.Pool.Interleaved
import NUClear.Scheduler.Pool.Accesses
import NUClear.Scheduler.Pool.Mutex
import NUClear.Scheduler.Pool.Handshake
import NUClear.Scheduler.Pool.Pending
import NUClear.Scheduler.Pool.Drain
import NUClear.Scheduler.Pool.Idle
import NUClear.Scheduler.Pool.IdleCounters
import NUClear.Extension.Network.Peers
import NUClear.Foundation.CheckedMemory
import NUClear.Extension.Network.Wire
import NUClear.Extension.Network.Reception
import NUClear.Extension.Network.Fragmentation
import NUClear.Extension.Network.Safety
import NUClear.Extension.Network.Link
import NUClear.Extension.Network.Acknowledgement
import NUClear.Extension.Network.Reassembly
import NUClear.Extension.Network.RecentPackets
import NUClear.Extension.Network.Repetition
import NUClear.Extension.Network.Delivery
import NUClear.Extension.Network.Completion
import NUClear.Foundation.SharedDeadline
import NUClear.Extension.Network.Retransmission
import NUClear.Extension.Network.NextEvent
import NUClear.Extension.Network.Discovery
import NUClear.Foundation.QueueHistory
import NUClear.Scheduler.Queue.Blocks
import NUClear.Scheduler.Queue.Places
import NUClear.Scheduler.Queue.Board
import NUClear.Scheduler.Queue.Producers
import NUClear.Scheduler.Queue.TaskQueue
import NUClear.Scheduler.Queue.MPSCQueue
import NUClear.Scheduler.Queue.Progress
import NUClear.Scheduler.Queue.Delivery
import NUClear.Scheduler.Queue.Sequential
import NUClear.Scheduler.Queue.Fifo
import NUClear.Scheduler.Queue.Graveyard
import NUClear.Scheduler.Group.Admission
import NUClear.Scheduler.Exclusion
import NUClear.Scheduler.Conservation
import NUClear.Scheduler.Registry
import NUClear.Util.RelevantArguments
import NUClear.Util.FunctionFusion
import NUClear.Util.Xxhash
import NUClear.Foundation.Pieces
import NUClear.Foundation.Multimap
import NUClear.Util.Serialise
import NUClear.Extension.NetworkController
import NUClear.Dsl.Always
import NUClear.Dsl.Buffer
import NUClear.Dsl.Last
import NUClear.Dsl.Once
import NUClear.Dsl.Stores
import NUClear.Dsl.Transient
import NUClear.Dsl.Watchdog
import NUClear.Clock
