import NexusTask.Lib.Run
import NexusTask.Lib.RingBuffer
import NexusTask.Lib.Tally
import NexusTask.Lib.Threads
import NexusTask.Queue.Quiescent
import NexusTask.Pool.Wakeup
import NexusTask.Pool.Shutdown
import NexusTask.Pool.Submit
import NexusTask.Pool.Pausing
import NexusTask.Executor.Single
import NexusTask.Executor.Waiting
import NexusTask.Executor.Inflight
import NexusTask.Executor.Decrements
import NexusTask.Executor.Absorption
import NexusTask.Executor.Entered
import NexusTask.Executor.Balance
import NexusTask.Executor.Rejection
import NexusTask.Executor.Stopping
import NexusTask.Executor.Pooled
import NexusTask.Executor.Promises
import NexusTask.Executor.Launch
import NexusTask.Executor.Group
import NexusTask.Executor.LastCalls
import NexusTask.Executor.Lifecycle
import NexusTask.Queue.PrioritySet
import NexusTask.Pool.Scan
import NexusTask.Queue.Sequential
import NexusTask.Queue.Batch
import NexusTask.Queue.Slack
import NexusTask.Queue.Bounds
import NexusTask.Queue.Exclusive
import NexusTask.Queue.Atomic
import NexusTask.Queue.Phased
import NexusTask.Distributed.Routes
import NexusTask.Distributed.Ids
import NexusTask.Distributed.Placing
import NexusTask.Lib.RoundRobin
import NexusTask.Distributed.Turns
import NexusTask.Distributed.Loads
import NexusTask.Distributed.Unreachable
import NexusTask.Distributed.Completion
import NexusTask.Distributed.Broadcast
import NexusTask.Monitor.Steps
import NexusTask.Monitor.Peak
import NexusTask.Monitor.Reset
import NexusTask.Monitor.Extrema
import NexusTask.Monitor.Snapshot
import NexusTask.Lib.Expiry
import NexusTask.Lib.LastWrite
import NexusTask.Lib.Trim
import NexusTask.Config
import NexusTask.Config.RoundTrip
import NexusTask.Config.Indentation
import NexusTask.Lib.Decimal
import NexusTask.Lib.Exposition
import NexusTask.Lib.FlatObject
import NexusTask.Lib.Table
import NexusTask.Exporter
import NexusTask.Config.Numbers
import NexusTask.Cache
import NexusTask.Cache.Runs
import NexusTask.Cache.Ttl
import NexusTask.RateLimiter.Arithmetic
import NexusTask.RateLimiter.Crediting
import NexusTask.RateLimiter.Waiting
import NexusTask.Graph.Lists
import NexusTask.Lib.Kahn
import NexusTask.Graph.Topological
import NexusTask.Graph.Cycles
import NexusTask.Graph.Counter
import NexusTask.Graph.Submissions
import NexusTask.Pool.Conservation
import NexusTask.Executor.Cancel
import NexusTask.Executor.Callback
import NexusTask.Executor.Sequenced
import NexusTask.Executor.Stages
import NexusTask.Executor.Retries
import NexusTask.Chain
import NexusTask.Chain.Order
import NexusTask.Chain.Composition
import NexusTask.TaskScheduler.Cancelling
import NexusTask.TaskScheduler.Spacing
import NexusTask.TaskScheduler.Program
import NexusTask.Lib.Linearizable
import NexusTask.Pool.Bag
