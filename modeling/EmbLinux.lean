import EmbLinux.Lib.BlockPool
import EmbLinux.Lib.Chain
import EmbLinux.Lib.Update
import EmbLinux.Lib.ChainFamily
import EmbLinux.Lib.Count
import EmbLinux.Lib.System
import EmbLinux.Lib.Deterministic
import EmbLinux.Lib.Exclusive
import EmbLinux.Lib.Fifo
import EmbLinux.Lib.FiniteMap
import EmbLinux.Lib.Following
import EmbLinux.Lib.History
import EmbLinux.Lib.Lifo
import EmbLinux.Lib.Linearizable
import EmbLinux.Lib.Measure
import EmbLinux.Lib.Mutex
import EmbLinux.Lib.OrderedMap
import EmbLinux.Lib.Partition
import EmbLinux.Lib.Placement
import EmbLinux.Lib.Ranges
import EmbLinux.Lib.RingBuffer
import EmbLinux.Lib.SplitCount
import EmbLinux.LockFreeQueue.Model
import EmbLinux.LockFreeQueue.Contract
import EmbLinux.ThreadSafeQueue.Model
import EmbLinux.ThreadSafeQueue.Safety
import EmbLinux.ThreadSafeHashMap.Model
import EmbLinux.ThreadSafeHashMap.Contract
import EmbLinux.LockFreeStack.Model
import EmbLinux.LockFreeStack.Steps
import EmbLinux.LockFreeStack.Aba
import EmbLinux.LockFreeStack.Chains
import EmbLinux.LockFreeStack.Values
import EmbLinux.LockFreeStack.Tickets
import EmbLinux.LockFreeStack.Contract
import EmbLinux.LockFreeStack.Linearizability
import EmbLinux.HazardPointer.Model
import EmbLinux.HazardPointer.Places
import EmbLinux.HazardPointer.Reclaim
import EmbLinux.HazardPointer.Contract
import EmbLinux.Rcu.Model
import EmbLinux.Rcu.Steps
import EmbLinux.Rcu.Registry
import EmbLinux.Rcu.Pointers
import EmbLinux.Rcu.Protection
import EmbLinux.Rcu.Sections
import EmbLinux.Rcu.Domains
import EmbLinux.Rcu.GracePeriod
import EmbLinux.Rcu.Nesting
import EmbLinux.AtomicWait.Model
import EmbLinux.AtomicWait.WakeUps
import EmbLinux.FixedTask.Model
import EmbLinux.FixedTask.Objects
import EmbLinux.FixedTask.Ownership
import EmbLinux.ThreadPool.Flow
import EmbLinux.ThreadPool.Model
import EmbLinux.ThreadPool.Steps
import EmbLinux.ThreadPool.Conservation
import EmbLinux.ThreadPool.Pools
import EmbLinux.ThreadPool.Shutdown
import EmbLinux.ThreadPool.Stealing
import EmbLinux.ThreadPool.Stranded
import EmbLinux.ParallelAlgorithms.Model
import EmbLinux.ParallelAlgorithms.Chunks
import EmbLinux.ParallelAlgorithms.Tasks
import EmbLinux.ParallelAlgorithms.Schedules
import EmbLinux.CoroutinePool.Model
import EmbLinux.CoroutinePool.Accounting
import EmbLinux.CoroutinePool.Bounds
import EmbLinux.CoroutinePool.Restart
import EmbLinux.Generator.Model
import EmbLinux.Generator.Iteration
import EmbLinux.Task.Model
import EmbLinux.Task.Direct
import EmbLinux.Task.Steps
import EmbLinux.Task.Simulation
import EmbLinux.Task.Contract
import EmbLinux.Channel.Model
import EmbLinux.Channel.Steps
import EmbLinux.Channel.Waiters
import EmbLinux.Channel.Conservation
import EmbLinux.Channel.Destruction
import EmbLinux.Channel.Ledger
import EmbLinux.Channel.Serial
import EmbLinux.Channel.OneThread
import EmbLinux.Channel.WakeUps
import EmbLinux.EventLoop.Model
import EmbLinux.EventLoop.Delivery
import EmbLinux.DesignLockBase.LookupTable.Model
import EmbLinux.DesignLockBase.LookupTable.Buckets
import EmbLinux.DesignLockBase.LookupTable.Contract
import EmbLinux.DesignLockBase.Queue.Model
import EmbLinux.DesignLockBase.Queue.Steps
import EmbLinux.DesignLockBase.Queue.Nodes
import EmbLinux.DesignLockBase.Queue.Pushes
import EmbLinux.DesignLockBase.Queue.Invariant
import EmbLinux.DesignLockBase.Queue.Contract
import EmbLinux.DesignLockBase.Queue.WakeUps
import EmbLinux.DesignLockBase.ThreadsafeList.Model
import EmbLinux.DesignLockBase.ThreadsafeList.Steps
import EmbLinux.DesignLockBase.ThreadsafeList.Invariant
import EmbLinux.DesignLockBase.ThreadsafeList.Locks
import EmbLinux.DesignLockBase.ThreadsafeList.Pointers
import EmbLinux.DesignLockBase.ThreadsafeList.Traversals
import EmbLinux.DesignLockBase.ThreadsafeList.Removals
import EmbLinux.DesignLockBase.ThreadsafeList.Contract
import EmbLinux.DesignLockFree.Queue.Model
import EmbLinux.DesignLockFree.Queue.Steps
import EmbLinux.DesignLockFree.Queue.Nodes
import EmbLinux.DesignLockFree.Queue.Counts
import EmbLinux.DesignLockFree.Queue.Reclamation
import EmbLinux.DesignLockFree.Queue.Values
import EmbLinux.DesignLockFree.Queue.Tickets
import EmbLinux.DesignLockFree.Queue.Linearizability
import EmbLinux.DesignLockFree.Stack.Model
import EmbLinux.DesignLockFree.Stack.Steps
import EmbLinux.DesignLockFree.Stack.Nodes
import EmbLinux.DesignLockFree.Stack.Counts
import EmbLinux.DesignLockFree.Stack.Reclamation
import EmbLinux.DesignLockFree.Stack.Overflow
import EmbLinux.DesignLockFree.Queue.Overflow
import EmbLinux.DesignLockFree.Stack.Values
import EmbLinux.DesignLockFree.Stack.Contract
import EmbLinux.DesignConcurrentCode.Barrier
import EmbLinux.DesignConcurrentCode.BarrierThreads.Model
import EmbLinux.DesignConcurrentCode.BarrierThreads.Phases
import EmbLinux.DesignConcurrentCode.ParallelFind.Model
import EmbLinux.DesignConcurrentCode.ParallelFind.Search
import EmbLinux.DesignConcurrentCode.PartialSum.Model
import EmbLinux.DesignConcurrentCode.PartialSum.Deadlock
import EmbLinux.DesignConcurrentCode.QuickSort.Model
import EmbLinux.DesignConcurrentCode.QuickSort.Stacks
import EmbLinux.DesignConcurrentCode.QuickSort.Schedules
import EmbLinux.DesignConcurrentCode.QuickSort.Contract
import EmbLinux.AsyncTimer.Model
import EmbLinux.AsyncTimer.Fds
import EmbLinux.AsyncTimer.Firing
import EmbLinux.TimerTasks.Model
import EmbLinux.TimerTasks.Handles
import EmbLinux.Lib.Monitor
import EmbLinux.DesignLockBase.SingleMutexQueue
import EmbLinux.DesignLockBase.Stack
import EmbLinux.SynchronizingConcurrency.SharedState
import EmbLinux.DesignConcurrentCode.ParallelForEachAsync
import EmbLinux.DesignConcurrentCode.ParallelAccumulate
import EmbLinux.DesignConcurrentCode.FalseSharing
import EmbLinux.DesignConcurrentCode.GuiResponsiveness
import EmbLinux.CoroutinePool.Threads
import EmbLinux.CoroutinePool.ThreadsContract
import EmbLinux.MonotonicMemoryPool
import EmbLinux.WorkStealing.Model
import EmbLinux.WorkStealing.Steps
import EmbLinux.WorkStealing.Conservation
import EmbLinux.WorkStealing.Order
import EmbLinux.WorkStealing.Contract
import EmbLinux.WorkStealing.Progress
import EmbLinux.MemoryAtomicOperation.TreiberStack
import EmbLinux.Lib.Lines
import EmbLinux.Session09.Input
import EmbLinux.Session09.DeviceConfig.Model
import EmbLinux.Session09.DeviceConfig.Steps
import EmbLinux.Session09.DeviceConfig.Fields
import EmbLinux.Session09.DeviceConfig.Writer
import EmbLinux.Session09.DeviceControl.Model
import EmbLinux.Session09.DeviceControl.Steps
import EmbLinux.Session09.DeviceControl.Sessions
import EmbLinux.Session09.DeviceControl.Contract
import EmbLinux.Session09.SensorMonitor
