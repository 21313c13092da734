import AtomicQueue.Common.Channels.Order
import AtomicQueue.Common.Channels.Balance
import AtomicQueue.Common.Wrap
import AtomicQueue.Remap.Lap
import AtomicQueue.Model.History
import AtomicQueue.Concurrent.Step
import AtomicQueue.Concurrent.Counters
import AtomicQueue.Concurrent.Threads
import AtomicQueue.Concurrent.Slots
import AtomicQueue.Concurrent.Refinement
import AtomicQueue.Concurrent.Returns
import AtomicQueue.Concurrent.RealTime
import AtomicQueue.Concurrent.Fifo
import AtomicQueue.Concurrent.Conservation
import AtomicQueue.Concurrent.Exclusion
import AtomicQueue.Concurrent.Progress
import AtomicQueue.Concurrent.Quiescence
import AtomicQueue.Concurrent.Decisions
import AtomicQueue.Concurrent.Crowding
import AtomicQueue.Common.Object
import AtomicQueue.Model.Mutex
import AtomicQueue.Sequential.Fifo
import AtomicQueue.Sequential.Represents
import AtomicQueue.Sequential.Calls
import AtomicQueue.Sequential.Refinement
import AtomicQueue.Sequential.Mutex
import AtomicQueue.Sequential.Classes
import AtomicQueue.Sequential.Overwriting
import AtomicQueue.Sequential.Waiting
import AtomicQueue.Sequential.Capacity
import AtomicQueue.Concurrent.WasSize
import AtomicQueue.Concurrent.Spinlock
import AtomicQueue.Remap.Exchange
import AtomicQueue.Common.Heap
import AtomicQueue.Model.Buffer
import AtomicQueue.Sequential.Ownership
import AtomicQueue.Sequential.Lists
import AtomicQueue.Sequential.Values
import AtomicQueue.Model.HugePages
import AtomicQueue.Sequential.Arena
import AtomicQueue.Remap.Lines
import AtomicQueue.Model.Barrier
import AtomicQueue.Concurrent.Barrier
import AtomicQueue.Common.Schedule
import AtomicQueue.Model.PingPong
import AtomicQueue.Concurrent.PingPong
import AtomicQueue.Common.Tiling
import AtomicQueue.Model.Arenas
import AtomicQueue.Sequential.Arenas
import AtomicQueue.Common.Places
import AtomicQueue.Model.CpuTopology
import AtomicQueue.Sequential.CpuTopology
import AtomicQueue.Model.Construction
import AtomicQueue.Sequential.Construction
import AtomicQueue.Model.MovedFrom
import AtomicQueue.Sequential.MovedFrom
import AtomicQueue.Common.Linearizable
import AtomicQueue.Concurrent.Shared
import AtomicQueue.Concurrent.Linearizable
import AtomicQueue.Concurrent.Pair
import AtomicQueue.Common.Views.Basic
import AtomicQueue.Common.Views.Latest
import AtomicQueue.Common.Views.Guard
import AtomicQueue.Model.Orders
import AtomicQueue.Slot.Orders
import AtomicQueue.Concurrent.Drift
import AtomicQueue.Concurrent.Weak
import AtomicQueue.Concurrent.WeakStep
import AtomicQueue.Concurrent.Orders
import AtomicQueue.Common.Views.Critical
import AtomicQueue.Model.SpinlockOrders
import AtomicQueue.Model.MutexOrders
import AtomicQueue.Concurrent.SpinlockOrders
import AtomicQueue.Concurrent.Mutex
import AtomicQueue.Common.Channels.Drain
import AtomicQueue.Common.Helping
import AtomicQueue.Common.Double
import AtomicQueue.Model.Stress
import AtomicQueue.Concurrent.Drain
import AtomicQueue.Concurrent.Stress
import AtomicQueue.Concurrent.Checksum
import AtomicQueue.Concurrent.Moves
import AtomicQueue.Concurrent.Termination
