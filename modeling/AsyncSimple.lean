import AsyncSimple.Lib.Transition
import AsyncSimple.Base.Try
import AsyncSimple.Sync.FutureState
import AsyncSimple.Sync.Rendezvous
import AsyncSimple.Sync.Theorems.Rendezvous
import AsyncSimple.Lib.Count
import AsyncSimple.Container.ThreadsafeQueue
import AsyncSimple.Util.ThreadPool
import AsyncSimple.Util.Theorems.ThreadPool
import AsyncSimple.Util.Theorems.Shutdown
import AsyncSimple.Util.Theorems.Pinning
import AsyncSimple.Util.AtomicPool
import AsyncSimple.Util.Theorems.AtomicPool
import AsyncSimple.Executor.SimpleExecutor
import AsyncSimple.Executor.Theorems.SimpleExecutor
import AsyncSimple.Executor.SyncSchedule
import AsyncSimple.Executor.Theorems.AtomicPool
import AsyncSimple.Executor.Theorems.SyncSchedule
import AsyncSimple.Lib.Counter
import AsyncSimple.Sync.Handles
import AsyncSimple.Sync.Theorems.SharedState
import AsyncSimple.Sync.Theorems.Handles
import AsyncSimple.Sync.Theorems.BrokenPromise
import AsyncSimple.Sync.Theorems.Release
import AsyncSimple.Sync.Theorems.GetFuture
import AsyncSimple.Sync.Theorems.Lifetime
import AsyncSimple.Sync.Theorems.CollectAll
import AsyncSimple.Coro.Theorems.Ownership
import AsyncSimple.Coro.Theorems.CollectAllWindowed
import AsyncSimple.Sync.Callback
import AsyncSimple.Sync.Chain
import AsyncSimple.Sync.Future
import AsyncSimple.Sync.Theorems.Future
import AsyncSimple.Sync.Theorems.FutureState
import AsyncSimple.Sync.Theorems.Chain
import AsyncSimple.Sync.Theorems.Propagation
import AsyncSimple.Sync.Wait
import AsyncSimple.Sync.Theorems.Wait
import AsyncSimple.Sync.Theorems.Producers
import AsyncSimple.Sync.Dispatch
import AsyncSimple.Sync.Theorems.Dispatch
import AsyncSimple.Sync.Delivery
import AsyncSimple.Sync.Theorems.Delivery
import AsyncSimple.Sync.Nested
import AsyncSimple.Sync.Theorems.Nested
import AsyncSimple.Coro.CountEvent
import AsyncSimple.Coro.Theorems.CountEvent
import AsyncSimple.Coro.CollectAll
import AsyncSimple.Coro.Theorems.CollectAll
import AsyncSimple.Coro.Theorems.CollectAny
import AsyncSimple.Coro.Lazy
import AsyncSimple.Coro.Theorems.Lazy
import AsyncSimple.Coro.Theorems.Stranding
import AsyncSimple.Coro.Theorems.Winner
import AsyncSimple.Coro.Theorems.Wiring
import AsyncSimple.Coro.Theorems.Progress
import AsyncSimple.Coro.Theorems.Exclusive
import AsyncSimple.Coro.Theorems.Termination
import AsyncSimple.Coro.Theorems.Steps
import AsyncSimple.Coro.Theorems.Marking
import AsyncSimple.Coro.Affinity
import AsyncSimple.Coro.Theorems.Affinity
import AsyncSimple.Coro.Context
import AsyncSimple.Coro.Theorems.Context
import AsyncSimple.Coro.Executorless
import AsyncSimple.Coro.Theorems.Executorless
import AsyncSimple.Coro.DirectStyle
import AsyncSimple.Coro.Theorems.DirectStyle
import AsyncSimple.Coro.Semantics
import AsyncSimple.Coro.Theorems.Semantics
import AsyncSimple.Coro.Theorems.Adequacy
import AsyncSimple.Coro.ViaCoroutine
import AsyncSimple.Coro.Theorems.ViaCoroutine
import AsyncSimple.Coro.FutureAwaiter
import AsyncSimple.Coro.Theorems.FutureAwaiter
import AsyncSimple.Coro.Awaiting
import AsyncSimple.Coro.Theorems.Awaiting
import AsyncSimple.Base.TryObject
import AsyncSimple.Base.Theorems.TryObject
import AsyncSimple.Base.TryVariant
import AsyncSimple.Base.Theorems.TryVariant
import AsyncSimple.Executor.SimpleIOExecutor
import AsyncSimple.Executor.Theorems.SimpleIOExecutor
import AsyncSimple.Container.SharedQueue
import AsyncSimple.Container.Theorems.SharedQueue
import AsyncSimple.Sync.Sources
import AsyncSimple.Sync.Theorems.Sources
