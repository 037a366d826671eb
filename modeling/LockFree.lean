import LockFree.TransitionRuns
import LockFree.Linearizability
import LockFree.Contention
import LockFree.ReleaseAcquire
import LockFree.ViewMemory
import LockFree.OwnedHeap
import LockFree.BufferSize
import LockFree.RingWindow
import LockFree.MpmcQueue
import LockFree.MpmcQueueInvariant
import LockFree.MpmcQueueSafety
import LockFree.MpmcQueueSequential
import LockFree.MpmcQueueLifetimes
import LockFree.MpmcQueueRefusal
import LockFree.MpmcQueueThrow
import LockFree.MpmcQueueSize
import LockFree.SpscQueue
import LockFree.SpscQueueFifo
import LockFree.SpscQueueLifetimes
import LockFree.SpscQueueSize
import LockFree.RingCapacity
import LockFree.SpscQueueQueries
import LockFree.SpscQueueViews
import LockFree.SpscQueueOwnership
import LockFree.SpscQueueHandover
import LockFree.SpscQueueAnswers
import LockFree.BatchedSpscQueue
import LockFree.BatchedSpscQueueContract
import LockFree.SpinLock
import LockFree.SpinLockExclusion
import LockFree.SpinLockPublication
import LockFree.LockedStack
import LockFree.LockedStackLifo
import LockFree.LockedStackConstruction
import LockFree.AtomicMemcpy
import LockFree.AtomicMemcpyRuns
import LockFree.SeqLock
import LockFree.SeqLockExclusion
import LockFree.SeqLockAtomic
import LockFree.SeqLockRegister
import LockFree.SeqLockViews
import LockFree.SeqLockPublication
import LockFree.SeqLockConsistency
import LockFree.SeqLockAtomicViews
import LockFree.BoundedMulticastQueue
import LockFree.RingLaps
import LockFree.MulticastSlots
import LockFree.MulticastDelivery
import LockFree.MulticastShiftValue
import LockFree.MulticastVersions
import LockFree.MulticastTypes
import LockFree.MulticastBounds
import LockFree.MulticastResidue
import LockFree.MulticastLeftovers
import LockFree.MulticastViews
import LockFree.MulticastViewsDelivery
import LockFree.HugePageAllocator
import LockFree.HugePageMappings
import LockFree.AtomicSharedPtr
import LockFree.ReferenceLedger
import LockFree.ReferenceSteps
import LockFree.DirectReferences
import LockFree.SharedPtrDestruction
import LockFree.SharedPtrDestructionRuns
import LockFree.SharedPtrDestructionResult
import LockFree.SharedPtrClients
import LockFree.SharedPtrAccounts
import LockFree.SharedPtrRuns
import LockFree.SharedPtrMigrations
import LockFree.SharedPtrEffort
import LockFree.UnboundedLockFreeStack
import LockFree.LockFreeStackReferences
import LockFree.LockFreeStackSteps
import LockFree.LockFreeStackPop
import LockFree.LockFreeStackInvariant
import LockFree.LockFreeStackReclamation
import LockFree.LockFreeStackCalls
import LockFree.LockFreeStackLifo
import LockFree.LockFreeStackEffort
import LockFree.LockFreeStackProgress
