import Btlos.Library.Cover
import Btlos.Library.Ledger
import Btlos.Library.Outcome
import Btlos.Library.RingWalk
import Btlos.Library.Scanf
import Btlos.Library.Transition
import Btlos.Paging.EntryFormats
import Btlos.Paging.SwapAccounting
import Btlos.Paging.Residents
import Btlos.Paging.LruTrace
import Btlos.Paging.DeviceKinds
import Btlos.Paging.PageCopy
import Btlos.Paging.PgnNodes
import Btlos.Paging.FramePool
import Btlos.Paging.FreeMemph
import Btlos.Paging.Mapping
import Btlos.Paging.PageView
import Btlos.Paging.SwapContents
import Btlos.Vm.AddressSpace
import Btlos.Vm.FrameAccounting
import Btlos.Vm.AreaList
import Btlos.Vm.Cells
import Btlos.Vm.MemoryLaw
import Btlos.Vm.Discipline
import Btlos.Vm.Containment
import Btlos.Vm.FreshMemory
import Btlos.Vm.FirstFitLaw
import Btlos.Vm.SearchEnds
import Btlos.Vm.SizeArithmetic
import Btlos.Vm.FailedCalls
import Btlos.Vm.Aliasing
import Btlos.Vm.AllocPaths
import Btlos.Vm.ReadOutcome
import Btlos.Vm.SymbolBounds
import Btlos.Sched.Conservation
import Btlos.Sched.Cycles
import Btlos.Sched.Concurrent
import Btlos.Sched.Serial
import Btlos.Sched.PriorityQueue
import Btlos.Sched.Restart
import Btlos.Os.Loader
import Btlos.Os.Ownership
import Btlos.Os.Shutdown
import Btlos.Os.Timer
import Btlos.Os.TimerLocks
import Btlos.Os.TimerWakeups
import Btlos.Os.TimeSlice
import Btlos.Os.Starvation
import Btlos.Os.Clocked
import Btlos.Os.Lockstep
import Btlos.Os.Arrivals
import Btlos.Os.Instructions
import Btlos.Paging.Lifetime
import Btlos.Vm.Demand
import Btlos.Os.Demand
import Btlos.Vm.Banks
import Btlos.Vm.RgNodes
import Btlos.Paging.FrameNodes
import Btlos.Paging.FrameRace
import Btlos.Os.ReadConfig
import Btlos.Paging.Overlap
import Btlos.Library.Greedy
import Btlos.Os.Turns
import Btlos.Os.Attended
import Btlos.Os.Rounds
import Btlos.Os.WorkConserving
import Btlos.Os.Completion
import Btlos.Os.Progress
import Btlos.Os.Deadlock
