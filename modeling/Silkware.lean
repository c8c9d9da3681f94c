import Silkware.Kern
import Silkware.Bits
import Silkware.ByteMem
import Silkware.Links
import Silkware.Segments
import Silkware.PageAlloc
import Silkware.PageAllocInv
import Silkware.PageRuns
import Silkware.Kalloc
import Silkware.KallocInv
import Silkware.KallocRuns
import Silkware.HashMap
import Silkware.HashMapRuns
import Silkware.Fifo
import Silkware.Sched
import Silkware.SchedInv
import Silkware.SchedRuns
import Silkware.SchedSweep
import Silkware.Ctx
import Silkware.CtxRuns
import Silkware.Outcome
import Silkware.Paging
import Silkware.MapLoop
import Silkware.Premap
import Silkware.Window
import Silkware.TabNew
import Silkware.Anon
import Silkware.AnonRuns
import Silkware.Walkers
import Silkware.HashMapSound
import Silkware.ProcSpace
import Silkware.ChaCha
import Silkware.ProcPages
import Silkware.Rand
import Silkware.ProcNew
import Silkware.SchedLoad
import Silkware.ProcTable
import Silkware.Buddies
import Silkware.PageRestore
import Silkware.ProcIsolated
import Silkware.Lifecycle
import Silkware.PageStep
import Silkware.PageBack
import Silkware.PoolSetup
import Silkware.AllocSizes
import Silkware.MemOps
import Silkware.Realloc
import Silkware.HeapOrder
import Silkware.HeapTally
import Silkware.HashMapGrow
import Silkware.HashMapLookup
import Silkware.Unmap
import Silkware.Protection
import Silkware.Syscall
import Silkware.SyscallRuns
import Silkware.ProcStack
import Silkware.ProcTables
import Silkware.MemCmp
import Silkware.ScreenChoice
import Silkware.Timer
import Silkware.Console
import Silkware.Vec
import Silkware.Madt
import Silkware.AcpiFind
import Silkware.XorShift
import Silkware.Canary
import Silkware.PowersOfTwo
import Silkware.ByteStore
import Silkware.Hpet
import Silkware.Pci
import Silkware.HostIo
import Silkware.SpinLock
import Silkware.PageLock
import Silkware.PageShared
import Silkware.PageCpus
import Silkware.MiniheapCpus
import Silkware.MpStart
import Silkware.Directives
import Silkware.Ftoa
import Silkware.Printf
import Silkware.PrintfInt
import Silkware.PrintfFloat
import Silkware.PrintfRuns
import Silkware.LeastLoaded
import Silkware.PrintfCpus
import Silkware.SchedScan
import Silkware.HeapPages
