import Bionic.BuddyTree
import Bionic.Ba
import Bionic.BaRefine
import Bionic.BaRun
import Bionic.FutexLock
import Bionic.Mutex
import Bionic.MutexStep
import Bionic.MutexWord
import Bionic.RecursiveLock
import Bionic.MutexNormal
import Bionic.MutexRecursive
import Bionic.MutexWakeup
import Bionic.MutexHolder
import Bionic.Semaphore
import Bionic.SemaphoreRun
import Bionic.Linker
import Bionic.RefGraph
import Bionic.LinkerFrame
import Bionic.LinkerLoad
import Bionic.LinkerLink
import Bionic.LinkerUnload
import Bionic.LinkerRun
import Bionic.LinkerLifetime
import Bionic.LinkerAtomic
import Bionic.LinkerOrder
import Bionic.LinkerPreinit
import Bionic.LinkedList
import Bionic.SoinfoPool
import Bionic.DebugMap
import Bionic.ByteMemory
import Bionic.ElfLookup
import Bionic.PowerPc
import Bionic.Reloc
import Bionic.Plt
import Bionic.CopyReloc
import Bionic.Cond
import Bionic.SemaphoreUnits
import Bionic.CondRun
import Bionic.CxaGuard
import Bionic.Once
import Bionic.SystemProperties
import Bionic.ThreadList
import Bionic.Threads
import Bionic.ThreadLife
import Bionic.ThreadJoin
import Bionic.ThreadKeys
import Bionic.ThreadReclaim
import Bionic.ThreadReuse
import Bionic.TlsMap
import Bionic.Timers
import Bionic.DnsCache
import Bionic.RelocOrder
import Bionic.DnsCacheLru
import Bionic.DnsCacheReset
import Bionic.DnsCacheInFlight
import Bionic.CppBlocks
import Bionic.CppExpr
import Bionic.CppExprValue
import Bionic.MallocLeak
import Bionic.MallocLeakTable
import Bionic.MallocLeakOps
import Bionic.MallocLeakUser
import Bionic.MallocLeakRun
import Bionic.MallocLeakRealloc
import Bionic.RelocSplit
import Bionic.PltFar
import Bionic.OnceNested
import Bionic.KeyClean
import Bionic.MutexDepth
import Bionic.TimerAccount
import Bionic.TimerCreate
import Bionic.DnsGrammar
import Bionic.DnsReads
import Bionic.CppOptimize
import Bionic.CppTokenizer
import Bionic.ResSend
import Bionic.CppBlockParser
import Bionic.CppVars
import Bionic.CppEmptyLines
import Bionic.Worklist
import Bionic.HeaderFinder
import Bionic.MallocCheck
import Bionic.MallocSizes
import Bionic.MallocInfo
import Bionic.BaSizing
import Bionic.UserNames
import Bionic.DynamicSection
import Bionic.Dlsym
import Bionic.Fields
import Bionic.LibraryPath
import Bionic.LineParser
import Bionic.Pages
import Bionic.LoadSegments
import Bionic.SegmentPlacement
import Bionic.SegmentContents
import Bionic.WriteProtection
import Bionic.SymbolHash
import Bionic.Iterate
import Bionic.PathConf
import Bionic.MemMove
import Bionic.MemCcpy
import Bionic.MemMem
import Bionic.StrToTimeval
import Bionic.Arm
import Bionic.ArmStrlen
import Bionic.PathSplit
import Bionic.DirStream
import Bionic.ScanDir
import Bionic.LinkerPrintf
import Bionic.NsName
import Bionic.NsNamePack
import Bionic.Atexit
import Bionic.Fvwrite
import Bionic.Qsort
import Bionic.TreeBins
import Bionic.Dlmalloc
import Bionic.DlmallocHeap
import Bionic.DlmallocInv
import Bionic.DlmallocMalloc
import Bionic.DlmallocSys
import Bionic.DlmallocCalls
import Bionic.DlmallocTrim
import Bionic.DlmallocFree
import Bionic.DlmallocRun
