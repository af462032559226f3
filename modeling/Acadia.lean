import Acadia.Zion.Memory.BootHandOver
import Acadia.Zion.Memory.PagingCleanup
import Acadia.Zion.Lib.MessageQueueRuns
import Acadia.Zion.Scheduler.Cleanup
import Acadia.Zion.Syscall.Failures
import Acadia.Zion.Capability.CapabilityTableRuns
import Acadia.Zion.Object.Mutex
import Acadia.Zion.Object.Semaphore
import Acadia.Zion.Syscall.Replies
import Acadia.Zion.Scheduler.ProcessWait
import Acadia.Zion.Object.FreshMemory
import Acadia.Zion.Lib.MemoryMappingFree
import Acadia.Zion.Memory.PagingRuns
import Acadia.Zion.Memory.PhysicalMemoryCounts
import Acadia.Zion.Object.FaultOffsets
import Acadia.Zion.Object.MemmapPlacement
import Acadia.Zion.Syscall.Duplicates
import Acadia.Glacier.HashMapRuns
import Acadia.Zion.Scheduler.SleepingThreads
import Acadia.Yunq.Agreement
import Acadia.Yunq.Compiler.Codegen
import Acadia.Yunq.Compiler.LexerBytes
import Acadia.Denali.AhciPortRuns
import Acadia.Yunq.Endpoints
import Acadia.Yunq.ViewChecks
import Acadia.VictoriaFalls.BlockMap
import Acadia.VictoriaFalls.BlockReader
import Acadia.VictoriaFalls.InodeTable
import Acadia.Zion.Boot.Acpi
import Acadia.Denali.InterruptLoop
import Acadia.Zion.Memory.SlabRuns
import Acadia.Voyageurs.EventRing
import Acadia.Voyageurs.Keyboard
import Acadia.VictoriaFalls.DirectoryNames
import Acadia.Mammoth.MemoryRegion
import Acadia.Glacier.Hash
import Acadia.Glacier.RefPtr
import Acadia.Zion.Memory.StackRuns
import Acadia.Voyageurs.Descriptors
