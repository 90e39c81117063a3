import UnifiedOS.Foundation.TransitionSystem
import UnifiedOS.Memory.HeapRun
import UnifiedOS.Memory.HeapGrowth
import UnifiedOS.Memory.SplitCalls
import UnifiedOS.Memory.VirtualHeap
import UnifiedOS.Paging.FrameOwnership
import UnifiedOS.Paging.MemoryMap
import UnifiedOS.Paging.PageRanges
import UnifiedOS.Paging.MemoryAccounting
import UnifiedOS.Paging.Translation
import UnifiedOS.Paging.PageExhaustion
import UnifiedOS.FileSystem.DiskRequests
import UnifiedOS.FileSystem.BlockTransfer
import UnifiedOS.FileSystem.DiskErrors
import UnifiedOS.FileSystem.PartitionDevice
import UnifiedOS.FileSystem.PartitionTable
import UnifiedOS.Drivers.CommandList
import UnifiedOS.Scheduling.Fairness
import UnifiedOS.Scheduling.Contexts
import UnifiedOS.Scheduling.Processors
import UnifiedOS.SMP.Spinlock
import UnifiedOS.SMP.InterruptEntry
import UnifiedOS.SMP.HandOver
import UnifiedOS.FileSystem.FAT32.ClusterChain
import UnifiedOS.FileSystem.FAT32.ScanRun
import UnifiedOS.FileSystem.FAT32.ClusterBoundary
import UnifiedOS.FileSystem.FAT32.ClusterSectors
import UnifiedOS.FileSystem.FAT32.LongNames
import UnifiedOS.FileSystem.FAT32.PathAccesses
import UnifiedOS.FileSystem.FAT32.BootSector
import UnifiedOS.FileSystem.FAT32.ScanBlocks
import UnifiedOS.Common.VectorLock
import UnifiedOS.Common.VectorCopy
import UnifiedOS.FileSystem.MountLetters
import UnifiedOS.Devices.PCI
import UnifiedOS.Devices.APICTable
import UnifiedOS.Paging.FreeFrames
import UnifiedOS.Paging.BootMemory
import UnifiedOS.SMP.CPUSlots
import UnifiedOS.SMP.LoadBalance
import UnifiedOS.Common.Printing
import UnifiedOS.Devices.ACPITables
import UnifiedOS.Devices.PIT
import UnifiedOS.FileSystem.TGA
import UnifiedOS.Common.HexStrings
import UnifiedOS.Drivers.Discovery
import UnifiedOS.Drivers.PS2Mouse
import UnifiedOS.Interrupts.Delivery
import UnifiedOS.Interrupts.Syscalls
import UnifiedOS.Scheduling.Preemption
import UnifiedOS.Scheduling.ProcessMemory
import UnifiedOS.Scheduling.Linearization
import UnifiedOS.Scheduling.LockedProcessors
