import BestOS.ByteMemory
import BestOS.BitMask
import BestOS.ResourcePool
import BestOS.RadixForest
import BestOS.BlockHeap
import BestOS.NearestMark
import BestOS.Rotation
import BestOS.AccessLog
import BestOS.Fuel
import BestOS.NulString
import BestOS.SpinLock
import BestOS.Mem
import BestOS.Pmm
import BestOS.PmmSound
import BestOS.Frames
import BestOS.PmmInit
import BestOS.Vmm
import BestOS.LibAlloc
import BestOS.PageTable
import BestOS.MapRange
import BestOS.AddressSpaces
import BestOS.SpaceInv
import BestOS.KernelHalf
import BestOS.PmmRanges
import BestOS.PmmCount
import BestOS.DirectMap
import BestOS.TaskAlias
import BestOS.Mmap
import BestOS.MmapOutcome
import BestOS.ExitFrames
import BestOS.Vec
import BestOS.Sched
import BestOS.Interrupts
import BestOS.RoundRobin
import BestOS.SchedLock
import BestOS.KernelStack
import BestOS.FpuImages
import BestOS.Str
import BestOS.Vfs
import BestOS.VfsTree
import BestOS.Syscalls
import BestOS.Descriptors
import BestOS.FreshTasks
import BestOS.SequentialRead
import BestOS.ReadAfterWrite
import BestOS.FileEffects
import BestOS.FileBuffers
import BestOS.ReadConfined
import BestOS.WriteSemantics
import BestOS.WriteCapacity
import BestOS.SequentialWrite
import BestOS.KnownFields
import BestOS.KnownCalls
import BestOS.FreshNodes
import BestOS.SharedCursor
import BestOS.OpenAt
import BestOS.Elf
import BestOS.ElfConfined
import BestOS.ElfSegment
import BestOS.ElfImage
import BestOS.SegmentStep
import BestOS.ElfSections
import BestOS.UstarTree
import BestOS.ArchiveRead
import BestOS.ArchiveWalk
import BestOS.TreeSteps
import BestOS.TreeShape
import BestOS.DotEntries
import BestOS.MountCoherence
import BestOS.PathDispatch
import BestOS.ByteLayout
import BestOS.ExecStack
import BestOS.StackConfined
import BestOS.SyscallAbi
import BestOS.Dispatch
import BestOS.VecMem
import BestOS.TtyRead
import BestOS.Print
import BestOS.PrintFormat
import BestOS.Gates
import BestOS.StrMem
import BestOS.Basename
import BestOS.ParsePath
import BestOS.InvalidFd
import BestOS.OpenFailure
import BestOS.ExecveFailure
import BestOS.HeapRun
import BestOS.VecHeap
import BestOS.TtyLock
import BestOS.SpaceIsolation
