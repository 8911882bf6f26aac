import Kerosene.Lib.Machine
import Kerosene.Lib.Count
import Kerosene.Lib.Chain
import Kerosene.Lib.Blocks
import Kerosene.Lib.Semaphore
import Kerosene.Lib.Forest
import Kerosene.Lib.Grants
import Kerosene.Lib.Alarms
import Kerosene.Lib.Silent
import Kerosene.Lib.Splice
import Kerosene.Lib.Words
import Kerosene.Libc.Calendar
import Kerosene.Libc.Scanf
import Kerosene.Libc.ScanCalls
import Kerosene.Mem.Pmm
import Kerosene.Mem.PmmSearch
import Kerosene.Mem.PmmRun
import Kerosene.Mem.Paging
import Kerosene.Mem.Windows
import Kerosene.Mem.ActiveCalls
import Kerosene.Mem.PageMap
import Kerosene.Mem.KernelHalf
import Kerosene.Mem.InactiveCalls
import Kerosene.Mem.Directories
import Kerosene.Mem.Translation
import Kerosene.Mem.FrameAccounts
import Kerosene.Mem.Teardown
import Kerosene.Mem.AddressSpace
import Kerosene.Mem.Heap
import Kerosene.Mem.HeapRegions
import Kerosene.Mem.HeapGrowth
import Kerosene.Mem.HeapFree
import Kerosene.Mem.HeapMerge
import Kerosene.Mem.HeapRefusal
import Kerosene.Elf.Loader
import Kerosene.Elf.Mapping
import Kerosene.Elf.Isolation
import Kerosene.Fat32.Clusters
import Kerosene.Fat32.ChainStore
import Kerosene.Fat32.ChainRun
import Kerosene.Fat32.FreeHint
import Kerosene.Fat32.Growth
import Kerosene.Fat32.FileWrite
import Kerosene.Fat32.WriteSteps
import Kerosene.Fat32.WriteLaw
import Kerosene.Sched.Queue
import Kerosene.Sched.Scheduler
import Kerosene.Sched.Lines
import Kerosene.Sched.Places
import Kerosene.Sched.Registry
import Kerosene.Sched.Effects
import Kerosene.Sched.Locations
import Kerosene.Sched.Sleepers
import Kerosene.Sched.Permits
import Kerosene.Sched.Handoff
import Kerosene.Ramfs.Datanodes
import Kerosene.Ramfs.Directory
import Kerosene.Ramfs.DirectorySlots
import Kerosene.Ramfs.DirectoryReads
import Kerosene.Ramfs.DirectoryWrites
import Kerosene.Ramfs.DirectoryRun
import Kerosene.Ramfs.OrderedSet
import Kerosene.Ramfs.Create
import Kerosene.Ramfs.CreateCalls
import Kerosene.Ramfs.AllOrNothing
import Kerosene.Ramfs.Bytes
import Kerosene.Ramfs.Pipe
import Kerosene.Ramfs.PipeData
import Kerosene.Ramfs.PipePermits
import Kerosene.Ramfs.PipeRun
import Kerosene.Ramfs.File
import Kerosene.Ramfs.FileWrite
import Kerosene.Process.Arguments
import Kerosene.Process.Descriptors
import Kerosene.Ramfs.Appenders
import Kerosene.Ramfs.Overwrite
import Kerosene.Files.Calls
import Kerosene.Files.Reads
import Kerosene.Ramfs.FileRead
import Kerosene.Ramfs.WriteShapes
import Kerosene.Ramfs.Builds
import Kerosene.Ramfs.AppendLaw
import Kerosene.Fat32.FileRead
import Kerosene.Fat32.DirectoryAdd
import Kerosene.Fat32.ShortNames
import Kerosene.Fat32.NewClusters
import Kerosene.Fat32.Duplicates
import Kerosene.Files.SeekRead
import Kerosene.Files.BoundedRead
import Kerosene.Ramfs.WritePointers
import Kerosene.Files.EmptyTransfers
import Kerosene.Vfs.Tree
import Kerosene.Vfs.Lookup
import Kerosene.Vfs.Links
import Kerosene.Vfs.Accounts
import Kerosene.Vfs.Open
import Kerosene.Vfs.OpenFiles
import Kerosene.Vfs.Frames
import Kerosene.Vfs.FileLocks
import Kerosene.Vfs.LockAccounts
import Kerosene.Vfs.LockRuns
import Kerosene.Vfs.FreeLocks
import Kerosene.Vfs.Branch
import Kerosene.Vfs.FailedSearch
import Kerosene.Vfs.Paths
import Kerosene.Vfs.Leaks
import Kerosene.Vfs.Spelling
import Kerosene.Vfs.Exclusive
import Kerosene.Files.Truncate
import Kerosene.Fat32.AllocationRange
import Kerosene.Fat32.EntryFrame
import Kerosene.Fat32.NodeCreate
import Kerosene.Fat32.Mkdir
import Kerosene.Fat32.Clearing
import Kerosene.Fat32.BootSector
import Kerosene.Fat32.ChainWalks
import Kerosene.Fat32.DecodeBounds
import Kerosene.Fat32.SmallWrites
import Kerosene.Fat32.NewFile
import Kerosene.Files.Copies
import Kerosene.Fat32.CopiedFile
import Kerosene.Fat32.CopiesOut
import Kerosene.Fat32.CopiesAcross
import Kerosene.Fat32.ChainCopy
import Kerosene.Sched.Turns
import Kerosene.Sched.RoundRobin
import Kerosene.Sched.Syscalls
import Kerosene.Elf.Coverage
import Kerosene.Elf.FileBounds
import Kerosene.Mem.Rights
import Kerosene.Process.ArgumentVector
import Kerosene.Ramfs.PipeFailures
import Kerosene.Mem.ActiveFilling
import Kerosene.Process.Spawn
import Kerosene.Process.FailedSpawn
import Kerosene.Fat32.FoundNames
import Kerosene.Fat32.KeptListings
import Kerosene.Sched.QueueRuns
import Kerosene.Mem.MemoryMap
import Kerosene.Fat32.Timestamps
import Kerosene.Libc.Integers
import Kerosene.Mem.HeapAligned
import Kerosene.Libc.Tokens
import Kerosene.Keroshell.Prompt
import Kerosene.Lib.Terminal
import Kerosene.Video.Vga
import Kerosene.Video.VgaPrinting
import Kerosene.Video.Framebuffer
import Kerosene.Video.FramebufferPrinting
import Kerosene.Files.Iteration
import Kerosene.Files.DescriptorListing
import Kerosene.Libc.Memmove
import Kerosene.Libc.TokenCalls
import Kerosene.Ramfs.Allocation
import Kerosene.Lib.Frames
import Kerosene.Driver.Keyboard
import Kerosene.Driver.Typing
import Kerosene.Driver.Stdin
import Kerosene.Fat32.RemoveEntry
import Kerosene.Fat32.Removal
import Kerosene.Fat32.Moves
import Kerosene.Libc.Printf
import Kerosene.Libc.PrintScan
import Kerosene.Video.Stdout
import Kerosene.Mem.HeapRuns
import Kerosene.Lib.Fields
import Kerosene.Lib.Raster
import Kerosene.Video.Pixels
import Kerosene.Video.Drawing
import Kerosene.Video.Console
import Kerosene.Video.ConsolePixels
import Kerosene.Video.ConsoleText
import Kerosene.Driver.Clock
import Kerosene.Process.Validation
import Kerosene.Libc.Strings
import Kerosene.Process.Environment
import Kerosene.Lib.Spinlock
import Kerosene.Sched.Spinlocks
import Kerosene.Fat32.BeyondVolume
