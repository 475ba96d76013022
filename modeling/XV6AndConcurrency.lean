import XV6AndConcurrency.Foundations.Int32
import XV6AndConcurrency.Foundations.Loops
import XV6AndConcurrency.Foundations.PagedMemory
import XV6AndConcurrency.Foundations.PanicState
import XV6AndConcurrency.Foundations.PointSums
import XV6AndConcurrency.VirtualMemory.AddressSpace
import XV6AndConcurrency.VirtualMemory.Boot
import XV6AndConcurrency.VirtualMemory.Copying
import XV6AndConcurrency.VirtualMemory.EagerFork
import XV6AndConcurrency.VirtualMemory.FaultPaths
import XV6AndConcurrency.VirtualMemory.Freeing
import XV6AndConcurrency.VirtualMemory.Growing
import XV6AndConcurrency.VirtualMemory.Images
import XV6AndConcurrency.VirtualMemory.Invariant
import XV6AndConcurrency.VirtualMemory.Isolation
import XV6AndConcurrency.VirtualMemory.Kalloc
import XV6AndConcurrency.VirtualMemory.Leaves
import XV6AndConcurrency.VirtualMemory.Mapping
import XV6AndConcurrency.VirtualMemory.Ownership
import XV6AndConcurrency.VirtualMemory.PageTable
import XV6AndConcurrency.VirtualMemory.ProcessTables
import XV6AndConcurrency.VirtualMemory.Processes
import XV6AndConcurrency.VirtualMemory.ReferenceCounts
import XV6AndConcurrency.VirtualMemory.Resolving
import XV6AndConcurrency.VirtualMemory.Riscv
import XV6AndConcurrency.VirtualMemory.SharedPages
import XV6AndConcurrency.VirtualMemory.Sharing
import XV6AndConcurrency.VirtualMemory.Steps
import XV6AndConcurrency.VirtualMemory.System
import XV6AndConcurrency.VirtualMemory.Unmapping
import XV6AndConcurrency.VirtualMemory.UserMemory
import XV6AndConcurrency.VirtualMemory.Writing
import XV6AndConcurrency.Scheduling.Tasks
import XV6AndConcurrency.Scheduling.Pass
import XV6AndConcurrency.Foundations.Transitions
import XV6AndConcurrency.Scheduling.Machine
import XV6AndConcurrency.Scheduling.Exclusive
import XV6AndConcurrency.Scheduling.Solo
import XV6AndConcurrency.Scheduling.Stored
import XV6AndConcurrency.Scheduling.Calls
import XV6AndConcurrency.Scheduling.Ranges
import XV6AndConcurrency.Scheduling.Reset
import XV6AndConcurrency.Scheduling.Accounting
import XV6AndConcurrency.Scheduling.CleanSlots
import XV6AndConcurrency.Scheduling.Kinship
import XV6AndConcurrency.Foundations.DiskBlocks
import XV6AndConcurrency.FileSystem.Log
import XV6AndConcurrency.FileSystem.Reservation
import XV6AndConcurrency.FileSystem.Recovery
import XV6AndConcurrency.Synchronization.Monitor
import XV6AndConcurrency.Synchronization.SleepLocks
import XV6AndConcurrency.Synchronization.Pipes
import XV6AndConcurrency.Synchronization.PipeWakeups
import XV6AndConcurrency.Foundations.Rings
import XV6AndConcurrency.Devices.VirtioDisk
import XV6AndConcurrency.Devices.VirtioRequests
import XV6AndConcurrency.Foundations.Circles
import XV6AndConcurrency.FileSystem.BufferCache
import XV6AndConcurrency.FileSystem.FileCounts
import XV6AndConcurrency.FileSystem.InodeReferences
import XV6AndConcurrency.FileSystem.InodeTable
import XV6AndConcurrency.FileSystem.Layout
import XV6AndConcurrency.Foundations.Intervals
import XV6AndConcurrency.Foundations.Walks
import XV6AndConcurrency.UserHeap.Umalloc
import XV6AndConcurrency.UserHeap.FreeLists
import XV6AndConcurrency.UserHeap.Malloc
import XV6AndConcurrency.UserHeap.HeapRuns
import XV6AndConcurrency.UserHeap.Guarantees
import XV6AndConcurrency.Synchronization.Spinlocks
import XV6AndConcurrency.Synchronization.LockOwners
import XV6AndConcurrency.Synchronization.InterruptFlags
import XV6AndConcurrency.Devices.Uart
import XV6AndConcurrency.Devices.Transmission
import XV6AndConcurrency.Devices.LineEditing
import XV6AndConcurrency.Devices.Console
import XV6AndConcurrency.Shell.Terminators
import XV6AndConcurrency.VirtualMemory.PageMap
import XV6AndConcurrency.Foundations.PostOrder
import XV6AndConcurrency.VirtualMemory.Slots
import XV6AndConcurrency.VirtualMemory.UserWrites
import XV6AndConcurrency.Foundations.PartialReads
import XV6AndConcurrency.VirtualMemory.UserReads
import XV6AndConcurrency.Grep.Output
import XV6AndConcurrency.Foundations.Lines
import XV6AndConcurrency.Foundations.CStrings
import XV6AndConcurrency.Grep.Matcher
import XV6AndConcurrency.Foundations.Prefixes
import XV6AndConcurrency.FileSystem.Paths
import XV6AndConcurrency.Foundations.Runs
import XV6AndConcurrency.Foundations.Moves
import XV6AndConcurrency.Strings.Memmove
import XV6AndConcurrency.FileSystem.Directories
import XV6AndConcurrency.FileSystem.Names
import XV6AndConcurrency.Foundations.SlotMaps
import XV6AndConcurrency.FileSystem.FileWrite
import XV6AndConcurrency.FileSystem.ReadWrite
import XV6AndConcurrency.FileSystem.Contents
import XV6AndConcurrency.Foundations.Splices
import XV6AndConcurrency.FileSystem.Allocation
import XV6AndConcurrency.FileSystem.Slots
import XV6AndConcurrency.FileSystem.StoredInodes
import XV6AndConcurrency.FileSystem.Blocks
import XV6AndConcurrency.FileSystem.Inodes
import XV6AndConcurrency.Foundations.Ledgers
import XV6AndConcurrency.FileSystem.OpenFiles
import XV6AndConcurrency.Parlour.Capacity
import XV6AndConcurrency.Parlour.Customers
import XV6AndConcurrency.Parlour.HandOff
import XV6AndConcurrency.Parlour.Lifecycle
import XV6AndConcurrency.Parlour.Mutex
import XV6AndConcurrency.Parlour.Semaphores
import XV6AndConcurrency.Parlour.Serving
import XV6AndConcurrency.Parlour.Simulation
import XV6AndConcurrency.Parlour.Steps
import XV6AndConcurrency.Parlour.Toppings
import XV6AndConcurrency.Parlour.Waste
import XV6AndConcurrency.Cafe.Service
import XV6AndConcurrency.Cafe.Baristas
import XV6AndConcurrency.Cafe.Departures
import XV6AndConcurrency.Cafe.Turns
import XV6AndConcurrency.Foundations.BinarySemaphores
import XV6AndConcurrency.Scheduling.DynamicPriority
import XV6AndConcurrency.Scheduling.TieBreaking
import XV6AndConcurrency.Scheduling.SetPriority
import XV6AndConcurrency.VirtualMemory.UserBytes
import XV6AndConcurrency.VirtualMemory.CopyFailure
import XV6AndConcurrency.SystemCalls.PipeRead
import XV6AndConcurrency.SystemCalls.Waitx
import XV6AndConcurrency.Shell.CommandLine
import XV6AndConcurrency.Shell.Completeness
import XV6AndConcurrency.Shell.Grammar
import XV6AndConcurrency.Shell.Lexer
import XV6AndConcurrency.Shell.Parser
import XV6AndConcurrency.Shell.Soundness
import XV6AndConcurrency.Shell.Tokens
import XV6AndConcurrency.Shell.Trees
import XV6AndConcurrency.Shell.Foreground
