import Caffeinix.Lib.Tiling
import Caffeinix.Riscv
import Caffeinix.Buddy.Allocator
import Caffeinix.Buddy.Blocks
import Caffeinix.Buddy.Invariant
import Caffeinix.Buddy.Operations
import Caffeinix.Buddy.History
import Caffeinix.Buddy.Coalescing
import Caffeinix.Lib.Intervals
import Caffeinix.Vma.PageMap
import Caffeinix.Vma.Operations
import Caffeinix.Vma.Elf
import Caffeinix.Vma.World
import Caffeinix.Vma.Refinement
import Caffeinix.Vma.Atomicity
import Caffeinix.Lib.Counted
import Caffeinix.Mm.Machine
import Caffeinix.Mm.PageCache
import Caffeinix.Mm.Mmap
import Caffeinix.Mm.Step
import Caffeinix.Lib.Keyed
import Caffeinix.Mm.Invariant
import Caffeinix.Mm.Primitives
import Caffeinix.Mm.Entries
import Caffeinix.Mm.Lookup
import Caffeinix.Mm.World
import Caffeinix.Mm.Leaves
import Caffeinix.Mm.Fault
import Caffeinix.Mm.Calls
import Caffeinix.Mm.Processes
import Caffeinix.Mm.Sizes
import Caffeinix.Mm.Truncate
import Caffeinix.Lib.Runs
import Caffeinix.Mm.Run
import Caffeinix.Mm.Coherence
import Caffeinix.Mm.Isolation
import Caffeinix.Sched.Wait
import Caffeinix.Sched.WaitInvariant
import Caffeinix.Sched.WaitRun
import Caffeinix.Sched.Sleeplock
import Caffeinix.Lib.Census
import Caffeinix.Sched.Futex
import Caffeinix.Sched.FutexInvariant
import Caffeinix.Sched.FutexRun
import Caffeinix.Sched.FutexQueues
import Caffeinix.Fs.OpenFile
import Caffeinix.Fs.References
import Caffeinix.Fs.OpenFileInvariant
import Caffeinix.Fs.Descriptors
import Caffeinix.Fs.PipeEnds
import Caffeinix.Fs.PipeCalls
import Caffeinix.Fs.OpenFileRun
import Caffeinix.Lib.LockPath
import Caffeinix.Lib.LockThreads
import Caffeinix.Locking.Paths
import Caffeinix.Locking.Footprint
import Caffeinix.Locking.Order
import Caffeinix.Locking.Reentry
import Caffeinix.Locking.Sleeping
import Caffeinix.Ext4.File
import Caffeinix.Lib.Pieces
import Caffeinix.Ext4.Transfer
import Caffeinix.Ext4.Fallocate
import Caffeinix.Lib.PagedBytes
import Caffeinix.Tmpfs.File
import Caffeinix.Tmpfs.FileRefinement
import Caffeinix.Lib.Chains
import Caffeinix.Tmpfs.Tree
import Caffeinix.Tmpfs.TreeInvariant
import Caffeinix.Tmpfs.TreeRename
import Caffeinix.Tmpfs.TreeRun
import Caffeinix.Tmpfs.Scan
import Caffeinix.Lib.NameTree
import Caffeinix.Ext4.Disk
import Caffeinix.Ext4.Adapter
import Caffeinix.Ext4.DiskInvariant
import Caffeinix.Ext4.Rename
import Caffeinix.Ext4.System
import Caffeinix.Ext4.Identity
import Caffeinix.Ext4.OpenTable
import Caffeinix.Ext4.OpenFiles
import Caffeinix.Process.Credentials
import Caffeinix.Process.Exec
import Caffeinix.Signal.Model
import Caffeinix.Signal.Pending
import Caffeinix.Signal.Stop
import Caffeinix.Vma.Gap
import Caffeinix.Buddy.Memrange
import Caffeinix.Time.Ktime
import Caffeinix.Time.LoadAverage
import Caffeinix.Buddy.Heap
import Caffeinix.Sched.Restart
import Caffeinix.Net.Mailbox
import Caffeinix.Net.Transmit
