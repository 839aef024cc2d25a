import KnowHow.Core.Run
import KnowHow.Core.Links
import KnowHow.Core.HashTable
import KnowHow.Core.Bytes
import KnowHow.Core.FreeLists
import KnowHow.Core.FirstFit
import KnowHow.Core.Walk
import KnowHow.Mem.Memory
import KnowHow.Mem.Partition
import KnowHow.Mem.InitRange
import KnowHow.Mem.Failure
import KnowHow.MultiTask.Paging
import KnowHow.MultiTask.Fork
import KnowHow.MultiTask.ForkMemory
import KnowHow.MultiTask.PageFault
import KnowHow.MultiTask.ForkDuplicates
import KnowHow.MultiTask.ForkAtomic
import KnowHow.MultiTask.PageContents
import KnowHow.MultiTask.Exec
import KnowHow.MultiTask.CopyOnWrite
import KnowHow.Minixfs.Buffer
import KnowHow.Minixfs.FreeList
import KnowHow.Minixfs.BlockIndex
import KnowHow.Minixfs.HardDisk
import KnowHow.Minixfs.GetBlock
import KnowHow.Minixfs.CacheRuns
import KnowHow.Minixfs.FreeRuns
import KnowHow.Minixfs.Coherence
import KnowHow.Minixfs.RequestQueue
import KnowHow.Minixfs.BlockUse
import KnowHow.Minixfs.BlockStore
import KnowHow.Minixfs.FileSystem
import KnowHow.Minixfs.BitScan
import KnowHow.Minixfs.Bitmap
import KnowHow.Minixfs.Inodes
import KnowHow.Minixfs.InodeCache
import KnowHow.Minixfs.InodeUse
import KnowHow.Minixfs.MapBounds
import KnowHow.Minixfs.Start
import KnowHow.Minixfs.Mount
import KnowHow.Minixfs.InodeRuns
import KnowHow.Minixfs.InodeStore
import KnowHow.Minixfs.Zones
import KnowHow.Minixfs.Path
import KnowHow.Minixfs.Directory
import KnowHow.Minixfs.Resolution
import KnowHow.Minixfs.ExactNames
import KnowHow.Minixfs.MissingName
import KnowHow.Core.HeapOrder
import KnowHow.Core.Leaves
import KnowHow.Struct.Heap
import KnowHow.Minixfs.ZoneTree
import KnowHow.Minixfs.Sectors
import KnowHow.Minixfs.Recency
import KnowHow.MultiTask.TaskTree
import KnowHow.MultiTask.TaskSwitch
import KnowHow.Core.Descriptors
import KnowHow.Libc.Strings
import KnowHow.Libc.Shell
import KnowHow.Libc.Pipeline
import KnowHow.Libc.Print
import KnowHow.Vga.Vga
import KnowHow.Vga.Split
import KnowHow.Libc.Cat
import KnowHow.Core.Rings
import KnowHow.Libc.ListHead
import KnowHow.Minixfs.QueueBounds
import KnowHow.Minixfs.Lba
import KnowHow.Minixfs.InodeFailure
import KnowHow.Minixfs.StaleInode
import KnowHow.Minixfs.ZoneNumbers
import KnowHow.Minixfs.PathComposition
import KnowHow.Minixfs.SearchEnds
import KnowHow.Core.Ledger
import KnowHow.Minixfs.WalkLog
import KnowHow.Core.Reuse
import KnowHow.Minixfs.WalkReads
import KnowHow.Minixfs.Balance
import KnowHow.Core.Numerals
import KnowHow.Libc.Numbers
import KnowHow.Minixfs.Log
import KnowHow.Vga.Numbers
import KnowHow.Core.Search
import KnowHow.Libc.Strstr
import KnowHow.Core.Tokens
import KnowHow.Libc.Tokens
import KnowHow.Libc.Trim
import KnowHow.Libc.RunCmd
import KnowHow.Libc.Survive
import KnowHow.Libc.Format
import KnowHow.Core.Copy
import KnowHow.Libc.Memcpy
import KnowHow.Libc.Compare
import KnowHow.Struct.Compared
import KnowHow.Struct.IntHeap
import KnowHow.Core.Words
import KnowHow.MultiTask.Descriptors
import KnowHow.Vga.Console
import KnowHow.Vga.Cursor
import KnowHow.MultiTask.Irq
import KnowHow.Libc.Ls
import KnowHow.Minixfs.Listing
import KnowHow.Mem.LogSize
import KnowHow.Minixfs.FileTail
import KnowHow.MultiTask.ForkMembers
import KnowHow.MultiTask.Family
import KnowHow.MultiTask.FamilyFork
import KnowHow.MultiTask.Boot
import KnowHow.MultiTask.FamilyRuns
import KnowHow.MultiTask.Lock
import KnowHow.MultiTask.FamilyTree
import KnowHow.MultiTask.Schedule
import KnowHow.Minixfs.DiskStore
import KnowHow.Core.StoreBuffer
import KnowHow.Core.Rendezvous
import KnowHow.Gcc.Barrier
import KnowHow.MultiTask.Trap
import KnowHow.MultiTask.FamilyStacks
