import AuOs.Lib.Post
import AuOs.Lib.Dyadic
import AuOs.Base
import AuOs.Memory.Page
import AuOs.Memory.Zone
import AuOs.Memory.ZoneInv
import AuOs.Memory.Release
import AuOs.Memory.Zones
import AuOs.Lib.CallSystem
import AuOs.Memory.BuddyRun
import AuOs.Rbtree.Tree
import AuOs.Rbtree.Valid
import AuOs.Rbtree.Height
import AuOs.Rbtree.Heap
import AuOs.Rbtree.Linked
import AuOs.Rbtree.HeapInsert
import AuOs.Rbtree.HeapErase
import AuOs.Rbtree.HeapSplice
import AuOs.Balloc.Ranges
import AuOs.Balloc.Inv
import AuOs.Balloc.Cut
import AuOs.Balloc.Alloc
import AuOs.Balloc.Cover
import AuOs.Balloc.Parse
import AuOs.Memory.Setup
import AuOs.Memory.Flags
import AuOs.Ramfs.Entry
import AuOs.Ramfs.Family
import AuOs.Ramfs.Find
import AuOs.Ramfs.Create
import AuOs.Ramfs.Names
import AuOs.Ramfs.Kinds
import AuOs.Ramfs.Race
import AuOs.Ramfs.Search
import AuOs.Ramfs.RaceInv
import AuOs.Ramfs.RaceRun
import AuOs.Threads.State
import AuOs.Threads.Sched
import AuOs.Threads.Inv
import AuOs.Threads.Mutex
import AuOs.Threads.Cond
import AuOs.Threads.Switch
import AuOs.Threads.Run
import AuOs.Threads.Frame
import AuOs.Threads.Later
import AuOs.Threads.Safety
import AuOs.Threads.Boot
import AuOs.Lib.Radix
import AuOs.Paging.Tables
import AuOs.Paging.Entries
import AuOs.Paging.Map
import AuOs.Paging.Walk
import AuOs.Paging.Build
import AuOs.Lib.Blocks
import AuOs.Paging.Take
import AuOs.Paging.Count
import AuOs.Paging.Enough
import AuOs.Lib.Segments
import AuOs.Paging.KmapRanges
import AuOs.Paging.KmapInv
import AuOs.Paging.KmapFree
import AuOs.Paging.KmapRun
import AuOs.Paging.Kmap
import AuOs.Paging.KmapPages
import AuOs.Paging.KmapSafe
import AuOs.Paging.KmapBoot
import AuOs.Paging.Bootstrap
import AuOs.Lib.Splice
import AuOs.Strings
import AuOs.Ramfs.Data
import AuOs.Ramfs.Refused
import AuOs.Ramfs.Readdir
import AuOs.Ramfs.Release
import AuOs.Initramfs.Cpio
import AuOs.Initramfs.Archive
import AuOs.Initramfs.Bounds
import AuOs.Initramfs.Module
import AuOs.Balloc.FirstFit
import AuOs.Lib.Traced
import AuOs.Memory.Exhausted
import AuOs.Backtrace
import AuOs.Desc
import AuOs.Monitor
import AuOs.Acpi.Memory
import AuOs.Acpi.FindApic
import AuOs.Acpi.Madt
import AuOs.Acpi.Rsdp
import AuOs.Slab.Layout
import AuOs.Slab.Bitmap
import AuOs.Lib.WordStack
import AuOs.Syscall.Entry
import AuOs.Syscall.Fork
import AuOs.Print.Ctype
import AuOs.Print.Strtoul
import AuOs.Print.Itoa
import AuOs.Print.Format
import AuOs.Print.Vprintf
import AuOs.Print.Sinks
import AuOs.Print.Integers
import AuOs.Memory.Access
import AuOs.Memory.Consecutive
import AuOs.Memory.Descriptors
import AuOs.Rbtree.Iterate
import AuOs.Lib.Circuit
import AuOs.Lists
import AuOs.Print.Hex
import AuOs.Initramfs.Atoi
import AuOs.Slab.Pool
import AuOs.Slab.Cache
import AuOs.Slab.Inv
import AuOs.Slab.Objects
import AuOs.Slab.Operations
import AuOs.Slab.Run
import AuOs.Slab.Heap
import AuOs.Slab.Extent
import AuOs.Slab.Realloc
import AuOs.Slab.Safety
import AuOs.Slab.Account
import AuOs.Slab.Contents
import AuOs.Rbtree.Domain
import AuOs.Rbtree.Steps
import AuOs.Balloc.Linked
import AuOs.Balloc.Refine
import AuOs.Paging.Setup
import AuOs.Paging.Boot
import AuOs.Interrupts.Entry
import AuOs.Interrupts.Pic
import AuOs.Interrupts.Irqs
import AuOs.Threads.Context
import AuOs.Lib.Turns
import AuOs.Threads.Fifo
import AuOs.Videomem
