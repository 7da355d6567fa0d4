import Flos.Apic.Madt
import Flos.Apic.MadtDecode
import Flos.Apic.MadtSafety
import Flos.Cpu.Instructions
import Flos.Cpu.Percpu
import Flos.Cpu.SwitchTo
import Flos.Interrupts.Entry
import Flos.Kprintf.Format
import Flos.Kprintf.Grammar
import Flos.Kprintf.Numbers
import Flos.Kprintf.Output
import Flos.Kprintf.Texts
import Flos.Lib.Bisect
import Flos.Lib.ByteLists
import Flos.Lib.ByteMem
import Flos.Lib.FirstFit
import Flos.Lib.Ledger
import Flos.Lib.Loops
import Flos.Lib.Moves
import Flos.Lib.RadixTeardown
import Flos.Lib.RadixWalk
import Flos.Lib.Records
import Flos.Lib.RedBlack
import Flos.Lib.Ring
import Flos.Lib.Runs
import Flos.Lib.Scan
import Flos.Lib.SearchTree
import Flos.Lib.Spans
import Flos.Lib.Words
import Flos.Mm.Accounts
import Flos.Mm.AreaNodes
import Flos.Mm.Bitmap
import Flos.Mm.BitmapIndices
import Flos.Mm.BlockRoom
import Flos.Mm.BootInvariants
import Flos.Mm.BootMappings
import Flos.Mm.CallInvariants
import Flos.Mm.CoveredPages
import Flos.Mm.Custody
import Flos.Mm.DemandPaging
import Flos.Mm.DestroyTable
import Flos.Mm.DeviceMemory
import Flos.Mm.Execve
import Flos.Mm.FaultPages
import Flos.Mm.Firmware
import Flos.Mm.FirmwareAccess
import Flos.Mm.FirmwareRuns
import Flos.Mm.FrameAccounts
import Flos.Mm.FreeRegion
import Flos.Mm.HeapInv
import Flos.Mm.Holding
import Flos.Mm.HugePages
import Flos.Mm.ImageRelease
import Flos.Mm.Isolation
import Flos.Mm.KernelAlloc
import Flos.Mm.KernelHeap
import Flos.Mm.KernelImage
import Flos.Mm.KernelMem
import Flos.Mm.KernelSpace
import Flos.Mm.KernelTable
import Flos.Mm.Kmalloc
import Flos.Mm.KmallocInv
import Flos.Mm.KmallocRuns
import Flos.Mm.KmallocSteps
import Flos.Mm.LeafChanges
import Flos.Mm.LowAllocations
import Flos.Mm.MapInvariants
import Flos.Mm.PageSource
import Flos.Mm.Pmap
import Flos.Mm.PmapRange
import Flos.Mm.PmapWalk
import Flos.Mm.Pmm
import Flos.Mm.PmmCompleteness
import Flos.Mm.PmmFrames
import Flos.Mm.PmmInit
import Flos.Mm.PmmRuns
import Flos.Mm.SharedHalf
import Flos.Mm.Slab
import Flos.Mm.SlabInv
import Flos.Mm.SlabRuns
import Flos.Mm.SlabSpec
import Flos.Mm.SlabSteps
import Flos.Mm.SmallPages
import Flos.Mm.SpaceInv
import Flos.Mm.SpaceOps
import Flos.Mm.SpaceRuns
import Flos.Mm.StackFrames
import Flos.Mm.TablesNeeded
import Flos.Mm.Translate
import Flos.Mm.Types
import Flos.Mm.UnmapPage
import Flos.Mm.UnusedRanges
import Flos.Mm.UserImage
import Flos.Mm.UserTables
import Flos.Mm.UserTree
import Flos.Mm.VmMap
import Flos.Mm.VmMapAreas
import Flos.Mm.VmMapSearch
import Flos.Mm.WalkOutcome
import Flos.Pic.Pit
import Flos.Printk.Formatting
import Flos.Printk.Log
import Flos.Printk.Message
import Flos.Rbtree.Erase
import Flos.Rbtree.EraseNode
import Flos.Rbtree.Insert
import Flos.Rbtree.Links
import Flos.Rbtree.Postorder
import Flos.Rbtree.Runs
import Flos.Rbtree.Search
import Flos.Rbtree.Stale
import Flos.Rbtree.Traverse
import Flos.Sched.ContextSwitch
import Flos.Sched.ExitedTasks
import Flos.Sched.Exits
import Flos.Sched.Fifo
import Flos.Sched.InterruptFlag
import Flos.Sched.LinkedQueue
import Flos.Sched.Membership
import Flos.Sched.Preempt
import Flos.Sched.PriorityQueue
import Flos.Sched.RunQueue
import Flos.Sched.Runtime
import Flos.Sched.Scheduler
import Flos.Sched.TaskSpawn
import Flos.Sched.TaskTree
import Flos.Sched.TimerTicks
import Flos.Strings.Memmove
import Flos.Tty.Bounds
import Flos.Tty.Picture
import Flos.Tty.Scroll
import Flos.Tty.Scrollback
import Flos.Tty.Sync
import Flos.Tty.Terminal
