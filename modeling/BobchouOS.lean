import BobchouOS.Layout
import BobchouOS.Kprintf
import BobchouOS.Lib.Wp
import BobchouOS.Lib.Memory
import BobchouOS.Lib.Chain
import BobchouOS.Lib.Blocks
import BobchouOS.Kalloc.Model
import BobchouOS.Kalloc.FreeLists
import BobchouOS.Kalloc.Alloc
import BobchouOS.Kalloc.Free
import BobchouOS.Kalloc.Init
import BobchouOS.Kalloc.Pages
import BobchouOS.Kmalloc.Model
import BobchouOS.Kmalloc.Slabs
import BobchouOS.Kmalloc.Alloc
import BobchouOS.Kmalloc.Free
import BobchouOS.Kmalloc.Init
import BobchouOS.Kmalloc.Flags
import BobchouOS.Kmalloc.Objects
import BobchouOS.Kmalloc.Runs
import BobchouOS.Lib.Sharing
import BobchouOS.Vm.Pte
import BobchouOS.Vm.Model
import BobchouOS.Vm.Proc
import BobchouOS.Vm.Elf
import BobchouOS.Vm.Tables
import BobchouOS.Vm.Walk
import BobchouOS.Vm.FreeTables
import BobchouOS.Vm.Spaces
import BobchouOS.Vm.Mapping
import BobchouOS.Vm.Translation
import BobchouOS.Vm.Refs
import BobchouOS.Vm.Areas
import BobchouOS.Vm.Fault
import BobchouOS.Vm.Access
import BobchouOS.Kalloc.Runs
import BobchouOS.Lib.Lts
import BobchouOS.Lib.Fifo
import BobchouOS.Virtio.Model
import BobchouOS.Virtio.Driver
import BobchouOS.Virtio.Device
import BobchouOS.Virtio.Transfer
import BobchouOS.Virtio.Protocol
import BobchouOS.Virtio.Safety
import BobchouOS.Bio.Model
import BobchouOS.Bio.Identity
import BobchouOS.Bio.Sessions
import BobchouOS.Bio.Steps
import BobchouOS.Bio.Cache
import BobchouOS.Bio.Lru
import BobchouOS.Bio.Coherence
import BobchouOS.Lib.Ring
import BobchouOS.ListHead
import BobchouOS.Proc.Model
import BobchouOS.Proc.Tasks
import BobchouOS.Proc.Places
import BobchouOS.Proc.Tree
import BobchouOS.Proc.Sleep
import BobchouOS.Proc.Lifecycle
import BobchouOS.Proc.Creation
import BobchouOS.Proc.Fork
import BobchouOS.Proc.Queues
import BobchouOS.Proc.Wait
import BobchouOS.Proc.Family
import BobchouOS.Proc.Kill
import BobchouOS.Proc.Pids
import BobchouOS.Trap.Model
import BobchouOS.Trap.Timer
import BobchouOS.Trap.Timed
import BobchouOS.Lib.Run
import BobchouOS.Kern.Model
import BobchouOS.Kern.Sleeplock
import BobchouOS.Kern.Release
import BobchouOS.Lib.Micro
import BobchouOS.Kalloc.Steps
import BobchouOS.Kalloc.Frees
import BobchouOS.Kalloc.Preempt
import BobchouOS.Hart.Model
import BobchouOS.Hart.Discipline
import BobchouOS.Vm.Objects
import BobchouOS.Vm.Unmap
import BobchouOS.Vm.Roots
import BobchouOS.Vm.Dup
import BobchouOS.Vm.Load
import BobchouOS.Vm.ArgStack
import BobchouOS.Vm.Build
import BobchouOS.Vm.Kernel
import BobchouOS.Vm.World
import BobchouOS.Vm.Sbrk
import BobchouOS.Vm.Exec
import BobchouOS.Vm.Abandon
import BobchouOS.Vm.Lifetime
import BobchouOS.Vm.Fork
import BobchouOS.Vm.Copy
import BobchouOS.Vm.System
import BobchouOS.Vm.Transfers
import BobchouOS.Vm.Progress
import BobchouOS.Vm.Programs
import BobchouOS.Vm.Layouts
import BobchouOS.Vm.Heap
import BobchouOS.Vm.Accounting
import BobchouOS.Vm.Teardown
import BobchouOS.Vm.Refcounts
import BobchouOS.Vm.ForkUndone
import BobchouOS.Vm.Flat
import BobchouOS.Vm.Refinement
import BobchouOS.Syscall.Exec
