import QuinKernel.Machine.Memory
import QuinKernel.Machine.System
import QuinKernel.Machine.RadixTree
import QuinKernel.Machine.Paging
import QuinKernel.Machine.Ring
import QuinKernel.Lib.Kernel
import QuinKernel.Lib.Bitmap
import QuinKernel.Lib.String
import QuinKernel.Lib.Printf
import QuinKernel.Lib.Format
import QuinKernel.Lib.Digits
import QuinKernel.Lib.Cursor
import QuinKernel.Lib.Snprintf
import QuinKernel.Pmm.Model
import QuinKernel.Pmm.Frames
import QuinKernel.Pmm.Init
import QuinKernel.Pmm.Client
import QuinKernel.Pmm.Theorems
import QuinKernel.Pmm.Exact
import QuinKernel.Vmm.Model
import QuinKernel.Vmm.Tree
import QuinKernel.Vmm.Map
import QuinKernel.Vmm.Theorems
import QuinKernel.Vmm.Lazy
import QuinKernel.Vmm.Guarded
import QuinKernel.Vmm.Accounting
import QuinKernel.Vmm.Retry
import QuinKernel.Vmm.LargePages
import QuinKernel.Vmm.Rights
import QuinKernel.Vmm.Windows
import QuinKernel.Vmm.Mmio
import QuinKernel.Heap.Model
import QuinKernel.Heap.Chunks
import QuinKernel.Heap.Refine
import QuinKernel.Heap.Theorems
import QuinKernel.Vmm.WriteExecute
import QuinKernel.Sched.Model
import QuinKernel.Sched.Ready
import QuinKernel.Sched.Preempt
import QuinKernel.Sched.Stacks
import QuinKernel.Sched.YieldFlag
import QuinKernel.Machine.X86
import QuinKernel.Sched.ContextSwitch
import QuinKernel.Sched.Resume
import QuinKernel.Sched.Spinlock
import QuinKernel.Sched.Irqsave
import QuinKernel.Interrupt.Model
import QuinKernel.Interrupt.Eoi
import QuinKernel.Machine.Terminal
import QuinKernel.Framebuffer.Font
import QuinKernel.Framebuffer.Model
import QuinKernel.Framebuffer.Pixels
import QuinKernel.Framebuffer.Console
import QuinKernel.Machine.RingBuffer
import QuinKernel.Keyboard.Model
import QuinKernel.Keyboard.Theorems
import QuinKernel.Keyboard.Codes
import QuinKernel.Acpi.Model
import QuinKernel.Acpi.Theorems
import QuinKernel.Acpi.Accept
import QuinKernel.Acpi.Madt
import QuinKernel.Acpi.Entries
import QuinKernel.Heap.Order
import QuinKernel.Heap.Malloc
import QuinKernel.Heap.Payload
import QuinKernel.Sched.Threads
import QuinKernel.Pmm.Concurrent
import QuinKernel.Sched.Refine
import QuinKernel.Vmm.Demand
import QuinKernel.Machine.Packed
import QuinKernel.Machine.Segments
import QuinKernel.Cpu.Gdt
import QuinKernel.Cpu.Idt
import QuinKernel.Cpu.Isr
import QuinKernel.Cpu.Syscall
import QuinKernel.Cpu.UserMode
import QuinKernel.Cpu.Boot
import QuinKernel.Machine.PolledQueue
import QuinKernel.Serial.Model
import QuinKernel.Serial.Shared
import QuinKernel.Interrupt.IoApic
import QuinKernel.Vmm.Boot
