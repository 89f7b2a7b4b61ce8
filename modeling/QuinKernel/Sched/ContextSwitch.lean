import QuinKernel.Machine.System
import QuinKernel.Machine.X86
import QuinKernel.Pmm.Model

/-!
# The switch in assembly (`context_switch.S`, `isr_stubs.S`, `thread_create`)

`context_switch` and the way into `isr_common_stub` run without an interrupt in
between: the one is inside `switch_to_next`, the other behind an interrupt gate.
The way out of `isr_common_stub` and `thread_trampoline` can be interrupted at
each instruction, so their addresses are named (`Place`) and they are executed
one by one. Everything else is compiled code. It is taken to do anything a
thread may do: move the registers as it likes and write to memory that is
neither another thread's stack nor a saved stack pointer; called from
`isr_common_stub`, it keeps to the stack below its own return address.
-/

namespace QuinKernel

open Machine

/-! ## The code -/

/-- The instructions of `isr_common_stub` after its call of `isr_dispatch`, and
those of `thread_trampoline` up to its first call. -/
inductive Place
  | exit (j : Fin 17)
  | trampoline (k : Fin 3)
  deriving DecidableEq

/-- Where the linker put the code. -/
structure KernelText where
  address : Place → Word
  contextSwitch : Word
  irqStub : Word → Word
  isrDispatch : Word
  /-- `call thread_exited`, after `call *%r12`. -/
  afterEntry : Word
  address_injective : Function.Injective address
  isrDispatch_ne : ∀ p, isrDispatch ≠ address p

/-- `context_switch`. -/
def contextSwitch : List Instr :=
  [.push .rbp, .push .rbx, .push .r12, .push .r13, .push .r14, .push .r15,
   .store .rsp .rdi, .mov .rsi .rsp,
   .pop .r15, .pop .r14, .pop .r13, .pop .r12, .pop .rbx, .pop .rbp, .ret]

/-- `irq_stub_\vec` and `isr_stub_\vec`, up to the jump: `push $0` and the vector. -/
def irqStub (vector : Word) : List Instr := [.pushImm 0, .pushImm vector]

/-- The order in which `isr_common_stub` pushes the registers. -/
def pushedRegs : List Reg :=
  [.rax, .rbx, .rcx, .rdx, .rsi, .rdi, .rbp, .r8, .r9, .r10, .r11, .r12, .r13, .r14, .r15]

/-- The order in which it pops them. -/
def poppedRegs : List Reg :=
  [.r15, .r14, .r13, .r12, .r11, .r10, .r9, .r8, .rbp, .rdi, .rsi, .rdx, .rcx, .rbx, .rax]

/-- `isr_common_stub`, up to its call. -/
def isrCommonStub (text : KernelText) : List Instr :=
  pushedRegs.map .push ++
    [.mov .rsp .rdi, .call text.isrDispatch (text.address (.exit 0))]

/-- `isr_common_stub` after its call. -/
def isrCommonStubExit : List Instr := poppedRegs.map .pop ++ [.addImm 16 .rsp, .iretq]

/-- `thread_trampoline`, up to its first call. -/
def threadTrampoline (text : KernelText) : List Instr :=
  [.sti, .mov .r13 .rdi, .callReg .r12 text.afterEntry]

namespace KernelText

/-- The instruction at a place. -/
def instrAt (text : KernelText) : Place → Instr
  | .exit j => isrCommonStubExit.get j
  | .trampoline k => (threadTrampoline text).get k

/-- The address of the instruction after it; `iretq` goes elsewhere. -/
def nextAddress (text : KernelText) : Place → Word
  | .exit j => text.address (.exit (j + 1))
  | .trampoline k => if k = 2 then text.afterEntry else text.address (.trampoline (k + 1))

/-- Execute the instruction at a place. -/
def execAt (text : KernelText) (p : Place) (c : Cpu) : Cpu :=
  (text.instrAt p).exec { c with rip := text.nextAddress p }

/-- The address is in compiled code. -/
def Compiled (text : KernelText) (rip : Word) : Prop := ∀ p, rip ≠ text.address p

end KernelText

/-- `THREAD_STACK_PAGES`. -/
def threadStackPages : Word := 4

/-- `GDT_KERNEL_CODE`. -/
def gdtKernelCode : Word := 0x08

/-- What `thread_create` pushes on the new stack. -/
def freshWords (text : KernelText) (entry arg : Word) : List Word :=
  [text.address (.trampoline 0), 0, 0, entry, arg, 0, 0]

/-- `thread_create`, from `vmm_alloc_guarded` returning `stack` on: the frame, and
`t->stack_pointer`, which is at `cell`. -/
def threadCreate (text : KernelText) (c : Cpu) (stack cell entry arg : Word) : Cpu :=
  let top := stack + threadStackPages * pageSize
  let built := (c.set .rsp top).pushAll (freshWords text entry arg)
  { c with mem := store64 built.mem cell.toNat built.rsp }

/-! ## Threads -/

/-- The threads' stacks, from `lo` up to `hi`, and their `stack_pointer` fields. -/
structure StackLayout (T : Type) where
  lo : T → Nat
  hi : T → Nat
  cell : T → Word
  hi_lt : ∀ t, hi t < 2 ^ 64
  stacksApart : ∀ t u, t ≠ u → hi t ≤ lo u ∨ hi u ≤ lo t
  cellOff : ∀ t u, (cell t).toNat + 8 ≤ lo u ∨ hi u ≤ (cell t).toNat
  cellsApart : ∀ t u, t ≠ u →
    (cell t).toNat + 8 ≤ (cell u).toNat ∨ (cell u).toNat + 8 ≤ (cell t).toNat

inductive ThreadStatus
  | none
  | running
  /-- Created, and not run yet. -/
  | fresh
  /-- In `context_switch`, called in state `call` to return to `ret`. -/
  | off (call : Cpu) (ret : Word)

/-- The processor, the running thread, and where the threads stand: the states
they were in at the interrupts not yet returned from (the last first), and what
`thread_create` was given. -/
structure Switching (T : Type) where
  cpu : Cpu
  current : T
  status : T → ThreadStatus
  interrupted : T → List Cpu
  created : T → Option (Word × Word)

/-- The address of the frame `isr_common_stub` makes for an interrupt in state `f`. -/
def frameBase (f : Cpu) : Nat := f.rsp.toNat / 16 * 16 - 176

section

variable {T : Type} [DecidableEq T]

/-- What the running thread's code may write to. -/
def Writable (layout : StackLayout T) (s : Switching T) (x : Nat) : Prop :=
  (∀ u, u ≠ s.current → x < layout.lo u ∨ layout.hi u ≤ x) ∧
  (∀ u, x < (layout.cell u).toNat ∨ (layout.cell u).toNat + 8 ≤ x) ∧
  ∀ f ∈ (s.interrupted s.current).head?, x + 8 < frameBase f ∨ layout.hi s.current ≤ x

inductive SwitchEvent (T : Type)
  /-- Compiled code runs on to the state `c`. -/
  | run (c : Cpu)
  /-- `thread_create` of thread `u`, on the stack at `stack`. -/
  | create (u : T) (stack entry arg : Word)
  /-- `switch_to_next` calls `context_switch` for thread `u`, to return to `ret`. -/
  | switch (u : T) (ret : Word)
  /-- An interrupt is delivered and `isr_dispatch` called. -/
  | interrupt (vector : Word)
  /-- `isr_dispatch` returns. -/
  | dispatchReturn
  /-- The processor executes the instruction at a place. -/
  | exec (p : Place)

/-- Kernel threads on one processor. -/
def switchSystem (text : KernelText) (layout : StackLayout T) (bootstrap : T) :
    System (Switching T) (SwitchEvent T) where
  init s := text.Compiled s.cpu.rip ∧ s.current = bootstrap ∧ s.created = (fun _ => none) ∧
    s.status = Function.update (fun _ => .none) bootstrap .running ∧ s.interrupted = fun _ => []
  step s e s' :=
    match e with
    | .run c =>
        text.Compiled s.cpu.rip ∧ text.Compiled c.rip ∧
        (∀ x, ¬ Writable layout s x → c.mem x = s.cpu.mem x) ∧
        (∀ f ∈ (s.interrupted s.current).head?, c.rsp.toNat + 8 ≤ frameBase f) ∧
        s' = { s with cpu := c }
    | .create u stack entry arg =>
        text.Compiled s.cpu.rip ∧ text.Compiled entry ∧ s.status u = .none ∧
        stack.toNat = layout.lo u ∧ layout.hi u = layout.lo u + (threadStackPages * pageSize).toNat ∧
        layout.lo u % 4096 = 0 ∧
        s' = { s with
          cpu := threadCreate text s.cpu stack (layout.cell u) entry arg
          status := Function.update s.status u .fresh
          created := Function.update s.created u (some (entry, arg)) }
    | .switch u ret =>
        text.Compiled s.cpu.rip ∧ text.Compiled ret ∧ u ≠ s.current ∧ s.status u ≠ .none ∧
        s.cpu.regs .rdi = layout.cell s.current ∧
        s.cpu.regs .rsi = load64 s.cpu.mem (layout.cell u).toNat ∧
        layout.lo s.current + 56 ≤ s.cpu.rsp.toNat ∧ s.cpu.rsp.toNat ≤ layout.hi s.current ∧
        s' = { s with
          cpu := exec (.call text.contextSwitch ret :: contextSwitch) s.cpu
          current := u
          status := Function.update (Function.update s.status s.current (.off s.cpu ret)) u .running }
    | .interrupt vector =>
        s.cpu.rflags &&& flagIf ≠ 0 ∧ layout.lo s.current + 184 ≤ s.cpu.rsp.toNat / 16 * 16 ∧
        s.cpu.rsp.toNat ≤ layout.hi s.current ∧
        s' = { s with
          cpu := exec (irqStub vector ++ isrCommonStub text)
            (s.cpu.interrupt gdtKernelCode (text.irqStub vector))
          interrupted := Function.update s.interrupted s.current
            (s.cpu :: s.interrupted s.current) }
    | .dispatchReturn =>
        text.Compiled s.cpu.rip ∧
        (∃ f ∈ (s.interrupted s.current).head?, s.cpu.rsp.toNat + 8 = frameBase f) ∧
        s' = { s with cpu := Instr.ret.exec s.cpu }
    | .exec p =>
        s.cpu.rip = text.address p ∧
        s' = { s with
          cpu := text.execAt p s.cpu
          interrupted := if p = .exit 16 then
            Function.update s.interrupted s.current (s.interrupted s.current).tail
            else s.interrupted }

end

end QuinKernel
