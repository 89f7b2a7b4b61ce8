import QuinKernel.Cpu.Isr

/-!
# System calls (`syscall.c`, `syscall_entry.S`)

`SYSCALL` saves nothing on a stack and changes none: the return address goes to
`rcx`, the flags to `r11`, and `rsp` stays the program's. `syscall_entry` parks
it in a variable, takes the kernel's stack, and undoes both before `sysretq`.
The selectors come from `STAR` by arithmetic, which the order of the entries in
`gdt.c` is made for. `syscall_round_trip` is the whole way, `jumpToRing3_spec`
the first entry of level 3.
-/

namespace QuinKernel

open Machine

/-- `EFER_SCE`, `FMASK_IF_TF`, `ENOSYS`. -/
def eferSce : Word := 1
def fmaskIfTf : Word := 0x300
def enosys : Word := 38

/-- Where the linker put `syscall_entry`, what it calls, and its variables. -/
structure SyscallText where
  syscallEntry : Word
  syscallDispatch : Word
  afterDispatch : Word
  kernelSyscallRsp : Word
  savedUserRsp : Word

/-- `syscall_dispatch`, but for its log line. -/
def syscallDispatch (_syscallNumber : Word) : Word := -enosys

/-- `syscall_init`, once it has its stack: `stackTop` is what `syscallInit` computes. -/
def syscallInitCpu (p : Processor) (text : SyscallText) (tss stackTop : Word) : Option Processor :=
  let m := store64 (gdtSetKernelStack p.cpu.mem tss stackTop) text.kernelSyscallRsp.toNat stackTop
  (Processor.wrmsr { p with cpu := { p.cpu with mem := m } } 0xc0000080
    (p.sys.efer ||| eferSce)).bind fun p =>
  (p.wrmsr 0xc0000081 (gdtKernelData <<< 48 ||| gdtKernelCode <<< 32)).bind fun p =>
  (p.wrmsr 0xc0000082 text.syscallEntry).bind fun p =>
  p.wrmsr 0xc0000084 fmaskIfTf

/-- `syscall_entry`, up to its call. -/
def syscallEntry (text : SyscallText) : List SysInstr :=
  [.storeAt .rsp text.savedUserRsp, .loadAt text.kernelSyscallRsp .rsp,
   .plain (.push .rcx), .plain (.push .r11), .plain (.mov .rax .rdi),
   .plain (.call text.syscallDispatch text.afterDispatch)]

/-- `syscall_entry` after its call. -/
def syscallExit (text : SyscallText) : List SysInstr :=
  [.plain (.pop .r11), .plain (.pop .rcx), .loadAt text.savedUserRsp .rsp, .sysret]

/-- `jump_to_ring3`. -/
def jumpToRing3 : List SysInstr :=
  [.movImm16 0x1b .rax, .loadData .rax, .loadData .rax, .loadData .rax, .loadData .rax,
   .plain (.pushImm 0x1b), .plain (.push .rsi), .plain (.pushImm 0x202), .plain (.pushImm 0x23),
   .plain (.push .rdi), .iret]

/-! ## The way in and out -/

/-- The registers of `SYSCALL` as `syscall_init` sets them. -/
structure SyscallReady (s : SystemRegs) (text : SyscallText) : Prop where
  enabled : s.syscallEnabled = true
  star : s.star = gdtKernelData <<< 48 ||| gdtKernelCode <<< 32
  lstar : s.lstar = text.syscallEntry
  fmask : s.fmask = fmaskIfTf

/-- One program at level 3, and the kernel under it. -/
structure UserLayout extends TrapLayout where
  syscalls : SyscallText
  /-- The memory that the program may write to. -/
  user : Nat → Prop
  aligned : hi.toNat % 16 = 0
  room : lo + 184 ≤ hi.toNat
  rspKept : ∀ x, InBytes syscalls.kernelSyscallRsp 8 x → kept x
  savedFree : ∀ x, InBytes syscalls.savedUserRsp 8 x → ¬kept x ∧ (x < lo ∨ hi.toNat ≤ x)
  userKept : ∀ x, user x → kept x
  userApart : ∀ x, user x → ¬InBytes gdt gdtTableSize x ∧ ¬InBytes tss tssSize x ∧
    ¬InBytes idt idtSize x ∧ ¬InBytes syscalls.kernelSyscallRsp 8 x

/-- `x` is a byte that the processor, or `syscall_entry`, takes what it needs from. -/
def UserLayout.Tables (l : UserLayout) (x : Nat) : Prop :=
  InBytes l.gdt gdtTableSize x ∨ InBytes l.tss tssSize x ∨ InBytes l.idt idtSize x ∨
    InBytes l.syscalls.kernelSyscallRsp 8 x

/-- Interrupts and system calls find what they need. -/
structure KernelReady (l : UserLayout) (m : Mem) : Prop where
  tables : TablesIn l.toTrapLayout m
  ready : SyscallReady l.sys l.syscalls
  entry : load64 m (l.tss.toNat + 4) = l.hi
  kernelRsp : load64 m l.syscalls.kernelSyscallRsp.toNat = l.hi

/-- The program is running. -/
structure UserMode (l : UserLayout) (c : Cpu) : Prop extends KernelReady l c.mem where
  cs : c.cs = 0x23
  ss : c.ss = 0x1b

/-- `syscall_dispatch` is called for a `syscall` in state `c`, with `next` after it. -/
structure AtSyscall (l : UserLayout) (c : Cpu) (next : Word) (q : Cpu) : Prop where
  rip : q.rip = l.syscalls.syscallDispatch
  rdi : q.regs .rdi = c.regs .rax
  rsp : q.rsp.toNat = l.hi.toNat - 24
  stack : Holds q.mem (l.hi.toNat - 24) [l.syscalls.afterDispatch, c.rflags, next]
  saved : load64 q.mem l.syscalls.savedUserRsp.toNat = c.rsp
  masked : q.rflags &&& fmaskIfTf = 0
  cs : q.cs = gdtKernelCode
  ss : q.ss = gdtKernelData
  regs : ∀ r, r ∉ [Reg.rcx, .r11, .rdi, .rsp] → q.regs r = c.regs r
  mem : AgreeBut (fun x => (l.hi.toNat - 24 ≤ x ∧ x < l.hi.toNat) ∨
    InBytes l.syscalls.savedUserRsp 8 x) c.mem q.mem

/-- The registers a function of the compiler's preserves, but for the stack pointer. -/
def calleeSaved : List Reg := [.rbx, .rbp, .r12, .r13, .r14, .r15]

/-- `syscall_dispatch`, called in state `c`, has returned in state `d`. -/
structure SyscallDispatched (l : UserLayout) (c d : Cpu) : Prop where
  rip : d.rip = load64 c.mem c.rsp.toNat
  rsp : d.rsp = c.rsp + 8
  rax : d.regs .rax = syscallDispatch (c.regs .rdi)
  regs : ∀ r ∈ calleeSaved, d.regs r = c.regs r
  /-- Nothing can interrupt the rest of `syscall_entry`. -/
  masked : d.rflags &&& flagIf = 0
  cs : d.cs = c.cs
  kept : ∀ x, l.kept x ∨ InBytes l.syscalls.savedUserRsp 8 x → d.mem x = c.mem x
  stack : ∀ x, c.rsp.toNat + 8 ≤ x → x < l.hi.toNat → d.mem x = c.mem x

/-- What a program finds after a `syscall` in state `c`. -/
structure AfterSyscall (l : UserLayout) (c : Cpu) (next : Word) (u : Cpu) : Prop where
  rip : u.rip = next
  rax : u.regs .rax = syscallDispatch (c.regs .rax)
  rcx : u.regs .rcx = next
  r11 : u.regs .r11 = c.rflags
  rsp : u.rsp = c.rsp
  regs : ∀ r ∈ calleeSaved, u.regs r = c.regs r
  rflags : u.rflags = c.rflags &&& sysretFlags ||| 2
  kept : ∀ x, l.kept x → u.mem x = c.mem x
  mode : UserMode l u

section Syscall

variable {l : UserLayout} {c e q d u : Cpu} {next : Word}

theorem UserMode.level (h : UserMode l c) : c.level = 3 := by
  rw [Cpu.level, h.cs]
  rfl

/-- The state that `SYSCALL` enters the kernel in. -/
def syscallEntered (l : UserLayout) (c : Cpu) (next : Word) : Cpu :=
  { (c.set .rcx next).set .r11 c.rflags with
    rip := l.syscalls.syscallEntry
    rflags := c.rflags &&& ~~~fmaskIfTf
    cs := gdtKernelCode
    ss := gdtKernelData }

theorem UserMode.syscall (h : UserMode l c) (next : Word) :
    c.syscall l.sys next = some (syscallEntered l c next) := by
  unfold Cpu.syscall syscallEntered
  rw [h.ready.enabled, if_pos rfl, h.ready.star, h.ready.lstar, h.ready.fmask]
  rfl

/-- The kernel's stack is found where `syscall_init` left it. -/
theorem UserMode.kernelRsp_store (h : UserMode l c) (w : Word) :
    load64 (store64 c.mem l.syscalls.savedUserRsp.toNat w) l.syscalls.kernelSyscallRsp.toNat =
      l.hi := by
  rw [← h.kernelRsp]
  refine load64_congr (fun x hlo hhi => store64_other _ _ ?_)
  by_contra hin
  exact (l.savedFree x ⟨by omega, by omega⟩).1 (l.rspKept x ⟨hlo, hhi⟩)

/-- **The way in**: off the program's stack, with what is needed to return. -/
theorem UserMode.entered (h : UserMode l c) (next : Word) :
    ∃ q, SysInstr.execAll (syscallEntry l.syscalls) ⟨syscallEntered l c next, l.sys⟩ =
      some ⟨q, l.sys⟩ ∧ AtSyscall l c next q := by
  have hroom := l.room
  -- the user stack pointer is saved, and `rsp` is the kernel stack
  set e := syscallEntered l c next with he
  set m := store64 c.mem l.syscalls.savedUserRsp.toNat c.rsp with hm
  set c₁ : Cpu := Cpu.set { e with mem := m } .rsp l.hi with hc₁
  have hsaved : AgreeOff l.syscalls.savedUserRsp.toNat (l.syscalls.savedUserRsp.toNat + 8) c.mem m :=
    store64_agreeOff _ _ _
  have hrsp₁ : c₁.rsp = l.hi := Cpu.set_self
  have hrcx : c₁.regs .rcx = next := rfl
  have hr11 : c₁.regs .r11 = c.rflags := rfl
  -- then `rcx` and `r11` are pushed, and `rax` is the argument
  obtain ⟨hrsp₂, hholds₂, hmem₂, hsame₂⟩ := pushAll_spec c₁ [next, c.rflags] (by
    rw [hrsp₁]
    show 16 ≤ l.hi.toNat
    omega)
  have htwo : 8 * [next, c.rflags].length = 16 := rfl
  rw [hrsp₁, htwo] at hrsp₂ hholds₂ hmem₂
  have hsegments := pushAll_segments c₁ [next, c.rflags]
  have hpushes : SysInstr.execAll [.plain (.push .rcx), .plain (.push .r11)] ⟨c₁, l.sys⟩ =
      some ⟨c₁.pushAll [next, c.rflags], l.sys⟩ := rfl
  generalize hc₂ : c₁.pushAll [next, c.rflags] = c₂ at *
  set c₃ := c₂.set .rdi (c₂.regs .rax) with hc₃
  have hrsp₃ : c₃.rsp = c₂.rsp := Cpu.set_other (by decide)
  -- and the call pushes its return address
  obtain ⟨hrsp₄, hholds₄, hmem₄, hsame₄⟩ := pushAll_spec c₃ [l.syscalls.afterDispatch] (by
    rw [hrsp₃, hrsp₂]
    show 8 ≤ l.hi.toNat - 16
    omega)
  have hone : 8 * [l.syscalls.afterDispatch].length = 8 := rfl
  rw [hrsp₃, hrsp₂, hone, show l.hi.toNat - 16 - 8 = l.hi.toNat - 24 by omega]
    at hrsp₄ hholds₄ hmem₄
  have hregs : ∀ r, r ∉ [Reg.rcx, .r11, .rdi, .rsp] →
      (c₃.pushAll [l.syscalls.afterDispatch]).regs r = c.regs r := by
    intro r hr
    simp only [List.mem_cons, List.not_mem_nil, or_false, not_or] at hr
    rw [hsame₄.regs r hr.2.2.2, hc₃, Cpu.set_other hr.2.2.1, hsame₂.regs r hr.2.2.2, hc₁,
      Cpu.set_other hr.2.2.2]
    exact (Cpu.set_other hr.2.1).trans (Cpu.set_other hr.1)
  have hcall : SysInstr.execAll [.plain (.mov .rax .rdi),
      .plain (.call l.syscalls.syscallDispatch l.syscalls.afterDispatch)] ⟨c₂, l.sys⟩ =
      some ⟨{ c₃.pushAll [l.syscalls.afterDispatch] with rip := l.syscalls.syscallDispatch },
        l.sys⟩ := rfl
  refine ⟨{ c₃.pushAll [l.syscalls.afterDispatch] with rip := l.syscalls.syscallDispatch }, ?_,
    rfl, ?_, hrsp₄, ?_, ?_, ?_, ?_, ?_, hregs, fun x hx => ?_⟩
  · rw [show syscallEntry l.syscalls =
      [.storeAt .rsp l.syscalls.savedUserRsp, .loadAt l.syscalls.kernelSyscallRsp .rsp] ++
      ([.plain (.push .rcx), .plain (.push .r11)] ++ [.plain (.mov .rax .rdi),
        .plain (.call l.syscalls.syscallDispatch l.syscalls.afterDispatch)]) from rfl,
      SysInstr.execAll_append, show SysInstr.execAll [.storeAt .rsp l.syscalls.savedUserRsp,
        .loadAt l.syscalls.kernelSyscallRsp .rsp] ⟨e, l.sys⟩ =
        some ⟨Cpu.set { e with mem := m } .rsp
          (load64 m l.syscalls.kernelSyscallRsp.toNat), l.sys⟩ from rfl,
      h.kernelRsp_store, Option.bind_some, SysInstr.execAll_append, hpushes, Option.bind_some, hcall]
  · rw [hsame₄.regs .rdi (by decide), hc₃, Cpu.set_self, hsame₂.regs .rax (by decide)]
    rfl
  · refine ⟨hholds₄.1, ?_⟩
    rw [show l.hi.toNat - 24 + 8 = l.hi.toNat - 16 by omega]
    exact hholds₂.congr (fun x hlo _ => hmem₄ x (by omega))
  · have hcell : load64 m l.syscalls.savedUserRsp.toNat = c.rsp := load64_store64 _ _ _
    rw [← hcell]
    refine load64_congr (fun x hlo hhi => ?_)
    have hoff := (l.savedFree x ⟨by omega, by omega⟩).2
    rw [hmem₄ x (by omega)]
    exact hmem₂ x (by omega)
  · have hflags : (c₃.pushAll [l.syscalls.afterDispatch]).rflags = c.rflags &&& ~~~fmaskIfTf :=
      hsame₄.rflags.trans hsame₂.rflags
    show (c₃.pushAll [l.syscalls.afterDispatch]).rflags &&& fmaskIfTf = 0
    rw [hflags, BitVec.and_assoc, show ~~~fmaskIfTf &&& fmaskIfTf = 0 from rfl]
    exact BitVec.and_zero
  · exact ((pushAll_segments c₃ [l.syscalls.afterDispatch]).1).trans hsegments.1
  · exact ((pushAll_segments c₃ [l.syscalls.afterDispatch]).2).trans hsegments.2
  · rw [not_or] at hx
    have hout : x < l.syscalls.savedUserRsp.toNat ∨ l.syscalls.savedUserRsp.toNat + 8 ≤ x := by
      by_contra hin
      exact hx.2 ⟨by omega, by omega⟩
    show (c₃.pushAll [l.syscalls.afterDispatch]).mem x = c.mem x
    rw [hmem₄ x (by omega)]
    exact (hmem₂ x (by omega)).trans (hsaved x hout)

/-- The rest of `syscall_entry`, up to `sysretq`. -/
theorem AtSyscall.popped (hq : AtSyscall l c next q) (hd : SyscallDispatched l q d) :
    ∃ r, SysInstr.execAll [.plain (.pop .r11), .plain (.pop .rcx),
        .loadAt l.syscalls.savedUserRsp .rsp] ⟨d, l.sys⟩ = some ⟨r, l.sys⟩ ∧
      r.regs .rcx = next ∧ r.regs .r11 = c.rflags ∧ r.rsp = c.rsp ∧ r.cs = gdtKernelCode ∧
      r.mem = d.mem ∧ ∀ s, s ∉ [Reg.rcx, .r11, .rsp] → r.regs s = d.regs s := by
  have hroom := l.room
  have hlt := l.hi.isLt
  have hrsp : d.rsp.toNat = l.hi.toNat - 16 := by
    rw [hd.rsp, BitVec.toNat_add, hq.rsp, show (8 : Word).toNat = 8 from rfl]
    omega
  obtain ⟨-, hflags, hnext, -⟩ := hq.stack
  rw [show l.hi.toNat - 24 + 8 = l.hi.toNat - 16 by omega] at hflags hnext
  have hstack : Holds d.mem d.rsp.toNat [c.rflags, next] := by
    have hrspq := hq.rsp
    have hkeep : ∀ x, l.hi.toNat - 16 ≤ x → x < l.hi.toNat → d.mem x = q.mem x :=
      fun x hlo hhi => hd.stack x (by omega) hhi
    rw [hrsp]
    refine ⟨?_, ?_, trivial⟩
    · rw [load64_congr (fun x hlo hhi => hkeep x hlo (by omega))]
      exact hflags
    · rw [load64_congr (fun x hlo hhi => hkeep x (by omega) (by omega))]
      exact hnext
  obtain ⟨hmap, hrsp', hother⟩ := @pops_spec d [c.rflags, next] [.r11, .rcx] (by decide) (by decide)
    rfl hstack (by rw [hrsp]; show l.hi.toNat - 16 + 16 < 2 ^ 64; omega)
  have hmem := pops_mem d [.r11, .rcx]
  set r := exec ([Reg.r11, .rcx].map .pop) d with hr
  obtain ⟨h11, hcx⟩ : r.regs .r11 = c.rflags ∧ r.regs .rcx = next := by
    simpa using hmap
  have hsaved : load64 r.mem l.syscalls.savedUserRsp.toNat = c.rsp := by
    rw [hmem, ← hq.saved]
    exact load64_congr (fun x hlo hhi => hd.kept x (.inr ⟨hlo, by omega⟩))
  refine ⟨r.set .rsp c.rsp, ?_, (Cpu.set_other (by decide)).trans hcx,
    (Cpu.set_other (by decide)).trans h11, Cpu.set_self, hd.cs.trans hq.cs, hmem, fun s hs => ?_⟩
  · rw [← hsaved]
    rfl
  · simp only [List.mem_cons, List.not_mem_nil, or_false, not_or] at hs
    rw [Cpu.set_other hs.2.2]
    exact hother s (by simp [hs]) hs.2.2

/-- What the program's memory and the tables go through in a system call. -/
theorem AtSyscall.kept (hq : AtSyscall l c next q) (hd : SyscallDispatched l q d) :
    ∀ x, l.kept x → d.mem x = c.mem x := by
  intro x hx
  have hoff := l.keptOff x hx
  have hroom := l.room
  rw [hd.kept x (.inl hx)]
  refine hq.mem x (not_or.mpr ⟨by omega, fun hin => (l.savedFree x hin).1 hx⟩)

theorem KernelReady.congr {m m' : Mem} (h : KernelReady l m)
    (hm : ∀ x, l.Tables x → m' x = m x) : KernelReady l m' where
  tables := ⟨h.tables.segments.congr (fun x hlo hhi => hm x (.inl ⟨hlo, hhi⟩)),
    h.tables.idt.congr (fun x hlo hhi => hm x (.inr (.inr (.inl ⟨hlo, hhi⟩))))⟩
  ready := h.ready
  entry := by
    rw [← h.entry]
    exact load64_congr (fun x hlo hhi => hm x (.inr (.inl ⟨by omega, by unfold tssSize; omega⟩)))
  kernelRsp := by
    rw [← h.kernelRsp]
    exact load64_congr (fun x hlo hhi => hm x (.inr (.inr (.inr ⟨hlo, hhi⟩))))

theorem UserLayout.tablesKept (l : UserLayout) (x : Nat) (h : l.Tables x) : l.kept x := by
  rcases h with h | h | h | h
  · exact l.gdtKept x h
  · exact l.tssKept x h
  · exact l.idtKept x h
  · exact l.rspKept x h

/-- **The way out**, after `syscall_dispatch`. -/
theorem UserMode.exit (h : UserMode l c) (hq : AtSyscall l c next q) (hd : SyscallDispatched l q d) :
    if Canonical next then
      ∃ u, SysInstr.execAll (syscallExit l.syscalls) ⟨d, l.sys⟩ = some ⟨u, l.sys⟩ ∧
        AfterSyscall l c next u
    else SysInstr.execAll (syscallExit l.syscalls) ⟨d, l.sys⟩ = none := by
  obtain ⟨r, hpops, hrcx, hr11, hrsp, hcs, hmem, hregs⟩ := hq.popped hd
  have hlevel : r.level = 0 := by
    rw [Cpu.level, hcs]
    rfl
  have hexit : SysInstr.execAll (syscallExit l.syscalls) ⟨d, l.sys⟩ =
      (r.sysret l.sys).map (fun cpu => ⟨cpu, l.sys⟩) := by
    rw [show syscallExit l.syscalls = [.plain (.pop .r11), .plain (.pop .rcx),
      .loadAt l.syscalls.savedUserRsp .rsp] ++ [.sysret] from rfl, SysInstr.execAll_append, hpops,
      Option.bind_some, SysInstr.execAll_cons]
    show ((r.sysret l.sys).map _).bind _ = _
    cases r.sysret l.sys <;> rfl
  have hsysret : r.sysret l.sys = if Canonical next then
      some { r with
        rip := next, rflags := c.rflags &&& sysretFlags ||| 2, cs := 0x23, ss := 0x1b } else none := by
    unfold Cpu.sysret
    rw [h.ready.enabled, hlevel, hrcx, hr11, h.ready.star]
    split
    · next hin => rw [if_pos hin.2.2]; rfl
    · next hin => rw [if_neg (fun hcan => hin ⟨rfl, rfl, hcan⟩)]
  rw [hexit, hsysret]
  split
  · have hkept : ∀ x, l.kept x → r.mem x = c.mem x := fun x hx => by
      rw [hmem]
      exact hq.kept hd x hx
    refine ⟨_, rfl, rfl, ?_, hrcx, hr11, hrsp, fun s hs => ?_, rfl, hkept,
      ⟨h.toKernelReady.congr (fun x hx => hkept x (l.tablesKept x hx)), rfl, rfl⟩⟩
    · show r.regs .rax = _
      rw [hregs .rax (by decide), hd.rax, hq.rdi]
    · show r.regs s = _
      rw [hregs s (by revert s; decide), hd.regs s hs, hq.regs s (by revert s; decide)]
  · rfl

end Syscall

/-! ## Setting it up -/

section Setup

variable {p : Processor} {text : SyscallText} {tss stackTop : Word}

/-- **`syscall_init`**: the registers of `SYSCALL`, and the kernel's stack in both places. -/
theorem syscallInitCpu_spec (hlevel : p.cpu.level = 0) (hentry : Canonical text.syscallEntry)
    (hapart : ∀ x, InBytes text.kernelSyscallRsp 8 x → ¬InBytes tss tssSize x) :
    ∃ p', syscallInitCpu p text tss stackTop = some p' ∧ SyscallReady p'.sys text ∧
      p'.sys = { p.sys with
        efer := p'.sys.efer, star := p'.sys.star, lstar := p'.sys.lstar, fmask := p'.sys.fmask } ∧
      p'.cpu = { p.cpu with mem := p'.cpu.mem } ∧
      load64 p'.cpu.mem (tss.toNat + 4) = stackTop ∧
      load64 p'.cpu.mem text.kernelSyscallRsp.toNat = stackTop ∧
      AgreeBut (fun x => (tss.toNat + 4 ≤ x ∧ x < tss.toNat + 12) ∨
        InBytes text.kernelSyscallRsp 8 x) p.cpu.mem p'.cpu.mem := by
  obtain ⟨c, s⟩ := p
  dsimp only at hlevel
  set m := gdtSetKernelStack c.mem tss stackTop with hm
  set m' := store64 m text.kernelSyscallRsp.toNat stackTop with hm'
  have hrsp0 : AgreeOff (tss.toNat + 4) (tss.toNat + 12) c.mem m := store64_agreeOff _ _ _
  have hcell : AgreeOff text.kernelSyscallRsp.toNat (text.kernelSyscallRsp.toNat + 8) m m' :=
    store64_agreeOff _ _ _
  refine ⟨⟨{ c with mem := m' }, { s with
    efer := s.efer ||| eferSce
    star := gdtKernelData <<< 48 ||| gdtKernelCode <<< 32
    lstar := text.syscallEntry
    fmask := fmaskIfTf }⟩, ?_, ⟨?_, rfl, rfl, rfl⟩, rfl, rfl, ?_, load64_store64 _ _ _,
    fun x hx => ?_⟩
  · have hwrmsr : ∀ (s : SystemRegs) (msr : Nat) (value : Word),
        Processor.wrmsr ⟨{ c with mem := m' }, s⟩ msr value =
          if msr = 0xc0000080 then some ⟨{ c with mem := m' }, { s with efer := value }⟩
          else if msr = 0xc0000081 then some ⟨{ c with mem := m' }, { s with star := value }⟩
          else if msr = 0xc0000082 ∧ Canonical value then
            some ⟨{ c with mem := m' }, { s with lstar := value }⟩
          else if msr = 0xc0000084 then some ⟨{ c with mem := m' }, { s with fmask := value }⟩
          else none :=
      fun s msr value => if_neg (not_not_intro hlevel)
    unfold syscallInitCpu
    dsimp only
    rw [hwrmsr, if_pos rfl, Option.bind_some, hwrmsr, if_neg (by decide), if_pos rfl,
      Option.bind_some, hwrmsr, if_neg (by decide), if_neg (by decide), if_pos ⟨rfl, hentry⟩,
      Option.bind_some, hwrmsr, if_neg (by decide), if_neg (by decide), if_neg (by decide),
      if_pos rfl]
  · show (s.efer ||| eferSce).getLsbD 0 = true
    rw [BitVec.getLsbD_or, show eferSce.getLsbD 0 = true from rfl, Bool.or_true]
  · show load64 m' (tss.toNat + 4) = stackTop
    have hstored : load64 m (tss.toNat + 4) = stackTop := load64_store64 _ _ _
    refine Eq.trans (load64_congr (fun x hlo hhi => hcell x ?_)) hstored
    by_contra hin
    exact hapart x ⟨by omega, by omega⟩ ⟨by omega, by unfold tssSize; omega⟩
  · rw [not_or] at hx
    have hout : x < text.kernelSyscallRsp.toNat ∨ text.kernelSyscallRsp.toNat + 8 ≤ x := by
      by_contra hin
      exact hx.2 ⟨by omega, by omega⟩
    exact (hcell x hout).trans (hrsp0 x (by omega))

/-- **`jump_to_ring3`** enters level 3 at `rdi`, on the stack at `rsi`. -/
theorem jumpToRing3_spec {gdt : Word} (hgdt : GdtLoaded p.sys p.cpu.mem gdt)
    (hlevel : p.cpu.level = 0) (hroom : 40 ≤ p.cpu.rsp.toNat)
    (hoff : ∀ x, InBytes gdt gdtTableSize x →
      x < p.cpu.rsp.toNat - 40 ∨ p.cpu.rsp.toNat ≤ x) :
    ∃ c, SysInstr.execAll jumpToRing3 p = some ⟨c, p.sys⟩ ∧ c.rip = p.cpu.regs .rdi ∧
      c.rsp = p.cpu.regs .rsi ∧ c.rflags = 0x202 ∧ c.cs = 0x23 ∧ c.ss = 0x1b ∧
      AgreeOff (p.cpu.rsp.toNat - 40) p.cpu.rsp.toNat p.cpu.mem c.mem ∧
      ∀ r, r ≠ .rax → r ≠ .rsp → c.regs r = p.cpu.regs r := by
  obtain ⟨c, s⟩ := p
  dsimp only at *
  set c₁ := c.set .rax ((c.regs .rax).extractLsb' 16 48 ++ (0x1b : Selector)) with hc₁
  have hrsp₁ : c₁.rsp = c.rsp := rfl
  -- `mov ax` keeps the upper bits of `rax`
  have hselector : (c₁.regs .rax).setWidth 16 = (0x1b : Selector) := by
    rw [hc₁, Cpu.set_self]
    refine BitVec.eq_of_toNat_eq ?_
    rw [BitVec.toNat_setWidth, toNat_append_eq, show (0x1b : Selector).toNat = 27 from rfl]
    omega
  have hload : SysInstr.exec ⟨c₁, s⟩ (.loadData .rax) = some ⟨c₁, s⟩ := by
    simp only [SysInstr.exec, hselector]
    rw [show s.descriptor c₁.mem 0x1b = some userDataDescriptor from hgdt.userData]
    dsimp only
    rw [show c₁.level = 0 from hlevel]
    rfl
  -- the state `iretq` returns to
  set f : Cpu := { c with
    rip := c.regs .rdi
    cs := 0x23
    rflags := 0x202
    ss := 0x1b
    regs := Function.update c.regs .rsp (c.regs .rsi) } with hf
  obtain ⟨hrsp, hholds, hagree, hsame⟩ := pushAll_spec c₁
    [0x1b, c.regs .rsi, 0x202, 0x23, c.regs .rdi] (by
      rw [hrsp₁]
      exact hroom)
  have hfive : 8 * [0x1b, c.regs .rsi, 0x202, 0x23, c.regs .rdi].length = 40 := rfl
  rw [hrsp₁, hfive] at hrsp hholds hagree
  have hpushes : SysInstr.execAll [.plain (.pushImm 0x1b), .plain (.push .rsi),
      .plain (.pushImm 0x202), .plain (.pushImm 0x23), .plain (.push .rdi)] ⟨c₁, s⟩ =
      some ⟨c₁.pushAll [0x1b, c.regs .rsi, 0x202, 0x23, c.regs .rdi], s⟩ := rfl
  have hsegments := pushAll_segments c₁ [0x1b, c.regs .rsi, 0x202, 0x23, c.regs .rdi]
  generalize c₁.pushAll [0x1b, c.regs .rsi, 0x202, 0x23, c.regs .rdi] = c₂ at *
  -- the frame does not overwrite the descriptors `iretq` checks
  have hgdt₂ : GdtLoaded s c₂.mem gdt := hgdt.congr (fun x hlo hhi => hagree x (hoff x ⟨hlo, hhi⟩))
  have hlevel₃ : f.level = 3 := by
    show (0x23 : Word).toNat % 4 = 3
    rfl
  have hframe : Holds c₂.mem c₂.rsp.toNat f.frameWords := by
    rw [hrsp]
    exact hholds
  obtain ⟨c', hiret, hrip, hcs, hrflags, hrsp', hss, hmem, hregs⟩ := iret_spec (s := s) hframe
    hgdt₂.returnsToUser (by rw [Cpu.level, hsegments.1]; exact le_of_eq_of_le hlevel (Nat.zero_le _))
    (by rw [hlevel₃]; exact hgdt₂.stackForUser)
  refine ⟨c', ?_, hrip, hrsp', hrflags, hcs, hss, fun x hx => ?_, fun r hax hsp => ?_⟩
  · rw [show jumpToRing3 = [.movImm16 0x1b .rax, .loadData .rax, .loadData .rax, .loadData .rax,
      .loadData .rax] ++ ([.plain (.pushImm 0x1b), .plain (.push .rsi), .plain (.pushImm 0x202),
        .plain (.pushImm 0x23), .plain (.push .rdi)] ++ [.iret]) from rfl, SysInstr.execAll_append,
      SysInstr.execAll_cons, show SysInstr.exec ⟨c, s⟩ (.movImm16 0x1b .rax) = some ⟨c₁, s⟩ from rfl,
      Option.bind_some, SysInstr.execAll_cons, hload, Option.bind_some, SysInstr.execAll_cons,
      hload, Option.bind_some, SysInstr.execAll_cons, hload, Option.bind_some,
      SysInstr.execAll_cons, hload]
    show ((SysInstr.execAll [] ⟨c₁, s⟩).bind _) = _
    rw [show SysInstr.execAll [] ⟨c₁, s⟩ = some ⟨c₁, s⟩ from rfl, Option.bind_some,
      SysInstr.execAll_append, hpushes, Option.bind_some, SysInstr.execAll_cons]
    show ((c₂.iret s).map _).bind _ = _
    rw [hiret]
    rfl
  · rw [hmem]
    exact hagree x hx
  · rw [hregs r hsp, hsame.regs r hsp, hc₁, Cpu.set_other hax]

end Setup

/-! ### A program at fixed addresses -/

def bootLayout : UserLayout where
  toTrapLayout := bootTraps
  syscalls := ⟨0xb000, 0xc000, 0xc010, 0x7800, 0x30000⟩
  user x := 0x400000 ≤ x ∧ x < 0x501000
  aligned := by decide
  room := by decide
  rspKept x h := by
    have hcell : (0x7800 : Word).toNat = 0x7800 := rfl
    unfold InBytes at h
    dsimp only at h
    exact .inl (by omega)
  savedFree x h := by
    have hcell : (0x30000 : Word).toNat = 0x30000 := rfl
    have hhi : bootTraps.hi.toNat = 0x24000 := rfl
    unfold InBytes at h
    dsimp only at h
    refine ⟨fun hkept => ?_, .inr (by omega)⟩
    have hkept' : x < 0x10000 ∨ 0x400000 ≤ x := hkept
    omega
  userKept x h := .inr h.1
  userApart x h := by
    have hgdt : bootTraps.gdt.toNat = 0x1000 := rfl
    have htss : bootTraps.tss.toNat = 0x2000 := rfl
    have hidt : bootTraps.idt.toNat = 0x6000 := rfl
    have hcell : (0x7800 : Word).toNat = 0x7800 := rfl
    unfold InBytes gdtTableSize tssSize idtSize
    dsimp only
    omega

def bootProgram : Cpu := { bootUser with mem := store64 bootMem 0x7800 0x24000 }

theorem bootProgram_userMode : UserMode bootLayout bootProgram := by
  have hstore : AgreeOff 0x7800 0x7808 bootMem bootProgram.mem := store64_agreeOff _ _ _
  have hgdt : bootTraps.gdt.toNat = 0x1000 := rfl
  have hidt : bootTraps.idt.toNat = 0x6000 := rfl
  refine ⟨⟨⟨bootTables.segments.congr (fun x hlo hhi => hstore x ?_),
    bootTables.idt.congr (fun x hlo hhi => hstore x ?_)⟩, ⟨rfl, rfl, rfl, rfl⟩, ?_,
    load64_store64 _ _ _⟩, rfl, rfl⟩
  · unfold gdtTableSize at hhi
    omega
  · unfold idtSize at hhi
    omega
  · refine Eq.trans (load64_congr (fun x hlo hhi => hstore x (.inl ?_)))
      (bootUser_interruptible.entry (by decide))
    have htss : bootLayout.tss.toNat + 4 + 8 = 0x200c := rfl
    omega

/-! ## There and back -/

section RoundTrip

variable {l : UserLayout} {c : Cpu}

/-- **A system call, there and back.** `syscall_entry` gets off the program's stack and calls
`syscall_dispatch` with the number, the stack aligned, and interrupts masked. When
it has returned, `sysretq` is reached with the program's stack and does not fault if
and only if the address after `syscall` is canonical; the program then finds
`-ENOSYS`, and its stack, flags, segments and preserved registers. -/
theorem syscall_round_trip (h : UserMode l c) (next : Word) :
    ∃ e q, c.syscall l.sys next = some e ∧
      SysInstr.execAll (syscallEntry l.syscalls) ⟨e, l.sys⟩ = some ⟨q, l.sys⟩ ∧
      AtSyscall l c next q ∧ (q.rsp.toNat + 8) % 16 = 0 ∧
      ∀ d, SyscallDispatched l q d →
        if Canonical next then
          ∃ u, SysInstr.execAll (syscallExit l.syscalls) ⟨d, l.sys⟩ = some ⟨u, l.sys⟩ ∧
            AfterSyscall l c next u
        else SysInstr.execAll (syscallExit l.syscalls) ⟨d, l.sys⟩ = none := by
  obtain ⟨q, hentry, hq⟩ := h.entered next
  refine ⟨_, q, h.syscall next, hentry, hq, ?_, fun d hd => h.exit hq hd⟩
  have halign := l.aligned
  have hroom := l.room
  rw [hq.rsp]
  omega

theorem syscall_round_trip_program :
    ∃ e q, bootProgram.syscall bootLayout.sys 0x400002 = some e ∧
      SysInstr.execAll (syscallEntry bootLayout.syscalls) ⟨e, bootLayout.sys⟩ =
        some ⟨q, bootLayout.sys⟩ ∧
      AtSyscall bootLayout bootProgram 0x400002 q ∧ (q.rsp.toNat + 8) % 16 = 0 ∧
      ∀ d, SyscallDispatched bootLayout q d →
        if Canonical 0x400002 then
          ∃ u, SysInstr.execAll (syscallExit bootLayout.syscalls) ⟨d, bootLayout.sys⟩ =
            some ⟨u, bootLayout.sys⟩ ∧ AfterSyscall bootLayout bootProgram 0x400002 u
        else SysInstr.execAll (syscallExit bootLayout.syscalls) ⟨d, bootLayout.sys⟩ = none :=
  syscall_round_trip bootProgram_userMode 0x400002

end RoundTrip

end QuinKernel
