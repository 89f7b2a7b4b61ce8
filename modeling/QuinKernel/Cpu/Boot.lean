import QuinKernel.Cpu.Syscall

/-!
# Traps after boot (`kmain`)

`kmain` calls `gdt_init` and `idt_init`, brings up memory and devices, and calls
`syscall_init`. What these leave is what every interrupt and system call later
relies on, and so does the jump to level 3. `traps_ready` follows the three calls
with any other code of the kernel in between.
-/

namespace QuinKernel

open Machine

/-- The layout, once the registers are loaded. -/
def UserLayout.withSys (l : UserLayout) (s : SystemRegs) : UserLayout := { l with sys := s }

/-- The linker keeps the tables apart. -/
structure BootPlaced (l : UserLayout) : Prop where
  gdtTss : GdtApart l.gdt l.tss
  gdtIdt : ∀ x, InBytes l.gdt gdtTableSize x → ¬InBytes l.idt idtSize x
  gdtRsp : ∀ x, InBytes l.gdt gdtTableSize x → ¬InBytes l.syscalls.kernelSyscallRsp 8 x
  tssRsp : ∀ x, InBytes l.syscalls.kernelSyscallRsp 8 x → ¬InBytes l.tss tssSize x
  idtRsp : ∀ x, InBytes l.idt idtSize x → ¬InBytes l.syscalls.kernelSyscallRsp 8 x
  idtTss : ∀ x, InBytes l.idt idtSize x → ¬InBytes l.tss tssSize x

/-- Other code of the kernel runs: it loads none of these registers, and writes to none
of the tables. -/
structure KernelCode (l : UserLayout) (p q : Processor) : Prop where
  sys : q.sys = p.sys
  level : q.cpu.level = 0
  mem : ∀ x, l.Tables x → q.cpu.mem x = p.cpu.mem x

section Boot

variable {l : UserLayout} {p q : Processor}

theorem KernelCode.segments (h : KernelCode l p q)
    (hready : SegmentsReady p.sys p.cpu.mem l.gdt l.tss) :
    SegmentsReady q.sys q.cpu.mem l.gdt l.tss := by
  rw [h.sys]
  exact hready.congr (fun x hlo hhi => h.mem x (.inl ⟨hlo, hhi⟩))

theorem KernelCode.idt (h : KernelCode l p q) (hloaded : IdtLoaded p.sys p.cpu.mem l.idt l.stubs) :
    IdtLoaded q.sys q.cpu.mem l.idt l.stubs := by
  rw [h.sys]
  exact hloaded.congr (fun x hlo hhi => h.mem x (.inr (.inr (.inl ⟨hlo, hhi⟩))))

/-- `syscall_init` finds the two tables, and leaves everything ready. -/
theorem syscallInitCpu_ready (hplaced : BootPlaced l) (hlevel : p.cpu.level = 0)
    (hentry : Canonical l.syscalls.syscallEntry)
    (hsegments : SegmentsReady p.sys p.cpu.mem l.gdt l.tss)
    (hidt : IdtLoaded p.sys p.cpu.mem l.idt l.stubs) :
    ∃ p', syscallInitCpu p l.syscalls l.tss l.hi = some p' ∧
      KernelReady (l.withSys p'.sys) p'.cpu.mem := by
  obtain ⟨p', hcall, hready, hsys, -, hrsp0, hcell, hmem⟩ :=
    @syscallInitCpu_spec p l.syscalls l.tss l.hi hlevel hentry hplaced.tssRsp
  refine ⟨p', hcall, ⟨⟨⟨?_, ?_, ?_⟩, ?_⟩, hready, hrsp0, hcell⟩⟩
  · refine ⟨?_, hsegments.entries.congr (fun x hlo hhi => hmem x ?_)⟩
    · show p'.sys.gdtr = _
      rw [hsys]
      exact hsegments.gdtr
    · have hgdt : InBytes l.gdt gdtTableSize x := ⟨hlo, by unfold gdtTableSize; omega⟩
      have hapart := hplaced.gdtTss
      unfold GdtApart gdtTableSize tssSize at hapart
      exact not_or.mpr ⟨by omega, hplaced.gdtRsp x hgdt⟩
  · show p'.sys.tssBase = _
    rw [hsys]
    exact hsegments.tssBase
  · show p'.sys.tssLimit = _
    rw [hsys]
    exact hsegments.tssLimit
  · have hloaded : IdtLoaded p'.sys p.cpu.mem l.idt l.stubs := by
      refine ⟨?_, hidt.gates⟩
      rw [hsys]
      exact hidt.idtr
    refine hloaded.congr (fun x hlo hhi => hmem x (not_or.mpr ⟨fun hin => ?_, ?_⟩))
    · exact hplaced.idtTss x ⟨hlo, hhi⟩ ⟨by omega, by unfold tssSize; omega⟩
    · exact hplaced.idtRsp x ⟨hlo, hhi⟩

/-- **After boot every trap is answered.** None of `gdt_init`, `idt_init` and `syscall_init`
faults, whatever the kernel does in between. From then on, as long as nobody writes to
the tables: each exception, line and spurious interrupt leads from any level into the
stub made for it and any other vector nowhere, and interrupts and system calls
from level 3 find the kernel's stack. -/
theorem traps_ready {p₁ : Processor} {gdtr : Word} (flush here next : Word)
    (hplaced : BootPlaced l) (hentry : Canonical l.syscalls.syscallEntry)
    (hlevel : p₁.cpu.level = 0) (hroom : 24 ≤ p₁.cpu.rsp.toNat)
    (hgdtr : ∀ x, InBytes gdtr 10 x → ¬l.Tables x)
    (hstack : ∀ x, p₁.cpu.rsp.toNat - 24 ≤ x → x < p₁.cpu.rsp.toNat →
      ¬l.Tables x ∧ ¬InBytes gdtr 10 x) :
    ∃ p₂, gdtInit p₁ l.gdt l.tss gdtr flush here next = some p₂ ∧
      ∀ p₃ idtr, KernelCode l p₂ p₃ → (∀ x, InBytes idtr 10 x → ¬l.Tables x) →
      ∃ p₄, idtInit p₃ l.idt idtr l.stubs = some p₄ ∧
        ∀ p₅, KernelCode l p₄ p₅ →
        ∃ p₆, syscallInitCpu p₅ l.syscalls l.tss l.hi = some p₆ ∧
          ∀ m, (∀ x, l.Tables x → m x = p₆.cpu.mem x) → KernelReady (l.withSys p₆.sys) m ∧
            ∀ c : Cpu, c.mem = m → DeliversTo p₆.sys l.stubs c := by
  obtain ⟨p₂, hgdtInit, hsegments, hcs, -⟩ := gdtInit_spec flush here next hlevel hplaced.gdtTss
    (fun x hx hin => hgdtr x hx (hin.imp_right Or.inl)) hroom (fun x hlo hhi =>
      ⟨fun hin => (hstack x hlo hhi).1 (hin.imp_right Or.inl), (hstack x hlo hhi).2⟩)
  refine ⟨p₂, hgdtInit, fun p₃ idtr hcode₃ hidtr => ?_⟩
  -- kernel code keeps the tables, and `idt_init` writes only its own
  have hsegments₃ := hcode₃.segments hsegments
  obtain ⟨p₄, hidtInit, hidt, hgdt, hsys, hcpu, hmem⟩ := idtInit_spec l.stubs hcode₃.level
    hsegments₃.toGdtLoaded (fun x hx hin => hidtr x hx (.inr (.inr (.inl hin))))
    (fun x hx => ⟨hplaced.gdtIdt x hx, fun hin => hidtr x hin (.inl hx)⟩)
  have hsegments₄ : SegmentsReady p₄.sys p₄.cpu.mem l.gdt l.tss := by
    refine ⟨hgdt, ?_, ?_⟩
    · rw [hsys]
      exact hsegments₃.tssBase
    · rw [hsys]
      exact hsegments₃.tssLimit
  refine ⟨p₄, hidtInit, fun p₅ hcode₅ => ?_⟩
  obtain ⟨p₆, hsyscallInit, hready⟩ := syscallInitCpu_ready hplaced hcode₅.level hentry
    (hcode₅.segments hsegments₄) (hcode₅.idt hidt)
  refine ⟨p₆, hsyscallInit, fun m hm => ?_⟩
  have hready' : KernelReady (l.withSys p₆.sys) m := hready.congr hm
  refine ⟨hready', fun c hc => ?_⟩
  subst hc
  exact deliversTo hready'.tables.idt hready'.tables.segments.toGdtLoaded

/-- The linker's addresses, and the bootloader's stack. -/
theorem traps_ready_boot :
    let p₁ : Processor :=
      ⟨⟨fun r => if r = .rsp then 0x18000 else 0, 0, 2, 0x28, 0x30, fun _ => 0⟩,
        ⟨⟨0x37, 0x800⟩, ⟨0, 0⟩, 0, 0, 0x500, 0, 0, 0⟩⟩
    ∃ p₂, gdtInit p₁ bootLayout.gdt bootLayout.tss 0x18010 0x7000 0x7010 0x7100 = some p₂ ∧
      ∀ p₃ idtr, KernelCode bootLayout p₂ p₃ → (∀ x, InBytes idtr 10 x → ¬bootLayout.Tables x) →
      ∃ p₄, idtInit p₃ bootLayout.idt idtr bootLayout.stubs = some p₄ ∧
        ∀ p₅, KernelCode bootLayout p₄ p₅ →
        ∃ p₆, syscallInitCpu p₅ bootLayout.syscalls bootLayout.tss bootLayout.hi = some p₆ ∧
          ∀ m, (∀ x, bootLayout.Tables x → m x = p₆.cpu.mem x) →
            KernelReady (bootLayout.withSys p₆.sys) m ∧
            ∀ c : Cpu, c.mem = m → DeliversTo p₆.sys bootLayout.stubs c := by
  have hgdt : bootLayout.gdt.toNat = 0x1000 := rfl
  have htss : bootLayout.tss.toNat = 0x2000 := rfl
  have hidt : bootLayout.idt.toNat = 0x6000 := rfl
  have hcell : bootLayout.syscalls.kernelSyscallRsp.toNat = 0x7800 := rfl
  have hgdtr : (0x18010 : Word).toNat = 0x18010 := rfl
  have hoff : ∀ x, 0x10000 ≤ x → x < 0x400000 → ¬bootLayout.Tables x := by
    intro x hlo hhi htables
    have hkept : x < 0x10000 ∨ 0x400000 ≤ x := bootLayout.tablesKept x htables
    omega
  intro p₁
  have hrsp : p₁.cpu.rsp.toNat = 0x18000 := rfl
  have hplaced : BootPlaced bootLayout := by
    refine ⟨.inl (by decide), ?_, ?_, ?_, ?_, ?_⟩
    all_goals
      intro x hx hin
      simp only [InBytes, gdtTableSize, tssSize, idtSize] at hx hin
      omega
  refine traps_ready 0x7000 0x7010 0x7100 hplaced (by decide) (by decide) (by decide)
    (fun x hx => ?_) (fun x hlo hhi => ⟨hoff x (by omega) (by omega), fun hin => ?_⟩)
  · unfold InBytes at hx
    exact hoff x (by omega) (by omega)
  · unfold InBytes at hin
    omega

end Boot

end QuinKernel
