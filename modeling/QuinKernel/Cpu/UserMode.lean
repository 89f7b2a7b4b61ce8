import QuinKernel.Cpu.Syscall
import QuinKernel.Machine.Simulation

/-!
# What a program at level 3 sees

A program executes instructions, makes system calls, and is interrupted where it
does not expect it. `userMachine` is a machine that has no interrupts, and where
a system call is one step. `user_mode_refines` says that the program cannot tell
the two apart: `userSystem` has the stubs, the frames, the handlers and the two
ways back to level 3, and all of these come to nothing, or to that step.
-/

namespace QuinKernel

open Machine

/-- What a program can read. -/
structure UserState where
  regs : Reg → Word
  rip : Word
  rflags : Word
  mem : Mem

def userView (c : Cpu) : UserState := ⟨c.regs, c.rip, c.rflags, c.mem⟩

/-- The same, as far as a program with the memory `user` can tell. -/
structure SameUser (user : Nat → Prop) (s t : UserState) : Prop where
  regs : t.regs = s.regs
  rip : t.rip = s.rip
  rflags : t.rflags = s.rflags
  mem : ∀ x, user x → t.mem x = s.mem x

/-- The processor's instructions at level 3, as they are found in memory; `none` is
`syscall`. They read and write the program's memory only. -/
structure UserIsa (user : Nat → Prop) where
  step : UserState → Option UserState
  writes : ∀ s s', step s = some s' → ∀ x, ¬user x → s'.mem x = s.mem x
  reads : ∀ s t, SameUser user s t → Option.Rel (SameUser user) (step s) (step t)

/-- What `syscall`, an instruction of two bytes, does to a program. -/
structure SyscallEffect (s s' : UserState) : Prop where
  rip : s'.rip = s.rip + 2
  rax : s'.regs .rax = syscallDispatch (s.regs .rax)
  rcx : s'.regs .rcx = s.rip + 2
  r11 : s'.regs .r11 = s.rflags
  rsp : s'.regs .rsp = s.regs .rsp
  regs : ∀ r ∈ calleeSaved, s'.regs r = s.regs r
  rflags : s'.rflags = s.rflags &&& sysretFlags ||| 2
  mem : s'.mem = s.mem

inductive UserStep
  | instruction
  | syscall

/-- A program alone on the machine. -/
def userMachine {user : Nat → Prop} (isa : UserIsa user) (entry stack : Word) :
    System UserState UserStep where
  init s := s.rip = entry ∧ s.regs .rsp = stack ∧ s.rflags = 0x202
  step s e s' :=
    match e with
    | .instruction => isa.step s = some s'
    | .syscall => isa.step s = none ∧ SyscallEffect s s'

inductive UserEvent
  | instruction
  | syscall
  /-- An interrupt is taken and returned from, and so are those that interrupt it. -/
  | interrupt

/-- What the program itself does. -/
def UserEvent.shown : UserEvent → Option UserStep
  | .instruction => some .instruction
  | .syscall => some .syscall
  | .interrupt => none

/-- The program on the kernel, from `jump_to_ring3` on. -/
def userSystem (l : UserLayout) (isa : UserIsa l.user) (entry stack : Word) :
    System Cpu UserEvent where
  init c := ∃ p : Processor, p.sys = l.sys ∧ KernelReady l p.cpu.mem ∧ p.cpu.level = 0 ∧
    40 ≤ p.cpu.rsp.toNat ∧
    (∀ x, p.cpu.rsp.toNat - 40 ≤ x → x < p.cpu.rsp.toNat → ¬l.Tables x) ∧
    p.cpu.regs .rdi = entry ∧ p.cpu.regs .rsi = stack ∧
    SysInstr.execAll jumpToRing3 p = some ⟨c, l.sys⟩
  step c e c' :=
    match e with
    | .instruction => ∃ s, isa.step (userView c) = some s ∧
        c' = { c with regs := s.regs, rip := s.rip, rflags := s.rflags, mem := s.mem }
    | .interrupt => Interlude l.toTrapLayout .take c c'
    | .syscall => isa.step (userView c) = none ∧ ∃ e q d,
        c.syscall l.sys (c.rip + 2) = some e ∧
        SysInstr.execAll (syscallEntry l.syscalls) ⟨e, l.sys⟩ = some ⟨q, l.sys⟩ ∧
        SyscallDispatched l q d ∧
        SysInstr.execAll (syscallExit l.syscalls) ⟨d, l.sys⟩ = some ⟨c', l.sys⟩

section Refinement

variable {l : UserLayout} {isa : UserIsa l.user} {entry stack : Word} {c c' : Cpu} {s s' : UserState}

theorem UserLayout.user_notTables (l : UserLayout) {x : Nat} (h : l.Tables x) : ¬l.user x := by
  intro hx
  obtain ⟨hgdt, htss, hidt, hrsp⟩ := l.userApart x hx
  rcases h with h | h | h | h
  · exact hgdt h
  · exact htss h
  · exact hidt h
  · exact hrsp h

theorem UserMode.interruptible (h : UserMode l c) : Interruptible l.toTrapLayout c where
  tables := h.tables
  returns := by
    rw [h.cs]
    exact h.tables.segments.returnsToUser
  stack := by
    rw [h.level, h.ss]
    exact h.tables.segments.stackForUser
  below hlevel := absurd (h.level.symm.trans hlevel) (by decide)
  entry _ := h.entry

theorem UserMode.undisturbed (h : UserMode l c) (hc : Undisturbed l.toTrapLayout c c') :
    UserMode l c' := by
  have hstate := hc.state
  refine ⟨h.toKernelReady.congr (fun x hx => hc.kept x (l.tablesKept x hx)), ?_, ?_⟩
  · rw [hstate]
    exact h.cs
  · rw [hstate]
    exact h.ss

/-- The program is running, and sees the state `s`. -/
structure Runs (l : UserLayout) (c : Cpu) (s : UserState) : Prop where
  mode : UserMode l c
  same : SameUser l.user (userView c) s

theorem Runs.init (h : (userSystem l isa entry stack).init c) :
    ∃ s, (userMachine isa entry stack).init s ∧ Runs l c s := by
  obtain ⟨p, hsys, hready, hlevel, hroom, hoff, hrdi, hrsi, hjump⟩ := h
  have hgdt : GdtLoaded p.sys p.cpu.mem l.gdt := by
    rw [hsys]
    exact hready.tables.segments.toGdtLoaded
  have hapart : ∀ x, l.Tables x → x < p.cpu.rsp.toNat - 40 ∨ p.cpu.rsp.toNat ≤ x := by
    intro x hx
    by_contra hin
    exact hoff x (by omega) (by omega) hx
  obtain ⟨u, hrun, hrip, hrsp, hrflags, hcs, hss, hmem, -⟩ :=
    jumpToRing3_spec hgdt hlevel hroom (fun x hx => hapart x (.inl hx))
  obtain rfl : u = c := (Processor.mk.inj (Option.some.inj (hrun.symm.trans hjump))).1
  exact ⟨userView u, ⟨hrip.trans hrdi, hrsp.trans hrsi, hrflags⟩,
    ⟨hready.congr (fun x hx => hmem x (hapart x hx)), hcs, hss⟩, rfl, rfl, rfl, fun _ _ => rfl⟩

/-- An instruction is the same instruction. -/
theorem Runs.instruction (h : Runs l c s) {t : UserState} (ht : isa.step (userView c) = some t) :
    ∃ s', isa.step s = some s' ∧
      Runs l { c with regs := t.regs, rip := t.rip, rflags := t.rflags, mem := t.mem } s' := by
  have hrel := isa.reads _ _ h.same
  rw [ht] at hrel
  generalize hs : isa.step s = o at hrel
  cases hrel with
  | some hsame =>
      refine ⟨_, rfl, ⟨h.mode.toKernelReady.congr (fun x hx => ?_), h.mode.cs, h.mode.ss⟩, hsame⟩
      exact isa.writes _ _ ht x (l.user_notTables hx)

/-- An interrupt is nothing. -/
theorem Runs.interrupt (h : Runs l c s) (hinterlude : Interlude l.toTrapLayout .take c c') :
    Runs l c' s := by
  have hsame : Undisturbed l.toTrapLayout c c' := hinterlude.sound h.mode.interruptible
  have hstate := hsame.state
  refine ⟨h.mode.undisturbed hsame, h.same.regs.trans ?_, h.same.rip.trans ?_,
    h.same.rflags.trans ?_, fun x hx => ?_⟩
  · rw [hstate]
    rfl
  · rw [hstate]
    rfl
  · rw [hstate]
    rfl
  · rw [h.same.mem x hx]
    exact (hsame.kept x (l.userKept x hx)).symm

/-- A system call is one step. -/
theorem Runs.syscall (h : Runs l c s) {e q d : Cpu} (he : c.syscall l.sys (c.rip + 2) = some e)
    (hq : SysInstr.execAll (syscallEntry l.syscalls) ⟨e, l.sys⟩ = some ⟨q, l.sys⟩)
    (hd : SyscallDispatched l q d)
    (hc' : SysInstr.execAll (syscallExit l.syscalls) ⟨d, l.sys⟩ = some ⟨c', l.sys⟩) :
    ∃ s', SyscallEffect s s' ∧ Runs l c' s' := by
  obtain rfl : syscallEntered l c (c.rip + 2) = e :=
    Option.some.inj ((h.mode.syscall _).symm.trans he)
  obtain ⟨q', hentry, hat⟩ := h.mode.entered (c.rip + 2)
  obtain rfl : q' = q := (Processor.mk.inj (Option.some.inj (hentry.symm.trans hq))).1
  -- `sysretq` goes back to the program, or the return address is not canonical
  have hexit := h.mode.exit hat hd
  split at hexit
  · obtain ⟨u, hu, hafter⟩ := hexit
    obtain rfl : u = c' := (Processor.mk.inj (Option.some.inj (hu.symm.trans hc'))).1
    have hrip : s.rip = c.rip := h.same.rip
    have hregs : s.regs = c.regs := h.same.regs
    have hrflags : s.rflags = c.rflags := h.same.rflags
    refine ⟨⟨u.regs, u.rip, u.rflags, s.mem⟩, ⟨?_, ?_, ?_, ?_, ?_, fun r hr => ?_, ?_, rfl⟩,
      hafter.mode, rfl, rfl, rfl, fun x hx => ?_⟩
    · rw [hrip]
      exact hafter.rip
    · rw [hregs]
      exact hafter.rax
    · rw [hrip]
      exact hafter.rcx
    · rw [hrflags]
      exact hafter.r11
    · rw [hregs]
      exact hafter.rsp
    · rw [hregs]
      exact hafter.regs r hr
    · rw [hrflags]
      exact hafter.rflags
    · rw [h.same.mem x hx]
      exact (hafter.kept x (l.userKept x hx)).symm
  · rw [hexit] at hc'
    cases hc'

/-- **The kernel simulates the bare machine.** -/
theorem userSimulation (l : UserLayout) (isa : UserIsa l.user) (entry stack : Word) :
    Simulation (userSystem l isa entry stack) (userMachine isa entry stack)
      (fun e o => o = e.shown) (Runs l) where
  init _ h := Runs.init h
  step c s e c' h hstep := by
    cases e with
    | instruction =>
        obtain ⟨t, ht, rfl⟩ := hstep
        obtain ⟨s', hs', hruns⟩ := h.instruction ht
        exact ⟨_, s', rfl, hs', hruns⟩
    | interrupt => exact ⟨_, s, rfl, rfl, h.interrupt hstep⟩
    | syscall =>
        obtain ⟨hnone, e, q, d, he, hq, hd, hc'⟩ := hstep
        obtain ⟨s', heffect, hruns⟩ := h.syscall he hq hd hc'
        refine ⟨_, s', rfl, ⟨?_, heffect⟩, hruns⟩
        have hrel := isa.reads _ _ h.same
        rw [hnone] at hrel
        generalize isa.step s = o at hrel
        cases hrel
        rfl

/-- **A program cannot tell that it is interrupted.** Whatever exceptions and lines come in
between, nested to any depth, and whatever the handlers and the threads they switch
to do outside the program's memory: from `jump_to_ring3` on, the program goes
through the states of a machine that only executes its instructions, and answers
each system call with `-ENOSYS`, its stack, flags and preserved registers intact. -/
theorem user_mode_refines {es : List UserEvent} (hinit : (userSystem l isa entry stack).init c)
    (hrun : (userSystem l isa entry stack).Run c es c') :
    ∃ s s', (userMachine isa entry stack).init s ∧ SameUser l.user (userView c) s ∧
      (userMachine isa entry stack).Run s (es.filterMap UserEvent.shown) s' ∧
      SameUser l.user (userView c') s' ∧ UserMode l c' := by
  obtain ⟨s, hs, hruns⟩ := Runs.init hinit
  obtain ⟨fs, s', hshows, habstract, hruns'⟩ := (userSimulation l isa entry stack).run hrun hruns
  obtain rfl := hshows.eq_filterMap
  exact ⟨s, s', hs, hruns.same, habstract, hruns'.same, hruns'.mode⟩

end Refinement

/-! ### The demo program -/

/-- `syscall; jmp $`, at `USER_CODE_VADDR`. -/
def demoIsa : UserIsa bootLayout.user where
  step s := if s.rip = 0x400000 then none else some s
  writes s s' h x _ := by
    split at h
    · cases h
    · cases h
      rfl
  reads s t h := by
    rw [h.rip]
    split
    · exact .none
    · exact .some h

/-- `ring3_demo_thread`, about to jump. -/
def demoThread : Processor where
  cpu :=
    { regs := fun r => match r with
        | .rdi => 0x400000
        | .rsi => 0x501000
        | .rsp => 0x18000
        | _ => 0
      rip := 0x7000
      rflags := 0x202
      cs := 0x08
      ss := 0x10
      mem := bootProgram.mem }
  sys := bootLayout.sys

/-- `syscall_dispatch` returns. -/
def demoDispatched (q : Cpu) : Cpu :=
  { (q.set .rsp (q.rsp + 8)).set .rax (syscallDispatch (q.regs .rdi)) with
    rip := load64 q.mem q.rsp.toNat }

theorem demoDispatched_spec {c q : Cpu} {next : Word} (hq : AtSyscall bootLayout c next q) :
    SyscallDispatched bootLayout q (demoDispatched q) := by
  refine ⟨rfl, rfl, rfl, fun r hr => ?_, ?_, rfl, fun _ _ => rfl, fun _ _ _ => rfl⟩
  · have hax : r ≠ .rax := by
      rintro rfl
      exact absurd hr (by decide)
    have hsp : r ≠ .rsp := by
      rintro rfl
      exact absurd hr (by decide)
    exact (Cpu.set_other hax).trans (Cpu.set_other hsp)
  · show q.rflags &&& flagIf = 0
    rw [show flagIf = fmaskIfTf &&& flagIf from rfl, ← BitVec.and_assoc, hq.masked]
    exact BitVec.zero_and

/-- A tick of the timer, with a non-maskable interrupt on its way out. -/
theorem UserMode.exists_tick {c : Cpu} (h : UserMode bootLayout c) (hflag : c.rflags &&& flagIf ≠ 0) :
    ∃ c', Interlude bootLayout.toTrapLayout .take c c' := by
  obtain ⟨-, -, -, c', -, -, -, -, -, hinterlude⟩ := h.interruptible.exists_nested
    (by rw [h.level]; decide) (by decide) (show 32 < 48 by decide) hflag (by decide)
    (show 2 < 32 by decide) (by decide)
  exact ⟨c', hinterlude⟩

/-- The program makes its system call and then waits; each time a tick of the timer is
taken before, and a non-maskable interrupt on the way out. -/
theorem user_mode_refines_demo :
    ∃ c c' s s', (userMachine demoIsa 0x400000 0x501000).init s ∧
      SameUser bootLayout.user (userView c) s ∧
      (userMachine demoIsa 0x400000 0x501000).Run s [.syscall, .instruction] s' ∧
      (userSystem bootLayout demoIsa 0x400000 0x501000).Run c
        [.interrupt, .syscall, .interrupt, .instruction] c' ∧
      SameUser bootLayout.user (userView c') s' ∧ UserMode bootLayout c' := by
  have hready : KernelReady bootLayout demoThread.cpu.mem := bootProgram_userMode.toKernelReady
  have hapart : ∀ x, 0x18000 - 40 ≤ x → x < 0x18000 → ¬bootLayout.Tables x := by
    intro x hlo hhi htables
    have hoff := bootLayout.tablesKept x htables
    have hoff' : x < 0x10000 ∨ 0x400000 ≤ x := hoff
    omega
  obtain ⟨c, hjump, hrip, -, hrflags, hcs, hss, hmem, -⟩ := jumpToRing3_spec (p := demoThread)
    hready.tables.segments.toGdtLoaded rfl (by decide) (fun x hx => by
      by_contra hin
      have hrsp : demoThread.cpu.rsp.toNat = 0x18000 := rfl
      exact hapart x (by omega) (by omega) (.inl hx))
  have hinit : (userSystem bootLayout demoIsa 0x400000 0x501000).init c :=
    ⟨demoThread, rfl, hready, rfl, by decide, fun x hlo hhi => hapart x hlo hhi, rfl, rfl, hjump⟩
  have hmode : UserMode bootLayout c := by
    refine ⟨hready.congr (fun x hx => hmem x ?_), hcs, hss⟩
    by_contra hin
    have hrsp : demoThread.cpu.rsp.toNat = 0x18000 := rfl
    exact hapart x (by omega) (by omega) hx
  obtain ⟨c₁, hfirst⟩ := hmode.exists_tick (by rw [hrflags]; decide)
  have hsame₁ : Undisturbed bootTraps c c₁ := hfirst.sound hmode.interruptible
  have hmode₁ : UserMode bootLayout c₁ := hmode.undisturbed hsame₁
  have hrip₁ : c₁.rip = 0x400000 := by
    rw [hsame₁.state]
    exact hrip
  have hrflags₁ : c₁.rflags = 0x202 := by
    rw [hsame₁.state]
    exact hrflags
  obtain ⟨q, hentry, hq⟩ := hmode₁.entered (c₁.rip + 2)
  have hexit := hmode₁.exit hq (demoDispatched_spec hq)
  rw [if_pos (by rw [hrip₁]; decide)] at hexit
  obtain ⟨u, hu, hafter⟩ := hexit
  obtain ⟨u₁, hsecond⟩ := hafter.mode.exists_tick (by
    rw [hafter.rflags, hrflags₁]
    decide)
  have hsame₂ : Undisturbed bootTraps u u₁ := hsecond.sound hafter.mode.interruptible
  have hnone : demoIsa.step (userView c₁) = none := if_pos hrip₁
  have hjmp : demoIsa.step (userView u₁) = some (userView u₁) := by
    refine if_neg ?_
    show u₁.rip ≠ 0x400000
    rw [hsame₂.state]
    show u.rip ≠ 0x400000
    rw [hafter.rip, hrip₁]
    decide
  have hrun : (userSystem bootLayout demoIsa 0x400000 0x501000).Run c
      [.interrupt, .syscall, .interrupt, .instruction] u₁ :=
    .cons hfirst (.cons ⟨hnone, _, q, _, hmode₁.syscall _, hentry, demoDispatched_spec hq, hu⟩
      (.cons hsecond (.single ⟨userView u₁, hjmp, rfl⟩)))
  obtain ⟨s, s', hs, hsame, habstract, hsame', hmode'⟩ := user_mode_refines hinit hrun
  exact ⟨c, u₁, s, s', hs, hsame, habstract, hrun, hsame', hmode'⟩

end QuinKernel
