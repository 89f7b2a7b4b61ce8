import QuinKernel.Cpu.Idt
import QuinKernel.Sched.Resume

/-!
# Through an interrupt and back (`isr_stubs.S`)

The processor pushes five words for some vectors and six for others. The stubs
make up for that, so that `isr_dispatch` always gets a whole `struct
interrupt_frame` (`isr_dispatch_frame`). On the way out the registers are popped
and `iretq` takes the rest; that way can itself be interrupted, wherever it has
got to, and so can the handling of that interrupt. `Interlude` is all of this,
to any depth, and `interrupts_transparent` says that none of it shows.
-/

namespace QuinKernel

open Machine

/-! ## The way in -/

/-- The vectors of `isr_err`. -/
def isrErr : List Nat := [8, 10, 11, 12, 13, 14, 17, 21, 29, 30]

/-- `isr_stub_\vec` and `irq_stub_\vec`, up to the jump. -/
def vectorStub (vector : Nat) : List Instr :=
  if vector ∈ isrErr then [.pushImm (BitVec.ofNat 64 vector)]
  else irqStub (BitVec.ofNat 64 vector)

/-- `struct interrupt_frame`, and the interrupted stack above it. -/
def interruptFrame (f : Cpu) (vector : Nat) (errorCode : Option Word) : List Word :=
  poppedRegs.map f.regs ++ [BitVec.ofNat 64 vector, errorCode.getD 0] ++ f.frameWords

/-- `isr_dispatch` is called for an interrupt in state `f`, the frame ending at `top`. -/
structure AtDispatch (text : KernelText) (f : Cpu) (top vector : Nat) (errorCode : Option Word)
    (c : Cpu) : Prop where
  rip : c.rip = text.isrDispatch
  rdi : (c.regs .rdi).toNat = top - 176
  rsp : c.rsp.toNat = top - 184
  returns : load64 c.mem (top - 184) = text.address (.exit 0)
  frame : Holds c.mem (top - 176) (interruptFrame f vector errorCode)
  masked : c.rflags &&& flagIf = 0
  cs : c.cs = gdtKernelCode
  mem : AgreeOff (top - 184) top f.mem c.mem

section Entry

variable {text : KernelText} {f e c : Cpu} {sp handler : Word} {vector : Nat}
  {errorCode : Option Word}

/-- The words a stub pushes. -/
def stubWords (vector : Nat) : List Word :=
  (if vector ∈ isrErr then [] else [0]) ++ [BitVec.ofNat 64 vector]

theorem exec_vectorStub (vector : Nat) (e : Cpu) :
    exec (vectorStub vector) e = e.pushAll (stubWords vector) := by
  unfold vectorStub stubWords
  split <;> rfl

/-- A stub pushes an error code where the processor does not. -/
theorem stubWords_spec (hcode : errorCode.isSome = decide (vector ∈ errorCodeVectors)) :
    (stubWords vector).reverse ++ errorCode.toList = [BitVec.ofNat 64 vector, errorCode.getD 0] ∧
    8 * (stubWords vector).length + 8 * errorCode.toList.length = 16 := by
  unfold stubWords
  cases errorCode with
  | none =>
      have hno : vector ∉ isrErr := by simpa [isrErr, errorCodeVectors] using hcode.symm
      rw [if_neg hno]
      exact ⟨rfl, rfl⟩
  | some code =>
      have hyes : vector ∈ isrErr := by simpa [isrErr, errorCodeVectors] using hcode.symm
      rw [if_pos hyes]
      exact ⟨rfl, rfl⟩

/-- Whatever the processor pushed, the stub leaves a vector and an error code. -/
theorem vectorStub_spec (h : Entered f sp 0x08 handler errorCode e)
    (hcode : errorCode.isSome = decide (vector ∈ errorCodeVectors))
    (hroom : 56 ≤ sp.toNat / 16 * 16) (hc : exec (vectorStub vector) e = c) :
    c.rsp.toNat = sp.toNat / 16 * 16 - 56 ∧
    Holds c.mem (sp.toNat / 16 * 16 - 56)
      ([BitVec.ofNat 64 vector, errorCode.getD 0] ++ f.frameWords) ∧
    AgreeOff (sp.toNat / 16 * 16 - 56) (sp.toNat / 16 * 16) f.mem c.mem ∧
    (∀ r, r ≠ .rsp → c.regs r = f.regs r) ∧ c.rflags = f.rflags &&& ~~~gateFlags ∧
    c.cs = gdtKernelCode := by
  obtain ⟨hwords, hlen⟩ := stubWords_spec hcode
  have hrsp := h.rsp
  have hmem := h.mem
  obtain ⟨hsp, hholds, hagree, hsame⟩ := pushAll_spec e (stubWords vector) (by omega)
  rw [show e.rsp.toNat - 8 * (stubWords vector).length = sp.toNat / 16 * 16 - 56 by omega]
    at hsp hholds hagree
  rw [exec_vectorStub] at hc
  subst hc
  refine ⟨hsp, ?_, fun x hx => ?_, fun r hr => (hsame.regs r hr).trans (h.regs r hr),
    hsame.rflags.trans h.rflags, ?_⟩
  · rw [← hwords, List.append_assoc, holds_append]
    refine ⟨hholds, ?_⟩
    rw [List.length_reverse, show sp.toNat / 16 * 16 - 56 + 8 * (stubWords vector).length =
      e.rsp.toNat by omega]
    exact h.frame.congr (fun x hlo _ => hagree x (by omega))
  · rw [hagree x (by omega), hmem x (by omega)]
  · rw [(pushAll_segments e _).1, h.cs]
    rfl

/-- **The way in**: `isr_dispatch` is called with the whole frame, and its address. -/
theorem vectorEntry_spec (h : Entered f sp 0x08 handler errorCode e)
    (hcode : errorCode.isSome = decide (vector ∈ errorCodeVectors))
    (hroom : 184 ≤ sp.toNat / 16 * 16)
    (hc : exec (vectorStub vector ++ isrCommonStub text) e = c) :
    AtDispatch text f (sp.toNat / 16 * 16) vector errorCode c := by
  generalize htop : sp.toNat / 16 * 16 = top at *
  rw [exec_append, isrCommonStub, exec_append] at hc
  generalize hd : exec (vectorStub vector) e = d at hc
  obtain ⟨hsp₁, hframe, hmem₁, hregs, hflags, hcs⟩ :=
    vectorStub_spec h hcode (by omega) hd
  rw [htop] at hsp₁ hframe hmem₁
  -- the stub before has changed none of the registers that are pushed now
  have hsaved : pushedRegs.map d.regs = pushedRegs.map f.regs :=
    List.map_congr_left (fun r hr => hregs r (fun h => absurd (h ▸ hr) (by decide)))
  rw [exec_pushes (by decide), hsaved] at hc
  obtain ⟨hsp₂, hholds, hmem₂, hsame⟩ := pushAll_spec d (pushedRegs.map f.regs) (by
    rw [hsp₁]
    show 120 ≤ top - 56
    omega)
  have hlen : 8 * (pushedRegs.map f.regs).length = 120 := rfl
  have hsegments := pushAll_segments d (pushedRegs.map f.regs)
  rw [hlen, hsp₁, show top - 56 - 120 = top - 176 by omega] at hsp₂ hholds hmem₂
  rw [← List.map_reverse, show pushedRegs.reverse = poppedRegs from rfl] at hholds
  generalize d.pushAll (pushedRegs.map f.regs) = g at hsp₂ hholds hmem₂ hsame hsegments hc
  -- the frame the pushes have built is the argument of `isr_dispatch`
  have hargument : c.regs .rdi = g.rsp ∧ c.rflags = g.rflags ∧ c.cs = g.cs := by
    subst hc
    refine ⟨?_, rfl, rfl⟩
    show ((g.set .rdi g.rsp).push (text.address (.exit 0))).regs .rdi = g.rsp
    rw [Cpu.push_other _ (by decide), Cpu.set_self]
  obtain ⟨hrip, hsp₃, hreturn, hmem₃⟩ := callDispatch_spec (by omega) hc
  rw [hsp₂, show top - 176 - 8 = top - 184 by omega] at hsp₃ hreturn hmem₃
  refine ⟨hrip, by rw [hargument.1, hsp₂], hsp₃, hreturn, ?_, ?_, ?_, fun x hx => ?_⟩
  · rw [interruptFrame, List.append_assoc, holds_append]
    constructor
    · exact hholds.congr (fun x hlo _ => hmem₃ x (by omega))
    · rw [show top - 176 + 8 * (poppedRegs.map f.regs).length = top - 56 by
        show top - 176 + 120 = _
        omega]
      refine hframe.congr (fun x hlo _ => ?_)
      rw [hmem₃ x (by omega), hmem₂ x (by omega)]
  · rw [hargument.2.1, hsame.rflags, hflags]
    show f.rflags &&& ~~~gateFlags &&& flagIf = 0
    rw [BitVec.and_assoc, show ~~~gateFlags &&& flagIf = 0 from rfl]
    exact BitVec.and_zero
  · rw [hargument.2.2, hsegments.1, hcs]
  · rw [hmem₃ x (by omega), hmem₂ x (by omega), hmem₁ x (by omega)]

end Entry

/-! ## Interrupts, nested -/

/-- What an interrupt goes through, the stack it is handled on, and what handlers keep. -/
structure TrapLayout where
  text : KernelText
  stubs : IsrStubs
  sys : SystemRegs
  gdt : Word
  tss : Word
  idt : Word
  lo : Nat
  hi : Word
  /-- The tables, and whatever else no handler writes to. -/
  kept : Nat → Prop
  gdtKept : ∀ x, InBytes gdt gdtTableSize x → kept x
  tssKept : ∀ x, InBytes tss tssSize x → kept x
  idtKept : ∀ x, InBytes idt idtSize x → kept x
  keptOff : ∀ x, kept x → x < lo ∨ hi.toNat ≤ x

/-- The tables are in memory and in use. -/
structure TablesIn (k : TrapLayout) (m : Mem) : Prop where
  segments : SegmentsReady k.sys m k.gdt k.tss
  idt : IdtLoaded k.sys m k.idt k.stubs

/-- State `c` can be interrupted: the processor may return to it, and finds the stack. -/
structure Interruptible (k : TrapLayout) (c : Cpu) : Prop where
  tables : TablesIn k c.mem
  returns : k.sys.returnsTo c.mem (c.cs.setWidth 16) = true
  stack : k.sys.stackFor c.mem c.level (c.ss.setWidth 16) = true
  below : c.level = 0 → c.rsp.toNat ≤ k.hi.toNat
  entry : 0 < c.level → load64 c.mem (k.tss.toNat + 4) = k.hi

/-- There is room for the frame and the return address. -/
def HasRoom (k : TrapLayout) (c : Cpu) : Prop :=
  ∀ sp, c.kernelStack k.sys = some sp → k.lo + 184 ≤ sp.toNat / 16 * 16

/-- `isr_dispatch`, called in state `c`, has returned in state `d`: the handler ran, and
whatever other threads it switched to. -/
structure Dispatched (k : TrapLayout) (c d : Cpu) : Prop where
  rip : d.rip = load64 c.mem c.rsp.toNat
  rsp : d.rsp = c.rsp + 8
  cs : d.cs = c.cs
  ss : k.sys.stackFor d.mem 0 (d.ss.setWidth 16) = true
  kept : ∀ x, k.kept x → d.mem x = c.mem x
  stack : ∀ x, c.rsp.toNat + 8 ≤ x → x < k.hi.toNat → d.mem x = c.mem x

/-- An interrupt is taken, or the way out has so many instructions to go. -/
inductive Stage
  | take
  | leave (code : List Instr)

/-- From state `c`, interrupts and what they are interrupted by in turn lead to state `c'`. -/
inductive Interlude (k : TrapLayout) : Stage → Cpu → Cpu → Prop
  /-- `isr_stub_spurious` is an `iretq`. -/
  | spurious {c e c' : Cpu} : HasRoom k c → c.rflags &&& flagIf ≠ 0 →
      c.deliver k.sys 0xff none = some e → e.iret k.sys = some c' → Interlude k .take c c'
  | taken {c e d c' : Cpu} {vector : Nat} {errorCode : Option Word} : HasRoom k c →
      vector < 48 → errorCode.isSome = decide (vector ∈ errorCodeVectors) →
      (32 ≤ vector → c.rflags &&& flagIf ≠ 0) →
      c.deliver k.sys vector errorCode = some e →
      Dispatched k (exec (vectorStub vector ++ isrCommonStub k.text) e) d →
      Interlude k (.leave isrCommonStubExit) d c' → Interlude k .take c c'
  /-- An instruction of the way out, which has the address `next` after it. -/
  | exec {c c' : Cpu} {i j : Instr} {code : List Instr} (next : Word) :
      Interlude k (.leave (j :: code)) (i.exec { c with rip := next }) c' →
      Interlude k (.leave (i :: j :: code)) c c'
  | nested {c c₁ c' : Cpu} {code : List Instr} : Interlude k .take c c₁ →
      Interlude k (.leave code) c₁ c' → Interlude k (.leave code) c c'
  | iret {c c' : Cpu} : c.iret k.sys = some c' → Interlude k (.leave [.iretq]) c c'

/-- State `c'` is state `c`, but for memory that is free for others to use. -/
structure Undisturbed (k : TrapLayout) (c c' : Cpu) : Prop where
  state : c' = { c with mem := c'.mem }
  kept : ∀ x, k.kept x → c'.mem x = c.mem x
  stack : c.level = 0 → ∀ x, c.rsp.toNat ≤ x → x < k.hi.toNat → c'.mem x = c.mem x

section Traps

variable {k : TrapLayout} {c c' d e f : Cpu} {m m' : Mem} {base vector : Nat}
  {errorCode : Option Word} {code : List Instr} {i j : Instr}

theorem TablesIn.congr (h : TablesIn k m) (hm : ∀ x, k.kept x → m' x = m x) : TablesIn k m' :=
  ⟨h.segments.congr (fun x hlo hhi => hm x (k.gdtKept x ⟨hlo, hhi⟩)),
    h.idt.congr (fun x hlo hhi => hm x (k.idtKept x ⟨hlo, hhi⟩))⟩

/-- The processor reads the descriptors of `gdt.c` only. -/
theorem TablesIn.descriptors (h : TablesIn k m) (hm : ∀ x, k.kept x → m' x = m x) :
    ∀ x, k.sys.gdtr.base.toNat ≤ x → x ≤ k.sys.gdtr.base.toNat + k.sys.gdtr.limit.toNat →
      m' x = m x := by
  have hgdtr := h.segments.gdtr
  intro x hlo hhi
  have hlimit : k.sys.gdtr.limit.toNat = 55 := by
    rw [hgdtr]
    rfl
  rw [hlimit] at hhi
  rw [hgdtr] at hlo hhi
  exact hm x (k.gdtKept x ⟨hlo, by unfold gdtTableSize; dsimp only at hhi; omega⟩)

/-- From another level it is the one the kernel has set. -/
theorem Interruptible.kernelStack_outer (h : Interruptible k c) (hlevel : 0 < c.level) :
    c.kernelStack k.sys = some k.hi := by
  have hlimit : 11 ≤ k.sys.tssLimit := by
    rw [h.tables.segments.tssLimit]
    decide
  rw [Machine.kernelStack_outer hlevel hlimit, h.tables.segments.tssBase, h.entry hlevel]

/-- The stack for an interrupt in state `c`. -/
theorem Interruptible.kernelStack (h : Interruptible k c) :
    ∃ sp, c.kernelStack k.sys = some sp ∧ sp.toNat ≤ k.hi.toNat ∧ (c.level = 0 → sp = c.rsp) := by
  by_cases hlevel : c.level = 0
  · exact ⟨c.rsp, kernelStack_same hlevel, h.below hlevel, fun _ => rfl⟩
  · exact ⟨k.hi, h.kernelStack_outer (by omega), Nat.le_refl _, fun h => absurd h hlevel⟩

/-- Delivery through the tables. -/
theorem Interruptible.deliver (h : Interruptible k c) (hroom : HasRoom k c) (hvector : vector < 256)
    {handler : Word} (hhandler : k.stubs.handler vector = some handler)
    (he : c.deliver k.sys vector errorCode = some e) :
    ∃ sp, Entered c sp 0x08 handler errorCode e ∧ k.lo + 184 ≤ sp.toNat / 16 * 16 ∧
      sp.toNat ≤ k.hi.toNat ∧ (c.level = 0 → sp = c.rsp) := by
  obtain ⟨sp, hstack, hle, hsame⟩ := h.kernelStack
  have hlen : errorCode.toList.length ≤ 1 := by cases errorCode <;> simp
  have hlo := hroom sp hstack
  obtain ⟨entry, hentry, hentered⟩ := deliver_spec
    (h.tables.idt.gateTo h.tables.segments.toGdtLoaded hvector hhandler) hstack
    (show 40 + 8 * errorCode.toList.length ≤ sp.toNat / 16 * 16 by omega)
  obtain rfl : entry = e := Option.some.inj (hentry.symm.trans he)
  exact ⟨sp, hentered, hlo, hle, hsame⟩

/-! ## The way out -/

/-- On the way out to state `f`, the frame at `base`: the first registers are back, and the
others still on the stack. -/
inductive Popping (f : Cpu) (base : Nat) : List Instr → Cpu → Prop
  | pops {c : Cpu} {done rest : List Reg} : poppedRegs = done ++ rest →
      (∀ r ∈ done, c.regs r = f.regs r) → c.rsp.toNat = base + 8 * done.length →
      Holds c.mem (base + 8 * done.length) (rest.map f.regs) →
      Popping f base (rest.map .pop ++ [.addImm 16 .rsp, .iretq]) c
  | last {c : Cpu} : (∀ r ∈ poppedRegs, c.regs r = f.regs r) → c.rsp.toNat = base + 136 →
      Popping f base [.iretq] c

theorem Popping.rsp_le (h : Popping f base code c) : c.rsp.toNat ≤ base + 136 := by
  cases h with
  | @pops _ done rest hsplit _ hrsp _ =>
      have hlen : done.length + rest.length = 15 := by
        rw [← List.length_append, ← hsplit]
        rfl
      omega
  | last _ hrsp => omega

theorem Popping.congr (h : Popping f base code c) (hregs : c'.regs = c.regs)
    (hmem : ∀ x, c.rsp.toNat ≤ x → x < base + 120 → c'.mem x = c.mem x) :
    Popping f base code c' := by
  have hrsp' : c'.rsp = c.rsp := congrFun hregs .rsp
  cases h with
  | @pops _ done rest hsplit hdone hrsp hholds =>
      have hlen : done.length + rest.length = 15 := by
        rw [← List.length_append, ← hsplit]
        rfl
      refine .pops hsplit (fun r hr => by rw [hregs]; exact hdone r hr) (by rw [hrsp', hrsp])
        (hholds.congr (fun x hlo hhi => hmem x (by omega) ?_))
      rw [List.length_map] at hhi
      omega
  | last hdone hrsp =>
      exact .last (fun r hr => by rw [hregs]; exact hdone r hr) (by rw [hrsp', hrsp])

/-- One instruction of the way out. -/
theorem Popping.exec (h : Popping f base (i :: j :: code) c) (hfit : base + 136 < 2 ^ 64)
    (next : Word) : Popping f base (j :: code) (i.exec { c with rip := next }) := by
  generalize hcode : i :: j :: code = all at h
  cases h with
  | @pops _ done rest hsplit hdone hrsp hholds =>
      have hlen : done.length + rest.length = 15 := by
        rw [← List.length_append, ← hsplit]
        rfl
      cases rest with
      | nil =>
          -- every register is back: vector and error code are dropped
          obtain ⟨rfl, rfl, rfl⟩ : i = .addImm 16 .rsp ∧ j = .iretq ∧ code = [] := by
            simpa using hcode
          rw [List.append_nil] at hsplit
          rw [List.length_nil] at hlen
          refine .last (fun r hr => ?_) ?_
          · rw [← hdone r (hsplit ▸ hr)]
            exact Cpu.set_other (poppedRegs_ne_rsp hr)
          · rw [Cpu.rsp, addImm_self]
            show (c.rsp + 16).toNat = base + 136
            rw [BitVec.toNat_add, hrsp, show (16 : Word).toNat = 16 from rfl]
            omega
      | cons r rest =>
          obtain ⟨rfl, htail⟩ : i = .pop r ∧
              j :: code = rest.map .pop ++ [.addImm 16 .rsp, .iretq] := by simpa using hcode
          rw [List.length_cons] at hlen
          have hr : r ∈ poppedRegs := by rw [hsplit]; simp
          -- no register is popped twice, so those done keep their value
          have hnodup : (done ++ r :: rest).Nodup := hsplit ▸ (by decide : poppedRegs.Nodup)
          obtain ⟨hread, hsp, hkept⟩ := pop_spec (c := { c with rip := next })
            (w := f.regs r) (poppedRegs_ne_rsp hr)
            (by rw [show ({ c with rip := next } : Cpu).rsp = c.rsp from rfl, hrsp]; exact hholds.1)
            (by rw [show ({ c with rip := next } : Cpu).rsp = c.rsp from rfl]; omega)
          rw [show ({ c with rip := next } : Cpu).rsp = c.rsp from rfl] at hsp
          rw [htail]
          refine @Popping.pops f base _ (done ++ [r]) rest (by rw [hsplit]; simp) (fun q hq => ?_) ?_ ?_
          · rcases List.mem_append.mp hq with hold | hnew
            · have hne : q ≠ r := (List.nodup_append.mp hnodup).2.2 q hold r (by simp)
              rw [hkept q hne (poppedRegs_ne_rsp (by rw [hsplit]; simp [hold]))]
              exact hdone q hold
            · obtain rfl : q = r := by simpa using hnew
              exact hread
          · rw [hsp, List.length_append, List.length_singleton]
            omega
          · rw [List.length_append, List.length_singleton,
              show base + 8 * (done.length + 1) = base + 8 * done.length + 8 by omega]
            exact hholds.2
  | last => simp at hcode

/-- On the way out to state `f`, which was interrupted with its frame at `base`. -/
structure WayOut (k : TrapLayout) (f : Cpu) (base : Nat) (code : List Instr) (c : Cpu) : Prop where
  popping : Popping f base code c
  frame : Holds c.mem (base + 136) f.frameWords
  cs : c.cs = gdtKernelCode
  ss : k.sys.stackFor c.mem 0 (c.ss.setWidth 16) = true
  kept : ∀ x, k.kept x → c.mem x = f.mem x
  stack : f.level = 0 → ∀ x, f.rsp.toNat ≤ x → x < k.hi.toNat → c.mem x = f.mem x
  below : f.level = 0 → base + 176 ≤ f.rsp.toNat
  top : base + 176 ≤ k.hi.toNat

theorem WayOut.level (h : WayOut k f base code c) : c.level = 0 := by
  rw [Cpu.level, h.cs]
  rfl

/-- The way out can be interrupted. -/
theorem WayOut.interruptible (h : WayOut k f base code c) (hf : Interruptible k f) :
    Interruptible k c := by
  have htables : TablesIn k c.mem := hf.tables.congr h.kept
  have hrsp := h.popping.rsp_le
  have htop := h.top
  refine ⟨htables, ?_, ?_, fun _ => by omega, fun hlevel => ?_⟩
  · rw [h.cs]
    exact htables.segments.returnsToKernel
  · rw [h.level]
    exact h.ss
  · rw [h.level] at hlevel
    exact absurd hlevel (lt_irrefl 0)

/-- And goes on as if it had not been. -/
theorem WayOut.undisturbed (h : WayOut k f base code c) (hf : Interruptible k f)
    (hc : Undisturbed k c c') : WayOut k f base code c' := by
  have hrsp := h.popping.rsp_le
  have htop := h.top
  have hmem : ∀ x, c.rsp.toNat ≤ x → x < k.hi.toNat → c'.mem x = c.mem x := hc.stack h.level
  have htables : TablesIn k c.mem := hf.tables.congr h.kept
  have hregs : c'.regs = c.regs := by rw [hc.state]
  have hcs : c'.cs = c.cs := by rw [hc.state]
  have hss : c'.ss = c.ss := by rw [hc.state]
  refine ⟨h.popping.congr hregs (fun x hlo hhi => hmem x hlo (by omega)),
    h.frame.congr (fun x hlo hhi => hmem x (by omega) ?_), hcs.trans h.cs, ?_, fun x hx => ?_,
    fun hlevel x hlo hhi => ?_, h.below, h.top⟩
  · have hlen : f.frameWords.length = 5 := rfl
    omega
  · rw [hss, stackFor_congr (htables.descriptors hc.kept)]
    exact h.ss
  · rw [hc.kept x hx]
    exact h.kept x hx
  · have hbelow := h.below hlevel
    rw [hmem x (by omega) hhi]
    exact h.stack hlevel x hlo hhi

/-- The instructions before the last change registers only. -/
theorem Popping.exec_same (h : Popping f base (i :: j :: code) c) (next : Word) :
    (i.exec { c with rip := next }).mem = c.mem ∧ (i.exec { c with rip := next }).cs = c.cs ∧
    (i.exec { c with rip := next }).ss = c.ss := by
  generalize hcode : i :: j :: code = all at h
  cases h with
  | @pops _ done rest =>
      cases rest with
      | nil =>
          obtain ⟨rfl, -⟩ : i = .addImm 16 .rsp ∧ _ := by simpa using hcode
          exact ⟨rfl, rfl, rfl⟩
      | cons r rest =>
          obtain ⟨rfl, -⟩ : i = .pop r ∧ _ := by simpa using hcode
          exact ⟨rfl, rfl, rfl⟩
  | last => simp at hcode

theorem WayOut.exec (h : WayOut k f base (i :: j :: code) c) (next : Word) :
    WayOut k f base (j :: code) (i.exec { c with rip := next }) := by
  obtain ⟨hmem, hcs, hss⟩ := h.popping.exec_same next
  have htop := h.top
  have hhi := k.hi.isLt
  refine ⟨h.popping.exec (by omega) next, ?_, hcs.trans h.cs, ?_, fun x hx => ?_,
    fun hlevel x hlo hhi => ?_, h.below, h.top⟩
  · rw [hmem]
    exact h.frame
  · rw [hmem, hss]
    exact h.ss
  · rw [hmem]
    exact h.kept x hx
  · rw [hmem]
    exact h.stack hlevel x hlo hhi

/-- `iretq` with the frame of `f` on top of the stack. -/
theorem Interruptible.iret (hf : Interruptible k f) (hframe : Holds c.mem c.rsp.toNat f.frameWords)
    (hregs : ∀ r, r ≠ .rsp → c.regs r = f.regs r) (hlevel : c.level = 0)
    (hkept : ∀ x, k.kept x → c.mem x = f.mem x)
    (hstack : f.level = 0 → ∀ x, f.rsp.toNat ≤ x → x < k.hi.toNat → c.mem x = f.mem x)
    (hiret : c.iret k.sys = some c') : Undisturbed k f c' := by
  have hdescriptors := hf.tables.descriptors hkept
  obtain ⟨c'', hiret', hrip, hcs, hrflags, hrsp, hss, hmem, hregs'⟩ := iret_spec (s := k.sys) hframe
    (by rw [returnsTo_congr hdescriptors]; exact hf.returns) (by omega)
    (by rw [stackFor_congr hdescriptors]; exact hf.stack)
  obtain rfl : c'' = c' := Option.some.inj (hiret'.symm.trans hiret)
  refine ⟨?_, fun x hx => ?_, fun hl x hlo hhi => ?_⟩
  · have hall : c''.regs = f.regs := by
      funext r
      by_cases hr : r = .rsp
      · subst hr
        exact hrsp
      · rw [hregs' r hr, hregs r hr]
    obtain ⟨regs, rip, rflags, cs, ss, mem⟩ := c''
    dsimp only at hrip hcs hrflags hss hall
    subst hrip hcs hrflags hss hall
    rfl
  · rw [hmem]
    exact hkept x hx
  · rw [hmem]
    exact hstack hl x hlo hhi

/-- The end of the way out. -/
theorem WayOut.iret (h : WayOut k f base [.iretq] c) (hf : Interruptible k f)
    (hiret : c.iret k.sys = some c') : Undisturbed k f c' := by
  obtain ⟨hdone, hrsp⟩ : (∀ r ∈ poppedRegs, c.regs r = f.regs r) ∧ c.rsp.toNat = base + 136 := by
    generalize hcode : [Instr.iretq] = all at h
    cases h.popping with
    | @pops _ _ rest => cases rest <;> simp at hcode
    | last hdone hrsp => exact ⟨hdone, hrsp⟩
  refine hf.iret (by rw [hrsp]; exact h.frame) (fun r hr => hdone r ?_) h.level h.kept h.stack hiret
  cases r <;> first | exact absurd rfl hr | decide

/-- `isr_dispatch` has returned. -/
theorem WayOut.start {top : Nat}
    (h : AtDispatch k.text f top vector errorCode c) (hd : Dispatched k c d)
    (hroom : k.lo + 184 ≤ top) (htop : top ≤ k.hi.toNat) (hbelow : f.level = 0 → top ≤ f.rsp.toNat) :
    WayOut k f (top - 176) isrCommonStubExit d := by
  have hlt := k.hi.isLt
  have hrsp : d.rsp.toNat = top - 176 := by
    rw [hd.rsp, BitVec.toNat_add, h.rsp, show (8 : Word).toNat = 8 from rfl]
    omega
  have hmem : ∀ x, top - 176 ≤ x → x < k.hi.toNat → d.mem x = c.mem x := by
    intro x hlo hhi
    have hreturn := h.rsp
    exact hd.stack x (by omega) hhi
  have hframe := h.frame
  have hlen : (interruptFrame f vector errorCode).length = 22 := rfl
  replace hframe : Holds d.mem (top - 176) (interruptFrame f vector errorCode) :=
    hframe.congr (fun x hlo hhi => hmem x hlo (by omega))
  rw [interruptFrame, List.append_assoc, holds_append, holds_append] at hframe
  obtain ⟨hregs, -, hwords⟩ := hframe
  rw [show (poppedRegs.map f.regs).length = 15 from rfl, List.length_cons, List.length_singleton,
    show top - 176 + 8 * 15 + 8 * (1 + 1) = top - 176 + 136 by omega] at hwords
  have hpopping : Popping f (top - 176) isrCommonStubExit d := by
    generalize top - 176 = base at hrsp hregs
    exact @Popping.pops f base d [] poppedRegs rfl (fun r hr => absurd hr (by simp)) hrsp hregs
  refine ⟨hpopping, hwords, hd.cs.trans h.cs, hd.ss, fun x hx => ?_, fun hlevel x hlo hhi => ?_,
    fun hlevel => ?_, by omega⟩
  · have hoff := k.keptOff x hx
    rw [hd.kept x hx, h.mem x (by omega)]
  · have := hbelow hlevel
    rw [hmem x (by omega) hhi, h.mem x (by omega)]
  · have := hbelow hlevel
    omega

/-- What holds after each stage, if it can be interrupted. -/
def Stage.Sound (k : TrapLayout) : Stage → Cpu → Cpu → Prop
  | .take, c, c' => Interruptible k c → Undisturbed k c c'
  | .leave code, c, c' => ∀ f base, Interruptible k f → WayOut k f base code c → Undisturbed k f c'

theorem Interlude.sound {stage : Stage} (h : Interlude k stage c c') : stage.Sound k c c' := by
  induction h with
  | spurious hroom _ hdeliver hiret =>
      intro hc
      obtain ⟨sp, he, hlo, hle, hsame⟩ := hc.deliver hroom (by decide) rfl hdeliver
      have hmem := he.mem
      simp only [Option.toList, List.length_nil] at hmem
      refine hc.iret he.frame he.regs ?_ (fun x hx => ?_) (fun hlevel x hx hhi => ?_) hiret
      · rw [Cpu.level, he.cs]
        rfl
      · have hoff := k.keptOff x hx
        exact hmem x (by omega)
      · rw [hsame hlevel] at hmem
        exact hmem x (by omega)
  | @taken c e d c' vector errorCode hroom hvector hcode _ hdeliver hdispatched _ ih =>
      intro hc
      obtain ⟨handler, hhandler⟩ := k.stubs.exists_handler hvector
      obtain ⟨sp, he, hlo, hle, hsame⟩ := hc.deliver hroom (by omega) hhandler hdeliver
      refine ih c _ hc (.start (vectorEntry_spec he hcode (by omega) rfl) hdispatched hlo
        (by omega) (fun hlevel => ?_))
      rw [hsame hlevel]
      omega
  | exec next _ ih => exact fun f base hf h => ih f base hf (h.exec next)
  | nested _ _ ih₁ ih₂ =>
      exact fun f base hf h => ih₂ f base hf (h.undisturbed hf (ih₁ (h.interruptible hf)))
  | iret hiret => exact fun f base hf h => h.iret hf hiret

/-- From each point of the way out there is a way to its end. -/
theorem WayOut.leaves (hf : Interruptible k f) : ∀ (code : List Instr) (c : Cpu),
    WayOut k f base code c → ∃ c', Interlude k (.leave code) c c'
  | [], c, h => by
      generalize hcode : ([] : List Instr) = all at h
      cases h.popping with
      | pops => simp at hcode
      | last => simp at hcode
  | [i], c, h => by
      obtain ⟨rfl, hrsp⟩ : i = .iretq ∧ c.rsp.toNat = base + 136 := by
        generalize hcode : [i] = all at h
        cases h.popping with
        | @pops _ _ rest => cases rest <;> simp at hcode
        | last _ hrsp => exact ⟨by simpa using hcode, hrsp⟩
      have hdescriptors := hf.tables.descriptors h.kept
      obtain ⟨c', hiret, -⟩ := iret_spec (c := c) (s := k.sys) (f := f)
        (by rw [hrsp]; exact h.frame) (by rw [returnsTo_congr hdescriptors]; exact hf.returns)
        (by rw [h.level]; exact Nat.zero_le _) (by rw [stackFor_congr hdescriptors]; exact hf.stack)
      exact ⟨c', .iret hiret⟩
  | i :: j :: code, c, h => by
      obtain ⟨c', hleave⟩ := WayOut.leaves hf (j :: code) _ (h.exec 0)
      exact ⟨c', .exec 0 hleave⟩

/-- An interrupt gets to `isr_dispatch`. -/
theorem Interruptible.atDispatch (hc : Interruptible k c) (hroom : HasRoom k c)
    (hvector : vector < 48) (hcode : errorCode.isSome = decide (vector ∈ errorCodeVectors)) :
    ∃ e sp, c.deliver k.sys vector errorCode = some e ∧ c.kernelStack k.sys = some sp ∧
      k.lo + 184 ≤ sp.toNat / 16 * 16 ∧ sp.toNat ≤ k.hi.toNat ∧
      (c.level = 0 → sp.toNat / 16 * 16 ≤ c.rsp.toNat) ∧
      AtDispatch k.text c (sp.toNat / 16 * 16) vector errorCode
        (exec (vectorStub vector ++ isrCommonStub k.text) e) := by
  obtain ⟨handler, hhandler⟩ := k.stubs.exists_handler hvector
  obtain ⟨sp, hstack, hle, hsame⟩ := hc.kernelStack
  have hlo := hroom sp hstack
  have hlen : errorCode.toList.length ≤ 1 := by cases errorCode <;> simp
  obtain ⟨e, hdeliver, he⟩ := deliver_spec
    (hc.tables.idt.gateTo hc.tables.segments.toGdtLoaded (by omega) hhandler) hstack
    (show 40 + 8 * errorCode.toList.length ≤ sp.toNat / 16 * 16 by omega)
  refine ⟨e, sp, hdeliver, hstack, hlo, hle, fun hlevel => ?_, vectorEntry_spec he hcode (by omega) rfl⟩
  rw [hsame hlevel]
  omega

/-! ### A tick with an interrupt on its way out -/

/-- `isr_dispatch` returns at once. -/
def returnAtOnce (c : Cpu) : Cpu :=
  { c.set .rsp (c.rsp + 8) with rip := load64 c.mem c.rsp.toNat, ss := 0x10 }

theorem dispatched_returnAtOnce {top : Nat} (hf : Interruptible k f)
    (h : AtDispatch k.text f top vector errorCode c) (hlo : k.lo + 184 ≤ top)
    (htop : top ≤ k.hi.toNat) : Dispatched k c (returnAtOnce c) := by
  have htables : TablesIn k c.mem := hf.tables.congr (fun x hx => h.mem x (by
    have := k.keptOff x hx
    omega))
  exact ⟨rfl, rfl, rfl, htables.segments.stackForKernel, fun _ _ => rfl, fun _ _ _ => rfl⟩

/-- At another level an interrupt can be taken and returned from, and before the first
instruction of the way out another one, through the same stub. -/
theorem Interruptible.exists_nested {inner : Nat} (hf : Interruptible k f) (hlevel : 0 < f.level)
    (hfree : k.lo + 360 ≤ k.hi.toNat / 16 * 16)
    (hvector : vector < 48) (hflag : f.rflags &&& flagIf ≠ 0)
    (hcode : vector ∉ errorCodeVectors) (hinner : inner < 32) (hcode' : inner ∉ errorCodeVectors) :
    ∃ e d d' c', f.deliver k.sys vector none = some e ∧
      Dispatched k (exec (vectorStub vector ++ isrCommonStub k.text) e) d ∧
      (∃ e', d.deliver k.sys inner none = some e') ∧ Interlude k .take d d' ∧
      Interlude k (.leave isrCommonStubExit) d' c' ∧ Interlude k .take f c' := by
  have hnone : ∀ n, n ∉ errorCodeVectors →
      (none : Option Word).isSome = decide (n ∈ errorCodeVectors) := by
    intro n hn
    rw [decide_eq_false hn]
    rfl
  have hstack := hf.kernelStack_outer hlevel
  have hroom : HasRoom k f := fun sp hsp => by
    obtain rfl : k.hi = sp := Option.some.inj (hstack.symm.trans hsp)
    omega
  obtain ⟨e, sp, hdeliver, hsp, hlo, hle, hbelow, hat⟩ := hf.atDispatch hroom hvector (hnone _ hcode)
  obtain rfl : k.hi = sp := Option.some.inj (hstack.symm.trans hsp)
  have hd := dispatched_returnAtOnce hf hat hlo (by omega)
  set d := returnAtOnce (exec (vectorStub vector ++ isrCommonStub k.text) e) with hdef
  have hway := WayOut.start hat hd hlo (by omega) hbelow
  have hd' := hway.interruptible hf
  -- the way out has the rest of the stack for what interrupts it
  have hroom' : HasRoom k d := by
    intro sp' hsp'
    obtain rfl : d.rsp = sp' := Option.some.inj ((kernelStack_same hway.level).symm.trans hsp')
    have hrsp := hat.rsp
    have htop := k.hi.isLt
    rw [hd.rsp, BitVec.toNat_add_of_lt, hrsp, show (8 : Word).toNat = 8 from rfl]
    · omega
    · rw [hrsp, show (8 : Word).toNat = 8 from rfl]
      omega
  obtain ⟨e', sp', hdeliver', -, hlo', hle', hbelow', hat'⟩ :=
    hd'.atDispatch hroom' (show inner < 48 by omega) (hnone _ hcode')
  have hdd := dispatched_returnAtOnce hd' hat' hlo' (by omega)
  obtain ⟨d', hleave'⟩ := WayOut.leaves hd' _ _ (.start hat' hdd hlo' (by omega) hbelow')
  have hinterlude : Interlude k .take d d' := .taken hroom' (by omega) (hnone _ hcode')
    (fun h => absurd h (by omega)) hdeliver' hdd hleave'
  -- and goes on as if nothing had
  obtain ⟨c', hleave⟩ := WayOut.leaves hf _ _ (hway.undisturbed hf (hinterlude.sound hd'))
  exact ⟨e, d, d', c', hdeliver, hd, ⟨e', hdeliver'⟩, hinterlude, hleave,
    .taken hroom hvector (hnone _ hcode) (fun _ => hflag) hdeliver hd (.nested hinterlude hleave)⟩

end Traps

/-! ### Tables at fixed addresses -/

def bootStubs : IsrStubs where
  isrStub n := BitVec.ofNat 64 (0x8000 + 16 * n)
  irqStub n := BitVec.ofNat 64 (0x9000 + 16 * n)
  spurious := 0xa000

def bootTraps : TrapLayout where
  text := twoThreadText
  stubs := bootStubs
  sys := ⟨⟨55, 0x1000⟩, ⟨4095, 0x6000⟩, 0x2000, 103, 0x501, 0x0010000800000000, 0xb000, 0x300⟩
  gdt := 0x1000
  tss := 0x2000
  idt := 0x6000
  lo := 0x20000
  hi := 0x24000
  kept x := x < 0x10000 ∨ 0x400000 ≤ x
  gdtKept x h := by
    have hbase : (0x1000 : Word).toNat = 4096 := rfl
    unfold InBytes gdtTableSize at h
    omega
  tssKept x h := by
    have hbase : (0x2000 : Word).toNat = 8192 := rfl
    unfold InBytes tssSize at h
    omega
  idtKept x h := by
    have hbase : (0x6000 : Word).toNat = 24576 := rfl
    unfold InBytes idtSize at h
    omega
  keptOff x h := by
    have hhi : (0x24000 : Word).toNat = 0x24000 := rfl
    omega

def bootMem : Mem :=
  gdtSetKernelStack (idtTable (gdtTables (fun _ => 0) 0x1000 0x2000) 0x6000 bootStubs) 0x2000 0x24000

/-- A program at level 3. -/
def bootUser : Cpu where
  regs r := if r = .rsp then 0x501000 else 7
  rip := 0x400000
  rflags := 0x202
  cs := 0x23
  ss := 0x1b
  mem := bootMem

theorem bootTables : TablesIn bootTraps bootMem := by
  have hgdt : (0x1000 : Word).toNat = 4096 := rfl
  have htss : (0x2000 : Word).toNat = 8192 := rfl
  have hidt : (0x6000 : Word).toNat = 24576 := rfl
  have hset : AgreeOff 8196 8204 (idtTable (gdtTables (fun _ => 0) 0x1000 0x2000) 0x6000 bootStubs)
      bootMem := store64_agreeOff _ _ _
  have htable : AgreeOff 24576 28672 (gdtTables (fun _ => 0) 0x1000 0x2000)
      (idtTable (gdtTables (fun _ => 0) 0x1000 0x2000) 0x6000 bootStubs) :=
    idtTable_agreeOff _ (0x6000 : Word) bootStubs
  refine ⟨⟨⟨rfl, ?_⟩, rfl, rfl⟩, rfl, fun vector hvector => ?_⟩
  · refine (@gdtTables_spec (fun _ => 0) 0x1000 0x2000 (.inl (by decide))).1.congr (fun x hlo hhi => ?_)
    rw [hset x (by omega), htable x (by omega)]
  · show gateAt bootMem 0x6000 vector = gateFor (bootStubs.handler vector)
    rw [← gateAt_idtTable (gdtTables (fun _ => 0) 0x1000 0x2000) 0x6000 bootStubs hvector]
    exact gateAt_congr (fun x hlo hhi => hset x (by
      have hlo' : 24576 + 16 * vector ≤ x := hlo
      omega))

theorem bootUser_interruptible : Interruptible bootTraps bootUser where
  tables := bootTables
  returns := bootTables.segments.returnsToUser
  stack := bootTables.segments.stackForUser
  below h := absurd h (by decide)
  entry _ := load64_store64 _ _ _

theorem bootUser_hasRoom : HasRoom bootTraps bootUser := by
  intro sp hsp
  obtain rfl : bootTraps.hi = sp :=
    Option.some.inj ((bootUser_interruptible.kernelStack_outer (by decide)).symm.trans hsp)
  decide

/-! ## There and back -/

section Theorems

variable {k : TrapLayout} {c c' : Cpu} {vector : Nat} {errorCode : Option Word}

/-- **`isr_dispatch` gets the whole frame**, for every exception and line, at whatever level
it comes, error code or not: the registers, the vector, the error code or zero, and
what the processor pushed, at an aligned address, with interrupts masked. Nothing
faults on the way there, and when `isr_dispatch` returns nothing faults on the way
back. -/
theorem isr_dispatch_frame (hc : Interruptible k c) (hroom : HasRoom k c) (hvector : vector < 48)
    (hcode : errorCode.isSome = decide (vector ∈ errorCodeVectors))
    (hflag : 32 ≤ vector → c.rflags &&& flagIf ≠ 0) :
    ∃ e top, c.deliver k.sys vector errorCode = some e ∧
      top % 16 = 0 ∧ k.lo + 184 ≤ top ∧ top ≤ k.hi.toNat ∧ (c.level = 0 → top ≤ c.rsp.toNat) ∧
      AtDispatch k.text c top vector errorCode
        (exec (vectorStub vector ++ isrCommonStub k.text) e) ∧
      ∀ d, Dispatched k (exec (vectorStub vector ++ isrCommonStub k.text) e) d →
        ∃ c', Interlude k (.leave isrCommonStubExit) d c' ∧ Interlude k .take c c' := by
  obtain ⟨e, sp, hdeliver, -, hlo, hle, hbelow, hat⟩ := hc.atDispatch hroom hvector hcode
  refine ⟨e, sp.toNat / 16 * 16, hdeliver, by omega, hlo, by omega, hbelow, hat, fun d hd => ?_⟩
  obtain ⟨c', hleave⟩ := WayOut.leaves hc _ d (.start hat hd hlo (by omega) hbelow)
  exact ⟨c', hleave, .taken hroom hvector hcode hflag hdeliver hd hleave⟩

/-- A page fault of a program. -/
theorem isr_dispatch_frame_pageFault :
    ∃ e top, bootUser.deliver bootTraps.sys 14 (some 4) = some e ∧
      top % 16 = 0 ∧ bootTraps.lo + 184 ≤ top ∧ top ≤ bootTraps.hi.toNat ∧
      (bootUser.level = 0 → top ≤ bootUser.rsp.toNat) ∧
      AtDispatch bootTraps.text bootUser top 14 (some 4)
        (exec (vectorStub 14 ++ isrCommonStub bootTraps.text) e) ∧
      ∀ d, Dispatched bootTraps (exec (vectorStub 14 ++ isrCommonStub bootTraps.text) e) d →
        ∃ c', Interlude bootTraps (.leave isrCommonStubExit) d c' ∧
          Interlude bootTraps .take bootUser c' :=
  isr_dispatch_frame bootUser_interruptible bootUser_hasRoom (by decide) (by decide) (by decide)

/-- **Interrupts do not show.** An interrupt that is taken and returned from, through any
stub, with any handler, with any interrupts on the way out and any on theirs, leaves
every register of the interrupted code, its flags and segments, its stack above
the stack pointer and everything that handlers keep as they were. It can then be
interrupted again. -/
theorem interrupts_transparent (h : Interlude k .take c c') (hc : Interruptible k c) :
    Undisturbed k c c' ∧ Interruptible k c' := by
  have hsame : Undisturbed k c c' := h.sound hc
  have hdescriptors := hc.tables.descriptors hsame.kept
  have hstate := hsame.state
  refine ⟨hsame, hc.tables.congr hsame.kept, ?_, ?_, ?_, fun hlevel => ?_⟩
  · rw [returnsTo_congr hdescriptors, hstate]
    exact hc.returns
  · rw [stackFor_congr hdescriptors, hstate]
    exact hc.stack
  · rw [hstate]
    exact hc.below
  · have hentry := hc.entry (by rw [hstate] at hlevel; exact hlevel)
    rw [← hentry]
    exact load64_congr (fun x hlo hhi => hsame.kept x (k.tssKept x ⟨by omega, by
      unfold tssSize
      omega⟩))

/-- A tick of the timer at level 3, with a non-maskable interrupt on its way out. -/
theorem interrupts_transparent_nested :
    ∃ e d d' c', bootUser.deliver bootTraps.sys 32 none = some e ∧
      Dispatched bootTraps (exec (vectorStub 32 ++ isrCommonStub bootTraps.text) e) d ∧
      (∃ e', d.deliver bootTraps.sys 2 none = some e') ∧ Interlude bootTraps .take d d' ∧
      Interlude bootTraps (.leave isrCommonStubExit) d' c' ∧
      Undisturbed bootTraps bootUser c' ∧ Interruptible bootTraps c' := by
  obtain ⟨e, d, d', c', hdeliver, hd, hinner, hnested, hleave, hinterlude⟩ :=
    bootUser_interruptible.exists_nested (by decide) (by decide) (show 32 < 48 by decide)
      (by decide) (by decide) (show 2 < 32 by decide) (by decide)
  exact ⟨e, d, d', c', hdeliver, hd, hinner, hnested, hleave,
    interrupts_transparent hinterlude bootUser_interruptible⟩

end Theorems

end QuinKernel
