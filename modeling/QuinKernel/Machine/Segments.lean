import QuinKernel.Machine.Packed
import QuinKernel.Machine.Paging
import QuinKernel.Machine.X86

/-!
# Segments, gates and privilege (L0 framework)

What 64-bit mode still reads out of the descriptor tables. A selector names a
descriptor of the table at `GDTR` and a privilege level; a vector names a gate
of the table at `IDTR`; a gate names a code segment, whose level the handler
runs at; and when that is a more privileged level than the interrupted one, the
stack comes from the task state segment. `deliver` is that procedure, and
`deliver_spec` what it comes to when the tables are in order. `iretTo`,
`syscall` and `sysret` are the ways back and forth.

An access that would raise a fault of its own gives `none`.
-/

namespace QuinKernel.Machine

abbrev Selector := BitVec 16

/-- `GDTR`, or `IDTR`. -/
structure TableRegister where
  limit : BitVec 16
  base : Word

/-- The registers that system code loads once: the tables, the hidden part of
`TR`, and the registers of `SYSCALL`. -/
structure SystemRegs where
  gdtr : TableRegister
  idtr : TableRegister
  tssBase : Word
  tssLimit : Nat
  efer : Word
  star : Word
  lstar : Word
  fmask : Word

/-- `EFER.SCE`. -/
def SystemRegs.syscallEnabled (s : SystemRegs) : Bool := s.efer.getLsbD 0

/-! ## Descriptors -/

/-- The fields of an eight-byte descriptor. -/
structure Descriptor where
  base : BitVec 32
  limit : BitVec 20
  type : BitVec 4
  /-- A code or data segment. -/
  segment : Bool
  dpl : Nat
  present : Bool
  long : Bool
  big : Bool
  granular : Bool
  deriving DecidableEq

def Descriptor.decode (d : Word) : Descriptor where
  base := d.extractLsb' 56 8 ++ d.extractLsb' 16 24
  limit := d.extractLsb' 48 4 ++ d.extractLsb' 0 16
  type := d.extractLsb' 40 4
  segment := d.getLsbD 44
  dpl := (d.extractLsb' 45 2).toNat
  present := d.getLsbD 47
  long := d.getLsbD 53
  big := d.getLsbD 54
  granular := d.getLsbD 55

/-- A present 64-bit code segment. -/
def Descriptor.isCode64 (d : Descriptor) : Bool :=
  d.present && d.segment && d.type.getLsbD 3 && d.long && !d.big

/-- A code segment that runs at the level it is entered from. -/
def Descriptor.conforming (d : Descriptor) : Bool := d.type.getLsbD 2

/-- A present segment that code at `level` may read, through a selector of the level
`requested`. -/
def Descriptor.readableAt (d : Descriptor) (level : Nat) (requested : Nat) : Bool :=
  d.present && d.segment && (!d.type.getLsbD 3 || d.type.getLsbD 1) &&
    ((d.type.getLsbD 3 && d.type.getLsbD 2) || decide (level ≤ d.dpl ∧ requested ≤ d.dpl))

/-- A present data segment that allows writes. -/
def Descriptor.isWritable (d : Descriptor) : Bool :=
  d.present && d.segment && !d.type.getLsbD 3 && d.type.getLsbD 1

/-- A gate of the interrupt table. -/
structure Gate where
  offset : Word
  selector : Selector
  ist : Nat
  type : BitVec 4
  dpl : Nat
  present : Bool
  deriving DecidableEq

def Gate.decode (lo hi : Word) : Gate where
  offset := hi.extractLsb' 0 32 ++ lo.extractLsb' 48 16 ++ lo.extractLsb' 0 16
  selector := lo.extractLsb' 16 16
  ist := (lo.extractLsb' 32 3).toNat
  type := lo.extractLsb' 40 4
  dpl := (lo.extractLsb' 45 2).toNat
  present := lo.getLsbD 47

/-- The requested privilege level of a selector. -/
def selectorLevel (selector : Selector) : Nat := selector.toNat % 4

/-- The selector names no descriptor. -/
def selectorNull (selector : Selector) : Prop := selector.toNat / 4 = 0

instance (selector : Selector) : Decidable (selectorNull selector) :=
  inferInstanceAs (Decidable (_ = _))

/-- The current privilege level. -/
def Cpu.level (c : Cpu) : Nat := c.cs.toNat % 4

namespace SystemRegs

/-- The descriptor a selector names. -/
def descriptor (s : SystemRegs) (m : Mem) (selector : Selector) : Option Descriptor :=
  if selectorNull selector ∨ selector.getLsbD 2 = true ∨
      s.gdtr.limit.toNat < selector.toNat / 8 * 8 + 7 then none
  else some (Descriptor.decode (load64 m (s.gdtr.base.toNat + selector.toNat / 8 * 8)))

/-- The gate of a vector. -/
def gate (s : SystemRegs) (m : Mem) (vector : Nat) : Option Gate :=
  if s.idtr.limit.toNat < 16 * vector + 15 then none
  else
    let entry := s.idtr.base.toNat + 16 * vector
    some (Gate.decode (load64 m entry) (load64 m (entry + 8)))

/-- A word of the task state segment. -/
def tssWord (s : SystemRegs) (m : Mem) (offset : Nat) : Option Word :=
  if s.tssLimit < offset + 7 then none else some (load64 m (s.tssBase.toNat + offset))

/-- The stack a handler at `level` starts on. -/
def entryStack (s : SystemRegs) (c : Cpu) (ist level : Nat) : Option Word :=
  if ist ≠ 0 then s.tssWord c.mem (0x1c + 8 * ist)
  else if level < c.level then s.tssWord c.mem (4 + 8 * level)
  else some c.rsp

end SystemRegs

/-! ## Interrupts -/

/-- The vectors with which the processor pushes an error code. -/
def errorCodeVectors : List Nat := [8, 10, 11, 12, 13, 14, 17, 21, 29, 30]

/-- `TF`, `NT`, `RF` and `VM`, which any gate clears. -/
def trapFlags : Word := 0x34100

/-- The frame and the error code on the stack at `sp`. -/
def Cpu.pushFrame (c : Cpu) (sp : Word) (errorCode : Option Word) : Cpu :=
  (c.set .rsp (sp &&& ~~~15)).pushAll ([c.ss, c.rsp, c.rflags, c.cs, c.rip] ++ errorCode.toList)

/-- Through a gate to code at `level`, on the stack at `sp`. -/
def Cpu.enter (c : Cpu) (sp : Word) (errorCode : Option Word) (gate : Gate) (level : Nat) : Cpu :=
  { c.pushFrame sp errorCode with
    rflags := c.rflags &&& ~~~(if gate.type == 0xe then gateFlags else trapFlags)
    cs := BitVec.ofNat 64 (gate.selector.toNat / 4 * 4 + level)
    ss := if level < c.level then BitVec.ofNat 64 level else c.ss
    rip := gate.offset }

/-- The processor delivers an interrupt or an exception; `none` if that faults. -/
def Cpu.deliver (c : Cpu) (s : SystemRegs) (vector : Nat) (errorCode : Option Word) : Option Cpu :=
  (s.gate c.mem vector).bind fun gate =>
  (s.descriptor c.mem gate.selector).bind fun code =>
  let level := if code.conforming then c.level else code.dpl
  (s.entryStack c gate.ist level).bind fun sp =>
  if gate.present && (gate.type == 0xe || gate.type == 0xf) && code.isCode64 &&
      decide (code.dpl ≤ c.level) then some (c.enter sp errorCode gate level)
  else none

namespace SystemRegs

/-- `selector` may be loaded into `CS` by a return. -/
def returnsTo (s : SystemRegs) (m : Mem) (selector : Selector) : Bool :=
  match s.descriptor m selector with
  | none => false
  | some code => code.isCode64 &&
      (if code.conforming then decide (code.dpl ≤ selectorLevel selector)
        else decide (code.dpl = selectorLevel selector))

/-- `selector` may be loaded into `SS` at `level`. -/
def stackFor (s : SystemRegs) (m : Mem) (level : Nat) (selector : Selector) : Bool :=
  decide (selectorLevel selector = level) &&
  (if selectorNull selector then decide (level ≠ 3)
  else match s.descriptor m selector with
    | none => false
    | some data => data.isWritable && decide (data.dpl = level))

end SystemRegs

/-- `iretq`; `none` if it faults. -/
def Cpu.iret (c : Cpu) (s : SystemRegs) : Option Cpu :=
  let cs := (c.stackWord 1).setWidth 16
  let ss := (c.stackWord 4).setWidth 16
  if s.returnsTo c.mem cs && decide (c.level ≤ selectorLevel cs) &&
      s.stackFor c.mem (selectorLevel cs) ss then some (Instr.iretq.exec c)
  else none

/-! ## System calls -/

/-- The flags that `SYSRET` takes from `R11`. -/
def sysretFlags : Word := 0x3c7fd7

/-- `syscall`, with `next` the address after it. -/
def Cpu.syscall (c : Cpu) (s : SystemRegs) (next : Word) : Option Cpu :=
  if s.syscallEnabled then
    let base := (s.star >>> 32).toNat % 2 ^ 16
    some { (c.set .rcx next).set .r11 c.rflags with
      rip := s.lstar
      rflags := c.rflags &&& ~~~s.fmask
      cs := BitVec.ofNat 64 (base / 4 * 4)
      ss := BitVec.ofNat 64 ((base + 8) % 2 ^ 16) }
  else none

/-- `sysretq`; `none` if it faults. -/
def Cpu.sysret (c : Cpu) (s : SystemRegs) : Option Cpu :=
  if s.syscallEnabled ∧ c.level = 0 ∧ Canonical (c.regs .rcx) then
    let base := (s.star >>> 48).toNat
    some { c with
      rip := c.regs .rcx
      rflags := (c.regs .r11 &&& sysretFlags) ||| 2
      cs := BitVec.ofNat 64 ((base + 16) % 2 ^ 16 / 4 * 4 + 3)
      ss := BitVec.ofNat 64 ((base + 8) % 2 ^ 16 / 4 * 4 + 3) }
  else none

/-! ## System code -/

/-- A processor: what code computes with, and what it runs under. -/
structure Processor where
  cpu : Cpu
  sys : SystemRegs

/-- The instructions of system code; those that only level 0 may execute give `none`
elsewhere. -/
inductive SysInstr
  | plain (i : Instr)
  /-- `movzwq`. -/
  | zeroExtend (src dst : Reg)
  | movImm (w : Word) (dst : Reg)
  /-- `mov` to the low 16 bits. -/
  | movImm16 (w : Selector) (dst : Reg)
  /-- A store to a fixed address, and a load from one. -/
  | storeAt (src : Reg) (a : Word)
  | loadAt (a : Word) (dst : Reg)
  /-- `lgdt` and `lidt` of the ten bytes that `src` points to. -/
  | lgdt (src : Reg)
  | lidt (src : Reg)
  | ltr (selector : Selector)
  /-- A load of `DS`, `ES`, `FS` or `GS`, and one of `SS`. -/
  | loadData (src : Reg)
  | loadStack (src : Reg)
  /-- `lretq`. -/
  | farReturn
  | iret
  | sysret

/-- The ten bytes at `a` as a table register. -/
def tableRegisterAt (m : Mem) (a : Nat) : TableRegister :=
  ⟨BitVec.ofNat 16 (loadNat m a 2), load64 m (a + 2)⟩

/-- The task descriptor at `entry` is marked as loaded. -/
def markBusy (m : Mem) (entry : Nat) : Mem := store8 m (entry + 5) (m (entry + 5) ||| 2)

/-- `ltr`: the task descriptor is read, and marked. -/
def Processor.loadTask (p : Processor) (selector : Selector) : Option Processor :=
  let entry := p.sys.gdtr.base.toNat + selector.toNat / 8 * 8
  let task := Descriptor.decode (load64 p.cpu.mem entry)
  if ¬selectorNull selector ∧ selector.getLsbD 2 = false ∧
      selector.toNat / 8 * 8 + 15 ≤ p.sys.gdtr.limit.toNat ∧
      task.present = true ∧ task.segment = false ∧ task.type = 9 then
    some {
      cpu := { p.cpu with mem := markBusy p.cpu.mem entry }
      sys := { p.sys with
        tssBase := (load64 p.cpu.mem (entry + 8)).extractLsb' 0 32 ++ task.base
        tssLimit := if task.granular then task.limit.toNat * 4096 + 4095 else task.limit.toNat } }
  else none

/-- `wrmsr`; `none` if it faults, or for a register that is not modelled. -/
def Processor.wrmsr (p : Processor) (msr : Nat) (value : Word) : Option Processor :=
  if p.cpu.level ≠ 0 then none
  else if msr = 0xc0000080 then some { p with sys := { p.sys with efer := value } }
  else if msr = 0xc0000081 then some { p with sys := { p.sys with star := value } }
  else if msr = 0xc0000082 ∧ Canonical value then
    some { p with sys := { p.sys with lstar := value } }
  else if msr = 0xc0000084 then some { p with sys := { p.sys with fmask := value } }
  else none

namespace SysInstr

/-- One instruction; `none` if it faults. -/
def exec (p : Processor) : SysInstr → Option Processor
  | .plain i => some { p with cpu := i.exec p.cpu }
  | .zeroExtend src dst =>
      some { p with cpu := p.cpu.set dst (((p.cpu.regs src).setWidth 16).setWidth 64) }
  | .movImm w dst => some { p with cpu := p.cpu.set dst w }
  | .movImm16 w dst =>
      some { p with cpu := p.cpu.set dst ((p.cpu.regs dst).extractLsb' 16 48 ++ w) }
  | .storeAt src a =>
      some { p with cpu := { p.cpu with mem := store64 p.cpu.mem a.toNat (p.cpu.regs src) } }
  | .loadAt a dst => some { p with cpu := p.cpu.set dst (load64 p.cpu.mem a.toNat) }
  | .lgdt src =>
      if p.cpu.level = 0 then
        some { p with sys := { p.sys with
          gdtr := tableRegisterAt p.cpu.mem (p.cpu.regs src).toNat } }
      else none
  | .lidt src =>
      if p.cpu.level = 0 then
        some { p with sys := { p.sys with
          idtr := tableRegisterAt p.cpu.mem (p.cpu.regs src).toNat } }
      else none
  | .ltr selector => if p.cpu.level = 0 then p.loadTask selector else none
  | .loadData src =>
      let selector := (p.cpu.regs src).setWidth 16
      match p.sys.descriptor p.cpu.mem selector with
      | none => if selectorNull selector then some p else none
      | some data =>
          if data.readableAt p.cpu.level (selectorLevel selector) then some p else none
  | .loadStack src =>
      let selector := (p.cpu.regs src).setWidth 16
      if p.sys.stackFor p.cpu.mem p.cpu.level selector then
        some { p with cpu := { p.cpu with ss := selector.setWidth 64 } }
      else none
  | .farReturn =>
      let cs := (p.cpu.stackWord 1).setWidth 16
      if p.sys.returnsTo p.cpu.mem cs && decide (selectorLevel cs = p.cpu.level) then
        some { p with cpu := { p.cpu.drop.drop with
          rip := p.cpu.stackWord 0
          cs := cs.setWidth 64 } }
      else none
  | .iret => (p.cpu.iret p.sys).map fun cpu => { p with cpu }
  | .sysret => (p.cpu.sysret p.sys).map fun cpu => { p with cpu }

/-- Instructions in a row, as long as none faults. -/
def execAll (code : List SysInstr) (p : Processor) : Option Processor :=
  code.foldlM (fun p i => i.exec p) p

theorem execAll_cons (i : SysInstr) (code : List SysInstr) (p : Processor) :
    execAll (i :: code) p = (i.exec p).bind (execAll code) := by
  rw [execAll, List.foldlM_cons]
  rfl

theorem execAll_append (code code' : List SysInstr) (p : Processor) :
    execAll (code ++ code') p = (execAll code p).bind (execAll code') := by
  rw [execAll, List.foldlM_append]
  rfl

end SysInstr

/-! ## Tables in order -/

/-- The vector has an interrupt gate to `handler`, which runs at level 0 on no stack
of its own. -/
structure GateTo (s : SystemRegs) (m : Mem) (vector : Nat) (selector : Selector)
    (handler : Word) : Prop where
  gate : s.gate m vector = some ⟨handler, selector, 0, 0xe, 0, true⟩
  code : ∃ code, s.descriptor m selector = some code ∧ code.isCode64 = true ∧
    code.conforming = false ∧ code.dpl = 0

/-- The stack such a gate leads to from state `c`. -/
def Cpu.kernelStack (c : Cpu) (s : SystemRegs) : Option Word := s.entryStack c 0 0

/-- What stands after a delivery to `handler`, on the stack at `sp`. -/
structure Entered (c : Cpu) (sp : Word) (selector : Selector) (handler : Word)
    (errorCode : Option Word) (entry : Cpu) : Prop where
  rip : entry.rip = handler
  cs : entry.cs = BitVec.ofNat 64 (selector.toNat / 4 * 4)
  rflags : entry.rflags = c.rflags &&& ~~~gateFlags
  rsp : entry.rsp.toNat = sp.toNat / 16 * 16 - (40 + 8 * errorCode.toList.length)
  frame : Holds entry.mem entry.rsp.toNat (errorCode.toList ++ c.frameWords)
  mem : AgreeOff (sp.toNat / 16 * 16 - (40 + 8 * errorCode.toList.length)) (sp.toNat / 16 * 16)
    c.mem entry.mem
  regs : ∀ r, r ≠ .rsp → entry.regs r = c.regs r

section Specs

variable {c : Cpu} {s : SystemRegs} {vector : Nat} {selector : Selector} {handler sp : Word}
  {errorCode : Option Word}

theorem Cpu.push_other {r : Reg} (w : Word) (h : r ≠ .rsp) : (c.push w).regs r = c.regs r :=
  Cpu.set_other (c := c) (w := c.rsp - 8) h

theorem pushAll_segments (c : Cpu) (ws : List Word) :
    (c.pushAll ws).cs = c.cs ∧ (c.pushAll ws).ss = c.ss := by
  induction ws generalizing c with
  | nil => exact ⟨rfl, rfl⟩
  | cons w ws ih => exact ih (c.push w)

theorem enter_regs (gate : Gate) (level : Nat) :
    (c.enter sp errorCode gate level).regs = (c.pushFrame sp errorCode).regs := by
  unfold Cpu.enter
  rfl

theorem enter_mem (gate : Gate) (level : Nat) :
    (c.enter sp errorCode gate level).mem = (c.pushFrame sp errorCode).mem := by
  unfold Cpu.enter
  rfl

theorem enter_rsp (gate : Gate) (level : Nat) :
    (c.enter sp errorCode gate level).rsp = (c.pushFrame sp errorCode).rsp := by
  rw [Cpu.rsp, enter_regs]
  rfl

/-- A frame pushed on the aligned stack at `sp`. -/
theorem pushFrame_spec (hroom : 40 + 8 * errorCode.toList.length ≤ sp.toNat / 16 * 16) :
    (c.pushFrame sp errorCode).rsp.toNat =
      sp.toNat / 16 * 16 - (40 + 8 * errorCode.toList.length) ∧
    Holds (c.pushFrame sp errorCode).mem
      (sp.toNat / 16 * 16 - (40 + 8 * errorCode.toList.length))
      (errorCode.toList ++ c.frameWords) ∧
    AgreeOff (sp.toNat / 16 * 16 - (40 + 8 * errorCode.toList.length)) (sp.toNat / 16 * 16) c.mem
      (c.pushFrame sp errorCode).mem ∧
    ∀ r, r ≠ .rsp → (c.pushFrame sp errorCode).regs r = c.regs r := by
  have halign : (c.set .rsp (sp &&& ~~~15)).rsp.toNat = sp.toNat / 16 * 16 := by
    rw [Cpu.rsp, Cpu.set_self]
    exact toNat_and_not_mask sp 4
  have hlen : 8 * ([c.ss, c.rsp, c.rflags, c.cs, c.rip] ++ errorCode.toList).length =
      40 + 8 * errorCode.toList.length := by
    rw [List.length_append]
    simp only [List.length_cons, List.length_nil]
    omega
  obtain ⟨hrsp, hholds, hagree, hsame⟩ := pushAll_spec (c.set .rsp (sp &&& ~~~15))
    ([c.ss, c.rsp, c.rflags, c.cs, c.rip] ++ errorCode.toList) (by rw [halign, hlen]; exact hroom)
  rw [halign, hlen] at hrsp hholds hagree
  refine ⟨hrsp, ?_, hagree, fun r hr => (hsame.regs r hr).trans (Cpu.set_other hr)⟩
  rw [List.reverse_append] at hholds
  have hrev : errorCode.toList.reverse = errorCode.toList := by cases errorCode <;> rfl
  rw [hrev] at hholds
  exact hholds

/-- **Delivery** through tables in order. -/
theorem deliver_spec (h : GateTo s c.mem vector selector handler)
    (hstack : c.kernelStack s = some sp)
    (hroom : 40 + 8 * errorCode.toList.length ≤ sp.toNat / 16 * 16) :
    ∃ entry, c.deliver s vector errorCode = some entry ∧
      Entered c sp selector handler errorCode entry := by
  obtain ⟨code, hcode, h64, hnot, hdpl⟩ := h.code
  obtain ⟨hrsp, hholds, hagree, hregs⟩ := pushFrame_spec (c := c) hroom
  unfold Cpu.kernelStack at hstack
  refine ⟨c.enter sp errorCode ⟨handler, selector, 0, 0xe, 0, true⟩ 0, ?_, ?_⟩
  · unfold Cpu.deliver
    rw [h.gate, Option.bind_some, hcode, Option.bind_some]
    dsimp only
    rw [hnot, if_neg Bool.false_ne_true, hdpl, hstack, Option.bind_some, h64]
    exact if_pos rfl
  · refine ⟨rfl, rfl, rfl, ?_, ?_, ?_, fun r hr => ?_⟩
    · rw [enter_rsp, hrsp]
    · rw [enter_rsp, enter_mem, hrsp]
      exact hholds
    · rw [enter_mem]
      exact hagree
    · rw [enter_regs]
      exact hregs r hr

/-- A table register is read back as it was stored. -/
theorem tableRegisterAt_storeFields (m : Mem) (a limit : Nat) (base : Word) :
    tableRegisterAt (storeFields m a [(2, limit), (8, base.toNat)]) a =
      ⟨BitVec.ofNat 16 limit, base⟩ := by
  have hbase : load64 (storeFields m a [(2, limit), (8, base.toNat)]) (a + 2) = base :=
    load64_store64 _ _ base
  have hlimit : loadNat (storeFields m a [(2, limit), (8, base.toNat)]) a 2 = limit % 256 ^ 2 := by
    rw [← loadNat_storeNat m a 2 limit]
    exact loadNat_congr 2 a (fun x _ hhi => storeNat_agreeOff _ (a + 2) 8 _ x (.inl hhi))
  rw [tableRegisterAt, hbase, hlimit]
  refine congrArg (TableRegister.mk · base) (BitVec.eq_of_toNat_eq ?_)
  rw [BitVec.toNat_ofNat, BitVec.toNat_ofNat]
  exact Nat.mod_mod _ _

theorem tableRegisterAt_congr {m m' : Mem} {a : Nat}
    (h : ∀ x, a ≤ x → x < a + 10 → m' x = m x) : tableRegisterAt m' a = tableRegisterAt m a := by
  rw [tableRegisterAt, loadNat_congr 2 a (fun x hlo hhi => h x hlo (by omega)),
    load64_congr (fun x hlo hhi => h x (by omega) (by omega))]
  rfl

/-- A descriptor depends on the bytes of the table. -/
theorem descriptor_congr {m m' : Mem} (h : ∀ x, s.gdtr.base.toNat ≤ x →
    x ≤ s.gdtr.base.toNat + s.gdtr.limit.toNat → m' x = m x) (selector : Selector) :
    s.descriptor m' selector = s.descriptor m selector := by
  unfold SystemRegs.descriptor
  split
  · rfl
  · next hin =>
      rw [not_or, not_or] at hin
      rw [load64_congr (fun x hlo hhi => h x (by omega) (by omega))]

theorem returnsTo_congr {m m' : Mem} (h : ∀ x, s.gdtr.base.toNat ≤ x →
    x ≤ s.gdtr.base.toNat + s.gdtr.limit.toNat → m' x = m x) (selector : Selector) :
    s.returnsTo m' selector = s.returnsTo m selector := by
  unfold SystemRegs.returnsTo
  rw [descriptor_congr h]

theorem stackFor_congr {m m' : Mem} (h : ∀ x, s.gdtr.base.toNat ≤ x →
    x ≤ s.gdtr.base.toNat + s.gdtr.limit.toNat → m' x = m x) (level : Nat) (selector : Selector) :
    s.stackFor m' level selector = s.stackFor m level selector := by
  unfold SystemRegs.stackFor
  rw [descriptor_congr h]

/-- A handler that interrupts its own level stays on its stack. -/
theorem kernelStack_same (h : c.level = 0) : c.kernelStack s = some c.rsp := by
  unfold Cpu.kernelStack SystemRegs.entryStack
  rw [if_neg (by decide), if_neg (by omega)]

/-- From any other level the stack is the one the task state segment names. -/
theorem kernelStack_outer (h : 0 < c.level) (hlimit : 11 ≤ s.tssLimit) :
    c.kernelStack s = some (load64 c.mem (s.tssBase.toNat + 4)) := by
  unfold Cpu.kernelStack SystemRegs.entryStack SystemRegs.tssWord
  rw [if_neg (by decide), if_pos h, if_neg (by omega)]

theorem selectorLevel_setWidth (w : Word) : selectorLevel (w.setWidth 16) = w.toNat % 4 := by
  rw [selectorLevel, BitVec.toNat_setWidth]
  omega

/-- **`iretq`** to a state whose frame is on the stack. -/
theorem iret_spec {f : Cpu} (hframe : Holds c.mem c.rsp.toNat f.frameWords)
    (hcs : s.returnsTo c.mem (f.cs.setWidth 16) = true) (hlevel : c.level ≤ f.level)
    (hss : s.stackFor c.mem f.level (f.ss.setWidth 16) = true) :
    ∃ c', c.iret s = some c' ∧ c'.rip = f.rip ∧ c'.cs = f.cs ∧ c'.rflags = f.rflags ∧
      c'.rsp = f.rsp ∧ c'.ss = f.ss ∧ c'.mem = c.mem ∧
      ∀ r, r ≠ .rsp → c'.regs r = c.regs r := by
  obtain ⟨hrip, hrflags, hrsp, hregs⟩ := iretq_spec hframe
  obtain ⟨-, hcsWord, -, -, hssWord, -⟩ := hframe
  have hcs' : c.stackWord 1 = f.cs := hcsWord
  have hss' : c.stackWord 4 = f.ss := hssWord
  refine ⟨Instr.iretq.exec c, ?_, hrip, hcs', hrflags, hrsp, hss', rfl, hregs⟩
  unfold Cpu.iret
  dsimp only
  rw [hcs', hss', hcs, selectorLevel_setWidth, show f.cs.toNat % 4 = f.level from rfl, hss,
    decide_eq_true hlevel]
  rfl

end Specs

end QuinKernel.Machine
