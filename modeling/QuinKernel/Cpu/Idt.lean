import QuinKernel.Cpu.Gdt

/-!
# The interrupt table (`idt.c`)

`idt_init` writes a gate for each of the 32 exceptions, the 16 lines and the
spurious vector, and loads the table. A gate holds its handler in three pieces.
`gateAt_setGate` puts them together again, a table is a function from vectors
to gates, and each loop of `idt_init` updates it on a range. What the processor
does with any vector follows (`deliversTo`).
-/

namespace QuinKernel

open Machine

/-- `sizeof(idt)`. -/
def idtSize : Nat := 4096

/-- `isr_stubs`, `irq_stubs` and `isr_stub_spurious`: where the linker put them. -/
structure IsrStubs where
  isrStub : Nat → Word
  irqStub : Nat → Word
  spurious : Word

/-- `set_gate`. -/
def setGate (m : Mem) (idt : Word) (vector : Nat) (handler : Word) : Mem :=
  storeFields m (idt.toNat + 16 * vector)
    ([(2, (handler &&& 0xffff).toNat), (2, gdtKernelCode.toNat), (1, 0), (1, 0x8e),
      (2, (handler >>> 16 &&& 0xffff).toNat)] ++
     [(4, (handler >>> 32).toNat), (4, 0)])

/-- A loop of `idt_init`: the first `n` handlers, from vector `base` on. -/
def setGates (m : Mem) (idt : Word) (base : Nat) (handlers : Nat → Word) (n : Nat) : Mem :=
  (List.range n).foldl (fun m i => setGate m idt (base + i) (handlers i)) m

/-- The stores of `idt_init`. -/
def idtTable (m : Mem) (idt : Word) (stubs : IsrStubs) : Mem :=
  let m := memset m idt.toNat 0 idtSize
  let m := setGates m idt 0 stubs.isrStub 32
  let m := setGates m idt 32 stubs.irqStub 16
  setGate m idt 0xff stubs.spurious

/-- `idt_init`, with `idtr` at `idtr`. -/
def idtInit (p : Processor) (idt idtr : Word) (stubs : IsrStubs) : Option Processor :=
  let m := storeFields (idtTable p.cpu.mem idt stubs) idtr.toNat
    [(2, idtSize - 1), (8, idt.toNat)]
  SysInstr.execAll [.movImm idtr .rax, .lidt .rax] { p with cpu := { p.cpu with mem := m } }

/-! ## Gates -/

/-- The stub that `idt_init` gives a vector. -/
def IsrStubs.handler (stubs : IsrStubs) (vector : Nat) : Option Word :=
  if vector < 32 then some (stubs.isrStub vector)
  else if vector < 48 then some (stubs.irqStub (vector - 32))
  else if vector = 255 then some stubs.spurious
  else none

/-- Exceptions and lines have one. -/
theorem IsrStubs.exists_handler (stubs : IsrStubs) {vector : Nat} (hvector : vector < 48) :
    ∃ handler, stubs.handler vector = some handler := by
  unfold IsrStubs.handler
  by_cases hisr : vector < 32
  · exact ⟨_, if_pos hisr⟩
  · exact ⟨_, by rw [if_neg hisr, if_pos hvector]⟩

/-- A gate that `set_gate` makes, and one that is all zeros. -/
def interruptGate (handler : Word) : Gate := ⟨handler, 0x08, 0, 0xe, 0, true⟩
def absentGate : Gate := ⟨0, 0, 0, 0, 0, false⟩

def gateFor : Option Word → Gate
  | some handler => interruptGate handler
  | none => absentGate

/-- The gate in memory for a vector. -/
def gateAt (m : Mem) (idt : Word) (vector : Nat) : Gate :=
  Gate.decode (load64 m (idt.toNat + 16 * vector)) (load64 m (idt.toNat + 16 * vector + 8))

section Gates

variable {m m' : Mem} {idt : Word} {vector : Nat}

/-- The fields of a gate, off the numbers its words are. -/
theorem gate_ofNat {lo hi : Nat} (hlo : lo < 2 ^ 64) (hhi : hi < 2 ^ 64) :
    (Gate.decode (BitVec.ofNat 64 lo) (BitVec.ofNat 64 hi)).offset.toNat =
      (hi % 2 ^ 32 * 2 ^ 16 + lo / 2 ^ 48 % 2 ^ 16) * 2 ^ 16 + lo % 2 ^ 16 ∧
    (Gate.decode (BitVec.ofNat 64 lo) (BitVec.ofNat 64 hi)).selector.toNat =
      lo / 2 ^ 16 % 2 ^ 16 ∧
    (Gate.decode (BitVec.ofNat 64 lo) (BitVec.ofNat 64 hi)).ist = lo / 2 ^ 32 % 2 ^ 3 ∧
    (Gate.decode (BitVec.ofNat 64 lo) (BitVec.ofNat 64 hi)).type.toNat = lo / 2 ^ 40 % 2 ^ 4 ∧
    (Gate.decode (BitVec.ofNat 64 lo) (BitVec.ofNat 64 hi)).dpl = lo / 2 ^ 45 % 2 ^ 2 ∧
    (Gate.decode (BitVec.ofNat 64 lo) (BitVec.ofNat 64 hi)).present =
      decide (lo / 2 ^ 47 % 2 = 1) := by
  simp only [Gate.decode, BitVec.getLsbD, toNat_append_eq, BitVec.extractLsb'_toNat,
    toNat_ofNat_of_lt hlo, toNat_ofNat_of_lt hhi, Nat.testBit_eq_decide_div_mod_eq,
    Nat.shiftRight_eq_div_pow, pow_zero, Nat.div_one, true_and]

/-- **A gate is read back as it was set.** -/
theorem gateAt_setGate (m : Mem) (idt : Word) (vector : Nat) (handler : Word) :
    gateAt (setGate m idt vector handler) idt vector = interruptGate handler := by
  have hlt := handler.isLt
  have h16 : (handler &&& 0xffff).toNat = handler.toNat % 2 ^ 16 := by
    rw [show (0xffff : Word) = BitVec.ofNat 64 (2 ^ 16 - 1) from rfl, toNat_and_mask _ (by decide)]
  have hmid : (handler >>> 16 &&& 0xffff).toNat = handler.toNat / 2 ^ 16 % 2 ^ 16 := by
    rw [show (0xffff : Word) = BitVec.ofNat 64 (2 ^ 16 - 1) from rfl, toNat_and_mask _ (by decide),
      BitVec.toNat_ushiftRight, Nat.shiftRight_eq_div_pow]
  have hupper : (handler >>> 32).toNat = handler.toNat / 2 ^ 32 := by
    rw [BitVec.toNat_ushiftRight, Nat.shiftRight_eq_div_pow]
  -- the fields `set_gate` stores are two words of eight bytes
  obtain ⟨hlo, hhi⟩ := load64_storeFields_append (m := m) (a := idt.toNat + 16 * vector)
    (show fieldsWidth [(2, (handler &&& 0xffff).toNat), (2, gdtKernelCode.toNat), (1, 0), (1, 0x8e),
      (2, (handler >>> 16 &&& 0xffff).toNat)] = 8 from rfl)
    (show fieldsWidth [(4, (handler >>> 32).toNat), (4, 0)] = 8 from rfl)
  have hlow : packed [(2, (handler &&& 0xffff).toNat), (2, gdtKernelCode.toNat), (1, 0), (1, 0x8e),
      (2, (handler >>> 16 &&& 0xffff).toNat)] =
      handler.toNat % 2 ^ 16 + 2 ^ 16 * 8 + 2 ^ 40 * 0x8e +
        2 ^ 48 * (handler.toNat / 2 ^ 16 % 2 ^ 16) := by
    simp only [packed, h16, hmid, show gdtKernelCode.toNat = 8 from rfl]
    omega
  have hhigh : packed [(4, (handler >>> 32).toNat), (4, 0)] = handler.toNat / 2 ^ 32 := by
    simp only [packed, hupper]
    omega
  rw [hlow] at hlo
  rw [hhigh] at hhi
  obtain ⟨hoffset, hselector, hist, htype, hdpl, hpresent⟩ := @gate_ofNat
    (handler.toNat % 2 ^ 16 + 2 ^ 16 * 8 + 2 ^ 40 * 0x8e +
      2 ^ 48 * (handler.toNat / 2 ^ 16 % 2 ^ 16)) (handler.toNat / 2 ^ 32)
    (by omega) (by omega)
  unfold gateAt setGate
  rw [hlo, hhi]
  generalize Gate.decode _ _ = g at *
  obtain ⟨offset, selector, ist, type, dpl, present⟩ := g
  dsimp only at *
  unfold interruptGate
  rw [Gate.mk.injEq]
  refine ⟨BitVec.eq_of_toNat_eq ?_, BitVec.eq_of_toNat_eq ?_, ?_, BitVec.eq_of_toNat_eq ?_, ?_, ?_⟩
  · rw [hoffset]
    omega
  · rw [hselector, show (0x08 : BitVec 16).toNat = 8 from rfl]
    omega
  · rw [hist]
    omega
  · rw [htype, show (0xe : BitVec 4).toNat = 14 from rfl]
    omega
  · rw [hdpl]
    omega
  · rw [hpresent, decide_eq_true_eq]
    omega

theorem setGate_agreeOff (m : Mem) (idt : Word) (vector : Nat) (handler : Word) :
    AgreeOff (idt.toNat + 16 * vector) (idt.toNat + 16 * vector + 16) m
      (setGate m idt vector handler) :=
  storeFields_agreeOff.mono (Nat.le_refl _) (Nat.le_refl _)

theorem gateAt_congr (h : ∀ x, idt.toNat + 16 * vector ≤ x → x < idt.toNat + 16 * vector + 16 →
    m' x = m x) : gateAt m' idt vector = gateAt m idt vector := by
  unfold gateAt
  rw [load64_congr (fun x hlo hhi => h x hlo (by omega)),
    load64_congr (fun x hlo hhi => h x (by omega) (by omega))]

/-- Setting a gate is an update of the table. -/
theorem gateAt_setGate_eq (m : Mem) (idt : Word) (w : Nat) (handler : Word) (vector : Nat) :
    gateAt (setGate m idt w handler) idt vector =
      if vector = w then interruptGate handler else gateAt m idt vector := by
  split
  · next heq =>
      subst heq
      exact gateAt_setGate m idt vector handler
  · exact gateAt_congr (fun x hlo hhi => setGate_agreeOff m idt w handler x (by omega))

theorem setGates_succ (m : Mem) (idt : Word) (base : Nat) (handlers : Nat → Word) (n : Nat) :
    setGates m idt base handlers (n + 1) =
      setGate (setGates m idt base handlers n) idt (base + n) (handlers n) := by
  unfold setGates
  rw [List.range_succ, List.foldl_append]
  rfl

/-- **A loop of `idt_init`** sets the gates of its range. -/
theorem gateAt_setGates (m : Mem) (idt : Word) (base : Nat) (handlers : Nat → Word)
    (n vector : Nat) :
    gateAt (setGates m idt base handlers n) idt vector =
      if base ≤ vector ∧ vector < base + n then interruptGate (handlers (vector - base))
      else gateAt m idt vector := by
  induction n with
  | zero => rw [if_neg (by omega)]; rfl
  | succ n ih =>
      rw [setGates_succ, gateAt_setGate_eq, ih]
      by_cases hv : vector = base + n
      · rw [if_pos hv, if_pos (by omega), hv, Nat.add_sub_cancel_left]
      · rw [if_neg hv]
        exact if_congr (by omega) rfl rfl

theorem setGates_agreeOff (m : Mem) (idt : Word) (base : Nat) (handlers : Nat → Word) (n : Nat) :
    AgreeOff (idt.toNat + 16 * base) (idt.toNat + 16 * (base + n)) m
      (setGates m idt base handlers n) := by
  induction n with
  | zero => exact .refl _ _ _
  | succ n ih =>
      rw [setGates_succ]
      exact (ih.mono (Nat.le_refl _) (by omega)).trans
        ((setGate_agreeOff _ idt (base + n) (handlers n)).mono (by omega) (by omega))

/-- **The table of `idt_init`**, vector by vector. -/
theorem gateAt_idtTable (m : Mem) (idt : Word) (stubs : IsrStubs) (hvector : vector < 256) :
    gateAt (idtTable m idt stubs) idt vector = gateFor (stubs.handler vector) := by
  have hzero : gateAt (memset m idt.toNat 0 idtSize) idt vector = absentGate := by
    have hbyte : ∀ a, idt.toNat ≤ a → a + 8 ≤ idt.toNat + idtSize →
        load64 (memset m idt.toNat 0 idtSize) a = 0 := by
      intro a hlo hhi
      rw [load64, loadNat_zero 8 a (fun x _ _ => by rw [memset_apply, if_pos (by omega)]; rfl)]
      rfl
    unfold gateAt
    rw [hbyte _ (by omega) (by unfold idtSize; omega),
      hbyte _ (by omega) (by unfold idtSize; omega)]
    decide
  unfold idtTable IsrStubs.handler
  dsimp only
  rw [gateAt_setGate_eq, gateAt_setGates, gateAt_setGates, hzero]
  by_cases hisr : vector < 32
  · rw [if_neg (by omega), if_neg (by omega), if_pos (by omega), if_pos hisr]
    rfl
  by_cases hirq : vector < 48
  · rw [if_neg (by omega), if_pos (by omega), if_neg hisr, if_pos hirq]
    rfl
  by_cases hspurious : vector = 255
  · rw [if_pos hspurious, if_neg hisr, if_neg hirq, if_pos hspurious]
    rfl
  · rw [if_neg hspurious, if_neg (by omega), if_neg (by omega), if_neg hisr, if_neg hirq,
      if_neg hspurious]
    rfl

theorem idtTable_agreeOff (m : Mem) (idt : Word) (stubs : IsrStubs) :
    AgreeOff idt.toNat (idt.toNat + idtSize) m (idtTable m idt stubs) := by
  unfold idtTable idtSize
  dsimp only
  exact (memset_agreeOff m idt.toNat 0 4096).trans <|
    ((setGates_agreeOff _ idt 0 stubs.isrStub 32).mono (by omega) (by omega)).trans <|
    ((setGates_agreeOff _ idt 32 stubs.irqStub 16).mono (by omega) (by omega)).trans
      ((setGate_agreeOff _ idt 0xff stubs.spurious).mono (by omega) (by omega))

end Gates

/-! ## Delivery -/

/-- The processor uses the table of `idt_init`. -/
structure IdtLoaded (s : SystemRegs) (m : Mem) (idt : Word) (stubs : IsrStubs) : Prop where
  idtr : s.idtr = ⟨BitVec.ofNat 16 (idtSize - 1), idt⟩
  gates : ∀ vector, vector < 256 → gateAt m idt vector = gateFor (stubs.handler vector)

section Delivery

variable {s : SystemRegs} {m m' : Mem} {gdt idt : Word} {stubs : IsrStubs} {vector : Nat}
  {c : Cpu} {errorCode : Option Word}

theorem IdtLoaded.congr (h : IdtLoaded s m idt stubs)
    (hm : ∀ x, idt.toNat ≤ x → x < idt.toNat + idtSize → m' x = m x) :
    IdtLoaded s m' idt stubs := by
  refine ⟨h.idtr, fun vector hvector => ?_⟩
  rw [gateAt_congr (fun x hlo hhi => hm x (by omega) (by unfold idtSize; omega))]
  exact h.gates vector hvector

/-- The processor reads the gate of a vector there. -/
theorem IdtLoaded.gate (h : IdtLoaded s m idt stubs) (hvector : vector < 256) :
    s.gate m vector = some (gateFor (stubs.handler vector)) := by
  have hlimit : s.idtr.limit.toNat = 4095 := by
    rw [h.idtr]
    rfl
  unfold SystemRegs.gate
  rw [if_neg (by omega), h.idtr]
  exact congrArg some (h.gates vector hvector)

theorem IdtLoaded.gateTo (h : IdtLoaded s m idt stubs) (hgdt : GdtLoaded s m gdt)
    (hvector : vector < 256) {handler : Word} (hhandler : stubs.handler vector = some handler) :
    GateTo s m vector 0x08 handler := by
  refine ⟨?_, kernelCodeDescriptor, hgdt.kernelCode, rfl, rfl, rfl⟩
  rw [h.gate hvector, hhandler]
  rfl

/-- A vector that `idt_init` leaves out faults. -/
theorem IdtLoaded.absent (h : IdtLoaded s c.mem idt stubs) (hvector : vector < 256)
    (hhandler : stubs.handler vector = none) : c.deliver s vector errorCode = none := by
  have hnull : s.descriptor c.mem absentGate.selector = none := if_pos (.inl rfl)
  unfold Cpu.deliver
  rw [h.gate hvector, hhandler, Option.bind_some]
  show (s.descriptor c.mem absentGate.selector).bind _ = none
  rw [hnull, Option.bind_none]

end Delivery

/-- What the processor does with every vector in state `c`: it enters the stub that
`idt_init` chose, in the kernel's code segment, or faults where there is none. -/
def DeliversTo (s : SystemRegs) (stubs : IsrStubs) (c : Cpu) : Prop :=
  ∀ vector, vector < 256 → ∀ errorCode,
    match stubs.handler vector with
    | none => c.deliver s vector errorCode = none
    | some handler => ∀ sp, c.kernelStack s = some sp →
        40 + 8 * errorCode.toList.length ≤ sp.toNat / 16 * 16 →
        ∃ entry, c.deliver s vector errorCode = some entry ∧
          Entered c sp 0x08 handler errorCode entry

theorem deliversTo {s : SystemRegs} {gdt idt : Word} {stubs : IsrStubs} {c : Cpu}
    (hidt : IdtLoaded s c.mem idt stubs) (hgdt : GdtLoaded s c.mem gdt) :
    DeliversTo s stubs c := by
  intro vector hvector errorCode
  cases hhandler : stubs.handler vector with
  | none => exact hidt.absent hvector hhandler
  | some handler =>
      intro sp hstack hroom
      exact deliver_spec (hidt.gateTo hgdt hvector hhandler) hstack hroom

/-- **`idt_init`**, run at level 0 with the segments loaded, meets no fault, and changes
nothing but the table, `idtr` and a register. -/
theorem idtInit_spec {p : Processor} {gdt idt idtr : Word} (stubs : IsrStubs)
    (hlevel : p.cpu.level = 0) (hgdt : GdtLoaded p.sys p.cpu.mem gdt)
    (hidtr : ∀ x, InBytes idtr 10 x → ¬InBytes idt idtSize x)
    (hapart : ∀ x, InBytes gdt gdtTableSize x → ¬InBytes idt idtSize x ∧ ¬InBytes idtr 10 x) :
    ∃ p', idtInit p idt idtr stubs = some p' ∧ IdtLoaded p'.sys p'.cpu.mem idt stubs ∧
      GdtLoaded p'.sys p'.cpu.mem gdt ∧ p'.sys = { p.sys with idtr := p'.sys.idtr } ∧
      p'.cpu = { p.cpu.set .rax idtr with mem := p'.cpu.mem } ∧
      AgreeBut (fun x => InBytes idt idtSize x ∨ InBytes idtr 10 x) p.cpu.mem p'.cpu.mem := by
  obtain ⟨c, s⟩ := p
  dsimp only at *
  set m₁ := idtTable c.mem idt stubs with hm₁
  set m₂ := storeFields m₁ idtr.toNat [(2, idtSize - 1), (8, idt.toNat)] with hm₂
  have htable : AgreeOff idt.toNat (idt.toNat + idtSize) c.mem m₁ := idtTable_agreeOff _ _ _
  have hlocal : AgreeOff idtr.toNat (idtr.toNat + 10) m₁ m₂ :=
    storeFields_agreeOff.mono (Nat.le_refl _) (Nat.le_refl _)
  have hregister : tableRegisterAt m₂ idtr.toNat = ⟨BitVec.ofNat 16 (idtSize - 1), idt⟩ :=
    tableRegisterAt_storeFields _ _ _ _
  have hagree : AgreeBut (fun x => InBytes idt idtSize x ∨ InBytes idtr 10 x) c.mem m₂ := by
    intro x hx
    rw [not_or] at hx
    rw [hlocal x (by have := hx.2; unfold InBytes at this; omega)]
    exact htable x (by have := hx.1; unfold InBytes at this; omega)
  have hidt : IdtLoaded { s with idtr := ⟨BitVec.ofNat 16 (idtSize - 1), idt⟩ } m₂ idt stubs := by
    refine ⟨rfl, fun vector hvector => ?_⟩
    rw [gateAt_congr (m := m₁), hm₁, gateAt_idtTable _ _ _ hvector]
    intro x hlo hhi
    refine hlocal x ?_
    by_contra hin
    exact hidtr x ⟨by omega, by omega⟩ ⟨by omega, by unfold idtSize; omega⟩
  have hgdt' : GdtLoaded { s with idtr := ⟨BitVec.ofNat 16 (idtSize - 1), idt⟩ } m₂ gdt :=
    GdtLoaded.congr (m := c.mem) ⟨hgdt.gdtr, hgdt.entries⟩ (fun x hlo hhi =>
      hagree x (not_or.mpr (hapart x ⟨hlo, hhi⟩)))
  refine ⟨⟨{ c.set .rax idtr with mem := m₂ },
    { s with idtr := ⟨BitVec.ofNat 16 (idtSize - 1), idt⟩ }⟩, ?_, hidt, hgdt', rfl, rfl, hagree⟩
  · have hlidt : SysInstr.exec ⟨{ c.set .rax idtr with mem := m₂ }, s⟩ (.lidt .rax) =
        some ⟨{ c.set .rax idtr with mem := m₂ },
          { s with idtr := ⟨BitVec.ofNat 16 (idtSize - 1), idt⟩ }⟩ := by
      have hkernel : ({ c.set .rax idtr with mem := m₂ } : Cpu).level = 0 := hlevel
      simp only [SysInstr.exec, Cpu.set_self]
      rw [if_pos hkernel, hregister]
    unfold idtInit
    rw [SysInstr.execAll_cons,
      show SysInstr.exec ⟨{ c with mem := m₂ }, s⟩ (.movImm idtr .rax) =
        some ⟨{ c.set .rax idtr with mem := m₂ }, s⟩ from rfl, Option.bind_some,
      SysInstr.execAll_cons, hlidt]
    rfl

end QuinKernel
