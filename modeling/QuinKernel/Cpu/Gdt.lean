import QuinKernel.Lib.String
import QuinKernel.Machine.Packed
import QuinKernel.Machine.Segments
import QuinKernel.Sched.ContextSwitch

/-!
# The segments (`gdt.c`, `gdt_flush.S`)

`gdt_init` fills the table of descriptors and the task state segment, and makes
the processor use them: `gdt_flush` loads the table and reloads every segment
register, `ltr` the task register. Each of these faults on a descriptor it does
not like. `gdtInit_spec` says that none does, and what the processor reads in
the table from then on.
-/

namespace QuinKernel

open Machine

/-- `GDT_KERNEL_DATA` and `GDT_TSS`. -/
def gdtKernelData : Word := 0x10
def gdtTss : Word := 0x28

/-- `sizeof(struct gdt_table)` and `sizeof(struct tss)`. -/
def gdtTableSize : Nat := 56
def tssSize : Nat := 104

/-- `set_entry`. -/
def setEntry (m : Mem) (entry : Nat) (access flags : Byte) : Mem :=
  storeFields m entry
    [(2, 0xffff), (2, 0), (1, 0), (1, access.toNat), (1, (flags <<< 4 ||| 0x0f).toNat), (1, 0)]

/-- `set_tss_descriptor`. -/
def setTssDescriptor (m : Mem) (desc : Nat) (base : Word) (limit : BitVec 32) : Mem :=
  storeFields m desc
    [(2, (limit &&& 0xffff).toNat), (2, (base &&& 0xffff).toNat),
     (1, (base >>> 16 &&& 0xff).toNat), (1, 0x89), (1, (limit >>> 16 &&& 0x0f).toNat),
     (1, (base >>> 24 &&& 0xff).toNat), (4, (base >>> 32).toNat), (4, 0)]

/-- The stores of `gdt_init`. -/
def gdtTables (m : Mem) (gdt tss : Word) : Mem :=
  let m := memset m gdt.toNat 0 gdtTableSize
  let m := memset m tss.toNat 0 tssSize
  let m := setEntry m (gdt.toNat + 8) 0x9a 0xa
  let m := setEntry m (gdt.toNat + 16) 0x92 0xc
  let m := setEntry m (gdt.toNat + 24) 0xf2 0xc
  let m := setEntry m (gdt.toNat + 32) 0xfa 0xa
  let m := storeNat m (tss.toNat + 102) 2 tssSize
  setTssDescriptor m (gdt.toNat + 40) tss (BitVec.ofNat 32 (tssSize - 1))

/-- `gdt_flush`, up to its `ret`; `here` is the address of the label in it. -/
def gdtFlush (here : Word) : List SysInstr :=
  [.lgdt .rdi,
   .zeroExtend .rdx .rax,
   .loadData .rax, .loadData .rax, .loadData .rax, .loadData .rax, .loadStack .rax,
   .zeroExtend .rsi .rax,
   .movImm here .rcx,
   .plain (.push .rax), .plain (.push .rcx), .farReturn,
   .plain .ret]

/-- `gdt_init`: its stores, `gdtr` at `gdtr`, and the rest as it is executed, the call of
`gdt_flush` returning to `next`. -/
def gdtInit (p : Processor) (gdt tss gdtr flush here next : Word) : Option Processor :=
  let m := storeFields (gdtTables p.cpu.mem gdt tss) gdtr.toNat
    [(2, gdtTableSize - 1), (8, gdt.toNat)]
  SysInstr.execAll
    ([.movImm gdtr .rdi, .movImm gdtKernelCode .rsi, .movImm gdtKernelData .rdx,
      .plain (.call flush next)] ++ gdtFlush here ++ [.ltr (gdtTss.setWidth 16)])
    { p with cpu := { p.cpu with mem := m } }

/-- `gdt_set_kernel_stack`. -/
def gdtSetKernelStack (m : Mem) (tss rsp0 : Word) : Mem := store64 m (tss.toNat + 4) rsp0

/-! ## The table -/

/-- The descriptors `gdt_init` makes. -/
def kernelCodeDescriptor : Descriptor := ⟨0, 0xfffff, 0xa, true, 0, true, true, false, true⟩
def kernelDataDescriptor : Descriptor := ⟨0, 0xfffff, 0x2, true, 0, true, false, true, true⟩
def userDataDescriptor : Descriptor := ⟨0, 0xfffff, 0x2, true, 3, true, false, true, true⟩
def userCodeDescriptor : Descriptor := ⟨0, 0xfffff, 0xa, true, 3, true, true, false, true⟩

/-- The segments are in memory at `gdt`. -/
structure GdtEntries (m : Mem) (gdt : Nat) : Prop where
  kernelCode : Descriptor.decode (load64 m (gdt + 8)) = kernelCodeDescriptor
  kernelData : Descriptor.decode (load64 m (gdt + 16)) = kernelDataDescriptor
  userData : Descriptor.decode (load64 m (gdt + 24)) = userDataDescriptor
  userCode : Descriptor.decode (load64 m (gdt + 32)) = userCodeDescriptor

/-- The task descriptor at `desc` is for the task state segment at `tss`. -/
structure TssEntry (m : Mem) (desc : Nat) (tss : Word) : Prop where
  present : (Descriptor.decode (load64 m desc)).present = true
  system : (Descriptor.decode (load64 m desc)).segment = false
  type : (Descriptor.decode (load64 m desc)).type = 9
  limit : (Descriptor.decode (load64 m desc)).limit = BitVec.ofNat 20 (tssSize - 1)
  granular : (Descriptor.decode (load64 m desc)).granular = false
  base : (load64 m (desc + 8)).extractLsb' 0 32 ++ (Descriptor.decode (load64 m desc)).base = tss

section Tables

variable {m m' : Mem} {gdt : Nat} {tss : Word}

theorem GdtEntries.congr (h : GdtEntries m gdt) (hm : ∀ x, gdt ≤ x → x < gdt + 40 → m' x = m x) :
    GdtEntries m' gdt := by
  obtain ⟨h₁, h₂, h₃, h₄⟩ := h
  refine ⟨?_, ?_, ?_, ?_⟩
  all_goals rw [load64_congr (fun x hlo hhi => hm x (by omega) (by omega))]
  · exact h₁
  · exact h₂
  · exact h₃
  · exact h₄

theorem TssEntry.congr {desc : Nat} (h : TssEntry m desc tss)
    (hm : ∀ x, desc ≤ x → x < desc + 16 → m' x = m x) : TssEntry m' desc tss := by
  have hlo : load64 m' desc = load64 m desc :=
    load64_congr (fun x hlo hhi => hm x hlo (by omega))
  have hhi : load64 m' (desc + 8) = load64 m (desc + 8) :=
    load64_congr (fun x hlo hhi => hm x (by omega) (by omega))
  obtain ⟨h₁, h₂, h₃, h₄, h₅, h₆⟩ := h
  refine ⟨?_, ?_, ?_, ?_, ?_, ?_⟩
  all_goals rw [hlo]
  · exact h₁
  · exact h₂
  · exact h₃
  · exact h₄
  · exact h₅
  · rw [hhi]
    exact h₆

theorem setEntry_agreeOff (m : Mem) (entry : Nat) (access flags : Byte) :
    AgreeOff entry (entry + 8) m (setEntry m entry access flags) :=
  storeFields_agreeOff.mono (Nat.le_refl _) (Nat.le_refl _)

theorem setEntry_load (m : Mem) (entry : Nat) (access flags : Byte) :
    load64 (setEntry m entry access flags) entry = BitVec.ofNat 64
      (packed [(2, 0xffff), (2, 0), (1, 0), (1, access.toNat),
        (1, (flags <<< 4 ||| 0x0f).toNat), (1, 0)]) :=
  load64_storeFields rfl

/-- The two words of a task descriptor. -/
theorem setTssDescriptor_load (m : Mem) (desc : Nat) (base : Word) :
    load64 (setTssDescriptor m desc base (BitVec.ofNat 32 (tssSize - 1))) desc =
      BitVec.ofNat 64 (103 + 2 ^ 16 * (base.toNat % 2 ^ 24) + 2 ^ 40 * 0x89 +
        2 ^ 56 * (base.toNat / 2 ^ 24 % 256)) ∧
    load64 (setTssDescriptor m desc base (BitVec.ofNat 32 (tssSize - 1))) (desc + 8) =
      BitVec.ofNat 64 (base.toNat / 2 ^ 32) := by
  have hbase := base.isLt
  have h16 : (base &&& 0xffff).toNat = base.toNat % 2 ^ 16 := by
    rw [show (0xffff : Word) = BitVec.ofNat 64 (2 ^ 16 - 1) from rfl, toNat_and_mask _ (by decide)]
  have hbyte : ∀ k, (base >>> k &&& 0xff).toNat = base.toNat / 2 ^ k % 2 ^ 8 := fun k => by
    rw [show (0xff : Word) = BitVec.ofNat 64 (2 ^ 8 - 1) from rfl, toNat_and_mask _ (by decide),
      BitVec.toNat_ushiftRight, Nat.shiftRight_eq_div_pow]
  have hupper : (base >>> 32).toNat = base.toNat / 2 ^ 32 := by
    rw [BitVec.toNat_ushiftRight, Nat.shiftRight_eq_div_pow]
  obtain ⟨hlo, hhi⟩ := load64_storeFields_append (m := m) (a := desc)
    (show fieldsWidth [(2, (BitVec.ofNat 32 (tssSize - 1) &&& 0xffff).toNat),
      (2, (base &&& 0xffff).toNat), (1, (base >>> 16 &&& 0xff).toNat), (1, 0x89),
      (1, (BitVec.ofNat 32 (tssSize - 1) >>> 16 &&& 0x0f).toNat),
      (1, (base >>> 24 &&& 0xff).toNat)] = 8 from rfl)
    (show fieldsWidth [(4, (base >>> 32).toNat), (4, 0)] = 8 from rfl)
  refine ⟨hlo.trans (congrArg _ ?_), hhi.trans (congrArg _ ?_)⟩
  · simp only [packed, h16, hbyte]
    rw [show (BitVec.ofNat 32 (tssSize - 1) &&& 0xffff).toNat = 103 from rfl,
      show (BitVec.ofNat 32 (tssSize - 1) >>> 16 &&& 0x0f).toNat = 0 from rfl]
    omega
  · simp only [packed, hupper]
    omega

/-- The fields of a descriptor, off the number it is. -/
theorem decode_ofNat {n : Nat} (h : n < 2 ^ 64) :
    (Descriptor.decode (BitVec.ofNat 64 n)).present = decide (n / 2 ^ 47 % 2 = 1) ∧
    (Descriptor.decode (BitVec.ofNat 64 n)).segment = decide (n / 2 ^ 44 % 2 = 1) ∧
    (Descriptor.decode (BitVec.ofNat 64 n)).type.toNat = n / 2 ^ 40 % 2 ^ 4 ∧
    (Descriptor.decode (BitVec.ofNat 64 n)).limit.toNat =
      n / 2 ^ 48 % 2 ^ 4 * 2 ^ 16 + n % 2 ^ 16 ∧
    (Descriptor.decode (BitVec.ofNat 64 n)).granular = decide (n / 2 ^ 55 % 2 = 1) ∧
    (Descriptor.decode (BitVec.ofNat 64 n)).base.toNat =
      n / 2 ^ 56 % 2 ^ 8 * 2 ^ 24 + n / 2 ^ 16 % 2 ^ 24 := by
  simp only [Descriptor.decode, BitVec.getLsbD, toNat_append_eq, BitVec.extractLsb'_toNat,
    toNat_ofNat_of_lt h, Nat.testBit_eq_decide_div_mod_eq, Nat.shiftRight_eq_div_pow, pow_zero,
    Nat.div_one, true_and]

/-- **A task descriptor is read back as it was set.** -/
theorem setTssDescriptor_entry (m : Mem) (desc : Nat) (base : Word) :
    TssEntry (setTssDescriptor m desc base (BitVec.ofNat 32 (tssSize - 1))) desc base := by
  have hbase := base.isLt
  obtain ⟨hlo, hhi⟩ := setTssDescriptor_load m desc base
  obtain ⟨hpresent, hsegment, htype, hlimit, hgranular, hdesc⟩ := decode_ofNat
    (n := 103 + 2 ^ 16 * (base.toNat % 2 ^ 24) + 2 ^ 40 * 0x89 +
      2 ^ 56 * (base.toNat / 2 ^ 24 % 256)) (by omega)
  refine ⟨?_, ?_, BitVec.eq_of_toNat_eq ?_, BitVec.eq_of_toNat_eq ?_, ?_, BitVec.eq_of_toNat_eq ?_⟩
  all_goals rw [hlo]
  · rw [hpresent, decide_eq_true_eq]
    omega
  · rw [hsegment, decide_eq_false_iff_not]
    omega
  · rw [htype, show (9 : BitVec 4).toNat = 9 from rfl]
    omega
  · rw [hlimit, show (BitVec.ofNat 20 (tssSize - 1)).toNat = 103 from rfl]
    omega
  · rw [hgranular, decide_eq_false_iff_not]
    omega
  · rw [toNat_append_eq, hdesc, hhi, BitVec.extractLsb'_toNat, toNat_ofNat_of_lt (by omega),
      Nat.shiftRight_eq_div_pow]
    omega

/-- The tables lie apart. -/
def GdtApart (gdt tss : Word) : Prop :=
  gdt.toNat + gdtTableSize ≤ tss.toNat ∨ tss.toNat + tssSize ≤ gdt.toNat

/-- `x` is a byte of the tables. -/
def InTables (gdt tss : Word) (x : Nat) : Prop :=
  (gdt.toNat ≤ x ∧ x < gdt.toNat + gdtTableSize) ∨ (tss.toNat ≤ x ∧ x < tss.toNat + tssSize)

/-- **The stores of `gdt_init`.** -/
theorem gdtTables_spec (m : Mem) {gdt tss : Word} (h : GdtApart gdt tss) :
    GdtEntries (gdtTables m gdt tss) gdt.toNat ∧
    TssEntry (gdtTables m gdt tss) (gdt.toNat + 40) tss ∧
    AgreeBut (InTables gdt tss) m (gdtTables m gdt tss) := by
  have hapart := h
  unfold GdtApart gdtTableSize tssSize at hapart
  unfold gdtTables
  set m₁ := memset m gdt.toNat 0 gdtTableSize with hm₁
  set m₂ := memset m₁ tss.toNat 0 tssSize with hm₂
  set m₃ := setEntry m₂ (gdt.toNat + 8) 0x9a 0xa with hm₃
  set m₄ := setEntry m₃ (gdt.toNat + 16) 0x92 0xc with hm₄
  set m₅ := setEntry m₄ (gdt.toNat + 24) 0xf2 0xc with hm₅
  set m₆ := setEntry m₅ (gdt.toNat + 32) 0xfa 0xa with hm₆
  set m₇ := storeNat m₆ (tss.toNat + 102) 2 tssSize with hm₇
  have h₄ : AgreeOff (gdt.toNat + 16) (gdt.toNat + 24) m₃ m₄ := setEntry_agreeOff _ _ _ _
  have h₅ : AgreeOff (gdt.toNat + 24) (gdt.toNat + 32) m₄ m₅ := setEntry_agreeOff _ _ _ _
  have h₆ : AgreeOff (gdt.toNat + 32) (gdt.toNat + 40) m₅ m₆ := setEntry_agreeOff _ _ _ _
  have h₇ : AgreeOff (tss.toNat + 102) (tss.toNat + 102 + 2) m₆ m₇ := storeNat_agreeOff _ _ _ _
  have h₈ : AgreeOff (gdt.toNat + 40) (gdt.toNat + 56) m₇
      (setTssDescriptor m₇ (gdt.toNat + 40) tss (BitVec.ofNat 32 (tssSize - 1))) :=
    storeFields_agreeOff.mono (Nat.le_refl _) (Nat.le_refl _)
  refine ⟨⟨?_, ?_, ?_, ?_⟩, setTssDescriptor_entry m₇ _ tss, fun x hx => ?_⟩
  · rw [h₈.load64 (by omega), h₇.load64 (by omega), h₆.load64 (by omega), h₅.load64 (by omega),
      h₄.load64 (by omega), hm₃, setEntry_load]
    decide
  · rw [h₈.load64 (by omega), h₇.load64 (by omega), h₆.load64 (by omega), h₅.load64 (by omega),
      hm₄, setEntry_load]
    decide
  · rw [h₈.load64 (by omega), h₇.load64 (by omega), h₆.load64 (by omega), hm₅, setEntry_load]
    decide
  · rw [h₈.load64 (by omega), h₇.load64 (by omega), hm₆, setEntry_load]
    decide
  · unfold InTables gdtTableSize tssSize at hx
    have h₃ : AgreeOff (gdt.toNat + 8) (gdt.toNat + 16) m₂ m₃ := setEntry_agreeOff _ _ _ _
    rw [h₈ x (by omega), h₇ x (by omega), h₆ x (by omega), h₅ x (by omega), h₄ x (by omega),
      h₃ x (by omega), hm₂, memset_apply, if_neg (by unfold tssSize; omega), hm₁, memset_apply,
      if_neg (by unfold gdtTableSize; omega)]

end Tables

/-! ## Loading it -/

section Flush

variable {p : Processor}

/-- **`gdt_flush`** loads the table, and a code and a data selector that the table
supports. -/
theorem gdtFlush_spec {t : TableRegister} {data : Descriptor} {code stack : Selector} (here : Word)
    (hlevel : p.cpu.level = 0)
    (htable : tableRegisterAt p.cpu.mem (p.cpu.regs .rdi).toNat = t)
    (hrdx : (p.cpu.regs .rdx).setWidth 16 = stack) (hrsi : (p.cpu.regs .rsi).setWidth 16 = code)
    (hdata : SystemRegs.descriptor { p.sys with gdtr := t } p.cpu.mem stack = some data)
    (hreadable : data.readableAt 0 (selectorLevel stack) = true)
    (hstack : SystemRegs.stackFor { p.sys with gdtr := t } p.cpu.mem 0 stack = true)
    (hcode : SystemRegs.returnsTo { p.sys with gdtr := t } p.cpu.mem code = true)
    (hkernel : selectorLevel code = 0) (hroom : 16 ≤ p.cpu.rsp.toNat)
    (hoff : ∀ x, t.base.toNat ≤ x → x ≤ t.base.toNat + t.limit.toNat →
      x < p.cpu.rsp.toNat - 16 ∨ p.cpu.rsp.toNat ≤ x) :
    ∃ p', SysInstr.execAll (gdtFlush here) p = some p' ∧
      p'.sys = { p.sys with gdtr := t } ∧
      p'.cpu.cs = code.setWidth 64 ∧ p'.cpu.ss = stack.setWidth 64 ∧
      p'.cpu.rip = load64 p.cpu.mem p.cpu.rsp.toNat ∧ p'.cpu.rsp = p.cpu.rsp + 8 ∧
      p'.cpu.rflags = p.cpu.rflags ∧
      AgreeOff (p.cpu.rsp.toNat - 16) p.cpu.rsp.toNat p.cpu.mem p'.cpu.mem ∧
      ∀ r, r ≠ .rax → r ≠ .rcx → r ≠ .rsp → p'.cpu.regs r = p.cpu.regs r := by
  subst hrdx hrsi
  obtain ⟨c, s⟩ := p
  dsimp only at *
  set s' : SystemRegs := { s with gdtr := t } with hs'
  set dataSel := (c.regs .rdx).setWidth 16 with hdataSel
  set codeSel := (c.regs .rsi).setWidth 16 with hcodeSel
  set c₁ := c.set .rax (dataSel.setWidth 64) with hc₁
  set c₂ : Cpu := { c₁ with ss := dataSel.setWidth 64 } with hc₂
  set c₃ := (c₂.set .rax (codeSel.setWidth 64)).set .rcx here with hc₃
  have hnarrow : ∀ sel : Selector, (sel.setWidth 64).setWidth 16 = sel := fun sel =>
    BitVec.setWidth_setWidth_of_le _ (by decide)
  have hrax : (c₁.regs .rax).setWidth 16 = dataSel := by
    rw [hc₁, Cpu.set_self, hnarrow]
  have hload : SysInstr.exec ⟨c₁, s'⟩ (.loadData .rax) = some ⟨c₁, s'⟩ := by
    simp only [SysInstr.exec, hrax]
    rw [show s'.descriptor c₁.mem dataSel = some data from hdata]
    dsimp only
    rw [show c₁.level = 0 from hlevel, if_pos hreadable]
  have hstackLoad : SysInstr.exec ⟨c₁, s'⟩ (.loadStack .rax) = some ⟨c₂, s'⟩ := by
    simp only [SysInstr.exec, hrax]
    rw [show c₁.level = 0 from hlevel, show s'.stackFor c₁.mem 0 dataSel = true from hstack]
    rfl
  -- the two words that the far return takes
  have hrsp₃ : c₃.rsp = c.rsp := rfl
  set c₄ := c₃.pushAll [codeSel.setWidth 64, here] with hc₄
  obtain ⟨hrsp₄, hholds, hagree, hsame⟩ := pushAll_spec c₃ [codeSel.setWidth 64, here]
    (by rw [hrsp₃]; exact hroom)
  rw [hrsp₃] at hrsp₄ hholds hagree
  have hword₀ : c₄.stackWord 0 = here := by
    rw [Cpu.stackWord, hrsp₄]
    exact hholds.1
  have hword₁ : c₄.stackWord 1 = codeSel.setWidth 64 := by
    rw [Cpu.stackWord, hrsp₄]
    exact hholds.2.1
  have hreturn : SysInstr.exec ⟨c₄, s'⟩ .farReturn =
      some ⟨{ c₄.drop.drop with rip := here, cs := codeSel.setWidth 64 }, s'⟩ := by
    have hcs : c₄.level = 0 := by
      rw [Cpu.level, (pushAll_segments c₃ _).1]
      exact hlevel
    have hin : s'.returnsTo c₄.mem codeSel = true := by
      rw [returnsTo_congr (m := c₃.mem) (fun x hlo hhi => hagree x ?_)]
      · exact hcode
      · exact hoff x hlo hhi
    simp only [SysInstr.exec, hword₀, hword₁, hnarrow, hin, hcs, hkernel, decide_true,
      Bool.and_self, if_true]
  have hlgdt : SysInstr.exec ⟨c, s⟩ (.lgdt .rdi) = some ⟨c, s'⟩ := by
    simp only [SysInstr.exec]
    rw [if_pos hlevel, htable]
  have hback : c₄.drop.drop.rsp = c.rsp := by
    have hdrop : c₄.drop.drop.rsp = c₄.rsp + 8 + 8 := by
      simp only [Cpu.drop, Cpu.rsp, Cpu.set_self]
    have hlt := c.rsp.isLt
    refine BitVec.eq_of_toNat_eq ?_
    rw [hdrop, BitVec.toNat_add, BitVec.toNat_add, hrsp₄, show (8 : Word).toNat = 8 from rfl]
    simp only [List.length_cons, List.length_nil]
    omega
  have hother : ∀ r, r ≠ .rax → r ≠ .rcx → r ≠ .rsp → c₄.drop.drop.regs r = c.regs r := by
    intro r hax hcx hsp
    have hdrop : c₄.drop.drop.regs r = c₄.regs r :=
      (Cpu.set_other hsp).trans (Cpu.set_other hsp)
    rw [hdrop, hsame.regs r hsp]
    exact (Cpu.set_other hcx).trans ((Cpu.set_other hax).trans (Cpu.set_other hax))
  set c₅ : Cpu := { c₄.drop.drop with rip := here, cs := codeSel.setWidth 64 } with hc₅
  have hrsp₅ : c₅.rsp = c.rsp := hback
  refine ⟨⟨Instr.ret.exec c₅, s'⟩, ?_, rfl, rfl, ?_, ?_, ?_, ?_, hagree, fun r hax hcx hsp => ?_⟩
  · rw [gdtFlush, SysInstr.execAll_cons, hlgdt, Option.bind_some, SysInstr.execAll_cons,
      show SysInstr.exec ⟨c, s'⟩ (.zeroExtend .rdx .rax) = some ⟨c₁, s'⟩ from rfl, Option.bind_some]
    rw [SysInstr.execAll_cons, hload, Option.bind_some, SysInstr.execAll_cons, hload,
      Option.bind_some, SysInstr.execAll_cons, hload, Option.bind_some, SysInstr.execAll_cons,
      hload, Option.bind_some, SysInstr.execAll_cons, hstackLoad, Option.bind_some]
    rw [SysInstr.execAll_cons,
      show SysInstr.exec ⟨c₂, s'⟩ (.zeroExtend .rsi .rax) =
        some ⟨c₂.set .rax (codeSel.setWidth 64), s'⟩ from rfl, Option.bind_some,
      SysInstr.execAll_cons, show SysInstr.exec ⟨c₂.set .rax (codeSel.setWidth 64), s'⟩
        (.movImm here .rcx) = some ⟨c₃, s'⟩ from rfl, Option.bind_some]
    rw [SysInstr.execAll_cons, show SysInstr.exec ⟨c₃, s'⟩ (.plain (.push .rax)) =
        some ⟨c₃.push (codeSel.setWidth 64), s'⟩ from rfl, Option.bind_some,
      SysInstr.execAll_cons, show SysInstr.exec ⟨c₃.push (codeSel.setWidth 64), s'⟩
        (.plain (.push .rcx)) = some ⟨c₄, s'⟩ from rfl, Option.bind_some,
      SysInstr.execAll_cons, hreturn, Option.bind_some]
    rfl
  · exact (pushAll_segments c₃ _).2
  · show load64 c₄.mem (c₅.rsp.toNat + 8 * 0) = load64 c.mem c.rsp.toNat
    rw [hrsp₅]
    exact hagree.load64 (.inr (Nat.le_refl _))
  · rw [ret_rsp, hrsp₅]
  · exact hsame.rflags
  · rw [ret_other _ hsp]
    exact hother r hax hcx hsp

end Flush

/-- The processor uses the table of `gdt_init`. -/
structure GdtLoaded (s : SystemRegs) (m : Mem) (gdt : Word) : Prop where
  gdtr : s.gdtr = ⟨BitVec.ofNat 16 (gdtTableSize - 1), gdt⟩
  entries : GdtEntries m gdt.toNat

/-- And its task state segment. -/
structure SegmentsReady (s : SystemRegs) (m : Mem) (gdt tss : Word) : Prop extends
    GdtLoaded s m gdt where
  tssBase : s.tssBase = tss
  tssLimit : s.tssLimit = tssSize - 1

section Ready

variable {s : SystemRegs} {m m' : Mem} {gdt tss : Word}

theorem descriptor_of_gdtr (h : s.gdtr = ⟨BitVec.ofNat 16 (gdtTableSize - 1), gdt⟩)
    {selector : Selector} (hin : 8 ≤ selector.toNat ∧ selector.toNat < 56)
    (hglobal : selector.getLsbD 2 = false) :
    s.descriptor m selector =
      some (Descriptor.decode (load64 m (gdt.toNat + selector.toNat / 8 * 8))) := by
  have hlimit : s.gdtr.limit.toNat = 55 := by
    rw [h]
    rfl
  unfold SystemRegs.descriptor selectorNull
  rw [if_neg (by rw [hlimit, hglobal]; simp only [Bool.false_eq_true, false_or]; omega), h]

namespace GdtLoaded

variable (h : GdtLoaded s m gdt)
include h

theorem kernelCode : s.descriptor m 0x08 = some kernelCodeDescriptor :=
  (descriptor_of_gdtr h.gdtr (by decide) rfl).trans (congrArg some h.entries.kernelCode)

theorem kernelData : s.descriptor m 0x10 = some kernelDataDescriptor :=
  (descriptor_of_gdtr h.gdtr (by decide) rfl).trans (congrArg some h.entries.kernelData)

/-- With the privilege level of user mode in the selector. -/
theorem userData : s.descriptor m 0x1b = some userDataDescriptor :=
  (descriptor_of_gdtr h.gdtr (by decide) rfl).trans (congrArg some h.entries.userData)

theorem userCode : s.descriptor m 0x23 = some userCodeDescriptor :=
  (descriptor_of_gdtr h.gdtr (by decide) rfl).trans (congrArg some h.entries.userCode)

/-- The selectors that the kernel returns with. -/
theorem returnsToKernel : s.returnsTo m 0x08 = true := by
  rw [SystemRegs.returnsTo, h.kernelCode]
  rfl

theorem returnsToUser : s.returnsTo m 0x23 = true := by
  rw [SystemRegs.returnsTo, h.userCode]
  rfl

theorem stackForKernel : s.stackFor m 0 0x10 = true := by
  rw [SystemRegs.stackFor, h.kernelData]
  rfl

theorem stackForUser : s.stackFor m 3 0x1b = true := by
  rw [SystemRegs.stackFor, h.userData]
  rfl

theorem congr (hm : ∀ x, gdt.toNat ≤ x → x < gdt.toNat + gdtTableSize → m' x = m x) :
    GdtLoaded s m' gdt :=
  ⟨h.gdtr, h.entries.congr (fun x hlo hhi => hm x hlo (by unfold gdtTableSize; omega))⟩

end GdtLoaded

theorem SegmentsReady.congr (h : SegmentsReady s m gdt tss)
    (hm : ∀ x, gdt.toNat ≤ x → x < gdt.toNat + gdtTableSize → m' x = m x) :
    SegmentsReady s m' gdt tss :=
  ⟨h.toGdtLoaded.congr hm, h.tssBase, h.tssLimit⟩

/-- **`ltr`** finds the task descriptor of `gdt_init`, and marks it. -/
theorem loadTask_spec {p : Processor}
    (hgdtr : p.sys.gdtr = ⟨BitVec.ofNat 16 (gdtTableSize - 1), gdt⟩)
    (h : TssEntry p.cpu.mem (gdt.toNat + 40) tss) :
    ∃ q, p.loadTask (gdtTss.setWidth 16) = some q ∧
      q.sys.gdtr = p.sys.gdtr ∧ q.sys.tssBase = tss ∧ q.sys.tssLimit = tssSize - 1 ∧
      (∃ m, q.cpu = { p.cpu with mem := m } ∧
        AgreeOff (gdt.toNat + 45) (gdt.toNat + 46) p.cpu.mem m) := by
  have hentry : p.sys.gdtr.base.toNat + (gdtTss.setWidth 16 : Selector).toNat / 8 * 8 =
      gdt.toNat + 40 := by
    rw [hgdtr]
    rfl
  have hlimit : p.sys.gdtr.limit.toNat = 55 := by
    rw [hgdtr]
    rfl
  unfold Processor.loadTask
  dsimp only
  rw [hentry, if_pos ⟨by decide, rfl, by rw [hlimit]; decide, h.present, h.system, h.type⟩,
    h.base, h.limit, h.granular]
  exact ⟨_, rfl, rfl, rfl, rfl, _, rfl, store8_agreeOff _ _ _⟩

/-- The call of `gdt_flush`. -/
theorem gdtFlushCall_spec {c : Cpu} (s : SystemRegs) (gdtr flush next : Word)
    (hroom : 8 ≤ c.rsp.toNat) :
    ∃ c', SysInstr.execAll [.movImm gdtr .rdi, .movImm gdtKernelCode .rsi,
        .movImm gdtKernelData .rdx, .plain (.call flush next)] ⟨c, s⟩ = some ⟨c', s⟩ ∧
      c'.regs .rdi = gdtr ∧ c'.regs .rsi = gdtKernelCode ∧ c'.regs .rdx = gdtKernelData ∧
      c'.rsp.toNat = c.rsp.toNat - 8 ∧ load64 c'.mem c'.rsp.toNat = next ∧
      c'.cs = c.cs ∧ c'.rflags = c.rflags ∧
      AgreeOff (c.rsp.toNat - 8) c.rsp.toNat c.mem c'.mem ∧
      ∀ r, r ∉ [Reg.rsp, .rdx, .rsi, .rdi] → c'.regs r = c.regs r := by
  set c₁ := ((c.set .rdi gdtr).set .rsi gdtKernelCode).set .rdx gdtKernelData with hc₁
  have hone : 8 * [next].length = 8 := rfl
  have hrsp₁ : c₁.rsp = c.rsp := rfl
  obtain ⟨hrsp, hholds, hcall, hsame⟩ := pushAll_spec c₁ [next] (by rw [hrsp₁, hone]; exact hroom)
  rw [hrsp₁, hone] at hrsp hholds hcall
  refine ⟨{ c₁.pushAll [next] with rip := flush }, rfl, hsame.regs .rdi (by decide),
    hsame.regs .rsi (by decide), hsame.regs .rdx (by decide), hrsp, ?_, rfl, rfl, hcall,
    fun r hr => ?_⟩
  · show load64 (c₁.pushAll [next]).mem (c₁.pushAll [next]).rsp.toNat = next
    rw [hrsp]
    exact hholds.1
  · simp only [List.mem_cons, List.not_mem_nil, or_false, not_or] at hr
    exact (hsame.regs r hr.1).trans ((Cpu.set_other hr.2.1).trans ((Cpu.set_other hr.2.2.1).trans
      (Cpu.set_other hr.2.2.2)))

end Ready

/-- `x` is one of the `n` bytes at `a`. -/
def InBytes (a : Word) (n x : Nat) : Prop := a.toNat ≤ x ∧ x < a.toNat + n

/-- **The segments are in use.** `gdt_init`, run at level 0 with its tables, its `gdtr` and
its stack apart, meets no fault. From then on the processor runs in the kernel's
code segment on its data segment, reads the four segments of `gdt.c` and the task
state segment in the tables, and nothing but the tables, `gdtr` and the stack below
has been written. -/
theorem gdtInit_spec {p : Processor} {gdt tss gdtr : Word} (flush here next : Word)
    (hlevel : p.cpu.level = 0) (hapart : GdtApart gdt tss)
    (hgdtr : ∀ x, InBytes gdtr 10 x → ¬InTables gdt tss x)
    (hroom : 24 ≤ p.cpu.rsp.toNat)
    (hstack : ∀ x, p.cpu.rsp.toNat - 24 ≤ x → x < p.cpu.rsp.toNat →
      ¬InTables gdt tss x ∧ ¬InBytes gdtr 10 x) :
    ∃ p', gdtInit p gdt tss gdtr flush here next = some p' ∧
      SegmentsReady p'.sys p'.cpu.mem gdt tss ∧ p'.cpu.cs = gdtKernelCode ∧
      p'.cpu.ss = gdtKernelData ∧ p'.cpu.rip = next ∧ p'.cpu.rsp = p.cpu.rsp ∧
      p'.cpu.rflags = p.cpu.rflags ∧
      (∀ r, r ∉ [Reg.rax, .rcx, .rdx, .rsi, .rdi] → p'.cpu.regs r = p.cpu.regs r) ∧
      AgreeBut (fun x => InTables gdt tss x ∨ InBytes gdtr 10 x ∨
        (p.cpu.rsp.toNat - 24 ≤ x ∧ x < p.cpu.rsp.toNat)) p.cpu.mem p'.cpu.mem := by
  obtain ⟨c, s⟩ := p
  dsimp only at *
  obtain ⟨hentries, htssEntry, htables⟩ := gdtTables_spec c.mem hapart
  set m₁ := gdtTables c.mem gdt tss with hm₁
  set m₂ := storeFields m₁ gdtr.toNat [(2, gdtTableSize - 1), (8, gdt.toNat)] with hm₂
  have hlocal : AgreeOff gdtr.toNat (gdtr.toNat + 10) m₁ m₂ :=
    storeFields_agreeOff.mono (Nat.le_refl _) (Nat.le_refl _)
  set c₂ : Cpu := { c with mem := m₂ } with hc₂
  -- the call of `gdt_flush`: its arguments and the return address
  obtain ⟨c₃, hargs, hrdi, hrsi, hrdx, hrsp, htop, hcs₃, hflags₃, hcall, hregs₃⟩ :=
    gdtFlushCall_spec (c := c₂) s gdtr flush next (show 8 ≤ c.rsp.toNat by omega)
  have hrsp₂ : c₂.rsp = c.rsp := rfl
  rw [hrsp₂] at hrsp hcall
  have hoffStack : ∀ x, gdt.toNat ≤ x → x < gdt.toNat + gdtTableSize →
      x < c.rsp.toNat - 24 ∨ c.rsp.toNat ≤ x := by
    intro x hlo hhi
    by_contra hin
    exact (hstack x (by omega) (by omega)).1 (.inl ⟨hlo, hhi⟩)
  -- neither `gdtr` nor the stack overlaps the tables
  have hkeep : ∀ x, gdt.toNat ≤ x → x < gdt.toNat + gdtTableSize → c₃.mem x = m₁ x := by
    intro x hlo hhi
    have hstk := hoffStack x hlo hhi
    rw [hcall x (by omega)]
    refine hlocal x ?_
    by_contra hin
    exact hgdtr x ⟨by omega, by omega⟩ (.inl ⟨hlo, hhi⟩)
  have htable : tableRegisterAt c₃.mem gdtr.toNat =
      ⟨BitVec.ofNat 16 (gdtTableSize - 1), gdt⟩ := by
    have hbytes : ∀ x, gdtr.toNat ≤ x → x < gdtr.toNat + 10 → c₃.mem x = m₂ x := by
      intro x hlo hhi
      refine hcall x ?_
      by_contra hin
      exact (hstack x (by omega) (by omega)).2 ⟨hlo, hhi⟩
    exact (tableRegisterAt_congr hbytes).trans (tableRegisterAt_storeFields _ _ _ _)
  -- with `gdtr` loaded, the selectors read the entries just written
  have hloaded :
      GdtLoaded { s with gdtr := ⟨BitVec.ofNat 16 (gdtTableSize - 1), gdt⟩ } c₃.mem gdt :=
    ⟨rfl, hentries.congr (fun x hlo hhi => hkeep x hlo (by unfold gdtTableSize; omega))⟩
  obtain ⟨p', hrun, hsys, hcs, hss, hrip, hrsp', hrflags, hagree, hregs⟩ :=
    @gdtFlush_spec ⟨c₃, s⟩ _ _ (0x08 : Selector) (0x10 : Selector) here (by
      show c₃.cs.toNat % 4 = 0
      rw [hcs₃]
      exact hlevel) (by rw [hrdi, htable]) (by rw [hrdx]; rfl) (by rw [hrsi]; rfl)
      hloaded.kernelData rfl hloaded.stackForKernel hloaded.returnsToKernel rfl
      (by show 16 ≤ c₃.rsp.toNat; omega)
      (fun x hlo hhi => by
        have hlimit : x ≤ gdt.toNat + (gdtTableSize - 1) := hhi
        have hstk := hoffStack x hlo (by unfold gdtTableSize at hlimit ⊢; omega)
        show x < c₃.rsp.toNat - 16 ∨ c₃.rsp.toNat ≤ x
        omega)
  dsimp only at hrip hrsp' hrflags hagree hregs
  have hkeep' : ∀ x, gdt.toNat ≤ x → x < gdt.toNat + gdtTableSize → p'.cpu.mem x = m₁ x := by
    intro x hlo hhi
    have hstk := hoffStack x hlo hhi
    rw [hagree x (by omega)]
    exact hkeep x hlo hhi
  have hgdtr' : p'.sys.gdtr = ⟨BitVec.ofNat 16 (gdtTableSize - 1), gdt⟩ := by rw [hsys]
  have hlevel' : p'.cpu.level = 0 := by
    rw [Cpu.level, hcs]
    rfl
  -- `ltr` marks the task state segment busy, in its descriptor and nowhere else
  obtain ⟨q, htask, hqgdtr, hqbase, hqlimit, m₃, hqcpu, hmark⟩ := loadTask_spec hgdtr'
    (htssEntry.congr (fun x hlo hhi => hkeep' x (by omega) (by unfold gdtTableSize; omega)))
  have hqmem : q.cpu.mem = m₃ := by rw [hqcpu]
  have hback : q.cpu.rsp = c.rsp := by
    have hlt := c.rsp.isLt
    rw [hqcpu, show ({ p'.cpu with mem := m₃ } : Cpu).rsp = p'.cpu.rsp from rfl, hrsp']
    refine BitVec.eq_of_toNat_eq ?_
    rw [BitVec.toNat_add, hrsp, show (8 : Word).toNat = 8 from rfl]
    omega
  refine ⟨q, ?_, ⟨⟨hqgdtr.trans hgdtr', hentries.congr (fun x hlo hhi => ?_)⟩, hqbase, hqlimit⟩,
    ?_, ?_, ?_, hback, ?_, fun r hr => ?_, fun x hx => ?_⟩
  · have hltr : SysInstr.exec p' (.ltr (gdtTss.setWidth 16)) =
        p'.loadTask (gdtTss.setWidth 16) := by
      simp only [SysInstr.exec]
      rw [if_pos hlevel']
    unfold gdtInit
    rw [SysInstr.execAll_append, SysInstr.execAll_append, hargs, Option.bind_some, hrun,
      Option.bind_some, SysInstr.execAll_cons, hltr, htask]
    rfl
  · rw [hqmem, hmark x (.inl (by omega))]
    exact hkeep' x hlo (by unfold gdtTableSize; omega)
  · rw [hqcpu]
    exact hcs
  · rw [hqcpu]
    exact hss
  · rw [hqcpu]
    exact hrip.trans htop
  · rw [hqcpu]
    exact hrflags.trans hflags₃
  · by_cases hsp : r = .rsp
    · subst hsp
      exact hback
    · rw [hqcpu]
      simp only [List.mem_cons, List.not_mem_nil, or_false, not_or] at hr
      refine (hregs r hr.1 hr.2.1 hsp).trans (hregs₃ r ?_)
      simp [hsp, hr]
  · rw [not_or, not_or] at hx
    have hout : x < gdt.toNat + 45 ∨ gdt.toNat + 46 ≤ x := by
      by_contra hin
      exact hx.1 (.inl ⟨by omega, by unfold gdtTableSize; omega⟩)
    have hlocalOut : x < gdtr.toNat ∨ gdtr.toNat + 10 ≤ x := by
      by_contra hin
      exact hx.2.1 ⟨by omega, by omega⟩
    rw [hqmem, hmark x hout, hagree x (by omega), hcall x (by omega)]
    exact (hlocal x hlocalOut).trans (htables x hx.1)

end QuinKernel
