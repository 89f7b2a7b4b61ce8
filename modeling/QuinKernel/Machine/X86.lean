import QuinKernel.Machine.Memory

/-!
# A 64-bit x86 (L0 framework)

The instructions that hand-written switch code is made of, and what the
processor does when it delivers an interrupt in 64-bit mode: align the stack,
push `SS`, `RSP`, `RFLAGS`, `CS` and `RIP`, and mask interrupts. `iretq` undoes
it.

Stack contents are lists of words, lowest address first (`Holds`). A row of
pushes stores its words in reverse (`pushAll_spec`), a row of pops reads them
back in order (`pops_spec`).
-/

namespace QuinKernel.Machine

inductive Reg
  | rax | rbx | rcx | rdx | rsi | rdi | rbp | rsp
  | r8 | r9 | r10 | r11 | r12 | r13 | r14 | r15
  deriving DecidableEq

/-- The general registers, the others that a switch moves, and memory. -/
structure Cpu where
  regs : Reg → Word
  rip : Word
  rflags : Word
  cs : Word
  ss : Word
  mem : Mem

inductive Instr
  | push (src : Reg)
  | pushImm (w : Word)
  | pop (dst : Reg)
  | mov (src dst : Reg)
  /-- `mov %src, (%base)`. -/
  | store (src base : Reg)
  | addImm (w : Word) (dst : Reg)
  | jmp (target : Word)
  /-- A call; `next` is the address of the instruction after it. -/
  | call (target next : Word)
  | callReg (target : Reg) (next : Word)
  | ret
  | iretq
  | sti

namespace Cpu

/-- The stack pointer. -/
def rsp (c : Cpu) : Word := c.regs .rsp

def set (c : Cpu) (r : Reg) (w : Word) : Cpu := { c with regs := Function.update c.regs r w }

/-- Push a word. -/
def push (c : Cpu) (w : Word) : Cpu :=
  { c.set .rsp (c.rsp - 8) with mem := store64 c.mem (c.rsp - 8).toNat w }

/-- The word `n` words above the stack pointer. -/
def stackWord (c : Cpu) (n : Nat) : Word := load64 c.mem (c.rsp.toNat + 8 * n)

/-- Leave the top word of the stack. -/
def drop (c : Cpu) : Cpu := c.set .rsp (c.rsp + 8)

/-- Push words, the first first. -/
def pushAll (c : Cpu) (ws : List Word) : Cpu := ws.foldl push c

end Cpu

/-- `IF`. -/
def flagIf : Word := 0x200

/-- `CF`, `PF`, `AF`, `ZF`, `SF` and `OF`. -/
def arithmeticFlags : Word := 0x8d5

/-- `RFLAGS` after adding `w` to `a`. -/
def addFlags (rflags a w : Word) : Word :=
  let sum := a + w
  let flag (k : Nat) (b : Bool) : Word := if b then 1 <<< k else 0
  (rflags &&& ~~~arithmeticFlags) ||| flag 0 (decide (sum < a)) |||
    flag 2 (((List.range 8).filter sum.getLsbD).length % 2 == 0) |||
    flag 4 ((a ^^^ w ^^^ sum).getLsbD 4) ||| flag 6 (sum == 0) ||| flag 7 sum.msb |||
    flag 11 ((a ^^^ sum) &&& (w ^^^ sum)).msb

/-- One instruction. Only control transfers set `rip`. -/
def Instr.exec : Instr → Cpu → Cpu
  | .push src, c => c.push (c.regs src)
  | .pushImm w, c => c.push w
  | .pop dst, c => c.drop.set dst (c.stackWord 0)
  | .mov src dst, c => c.set dst (c.regs src)
  | .store src base, c => { c with mem := store64 c.mem (c.regs base).toNat (c.regs src) }
  | .addImm w dst, c =>
      { c.set dst (c.regs dst + w) with rflags := addFlags c.rflags (c.regs dst) w }
  | .jmp target, c => { c with rip := target }
  | .call target next, c => { c.push next with rip := target }
  | .callReg target next, c => { c.push next with rip := c.regs target }
  | .ret, c => { c.drop with rip := c.stackWord 0 }
  | .iretq, c =>
      { c.set .rsp (c.stackWord 3) with
        rip := c.stackWord 0
        cs := c.stackWord 1
        rflags := c.stackWord 2
        ss := c.stackWord 4 }
  | .sti, c => { c with rflags := c.rflags ||| flagIf }

/-- Instructions in a row, with no interrupt in between. -/
def exec (code : List Instr) (c : Cpu) : Cpu := code.foldl (fun c i => i.exec c) c

/-- `TF`, `IF`, `NT`, `RF` and `VM`, which an interrupt gate clears. -/
def gateFlags : Word := 0x34300

/-- The processor delivers an interrupt through a gate to `selector:handler`,
with no change of privilege. -/
def Cpu.interrupt (c : Cpu) (selector handler : Word) : Cpu :=
  { (c.set .rsp (c.rsp &&& ~~~15)).pushAll [c.ss, c.rsp, c.rflags, c.cs, c.rip] with
    rflags := c.rflags &&& ~~~gateFlags
    cs := selector
    rip := handler }

/-- The words at `a`, lowest address first. -/
def Holds (m : Mem) : Nat → List Word → Prop
  | _, [] => True
  | a, w :: ws => load64 m a = w ∧ Holds m (a + 8) ws

/-! ## Words in memory -/

section Holds

variable {m m' : Mem} {a : Nat} {ws vs : List Word}

theorem Holds.congr (h : Holds m a ws)
    (hm : ∀ x, a ≤ x → x < a + 8 * ws.length → m' x = m x) : Holds m' a ws := by
  induction ws generalizing a with
  | nil => trivial
  | cons w ws ih =>
      rw [List.length_cons] at hm
      refine ⟨?_, ih h.2 (fun x hlo hhi => hm x (by omega) (by omega))⟩
      rw [load64_congr (fun x hlo hhi => hm x hlo (by omega))]
      exact h.1

theorem holds_cons {w : Word} :
    Holds m a (w :: ws) ↔ load64 m a = w ∧ Holds m (a + 8) ws := Iff.rfl

theorem holds_append : Holds m a (ws ++ vs) ↔ Holds m a ws ∧ Holds m (a + 8 * ws.length) vs := by
  induction ws generalizing a with
  | nil => simp [Holds]
  | cons w ws ih =>
      have hnext : a + 8 + 8 * ws.length = a + 8 * (ws.length + 1) := by omega
      rw [List.cons_append, Holds, Holds, ih, List.length_cons, hnext, and_assoc]

end Holds

/-! ## Registers -/

namespace Cpu

variable {c : Cpu} {r : Reg} {w : Word}

@[simp] theorem set_mem : (c.set r w).mem = c.mem := rfl
@[simp] theorem set_rip : (c.set r w).rip = c.rip := rfl
@[simp] theorem set_rflags : (c.set r w).rflags = c.rflags := rfl
@[simp] theorem set_self : (c.set r w).regs r = w := by simp [set]

theorem set_other {q : Reg} (h : q ≠ r) : (c.set r w).regs q = c.regs q := by
  simp [set, h]

end Cpu

/-! ## Rows of pushes and pops -/

section Rows

variable {c : Cpu} {ws : List Word} {rs : List Reg}

/-- Everything but the stack pointer and memory. -/
structure SameBut (c c' : Cpu) : Prop where
  regs : ∀ r, r ≠ .rsp → c'.regs r = c.regs r
  rip : c'.rip = c.rip
  rflags : c'.rflags = c.rflags

theorem SameBut.refl (c : Cpu) : SameBut c c := ⟨fun _ _ => rfl, rfl, rfl⟩

/-- **A row of pushes** leaves its words on the stack in reverse, and touches
nothing else. -/
theorem pushAll_spec (c : Cpu) (ws : List Word) (hroom : 8 * ws.length ≤ c.rsp.toNat) :
    (c.pushAll ws).rsp.toNat = c.rsp.toNat - 8 * ws.length ∧
    Holds (c.pushAll ws).mem (c.rsp.toNat - 8 * ws.length) ws.reverse ∧
    AgreeOff (c.rsp.toNat - 8 * ws.length) c.rsp.toNat c.mem (c.pushAll ws).mem ∧
    SameBut c (c.pushAll ws) := by
  induction ws generalizing c with
  | nil => exact ⟨rfl, trivial, AgreeOff.refl _ _ _, .refl c⟩
  | cons w ws ih =>
      rw [List.length_cons] at hroom ⊢
      have hsp : (c.push w).rsp.toNat = c.rsp.toNat - 8 := by
        show (c.set .rsp (c.rsp - 8)).rsp.toNat = c.rsp.toNat - 8
        rw [Cpu.rsp, Cpu.set_self, BitVec.toNat_sub_of_le (BitVec.le_def.mpr ?_)]
        · rfl
        · show 8 ≤ c.rsp.toNat
          omega
      obtain ⟨hrsp, hholds, hagree, hsame⟩ := ih (c.push w) (by omega)
      rw [hsp] at hrsp hholds hagree
      have hlow : c.rsp.toNat - 8 - 8 * ws.length = c.rsp.toNat - 8 * (ws.length + 1) := by omega
      rw [hlow] at hrsp hholds hagree
      have hstored : (c.push w).mem = store64 c.mem (c.rsp.toNat - 8) w := by
        rw [← hsp]
        rfl
      refine ⟨hrsp, ?_, ?_, ?_⟩
      · show Holds ((c.push w).pushAll ws).mem _ (w :: ws).reverse
        rw [List.reverse_cons, holds_append, List.length_reverse]
        refine ⟨hholds, ?_, trivial⟩
        rw [show c.rsp.toNat - 8 * (ws.length + 1) + 8 * ws.length = c.rsp.toNat - 8 by omega,
          hagree.load64 (.inr (Nat.le_refl _)), hstored]
        exact load64_store64 _ _ _
      · intro x hx
        show ((c.push w).pushAll ws).mem x = c.mem x
        rw [hagree x (by omega), hstored]
        exact store64_other _ _ (by omega)
      · refine ⟨fun r hr => ?_, hsame.rip, hsame.rflags⟩
        exact (hsame.regs r hr).trans (Cpu.set_other hr)

theorem exec_append (p q : List Instr) (c : Cpu) : exec (p ++ q) c = exec q (exec p c) :=
  List.foldl_append

theorem exec_snoc (p : List Instr) (i : Instr) (c : Cpu) : exec (p ++ [i]) c = i.exec (exec p c) :=
  exec_append p [i] c

/-- Pushing registers pushes what they hold. -/
theorem exec_pushes (hrs : .rsp ∉ rs) : exec (rs.map .push) c = c.pushAll (rs.map c.regs) := by
  induction rs generalizing c with
  | nil => rfl
  | cons r rs ih =>
      rw [List.mem_cons, not_or] at hrs
      have hkeep : rs.map (c.push (c.regs r)).regs = rs.map c.regs := by
        refine List.map_congr_left (fun q hq => Cpu.set_other ?_)
        rintro rfl
        exact hrs.2 hq
      show exec (rs.map .push) (c.push (c.regs r)) = (c.push (c.regs r)).pushAll (rs.map c.regs)
      rw [ih hrs.2, hkeep]

theorem pushAll_cons (c : Cpu) (w : Word) (ws : List Word) :
    c.pushAll (w :: ws) = (c.push w).pushAll ws := rfl

theorem pushAll_append (c : Cpu) (ws vs : List Word) :
    c.pushAll (ws ++ vs) = (c.pushAll ws).pushAll vs := List.foldl_append

theorem pushAll_setRip (c : Cpu) (rip : Word) (ws : List Word) :
    Cpu.pushAll { c with rip := rip } ws = { c.pushAll ws with rip := rip } := by
  induction ws generalizing c with
  | nil => rfl
  | cons w ws ih =>
      rw [pushAll_cons, pushAll_cons]
      exact ih (c.push w)

/-- A routine that is called and pushes registers. -/
theorem exec_call_pushes (target next : Word) (hrs : .rsp ∉ rs) :
    exec (.call target next :: rs.map .push) c =
      { c.pushAll (next :: rs.map c.regs) with rip := target } := by
  have hkeep : rs.map (c.push next).regs = rs.map c.regs :=
    List.map_congr_left (fun r hr => Cpu.set_other (fun h => hrs (h ▸ hr)))
  show exec (rs.map .push) ({ c.push next with rip := target } : Cpu) = _
  rw [exec_pushes hrs, pushAll_setRip, pushAll_cons]
  show ({ (c.push next).pushAll (rs.map (c.push next).regs) with rip := target } : Cpu) = _
  rw [hkeep]

/-- A pop reads the top word. -/
theorem pop_spec {r : Reg} {w : Word} (hr : r ≠ .rsp) (htop : load64 c.mem c.rsp.toNat = w)
    (hfit : c.rsp.toNat + 8 < 2 ^ 64) :
    ((Instr.pop r).exec c).regs r = w ∧ ((Instr.pop r).exec c).rsp.toNat = c.rsp.toNat + 8 ∧
    (∀ q, q ≠ r → q ≠ .rsp → ((Instr.pop r).exec c).regs q = c.regs q) := by
  refine ⟨?_, ?_, fun q hq hqsp => ?_⟩
  · show (c.drop.set r (c.stackWord 0)).regs r = w
    rw [Cpu.set_self]
    exact htop
  · show ((c.drop.set r (c.stackWord 0)).regs .rsp).toNat = c.rsp.toNat + 8
    rw [Cpu.set_other hr.symm, Cpu.drop, Cpu.set_self, BitVec.toNat_add]
    exact Nat.mod_eq_of_lt hfit
  · show (c.drop.set r (c.stackWord 0)).regs q = c.regs q
    rw [Cpu.set_other hq]
    exact Cpu.set_other hqsp

@[simp] theorem ret_mem (c : Cpu) : (Instr.ret.exec c).mem = c.mem := rfl

theorem ret_rsp (c : Cpu) : (Instr.ret.exec c).rsp = c.rsp + 8 := by
  show (c.set .rsp (c.rsp + 8)).regs .rsp = c.rsp + 8
  exact Cpu.set_self

theorem ret_other (c : Cpu) {q : Reg} (hq : q ≠ .rsp) : (Instr.ret.exec c).regs q = c.regs q := by
  show (c.set .rsp (c.rsp + 8)).regs q = c.regs q
  exact Cpu.set_other hq

theorem addImm_self (c : Cpu) (w : Word) (r : Reg) :
    ((Instr.addImm w r).exec c).regs r = c.regs r + w := by
  show (c.set r (c.regs r + w)).regs r = c.regs r + w
  exact Cpu.set_self

theorem pops_mem (c : Cpu) (rs : List Reg) : (exec (rs.map .pop) c).mem = c.mem := by
  induction rs generalizing c with
  | nil => rfl
  | cons r rs ih => exact ih ((Instr.pop r).exec c)

/-- **A row of pops** reads its words in order. -/
theorem pops_spec (hrs : .rsp ∉ rs) (hnodup : rs.Nodup) (hlen : ws.length = rs.length)
    (hholds : Holds c.mem c.rsp.toNat ws) (hfit : c.rsp.toNat + 8 * rs.length < 2 ^ 64) :
    rs.map (exec (rs.map .pop) c).regs = ws ∧
    (exec (rs.map .pop) c).rsp.toNat = c.rsp.toNat + 8 * rs.length ∧
    ∀ q, q ∉ rs → q ≠ .rsp → (exec (rs.map .pop) c).regs q = c.regs q := by
  induction rs generalizing c ws with
  | nil =>
      obtain rfl := List.length_eq_zero_iff.mp hlen
      exact ⟨rfl, rfl, fun _ _ _ => rfl⟩
  | cons r rs ih =>
      obtain ⟨w, ws, rfl⟩ := List.exists_cons_of_length_eq_add_one hlen
      rw [List.mem_cons, not_or] at hrs
      rw [List.nodup_cons] at hnodup
      rw [List.length_cons] at hfit ⊢
      obtain ⟨hread, hsp, hkept⟩ := pop_spec (fun h => hrs.1 h.symm) hholds.1 (by omega)
      set c₁ := (Instr.pop r).exec c with hc₁
      have hmem : c₁.mem = c.mem := rfl
      obtain ⟨hmap, hrsp, hother⟩ := ih (c := c₁) hrs.2 hnodup.2
        (Nat.succ.inj hlen) (by rw [hmem, hsp]; exact hholds.2) (by omega)
      show (r :: rs).map (exec (rs.map .pop) c₁).regs = w :: ws ∧
        (exec (rs.map .pop) c₁).rsp.toNat = _ ∧ _
      refine ⟨?_, by omega, fun q hq hqsp => ?_⟩
      · rw [List.map_cons, hmap, hother r hnodup.1 (fun h => hrs.1 h.symm), hread]
      · rw [List.mem_cons, not_or] at hq
        exact (hother q hq.2 hqsp).trans (hkept q hq.1 hqsp)

/-- A row of pops and a return. -/
theorem pops_ret_spec {w : Word} (hrs : .rsp ∉ rs) (hnodup : rs.Nodup) (hlen : ws.length = rs.length)
    (hholds : Holds c.mem c.rsp.toNat (ws ++ [w]))
    (hfit : c.rsp.toNat + 8 * rs.length + 8 < 2 ^ 64) :
    rs.map (Instr.ret.exec (exec (rs.map .pop) c)).regs = ws ∧
    (Instr.ret.exec (exec (rs.map .pop) c)).rip = w ∧
    (Instr.ret.exec (exec (rs.map .pop) c)).rsp.toNat = c.rsp.toNat + 8 * rs.length + 8 := by
  obtain ⟨hwords, hret, -⟩ := holds_append.mp hholds
  obtain ⟨hmap, hrsp, -⟩ := pops_spec hrs hnodup hlen hwords (by omega)
  refine ⟨?_, ?_, ?_⟩
  · rw [← hmap]
    exact List.map_congr_left (fun r hr => ret_other _ (fun h => hrs (h ▸ hr)))
  · show load64 (exec (rs.map .pop) c).mem ((exec (rs.map .pop) c).rsp.toNat + 8 * 0) = w
    rw [pops_mem, hrsp, ← hlen]
    exact hret
  · show ((exec (rs.map .pop) c).drop.regs .rsp).toNat = _
    rw [Cpu.drop, Cpu.set_self, BitVec.toNat_add, hrsp]
    exact Nat.mod_eq_of_lt hfit

/-! ## Interrupts -/

/-- The words of an interrupt frame, lowest address first. -/
def Cpu.frameWords (c : Cpu) : List Word := [c.rip, c.cs, c.rflags, c.rsp, c.ss]

/-- **Delivery** pushes the frame below the aligned stack pointer and masks
interrupts. -/
theorem interrupt_spec (selector handler : Word) (hroom : 40 ≤ c.rsp.toNat / 16 * 16) :
    (c.interrupt selector handler).rsp.toNat = c.rsp.toNat / 16 * 16 - 40 ∧
    Holds (c.interrupt selector handler).mem (c.rsp.toNat / 16 * 16 - 40) c.frameWords ∧
    AgreeOff (c.rsp.toNat / 16 * 16 - 40) (c.rsp.toNat / 16 * 16) c.mem
      (c.interrupt selector handler).mem ∧
    ∀ r, r ≠ .rsp → (c.interrupt selector handler).regs r = c.regs r := by
  have halign : (c.set .rsp (c.rsp &&& ~~~15)).rsp.toNat = c.rsp.toNat / 16 * 16 := by
    rw [Cpu.rsp, Cpu.set_self]
    exact toNat_and_not_mask c.rsp 4
  obtain ⟨hrsp, hholds, hagree, hsame⟩ := pushAll_spec
    (c.set .rsp (c.rsp &&& ~~~15)) [c.ss, c.rsp, c.rflags, c.cs, c.rip]
    (by rw [halign]; exact hroom)
  rw [halign] at hrsp hholds hagree
  exact ⟨hrsp, hholds, hagree, fun r hr => (hsame.regs r hr).trans (Cpu.set_other hr)⟩

/-- **`iretq`** takes everything in the frame back. -/
theorem iretq_spec {f : Cpu} (hframe : Holds c.mem c.rsp.toNat f.frameWords) :
    (Instr.iretq.exec c).rip = f.rip ∧ (Instr.iretq.exec c).rflags = f.rflags ∧
    (Instr.iretq.exec c).rsp = f.rsp ∧
    ∀ r, r ≠ .rsp → (Instr.iretq.exec c).regs r = c.regs r := by
  obtain ⟨hrip, -, hrflags, hrsp, -⟩ := hframe
  refine ⟨hrip, hrflags, ?_, fun r hr => ?_⟩
  · show (c.set .rsp (c.stackWord 3)).regs .rsp = f.rsp
    rw [Cpu.set_self]
    exact hrsp
  · show (c.set .rsp (c.stackWord 3)).regs r = c.regs r
    exact Cpu.set_other hr

end Rows

end QuinKernel.Machine
