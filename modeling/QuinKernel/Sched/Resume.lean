import QuinKernel.Sched.ContextSwitch

/-!
# Threads resume where they stopped

A thread that is not running is in `context_switch`, or new. `Resumable` says
what its stack then holds. A thread that took an interrupt and has not returned
from it is in a handler; `Interrupted` relates the state it was in to the state
it is in now, wherever it has got to: in `isr_dispatch`, with the whole frame
on the stack, or on the way out of `isr_common_stub`, with some registers
back and the rest still in the frame. Interrupts nest, since that way out can be
interrupted itself: `Context` strings the states of one thread together, each
with the memory it saw. What lies above a thread's stack pointer does not change
while it is away, and that is all its later steps depend on (`Context.congr`).
-/

namespace QuinKernel

open Machine

/-! ## The routines -/

/-- The registers `context_switch` saves, in the order it pops them. -/
def savedRegs : List Reg := [.r15, .r14, .r13, .r12, .rbx, .rbp]

/-- What `context_switch` leaves on the stack it switches from. -/
def savedWords (call : Cpu) (ret : Word) : List Word := savedRegs.map call.regs ++ [ret]

section Routines

variable {c : Cpu} {text : KernelText}

/-- The two instructions in the middle of `context_switch`. -/
theorem exchange_spec (c : Cpu) :
    (exec [.store .rsp .rdi, .mov .rsi .rsp] c).mem =
      store64 c.mem (c.regs .rdi).toNat c.rsp ∧
    (exec [.store .rsp .rdi, .mov .rsi .rsp] c).rsp = c.regs .rsi :=
  ⟨rfl, Cpu.set_self (c := { c with mem := _ })⟩

theorem contextSwitch_eq (target ret : Word) : .call target ret :: contextSwitch =
    (Instr.call target ret :: savedRegs.reverse.map Instr.push) ++
      [Instr.store .rsp .rdi, Instr.mov .rsi .rsp] ++ savedRegs.map Instr.pop ++ [Instr.ret] := rfl

/-- **`context_switch`** leaves the saved registers on the old stack and its
stack pointer where `rdi` points, and takes what `rsi` points to. -/
theorem contextSwitch_spec (target ret : Word) (hroom : 56 ≤ c.rsp.toNat) :
    ∃ (m : Mem) (sp : Word), sp.toNat = c.rsp.toNat - 56 ∧
      Holds m (c.rsp.toNat - 56) (savedWords c ret) ∧
      AgreeOff (c.rsp.toNat - 56) c.rsp.toNat c.mem m ∧
      (exec (.call target ret :: contextSwitch) c).mem = store64 m (c.regs .rdi).toNat sp ∧
      ∀ (ws : List Word) (w : Word), ws.length = 6 →
        Holds (store64 m (c.regs .rdi).toNat sp) (c.regs .rsi).toNat (ws ++ [w]) →
        (c.regs .rsi).toNat + 56 < 2 ^ 64 →
        savedRegs.map (exec (.call target ret :: contextSwitch) c).regs = ws ∧
        (exec (.call target ret :: contextSwitch) c).rip = w ∧
        (exec (.call target ret :: contextSwitch) c).rsp.toNat = (c.regs .rsi).toNat + 56 := by
  -- the pushes
  obtain ⟨hsp, hholds, hagree, hsame⟩ := pushAll_spec
    c (ret :: savedRegs.reverse.map c.regs) hroom
  have hlen : 8 * (ret :: savedRegs.reverse.map c.regs).length = 56 := rfl
  rw [hlen] at hsp hholds hagree
  have hstart : exec (.call target ret :: savedRegs.reverse.map .push) c =
      { c.pushAll (ret :: savedRegs.reverse.map c.regs) with rip := target } :=
    exec_call_pushes target ret (by decide)
  generalize c.pushAll (ret :: savedRegs.reverse.map c.regs) = pushed at *
  have hrdi : pushed.regs .rdi = c.regs .rdi := hsame.regs _ (by decide)
  have hrsi : pushed.regs .rsi = c.regs .rsi := hsame.regs _ (by decide)
  -- the exchange of stacks, then the pops
  rw [contextSwitch_eq, exec_snoc, exec_append, exec_append, hstart]
  obtain ⟨hmem, hrsp⟩ := exchange_spec { pushed with rip := target }
  generalize exec [.store .rsp .rdi, .mov .rsi .rsp] { pushed with rip := target } = moved
    at hmem hrsp ⊢
  dsimp only at hmem hrsp
  rw [hrdi] at hmem
  rw [hrsi] at hrsp
  refine ⟨pushed.mem, pushed.rsp, hsp, hholds, hagree, ?_, fun ws w hws hnew hfit => ?_⟩
  · rw [ret_mem, pops_mem]
    exact hmem
  · have hnew' : Holds moved.mem moved.rsp.toNat (ws ++ [w]) := by
      rw [hmem, hrsp]
      exact hnew
    rw [← hrsp] at hfit ⊢
    exact pops_ret_spec (by decide) (by decide) hws hnew' hfit

/-- The registers of an interrupt, pushed onto what the processor and the stub
have pushed. -/
theorem pushedRegs_eq {d : Cpu} (vector : Word) : exec (irqStub vector ++ pushedRegs.map .push) d =
    d.pushAll ([0, vector] ++ pushedRegs.map d.regs) := by
  have hkeep : pushedRegs.map (d.pushAll [0, vector]).regs = pushedRegs.map d.regs := by
    refine List.map_congr_left (fun r hr => ?_)
    have hr' : r ≠ .rsp := fun h => absurd (h ▸ hr) (by decide)
    exact (Cpu.set_other hr').trans (Cpu.set_other hr')
  rw [exec_append, pushAll_append, ← hkeep]
  exact exec_pushes (c := d.pushAll [0, vector]) (by decide)

/-- The last two instructions of the way in. -/
theorem callDispatch_spec {g : Cpu} (hroom : 8 ≤ g.rsp.toNat)
    (hc : exec [.mov .rsp .rdi, .call text.isrDispatch (text.address (.exit 0))] g = c) :
    c.rip = text.isrDispatch ∧ c.rsp.toNat = g.rsp.toNat - 8 ∧
    load64 c.mem (g.rsp.toNat - 8) = text.address (.exit 0) ∧
    AgreeOff (g.rsp.toNat - 8) g.rsp.toNat g.mem c.mem := by
  have hkeep : (g.set .rdi (g.regs .rsp)).rsp = g.rsp := Cpu.set_other (by decide)
  obtain ⟨hsp, hholds, hagree, -⟩ := pushAll_spec (g.set .rdi (g.regs .rsp))
    [text.address (.exit 0)] (by rw [hkeep]; exact hroom)
  rw [hkeep] at hsp hholds hagree
  subst hc
  exact ⟨rfl, hsp, hholds.1, hagree⟩

/-- **The way into `isr_dispatch`**: the frame is complete, the return address
below it, and nothing above the interrupted stack pointer has changed. -/
theorem isrEntry_spec {f : Cpu} {vector : Word} (hroom : 184 ≤ f.rsp.toNat / 16 * 16)
    (hc : exec (irqStub vector ++ isrCommonStub text)
      (f.interrupt gdtKernelCode (text.irqStub vector)) = c) :
    c.rip = text.isrDispatch ∧ c.rsp.toNat + 8 = frameBase f ∧
    Holds c.mem (frameBase f - 8) (text.address (.exit 0) :: poppedRegs.map f.regs) ∧
    Holds c.mem (frameBase f + 136) f.frameWords ∧
    AgreeOff (frameBase f - 8) (f.rsp.toNat / 16 * 16) f.mem c.mem := by
  obtain ⟨hsp₁, hframe, hagree₁, hregs⟩ := interrupt_spec gdtKernelCode (text.irqStub vector)
    (c := f) (by omega)
  generalize f.interrupt gdtKernelCode (text.irqStub vector) = d at hsp₁ hframe hagree₁ hregs hc
  have hsaved : pushedRegs.map d.regs = pushedRegs.map f.regs :=
    List.map_congr_left (fun r hr => hregs r (fun h => absurd (h ▸ hr) (by decide)))
  have hbase : f.rsp.toNat / 16 * 16 = frameBase f + 176 := by
    unfold frameBase
    omega
  rw [hbase] at hroom hsp₁ hframe hagree₁ ⊢
  obtain ⟨hsp₂, hholds, hagree₂, -⟩ := pushAll_spec
    d ([0, vector] ++ pushedRegs.map f.regs)
    (by rw [hsp₁]; show 136 ≤ _; omega)
  have hlen : 8 * ([0, vector] ++ pushedRegs.map f.regs).length = 136 := rfl
  have hlow : frameBase f + 176 - 40 - 136 = frameBase f := by omega
  rw [hlen, hsp₁, hlow] at hsp₂ hholds hagree₂
  rw [List.reverse_append, ← List.map_reverse,
    show pushedRegs.reverse = poppedRegs from rfl] at hholds
  rw [isrCommonStub, ← List.append_assoc, exec_append, pushedRegs_eq, hsaved] at hc
  generalize d.pushAll ([0, vector] ++ pushedRegs.map f.regs) = g at hsp₂ hholds hagree₂ hc
  obtain ⟨hrip, hsp₃, hret, hagree₃⟩ := callDispatch_spec (by omega) hc
  rw [hsp₂] at hsp₃ hret hagree₃
  have hkept : ∀ x, frameBase f ≤ x → c.mem x = g.mem x := fun x hx => hagree₃ x (by omega)
  obtain ⟨hsaved, -⟩ := holds_append.mp hholds
  replace hsaved := hsaved.congr (fun x hx _ => hkept x hx)
  rw [← show frameBase f - 8 + 8 = frameBase f by omega] at hsaved
  refine ⟨hrip, by omega, holds_cons.mpr ⟨hret, hsaved⟩, ?_, fun x hx => ?_⟩
  · rw [show frameBase f + 176 - 40 = frameBase f + 136 by omega] at hframe hagree₁ hagree₂
    refine hframe.congr (fun x hx _ => ?_)
    rw [hkept x (by omega), hagree₂ x (by omega)]
  · rw [hagree₃ x (by omega), hagree₂ x (by omega), hagree₁ x (by omega)]

/-- **`thread_create`** pushes the words `context_switch` pops, and stores the
stack pointer. -/
theorem threadCreate_spec {c' : Cpu} {stack cell entry arg : Word}
    (hfit : stack.toNat + 16384 < 2 ^ 64)
    (hc' : threadCreate text c stack cell entry arg = c') :
    c'.regs = c.regs ∧ c'.rip = c.rip ∧ ∃ (m : Mem) (sp : Word), c'.mem = store64 m cell.toNat sp ∧
      sp.toNat = stack.toNat + 16384 - 56 ∧
      Holds m (stack.toNat + 16384 - 56) (freshWords text entry arg).reverse ∧
      AgreeOff (stack.toNat + 16384 - 56) (stack.toNat + 16384) c.mem m := by
  unfold threadCreate at hc'
  dsimp only at hc'
  have htop : (stack + threadStackPages * pageSize).toNat = stack.toNat + 16384 := by
    have hsize : (threadStackPages * pageSize).toNat = 16384 := by decide
    rw [BitVec.toNat_add, hsize]
    exact Nat.mod_eq_of_lt hfit
  generalize stack + threadStackPages * pageSize = top at htop hc'
  have hrsp : (c.set .rsp top).rsp = top := Cpu.set_self
  obtain ⟨hsp, hholds, hagree, -⟩ := pushAll_spec (c.set .rsp top)
    (freshWords text entry arg) (by rw [hrsp, htop]; show 56 ≤ _; omega)
  have hlen : 8 * (freshWords text entry arg).length = 56 := rfl
  rw [hlen, hrsp, htop] at hsp hholds hagree
  generalize (c.set .rsp top).pushAll (freshWords text entry arg) = built at hsp hholds hagree hc'
  subst hc'
  exact ⟨rfl, rfl, built.mem, built.rsp, rfl, hsp, hholds, hagree⟩

end Routines

/-! ## A thread and its interrupts -/

/-- In `isr_dispatch`, called for an interrupt in state `f`: the stack below is
in use, the return address and the frame are intact. -/
structure InDispatch (text : KernelText) (f c : Cpu) : Prop where
  below : c.rsp.toNat + 8 ≤ frameBase f
  regs : Holds c.mem (frameBase f - 8) (text.address (.exit 0) :: poppedRegs.map f.regs)
  frame : Holds c.mem (frameBase f + 136) f.frameWords

/-- The stack pointer on the way out, after `j` instructions. -/
def exitSp (f : Cpu) (j : Fin 17) : Nat :=
  frameBase f + if (j : Nat) = 16 then 136 else 8 * (j : Nat)

/-- On the way out of `isr_common_stub`, `j` instructions done: so many registers
are back, the others still in the frame. -/
structure AtExit (f c : Cpu) (j : Fin 17) : Prop where
  rsp : c.rsp.toNat = exitSp f j
  done : ∀ r ∈ poppedRegs.take j, c.regs r = f.regs r
  regs : Holds c.mem (frameBase f + 8 * j) ((poppedRegs.drop j).map f.regs)
  frame : Holds c.mem (frameBase f + 136) f.frameWords

/-- The thread in state `c` was interrupted in state `f`, and has not returned
from the handler; its stack reaches from `lo` up to `hi`. -/
structure Interrupted (text : KernelText) (lo hi : Nat) (f c : Cpu) : Prop where
  room : lo + 184 ≤ f.rsp.toNat / 16 * 16
  top : f.rsp.toNat ≤ hi
  above : ∀ x, f.rsp.toNat ≤ x → x < hi → c.mem x = f.mem x
  dispatch : text.Compiled c.rip → InDispatch text f c
  exit : ∀ j, c.rip = text.address (.exit j) → AtExit f c j
  trampoline : ∀ k, c.rip ≠ text.address (.trampoline k)

/-- The thread in state `c` is in no handler. In `thread_trampoline` it has what
`thread_create` gave it, at the top of its stack. -/
structure Outside (text : KernelText) (hi : Nat) (created : Option (Word × Word)) (c : Cpu) :
    Prop where
  exit : ∀ j, c.rip ≠ text.address (.exit j)
  trampoline : ∀ k, c.rip = text.address (.trampoline k) → ∃ entry arg,
    created = some (entry, arg) ∧ text.Compiled entry ∧ c.regs .r12 = entry ∧
    c.regs .r13 = arg ∧ c.rsp.toNat = hi ∧ hi % 16 = 0 ∧ (k = 2 → c.regs .rdi = arg)

/-- The states a thread was interrupted in, the last first, and the state it is in. -/
def Context (text : KernelText) (lo hi : Nat) (created : Option (Word × Word)) :
    List Cpu → Cpu → Prop
  | [], c => Outside text hi created c
  | f :: fs, c => Context text lo hi created fs f ∧ Interrupted text lo hi f c

section Contexts

variable {text : KernelText} {lo hi : Nat} {created : Option (Word × Word)} {f c c' : Cpu}
  {fs : List Cpu} {j : Fin 17}

/-- Code is compiled, or at one of the places. -/
theorem compiled_or (text : KernelText) (rip : Word) :
    text.Compiled rip ∨ ∃ p, rip = text.address p := by
  by_cases h : ∃ p, rip = text.address p
  · exact .inr h
  · exact .inl (fun p hp => h ⟨p, hp⟩)

theorem Interrupted.of_dispatch (hroom : lo + 184 ≤ f.rsp.toNat / 16 * 16) (htop : f.rsp.toNat ≤ hi)
    (habove : ∀ x, f.rsp.toNat ≤ x → x < hi → c.mem x = f.mem x) (hrip : text.Compiled c.rip)
    (h : InDispatch text f c) : Interrupted text lo hi f c :=
  ⟨hroom, htop, habove, fun _ => h, fun _ hj => absurd hj (hrip _), fun _ => hrip _⟩

theorem Interrupted.of_exit (hroom : lo + 184 ≤ f.rsp.toNat / 16 * 16) (htop : f.rsp.toNat ≤ hi)
    (habove : ∀ x, f.rsp.toNat ≤ x → x < hi → c.mem x = f.mem x)
    (hrip : c.rip = text.address (.exit j)) (h : AtExit f c j) : Interrupted text lo hi f c := by
  refine ⟨hroom, htop, habove, fun hc => absurd hrip (hc _), fun i hexit => ?_, fun k hk => ?_⟩
  · have hsame : Place.exit j = .exit i := text.address_injective (hrip.symm.trans hexit)
    injection hsame with hji
    exact hji ▸ h
  · have hsame : Place.exit j = .trampoline k := text.address_injective (hrip.symm.trans hk)
    cases hsame

/-- The frame ends at the aligned stack pointer. -/
theorem frameBase_add (hroom : lo + 184 ≤ f.rsp.toNat / 16 * 16) :
    frameBase f + 176 = f.rsp.toNat / 16 * 16 := by
  unfold frameBase
  omega

/-- A handler runs below the interrupted stack pointer. -/
theorem Interrupted.below (h : Interrupted text lo hi f c) : c.rsp.toNat ≤ f.rsp.toNat := by
  have hbase := frameBase_add h.room
  rcases compiled_or text c.rip with hc | ⟨p, hp⟩
  · have := (h.dispatch hc).below
    omega
  · cases p with
    | exit j =>
        have hsp := (h.exit j hp).rsp
        unfold exitSp at hsp
        have hj := j.isLt
        split at hsp <;> omega
    | trampoline k => exact absurd hp (h.trampoline k)

/-- **What a thread does next depends on its registers and on the stack above its
stack pointer only.** -/
theorem Context.congr (h : Context text lo hi created fs c) (hregs : c'.regs = c.regs)
    (hrip : c'.rip = c.rip) (hmem : ∀ x, c.rsp.toNat ≤ x → x < hi → c'.mem x = c.mem x) :
    Context text lo hi created fs c' := by
  have hrsp : c'.rsp = c.rsp := congrFun hregs .rsp
  cases fs with
  | nil =>
      refine ⟨fun j => hrip ▸ h.exit j, fun k hk => ?_⟩
      rw [hregs, hrsp]
      exact h.trampoline k (hrip ▸ hk)
  | cons f fs =>
      obtain ⟨hcontext, h⟩ := h
      have hbelow := h.below
      have htop := h.top
      have hbase := frameBase_add h.room
      refine ⟨hcontext, h.room, h.top, fun x hlo hhi => ?_, fun hc => ?_, fun j hj => ?_,
        fun k => hrip ▸ h.trampoline k⟩
      · rw [hmem x (by omega) hhi]
        exact h.above x hlo hhi
      · obtain ⟨hbelow', hwords, hframe⟩ := h.dispatch (hrip ▸ hc)
        refine ⟨by rw [hrsp]; exact hbelow', hwords.congr (fun x hlo hhi => ?_),
          hframe.congr (fun x hlo hhi => ?_)⟩
        · have hlen : (text.address (.exit 0) :: poppedRegs.map f.regs).length = 16 := rfl
          exact hmem x (by omega) (by omega)
        · have hlen : f.frameWords.length = 5 := rfl
          exact hmem x (by omega) (by omega)
      · obtain ⟨hsp, hdone, hwords, hframe⟩ := h.exit j (hrip ▸ hj)
        have hlt := j.isLt
        have hlow : c.rsp.toNat ≤ frameBase f + 136 := by
          rw [hsp]
          unfold exitSp
          split <;> omega
        refine ⟨by rw [hrsp]; exact hsp, fun r hr => by rw [hregs]; exact hdone r hr,
          hwords.congr (fun x hlo hhi => ?_), hframe.congr (fun x hlo hhi => ?_)⟩
        · have hlen : ((poppedRegs.drop j).map f.regs).length = 15 - j := by
            rw [List.length_map, List.length_drop]
            rfl
          refine hmem x ?_ (by omega)
          rw [hsp]
          unfold exitSp
          split <;> omega
        · have hlen : f.frameWords.length = 5 := rfl
          exact hmem x (by omega) (by omega)

/-- Compiled code runs on, below the return address if it is a handler's. -/
theorem Context.run (h : Context text lo hi created fs c) (hc : text.Compiled c.rip)
    (hc' : text.Compiled c'.rip) (hbelow : ∀ f ∈ fs.head?, c'.rsp.toNat + 8 ≤ frameBase f)
    (hmem : ∀ f ∈ fs.head?, ∀ x, frameBase f ≤ x + 8 → x < hi → c'.mem x = c.mem x) :
    Context text lo hi created fs c' := by
  cases fs with
  | nil => exact ⟨fun j => hc' _, fun k hk => absurd hk (hc' _)⟩
  | cons f fs =>
      obtain ⟨hcontext, h⟩ := h
      have htop := h.top
      have hbase := frameBase_add h.room
      have hmem' := hmem f rfl
      obtain ⟨-, hwords, hframe⟩ := h.dispatch hc
      refine ⟨hcontext, .of_dispatch h.room h.top (fun x hlo hhi => ?_) hc'
        ⟨hbelow f rfl, hwords.congr (fun x hlo hhi => ?_), hframe.congr (fun x hlo hhi => ?_)⟩⟩
      · rw [hmem' x (by omega) hhi]
        exact h.above x hlo hhi
      · have hlen : (text.address (.exit 0) :: poppedRegs.map f.regs).length = 16 := rfl
        exact hmem' x (by omega) (by omega)
      · have hlen : f.frameWords.length = 5 := rfl
        exact hmem' x (by omega) (by omega)

/-- An interrupt is delivered. -/
theorem Context.interrupt (h : Context text lo hi created fs c) {vector : Word}
    (hroom : lo + 184 ≤ c.rsp.toNat / 16 * 16) (htop : c.rsp.toNat ≤ hi)
    (hc' : exec (irqStub vector ++ isrCommonStub text)
      (c.interrupt gdtKernelCode (text.irqStub vector)) = c') :
    Context text lo hi created (c :: fs) c' := by
  obtain ⟨hrip, hsp, hwords, hframe, hagree⟩ := isrEntry_spec (by omega) hc'
  refine ⟨h, .of_dispatch hroom htop (fun x hlo _ => ?_) (hrip ▸ text.isrDispatch_ne)
    ⟨Nat.le_of_eq hsp, hwords, hframe⟩⟩
  exact hagree x (by omega)

/-- Handlers are called on the thread's own stack. -/
theorem Context.head (h : Context text lo hi created fs c) (hc : text.Compiled c.rip) :
    ∀ f ∈ fs.head?, lo + 8 ≤ frameBase f ∧ c.rsp.toNat + 8 ≤ frameBase f := by
  intro f hf
  cases fs with
  | nil => exact absurd hf (by simp)
  | cons g fs =>
      obtain rfl : g = f := by simpa using hf
      have hroom := h.2.room
      have hbase := frameBase_add hroom
      exact ⟨by omega, (h.2.dispatch hc).below⟩

/-- Changes outside the thread's own stack. -/
theorem Context.stay (h : Context text lo hi created fs c) (hc : text.Compiled c.rip)
    (hc' : text.Compiled c'.rip) (hrsp : c'.rsp = c.rsp)
    (hmem : ∀ x, lo ≤ x → x < hi → c'.mem x = c.mem x) :
    Context text lo hi created fs c' := by
  refine h.run hc hc' (fun f hf => ?_) (fun f hf x hlo hhi => ?_)
  · rw [hrsp]
    exact (h.head hc f hf).2
  · have := (h.head hc f hf).1
    exact hmem x (by omega) hhi

/-- A thread comes back from `context_switch`. -/
theorem Context.resume (h : Context text lo hi created fs c) (hc : text.Compiled c.rip)
    (hc' : text.Compiled c'.rip) (hrsp : c'.rsp = c.rsp)
    (hmem : ∀ x, c.rsp.toNat ≤ x → x < hi → c'.mem x = c.mem x) :
    Context text lo hi created fs c' := by
  refine h.run hc hc' (fun f hf => ?_) (fun f hf x hlo hhi => ?_)
  · rw [hrsp]
    exact (h.head hc f hf).2
  · have := (h.head hc f hf).2
    exact hmem x (by omega) hhi

/-- `isr_dispatch` returns to `isr_common_stub`. -/
theorem Context.dispatchReturn (h : Context text lo hi created (f :: fs) c)
    (hc : text.Compiled c.rip) (hsp : c.rsp.toNat + 8 = frameBase f) :
    Context text lo hi created (f :: fs) (Instr.ret.exec c) := by
  obtain ⟨hcontext, h⟩ := h
  obtain ⟨-, hwords, hframe⟩ := h.dispatch hc
  rw [← hsp, Nat.add_sub_cancel] at hwords
  refine ⟨hcontext, .of_exit (j := 0) h.room h.top h.above hwords.1 ⟨?_, ?_, ?_, hframe⟩⟩
  · have hlt := f.rsp.isLt
    have hbase := frameBase_add h.room
    have height : (8 : Word).toNat = 8 := rfl
    rw [ret_rsp, BitVec.toNat_add, height, Nat.mod_eq_of_lt (by omega), hsp]
    simp [exitSp]
  · intro r hr
    exact absurd hr (by simp)
  · show Holds c.mem (frameBase f + 8 * 0) (poppedRegs.map f.regs)
    rw [← hsp]
    exact hwords.2

/-- The first fifteen instructions on the way out. -/
theorem instrAt_pop (text : KernelText) (j : Fin 17) (hj : (j : Nat) < 15) :
    text.instrAt (.exit j) = .pop (poppedRegs.get ⟨j, hj⟩) := by
  have hlen : (j : Nat) < (poppedRegs.map Instr.pop).length := hj
  show isrCommonStubExit[(j : Nat)] = _
  unfold isrCommonStubExit
  rw [List.getElem_append_left hlen, List.getElem_map]
  rfl

theorem poppedRegs_ne_rsp {r : Reg} (hr : r ∈ poppedRegs) : r ≠ .rsp := by
  rintro rfl
  exact absurd hr (by decide)

theorem val_add_one {j : Fin 17} (hj : (j : Nat) < 16) : ((j + 1 : Fin 17) : Nat) = j + 1 := by
  have hone : ((1 : Fin 17) : Nat) = 1 := rfl
  rw [Fin.val_add, hone]
  exact Nat.mod_eq_of_lt (by omega)

/-- One more register is back. -/
theorem AtExit.pop (h : AtExit f c j) (hj : (j : Nat) < 15) (hfit : frameBase f + 136 < 2 ^ 64) :
    AtExit f (text.execAt (.exit j) c) (j + 1) := by
  have hnext := val_add_one (show (j : Nat) < 16 by omega)
  have hne : (j : Nat) ≠ 16 := by omega
  have hne' : ((j + 1 : Fin 17) : Nat) ≠ 16 := by omega
  have hsp : c.rsp.toNat = frameBase f + 8 * j := by
    rw [h.rsp, exitSp, if_neg hne]
  have hsplit : poppedRegs.drop j = poppedRegs.get ⟨j, hj⟩ :: poppedRegs.drop (j + 1) :=
    List.drop_eq_getElem_cons hj
  have htake : poppedRegs.take (j + 1) = poppedRegs.take j ++ [poppedRegs.get ⟨j, hj⟩] :=
    (List.take_append_getElem hj).symm
  have hnodup : poppedRegs.Nodup := by decide
  have hwords := h.regs
  rw [hsplit, List.map_cons, ← hsp] at hwords
  obtain ⟨hread, hsp', hkept⟩ := pop_spec
    (c := { c with rip := text.nextAddress (.exit j) }) (r := poppedRegs.get ⟨j, hj⟩)
    (poppedRegs_ne_rsp (List.get_mem _ _)) hwords.1 (by show c.rsp.toNat + 8 < _; omega)
  have hexec : text.execAt (.exit j) c = (Instr.pop (poppedRegs.get ⟨j, hj⟩)).exec
      { c with rip := text.nextAddress (.exit j) } := by
    rw [KernelText.execAt, instrAt_pop text j hj]
  rw [hexec]
  refine ⟨?_, fun r hr => ?_, ?_, h.frame⟩
  · rw [hsp', exitSp, if_neg hne', hnext]
    show c.rsp.toNat + 8 = _
    omega
  · rw [hnext, htake, List.mem_append, List.mem_singleton] at hr
    rcases hr with hr | rfl
    · rw [hkept r ?_ (poppedRegs_ne_rsp (List.mem_of_mem_take hr))]
      · exact h.done r hr
      · rintro rfl
        have htail : poppedRegs.get ⟨j, hj⟩ ∈ poppedRegs.drop j := hsplit ▸ List.mem_cons_self
        exact absurd rfl ((List.nodup_append.mp
          ((List.take_append_drop j poppedRegs).symm ▸ hnodup)).2.2 _ hr _ htail)
    · exact hread
  · rw [hnext, show frameBase f + 8 * (j + 1) = c.rsp.toNat + 8 by omega]
    exact hwords.2

/-- The vector and the error code are dropped. -/
theorem AtExit.add (h : AtExit f c 15) (hfit : frameBase f + 136 < 2 ^ 64) :
    AtExit f (text.execAt (.exit 15) c) 16 := by
  have hexec : text.execAt (.exit 15) c = (Instr.addImm 16 .rsp).exec
      { c with rip := text.nextAddress (.exit 15) } := rfl
  have hsp : c.rsp.toNat = frameBase f + 120 := by
    rw [h.rsp, exitSp, if_neg (by decide)]
    rfl
  rw [hexec]
  refine ⟨?_, fun r hr => ?_, trivial, h.frame⟩
  · have hrsp : ((Instr.addImm 16 .rsp).exec { c with rip := text.nextAddress (.exit 15) }).rsp =
        c.rsp + 16 := addImm_self _ _ _
    have hval : (16 : Word).toNat = 16 := rfl
    rw [hrsp, BitVec.toNat_add, hval, Nat.mod_eq_of_lt (by omega), hsp, exitSp, if_pos (by decide)]
  · have hmem : r ∈ poppedRegs := List.mem_of_mem_take hr
    exact (Cpu.set_other (poppedRegs_ne_rsp hmem)).trans
      (h.done r (by rw [List.take_of_length_le (by decide)]; exact hmem))

theorem exit_cases (j : Fin 17) : (j : Nat) < 15 ∨ j = 15 ∨ j = 16 := by
  revert j
  decide

/-- Nothing on the way out writes to memory. -/
theorem exit_mem (text : KernelText) (j : Fin 17) (c : Cpu) :
    (text.execAt (.exit j) c).mem = c.mem := by
  rcases exit_cases j with hj | rfl | rfl
  · rw [KernelText.execAt, instrAt_pop text j hj]
    rfl
  · rfl
  · rfl

/-- One more instruction of the way out is done. -/
theorem Context.exit (h : Context text lo hi created (f :: fs) c)
    (hrip : c.rip = text.address (.exit j)) (hj : j ≠ 16) :
    Context text lo hi created (f :: fs) (text.execAt (.exit j) c) := by
  obtain ⟨hcontext, h⟩ := h
  have hexit := h.exit j hrip
  have hlt := f.rsp.isLt
  have hbase := frameBase_add h.room
  have habove : ∀ x, f.rsp.toNat ≤ x → x < hi →
      (text.execAt (.exit j) c).mem x = f.mem x := by
    rw [exit_mem]
    exact h.above
  rcases exit_cases j with hlo | rfl | rfl
  · have hnext : (text.execAt (.exit j) c).rip = text.address (.exit (j + 1)) := by
      rw [KernelText.execAt, instrAt_pop text j hlo]
      rfl
    exact ⟨hcontext, .of_exit h.room h.top habove hnext (hexit.pop hlo (by omega))⟩
  · exact ⟨hcontext, .of_exit h.room h.top habove rfl (hexit.add (by omega))⟩
  · exact absurd rfl hj

/-- **`iretq`** puts the thread back in the state it was interrupted in. -/
theorem Context.iretq (h : Context text lo hi created (f :: fs) c)
    (hrip : c.rip = text.address (.exit 16)) (hc' : text.execAt (.exit 16) c = c') :
    c'.regs = f.regs ∧ c'.rip = f.rip ∧ c'.rflags = f.rflags ∧ Context text lo hi created fs c' := by
  obtain ⟨hcontext, h⟩ := h
  obtain ⟨hsp, hdone, -, hframe⟩ := h.exit 16 hrip
  have hexec : text.execAt (.exit 16) c = Instr.iretq.exec
      { c with rip := text.nextAddress (.exit 16) } := rfl
  have hmem : c'.mem = c.mem := by
    rw [← hc']
    exact exit_mem text 16 c
  obtain ⟨hrip', hrflags, hrsp, hregs⟩ := iretq_spec
    (c := { c with rip := text.nextAddress (.exit 16) }) (f := f) (by
      show Holds c.mem c.rsp.toNat f.frameWords
      rw [hsp, exitSp, if_pos (by decide)]
      exact hframe)
  rw [← hexec, hc'] at hrip' hrflags hrsp hregs
  have hsame : c'.regs = f.regs := by
    funext r
    by_cases hr : r = .rsp
    · rw [hr]
      exact hrsp
    · have hpopped : r ∈ poppedRegs := by
        cases r <;> first | decide | exact absurd rfl hr
      rw [hregs r hr]
      exact hdone r (by rw [List.take_of_length_le (by decide)]; exact hpopped)
  refine ⟨hsame, hrip', hrflags, hcontext.congr hsame hrip' (fun x hlo hhi => ?_)⟩
  rw [hmem]
  exact h.above x hlo hhi

/-- **`thread_trampoline`** calls the entry function with its argument. -/
theorem Context.trampoline {k : Fin 3} (h : Context text lo hi created fs c)
    (hrip : c.rip = text.address (.trampoline k)) (hc' : text.execAt (.trampoline k) c = c') :
    Context text lo hi created fs c' ∧ (k ≠ 2 → c'.mem = c.mem) ∧
    (k = 2 → c.rsp.toNat = hi ∧ ∃ entry arg, created = some (entry, arg) ∧ c'.rip = entry ∧
      c'.regs .rdi = arg ∧ (8 ≤ hi → c'.rsp.toNat + 8 = hi ∧ hi % 16 = 0 ∧
        AgreeOff (hi - 8) hi c.mem c'.mem)) := by
  cases fs with
  | cons f fs => exact absurd hrip (h.2.trampoline k)
  | nil =>
      obtain ⟨entry, arg, hcreated, hentry, h12, h13, hrsp, halign, hrdi⟩ := h.trampoline k hrip
      have hat : ∀ k' : Fin 3, c'.rip = text.address (.trampoline k') → c'.regs .r12 = entry →
          c'.regs .r13 = arg → c'.rsp = c.rsp → (k' = 2 → c'.regs .rdi = arg) →
          Context text lo hi created [] c' := by
        intro k' hrip' h12' h13' hrsp' hrdi'
        refine ⟨fun j hj => ?_, fun i hi => ?_⟩
        · have hsame : Place.trampoline k' = .exit j :=
            text.address_injective (hrip'.symm.trans hj)
          cases hsame
        · have hsame : Place.trampoline k' = .trampoline i :=
            text.address_injective (hrip'.symm.trans hi)
          injection hsame with hki
          exact ⟨entry, arg, hcreated, hentry, h12', h13', by rw [hrsp']; exact hrsp, halign,
            fun h2 => hrdi' (hki.trans h2)⟩
      have hplaces : ∀ i : Fin 3, i = 0 ∨ i = 1 ∨ i = 2 := by decide
      rcases hplaces k with rfl | rfl | rfl
      · -- `sti`
        subst hc'
        exact ⟨hat 1 rfl h12 h13 rfl (fun h => absurd h (by decide)), fun _ => rfl,
          fun h => absurd h (by decide)⟩
      · -- `mov %r13, %rdi`
        subst hc'
        refine ⟨hat 2 rfl ?_ ?_ ?_ (fun _ => ?_), fun _ => rfl, fun h => absurd h (by decide)⟩
        · exact (Cpu.set_other (by decide)).trans h12
        · exact (Cpu.set_other (by decide)).trans h13
        · exact Cpu.set_other (by decide)
        · exact Cpu.set_self.trans h13
      · -- `call *%r12`
        have hrip' : c'.rip = entry := by
          rw [← hc', ← h12]
          rfl
        have hregs : ∀ r, r ≠ .rsp → c'.regs r = c.regs r := by
          intro r hr
          rw [← hc']
          exact Cpu.set_other hr
        refine ⟨⟨fun j => hrip' ▸ hentry _, fun i hi => absurd hi (hrip' ▸ hentry _)⟩,
          fun h => absurd rfl h, fun _ => ⟨hrsp, entry, arg, hcreated, hrip',
          (hregs _ (by decide)).trans (hrdi rfl), fun hroom => ?_⟩⟩
        obtain ⟨hsp, -, hagree, -⟩ := pushAll_spec c [text.afterEntry]
          (by show 8 ≤ c.rsp.toNat; omega)
        have hlen : 8 * [text.afterEntry].length = 8 := rfl
        rw [hlen, hrsp] at hsp hagree
        have hsp' : c'.rsp = (c.pushAll [text.afterEntry]).rsp := by rw [← hc']; rfl
        have hmem : c'.mem = (c.pushAll [text.afterEntry]).mem := by rw [← hc']; rfl
        rw [hsp', hmem]
        exact ⟨by omega, halign, hagree⟩

end Contexts

/-! ## Resumable threads -/

section Runs

variable {T : Type} {text : KernelText} {layout : StackLayout T} {bootstrap : T}
  {s s' : Switching T} {m m' : Mem} {t u : T}

/-- The saved stack pointer of `u` points at words `context_switch` can resume
it from. -/
structure SavedAt (layout : StackLayout T) (m : Mem) (u : T) (sp : Nat) (ws : List Word) :
    Prop where
  cell : (load64 m (layout.cell u).toNat).toNat = sp
  holds : Holds m sp ws
  lo : layout.lo u ≤ sp
  hi : sp + 56 ≤ layout.hi u

/-- What is kept for a thread that is not running. -/
def Resumable (text : KernelText) (layout : StackLayout T) (m : Mem) (u : T) (fs : List Cpu)
    (created : Option (Word × Word)) : ThreadStatus → Prop
  | .none => True
  | .running => False
  | .fresh => fs = [] ∧ layout.hi u % 16 = 0 ∧ ∃ entry arg, created = some (entry, arg) ∧
      text.Compiled entry ∧ SavedAt layout m u (layout.hi u - 56) (freshWords text entry arg).reverse
  | .off call ret => text.Compiled call.rip ∧ text.Compiled ret ∧ 56 ≤ call.rsp.toNat ∧
      SavedAt layout m u (call.rsp.toNat - 56) (savedWords call ret) ∧
      (∀ x, call.rsp.toNat ≤ x → x < layout.hi u → m x = call.mem x) ∧
      Context text (layout.lo u) (layout.hi u) created fs call

/-- Memory that a thread which is not running relies on. -/
def Kept (layout : StackLayout T) (u : T) (m m' : Mem) : Prop :=
  ∀ x, layout.lo u ≤ x ∧ x < layout.hi u ∨
    (layout.cell u).toNat ≤ x ∧ x < (layout.cell u).toNat + 8 → m' x = m x

/-- Changes within the running thread's stack. -/
theorem Kept.of_agreeOff {lo hi : Nat} (hu : u ≠ t) (hlo : layout.lo t ≤ lo)
    (hhi : hi ≤ layout.hi t) (hagree : AgreeOff lo hi m m') : Kept layout u m m' := by
  intro x hx
  have hstacks := layout.stacksApart t u hu.symm
  have hcell := layout.cellOff u t
  exact hagree x (by omega)

theorem SavedAt.kept {sp : Nat} {ws : List Word} (h : SavedAt layout m u sp ws)
    (hlen : ws.length = 7) (hkept : Kept layout u m m') : SavedAt layout m' u sp ws := by
  have hlo := h.lo
  have hhi := h.hi
  refine ⟨?_, h.holds.congr (fun x hlo' hhi' => hkept x (by omega)), hlo, hhi⟩
  rw [load64_congr (fun x hlo' hhi' => hkept x (.inr ⟨hlo', hhi'⟩))]
  exact h.cell

theorem Resumable.kept {fs : List Cpu} {created : Option (Word × Word)} {status : ThreadStatus}
    (h : Resumable text layout m u fs created status) (hkept : Kept layout u m m') :
    Resumable text layout m' u fs created status := by
  cases status with
  | none => trivial
  | running => exact h
  | fresh =>
      obtain ⟨hfs, halign, entry, arg, hcreated, hentry, hsaved⟩ := h
      exact ⟨hfs, halign, entry, arg, hcreated, hentry, hsaved.kept rfl hkept⟩
  | off call ret =>
      obtain ⟨hcall, hret, hroom, hsaved, habove, hcontext⟩ := h
      refine ⟨hcall, hret, hroom, hsaved.kept rfl hkept, fun x hlo hhi => ?_, hcontext⟩
      have hlow := hsaved.lo
      rw [hkept x (.inl ⟨by omega, hhi⟩)]
      exact habove x hlo hhi

/-- The running thread is where it should be, and the others can be resumed. -/
structure SwitchInv (text : KernelText) (layout : StackLayout T) (s : Switching T) : Prop where
  running : s.status s.current = .running
  context : Context text (layout.lo s.current) (layout.hi s.current) (s.created s.current) (s.interrupted s.current) s.cpu
  suspended : ∀ u, u ≠ s.current →
    Resumable text layout s.cpu.mem u (s.interrupted u) (s.created u) (s.status u)
  unused : ∀ u, s.status u = .none → s.interrupted u = []
  size : ∀ u, s.created u ≠ none → layout.lo u + 56 ≤ layout.hi u

theorem ne_of_status (h : SwitchInv text layout s) (hu : s.status u = .none) : u ≠ s.current := by
  intro heq
  have hrunning := h.running
  rw [← heq, hu] at hrunning
  exact absurd hrunning (by simp)

variable [DecidableEq T]

/-- A step of the running thread that touches no other thread's memory. -/
theorem SwitchInv.advance (h : SwitchInv text layout s) {c : Cpu} {fs : List Cpu}
    (hcontext : Context text (layout.lo s.current) (layout.hi s.current) (s.created s.current) fs c)
    (hkept : ∀ u, u ≠ s.current → Kept layout u s.cpu.mem c.mem) :
    SwitchInv text layout { s with
      cpu := c, interrupted := Function.update s.interrupted s.current fs } := by
  refine ⟨h.running, ?_, fun u hu => ?_, fun u hu => ?_, h.size⟩
  · show Context _ _ _ _ (Function.update s.interrupted s.current fs s.current) c
    rw [Function.update_self]
    exact hcontext
  · show Resumable _ _ c.mem u (Function.update s.interrupted s.current fs u) _ _
    rw [Function.update_of_ne hu]
    exact (h.suspended u hu).kept (hkept u hu)
  · have hne : u ≠ s.current := by
      intro heq
      have hrunning := h.running
      rw [← heq, show s.status u = .none from hu] at hrunning
      exact absurd hrunning (by simp)
    show Function.update s.interrupted s.current fs u = []
    rw [Function.update_of_ne hne]
    exact h.unused u hu

/-- The same, within the handlers the thread is in. -/
theorem SwitchInv.proceed (h : SwitchInv text layout s) {c : Cpu}
    (hcontext : Context text (layout.lo s.current) (layout.hi s.current) (s.created s.current)
      (s.interrupted s.current) c)
    (hkept : ∀ u, u ≠ s.current → Kept layout u s.cpu.mem c.mem) :
    SwitchInv text layout { s with cpu := c } := by
  have hadvance := h.advance hcontext hkept
  rw [Function.update_eq_self] at hadvance
  exact hadvance

theorem SwitchInv.run (h : SwitchInv text layout s) {c : Cpu}
    (hstep : (switchSystem text layout bootstrap).step s (.run c) s') :
    SwitchInv text layout s' := by
  obtain ⟨hc, hc', hwrites, hbelow, rfl⟩ := hstep
  refine h.proceed (h.context.run hc hc' hbelow (fun f hf x hlo hhi => hwrites x ?_))
    (fun u hu x hx => hwrites x ?_)
  · rintro ⟨-, -, hown⟩
    have := hown f hf
    omega
  · rintro ⟨hstacks, hcells, -⟩
    have hstack := hstacks u hu
    have hcell := hcells u
    omega

theorem SwitchInv.interrupt (h : SwitchInv text layout s) {vector : Word}
    (hstep : (switchSystem text layout bootstrap).step s (.interrupt vector) s') :
    SwitchInv text layout s' := by
  obtain ⟨-, hroom, htop, rfl⟩ := hstep
  generalize hc' : exec (irqStub vector ++ isrCommonStub text)
    (s.cpu.interrupt gdtKernelCode (text.irqStub vector)) = c
  obtain ⟨-, -, -, -, hagree⟩ := isrEntry_spec (by omega) hc'
  have hbase := frameBase_add (f := s.cpu) hroom
  refine h.advance (h.context.interrupt hroom htop hc') (fun u hu => ?_)
  exact Kept.of_agreeOff hu (by omega) (by omega) hagree

theorem SwitchInv.dispatchReturn (h : SwitchInv text layout s)
    (hstep : (switchSystem text layout bootstrap).step s .dispatchReturn s') :
    SwitchInv text layout s' := by
  obtain ⟨hc, ⟨f, hf, hsp⟩, rfl⟩ := hstep
  refine h.proceed ?_ (fun _ _ _ _ => rfl)
  have hcontext := h.context
  cases hfs : s.interrupted s.current with
  | nil =>
      rw [hfs] at hf
      exact absurd hf (by simp)
  | cons g fs =>
      rw [hfs] at hf hcontext
      obtain rfl : g = f := by simpa using hf
      exact hcontext.dispatchReturn hc hsp

/-- What an instruction of the switch code does. -/
theorem SwitchInv.exec_spec (h : SwitchInv text layout s) {p : Place}
    (hrip : s.cpu.rip = text.address p) : SwitchInv text layout { s with
      cpu := text.execAt p s.cpu
      interrupted := if p = .exit 16 then
        Function.update s.interrupted s.current (s.interrupted s.current).tail
        else s.interrupted } := by
  have hcontext := h.context
  cases p with
  | exit j =>
      cases hfs : s.interrupted s.current with
      | nil =>
          rw [hfs] at hcontext
          exact absurd hrip (Outside.exit hcontext j)
      | cons f fs =>
          rw [hfs] at hcontext
          by_cases hj : j = 16
          · subst hj
            rw [if_pos rfl, List.tail_cons]
            exact h.advance (hcontext.iretq hrip rfl).2.2.2 (fun _ _ _ _ => rfl)
          · rw [if_neg (by simpa using hj)]
            refine h.proceed (hfs ▸ hcontext.exit hrip hj) (fun u hu x hx => ?_)
            rw [exit_mem]
  | trampoline k =>
      rw [if_neg (by simp)]
      obtain ⟨hnext, hmem, hcall⟩ := hcontext.trampoline hrip rfl
      refine h.proceed hnext (fun u hu => ?_)
      by_cases hk : k = 2
      · obtain ⟨-, entry, arg, hcreated, -, -, hstack⟩ := hcall hk
        have hsize := h.size s.current (by rw [hcreated]; simp)
        obtain ⟨-, -, hagree⟩ := hstack (by omega)
        exact Kept.of_agreeOff hu (by omega) (Nat.le_refl _) hagree
      · intro x hx
        rw [hmem hk]

/-- **`thread_create`** leaves a stack `context_switch` can resume. -/
theorem SwitchInv.create (h : SwitchInv text layout s) {stack entry arg : Word}
    (hstep : (switchSystem text layout bootstrap).step s (.create u stack entry arg) s') :
    SwitchInv text layout s' := by
  obtain ⟨hc, hentry, hnone, hlo, hhi, halign, rfl⟩ := hstep
  have hne := ne_of_status h hnone
  have hsize : (threadStackPages * pageSize).toNat = 16384 := by decide
  rw [hsize] at hhi
  have hbound := layout.hi_lt u
  generalize hc' : threadCreate text s.cpu stack (layout.cell u) entry arg = c
  obtain ⟨hregs, hrip, m, sp, hmem, hsp, hholds, hagree⟩ := threadCreate_spec (by omega) hc'
  have htop : stack.toNat + 16384 = layout.hi u := by omega
  rw [htop] at hsp hholds hagree
  have hcell := layout.cellOff u
  -- only the new stack and the cell of its stack pointer are written
  have hother : ∀ x, (x < layout.lo u ∨ layout.hi u ≤ x) →
      (x < (layout.cell u).toNat ∨ (layout.cell u).toNat + 8 ≤ x) → c.mem x = s.cpu.mem x := by
    intro x hstack hx
    rw [hmem, store64_other _ _ hx]
    exact hagree x (by omega)
  refine ⟨?_, ?_, fun v hv => ?_, fun v hv => ?_, fun v hv => ?_⟩
  · show Function.update s.status u .fresh s.current = .running
    rw [Function.update_of_ne hne.symm]
    exact h.running
  · show Context _ _ _ (Function.update s.created u _ s.current) _ c
    rw [Function.update_of_ne hne.symm]
    refine h.context.stay hc (hrip ▸ hc) (congrFun hregs _) (fun x hlo' hhi' => hother x ?_ ?_)
    · have hstacks := layout.stacksApart u s.current hne
      omega
    · have := hcell s.current
      omega
  · show Resumable _ _ _ v (s.interrupted v) (Function.update s.created u _ v)
      (Function.update s.status u .fresh v)
    by_cases hvu : v = u
    · subst hvu
      rw [Function.update_self, Function.update_self]
      refine ⟨h.unused v hnone, by omega, entry, arg, rfl, hentry, ?_, ?_, by omega, by omega⟩
      · show (load64 c.mem _).toNat = _
        rw [hmem, load64_store64]
        exact hsp
      · show Holds c.mem _ _
        rw [hmem]
        refine hholds.congr (fun x hlo' hhi' => store64_other _ _ ?_)
        have hlen' : (freshWords text entry arg).reverse.length = 7 := rfl
        have := hcell v
        omega
    · -- a thread suspended before has a stack and a cell of its own
      rw [Function.update_of_ne hvu, Function.update_of_ne hvu]
      refine (h.suspended v hv).kept (fun x hx => hother x ?_ ?_)
      · have hstacks := layout.stacksApart u v (Ne.symm hvu)
        have hcell' := layout.cellOff v u
        omega
      · have hcells := layout.cellsApart u v (Ne.symm hvu)
        have := hcell v
        omega
  · have hstatus : Function.update s.status u .fresh v = .none := hv
    by_cases hvu : v = u
    · rw [hvu, Function.update_self] at hstatus
      exact absurd hstatus (by simp)
    · rw [Function.update_of_ne hvu] at hstatus
      exact h.unused v hstatus
  · by_cases hvu : v = u
    · rw [hvu]
      omega
    · have hcreated : Function.update s.created u (some (entry, arg)) v ≠ none := hv
      rw [Function.update_of_ne hvu] at hcreated
      exact h.size v hcreated

/-- What a switch writes: the registers below the running thread's stack pointer,
and that thread's saved stack pointer. -/
theorem switch_mem {ret : Word}
    (hstep : (switchSystem text layout bootstrap).step s (.switch u ret) s') :
    ∃ (m : Mem) (sp : Word), sp.toNat = s.cpu.rsp.toNat - 56 ∧
      Holds m (s.cpu.rsp.toNat - 56) (savedWords s.cpu ret) ∧
      AgreeOff (s.cpu.rsp.toNat - 56) s.cpu.rsp.toNat s.cpu.mem m ∧
      s'.cpu.mem = store64 m (layout.cell s.current).toNat sp := by
  obtain ⟨-, -, -, -, hrdi, -, hroom, -, rfl⟩ := hstep
  obtain ⟨m, sp, hsp, hholds, hagree, hmem, -⟩ := contextSwitch_spec (c := s.cpu)
    text.contextSwitch ret (by omega)
  rw [hrdi] at hmem
  exact ⟨m, sp, hsp, hholds, hagree, hmem⟩

theorem switch_kept {v : T} {ret : Word} (hv : v ≠ s.current)
    (hstep : (switchSystem text layout bootstrap).step s (.switch u ret) s') :
    Kept layout v s.cpu.mem s'.cpu.mem := by
  obtain ⟨m, sp, -, -, hagree, hmem⟩ := switch_mem hstep
  obtain ⟨-, -, -, -, -, -, hroom, htop, -⟩ := hstep
  intro x hx
  have hstacks := layout.stacksApart s.current v hv.symm
  have hcells := layout.cellsApart s.current v hv.symm
  have hcell := layout.cellOff s.current v
  have hcell' := layout.cellOff v s.current
  rw [hmem, store64_other _ _ (by omega)]
  exact hagree x (by omega)

/-- The thread that calls `context_switch` can be resumed from it. -/
theorem SwitchInv.suspend (h : SwitchInv text layout s) {ret : Word}
    (hstep : (switchSystem text layout bootstrap).step s (.switch u ret) s') :
    Resumable text layout s'.cpu.mem s.current (s.interrupted s.current) (s.created s.current)
      (.off s.cpu ret) := by
  obtain ⟨m, sp, hsp, hholds, hagree, hmem⟩ := switch_mem hstep
  obtain ⟨hc, hret, -, -, -, -, hroom, htop, -⟩ := hstep
  have hcell := layout.cellOff s.current s.current
  refine ⟨hc, hret, by omega, ⟨?_, ?_, by omega, by omega⟩, fun x hlo hhi => ?_, h.context⟩
  · rw [hmem, load64_store64]
    exact hsp
  · rw [hmem]
    have hlen : (savedWords s.cpu ret).length = 7 := rfl
    exact hholds.congr (fun x hlo hhi => store64_other _ _ (by omega))
  · rw [hmem, store64_other _ _ (by omega)]
    exact hagree x (by omega)

/-- The processor after a switch to `u`, whose saved stack pointer names the words `ws`. -/
theorem SavedAt.restored {sp : Nat} {ws : List Word} {w ret : Word}
    (hsaved : SavedAt layout s.cpu.mem u sp (ws ++ [w])) (hws : ws.length = 6)
    (hstep : (switchSystem text layout bootstrap).step s (.switch u ret) s') :
    savedRegs.map s'.cpu.regs = ws ∧ s'.cpu.rip = w ∧ s'.cpu.rsp.toNat = sp + 56 := by
  have hlen : (ws ++ [w]).length = 7 := by rw [List.length_append, hws]; rfl
  have hafter := (hsaved.kept hlen (switch_kept hstep.2.2.1 hstep)).holds
  obtain ⟨-, -, -, -, -, hrsi, hroom, -, rfl⟩ := hstep
  obtain ⟨m, old, -, -, -, hmem, hrestore⟩ := contextSwitch_spec (c := s.cpu)
    text.contextSwitch ret (by omega)
  have hsp : (s.cpu.regs .rsi).toNat = sp := by
    rw [hrsi]
    exact hsaved.cell
  have hhi := hsaved.hi
  have hbound := layout.hi_lt u
  dsimp only at hafter ⊢
  rw [hmem, ← hsp] at hafter
  obtain ⟨hregs, hrip, hrsp⟩ := hrestore ws w hws hafter (by omega)
  exact ⟨hregs, hrip, by rw [hrsp, hsp]⟩

/-- **What a thread is switched to in**: where its call of `context_switch`
returns to, with the registers of the call, or at `thread_trampoline`. -/
theorem SwitchInv.resumed (h : SwitchInv text layout s) {ret : Word}
    (hstep : (switchSystem text layout bootstrap).step s (.switch u ret) s') :
    (∀ call back, s.status u = .off call back → s'.cpu.rip = back ∧ s'.cpu.rsp = call.rsp ∧
      ∀ r ∈ savedRegs, s'.cpu.regs r = call.regs r) ∧
    (s.status u = .fresh → ∃ entry arg, s.created u = some (entry, arg) ∧ text.Compiled entry ∧
      s.interrupted u = [] ∧ s'.cpu.rip = text.address (.trampoline 0) ∧
      s'.cpu.regs .r12 = entry ∧ s'.cpu.regs .r13 = arg ∧ s'.cpu.rsp.toNat = layout.hi u ∧
      layout.hi u % 16 = 0) := by
  have hsuspended := h.suspended u hstep.2.2.1
  refine ⟨fun call back hstatus => ?_, fun hstatus => ?_⟩
  · rw [hstatus] at hsuspended
    obtain ⟨-, -, hroom, hsaved, -, -⟩ := hsuspended
    obtain ⟨hregs, hrip, hrsp⟩ := hsaved.restored rfl hstep
    refine ⟨hrip, BitVec.eq_of_toNat_eq (by omega), fun r hr => ?_⟩
    exact List.map_inj_left.mp hregs r hr
  · rw [hstatus] at hsuspended
    obtain ⟨hfs, halign, entry, arg, hcreated, hentry, hsaved⟩ := hsuspended
    have hwords : (freshWords text entry arg).reverse =
        [0, 0, arg, entry, 0, 0] ++ [text.address (.trampoline 0)] := rfl
    have hhi := hsaved.hi
    rw [hwords] at hsaved
    obtain ⟨hregs, hrip, hrsp⟩ := hsaved.restored rfl hstep
    have hlist : [s'.cpu.regs .r15, s'.cpu.regs .r14, s'.cpu.regs .r13, s'.cpu.regs .r12,
        s'.cpu.regs .rbx, s'.cpu.regs .rbp] = [0, 0, arg, entry, 0, 0] := hregs
    simp only [List.cons.injEq] at hlist
    have hsize := h.size u (by rw [hcreated]; simp)
    exact ⟨entry, arg, hcreated, hentry, hfs, hrip, hlist.2.2.2.1, hlist.2.2.1, by omega, halign⟩

/-- The thread switched to is where it should be. -/
theorem SwitchInv.switched (h : SwitchInv text layout s) {ret : Word}
    (hstep : (switchSystem text layout bootstrap).step s (.switch u ret) s') :
    Context text (layout.lo u) (layout.hi u) (s.created u) (s.interrupted u) s'.cpu := by
  obtain ⟨hback, hfresh⟩ := h.resumed hstep
  have hsuspended := h.suspended u hstep.2.2.1
  have hkept := switch_kept hstep.2.2.1 hstep
  cases hstatus : s.status u with
  | none => exact absurd hstatus hstep.2.2.2.1
  | running =>
      rw [hstatus] at hsuspended
      exact hsuspended.elim
  | fresh =>
      obtain ⟨entry, arg, hcreated, hentry, hfs, hrip, h12, h13, hrsp, halign⟩ := hfresh hstatus
      rw [hfs]
      refine ⟨fun j hj => ?_, fun k hk => ?_⟩
      · have hsame : Place.trampoline 0 = .exit j := text.address_injective (hrip.symm.trans hj)
        cases hsame
      · have hsame : Place.trampoline 0 = .trampoline k :=
          text.address_injective (hrip.symm.trans hk)
        injection hsame with hk0
        exact ⟨entry, arg, hcreated, hentry, h12, h13, hrsp, halign,
          fun h2 => absurd (hk0.trans h2) (by decide)⟩
  | off call back =>
      obtain ⟨hrip, hrsp, -⟩ := hback call back hstatus
      rw [hstatus] at hsuspended
      obtain ⟨hcall, hret, hroom, hsaved, habove, hcontext⟩ := hsuspended
      have hlow := hsaved.lo
      refine hcontext.resume hcall (hrip ▸ hret) hrsp (fun x hlo hhi => ?_)
      rw [hkept x (.inl ⟨by omega, hhi⟩)]
      exact habove x hlo hhi

/-- A switch suspends one thread and resumes another. -/
theorem SwitchInv.switch (h : SwitchInv text layout s) {ret : Word}
    (hstep : (switchSystem text layout bootstrap).step s (.switch u ret) s') :
    SwitchInv text layout s' := by
  have hcontext := h.switched hstep
  have hsuspend := h.suspend hstep
  have hkept : ∀ v, v ≠ s.current → Kept layout v s.cpu.mem s'.cpu.mem :=
    fun v hv => switch_kept hv hstep
  obtain ⟨-, -, hne, -, -, -, -, -, rfl⟩ := hstep
  refine ⟨Function.update_self _ _ _, hcontext, fun v hv => ?_, fun v hv => ?_, h.size⟩
  · have hvu : v ≠ u := hv
    show Resumable _ _ _ v _ _ (Function.update (Function.update s.status s.current _) u _ v)
    rw [Function.update_of_ne hvu]
    by_cases hvt : v = s.current
    · subst hvt
      rw [Function.update_self]
      exact hsuspend
    · rw [Function.update_of_ne hvt]
      exact (h.suspended v hvt).kept (hkept v hvt)
  · have hstatus : Function.update (Function.update s.status s.current (.off s.cpu ret)) u .running v =
        .none := hv
    by_cases hvu : v = u
    · rw [hvu, Function.update_self] at hstatus
      exact absurd hstatus (by simp)
    rw [Function.update_of_ne hvu] at hstatus
    by_cases hvt : v = s.current
    · rw [hvt, Function.update_self] at hstatus
      exact absurd hstatus (by simp)
    rw [Function.update_of_ne hvt] at hstatus
    exact h.unused v hstatus

theorem switchInv_init (hinit : (switchSystem text layout bootstrap).init s) :
    SwitchInv text layout s := by
  obtain ⟨cpu, current, status, interrupted, created⟩ := s
  obtain ⟨hc, hcurrent, hcreated, hstatus, hinterrupted⟩ := hinit
  dsimp only at hc hcurrent hcreated hstatus hinterrupted
  subst hcurrent hcreated hstatus hinterrupted
  refine ⟨by simp, ⟨fun _ => hc _, fun _ hk => absurd hk (hc _)⟩,
    fun u hu => ?_, fun _ _ => rfl, fun _ hu => absurd rfl hu⟩
  have hne : u ≠ current := hu
  show Resumable _ _ _ u _ _ (Function.update (fun _ => ThreadStatus.none) current _ u)
  rw [Function.update_of_ne hne]
  trivial

theorem switchInv_invariant :
    (switchSystem text layout bootstrap).Invariant (SwitchInv text layout) := by
  refine System.Inductive.invariant ⟨fun s hs => switchInv_init hs, fun s e s' h hstep => ?_⟩
  cases e with
  | run c => exact h.run hstep
  | create u stack entry arg => exact h.create hstep
  | switch u ret => exact h.switch hstep
  | interrupt vector => exact h.interrupt hstep
  | dispatchReturn => exact h.dispatchReturn hstep
  | exec p =>
      obtain ⟨hrip, rfl⟩ := hstep
      exact h.exec_spec hrip

end Runs

/-! ## Resuming -/

section Theorem

variable {T : Type} [DecidableEq T]

/-- **Threads resume intact**, however switches, interrupts and first runs are
interleaved. A thread in `context_switch` comes back where its call returns to,
with the registers the caller may rely on and its stack pointer; a thread in a
handler comes back, when `isr_common_stub` executes `iretq`, in the state it was
interrupted in; and a new thread starts at `thread_trampoline` at the top of
its stack, which calls its entry function with its argument on an aligned stack. -/
theorem threads_resume_intact {text : KernelText} {layout : StackLayout T} {bootstrap : T}
    {s s' : Switching T} {e : SwitchEvent T}
    (hs : (switchSystem text layout bootstrap).Reachable s)
    (hstep : (switchSystem text layout bootstrap).step s e s') :
    (∀ u ret, e = .switch u ret →
      (∀ call back, s.status u = .off call back → s'.cpu.rip = back ∧
        ∀ r ∈ [Reg.rbx, .rbp, .r12, .r13, .r14, .r15, .rsp], s'.cpu.regs r = call.regs r) ∧
      (s.status u = .fresh → ∃ entry arg, s.created u = some (entry, arg) ∧
        s'.cpu.rip = text.address (.trampoline 0) ∧ s'.cpu.regs .r12 = entry ∧
        s'.cpu.regs .r13 = arg ∧ s'.cpu.rsp.toNat = layout.hi u)) ∧
    (e = .exec (.exit 16) → ∃ f fs, s.interrupted s.current = f :: fs ∧
      s'.interrupted s.current = fs ∧ s'.cpu.regs = f.regs ∧ s'.cpu.rip = f.rip ∧
      s'.cpu.rflags = f.rflags) ∧
    (e = .exec (.trampoline 2) → ∃ entry arg, s.created s.current = some (entry, arg) ∧
      s'.cpu.rip = entry ∧ s'.cpu.regs .rdi = arg ∧
      s'.cpu.rsp.toNat + 8 = layout.hi s.current ∧ (s'.cpu.rsp.toNat + 8) % 16 = 0) := by
  have h := switchInv_invariant s hs
  refine ⟨?_, ?_, ?_⟩
  · rintro u ret rfl
    obtain ⟨hback, hfresh⟩ := h.resumed hstep
    refine ⟨fun call back hstatus => ?_, fun hstatus => ?_⟩
    · obtain ⟨hrip, hrsp, hregs⟩ := hback call back hstatus
      refine ⟨hrip, fun r hr => ?_⟩
      have hcases : r ∈ savedRegs ∨ r = .rsp := by
        revert hr
        cases r <;> decide
      rcases hcases with hr | rfl
      · exact hregs r hr
      · exact hrsp
    · obtain ⟨entry, arg, hcreated, -, -, hrip, h12, h13, hrsp, -⟩ := hfresh hstatus
      exact ⟨entry, arg, hcreated, hrip, h12, h13, hrsp⟩
  · rintro rfl
    obtain ⟨hrip, rfl⟩ := hstep
    have hcontext := h.context
    cases hfs : s.interrupted s.current with
    | nil =>
        rw [hfs] at hcontext
        exact absurd hrip (Outside.exit hcontext 16)
    | cons f fs =>
        rw [hfs] at hcontext
        obtain ⟨hregs, hrip', hrflags, -⟩ := hcontext.iretq hrip rfl
        refine ⟨f, fs, rfl, ?_, hregs, hrip', hrflags⟩
        show (if Place.exit 16 = .exit 16 then
          Function.update s.interrupted s.current (f :: fs).tail
          else s.interrupted) s.current = fs
        rw [if_pos rfl, Function.update_self]
        rfl
  · rintro rfl
    obtain ⟨hrip, rfl⟩ := hstep
    obtain ⟨-, -, hcall⟩ := h.context.trampoline hrip rfl
    obtain ⟨-, entry, arg, hcreated, hrip', hrdi, hstack⟩ := hcall rfl
    have hsize := h.size s.current (by rw [hcreated]; simp)
    obtain ⟨hrsp, halign, -⟩ := hstack (by omega)
    exact ⟨entry, arg, hcreated, hrip', hrdi, hrsp, by rw [hrsp]; exact halign⟩

/-- Code addresses for two threads. -/
def twoThreadText : KernelText where
  address
    | .exit j => BitVec.ofNat 64 (0x100 + j)
    | .trampoline k => BitVec.ofNat 64 (0x200 + k)
  contextSwitch := 0x300
  irqStub vector := 0x400 + vector
  isrDispatch := 0x500
  afterEntry := 0x600
  address_injective := by
    rintro (j | k) (j' | k') h
    all_goals revert h
    · revert j j'; decide
    · revert j k'; decide
    · revert k j'; decide
    · revert k k'; decide
  isrDispatch_ne := by rintro (j | k) <;> [revert j; revert k] <;> decide

/-- The bootstrap thread `false` and a thread `true` with a stack of four pages. -/
def twoThreadLayout : StackLayout Bool where
  lo t := if t then 0x20000 else 0x10000
  hi t := if t then 0x24000 else 0x20000
  cell t := if t then 0x1008 else 0x1000
  hi_lt := by decide
  stacksApart := by decide
  cellOff := by decide
  cellsApart := by decide

/-- The bootstrap thread, about to create a thread and switch to it. -/
def bootstrapCpu : Cpu where
  regs
    | .rdi => 0x1000
    | .rsi => 0x23fc8
    | .rsp => 0x18000
    | _ => 0
  rip := 0x700
  rflags := 0x202
  cs := 0x08
  ss := 0x10
  mem _ := 0

/-- The first run of a thread with entry function `0x800` and argument 42. -/
theorem threads_resume_intact_twoThreads :
    ∃ s, (switchSystem twoThreadText twoThreadLayout false).Reachable s ∧
      s.cpu.rip = twoThreadText.address (.trampoline 0) ∧ s.cpu.regs .r12 = 0x800 ∧
      s.cpu.regs .r13 = 42 ∧ s.cpu.rsp.toNat = 0x24000 := by
  have hcode : ∀ rip : Word, 0x300 ≤ rip.toNat → twoThreadText.Compiled rip := by
    rintro rip hrip (j | k) rfl
    · have hlt : ∀ j : Fin 17, (twoThreadText.address (.exit j)).toNat < 0x300 := by decide
      have := hlt j
      omega
    · have hlt : ∀ k : Fin 3, (twoThreadText.address (.trampoline k)).toNat < 0x300 := by decide
      have := hlt k
      omega
  set s₀ : Switching Bool :=
    ⟨bootstrapCpu, false, Function.update (fun _ => .none) false .running, fun _ => [],
      fun _ => none⟩ with hs₀
  have hinit : (switchSystem twoThreadText twoThreadLayout false).init s₀ :=
    ⟨hcode _ (by decide), rfl, rfl, rfl, rfl⟩
  have hcreate : (switchSystem twoThreadText twoThreadLayout false).step s₀
      (.create true 0x20000 0x800 42) _ :=
    ⟨hcode _ (by decide), hcode _ (by decide), rfl, rfl, rfl, rfl, rfl⟩
  set s₁ : Switching Bool := { s₀ with
    cpu := threadCreate twoThreadText s₀.cpu 0x20000 (twoThreadLayout.cell true) 0x800 42
    status := Function.update s₀.status true .fresh
    created := Function.update s₀.created true (some (0x800, 42)) } with hs₁
  have hrsi : s₁.cpu.regs .rsi = load64 s₁.cpu.mem (twoThreadLayout.cell true).toNat := by
    have hthread : threadCreate twoThreadText s₀.cpu 0x20000 (twoThreadLayout.cell true) 0x800 42 =
        s₁.cpu := rfl
    obtain ⟨hregs, -, m, sp, hmem, hsp, -, -⟩ := threadCreate_spec (by decide) hthread
    rw [hregs, hmem, load64_store64]
    exact BitVec.eq_of_toNat_eq (hsp ▸ rfl)
  have hswitch : (switchSystem twoThreadText twoThreadLayout false).step s₁ (.switch true 0x710) _ :=
    ⟨hcode _ (by decide), hcode _ (by decide), by decide, by simp [hs₁], rfl, hrsi, by decide,
      by decide, rfl⟩
  have hreach := (System.Reachable.init hinit).step hcreate
  obtain ⟨-, hfresh⟩ := (threads_resume_intact hreach hswitch).1 true 0x710 rfl
  obtain ⟨entry, arg, hcreated, hrip, h12, h13, hrsp⟩ := hfresh rfl
  obtain ⟨rfl, rfl⟩ : 0x800 = entry ∧ 42 = arg := by simpa [hs₁] using hcreated
  exact ⟨_, hreach.step hswitch, hrip, h12, h13, hrsp⟩

end Theorem

end QuinKernel
