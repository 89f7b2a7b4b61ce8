import QuinKernel.Sched.Preempt

/-!
# Interrupt dispatch (`isr.c`, `isr_stubs.S`) over the threads

What a thread is in the middle of stands on its stack as a list of activations,
the innermost first: the stubs with `isr_dispatch`, the registered handlers,
`switch_to_next`, and code of its own. The CPU runs the top one of the stack it
is on, one statement a step.

An interrupt of a device has a vector from 32 to 47. Delivering it puts the
vector in service in the LAPIC, which then withholds every interrupt that has no
higher priority class, until an EOI takes the highest vector in service out. A
spurious interrupt is never in service, and neither is an exception. All go
through interrupt gates, which clear `IF`; an exception may come at any time.

Whether the time slice has run out, what the ring says is next and whether a
page fault can be handled are left open, and a switch may be to any thread that
is fresh or was switched away from.
-/

namespace QuinKernel

open Machine

variable {T : Type}

/-- The statements of `isr_dispatch`, and the return through its stub. -/
inductive DispatchPc
  | test
  | eoi
  | handler
  | ret
  deriving DecidableEq

/-- An activation of `isr_common_stub` and `isr_dispatch`: the `vector` and `IF`
of its `interrupt_frame`. -/
structure Dispatch where
  vector : Nat
  savedIf : Bool
  pc : DispatchPc
  deriving DecidableEq

/-- What stands on a stack. -/
inductive Activation
  /-- A thread's own code. -/
  | body
  /-- The frame `thread_create` builds, at `thread_trampoline`. -/
  | fresh
  | dispatch (d : Dispatch)
  /-- `isr_stub_spurious`. -/
  | spurious (savedIf : Bool)
  /-- `timer_tick_handler`, in `sched_tick`. -/
  | schedTick
  | keyboardIsr
  | pageFaultIsr
  | switchToNext (pc : SwitchPc) (flags : Bool)
  /-- `panic_halt`. -/
  | panic
  deriving DecidableEq

/-- What the LAPIC sees: a vector delivered, and a write to `LAPIC_REG_EOI` by
the dispatcher of a vector that takes another out of service. -/
inductive LapicEvent
  | delivered (vector : Nat)
  | eoi (dispatched cleared : Nat)
  deriving DecidableEq

/-- The LAPIC, and what it saw so far. -/
structure Lapic where
  inService : Finset Nat
  log : List LapicEvent

/-- The CPU, the LAPIC and the threads' stacks. -/
structure Interrupts (T : Type) where
  iflag : Bool
  lapic : Lapic
  running : T
  stackOf : T → List Activation

/-- What happens next. -/
inductive InterruptEvent (T : Type)
  | deliver (vector : Nat)
  | spurious
  | exception (vector : Nat)
  | setIf (b : Bool)
  | yield
  | create (thread : T)
  | panic
  /-- The next statement of the top activation. -/
  | exec
  /-- `sched_tick` finds that the slice has run out, or not. -/
  | slice (expired : Bool)
  /-- `vmm_handle_page_fault` returns. -/
  | faultHandled (handled : Bool)
  /-- `next != prev`. -/
  | other (differs : Bool)
  /-- `context_switch` goes over to the stack of `thread`. -/
  | switchTo (thread : T)

/-- A priority class no higher than that of a vector in service. -/
def Lapic.Withholds (l : Lapic) (vector : Nat) : Prop :=
  ∃ w ∈ l.inService, vector / 16 ≤ w / 16

instance (l : Lapic) (vector : Nat) : Decidable (l.Withholds vector) :=
  inferInstanceAs (Decidable (∃ w ∈ l.inService, _))

/-- The LAPIC delivers a vector. -/
def Lapic.deliver (l : Lapic) (vector : Nat) : Lapic :=
  ⟨insert vector l.inService, l.log ++ [.delivered vector]⟩

/-- `lapic_send_eoi`, by the dispatcher of `vector`: the highest vector in
service is taken out. -/
def lapicSendEoi (l : Lapic) (vector : Nat) : Lapic :=
  let highest := l.inService.sup id
  ⟨l.inService.erase highest, l.log ++ [.eoi vector highest]⟩

/-- The table `handlers`, as `vmm_init`, `timer_init` and `keyboard_init` fill it. -/
def handlers (vector : Nat) : Option Activation :=
  if vector = 14 then some .pageFaultIsr
  else if vector = 32 then some .schedTick
  else if vector = 33 then some .keyboardIsr
  else none

namespace Interrupts

variable [DecidableEq T]

/-- Replace the stack the CPU is on. -/
def setStack (s : Interrupts T) (fs : List Activation) : Interrupts T :=
  { s with stackOf := Function.update s.stackOf s.running fs }

/-- Enter a stub through an interrupt gate. -/
def enter (s : Interrupts T) (a : Activation) : Interrupts T :=
  { s.setStack (a :: s.stackOf s.running) with iflag := false }

/-- The next statement of `isr_dispatch` on top of `fs`. -/
def execDispatch (s : Interrupts T) (d : Dispatch) (fs : List Activation) : Interrupts T :=
  let goto (pc : DispatchPc) := s.setStack (.dispatch { d with pc } :: fs)
  match d.pc with
  | .test => goto (if d.vector < 32 then .handler else .eoi)
  | .eoi => { goto .handler with lapic := lapicSendEoi s.lapic d.vector }
  | .handler =>
      match handlers d.vector with
      | some handler => s.setStack (handler :: .dispatch { d with pc := .ret } :: fs)
      | none =>
          if d.vector < 32 then s.setStack (.panic :: .dispatch { d with pc := .ret } :: fs)
          else goto .ret
  | .ret => { s.setStack fs with iflag := d.savedIf }

/-- The next statement of `switch_to_next` on top of `fs`, where it is determined. -/
def execSwitch (s : Interrupts T) (pc : SwitchPc) (flags : Bool) (fs : List Activation) :
    Option (Interrupts T) :=
  let goto (pc : SwitchPc) := s.setStack (.switchToNext pc flags :: fs)
  match pc with
  | .pushfq => some (s.setStack (.switchToNext .cli s.iflag :: fs))
  | .cli => some { goto .acquire with iflag := false }
  | .acquire => some (goto .choose)
  | .choose => some (goto .release)
  | .release => some (goto .popfq)
  | .popfq => some { goto .reset with iflag := flags }
  | .reset => some (goto .test)
  | .call => some (goto .save)
  | .save => some (goto .load)
  | .ret => some (s.setStack fs)
  | .test | .load => none

/-- One step. -/
def after (s : Interrupts T) (e : InterruptEvent T) : Option (Interrupts T) :=
  match e, s.stackOf s.running with
  | .deliver v, _ =>
      if s.iflag ∧ 32 ≤ v ∧ v ≤ 47 ∧ ¬ s.lapic.Withholds v then
        some { s.enter (.dispatch ⟨v, s.iflag, .test⟩) with lapic := s.lapic.deliver v }
      else none
  | .spurious, _ => if s.iflag then some (s.enter (.spurious s.iflag)) else none
  | .exception v, _ => if v < 32 then some (s.enter (.dispatch ⟨v, s.iflag, .test⟩)) else none
  | .setIf b, .body :: _ => some { s with iflag := b }
  | .yield, .body :: fs => some (s.setStack (.switchToNext .pushfq false :: .body :: fs))
  | .create thread, .body :: _ =>
      if s.stackOf thread = [] then
        some { s with stackOf := Function.update s.stackOf thread [.fresh] }
      else none
  | .panic, .body :: fs => some (s.setStack (.panic :: .body :: fs))
  | .exec, .fresh :: fs => some { s.setStack (.body :: fs) with iflag := true }
  | .exec, .dispatch d :: fs => some (s.execDispatch d fs)
  | .exec, .spurious savedIf :: fs => some { s.setStack fs with iflag := savedIf }
  | .exec, .keyboardIsr :: fs => some (s.setStack fs)
  | .exec, .panic :: _ => some { s with iflag := false }
  | .exec, .switchToNext pc flags :: fs => s.execSwitch pc flags fs
  | .slice expired, .schedTick :: fs =>
      some (s.setStack (if expired then .switchToNext .pushfq false :: fs else fs))
  | .faultHandled handled, .pageFaultIsr :: fs =>
      some (s.setStack (if handled then fs else .panic :: .pageFaultIsr :: fs))
  | .other differs, .switchToNext .test flags :: fs =>
      some (s.setStack (.switchToNext (if differs then .call else .ret) flags :: fs))
  | .switchTo thread, .switchToNext .load flags :: fs =>
      if thread ≠ s.running ∧ s.stackOf thread ≠ [] then
        some { s.setStack (.switchToNext .ret flags :: fs) with running := thread }
      else none
  | _, _ => none

end Interrupts

/-- One CPU, with any number of threads, its LAPIC and the devices. -/
def interruptSystem (T : Type) [DecidableEq T] (bootstrapThread : T) :
    System (Interrupts T) (InterruptEvent T) where
  init s := s.lapic = ⟨∅, []⟩ ∧ s.running = bootstrapThread ∧
    s.stackOf = Function.update (fun _ => []) bootstrapThread [.body]
  step s e s' := s.after e = some s'

end QuinKernel
