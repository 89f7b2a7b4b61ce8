import QuinKernel.Sched.Model
import QuinKernel.Machine.System

/-!
# The scheduler under a timer that may tick anywhere

The scheduler statement by statement, on one CPU: the timer interrupt may be
taken before any step while `IF` is set. What a thread is in the middle of
stands on its stack as a list of frames, the innermost first; the CPU runs the
top frame of the stack its `rsp` is in, which is not always the stack of
`current`.

A stack pointer is the stack it points into and a number for the save that
left it: `context_switch` stamps the frame it suspends. Loading a stack
pointer that names no suspended frame any more pops whatever lies there; that
step may lead anywhere.

An interrupt gate clears `IF`, so the handler up to `sched_tick`'s decision is
one step; its return is a step of its own, since a handler that was switched
away from may be resumed with `IF` set.
-/

namespace QuinKernel

open Machine

variable {T : Type}

/-- The statements of `switch_to_next`, with those of the two lock functions,
and the two halves of `context_switch`. -/
inductive SwitchPc
  | pushfq
  | cli
  | acquire
  | choose
  | release
  | popfq
  | reset
  | test
  | call
  | save
  | load
  | ret
  deriving DecidableEq

/-- Who called `switch_to_next`: `sched_yield`, with `IF` as it was at the
call, or `sched_tick`. -/
inductive SwitchCaller
  | yield (callIf : Bool)
  | tick
  deriving DecidableEq

/-- A stack pointer: the thread whose stack it points into, and the save. -/
structure StackPointer (T : Type) where
  stack : T
  stamp : Nat
  deriving DecidableEq

/-- An activation of `switch_to_next`: its locals, and once it has called
`context_switch` the argument `new_sp` and the stamp of the save. -/
structure SwitchFrame (T : Type) where
  caller : SwitchCaller
  pc : SwitchPc
  flags : Bool
  prev : T
  next : T
  newSp : Option (StackPointer T)
  stamp : Nat
  deriving DecidableEq

/-- What stands on a stack: a thread's own code, the frame `thread_create`
builds, the timer handler with the `IF` it interrupted, `switch_to_next`. -/
inductive Frame (T : Type)
  | body
  | fresh (stamp : Nat)
  | isr (savedIf : Bool)
  | switch (f : SwitchFrame T)
  deriving DecidableEq

/-- The CPU, the scheduler, `ready_lock` and the threads' stacks. -/
structure Preempt (T : Type) where
  sched : Sched T
  readyLock : Bool
  iflag : Bool
  running : T
  stackOf : T → List (Frame T)
  stackPointer : T → Option (StackPointer T)
  threads : List T
  saves : Nat

/-- What happens next. -/
inductive PreemptEvent (T : Type)
  | setIf (b : Bool)
  | yield
  | create (thread : T)
  | trampoline
  | timer
  | iretq
  | exec

/-- The fresh activation of `switch_to_next`; its locals hold anything. -/
def SwitchFrame.enter (caller : SwitchCaller) (t : T) : SwitchFrame T :=
  ⟨caller, .pushfq, false, t, t, none, 0⟩

/-- A stack that was switched away from by save number `k`. -/
def Parked (k : Nat) : List (Frame T) → Prop
  | .fresh k' :: _ => k' = k
  | .switch f :: _ => f.pc = .ret ∧ f.stamp = k
  | _ => False

instance (k : Nat) (fs : List (Frame T)) : Decidable (Parked k fs) := by
  unfold Parked
  split <;> infer_instance

variable [DecidableEq T]

namespace Preempt

/-- Replace the stack the CPU is on. -/
def setStack (s : Preempt T) (fs : List (Frame T)) : Preempt T :=
  { s with stackOf := Function.update s.stackOf s.running fs }

/-- The suspended stack `sp` names, if there is one. -/
def Live (s : Preempt T) (sp : Option (StackPointer T)) : Prop :=
  ∃ p, sp = some p ∧ Parked p.stamp (s.stackOf p.stack)

/-- The state in which `context_switch` loads `new_sp`: `f` is suspended. -/
def suspend (s : Preempt T) (f : SwitchFrame T) (rest : List (Frame T)) : Preempt T :=
  s.setStack (.switch { f with pc := .ret } :: rest)

/-- The next statement of the activation `f` on top of `rest`. -/
def execSwitch (s : Preempt T) (f : SwitchFrame T) (rest : List (Frame T)) : Option (Preempt T) :=
  let goto (s : Preempt T) (f : SwitchFrame T) (pc : SwitchPc) :=
    s.setStack (.switch { f with pc := pc } :: rest)
  match f.pc with
  | .pushfq => some (goto s { f with flags := s.iflag } .cli)
  | .cli => some (goto { s with iflag := false } f .acquire)
  | .acquire => if s.readyLock then some s else some (goto { s with readyLock := true } f .choose)
  | .choose =>
      let f := { f with prev := s.sched.current, next := s.sched.next s.sched.current }
      some (goto { s with sched := s.sched.advance } f .release)
  | .release => some (goto { s with readyLock := false } f .popfq)
  | .popfq => some (goto { s with iflag := f.flags } f .reset)
  | .reset => some (goto { s with sched := s.sched.resetTicks } f .test)
  | .test => some (goto s f (if f.next ≠ f.prev then .call else .ret))
  | .call => some (goto s { f with newSp := s.stackPointer f.next } .save)
  | .save =>
      let sp := some ⟨s.running, s.saves⟩
      some (goto { s with
        stackPointer := Function.update s.stackPointer f.prev sp
        saves := s.saves + 1 } { f with stamp := s.saves } .load)
  | .load =>
      match f.newSp with
      | none => none
      | some p =>
          let s := s.suspend f rest
          if Parked p.stamp (s.stackOf p.stack) then some { s with running := p.stack } else none
  | .ret => some (s.setStack rest)

/-- `timer_tick_handler` up to the decision of `sched_tick`. -/
def timerTick (s : Preempt T) (fs : List (Frame T)) : Preempt T :=
  let s := { s with iflag := false, sched := s.sched.countTick }
  if s.sched.SliceExpired then
    s.setStack (.switch (.enter .tick s.running) :: .isr true :: fs)
  else s.setStack (.isr true :: fs)

/-- `thread_create` and `sched_add_thread`, for a new thread. -/
def createThread (s : Preempt T) (thread : T) : Preempt T :=
  { s with
    sched := schedAddThread s.sched thread
    stackOf := Function.update s.stackOf thread [.fresh s.saves]
    stackPointer := Function.update s.stackPointer thread (some ⟨thread, s.saves⟩)
    threads := s.threads ++ [thread]
    saves := s.saves + 1 }

/-- One step, where it is determined. -/
def after (s : Preempt T) (e : PreemptEvent T) : Option (Preempt T) :=
  match e, s.stackOf s.running with
  | .setIf b, .body :: _ => some { s with iflag := b }
  | .yield, .body :: fs =>
      some (s.setStack (.switch (.enter (.yield s.iflag) s.running) :: .body :: fs))
  | .create thread, .body :: _ =>
      if thread ∉ s.threads ∧ s.readyLock = false then some (s.createThread thread) else none
  | .trampoline, .fresh _ :: fs => some { s.setStack (.body :: fs) with iflag := true }
  | .timer, fs => if s.iflag then some (s.timerTick fs) else none
  | .iretq, .isr b :: fs => some { s.setStack fs with iflag := b }
  | .exec, .switch f :: fs => s.execSwitch f fs
  | _, _ => none

/-- `context_switch` is about to load a stack pointer that names no suspended
stack. -/
def StaleLoad (s : Preempt T) : Prop :=
  ∃ f rest, s.stackOf s.running = .switch f :: rest ∧ f.pc = .load ∧
    ¬ (s.suspend f rest).Live f.newSp

/-- One step; anything may follow a stale load. -/
def Step (s : Preempt T) (e : PreemptEvent T) (s' : Preempt T) : Prop :=
  s.after e = some s' ∨ e = .exec ∧ s.StaleLoad

/-- The bootstrap thread running after `sched_init`. -/
def start (bootstrapThread : T) (nexts : T → T) (ids : T → BitVec 64) (iflag : Bool) :
    Preempt T where
  sched := schedInit bootstrapThread (schedStatics bootstrapThread nexts ids)
  readyLock := false
  iflag := iflag
  running := bootstrapThread
  stackOf := Function.update (fun _ => []) bootstrapThread [.body]
  stackPointer := fun _ => none
  threads := [bootstrapThread]
  saves := 0

end Preempt

/-- One CPU, any number of threads, the timer. -/
def preemptSystem (bootstrapThread : T) : System (Preempt T) (PreemptEvent T) where
  init s := ∃ nexts ids iflag, s = Preempt.start bootstrapThread nexts ids iflag
  step := Preempt.Step

/-! ## What one step does -/

namespace Preempt

section SetStack

variable (s : Preempt T) (fs : List (Frame T))

@[simp] theorem setStack_sched : (s.setStack fs).sched = s.sched := rfl
@[simp] theorem setStack_readyLock : (s.setStack fs).readyLock = s.readyLock := rfl
@[simp] theorem setStack_iflag : (s.setStack fs).iflag = s.iflag := rfl
@[simp] theorem setStack_running : (s.setStack fs).running = s.running := rfl
@[simp] theorem setStack_stackPointer : (s.setStack fs).stackPointer = s.stackPointer := rfl
@[simp] theorem setStack_threads : (s.setStack fs).threads = s.threads := rfl

@[simp] theorem setStack_self : (s.setStack fs).stackOf s.running = fs :=
  Function.update_self ..

theorem setStack_other {t : T} (h : t ≠ s.running) : (s.setStack fs).stackOf t = s.stackOf t :=
  Function.update_of_ne h ..

end SetStack

/-- The determined steps, by the frame on top. -/
inductive Moved (s : Preempt T) : PreemptEvent T → Preempt T → Prop
  | setIf {b : Bool} {fs : List (Frame T)} (top : s.stackOf s.running = .body :: fs) :
      Moved s (.setIf b) { s with iflag := b }
  | yield {fs : List (Frame T)} (top : s.stackOf s.running = .body :: fs) :
      Moved s .yield (s.setStack (.switch (.enter (.yield s.iflag) s.running) :: .body :: fs))
  | create {thread : T} {fs : List (Frame T)} (top : s.stackOf s.running = .body :: fs)
      (fresh : thread ∉ s.threads) : Moved s (.create thread) (s.createThread thread)
  | trampoline {k : Nat} {fs : List (Frame T)} (top : s.stackOf s.running = .fresh k :: fs) :
      Moved s .trampoline { s.setStack (.body :: fs) with iflag := true }
  | timer (enabled : s.iflag = true) : Moved s .timer (s.timerTick (s.stackOf s.running))
  | iretq {b : Bool} {fs : List (Frame T)} (top : s.stackOf s.running = .isr b :: fs) :
      Moved s .iretq { s.setStack fs with iflag := b }
  | exec {f : SwitchFrame T} {fs : List (Frame T)} {s' : Preempt T}
      (top : s.stackOf s.running = .switch f :: fs) (run : s.execSwitch f fs = some s') :
      Moved s .exec s'

theorem moved_of_after {s s' : Preempt T} {e : PreemptEvent T} (h : s.after e = some s') :
    Moved s e s' := by
  unfold after at h
  split at h
  · next top =>
      cases h
      exact .setIf top
  · next top =>
      cases h
      exact .yield top
  · next top =>
      split at h
      · next hok =>
          cases h
          exact .create top hok.1
      · cases h
  · next top =>
      cases h
      exact .trampoline top
  · split at h
    · next hif =>
        cases h
        exact .timer hif
    · cases h
  · next top =>
      cases h
      exact .iretq top
  · next top => exact .exec top h
  · cases h

/-- Running the events in order, each determined. -/
def afterAll : Preempt T → List (PreemptEvent T) → Option (Preempt T)
  | s, [] => some s
  | s, e :: es => (s.after e).bind (fun s => s.afterAll es)

theorem run_of_afterAll {b : T} {es : List (PreemptEvent T)} :
    ∀ {s s' : Preempt T}, s.afterAll es = some s' → (preemptSystem b).Run s es s' := by
  induction es with
  | nil =>
      intro s s' h
      cases h
      exact .nil s
  | cons e es ih =>
      intro s s' h
      obtain ⟨s₁, hstep, hrest⟩ := Option.bind_eq_some_iff.mp h
      exact .cons (.inl hstep) (ih hrest)

/-- **An uninterrupted `switch_to_next` is the atomic one**, up to its call of
`context_switch`: the scheduler ends as `switchToNext` leaves it, `IF` and the
lock as they were, and the call is made for the pair `switchToNext` returns. -/
theorem switchToNext_uninterrupted {s : Preempt T} {f : SwitchFrame T} {fs : List (Frame T)}
    (top : s.stackOf s.running = .switch f :: fs) (hpc : f.pc = .pushfq)
    (hlock : s.readyLock = false) :
    ∃ s' f', s.afterAll (List.replicate 8 .exec) = some s' ∧
      s'.stackOf s'.running = .switch f' :: fs ∧ s'.running = s.running ∧
      s'.sched = (switchToNext s.sched).2 ∧ s'.iflag = s.iflag ∧ s'.readyLock = false ∧
      (switchToNext s.sched).1 = (if f'.pc = .call then some (f'.prev, f'.next) else none) := by
  have hrun : s.afterAll (List.replicate 8 .exec) =
      some ({ s with sched := (switchToNext s.sched).2 }.setStack (.switch { f with
        pc := if s.sched.next s.sched.current ≠ s.sched.current then .call else .ret
        flags := s.iflag
        prev := s.sched.current
        next := s.sched.next s.sched.current } :: fs)) := by
    obtain ⟨sched, lock, iflag, running, stackOf, sp, threads, saves⟩ := s
    obtain rfl : lock = false := hlock
    dsimp only at top
    simp [afterAll, List.replicate, after, top, hpc, execSwitch, setStack, switchToNext]
  refine ⟨_, _, hrun, setStack_self .., rfl, rfl, rfl, hlock, ?_⟩
  by_cases hne : s.sched.next s.sched.current = s.sched.current <;> simp [switchToNext, hne]

end Preempt

end QuinKernel
