import QuinKernel.Sched.Preempt

/-!
# `IF` across `sched_yield`

`switch_to_next` puts `RFLAGS` back before it calls `context_switch`, so what a
thread resumes with is not its own `IF` but the one its successor's switch was
entered with. A switch made by the timer handler is entered with `IF` clear:
a thread that yielded with interrupts enabled comes back with them disabled
(`sched_yield_returns_disabled`).

`FlagsKept` says when a switch does no harm, and under it each activation knows
its `IF` at every statement (`SwitchFrame.Agrees`): the one at the call for
`sched_yield`, and the one at the entry of `switch_to_next` from `popfq` to the
switch. `StackFlags` carries that through the handlers above an activation,
which give back what they interrupted.
-/

namespace QuinKernel

open Machine

variable {T : Type}

/-- What an activation relies on while `IF` is `b`. -/
def SwitchFrame.Agrees (f : SwitchFrame T) (b : Bool) : Prop :=
  match f.pc with
  | .pushfq | .ret => ∀ c, f.caller = .yield c → b = c
  | .cli | .acquire | .choose | .release | .popfq => ∀ c, f.caller = .yield c → f.flags = c
  | .reset | .test | .call | .save | .load =>
      b = f.flags ∧ ∀ c, f.caller = .yield c → f.flags = c

/-- The activations on a stack agree with the `IF` they run or will run with:
`b` above the first handler, what a handler saved below it. -/
def StackFlags : List (Frame T) → Bool → Prop
  | [], _ => True
  | .isr saved :: fs, _ => StackFlags fs saved
  | .switch f :: fs, b => f.Agrees b ∧ ∀ b', StackFlags fs b'
  | .body :: fs, _ => ∀ b', StackFlags fs b'
  | .fresh _ :: fs, _ => ∀ b', StackFlags fs b'

/-- `IF` and every stack agree. -/
structure FlagsOk (s : Preempt T) : Prop where
  running : StackFlags (s.stackOf s.running) s.iflag
  suspended : ∀ t, t ≠ s.running → ∃ b, StackFlags (s.stackOf t) b

/-- The stack is suspended by save number `k`, and if a `sched_yield` is what
resumes on it, its call was made with `IF` at `b`. -/
def ResumesWith (b : Bool) (k : Nat) (fs : List (Frame T)) : Prop :=
  Parked k fs ∧ match fs with
    | .switch g :: _ => ∀ c, g.caller = .yield c → b = c
    | _ => True

instance (b : Bool) (k : Nat) (fs : List (Frame T)) : Decidable (ResumesWith b k fs) :=
  match fs with
  | .switch g :: gs =>
      inferInstanceAs (Decidable (Parked k (.switch g :: gs) ∧ ∀ c, g.caller = .yield c → b = c))
  | [] => inferInstanceAs (Decidable (Parked k [] ∧ True))
  | .isr c :: gs => inferInstanceAs (Decidable (Parked k (.isr c :: gs) ∧ True))
  | .body :: gs => inferInstanceAs (Decidable (Parked k (.body :: gs) ∧ True))
  | .fresh n :: gs => inferInstanceAs (Decidable (Parked k (.fresh n :: gs) ∧ True))

variable [DecidableEq T]

/-- The switch loads a stack pointer that names a suspended stack, and where it
resumes a `sched_yield`, its `switch_to_next` was entered with the `IF` of that
call. -/
def FlagsKept (s : Preempt T) (e : PreemptEvent T) : Prop :=
  e = .exec → ∀ f fs, s.stackOf s.running = .switch f :: fs → f.pc = .load →
    ∃ p, f.newSp = some p ∧ ResumesWith f.flags p.stamp ((s.suspend f fs).stackOf p.stack)

instance (s : Preempt T) (e : PreemptEvent T) : Decidable (FlagsKept s e) :=
  match e, hstack : s.stackOf s.running with
  | .exec, .switch f :: fs =>
      match hsp : f.newSp with
      | none => decidable_of_iff (f.pc ≠ .load) (by simp [FlagsKept, hstack, hsp])
      | some p => decidable_of_iff
          (f.pc = .load → ResumesWith f.flags p.stamp ((s.suspend f fs).stackOf p.stack))
          (by simp [FlagsKept, hstack, hsp])
  | .exec, [] | .exec, .body :: _ | .exec, .fresh _ :: _ | .exec, .isr _ :: _ =>
      .isTrue (by simp [FlagsKept, hstack])
  | .setIf _, _ | .yield, _ | .create _, _ | .trampoline, _ | .timer, _ | .iretq, _ =>
      .isTrue (by simp [FlagsKept])

section Steps

variable {s s' : Preempt T} {e : PreemptEvent T} {b : T}

/-- A step that changes the running stack and `IF`. -/
theorem FlagsOk.local (h : FlagsOk s) {fs : List (Frame T)} (hrunning : s'.running = s.running)
    (hstack : s'.stackOf = Function.update s.stackOf s.running fs)
    (hflags : StackFlags fs s'.iflag) : FlagsOk s' := by
  constructor
  · rwa [hrunning, hstack, Function.update_self]
  · intro t ht
    rw [hrunning] at ht
    rw [hstack, Function.update_of_ne ht]
    exact h.suspended t ht

/-- `context_switch` goes over to a stack whose top activation agrees. -/
theorem FlagsOk.load (h : FlagsOk s) {f : SwitchFrame T} {fs : List (Frame T)}
    (hkept : FlagsKept s .exec) (top : s.stackOf s.running = .switch f :: fs)
    (hpc : f.pc = .load) (run : s.execSwitch f fs = some s') : FlagsOk s' := by
  obtain ⟨p, hsp, hpark, hkeep⟩ := hkept rfl f fs top hpc
  have hrunning := h.running
  rw [top] at hrunning
  obtain ⟨hagrees, hrest⟩ := hrunning
  simp only [SwitchFrame.Agrees, hpc] at hagrees
  -- every stack is good once `f` is suspended
  have hall : ∀ t, ∃ b, StackFlags ((s.suspend f fs).stackOf t) b := by
    intro t
    by_cases ht : t = s.running
    · subst ht
      refine ⟨s.iflag, ?_⟩
      rw [Preempt.suspend, Preempt.setStack_self]
      exact ⟨fun c hc => hagrees.1.trans (hagrees.2 c hc), hrest⟩
    · rw [Preempt.suspend, Preempt.setStack_other _ _ ht]
      exact h.suspended t ht
  simp only [Preempt.execSwitch, hpc, hsp] at run
  rw [if_pos hpark] at run
  rw [← Option.some.inj run]
  refine ⟨?_, fun t _ => hall t⟩
  change StackFlags ((s.suspend f fs).stackOf p.stack) s.iflag
  obtain ⟨b', hb'⟩ := hall p.stack
  cases hstack : (s.suspend f fs).stackOf p.stack with
  | nil => trivial
  | cons g gs =>
      rw [hstack] at hpark hb' hkeep
      cases g with
      | body => exact hpark.elim
      | fresh k => exact hb'
      | isr saved => exact hpark.elim
      | switch g =>
          refine ⟨?_, hb'.2⟩
          simp only [SwitchFrame.Agrees, hpark.1]
          exact fun c hc => hagrees.1.trans (hkeep c hc)

/-- Every statement of `switch_to_next` keeps the flags. -/
theorem FlagsOk.exec (h : FlagsOk s) {f : SwitchFrame T} {fs : List (Frame T)}
    (hkept : FlagsKept s .exec) (top : s.stackOf s.running = .switch f :: fs)
    (run : s.execSwitch f fs = some s') : FlagsOk s' := by
  have hrunning := h.running
  rw [top] at hrunning
  obtain ⟨hagrees, hrest⟩ := hrunning
  cases hpc : f.pc
  case load => exact h.load hkept top hpc run
  all_goals
    simp only [SwitchFrame.Agrees, hpc] at hagrees
    simp only [Preempt.execSwitch, hpc] at run
  case pushfq =>
    rw [← Option.some.inj run]
    exact h.local rfl rfl ⟨hagrees, hrest⟩
  case cli =>
    rw [← Option.some.inj run]
    exact h.local rfl rfl ⟨hagrees, hrest⟩
  case acquire =>
    split at run
    · rw [← Option.some.inj run]
      exact h
    · rw [← Option.some.inj run]
      exact h.local rfl rfl ⟨hagrees, hrest⟩
  case choose =>
    rw [← Option.some.inj run]
    exact h.local rfl rfl ⟨hagrees, hrest⟩
  case release =>
    rw [← Option.some.inj run]
    exact h.local rfl rfl ⟨hagrees, hrest⟩
  case popfq =>
    rw [← Option.some.inj run]
    exact h.local rfl rfl ⟨⟨rfl, hagrees⟩, hrest⟩
  case reset =>
    rw [← Option.some.inj run]
    exact h.local rfl rfl ⟨hagrees, hrest⟩
  case test =>
    rw [← Option.some.inj run]
    refine h.local rfl rfl ⟨?_, hrest⟩
    split
    · exact hagrees
    · exact fun c hc => hagrees.1.trans (hagrees.2 c hc)
  case call =>
    rw [← Option.some.inj run]
    exact h.local rfl rfl ⟨hagrees, hrest⟩
  case save =>
    rw [← Option.some.inj run]
    exact h.local rfl rfl ⟨hagrees, hrest⟩
  case ret =>
    rw [← Option.some.inj run]
    exact h.local rfl rfl (hrest _)

/-- Every step keeps the flags, if switches do. -/
theorem FlagsOk.moved (h : FlagsOk s) (hkept : FlagsKept s e) (hmove : s.Moved e s') :
    FlagsOk s' := by
  have hrunning := h.running
  cases hmove with
  | setIf top =>
      rw [top] at hrunning
      refine ⟨?_, h.suspended⟩
      change StackFlags (s.stackOf s.running) _
      rw [top]
      exact hrunning
  | yield top =>
      rw [top] at hrunning
      refine h.local rfl rfl ⟨?_, fun _ => hrunning⟩
      intro c hc
      exact SwitchCaller.yield.inj hc
  | @create thread fs top fresh =>
      -- only the new stack changes, and nothing runs on it yet
      have hstack : ∀ t, ∃ fs, (s.createThread thread).stackOf t = fs ∧
          (fs = s.stackOf t ∨ ∀ b, StackFlags fs b) := by
        intro t
        refine ⟨_, rfl, ?_⟩
        by_cases ht : t = thread
        · subst ht
          right
          intro b
          change StackFlags (Function.update s.stackOf t [.fresh s.saves] t) b
          rw [Function.update_self]
          exact fun _ => trivial
        · left
          exact Function.update_of_ne ht ..
      constructor
      · obtain ⟨fs', heq, hor⟩ := hstack s.running
        change StackFlags ((s.createThread thread).stackOf s.running) s.iflag
        rw [heq]
        rcases hor with rfl | hall
        · exact hrunning
        · exact hall _
      · intro t ht
        obtain ⟨fs', heq, hor⟩ := hstack t
        rw [heq]
        rcases hor with rfl | hall
        · exact h.suspended t ht
        · exact ⟨false, hall _⟩
  | trampoline top =>
      rw [top] at hrunning
      exact h.local rfl rfl hrunning
  | timer enabled =>
      rw [enabled] at hrunning
      unfold Preempt.timerTick
      dsimp only
      split
      · refine h.local rfl rfl ⟨fun c hc => ?_, fun _ => hrunning⟩
        cases hc
      · exact h.local rfl rfl hrunning
  | iretq top =>
      rw [top] at hrunning
      exact h.local rfl rfl hrunning
  | exec top run => exact h.exec hkept top run

theorem flagsOk_start (nexts : T → T) (ids : T → BitVec 64) (iflag : Bool) :
    FlagsOk (Preempt.start b nexts ids iflag) := by
  constructor
  · change StackFlags (Function.update (fun _ => []) b [.body] b) iflag
    rw [Function.update_self]
    exact fun _ => trivial
  · intro t ht
    have ht : t ≠ b := ht
    refine ⟨false, ?_⟩
    change StackFlags (Function.update (fun _ => []) b [.body] t) false
    rw [Function.update_of_ne ht]
    trivial

/-- **Activations keep their `IF`** as long as every switch does. -/
theorem flagsOk_invariant (b : T) :
    ((preemptSystem b).restrict FlagsKept).Invariant FlagsOk := by
  refine System.Inductive.invariant ⟨?_, ?_⟩
  · rintro s ⟨nexts, ids, iflag, rfl⟩
    exact flagsOk_start nexts ids iflag
  · rintro s e s' h ⟨hkept, hstep | ⟨he, f, fs, top, hpc, hstale⟩⟩
    · exact h.moved hkept (Preempt.moved_of_after hstep)
    · obtain ⟨p, hsp, hpark, -⟩ := hkept he f fs top hpc
      exact absurd ⟨p, hsp, hpark⟩ hstale

end Steps

/-- **`sched_yield` returns with the `IF` it was called with**, in every state
reached through switches that keep it: whatever interrupts and switches came
between, the activation at its return runs with the `IF` of its call. -/
theorem sched_yield_keeps_if {T : Type} [DecidableEq T] {bootstrapThread : T} {s : Preempt T}
    (h : ((preemptSystem bootstrapThread).restrict FlagsKept).Reachable s)
    {f : SwitchFrame T} {fs : List (Frame T)} {callIf : Bool}
    (top : s.stackOf s.running = .switch f :: fs) (hpc : f.pc = .ret)
    (hcaller : f.caller = .yield callIf) : s.iflag = callIf := by
  have hrunning := (flagsOk_invariant bootstrapThread s h).running
  rw [top] at hrunning
  have hagrees := hrunning.1
  simp only [SwitchFrame.Agrees, hpc] at hagrees
  exact hagrees callIf hcaller

/-- Two threads that yield to each other with interrupts enabled: the bootstrap
thread is back in its first call. -/
theorem sched_yield_keeps_if_twoThreads :
    ∃ s : Preempt Nat, s.running = 0 ∧ s.iflag = true ∧
      ∃ f fs, s.stackOf s.running = .switch f :: fs ∧ f.pc = .ret ∧ f.stamp = 1 := by
  let s₀ : Preempt Nat := Preempt.start 0 (fun _ => 0) (fun _ => 0) true
  let es : List (PreemptEvent Nat) := List.flatten [[.create 1, .yield],
    List.replicate 11 .exec, [.trampoline, .yield], List.replicate 11 .exec]
  have hrun : ((System.runAll (System.onlyIf FlagsKept Preempt.after) s₀ es).map
      (fun s => (s.running, (s.stackOf s.running).head?))) =
      some (0, some (.switch ⟨.yield true, .ret, true, 0, 1, some ⟨1, 0⟩, 1⟩)) := by
    decide +kernel
  obtain ⟨s, hs, hview⟩ := Option.map_eq_some_iff.mp hrun
  obtain ⟨hrunning, htop⟩ := Prod.mk.inj hview
  obtain ⟨fs, hstack⟩ := List.head?_eq_some_iff.mp htop
  have hreach : ((preemptSystem 0).restrict FlagsKept).Reachable s :=
    (System.run_of_onlyIf (fun _ _ _ hstep => Or.inl hstep) hs).reachable (.init ⟨_, _, _, rfl⟩)
  exact ⟨s, hrunning, sched_yield_keeps_if hreach hstack rfl rfl, _, fs, hstack, rfl, rfl⟩

/-- **A yield that returns with interrupts disabled.** The bootstrap thread
yields with `IF` set to a thread whose slice then ends in the timer handler:
the handler's switch is entered with `IF` clear, and that is what the bootstrap
thread's `sched_yield` returns with. -/
theorem sched_yield_returns_disabled :
    ∃ s : Preempt Nat, (preemptSystem 0).Reachable s ∧
      ∃ f fs, s.stackOf s.running = .switch f :: fs ∧ f.pc = .ret ∧
        f.caller = .yield true ∧ s.iflag = false := by
  let s₀ : Preempt Nat := Preempt.start 0 (fun _ => 0) (fun _ => 0) true
  let es : List (PreemptEvent Nat) := List.flatten [[.create 1, .yield],
    List.replicate 11 .exec, [.trampoline], (List.replicate 9 [.timer, .iretq]).flatten,
    [.timer], List.replicate 11 .exec]
  have hrun : ((s₀.afterAll es).map (fun s => (s.iflag, (s.stackOf s.running).head?))) =
      some (false, some (.switch ⟨.yield true, .ret, true, 0, 1, some ⟨1, 0⟩, 1⟩)) := by
    decide +kernel
  obtain ⟨s, hs, hview⟩ := Option.map_eq_some_iff.mp hrun
  obtain ⟨hif, htop⟩ := Prod.mk.inj hview
  obtain ⟨fs, hstack⟩ := List.head?_eq_some_iff.mp htop
  exact ⟨s, (Preempt.run_of_afterAll hs).reachable (.init ⟨_, _, _, rfl⟩), _, fs, hstack, rfl,
    rfl, hif⟩

end QuinKernel
