import QuinKernel.Sched.Preempt

/-!
# Whose stack the CPU is on

`current` moves on under the lock, the stack only in `context_switch`, and in
between `IF` is restored. An activation of `switch_to_next` is *in flight* in
that window. A timer interrupt that expires the slice there starts a second
`switch_to_next` on the stack of the first one's `prev`, with the first one's
`next` as its own `prev` (`context_switch_on_foreign_stack`).

Without such an interrupt the invariant `OwnStacks` holds: the CPU is on the
stack of `current`, or of the `prev` of the one activation in flight, and every
other thread's stack pointer names its own stack as its last suspension left
it.
-/

namespace QuinKernel

open Machine

variable {T : Type}

/-- Past the choice of the next thread and not yet off the stack. -/
def SwitchFrame.InFlight (f : SwitchFrame T) : Prop :=
  f.pc ∈ [.call, .save, .load] ∨ f.next ≠ f.prev ∧ f.pc ∈ [.release, .popfq, .reset, .test]

/-- The CPU is in an activation in flight, or in handlers above one. -/
def InWindow : List (Frame T) → Prop
  | .isr _ :: fs => InWindow fs
  | .switch f :: _ => f.InFlight
  | _ => False

/-- The slice does not expire while an activation is in flight. -/
def slicesEndOutside (s : Preempt T) (e : PreemptEvent T) : Prop :=
  e = .timer → InWindow (s.stackOf s.running) → ¬ s.sched.countTick.SliceExpired

instance [DecidableEq T] (f : SwitchFrame T) : Decidable f.InFlight := by
  unfold SwitchFrame.InFlight
  infer_instance

instance decidableInWindow [DecidableEq T] : ∀ fs : List (Frame T), Decidable (InWindow fs)
  | [] | .body :: _ | .fresh _ :: _ => .isFalse id
  | .isr _ :: fs => decidableInWindow fs
  | .switch f :: _ => inferInstanceAs (Decidable f.InFlight)

instance [DecidableEq T] (s : Preempt T) : ∀ e, Decidable (slicesEndOutside s e)
  | .timer => decidable_of_iff
      (InWindow (s.stackOf s.running) → ¬ s.sched.countTick.SliceExpired) (by simp [slicesEndOutside])
  | .setIf _ | .yield | .create _ | .trampoline | .iretq | .exec =>
      .isTrue (by simp [slicesEndOutside])

/-- No activation on the stack is in flight. -/
def Settled (fs : List (Frame T)) : Prop := ∀ f, .switch f ∈ fs → ¬ f.InFlight

/-- Under handlers only, the stack carries `f`, in flight. -/
def Carries (f : SwitchFrame T) : List (Frame T) → Prop
  | .isr _ :: fs => Carries f fs
  | .switch g :: fs => g = f ∧ f.InFlight ∧ Settled fs
  | _ => False

/-- What an activation in flight knows. -/
structure InFlightOk (s : Preempt T) (f : SwitchFrame T) : Prop where
  prev : f.prev = s.running
  next : f.next = s.sched.current
  ne : f.next ≠ f.prev
  newSp : f.pc = .save ∨ f.pc = .load → f.newSp = s.stackPointer f.next
  saved : f.pc = .load → s.stackPointer f.prev = some ⟨f.prev, f.stamp⟩

/-- The thread is off the CPU: its stack pointer names its own stack, as its
last suspension left it. -/
def Suspended (s : Preempt T) (t : T) : Prop :=
  ∃ k, s.stackPointer t = some ⟨t, k⟩ ∧ Parked k (s.stackOf t)

/-- The CPU is on the stack of `current`, or of the `prev` of the activation in
flight. -/
def OnCpu (s : Preempt T) (fs : List (Frame T)) : Prop :=
  (Settled fs ∧ s.sched.current = s.running) ∨ ∃ f, Carries f fs ∧ InFlightOk s f

/-- Stacks are their threads' own. -/
structure OwnStacks (s : Preempt T) : Prop where
  runningMem : s.running ∈ s.threads
  currentMem : s.sched.current ∈ s.threads
  nextMem : ∀ t ∈ s.threads, s.sched.next t ∈ s.threads
  suspended : ∀ t ∈ s.threads, t ≠ s.running → Suspended s t ∧ Settled (s.stackOf t)
  onCpu : OnCpu s (s.stackOf s.running)

section Shapes

variable {f : SwitchFrame T} {fs : List (Frame T)}

theorem Carries.inWindow (h : Carries f fs) : InWindow fs := by
  induction fs with
  | nil => exact h
  | cons g fs ih =>
      cases g with
      | body => exact h
      | fresh => exact h
      | isr => exact ih h
      | switch g => exact h.1 ▸ h.2.1

theorem Settled.tail {g : Frame T} (h : Settled (g :: fs)) : Settled fs :=
  fun f hf => h f (List.mem_cons_of_mem _ hf)

theorem Settled.cons {g : Frame T} (h : Settled fs) (hg : ∀ f, g = .switch f → ¬ f.InFlight) :
    Settled (g :: fs) := by
  intro f hf
  rcases List.mem_cons.mp hf with heq | hf
  · exact hg f heq.symm
  · exact h f hf

theorem Settled.isr {b : Bool} (h : Settled fs) : Settled (.isr b :: fs) :=
  h.cons (fun _ heq => by cases heq)

theorem Settled.switch (h : Settled fs) (hf : ¬ f.InFlight) : Settled (.switch f :: fs) :=
  h.cons (fun _ heq => by cases heq; exact hf)

/-- An activation that has not chosen yet, or is done, is not in flight. -/
theorem not_inFlight_of_pc (h : f.pc ∈ [.pushfq, .cli, .acquire, .choose, .ret]) :
    ¬ f.InFlight := by
  unfold SwitchFrame.InFlight
  cases hpc : f.pc <;> simp [hpc] at h ⊢

end Shapes

section Steps

variable {s s' : Preempt T} {e : PreemptEvent T} {b : T}

/-- A step that changes no other thread's stack or stack pointer. -/
theorem OwnStacks.frame (h : OwnStacks s) (hrunning : s'.running = s.running)
    (hthreads : s'.threads = s.threads) (hnext : s'.sched.next = s.sched.next)
    (hcurrent : s'.sched.current ∈ s.threads)
    (hsp : ∀ t, t ≠ s.running → s'.stackPointer t = s.stackPointer t)
    (hstack : ∀ t, t ≠ s.running → s'.stackOf t = s.stackOf t)
    (honCpu : OnCpu s' (s'.stackOf s'.running)) : OwnStacks s' := by
  refine ⟨?_, ?_, ?_, ?_, honCpu⟩
  · rw [hrunning, hthreads]
    exact h.runningMem
  · rw [hthreads]
    exact hcurrent
  · rw [hnext, hthreads]
    exact h.nextMem
  · intro t ht hne
    rw [hthreads] at ht
    rw [hrunning] at hne
    unfold Suspended
    rw [hsp t hne, hstack t hne]
    exact h.suspended t ht hne

/-- What the CPU is on does not depend on `IF`, the lock or the ticks. -/
theorem OnCpu.congr {fs : List (Frame T)} (h : OnCpu s fs) (hrunning : s'.running = s.running)
    (hcurrent : s'.sched.current = s.sched.current) (hsp : s'.stackPointer = s.stackPointer) :
    OnCpu s' fs := by
  rcases h with ⟨hset, hcur⟩ | ⟨f, hcar, ⟨hprev, hnext, hne, hnew, hsaved⟩⟩
  · exact .inl ⟨hset, by rw [hcurrent, hrunning, hcur]⟩
  · refine .inr ⟨f, hcar, ⟨by rw [hrunning, hprev], by rw [hcurrent, hnext], hne, ?_, ?_⟩⟩
    · rwa [hsp]
    · rwa [hsp]

/-- Code of a thread itself runs with nothing in flight. -/
theorem OnCpu.settled {fs : List (Frame T)} {g : Frame T} (h : OnCpu s (g :: fs))
    (hg : ∀ f, ¬ Carries f (g :: fs)) : Settled (g :: fs) ∧ s.sched.current = s.running := by
  rcases h with h | ⟨f, hcar, -⟩
  · exact h
  · exact absurd hcar (hg f)

section Top

variable {f : SwitchFrame T} {fs : List (Frame T)}

theorem OnCpu.of_inFlight (h : OnCpu s (.switch f :: fs)) (hf : f.InFlight) :
    Settled fs ∧ InFlightOk s f := by
  rcases h with ⟨hset, -⟩ | ⟨f', ⟨rfl, -, hset⟩, hok⟩
  · exact absurd hf (hset f List.mem_cons_self)
  · exact ⟨hset, hok⟩

theorem OnCpu.of_idle (h : OnCpu s (.switch f :: fs)) (hf : ¬ f.InFlight) :
    Settled fs ∧ s.sched.current = s.running := by
  rcases h with ⟨hset, hcur⟩ | ⟨f', ⟨rfl, hin, -⟩, -⟩
  · exact ⟨hset.tail, hcur⟩
  · exact absurd hin hf

theorem OnCpu.inFlight (hset : Settled fs) (hf : f.InFlight) (hok : InFlightOk s f) :
    OnCpu s (.switch f :: fs) :=
  .inr ⟨f, ⟨rfl, hf, hset⟩, hok⟩

theorem OnCpu.idle (hset : Settled fs) (hcur : s.sched.current = s.running)
    (hf : ¬ f.InFlight) : OnCpu s (.switch f :: fs) :=
  .inl ⟨hset.switch hf, hcur⟩

/-- Moving on inside the window, before the stack pointer is read. -/
theorem OnCpu.goto (h : OnCpu s (.switch f :: fs)) {pc : SwitchPc}
    (hpc : f.pc ∈ [.release, .popfq, .reset]) (hpc' : pc ∈ [.popfq, .reset, .test]) :
    OnCpu s (.switch { f with pc := pc } :: fs) := by
  have hold : f.InFlight ↔ f.next ≠ f.prev := by
    unfold SwitchFrame.InFlight
    cases h : f.pc <;> simp [h] at hpc ⊢
  have hnew : SwitchFrame.InFlight { f with pc := pc } ↔ f.next ≠ f.prev := by
    unfold SwitchFrame.InFlight
    cases pc <;> simp at hpc' ⊢
  by_cases hf : f.InFlight
  · obtain ⟨hset, hok⟩ := h.of_inFlight hf
    refine .inFlight hset (hnew.mpr hok.ne) ⟨hok.prev, hok.next, hok.ne, ?_, ?_⟩
    · rintro (rfl | rfl) <;> simp at hpc'
    · rintro rfl
      simp at hpc'
  · obtain ⟨hset, hcur⟩ := h.of_idle hf
    exact .idle hset hcur (fun hin => hf (hold.mpr (hnew.mp hin)))

end Top

variable [DecidableEq T]

/-- A step that only changes the running stack, `IF`, the lock and the ticks. -/
theorem OwnStacks.local (h : OwnStacks s) {fs : List (Frame T)} {readyLock iflag : Bool}
    {ticks : BitVec 64}
    (hs' : s' = { s with readyLock := readyLock, iflag := iflag, sched := { s.sched with
      ticksSinceSwitch := ticks } }.setStack fs) (honCpu : OnCpu s fs) : OwnStacks s' := by
  subst hs'
  refine h.frame rfl rfl rfl h.currentMem (fun _ _ => rfl) (fun t ht => Preempt.setStack_other _ _ ht) ?_
  rw [Preempt.setStack_running, Preempt.setStack_self]
  exact honCpu.congr rfl rfl rfl

/-- A new thread is suspended on its own stack. -/
theorem OwnStacks.create (h : OwnStacks s) {thread : T} {fs : List (Frame T)}
    (top : s.stackOf s.running = .body :: fs) (fresh : thread ∉ s.threads) :
    OwnStacks (s.createThread thread) := by
  have hne : s.running ≠ thread := fun heq => fresh (heq ▸ h.runningMem)
  have hold : ∀ t ∈ s.threads, t ≠ thread := fun t ht heq => fresh (heq ▸ ht)
  have hcur : s.sched.current ≠ thread := hold _ h.currentMem
  refine ⟨?_, ?_, ?_, ?_, ?_⟩
  · exact List.mem_append_left _ h.runningMem
  · exact List.mem_append_left _ h.currentMem
  · intro t ht
    by_cases htc : t = s.sched.current
    · rw [htc]
      change insertAfter s.sched.next s.sched.current thread s.sched.current ∈ _
      rw [insertAfter_self]
      exact List.mem_append_right _ (List.mem_singleton.mpr rfl)
    · by_cases htt : t = thread
      · rw [htt]
        change insertAfter s.sched.next s.sched.current thread thread ∈ _
        rw [insertAfter_new _ hcur.symm]
        exact List.mem_append_left _ (h.nextMem _ h.currentMem)
      · change insertAfter s.sched.next s.sched.current thread t ∈ _
        rw [insertAfter_other _ htc htt]
        rcases List.mem_append.mp ht with ht | ht
        · exact List.mem_append_left _ (h.nextMem t ht)
        · exact absurd (List.mem_singleton.mp ht) htt
  · intro t ht hrun
    by_cases htt : t = thread
    · subst htt
      refine ⟨⟨s.saves, Function.update_self .., ?_⟩, ?_⟩
      · change Parked s.saves (Function.update s.stackOf t [.fresh s.saves] t)
        rw [Function.update_self]
        rfl
      · change Settled (Function.update s.stackOf t [.fresh s.saves] t)
        rw [Function.update_self]
        intro f hf
        cases List.mem_singleton.mp hf
    · rcases List.mem_append.mp ht with ht | ht
      · obtain ⟨⟨k, hsp, hpark⟩, hset⟩ := h.suspended t ht hrun
        have hstack : (s.createThread thread).stackOf t = s.stackOf t :=
          Function.update_of_ne htt ..
        unfold Suspended
        rw [hstack]
        exact ⟨⟨k, (Function.update_of_ne htt ..).trans hsp, hpark⟩, hset⟩
      · exact absurd (List.mem_singleton.mp ht) htt
  · have hstack : (s.createThread thread).stackOf s.running = s.stackOf s.running :=
      Function.update_of_ne hne ..
    have honCpu := h.onCpu
    rw [top] at honCpu
    change OnCpu _ ((s.createThread thread).stackOf s.running)
    rw [hstack, top]
    exact .inl (honCpu.settled (fun _ hcar => hcar))

/-- `context_switch` leaves the stack of `prev`, suspended, for that of `next`. -/
theorem OwnStacks.load (h : OwnStacks s) {f : SwitchFrame T} {fs : List (Frame T)}
    (top : s.stackOf s.running = .switch f :: fs) (hpc : f.pc = .load) :
    ∃ s', s.execSwitch f fs = some s' ∧ OwnStacks s' := by
  have hin : f.InFlight := .inl (by simp [hpc])
  obtain ⟨hset, hok⟩ := (top ▸ h.onCpu : OnCpu s (.switch f :: fs)).of_inFlight hin
  have hne : f.next ≠ s.running := hok.prev ▸ hok.ne
  have hmem : f.next ∈ s.threads := hok.next ▸ h.currentMem
  obtain ⟨⟨k, hsp, hpark⟩, hsetNext⟩ := h.suspended f.next hmem hne
  have hstackNext : (s.suspend f fs).stackOf f.next = s.stackOf f.next :=
    Preempt.setStack_other _ _ hne
  have hstackPrev : (s.suspend f fs).stackOf s.running = .switch { f with pc := .ret } :: fs :=
    Preempt.setStack_self ..
  refine ⟨{ s.suspend f fs with running := f.next }, ?_, ?_⟩
  · simp only [Preempt.execSwitch, hpc, hok.newSp (.inr hpc), hsp]
    rw [if_pos (by rwa [hstackNext])]
  · refine ⟨hmem, h.currentMem, h.nextMem, fun t ht htn => ?_, .inl ⟨?_, hok.next.symm⟩⟩
    · by_cases htr : t = s.running
      · subst htr
        unfold Suspended
        rw [hstackPrev]
        refine ⟨⟨f.stamp, ?_, rfl, rfl⟩, hset.switch (not_inFlight_of_pc (by simp))⟩
        have := hok.saved hpc
        rwa [hok.prev] at this
      · have hstack : (s.suspend f fs).stackOf t = s.stackOf t := Preempt.setStack_other _ _ htr
        unfold Suspended
        rw [hstack]
        exact h.suspended t ht htr
    · rw [hstackNext]
      exact hsetNext

/-- Every statement of `switch_to_next` keeps the invariant. -/
theorem OwnStacks.exec (h : OwnStacks s) {f : SwitchFrame T} {fs : List (Frame T)}
    (top : s.stackOf s.running = .switch f :: fs) (run : s.execSwitch f fs = some s') :
    OwnStacks s' := by
  have honCpu : OnCpu s (.switch f :: fs) := top ▸ h.onCpu
  -- before the choice nothing is in flight
  have hearly : ∀ g : SwitchFrame T, f.pc ∈ [.pushfq, .cli, .acquire, .choose, .ret] →
      g.pc ∈ [.pushfq, .cli, .acquire, .choose, .ret] → OnCpu s (.switch g :: fs) := by
    intro g hf hg
    obtain ⟨hset, hcur⟩ := honCpu.of_idle (not_inFlight_of_pc hf)
    exact .idle hset hcur (not_inFlight_of_pc hg)
  unfold Preempt.execSwitch at run
  cases hpc : f.pc <;> simp only [hpc] at run
  case pushfq =>
    exact h.local (Option.some.inj run).symm (hearly _ (by simp [hpc]) (by simp))
  case cli =>
    exact h.local (Option.some.inj run).symm (hearly _ (by simp [hpc]) (by simp))
  case acquire =>
    split at run
    · rw [← Option.some.inj run]
      exact h
    · exact h.local (Option.some.inj run).symm (hearly _ (by simp [hpc]) (by simp))
  case choose =>
    obtain ⟨hset, hcur⟩ := honCpu.of_idle (not_inFlight_of_pc (by simp [hpc]))
    rw [← Option.some.inj run]
    refine h.frame rfl rfl rfl (h.nextMem _ h.currentMem) (fun _ _ => rfl)
      (fun t ht => Preempt.setStack_other _ _ ht) ?_
    rw [Preempt.setStack_running, Preempt.setStack_self]
    by_cases hne : s.sched.next s.sched.current = s.sched.current
    · refine .idle hset ?_ ?_
      · change s.sched.next s.sched.current = s.running
        rw [hne, hcur]
      · simp [SwitchFrame.InFlight, hne]
    · refine .inFlight hset ?_ ⟨hcur, rfl, hne, by simp, by simp⟩
      exact .inr ⟨hne, by simp⟩
  case release =>
    exact h.local (Option.some.inj run).symm (honCpu.goto (by simp [hpc]) (by simp))
  case popfq =>
    exact h.local (Option.some.inj run).symm (honCpu.goto (by simp [hpc]) (by simp))
  case reset =>
    exact h.local (Option.some.inj run).symm (honCpu.goto (by simp [hpc]) (by simp))
  case test =>
    refine h.local (Option.some.inj run).symm ?_
    by_cases hne : f.next ≠ f.prev
    · obtain ⟨hset, hok⟩ := honCpu.of_inFlight (.inr ⟨hne, by simp [hpc]⟩)
      rw [if_pos hne]
      exact .inFlight hset (.inl (by simp)) ⟨hok.prev, hok.next, hne, by simp, by simp⟩
    · obtain ⟨hset, hcur⟩ := honCpu.of_idle (by simp [SwitchFrame.InFlight, hpc, not_not.mp hne])
      rw [if_neg hne]
      exact .idle hset hcur (not_inFlight_of_pc (by simp))
  case call =>
    obtain ⟨hset, hok⟩ := honCpu.of_inFlight (.inl (by simp [hpc]))
    refine h.local (Option.some.inj run).symm (.inFlight hset (.inl (by simp)) ?_)
    exact ⟨hok.prev, hok.next, hok.ne, fun _ => rfl, by simp⟩
  case save =>
    obtain ⟨hset, hok⟩ := honCpu.of_inFlight (.inl (by simp [hpc]))
    rw [← Option.some.inj run]
    refine h.frame rfl rfl rfl h.currentMem (fun t ht => ?_)
      (fun t ht => Preempt.setStack_other _ _ ht) ?_
    · rw [← hok.prev] at ht
      exact Function.update_of_ne ht ..
    · rw [Preempt.setStack_running, Preempt.setStack_self]
      refine .inFlight hset (.inl (by simp)) ⟨hok.prev, hok.next, hok.ne, fun _ => ?_, fun _ => ?_⟩
      · change f.newSp = Function.update s.stackPointer f.prev _ f.next
        rw [Function.update_of_ne hok.ne]
        exact hok.newSp (.inl hpc)
      · change Function.update s.stackPointer f.prev _ f.prev = _
        rw [Function.update_self, hok.prev]
  case load =>
    obtain ⟨s'', hrun, hs''⟩ := h.load top hpc
    unfold Preempt.execSwitch at hrun
    simp only [hpc] at hrun
    rw [run] at hrun
    exact Option.some.inj hrun ▸ hs''
  case ret =>
    obtain ⟨hset, hcur⟩ := honCpu.of_idle (not_inFlight_of_pc (by simp [hpc]))
    exact h.local (Option.some.inj run).symm (.inl ⟨hset, hcur⟩)

/-- Every step keeps the invariant, if no slice ends in the window. -/
theorem OwnStacks.moved (h : OwnStacks s) (hend : slicesEndOutside s e) (hmove : s.Moved e s') :
    OwnStacks s' := by
  have honCpu := h.onCpu
  cases hmove with
  | setIf top =>
      exact h.frame rfl rfl rfl h.currentMem (fun _ _ => rfl) (fun _ _ => rfl)
        (honCpu.congr rfl rfl rfl)
  | yield top =>
      rw [top] at honCpu
      obtain ⟨hset, hcur⟩ := honCpu.settled (fun _ hcar => hcar)
      exact h.local rfl (.idle hset hcur (not_inFlight_of_pc (by simp [SwitchFrame.enter])))
  | create top fresh => exact h.create top fresh
  | trampoline top =>
      rw [top] at honCpu
      obtain ⟨hset, hcur⟩ := honCpu.settled (fun _ hcar => hcar)
      exact h.local rfl (.inl ⟨hset.tail.cons (fun _ heq => by cases heq), hcur⟩)
  | timer enabled =>
      unfold Preempt.timerTick
      dsimp only
      split
      · next hexp =>
          -- the handler switches: nothing was in flight
          rcases honCpu with ⟨hset, hcur⟩ | ⟨f, hcar, -⟩
          · exact h.local rfl (.idle hset.isr hcur
              (not_inFlight_of_pc (by simp [SwitchFrame.enter])))
          · exact absurd hexp (hend rfl hcar.inWindow)
      · refine h.local rfl ?_
        rcases honCpu with ⟨hset, hcur⟩ | ⟨f, hcar, hok⟩
        · exact .inl ⟨hset.isr, hcur⟩
        · exact .inr ⟨f, hcar, hok⟩
  | iretq top =>
      rw [top] at honCpu
      refine h.local rfl ?_
      rcases honCpu with ⟨hset, hcur⟩ | ⟨f, hcar, hok⟩
      · exact .inl ⟨hset.tail, hcur⟩
      · exact .inr ⟨f, hcar, hok⟩
  | exec top run => exact h.exec top run

/-- The loaded stack pointer always names a suspended stack. -/
theorem OwnStacks.not_staleLoad (h : OwnStacks s) : ¬ s.StaleLoad := by
  rintro ⟨f, fs, top, hpc, hstale⟩
  obtain ⟨s', run, -⟩ := h.load top hpc
  simp only [Preempt.execSwitch, hpc] at run
  cases hsp : f.newSp with
  | none => simp [hsp] at run
  | some p =>
      simp only [hsp] at run
      split at run
      · next hpark => exact hstale ⟨p, hsp, hpark⟩
      · cases run

theorem ownStacks_start (nexts : T → T) (ids : T → BitVec 64) (iflag : Bool) :
    OwnStacks (Preempt.start b nexts ids iflag) := by
  have hstack : (Preempt.start b nexts ids iflag).stackOf b = [.body] := by
    simp [Preempt.start]
  refine ⟨List.mem_singleton.mpr rfl, List.mem_singleton.mpr rfl, ?_, ?_, ?_⟩
  · intro t ht
    rw [List.mem_singleton.mp ht]
    exact List.mem_singleton.mpr (Function.update_self ..)
  · intro t ht hne
    exact absurd (List.mem_singleton.mp ht) hne
  · change OnCpu _ ((Preempt.start b nexts ids iflag).stackOf b)
    rw [hstack]
    refine .inl ⟨fun f hf => ?_, rfl⟩
    cases List.mem_singleton.mp hf

/-- **Stacks stay their threads' own** as long as no slice ends in the window. -/
theorem ownStacks_invariant (b : T) :
    ((preemptSystem b).restrict slicesEndOutside).Invariant OwnStacks := by
  refine System.Inductive.invariant ⟨?_, ?_⟩
  · rintro s ⟨nexts, ids, iflag, rfl⟩
    exact ownStacks_start nexts ids iflag
  · rintro s e s' h ⟨hend, hstep | ⟨-, hstale⟩⟩
    · exact h.moved hend (Preempt.moved_of_after hstep)
    · exact absurd hstale h.not_staleLoad

end Steps

/-- **`context_switch` runs on `prev`'s stack** in every state reached without
a slice ending between `popfq` and the load of the new stack pointer; and every
thread that is not running has a stack pointer into its own stack, left there
by its last suspension. -/
theorem context_switch_on_own_stack {T : Type} [DecidableEq T] {bootstrapThread : T}
    {s : Preempt T}
    (h : ((preemptSystem bootstrapThread).restrict slicesEndOutside).Reachable s) :
    (∀ f fs, s.stackOf s.running = .switch f :: fs → f.pc ∈ [.call, .save, .load] →
      s.running = f.prev) ∧
    ∀ t ∈ s.threads, t ≠ s.running → Suspended s t := by
  have hown := ownStacks_invariant bootstrapThread s h
  refine ⟨fun f fs top hpc => ?_, fun t ht hne => (hown.suspended t ht hne).1⟩
  exact ((top ▸ hown.onCpu : OnCpu s (.switch f :: fs)).of_inFlight (.inl hpc)).2.prev.symm

/-- The bootstrap thread yields to a thread it has created, and a tick is taken in the
window; then the other thread's slice ends, and the handler is about to save. -/
theorem context_switch_on_own_stack_twoThreads :
    ∃ s : Preempt Nat, ((preemptSystem 0).restrict slicesEndOutside).Reachable s ∧
      (∃ f fs, s.stackOf s.running = .switch f :: fs ∧ f.caller = .tick ∧ f.pc = .save ∧
        f.prev = 1 ∧ s.running = f.prev) ∧
      Suspended s 0 := by
  let s₀ : Preempt Nat := Preempt.start 0 (fun _ => 0) (fun _ => 0) true
  let es : List (PreemptEvent Nat) := List.flatten [[.create 1, .yield],
    List.replicate 6 .exec, [.timer, .iretq], List.replicate 5 .exec, [.trampoline],
    (List.replicate 9 [.timer, .iretq]).flatten, [.timer], List.replicate 9 .exec]
  have hrun : ((System.runAll (System.onlyIf slicesEndOutside Preempt.after) s₀ es).map
      (fun s => (s.threads, s.running, (s.stackOf s.running).head?))) =
      some ([0, 1], 1, some (.switch ⟨.tick, .save, false, 1, 0, some ⟨0, 1⟩, 0⟩)) := by
    decide +kernel
  obtain ⟨s, hs, hview⟩ := Option.map_eq_some_iff.mp hrun
  obtain ⟨hthreads, hview⟩ := Prod.mk.inj hview
  obtain ⟨hrunning, htop⟩ := Prod.mk.inj hview
  obtain ⟨fs, hstack⟩ := List.head?_eq_some_iff.mp htop
  have hreach : ((preemptSystem 0).restrict slicesEndOutside).Reachable s :=
    (System.run_of_onlyIf (fun _ _ _ hstep => Or.inl hstep) hs).reachable (.init ⟨_, _, _, rfl⟩)
  obtain ⟨hown, hother⟩ := context_switch_on_own_stack hreach
  exact ⟨s, hreach, ⟨_, fs, hstack, rfl, rfl, rfl, hown _ fs hstack (by simp)⟩,
    hother 0 (by simp [hthreads]) (by simp [hrunning])⟩

/-- **A slice that ends in the window.** The bootstrap thread yields in the
last tick of its slice and is interrupted right after `popfq`: the handler's
`context_switch` saves the bootstrap thread's stack into thread 1. -/
theorem context_switch_on_foreign_stack :
    ∃ s : Preempt Nat, (preemptSystem 0).Reachable s ∧
      ∃ f fs, s.stackOf s.running = .switch f :: fs ∧ f.pc = .save ∧
        s.running = 0 ∧ f.prev = 1 := by
  let s₀ : Preempt Nat := Preempt.start 0 (fun _ => 0) (fun _ => 0) true
  let es : List (PreemptEvent Nat) := List.flatten [[.create 1],
    (List.replicate 9 [.timer, .iretq]).flatten, .yield :: List.replicate 6 .exec,
    .timer :: List.replicate 9 .exec]
  have hrun : ((s₀.afterAll es).map (fun s => (s.running, (s.stackOf s.running).head?))) =
      some (0, some (.switch ⟨.tick, .save, false, 1, 0, none, 0⟩)) := by decide +kernel
  obtain ⟨s, hs, hview⟩ := Option.map_eq_some_iff.mp hrun
  obtain ⟨hrunning, htop⟩ := Prod.mk.inj hview
  obtain ⟨fs, hstack⟩ := List.head?_eq_some_iff.mp htop
  exact ⟨s, (Preempt.run_of_afterAll hs).reachable (.init ⟨_, _, _, rfl⟩), _, fs, hstack, rfl,
    hrunning, rfl⟩

end QuinKernel
