import QuinKernel.Machine.Simulation
import QuinKernel.Sched.Ready
import QuinKernel.Sched.Threads
import QuinKernel.Vmm.Accounting

/-!
# The scheduler in memory is the ring scheduler

`readySystem` links its threads through a function; `threadSystem` links them
through fields of heap blocks that the allocator and any client of the heap
write around. `InMemory` reads the first off the second, and each call of the
second is one of the first, or nothing to it (`ringSimulation`). So what holds of
the ring holds of the memory: the links visit every thread once, and no thread
waits longer than ten ticks for each link between it and `current`
(`thread_never_starves`).

All of this is about runs in which the stacks of the threads created end below the
MMIO window, where `vmm_alloc_guarded` does not check that they do. Runs with at most
10,922 calls of `thread_create` are such runs (`bootedThreads_of_few`).
-/

namespace QuinKernel

open Machine Heap

/-! ## Ticks of the ring scheduler -/

section Ticks

variable {T : Type}

def ReadyCall.isTick : ReadyCall T → Bool
  | .tick _ => true
  | _ => false

/-- The timer ticks of a run. -/
def ringTicks (fs : List (ReadyCall T)) : Nat := fs.countP ReadyCall.isTick

theorem sliceExpired_iff (s : Sched T) (h : s.ticksSinceSwitch.toNat < 10) :
    s.countTick.SliceExpired ↔ s.ticksSinceSwitch.toNat = 9 := by
  have hcount : s.countTick.ticksSinceSwitch.toNat = s.ticksSinceSwitch.toNat + 1 := by
    rw [Sched.countTick, BitVec.toNat_add, show (1 : BitVec 64).toNat = 1 from rfl,
      Nat.mod_eq_of_lt (by omega)]
  unfold Sched.SliceExpired
  rw [BitVec.le_def, hcount, show (schedTimeSliceTicks).toNat = 10 from rfl]
  omega

variable [DecidableEq T] {bootstrapThread : T} {a a' : ReadyState T} {fs : List (ReadyCall T)}

/-- One call: a tick is counted, or ends a slice of ten. -/
theorem ticks_step {f : ReadyCall T} (h : a.sched.ticksSinceSwitch.toNat < 10)
    (hstep : a.Step f a') :
    ringTicks [f] + a.sched.ticksSinceSwitch.toNat ≤
      10 * (switchedTo [f]).length + a'.sched.ticksSinceSwitch.toNat ∧
    a'.sched.ticksSinceSwitch.toNat < 10 := by
  obtain ⟨sched', threads'⟩ := a'
  cases f with
  | add thread =>
      obtain ⟨-, rfl, -⟩ := hstep
      have hnone : ringTicks [ReadyCall.add thread] = 0 := rfl
      have hsame : (schedAddThread a.sched thread).ticksSinceSwitch = a.sched.ticksSinceSwitch := rfl
      dsimp only
      rw [hnone, hsame]
      omega
  | yield next =>
      obtain ⟨rfl, -, -⟩ := hstep
      have hzero : (schedYield a.sched).2.ticksSinceSwitch.toNat = 0 := rfl
      have hone : (switchedTo [ReadyCall.yield next]).length = 1 := rfl
      have hnone : ringTicks [ReadyCall.yield next] = 0 := rfl
      dsimp only
      omega
  | tick next =>
      obtain ⟨rfl, -, rfl⟩ := hstep
      have hone : ∀ n : Option T, ringTicks [ReadyCall.tick n] = 1 := fun _ => rfl
      have hexp := sliceExpired_iff a.sched h
      rw [hone]
      by_cases hend : a.sched.countTick.SliceExpired
      · have hnine := hexp.mp hend
        simp only [schedTick, if_pos hend]
        have hzero : (switchToNext a.sched.countTick).2.ticksSinceSwitch.toNat = 0 := rfl
        have hsw : ∀ t : T, (switchedTo [ReadyCall.tick (some t)]).length = 1 := fun _ => rfl
        rw [hsw, hzero]
        omega
      · have hnine : a.sched.ticksSinceSwitch.toNat ≠ 9 := fun heq => hend (hexp.mpr heq)
        simp only [schedTick, if_neg hend]
        have hcount : a.sched.countTick.ticksSinceSwitch.toNat =
            a.sched.ticksSinceSwitch.toNat + 1 := by
          rw [Sched.countTick, BitVec.toNat_add, show (1 : BitVec 64).toNat = 1 from rfl,
            Nat.mod_eq_of_lt (by omega)]
        have hsw : (switchedTo [ReadyCall.tick (none : Option T)]).length = 0 := rfl
        rw [hsw, hcount]
        omega

/-- A run switches at least once every ten ticks. -/
theorem ticks_run (hrun : (readySystem bootstrapThread).Run a fs a')
    (h : a.sched.ticksSinceSwitch.toNat < 10) :
    ringTicks fs + a.sched.ticksSinceSwitch.toNat ≤
      10 * (switchedTo fs).length + a'.sched.ticksSinceSwitch.toNat ∧
    a'.sched.ticksSinceSwitch.toNat < 10 := by
  induction hrun with
  | nil a =>
      have hnone : ringTicks ([] : List (ReadyCall T)) = 0 := rfl
      omega
  | @cons a a₁ a' f fs hstep _ ih =>
      obtain ⟨hfirst, hlt⟩ := ticks_step h hstep
      obtain ⟨hrest, hlast⟩ := ih hlt
      have hticks : ringTicks (f :: fs) = ringTicks [f] + ringTicks fs := by
        unfold ringTicks
        rw [← List.countP_append, List.singleton_append]
      have hswitches : (switchedTo (f :: fs)).length =
          (switchedTo [f]).length + (switchedTo fs).length := by
        unfold switchedTo
        rw [← List.length_append, ← List.filterMap_append, List.singleton_append]
      rw [hticks, hswitches]
      exact ⟨by omega, hlast⟩

/-- A slice never outlasts ten ticks. -/
theorem sliceTicks_invariant (bootstrapThread : T) :
    (readySystem bootstrapThread).Invariant (fun a => a.sched.ticksSinceSwitch.toNat < 10) := by
  refine System.Inductive.invariant ⟨fun a ha => ?_, fun a f a' h hstep => (ticks_step h hstep).2⟩
  obtain ⟨-, next, id, hsched⟩ := ha
  rw [hsched]
  exact Nat.zero_lt_succ 9

/-- The thread the last call of a run makes current is current after it. -/
theorem current_of_run {f : ReadyCall T} {t : T}
    (hrun : (readySystem bootstrapThread).Run a (fs ++ [f]) a') (hf : f.switched = some t) :
    a'.sched.current = t := by
  induction fs generalizing a with
  | nil =>
      cases hrun with
      | cons hstep hnil =>
          cases hnil
          rcases a.step_cases hstep with ⟨thread, rfl, -⟩ | ⟨-, -, ⟨hsw, -⟩ | ⟨hsw, -⟩⟩
          · cases hf
          · exact Option.some.inj (hsw.symm.trans hf)
          · rw [hsw] at hf
            cases hf
  | cons g fs ih =>
      cases hrun with
      | cons _ hrest => exact ih hrest

/-- **Ten ticks a link.** A thread `d` links ahead is current within `10 * d` ticks,
and ten more for each thread inserted. -/
theorem ReadyRing.wait_ticks {l : List T} (h : ReadyRing a l)
    (hslice : a.sched.ticksSinceSwitch.toNat < 10)
    (hrun : (readySystem bootstrapThread).Run a fs a') {d : Nat} {t : T} (hd : 1 ≤ d)
    (hdl : d ≤ l.length) (ht : a.sched.next^[d] a.sched.current = t)
    (hlong : 10 * (d + (added fs).length) ≤ ringTicks fs) :
    ∃ fs₁ f fs₂, fs = fs₁ ++ f :: fs₂ ∧ f.switched = some t := by
  obtain ⟨hticks, hlast⟩ := ticks_run hrun hslice
  obtain ⟨fs₁, f, fs₂, hsplit, hf, -⟩ := h.wait hrun hd hdl ht (by omega)
  exact ⟨fs₁, f, fs₂, hsplit, hf⟩

end Ticks

/-! ## Ids in memory -/

section Fields

variable {m m' : Mem} {t u w : Word}

theorem threadId_congr (h : ∀ x, InThread t x → m' x = m x) : threadId m' t = threadId m t :=
  load64_congr (fun x hlo hhi => h x ⟨by omega, by omega⟩)

theorem threadId_agreeOff {lo hi : Nat} (h : AgreeOff lo hi m m')
    (hd : t.toNat + 24 ≤ lo ∨ hi ≤ t.toNat + 16) : threadId m' t = threadId m t :=
  h.load64 (by omega)

@[simp] theorem threadId_setThreadId : threadId (setThreadId m t w) t = w := load64_store64 m _ w

/-- A link lies apart from the ids of its own thread and of the others. -/
theorem threadId_setThreadNext (h : t = u ∨ Apart t.toNat 32 u.toNat 32) :
    threadId (setThreadNext m u w) t = threadId m t := by
  refine threadId_agreeOff setThreadNext_agreeOff ?_
  rcases h with rfl | h
  · omega
  · unfold Apart at h
    omega

end Fields

section Create

variable {k : ThreadState} {t stack trampoline entry arg : Word}

/-- `thread_create` gives the new thread the next id, and keeps the others'. -/
theorem ThreadState.startThread_ids (hstack : stack.toNat + 4 * 4096 < 2 ^ 64)
    (hapart : Apart t.toNat 32 k.current.toNat 32) :
    threadId (k.startThread trampoline t stack entry arg).mem t = k.nextThreadId ∧
    (k.startThread trampoline t stack entry arg).nextThreadId = k.nextThreadId + 1 ∧
    (k.startThread trampoline t stack entry arg).ticksSinceSwitch = k.ticksSinceSwitch ∧
    ∀ u, Apart t.toNat 32 u.toNat 32 → (u = k.current ∨ Apart u.toNat 32 k.current.toNat 32) →
      (∀ x, InThread u x → ¬InStack stack x) →
      threadId (k.startThread trampoline t stack entry arg).mem u = threadId k.mem u := by
  have htop : (stack + threadStackPages * pageSize).toNat = stack.toNat + 4 * 4096 := by
    rw [BitVec.toNat_add, show (threadStackPages * pageSize).toNat = 4 * 4096 from rfl,
      Nat.mod_eq_of_lt hstack]
  unfold startThread
  set words : List Word := [trampoline, 0, 0, entry, arg, 0, 0] with hwords
  have hpush := pushWords_agreeOff words k.mem (stack + threadStackPages * pageSize)
    (by rw [htop, hwords]; simp only [List.length_cons, List.length_nil]; omega)
  rw [htop, show words.length = 7 from rfl] at hpush
  rcases hp : pushWords k.mem (stack + threadStackPages * pageSize) words with ⟨m₁, sp⟩
  rw [hp] at hpush
  dsimp only at hpush ⊢
  set m₃ := setStackBase (setStackPointer m₁ t sp) t stack with hm₃
  refine ⟨?_, rfl, rfl, fun u hu hcur hoff => ?_⟩
  · show threadId (setThreadNext (setThreadNext (setThreadId m₃ t k.nextThreadId) t _)
      k.current t) t = _
    rw [threadId_setThreadNext (.inr hapart), threadId_setThreadNext (.inl rfl),
      threadId_setThreadId]
  · show threadId (setThreadNext (setThreadNext (setThreadId m₃ t k.nextThreadId) t _)
      k.current t) u = _
    have hut : Apart u.toNat 32 t.toNat 32 := Or.symm hu
    rw [threadId_setThreadNext hcur, threadId_setThreadNext (.inr hut)]
    -- the rest is written to the stack and to the new thread
    refine threadId_congr (fun x hx => ?_)
    have hthread : AgreeOff t.toNat (t.toNat + 24) m₁ (setThreadId m₃ t k.nextThreadId) :=
      ((setStackPointer_agreeOff.mono (Nat.le_refl _) (by omega)).trans
        (setStackBase_agreeOff.mono (by omega) (by omega))).trans
        (setThreadId_agreeOff.mono (by omega) (by omega))
    rw [hthread x (by unfold Apart InThread at *; omega)]
    have hout := hoff x hx
    unfold InStack at hout
    exact hpush x (by omega)

theorem ThreadState.threadCreate_null_statics {k' : ThreadState}
    (hcall : k.threadCreate trampoline entry arg = some (.ok (0, k'))) :
    k' = { k with heap := k'.heap, vmm := k'.vmm } := by
  obtain ⟨t, heap, -, ⟨-, -, rfl⟩ | ⟨-, -, vmm, -, rfl⟩ | ⟨ht, h0, -⟩⟩ := threadCreate_cases hcall
  · rfl
  · rfl
  · exact absurd h0.symm ht

end Create

/-! ## The refinement -/

/-- The ring scheduler's state `a`, in the memory of `s`. -/
structure InMemory (s : ThreadClient) (a : ReadyState Word) : Prop where
  threads : a.threads = s.threads
  current : a.sched.current = s.kernel.current
  nextThreadId : a.sched.nextThreadId = s.kernel.nextThreadId
  ticks : a.sched.ticksSinceSwitch = s.kernel.ticksSinceSwitch
  next : ∀ t ∈ s.threads, a.sched.next t = threadNext s.kernel.mem t
  id : ∀ t ∈ s.threads, a.sched.id t = threadId s.kernel.mem t

/-- What a call is to the ring scheduler. -/
def RingCall : ThreadCall → Option (ReadyCall Word) → Prop
  | .heap _, o => o = none
  | .write _ _, o => o = none
  | .yield _, o => ∃ next, o = some (.yield next)
  | .tick _, o => ∃ next, o = some (.tick next)
  | .create _ _ result, o => o = if result = 0 then none else some (.add result)

/-- The scheduler from boot on, its statics as they are initialised. Each
`thread_create` that returns a thread has its stack in the dynamic window
(`StackFits`), as the first 10,922 calls have. -/
def bootedThreads (bootstrapThread trampoline : Word) : System ThreadClient ThreadCall where
  init s := (threadSystem bootstrapThread trampoline).init s ∧ s.kernel.ticksSinceSwitch = 0
  step := ((threadSystem bootstrapThread trampoline).restrict StackFits).step

/-! ## How many stacks fit -/

section Window

variable {v v' : Vmm} {s s' : ThreadClient} {bootstrapThread trampoline : Word}
  {es : List ThreadCall}

theorem ensureNextLevel_dynamicNext (v : Vmm) (table : Word) (index : Fin 512) :
    (ensureNextLevel v table index).2.dynamicNextVaddr = v.dynamicNextVaddr := by
  unfold ensureNextLevel
  dsimp only
  split <;> [split; skip] <;> rfl

theorem vmmMap_dynamicNext (v : Vmm) (virt phys : Word) (flags : BitVec 32) :
    (vmmMap v virt phys flags).2.dynamicNextVaddr = v.dynamicNextVaddr := by
  have hlevel := fun {v v' : Vmm} {table : Word} {index : Fin 512} {t : Option Word}
      (h : ensureNextLevel v table index = (t, v')) =>
    (congrArg (fun p => p.2.dynamicNextVaddr) h).symm.trans (ensureNextLevel_dynamicNext v table index)
  unfold vmmMap
  dsimp only
  split
  · next h => exact hlevel h
  · next h₁ =>
    split
    · next h => exact (hlevel h).trans (hlevel h₁)
    · next h₂ =>
      split
      · next h => exact (hlevel h).trans ((hlevel h₂).trans (hlevel h₁))
      · next h₃ => exact (hlevel h₃).trans ((hlevel h₂).trans (hlevel h₁))

theorem mapGuardedPages_dynamicNext {regionStart : Word} {flags : BitVec 32} {n : Nat} {i : Word}
    {ok : Bool} (h : mapGuardedPages regionStart flags n i v = .ok (ok, v')) :
    v'.dynamicNextVaddr = v.dynamicNextVaddr := by
  induction n generalizing i v with
  | zero =>
      cases h
      rfl
  | succ n ih =>
      unfold mapGuardedPages at h
      dsimp only at h
      split at h
      · cases h
        rfl
      have hmap := vmmMap_dynamicNext (v.withPmm (pmmAllocFrame v.pmm).2)
        (regionStart + i * pageSize) (pmmAllocFrame v.pmm).1 flags
      split at h
      · next hv =>
          rw [hv] at hmap
          exact (ih h).trans hmap
      · next hv =>
          rw [hv] at hmap
          split at h
          · cases h
          · cases h
            exact hmap

/-- `thread_create` takes the four pages of a stack and two guard pages, or no page. -/
theorem ThreadState.threadCreate_dynamicNext {k k' : ThreadState} {entry arg r : Word}
    (hcall : k.threadCreate trampoline entry arg = some (.ok (r, k'))) :
    k'.vmm.dynamicNextVaddr = k.vmm.dynamicNextVaddr ∨
      k'.vmm.dynamicNextVaddr = k.vmm.dynamicNextVaddr + 6 * pageSize := by
  have halloc : ∀ {stack : Option Word} {vmm : Vmm},
      vmmAllocGuarded k.vmm threadStackPages vmmWritable = .ok (stack, vmm) →
      vmm.dynamicNextVaddr = k.vmm.dynamicNextVaddr + 6 * pageSize := by
    intro stack vmm h
    have hpages : k.vmm.dynamicNextVaddr + pageSize + threadStackPages * pageSize + pageSize =
        k.vmm.dynamicNextVaddr + 6 * pageSize := by
      rw [BitVec.add_assoc, BitVec.add_assoc]
      rfl
    unfold vmmAllocGuarded at h
    dsimp only at h
    split at h
    · cases h
    · next hmap =>
        cases h
        exact (mapGuardedPages_dynamicNext hmap).trans hpages
    · next hmap =>
        cases h
        exact (mapGuardedPages_dynamicNext hmap).trans hpages
  obtain ⟨t, heap, -, ⟨-, -, rfl⟩ | ⟨-, -, vmm, hvmm, rfl⟩ | ⟨-, -, stack, vmm, hvmm, rfl⟩⟩ :=
    threadCreate_cases hcall
  · exact .inl rfl
  · exact .inr (halloc hvmm)
  · exact .inr (halloc hvmm)

theorem ThreadState.switchToNext_statics (k : ThreadState) (sp : Word) :
    (k.switchToNext sp).nextThreadId = k.nextThreadId ∧
    (k.switchToNext sp).ticksSinceSwitch = 0 ∧ (k.switchToNext sp).vmm = k.vmm := by
  unfold ThreadState.switchToNext
  dsimp only
  split <;> exact ⟨rfl, rfl, rfl⟩

theorem ThreadState.schedTick_vmm (k : ThreadState) (sp : Word) :
    (k.schedTick sp).vmm = k.vmm := by
  unfold ThreadState.schedTick
  dsimp only
  split
  · exact (switchToNext_statics _ sp).2.2
  · rfl

/-- A call of `thread_create`. -/
def ThreadCall.isCreate : ThreadCall → Bool
  | .create .. => true
  | _ => false

/-- **The first 10,922 stacks fit.** In a run from an unused window with no more calls
of `thread_create` than that, every stack ends below the MMIO window. -/
theorem bootedThreads_of_few {n : Nat}
    (hrun : (threadSystem bootstrapThread trampoline).Run s es s')
    (hused : s.kernel.vmm.dynamicNextVaddr.toNat = vmmDynamicVbase.toNat + 6 * 4096 * n)
    (hfew : n + es.countP ThreadCall.isCreate ≤ 10922) :
    (bootedThreads bootstrapThread trampoline).Run s es s' := by
  have hwindow : vmmDynamicVbase.toNat + 6 * 4096 * 10922 ≤ vmmMmioVbase.toNat + 4096 ∧
      vmmMmioVbase.toNat + 4096 < 2 ^ 64 := by decide
  induction hrun generalizing n with
  | nil s => exact .nil s
  | @cons s s₁ s' e es hstep _ ih =>
      cases e with
      | create entry arg result =>
          rw [List.countP_cons_of_pos rfl] at hfew
          have hlow : vmmDynamicVbase.toNat ≤ s.kernel.vmm.dynamicNextVaddr.toNat := by omega
          have hhigh : s.kernel.vmm.dynamicNextVaddr.toNat + 4096 + 4 * 4096 ≤
              vmmMmioVbase.toNat := by omega
          refine .cons ⟨fun _ => ⟨hlow, hhigh⟩, hstep⟩ ?_
          rcases ThreadState.threadCreate_dynamicNext hstep.1 with hnext | hnext
          · exact ih (by rw [hnext]; exact hused) (by omega)
          · refine ih (n := n + 1) ?_ (by omega)
            rw [hnext, BitVec.toNat_add_of_lt, hused, show (6 * pageSize).toNat = 6 * 4096 from rfl]
            · omega
            · rw [hused, show (6 * pageSize).toNat = 6 * 4096 from rfl]
              omega
      | heap call =>
          refine .cons ⟨trivial, hstep⟩ (ih ?_ hfew)
          rw [hstep.2.2.1]
          exact hused
      | write x b =>
          refine .cons ⟨trivial, hstep⟩ (ih ?_ hfew)
          rw [hstep.2.2]
          exact hused
      | yield sp =>
          have hyield : s₁ = { s with kernel := s.kernel.schedYield sp } := hstep
          refine .cons ⟨trivial, hstep⟩ (ih ?_ hfew)
          rw [hyield, show (s.kernel.schedYield sp).vmm = _ from (s.kernel.switchToNext_statics sp).2.2]
          exact hused
      | tick sp =>
          have htick : s₁ = { s with kernel := s.kernel.schedTick sp } := hstep
          refine .cons ⟨trivial, hstep⟩ (ih ?_ hfew)
          rw [htick, show (s.kernel.schedTick sp).vmm = _ from s.kernel.schedTick_vmm sp]
          exact hused

end Window

section Steps

variable {bootstrapThread trampoline : Word} {s s' : ThreadClient} {cs : List Chunk}
  {l : List Word} {a : ReadyState Word}

/-- What keeps the threads' bytes and the statics is nothing to the ring scheduler. -/
theorem InMemory.stay (h : InMemory s a) (hthreads : s'.threads = s.threads)
    (hkernel : s'.kernel = { s.kernel with heap := s'.kernel.heap, vmm := s'.kernel.vmm })
    (hbytes : ∀ t ∈ s.threads, ∀ x, InThread t x → s'.kernel.mem x = s.kernel.mem x) :
    InMemory s' a where
  threads := by rw [hthreads, h.threads]
  current := by rw [hkernel, h.current]
  nextThreadId := by rw [hkernel, h.nextThreadId]
  ticks := by rw [hkernel, h.ticks]
  next t ht := by
    rw [hthreads] at ht
    rw [h.next t ht, threadNext_congr (hbytes t ht)]
  id t ht := by
    rw [hthreads] at ht
    rw [h.id t ht, threadId_congr (hbytes t ht)]

/-- A switch in memory is a switch of the ring. -/
theorem InMemory.switch (h : InMemory s a) (hinv : ThreadsInv bootstrapThread s cs l)
    {k' : ThreadState} {sp : Word} (hk : k' = s.kernel.switchToNext sp) :
    InMemory { s with kernel := k' } ⟨(switchToNext a.sched).2, a.threads⟩ := by
  obtain ⟨hcurrent, m', hheap, hoff⟩ := s.kernel.switchToNext_cases sp
  have hstatics := s.kernel.switchToNext_statics sp
  rw [← hk] at hcurrent hheap hstatics
  have hmem : k'.mem = m' := congrArg Heap.mem hheap
  subst hmem
  have hcurrentMem : s.kernel.current ∈ s.threads := hinv.known.mem_iff.mp hinv.current_mem
  -- only a stack pointer is written
  have hfields : ∀ t ∈ s.threads, threadNext k'.mem t = threadNext s.kernel.mem t ∧
      threadId k'.mem t = threadId s.kernel.mem t := by
    intro t ht
    by_cases heq : t = s.kernel.current
    · subst heq
      exact ⟨threadNext_agreeOff hoff (by omega), threadId_agreeOff hoff (by omega)⟩
    · have hapart := hinv.apart (hinv.known.mem_iff.mpr ht) hinv.current_mem heq
      unfold Apart at hapart
      exact ⟨threadNext_agreeOff hoff (by omega), threadId_agreeOff hoff (by omega)⟩
  refine ⟨h.threads, ?_, h.nextThreadId.trans hstatics.1.symm, hstatics.2.1.symm,
    fun t ht => (h.next t ht).trans (hfields t ht).1.symm,
    fun t ht => (h.id t ht).trans (hfields t ht).2.symm⟩
  show a.sched.next a.sched.current = k'.current
  rw [hcurrent, h.current, h.next _ hcurrentMem]

/-- A tick in memory is a tick of the ring. -/
theorem InMemory.tick (h : InMemory s a) (hinv : ThreadsInv bootstrapThread s cs l) (sp : Word) :
    InMemory { s with kernel := s.kernel.schedTick sp } ⟨(schedTick a.sched).2, a.threads⟩ := by
  let s₁ : ThreadClient := { s with kernel :=
    { s.kernel with ticksSinceSwitch := s.kernel.ticksSinceSwitch + 1 } }
  have hcount : InMemory s₁ ⟨a.sched.countTick, a.threads⟩ :=
    ⟨h.threads, h.current, h.nextThreadId, congrArg (· + 1) h.ticks, h.next, h.id⟩
  have hinv₁ : ThreadsInv bootstrapThread s₁ cs l :=
    ⟨hinv.row, ⟨hinv.ring.ring, hinv.ring.placed, hinv.ring.oneStatic⟩, hinv.known, hinv.bootstrap⟩
  have hexp : a.sched.countTick.SliceExpired ↔
      schedTimeSliceTicks ≤ s.kernel.ticksSinceSwitch + 1 := by
    unfold Sched.SliceExpired
    rw [show a.sched.countTick.ticksSinceSwitch = s.kernel.ticksSinceSwitch + 1 from hcount.ticks]
  unfold ThreadState.schedTick
  dsimp only
  by_cases hend : a.sched.countTick.SliceExpired
  · rw [if_pos (hexp.mp hend)]
    simp only [schedTick, if_pos hend]
    exact hcount.switch hinv₁ rfl
  · rw [if_neg (fun hle => hend (hexp.mpr hle))]
    simp only [schedTick, if_neg hend]
    exact hcount

/-- A thread created in memory is added to the ring. -/
theorem InMemory.create (h : InMemory s a) (hinv : ThreadsInv bootstrapThread s cs l)
    {k k' : ThreadState} {cs' : List Chunk} {stack entry arg r : Word}
    (hnew : NewThread s l k stack r cs')
    (hk : k = { s.kernel with heap := k.heap, vmm := k.vmm })
    (hk' : k' = k.startThread trampoline r stack entry arg) :
    InMemory ⟨k', r :: s.live, s.threads ++ [r]⟩ ⟨schedAddThread a.sched r, a.threads ++ [r]⟩ := by
  have hmem : ∀ {t}, t ∈ s.threads → t ∈ l := hinv.known.mem_iff.mpr
  -- the allocations touch no thread, so the abstract state still stands for `k`
  have hbefore : InMemory { s with kernel := k } a :=
    h.stay rfl hk (fun t ht => hnew.bytes t (hmem ht))
  have hcurrent : k.current = s.kernel.current := by rw [hk]
  have hcurMem : k.current ∈ s.threads := hcurrent ▸ hinv.known.mem_iff.mp hinv.current_mem
  have happart := hnew.apart _ (hmem hcurMem)
  obtain ⟨hcur, m', hheap, hagree, hlink, hlast⟩ := @ThreadState.startThread_cases trampoline k r
    stack entry arg hnew.stackEnd happart (hnew.threadOff _ (hmem hcurMem))
  obtain ⟨hid, hnextId, hticks, hids⟩ := @ThreadState.startThread_ids k r stack trampoline entry arg
    hnew.stackEnd happart
  rw [← hk'] at hcur hheap hid hnextId hticks hids
  have hm' : k'.mem = m' := congrArg Heap.mem hheap
  subst hm'
  have hfresh : ∀ {t}, t ∈ s.threads → t ≠ r := fun ht heq => hnew.fresh (heq ▸ hmem ht)
  have hcurEq : a.sched.current = k.current := hbefore.current
  refine ⟨congrArg (· ++ [r]) h.threads, ?_, ?_, ?_, fun t ht => ?_, fun t ht => ?_⟩
  · exact hcurEq.trans hcur.symm
  · show a.sched.nextThreadId + 1 = k'.nextThreadId
    rw [hnextId, hbefore.nextThreadId]
  · exact hbefore.ticks.trans hticks.symm
  · show insertAfter a.sched.next a.sched.current r t = threadNext k'.mem t
    rw [hcurEq]
    rcases List.mem_append.mp ht with ht | ht
    · by_cases heq : t = k.current
      · rw [heq, insertAfter_self, hlink]
      · rw [insertAfter_other _ heq (hfresh ht), hbefore.next t ht]
        refine (threadNext_congr (fun x hx => hagree x ?_)).symm
        have hapartNew := hnew.apart t (hmem ht)
        have hapartCur := hinv.apart (hmem ht) (hmem hcurMem) heq
        rintro (hin | hin | hin)
        · exact hnew.threadOff t (hmem ht) x hx hin
        · unfold Apart InThread at *
          omega
        · have hin : InThread k.current x := hin
          unfold Apart InThread at *
          omega
    · obtain rfl := List.mem_singleton.mp ht
      have hne : t ≠ k.current := (hfresh hcurMem).symm
      rw [insertAfter_new _ hne, hlast, hbefore.next _ hcurMem]
  · show Function.update a.sched.id r a.sched.nextThreadId t = threadId k'.mem t
    rcases List.mem_append.mp ht with ht | ht
    · rw [Function.update_of_ne (hfresh ht), hids t (hnew.apart t (hmem ht)) ?_
        (hnew.threadOff t (hmem ht)), hbefore.id t ht]
      -- the current thread now links to the new one, any other as before
      by_cases heq : t = k.current
      · exact .inl heq
      · exact .inr (hinv.apart (hmem ht) (hmem hcurMem) heq)
    · obtain rfl := List.mem_singleton.mp ht
      rw [Function.update_self, hid, hbefore.nextThreadId]

/-- `sched_init` in memory is `sched_init`. -/
theorem inMemory_init (h : (bootedThreads bootstrapThread trampoline).init s) :
    ∃ a, (readySystem bootstrapThread).init a ∧ InMemory s a := by
  obtain ⟨⟨hthreads, k, hreach, hid, hk⟩, hticks⟩ := h
  let a : ReadyState Word := ⟨schedInit bootstrapThread (schedStatics bootstrapThread
    (threadNext s.kernel.mem) (threadId s.kernel.mem)), [bootstrapThread]⟩
  refine ⟨a, ⟨rfl, _, _, rfl⟩, hthreads.symm, ?_, ?_, hticks.symm, fun t ht => ?_, fun t ht => ?_⟩
  · rw [hk]
    rfl
  · rw [hk]
    exact hid.symm
  · rw [hthreads] at ht
    obtain rfl := List.mem_singleton.mp ht
    show Function.update (threadNext s.kernel.mem) t t t = threadNext s.kernel.mem t
    rw [Function.update_self, hk]
    exact threadNext_setThreadNext.symm
  · rw [hthreads] at ht
    obtain rfl := List.mem_singleton.mp ht
    show Function.update (threadId s.kernel.mem) t 0 t = threadId s.kernel.mem t
    rw [Function.update_self, hk]
    show 0 = threadId (setThreadNext (setThreadId k.mem t 0) t t) t
    rw [threadId_setThreadNext (.inl rfl), threadId_setThreadId]

/-- **The scheduler in memory refines the ring scheduler.** -/
theorem ringSimulation (hboot : bootstrapThread.toNat + 32 ≤ heapVbase.toNat) :
    Simulation (bootedThreads bootstrapThread trampoline) (readySystem bootstrapThread) RingCall
      (fun s a => InMemory s a ∧ ∃ cs l, ThreadsInv bootstrapThread s cs l) where
  init s h := by
    obtain ⟨a, ha, hr⟩ := inMemory_init h
    obtain ⟨cs, hinv⟩ := threadsInv_init hboot h.1
    exact ⟨a, ha, hr, cs, _, hinv⟩
  step := by
    rintro s a e s' ⟨hr, cs, l, hinv⟩ ⟨hfits, hstep⟩
    cases e with
    | heap call =>
        obtain ⟨cs', hinv'⟩ := hinv.heap hstep.1 hstep.2.1 hstep.2.2.1 hstep.2.2.2
        refine ⟨none, a, rfl, rfl, hr.stay hstep.2.2.2 ?_ (fun t ht x hx =>
          hinv.heap_bytes hstep.1 hstep.2.1 (hinv.known.mem_iff.mpr ht) hx), cs', l, hinv'⟩
        rw [hstep.2.2.1]
    | write x b =>
        obtain ⟨hheap, hx, rfl⟩ := hstep
        exact ⟨none, a, rfl, rfl, hr.stay rfl rfl (fun t ht y hy =>
          hinv.write_bytes hboot b hheap hx (hinv.known.mem_iff.mpr ht) hy), cs, l,
          hinv.write hboot b hheap hx⟩
    | yield sp =>
        obtain rfl : s' = { s with kernel := s.kernel.schedYield sp } := hstep
        exact ⟨some (.yield _), ⟨(schedYield a.sched).2, a.threads⟩, ⟨_, rfl⟩, ⟨rfl, rfl, rfl⟩,
          hr.switch hinv rfl, cs, _, hinv.switch rfl⟩
    | tick sp =>
        obtain rfl : s' = { s with kernel := s.kernel.schedTick sp } := hstep
        obtain ⟨l', hinv'⟩ := hinv.tick sp
        exact ⟨some (.tick _), ⟨(schedTick a.sched).2, a.threads⟩, ⟨_, rfl⟩, ⟨rfl, rfl, rfl⟩,
          hr.tick hinv sp, cs, l', hinv'⟩
    | create entry arg result =>
        obtain ⟨hcall, hlive, hthreads⟩ := hstep
        obtain ⟨k', live', threads'⟩ := s'
        dsimp only at hcall hlive hthreads
        by_cases hzero : result = 0
        · rw [if_pos hzero] at hlive hthreads
          subst hzero hlive hthreads
          obtain ⟨-, -, -, hbytes⟩ := ThreadState.threadCreate_null hinv.row hcall
          exact ⟨none, a, rfl, rfl, hr.stay rfl (ThreadState.threadCreate_null_statics hcall)
            (fun t ht => hbytes t (hinv.rowPlaced (hinv.known.mem_iff.mpr ht))), cs, l,
            hinv.create_null hcall⟩
        · rw [if_neg hzero] at hlive hthreads
          subst hlive hthreads
          obtain ⟨cs', hinv'⟩ := hinv.create hboot hfits hcall hzero
          obtain ⟨heap, vmm, stack, cs₁, hnew, hk⟩ := hinv.create_new hboot hfits hcall hzero
          refine ⟨some (.add result), _, (if_neg hzero).symm, ⟨?_, rfl, rfl⟩,
            hr.create hinv hnew rfl hk, cs', _, hinv'⟩
          rw [hr.threads]
          exact fun hmem => hnew.fresh (hinv.known.mem_iff.mpr hmem)

/-! ## How many threads there are -/

theorem inUse_length_le (p : Nat) (cs : List Chunk) : 32 * (inUse p cs).length ≤ span cs := by
  induction cs generalizing p with
  | nil => exact Nat.zero_le _
  | cons c cs ih =>
      have hrest := ih (p + c.extent)
      have hext : c.extent = 32 + c.size := rfl
      rw [inUse, span_cons]
      split
      · omega
      · rw [List.length_cons]
        omega

/-- All threads but the bootstrap thread are blocks of the heap. -/
theorem ThreadsInv.length_le (h : ThreadsInv bootstrapThread s cs l) (hl : l.Nodup) :
    32 * l.length ≤ heapSize.toNat + 32 := by
  have hlive : s.live.length = (inUse heapVbase.toNat cs).length :=
    h.row.live.length_eq.trans (List.length_map ..)
  have hblocks := inUse_length_le heapVbase.toNat cs
  rw [h.row.spans] at hblocks
  -- the static thread is the bootstrap thread if that one is, and none else
  obtain ⟨b, hb⟩ : ∃ b, ∀ t ∈ l, t ≠ b → t ∈ s.live := by
    by_cases hstatic : ∃ b ∈ l, StaticThread b
    · obtain ⟨b, hb, hbs⟩ := hstatic
      refine ⟨b, fun t ht hne => ?_⟩
      rcases h.ring.placed t ht with hts | ⟨hlive, -⟩
      · exact absurd (h.ring.oneStatic t ht b hb hts hbs) hne
      · exact hlive
    · refine ⟨bootstrapThread, fun t ht _ => ?_⟩
      rcases h.ring.placed t ht with hts | ⟨hlive, -⟩
      · exact absurd ⟨t, ht, hts⟩ hstatic
      · exact hlive
  have hsub : l.erase b ⊆ s.live := fun t ht =>
    hb t (List.mem_of_mem_erase ht) (fun heq => (hl.mem_erase_iff.mp ht).1 heq)
  have hle := ((hl.erase b).subperm hsub).length_le
  have herase : l.length ≤ (l.erase b).length + 1 := by
    rw [List.length_erase]
    split <;> omega
  omega

/-- The links in memory are the links of the ring. -/
theorem InMemory.walk (h : InMemory s a) {l : List Word} (hl : ReadyRing a l) {n : Nat}
    (hn : n ≤ l.length) :
    List.iterate (threadNext s.kernel.mem) s.kernel.current n =
      List.iterate a.sched.next a.sched.current n ∧
    (threadNext s.kernel.mem)^[n] s.kernel.current = a.sched.next^[n] a.sched.current := by
  rw [← h.current]
  refine iterate_congr n _ (fun y hy => ?_)
  obtain ⟨k, hk, rfl⟩ := List.mem_iterate.mp hy
  have hmem : a.sched.next^[k] a.sched.current ∈ List.iterate a.sched.next a.sched.current l.length :=
    List.mem_iterate.mpr ⟨k, by omega, rfl⟩
  rw [hl.ring.nodes, hl.mem, h.threads] at hmem
  exact (h.next _ hmem).symm

end Steps

/-! ## What the ring tells of the memory -/

section Results

variable {bootstrapThread trampoline : Word} {s s' : ThreadClient} {es : List ThreadCall}

/-- A tick of the timer. -/
def ThreadCall.isTick : ThreadCall → Bool
  | .tick _ => true
  | _ => false

/-- A `thread_create` that returns a thread. -/
def ThreadCall.creates : ThreadCall → Bool
  | .create _ _ result => result ≠ 0
  | _ => false

theorem ringCall_counts {fs : List (ReadyCall Word)} (h : Shows RingCall es fs) :
    es.countP ThreadCall.isTick = ringTicks fs ∧
    es.countP ThreadCall.creates = (added fs).length := by
  induction h with
  | nil => exact ⟨rfl, rfl⟩
  -- a hidden call is no tick and creates no thread
  | @stay e es fs he _ ih =>
      have hnot : e.isTick = false ∧ e.creates = false := by
        cases e with
        | heap call => exact ⟨rfl, rfl⟩
        | write x b => exact ⟨rfl, rfl⟩
        | yield sp => exact ⟨rfl, rfl⟩
        | tick sp =>
            obtain ⟨next, hnext⟩ := he
            cases hnext
        | create entry arg result =>
            have hzero : result = 0 := by
              by_contra hne
              have he : none = if result = 0 then none else some (ReadyCall.add result) := he
              rw [if_neg hne] at he
              cases he
            simp [ThreadCall.isTick, ThreadCall.creates, hzero]
      rw [List.countP_cons_of_neg (by rw [hnot.1]; decide),
        List.countP_cons_of_neg (by rw [hnot.2]; decide)]
      exact ih
  -- a shown call is a tick, or adds a thread, exactly when its label does
  | @step e f es fs he _ ih =>
      have hsame : e.isTick = f.isTick ∧ e.creates = f.inserted.isSome := by
        cases e with
        | heap call => cases he
        | write x b => cases he
        | yield sp =>
            obtain ⟨next, hnext⟩ := he
            cases hnext
            exact ⟨rfl, rfl⟩
        | tick sp =>
            obtain ⟨next, hnext⟩ := he
            cases hnext
            exact ⟨rfl, rfl⟩
        | create entry arg result =>
            have he : some f = if result = 0 then none else some (ReadyCall.add result) := he
            split at he
            · cases he
            · next hne =>
                cases he
                exact ⟨rfl, decide_eq_true hne⟩
      unfold ringTicks added at *
      rw [List.countP_cons, List.countP_cons, List.countP_cons, ih.1, ih.2, hsame.1, hsame.2]
      cases hins : f.inserted with
      | none => rw [List.filterMap_cons_none hins]; exact ⟨rfl, rfl⟩
      | some t => rw [List.filterMap_cons_some hins]; exact ⟨rfl, rfl⟩

/-- The bootstrap thread alone, a fresh heap, and frames for one stack and its tables. -/
def bootClient : ThreadClient :=
  ⟨{ framelessKernel with vmm := emptyTables }.schedInit 0xffffffff80010000, [],
    [0xffffffff80010000]⟩

theorem bootClient_init : (bootedThreads 0xffffffff80010000 0).init bootClient :=
  ⟨⟨rfl, { framelessKernel with vmm := emptyTables }, .init ⟨rfl, emptyTables, _, _, rfl⟩, rfl, rfl⟩,
    rfl⟩

/-- Its first `thread_create` links a thread in the heap behind the bootstrap thread. -/
theorem bootClient_create : ∃ s, (bootedThreads 0xffffffff80010000 0).Run bootClient
      [.create 0 0 (heapVbase + headerSize)] s ∧
    s.threads = [0xffffffff80010000, heapVbase + headerSize] ∧
    s.kernel.current = 0xffffffff80010000 ∧
    threadNext s.kernel.mem 0xffffffff80010000 = heapVbase + headerSize := by
  obtain ⟨⟨t, heap⟩, hmalloc, rfl⟩ := Option.map_eq_some_iff.mp
    (by decide +kernel : (kmalloc bootClient.kernel.heap threadSize).map Prod.fst =
      some (heapVbase + headerSize))
  obtain ⟨vmm, halloc⟩ := vmmAllocGuarded_enough emptyTables_wf threadStackPages
    vmmWritable (p := upperIndices vmmDynamicVbase) (by decide) (by decide)
    (fun k _ => Vmm.noLargePage_iff.mpr (.inl (emptyTables_walk _)))
    (by rw [show emptyTables.pmm.freeSet.card = 7 from sevenFrames_ok.count.symm]; decide)
  let k' : ThreadState := { bootClient.kernel with heap, vmm }.startThread 0
    (heapVbase + headerSize) (vmmDynamicVbase + pageSize) 0 0
  have hcall : bootClient.kernel.threadCreate 0 0 0 = some (.ok (heapVbase + headerSize, k')) :=
    ThreadState.threadCreate_some 0 0 hmalloc (by decide) halloc
  have hapart : Apart (heapVbase + headerSize).toNat 32 (0xffffffff80010000 : Word).toNat 32 :=
    .inr (by decide)
  have hbelow : (0xffffffff80010000 : Word).toNat + 32 ≤ (vmmDynamicVbase + pageSize).toNat := by
    decide
  obtain ⟨hcurrent, m', hheap, -, hnext, -⟩ := @ThreadState.startThread_cases 0
    { bootClient.kernel with heap, vmm } _ (vmmDynamicVbase + pageSize) 0 0 (by decide) hapart
    (fun x hx hstack => absurd (Nat.lt_of_lt_of_le hx.2 hbelow) (Nat.not_lt.mpr hstack.1))
  have hstep : (threadSystem 0xffffffff80010000 0).step bootClient
      (.create 0 0 (heapVbase + headerSize))
      ⟨k', [heapVbase + headerSize], [0xffffffff80010000, heapVbase + headerSize]⟩ :=
    ⟨hcall, rfl, rfl⟩
  refine ⟨_, bootedThreads_of_few (n := 0) (.single hstep) rfl (by decide), rfl, hcurrent, ?_⟩
  rw [← hnext]
  exact congrArg (threadNext · 0xffffffff80010000) (congrArg Heap.mem hheap)

theorem ticks_make_run (bootstrapThread trampoline : Word) (n : Nat) (s : ThreadClient) :
    ∃ s', (bootedThreads bootstrapThread trampoline).Run s (List.replicate n (.tick 0)) s' := by
  induction n generalizing s with
  | zero => exact ⟨s, .nil s⟩
  | succ n ih =>
      obtain ⟨s', hrun⟩ := ih { s with kernel := s.kernel.schedTick 0 }
      exact ⟨s', .cons ⟨trivial, rfl⟩ hrun⟩

/-- **The scheduler in memory is the ring scheduler.** Every run next to the heap whose
stacks fit shows a run of the ring scheduler, read off the memory at its end: the links
from `current` visit each thread once, and thread number `i` has the id `i`. -/
theorem sched_refines_ring (hboot : bootstrapThread.toNat + 32 ≤ heapVbase.toNat)
    (hinit : (bootedThreads bootstrapThread trampoline).init s)
    (hrun : (bootedThreads bootstrapThread trampoline).Run s es s') :
    (∃ a fs a', (readySystem bootstrapThread).init a ∧ Shows RingCall es fs ∧
      (readySystem bootstrapThread).Run a fs a' ∧ InMemory s a ∧ InMemory s' a') ∧
    s'.threads.Nodup ∧
    (List.iterate (threadNext s'.kernel.mem) s'.kernel.current s'.threads.length).Perm
      s'.threads ∧
    s'.threads.map (threadId s'.kernel.mem) =
      (List.range s'.threads.length).map (BitVec.ofNat 64) := by
  have hsim := @ringSimulation bootstrapThread trampoline hboot
  obtain ⟨a, ha, hr⟩ := hsim.init s hinit
  obtain ⟨fs, a', hshows, hrunA, hr', cs, l, hinv⟩ := hsim.run hrun hr
  obtain ⟨l', hl'⟩ := readyRing_invariant bootstrapThread a' (hrunA.reachable (.init ha))
  have hlen : l'.length = s'.threads.length := by rw [hl'.known.length_eq, hr'.threads]
  have hnodup : s'.threads.Nodup := by
    rw [← hr'.threads]
    exact hl'.known.nodup_iff.mp hl'.ring.nodup
  refine ⟨⟨a, fs, a', ha, hshows, hrunA, hr.1, hr'⟩, hnodup, ?_, ?_⟩
  · rw [← hlen, (hr'.walk hl' (Nat.le_refl _)).1, hl'.ring.nodes, ← hr'.threads]
    exact hl'.known
  · have hcount := hinv.length_le (hinv.known.nodup_iff.mpr hnodup)
    rw [hinv.known.length_eq] at hcount
    have hsize : heapSize.toNat < 2 ^ 64 := heapSize.isLt
    have hids := threadIds_of_run (threadIds_init ha) hrunA (by rw [hr'.threads]; omega)
    rw [← hr'.threads, ← hids.ids, hr'.threads]
    exact List.map_congr_left (fun t ht => (hr'.id t ht).symm)

/-- A thread is created, yielded to, and interrupted by the timer. -/
theorem sched_refines_ring_twoThreads : ∃ s : ThreadClient,
    (bootedThreads 0xffffffff80010000 0).Run bootClient
      [.create 0 0 (heapVbase + headerSize), .yield 0, .tick 0] s ∧
    s.kernel.current = heapVbase + headerSize ∧
    (List.iterate (threadNext s.kernel.mem) s.kernel.current 2).Perm
      [0xffffffff80010000, heapVbase + headerSize] ∧
    [0xffffffff80010000, heapVbase + headerSize].map (threadId s.kernel.mem) = [0, 1] := by
  obtain ⟨s, hcreate, hthreads, hcurrent, hnext⟩ := bootClient_create
  let s₁ : ThreadClient := { s with kernel := s.kernel.schedYield 0 }
  let s₂ : ThreadClient := { s₁ with kernel := s₁.kernel.schedTick 0 }
  have hyield : (bootedThreads 0xffffffff80010000 0).Run s [.yield 0] s₁ := .single ⟨trivial, rfl⟩
  have htick : (bootedThreads 0xffffffff80010000 0).Run s₁ [.tick 0] s₂ := .single ⟨trivial, rfl⟩
  have hrun : (bootedThreads 0xffffffff80010000 0).Run bootClient
      [.create 0 0 (heapVbase + headerSize), .yield 0, .tick 0] s₂ :=
    (hcreate.append hyield).append htick
  obtain ⟨-, -, hperm, hids⟩ := sched_refines_ring (by decide) bootClient_init hrun
  rw [show s₂.threads = _ from hthreads] at hperm hids
  refine ⟨s₂, hrun, ?_, hperm, hids⟩
  -- the tick does not end the slice that `sched_yield` began
  have hsame : s₂.kernel.current = s₁.kernel.current := by
    show (s₁.kernel.schedTick 0).current = _
    rw [ThreadState.schedTick, show s₁.kernel.ticksSinceSwitch = 0 from
      (s.kernel.switchToNext_statics 0).2.1,
      if_neg (show ¬schedTimeSliceTicks ≤ (0 + 1 : Word) by decide)]
  rw [hsame, ← hnext, ← hcurrent]
  exact (s.kernel.switchToNext_cases 0).1

/-- **No thread starves.** As long as stacks fit, each thread is some number of links from
`current` in every reachable state, and in a run from there of ten ticks for each of
these links, and ten more for each thread created, it gets the processor. -/
theorem thread_never_starves (hboot : bootstrapThread.toNat + 32 ≤ heapVbase.toNat)
    (hs : (bootedThreads bootstrapThread trampoline).Reachable s) {t : Word}
    (ht : t ∈ s.threads) :
    ∃ d, 1 ≤ d ∧ d ≤ s.threads.length ∧
      (threadNext s.kernel.mem)^[d] s.kernel.current = t ∧
      ∀ es s', (bootedThreads bootstrapThread trampoline).Run s es s' →
        10 * (d + es.countP ThreadCall.creates) ≤ es.countP ThreadCall.isTick →
        ∃ es₁ es₂ s₁, es = es₁ ++ es₂ ∧ es₁ ≠ [] ∧
          (bootedThreads bootstrapThread trampoline).Run s es₁ s₁ ∧
          (bootedThreads bootstrapThread trampoline).Run s₁ es₂ s' ∧ s₁.kernel.current = t := by
  have hsim := @ringSimulation bootstrapThread trampoline hboot
  obtain ⟨a, ha, hr⟩ := hsim.reachable hs
  obtain ⟨l, hl⟩ := readyRing_invariant bootstrapThread a ha
  have hslice := sliceTicks_invariant bootstrapThread a ha
  have hlen : l.length = s.threads.length := by rw [hl.known.length_eq, hr.1.threads]
  obtain ⟨d, hd, hdl, hwalk⟩ := hl.ring.exists_walk (hl.mem.mpr (hr.1.threads ▸ ht))
  refine ⟨d, hd, hlen ▸ hdl, (hr.1.walk hl hdl).2.trans hwalk, fun es s' hrun hlong => ?_⟩
  obtain ⟨fs, a', hshows, hrunA, -, hpoints⟩ := hsim.run_split hrun hr
  obtain ⟨hticks, hcreates⟩ := ringCall_counts hshows
  obtain ⟨fs₁, f, fs₂, hsplit, hf⟩ := hl.wait_ticks hslice hrunA hd hdl hwalk
    (by rwa [← hticks, ← hcreates])
  obtain ⟨es₁, es₂, s₁, a₁, rfl, hrun₁, hrun₂, hshows₁, hrunA₁, -, hr₁⟩ :=
    hpoints (fs₁ ++ [f]) fs₂ (by rw [hsplit, List.append_assoc]; rfl)
  refine ⟨es₁, es₂, s₁, rfl, ?_, hrun₁, hrun₂, ?_⟩
  · rintro rfl
    exact List.append_ne_nil_of_right_ne_nil _ (List.cons_ne_nil _ _) hshows₁.eq_nil
  · rw [← hr₁.1.current]
    exact current_of_run hrunA₁ hf

/-- The thread created waits for at most twenty ticks. -/
theorem thread_never_starves_twoThreads : ∃ (s s₁ s' : ThreadClient) (es₁ es₂ : List ThreadCall),
    (bootedThreads 0xffffffff80010000 0).Run bootClient
      [.create 0 0 (heapVbase + headerSize)] s ∧
    s.kernel.current = 0xffffffff80010000 ∧
    es₁ ++ es₂ = List.replicate 20 (.tick 0) ∧
    (bootedThreads 0xffffffff80010000 0).Run s es₁ s₁ ∧
    (bootedThreads 0xffffffff80010000 0).Run s₁ es₂ s' ∧
    s₁.kernel.current = heapVbase + headerSize := by
  obtain ⟨s, hcreate, hthreads, hcurrent, -⟩ := bootClient_create
  obtain ⟨s', hrun⟩ := ticks_make_run 0xffffffff80010000 0 20 s
  obtain ⟨d, -, hd, -, hgets⟩ := thread_never_starves (by decide)
    (hcreate.reachable (.init bootClient_init))
    (show heapVbase + headerSize ∈ s.threads by rw [hthreads]; decide)
  rw [hthreads] at hd
  have hcreates : (List.replicate 20 (ThreadCall.tick 0)).countP ThreadCall.creates = 0 := by decide
  have hticks : (List.replicate 20 (ThreadCall.tick 0)).countP ThreadCall.isTick = 20 := by decide
  obtain ⟨es₁, es₂, s₁, hsplit, -, hrun₁, hrun₂, hnew⟩ := hgets _ s' hrun
    (by rw [hcreates, hticks]; exact Nat.mul_le_mul_left 10 hd)
  exact ⟨s, s₁, s', es₁, es₂, hcreate, hcurrent, hsplit.symm, hrun₁, hrun₂, hnew⟩

end Results

end QuinKernel
