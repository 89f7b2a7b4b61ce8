import QuinKernel.Heap.Payload
import QuinKernel.Vmm.Guarded
import QuinKernel.Sched.ContextSwitch
import QuinKernel.Sched.Model

/-!
# Threads in the heap (`thread.c`, `sched.c`)

The ready ring is linked through fields of `struct thread`, and all threads but
the bootstrap thread are blocks of the kernel heap. `ThreadState` is the memory
they share with the heap's headers, and `threadSystem` runs the scheduler next
to any other client of the heap. `ThreadsInv` keeps both structures apart: the
allocator never writes to a thread (`ThreadsInv.not_own`), and the scheduler
never to a header.

A `thread_create` that finds no stack frees the thread it has just allocated.
`kfree` is the inverse of the `kmalloc` before it, and neither touches a thread
of the ring (`thread_create_null_restores`).
-/

namespace QuinKernel

open Machine Heap

/-! ## `struct thread` -/

/-- `sizeof(struct thread)`. -/
def threadSize : Word := 32

/-- The thread's `id` and `next`. -/
def threadId (m : Mem) (thread : Word) : Word := load64 m (thread.toNat + 16)
def threadNext (m : Mem) (thread : Word) : Word := load64 m (thread.toNat + 24)

/-- `thread->stack_pointer = sp`, and so on. -/
def setStackPointer (m : Mem) (thread sp : Word) : Mem := store64 m thread.toNat sp
def setStackBase (m : Mem) (thread stack : Word) : Mem := store64 m (thread.toNat + 8) stack
def setThreadId (m : Mem) (thread id : Word) : Mem := store64 m (thread.toNat + 16) id
def setThreadNext (m : Mem) (thread next : Word) : Mem := store64 m (thread.toNat + 24) next

/-- The heap and the memory around it, the paging state, and the statics of
`sched.c`. -/
structure ThreadState where
  heap : Heap
  vmm : Vmm
  current : Word
  nextThreadId : Word
  ticksSinceSwitch : Word

namespace ThreadState

/-- The memory. -/
def mem (k : ThreadState) : Mem := k.heap.mem

def withMem (k : ThreadState) (m : Mem) : ThreadState := { k with heap := { k.heap with mem := m } }

@[simp] theorem withMem_heap (k : ThreadState) (m : Mem) :
    (k.withMem m).heap = { k.heap with mem := m } := rfl
@[simp] theorem withMem_current (k : ThreadState) (m : Mem) : (k.withMem m).current = k.current := rfl

/-- `sched_init`. -/
def schedInit (k : ThreadState) (bootstrapThread : Word) : ThreadState :=
  let m := setThreadId k.mem bootstrapThread 0
  let m := setThreadNext m bootstrapThread bootstrapThread
  { k.withMem m with current := bootstrapThread }

/-- `sched_add_thread`, between acquiring and releasing the lock. -/
def schedAddThread (k : ThreadState) (thread : Word) : ThreadState :=
  let m := setThreadId k.mem thread k.nextThreadId
  let m := setThreadNext m thread (threadNext m k.current)
  let m := setThreadNext m k.current thread
  { k.withMem m with nextThreadId := k.nextThreadId + 1 }

/-- `switch_to_next`; `sp` is the stack pointer `context_switch` stores. -/
def switchToNext (k : ThreadState) (sp : Word) : ThreadState :=
  let prev := k.current
  let next := threadNext k.mem prev
  let k := { k with current := next, ticksSinceSwitch := 0 }
  if next ≠ prev then k.withMem (setStackPointer k.mem prev sp) else k

/-- `sched_tick`. -/
def schedTick (k : ThreadState) (sp : Word) : ThreadState :=
  let k := { k with ticksSinceSwitch := k.ticksSinceSwitch + 1 }
  if schedTimeSliceTicks ≤ k.ticksSinceSwitch then k.switchToNext sp else k

/-- `sched_yield`. -/
def schedYield (k : ThreadState) (sp : Word) : ThreadState := k.switchToNext sp

/-- `*(--sp) = w`, for each of the words. -/
def pushWords (m : Mem) (sp : Word) : List Word → Mem × Word
  | [] => (m, sp)
  | w :: ws => pushWords (store64 m (sp - 8).toNat w) (sp - 8) ws

/-- `thread_create` from the allocated stack on. -/
def startThread (k : ThreadState) (trampoline t stack entry arg : Word) : ThreadState :=
  let (m, sp) := pushWords k.mem (stack + threadStackPages * pageSize)
    [trampoline, 0, 0, entry, arg, 0, 0]
  let m := setStackPointer m t sp
  let m := setStackBase m t stack
  (k.withMem m).schedAddThread t

/-- `thread_create`: the thread (0 is `NULL`) and the state after. -/
def threadCreate (k : ThreadState) (trampoline entry arg : Word) :
    Option (Except Panic (Word × ThreadState)) :=
  match kmalloc k.heap threadSize with
  | none => none
  | some (t, heap) =>
      let k := { k with heap }
      if t = 0 then some (.ok (0, k))
      else
        match vmmAllocGuarded k.vmm threadStackPages vmmWritable with
        | .error e => some (.error e)
        | .ok (none, vmm) => some (.ok (0, { k with vmm, heap := kfree k.heap t }))
        | .ok (some stack, vmm) =>
            some (.ok (t, { k with vmm }.startThread trampoline t stack entry arg))

end ThreadState

/-! ## Running it -/

/-- The kernel, the heap pointers in use and the threads in the ring. -/
structure ThreadClient where
  kernel : ThreadState
  live : List Word
  threads : List Word

/-- The heap and its clients. -/
def ThreadClient.client (s : ThreadClient) : HeapClient := ⟨s.kernel.heap, s.live⟩

inductive ThreadCall
  /-- Another client of the heap. -/
  | heap (call : HeapCall)
  /-- Code writes a byte that is neither the heap's nor the bootstrap thread's. -/
  | write (x : Nat) (b : Byte)
  | yield (sp : Word)
  | tick (sp : Word)
  | create (entry arg result : Word)

/-- `x` is a byte of the thread at `t`. -/
def InThread (t : Word) (x : Nat) : Prop := t.toNat ≤ x ∧ x < t.toNat + 32

/-- A client of the heap neither frees nor overwrites a thread. -/
def SparesThreads (threads : List Word) : HeapCall → Prop
  | .malloc _ _ => True
  | .free ptr => ptr ∉ threads
  | .write x _ => ∀ t ∈ threads, ¬InThread t x

/-- The scheduler after `sched_init`, next to any clients of the heap. -/
def threadSystem (bootstrapThread trampoline : Word) : System ThreadClient ThreadCall where
  init s := s.threads = [bootstrapThread] ∧
    ∃ k : ThreadState, heapSystem.Reachable ⟨k.heap, s.live⟩ ∧ k.nextThreadId = 1 ∧
      s.kernel = k.schedInit bootstrapThread
  step s e s' :=
    match e with
    | .heap call =>
        heapSystem.step s.client call s'.client ∧ SparesThreads s.threads call ∧
          s'.kernel = { s.kernel with heap := s'.kernel.heap } ∧ s'.threads = s.threads
    | .write x b =>
        (x < heapVbase.toNat ∨ heapVbase.toNat + heapSize.toNat ≤ x) ∧
          ¬InThread bootstrapThread x ∧
          s' = { s with kernel := s.kernel.withMem (store8 s.kernel.mem x b) }
    | .yield sp => s' = { s with kernel := s.kernel.schedYield sp }
    | .tick sp => s' = { s with kernel := s.kernel.schedTick sp }
    | .create entry arg result =>
        s.kernel.threadCreate trampoline entry arg = some (.ok (result, s'.kernel)) ∧
          s'.live = (if result = 0 then s.live else result :: s.live) ∧
          s'.threads = (if result = 0 then s.threads else s.threads ++ [result])

/-- A stack that `thread_create` gets lies in the dynamic window: it ends below the
MMIO window. -/
def StackFits (s : ThreadClient) : ThreadCall → Prop
  | .create _ _ result => result ≠ 0 →
      vmmDynamicVbase.toNat ≤ s.kernel.vmm.dynamicNextVaddr.toNat ∧
      s.kernel.vmm.dynamicNextVaddr.toNat + 4096 + 4 * 4096 ≤ vmmMmioVbase.toNat
  | _ => True

/-! ## The ring -/

/-- `t` lies outside the heap's range. -/
def StaticThread (t : Word) : Prop :=
  t.toNat + 32 ≤ heapVbase.toNat ∨ heapVbase.toNat + heapSize.toNat ≤ t.toNat

/-- The links from `current` form the ring `l`, of one thread that is static and
others that are blocks of the heap in use. -/
structure ThreadRing (k : ThreadState) (live l : List Word) : Prop where
  ring : LinkRing (threadNext k.mem) k.current l
  placed : ∀ t ∈ l, StaticThread t ∨ t ∈ live ∧ 32 ≤ payload k.heap t
  oneStatic : ∀ t ∈ l, ∀ u ∈ l, StaticThread t → StaticThread u → t = u

/-- The ring `l` is the same in both states, its threads byte for byte. -/
structure SameRing (k k' : ThreadState) (live l : List Word) : Prop where
  ring : ThreadRing k' live l
  current : k'.current = k.current
  nextThreadId : k'.nextThreadId = k.nextThreadId
  threads : ∀ t ∈ l, ∀ x, InThread t x → k'.mem x = k.mem x

section Fields

variable {m m' : Mem} {t u : Word}

theorem threadNext_congr (h : ∀ x, InThread t x → m' x = m x) : threadNext m' t = threadNext m t :=
  load64_congr (fun x hlo hhi => h x ⟨by omega, by omega⟩)

theorem threadNext_agreeOff {lo hi : Nat} (h : AgreeOff lo hi m m')
    (hd : t.toNat + 32 ≤ lo ∨ hi ≤ t.toNat + 24) : threadNext m' t = threadNext m t :=
  h.load64 (by omega)

end Fields

section Rows

variable {k k' : ThreadState} {live live' l : List Word} {cs cs' : List Chunk} {t u : Word}

/-- Where a thread lies, in terms of the row. -/
def RowPlaced (cs : List Chunk) (t : Word) : Prop :=
  StaticThread t ∨ ∃ n, 32 ≤ n ∧ (t.toNat, n) ∈ used heapVbase.toNat cs

theorem Represents.rowPlaced_iff (h : Represents ⟨k.heap, live⟩ cs) :
    RowPlaced cs t ↔ StaticThread t ∨ t ∈ live ∧ 32 ≤ payload k.heap t := by
  refine or_congr_right ⟨?_, ?_⟩
  · rintro ⟨n, hn, hmem⟩
    have hlive := h.used_live hmem
    rw [ofNat_toNat] at hlive
    obtain ⟨before, after, rfl, hpos⟩ := exists_of_used hmem
    have hsize := h.payload_at
    rw [← hpos, ofNat_toNat] at hsize
    exact ⟨hlive, by rw [show payload k.heap t = n from hsize]; exact hn⟩
  · rintro ⟨hlive, hn⟩
    obtain ⟨before, size, after, rfl, rfl⟩ := h.exists_chunk hlive
    have hsize := h.payload_at
    rw [show payload k.heap _ = size from hsize] at hn
    refine ⟨size, hn, ?_⟩
    rw [h.toNat_payload]
    exact used_mem heapVbase.toNat before size after

/-- **The allocator's bytes are no thread's.** -/
theorem RowPlaced.not_own (h : RowPlaced cs t) (hspan : span cs = heapSize.toNat) {x : Nat}
    (hx : InThread t x) : ¬Own heapVbase.toNat cs x := by
  intro hown
  have hlo := hown.ge
  have hhi := hown.lt
  obtain ⟨hge, hlt⟩ := hx
  rcases h with hstatic | ⟨n, hn, hmem⟩
  · unfold StaticThread at hstatic
    omega
  · exact not_own_of_used hmem hge (by omega) hown

/-- Two threads have no byte in common. -/
theorem RowPlaced.apart (ht : RowPlaced cs t) (hu : RowPlaced cs u) (hspan : span cs = heapSize.toNat)
    (hne : t ≠ u) (hone : StaticThread t → StaticThread u → t = u) :
    Apart t.toNat 32 u.toNat 32 := by
  have hne' : t.toNat ≠ u.toNat := fun heq => hne (BitVec.eq_of_toNat_eq heq)
  have hin : ∀ {p n}, (p, n) ∈ used heapVbase.toNat cs → 32 ≤ n →
      heapVbase.toNat ≤ p ∧ p + 32 ≤ heapVbase.toNat + heapSize.toNat := by
    intro p n hmem hn
    have := used_end_le hmem
    omega
  rcases ht with ht | ⟨n, hn, ht⟩ <;> rcases hu with hu | ⟨j, hj, hu⟩
  · exact absurd (hone ht hu) hne
  · have := hin hu hj
    unfold StaticThread Apart at *
    omega
  · have := hin ht hn
    unfold StaticThread Apart at *
    omega
  · have := used_apart ht hu hne'
    unfold Apart
    omega

/-- What keeps the threads' bytes and the chunks they lie in keeps the ring. -/
theorem ThreadRing.congr (h : ThreadRing k live l) (hrow : Represents ⟨k.heap, live⟩ cs)
    (hrow' : Represents ⟨k'.heap, live'⟩ cs') (hcurrent : k'.current = k.current)
    (hbytes : ∀ t ∈ l, ∀ x, InThread t x → k'.mem x = k.mem x)
    (hplaced : ∀ t ∈ l, RowPlaced cs t → RowPlaced cs' t) : ThreadRing k' live' l where
  ring := by
    rw [hcurrent]
    exact h.ring.congr (fun t ht => threadNext_congr (hbytes t ht))
  placed t ht := hrow'.rowPlaced_iff.mp (hplaced t ht (hrow.rowPlaced_iff.mpr (h.placed t ht)))
  oneStatic := h.oneStatic

end Rows

/-! ## `thread_create` -/

section Create

variable {k k' : ThreadState} {live l : List Word} {cs : List Chunk}
  {trampoline entry arg r : Word}

/-- The three ways through `thread_create`. -/
theorem ThreadState.threadCreate_cases
    (hcall : k.threadCreate trampoline entry arg = some (.ok (r, k'))) :
    ∃ t heap, kmalloc k.heap threadSize = some (t, heap) ∧
      ((t = 0 ∧ r = 0 ∧ k' = { k with heap }) ∨
      (t ≠ 0 ∧ r = 0 ∧ ∃ vmm, vmmAllocGuarded k.vmm threadStackPages vmmWritable = .ok (none, vmm) ∧
        k' = { k with vmm, heap := kfree heap t }) ∨
      (t ≠ 0 ∧ r = t ∧ ∃ stack vmm,
        vmmAllocGuarded k.vmm threadStackPages vmmWritable = .ok (some stack, vmm) ∧
        k' = { k with heap, vmm }.startThread trampoline t stack entry arg)) := by
  unfold ThreadState.threadCreate at hcall
  split at hcall
  · cases hcall
  · next t heap hmalloc =>
    refine ⟨t, heap, hmalloc, ?_⟩
    by_cases ht : t = 0
    · rw [if_pos ht] at hcall
      obtain ⟨hr, hk⟩ := Prod.mk.inj (Except.ok.inj (Option.some.inj hcall))
      exact .inl ⟨ht, hr.symm, hk.symm⟩
    rw [if_neg ht] at hcall
    right
    split at hcall
    · cases hcall
    · next vmm halloc =>
      obtain ⟨hr, hk⟩ := Prod.mk.inj (Except.ok.inj (Option.some.inj hcall))
      exact .inl ⟨ht, hr.symm, vmm, halloc, hk.symm⟩
    · next stack vmm halloc =>
      obtain ⟨hr, hk⟩ := Prod.mk.inj (Except.ok.inj (Option.some.inj hcall))
      exact .inr ⟨ht, hr.symm, stack, vmm, halloc, hk.symm⟩

/-- With a thread and a stack, `thread_create` starts it. -/
theorem ThreadState.threadCreate_some {t stack : Word} {heap : Heap} {vmm : Vmm} (entry arg : Word)
    (hmalloc : kmalloc k.heap threadSize = some (t, heap)) (ht : t ≠ 0)
    (halloc : vmmAllocGuarded k.vmm threadStackPages vmmWritable = .ok (some stack, vmm)) :
    k.threadCreate trampoline entry arg =
      some (.ok (t, { k with heap, vmm }.startThread trampoline t stack entry arg)) := by
  unfold threadCreate
  rw [hmalloc]
  dsimp only
  rw [if_neg ht, halloc]

/-- **A `thread_create` that returns `NULL`** leaves the row of chunks, the statics
and every thread as they were. -/
theorem ThreadState.threadCreate_null (hrow : Represents ⟨k.heap, live⟩ cs)
    (hcall : k.threadCreate trampoline entry arg = some (.ok (0, k'))) :
    Represents ⟨k'.heap, live⟩ cs ∧ k'.current = k.current ∧ k'.nextThreadId = k.nextThreadId ∧
    ∀ u, RowPlaced cs u → ∀ x, InThread u x → k'.mem x = k.mem x := by
  obtain ⟨t, heap, hmalloc, ⟨rfl, -, rfl⟩ | ⟨ht, -, vmm, -, rfl⟩ | ⟨ht, h0, -⟩⟩ :=
    threadCreate_cases hcall
  · obtain ⟨-, -, hheap, -⟩ := hrow.malloc_used hmalloc
    obtain rfl := hheap rfl
    exact ⟨hrow, rfl, rfl, fun u _ x _ => rfl⟩
  · obtain ⟨cs', hrow', -, hused, -⟩ := hrow.malloc_used hmalloc
    rw [if_neg ht] at hrow'
    refine ⟨hrow.malloc_free hmalloc ht, rfl, rfl, fun u hu x hx => ?_⟩
    -- first `kmalloc`, then `kfree`
    have hu' : RowPlaced cs' u := hu.imp_right (fun ⟨n, hn, hmem⟩ => ⟨n, hn, hused _ hmem⟩)
    have hfirst := (hrow.malloc_frame hmalloc).1 x (hu.not_own hrow.spans hx)
    exact ((hrow'.free_frame List.mem_cons_self).1 x (hu'.not_own hrow'.spans hx)).trans hfirst
  · exact absurd h0.symm ht

end Create

/-! ## The scheduler next to the heap -/

/-- The ring of the threads known, next to a heap in order. -/
structure ThreadsInv (bootstrapThread : Word) (s : ThreadClient) (cs : List Chunk)
    (l : List Word) : Prop where
  row : Represents s.client cs
  ring : ThreadRing s.kernel s.live l
  known : l.Perm s.threads
  bootstrap : bootstrapThread ∈ l

section Stores

variable {m : Mem} {t w : Word}

theorem setStackPointer_agreeOff : AgreeOff t.toNat (t.toNat + 8) m (setStackPointer m t w) :=
  store64_agreeOff m _ w

theorem setStackBase_agreeOff : AgreeOff (t.toNat + 8) (t.toNat + 16) m (setStackBase m t w) :=
  store64_agreeOff m _ w

theorem setThreadId_agreeOff : AgreeOff (t.toNat + 16) (t.toNat + 24) m (setThreadId m t w) :=
  store64_agreeOff m _ w

theorem setThreadNext_agreeOff : AgreeOff (t.toNat + 24) (t.toNat + 32) m (setThreadNext m t w) :=
  store64_agreeOff m _ w

@[simp] theorem threadNext_setThreadNext : threadNext (setThreadNext m t w) t = w :=
  load64_store64 m _ w

/-- Pushing words writes below the stack pointer. -/
theorem pushWords_agreeOff (ws : List Word) : ∀ (m : Mem) (sp : Word), 8 * ws.length ≤ sp.toNat →
    AgreeOff (sp.toNat - 8 * ws.length) sp.toNat m (ThreadState.pushWords m sp ws).1 := by
  induction ws with
  | nil => exact fun m sp _ => .refl _ _ _
  | cons w ws ih =>
      intro m sp hsp
      rw [List.length_cons] at hsp ⊢
      have hsub : (sp - 8).toNat = sp.toNat - 8 := by
        rw [BitVec.toNat_sub_of_le (by rw [BitVec.le_def]; show 8 ≤ _; omega)]
        rfl
      have hstore := store64_agreeOff m (sp - 8).toNat w
      have hrest := ih (store64 m (sp - 8).toNat w) (sp - 8) (by omega)
      rw [hsub] at hstore hrest
      show AgreeOff (sp.toNat - 8 * (ws.length + 1)) sp.toNat m
        (ThreadState.pushWords (store64 m (sp - 8).toNat w) (sp - 8) ws).1
      rw [hsub]
      exact (hstore.mono (by omega) (by omega)).trans (hrest.mono (by omega) (by omega))

end Stores

section Steps

variable {bootstrapThread trampoline : Word} {s s' : ThreadClient} {cs : List Chunk}
  {l : List Word}

theorem ThreadsInv.rowPlaced (h : ThreadsInv bootstrapThread s cs l) {t : Word} (ht : t ∈ l) :
    RowPlaced cs t := h.row.rowPlaced_iff.mpr (h.ring.placed t ht)

theorem ThreadsInv.apart (h : ThreadsInv bootstrapThread s cs l) {t u : Word} (ht : t ∈ l)
    (hu : u ∈ l) (hne : t ≠ u) : Apart t.toNat 32 u.toNat 32 :=
  (h.rowPlaced ht).apart (h.rowPlaced hu) h.row.spans hne (h.ring.oneStatic t ht u hu)

theorem ThreadsInv.current_mem (h : ThreadsInv bootstrapThread s cs l) : s.kernel.current ∈ l := by
  obtain ⟨rest, rfl, -⟩ := h.ring.ring.exists_cons
  exact List.mem_cons_self

/-- The heap's other clients write to no thread. -/
theorem ThreadsInv.heap_bytes (h : ThreadsInv bootstrapThread s cs l) {call : HeapCall}
    (hstep : heapSystem.step s.client call s'.client) (hspares : SparesThreads s.threads call)
    {t : Word} (ht : t ∈ l) {x : Nat} (hx : InThread t x) : s'.kernel.mem x = s.kernel.mem x := by
  obtain ⟨-, -, hagree, -⟩ := h.row.step_frame hstep
  refine hagree x ?_
  rintro (hown | hwrites)
  · exact (h.rowPlaced ht).not_own h.row.spans hx hown
  · cases call with
    | malloc => exact hwrites
    | free => exact hwrites
    | write y b =>
        obtain rfl : x = y := hwrites
        exact hspares t (h.known.mem_iff.mp ht) hx

/-- The heap's other clients leave the ring alone. -/
theorem ThreadsInv.heap (h : ThreadsInv bootstrapThread s cs l) {call : HeapCall}
    (hstep : heapSystem.step s.client call s'.client) (hspares : SparesThreads s.threads call)
    (hkernel : s'.kernel = { s.kernel with heap := s'.kernel.heap })
    (hthreads : s'.threads = s.threads) : ∃ cs', ThreadsInv bootstrapThread s' cs' l := by
  obtain ⟨cs', hrow', -, hused⟩ := h.row.step_frame hstep
  have hcurrent : s'.kernel.current = s.kernel.current := by rw [hkernel]
  refine ⟨cs', hrow', h.ring.congr h.row hrow' hcurrent
    (fun t ht x hx => h.heap_bytes hstep hspares ht hx)
    (fun t ht => .imp_right ?_), hthreads ▸ h.known, h.bootstrap⟩
  rintro ⟨n, hn, hmem⟩
  refine ⟨n, hn, hused _ hmem ?_⟩
  rintro rfl
  refine hspares ?_
  rw [ofNat_toNat]
  exact h.known.mem_iff.mp ht

/-- Writes that are neither the heap's nor the bootstrap thread's are no thread's. -/
theorem ThreadsInv.write_bytes (h : ThreadsInv bootstrapThread s cs l)
    (hboot : bootstrapThread.toNat + 32 ≤ heapVbase.toNat) {x : Nat} (b : Byte)
    (hheap : x < heapVbase.toNat ∨ heapVbase.toNat + heapSize.toNat ≤ x)
    (hx : ¬InThread bootstrapThread x) {t : Word} (ht : t ∈ l) {y : Nat} (hy : InThread t y) :
    store8 s.kernel.mem x b y = s.kernel.mem y := by
  refine store8_agreeOff s.kernel.mem x b y ?_
  rcases h.rowPlaced ht with hstatic | ⟨n, hn, hmem⟩
  · obtain rfl := h.ring.oneStatic t ht _ h.bootstrap hstatic (.inl hboot)
    unfold InThread at hx hy
    omega
  · have hin := used_end_le hmem
    rw [h.row.spans] at hin
    unfold InThread at hy
    omega

/-- Writes that are neither the heap's nor a thread's leave both alone. -/
theorem ThreadsInv.write (h : ThreadsInv bootstrapThread s cs l)
    (hboot : bootstrapThread.toNat + 32 ≤ heapVbase.toNat) {x : Nat} (b : Byte)
    (hheap : x < heapVbase.toNat ∨ heapVbase.toNat + heapSize.toNat ≤ x)
    (hx : ¬InThread bootstrapThread x) :
    ThreadsInv bootstrapThread { s with kernel := s.kernel.withMem (store8 s.kernel.mem x b) }
      cs l := by
  have hheaders : ∀ y, Own heapVbase.toNat cs y →
      store8 s.kernel.mem x b y = s.kernel.mem y := by
    intro y hy
    have hlo := hy.ge
    have hhi := hy.lt
    rw [h.row.spans] at hhi
    exact store8_agreeOff s.kernel.mem x b y (by omega)
  have hrow' := h.row.congr hheaders
  exact ⟨hrow', h.ring.congr h.row hrow' rfl (fun t ht y hy => h.write_bytes hboot b hheap hx ht hy)
    (fun _ _ ht => ht), h.known, h.bootstrap⟩

/-- A switch walks one link and writes at most the `stack_pointer` of the thread left. -/
theorem ThreadState.switchToNext_cases (k : ThreadState) (sp : Word) :
    (k.switchToNext sp).current = threadNext k.mem k.current ∧
    ∃ m', (k.switchToNext sp).heap = { k.heap with mem := m' } ∧
      AgreeOff k.current.toNat (k.current.toNat + 8) k.mem m' := by
  unfold switchToNext mem
  dsimp only
  split
  · exact ⟨withMem_current _ _, setStackPointer k.heap.mem k.current sp, withMem_heap _ _,
      setStackPointer_agreeOff⟩
  · exact ⟨rfl, k.heap.mem, rfl, .refl _ _ _⟩

/-- A switch turns the ring. -/
theorem ThreadsInv.switch (h : ThreadsInv bootstrapThread s cs l) {k' : ThreadState} {sp : Word}
    (hk : k' = s.kernel.switchToNext sp) :
    ThreadsInv bootstrapThread { s with kernel := k' } cs (l.rotate 1) := by
  have hmem := h.current_mem
  obtain ⟨hcurrent, m', hheap, hoff⟩ := s.kernel.switchToNext_cases sp
  rw [← hk] at hcurrent hheap
  have hmem' : k'.mem = m' := congrArg Heap.mem hheap
  subst hmem'
  have hrow' : Represents ⟨k'.heap, s.live⟩ cs := by
    rw [hheap]
    refine h.row.congr (fun x hx => hoff x ?_)
    by_contra hin
    exact (h.rowPlaced hmem).not_own h.row.spans ⟨by omega, by omega⟩ hx
  have hnext : ∀ t ∈ l, threadNext k'.mem t = threadNext s.kernel.mem t := by
    intro t ht
    refine threadNext_agreeOff hoff ?_
    by_cases heq : t = s.kernel.current
    · rw [heq]
      omega
    · have := h.apart ht hmem heq
      unfold Apart at this
      omega
  refine ⟨hrow', ⟨?_, fun t ht => ?_, fun t ht u hu => ?_⟩, ?_, ?_⟩
  · rw [hcurrent, ← hnext _ hmem]
    exact (h.ring.ring.congr hnext).advance
  · exact hrow'.rowPlaced_iff.mp (h.rowPlaced (List.mem_rotate.mp ht))
  · exact h.ring.oneStatic t (List.mem_rotate.mp ht) u (List.mem_rotate.mp hu)
  · exact (List.rotate_perm l 1).trans h.known
  · exact List.mem_rotate.mpr h.bootstrap

/-- A tick switches or changes no thread. -/
theorem ThreadsInv.tick (h : ThreadsInv bootstrapThread s cs l) (sp : Word) :
    ∃ l', ThreadsInv bootstrapThread { s with kernel := s.kernel.schedTick sp } cs l' := by
  have hcount : ThreadsInv bootstrapThread { s with kernel :=
      { s.kernel with ticksSinceSwitch := s.kernel.ticksSinceSwitch + 1 } } cs l :=
    ⟨h.row, ⟨h.ring.ring, h.ring.placed, h.ring.oneStatic⟩, h.known, h.bootstrap⟩
  unfold ThreadState.schedTick
  dsimp only
  split
  · exact ⟨_, hcount.switch rfl⟩
  · exact ⟨l, hcount⟩

/-- `x` is a byte of the stack `thread_create` got. -/
def InStack (stack : Word) (x : Nat) : Prop := stack.toNat ≤ x ∧ x < stack.toNat + 4 * 4096

/-- What `thread_create` writes once it has a thread and a stack: the frame, the
new thread, and the link of the running one. -/
theorem ThreadState.startThread_cases (k : ThreadState) {t stack : Word} (entry arg : Word)
    (hstack : stack.toNat + 4 * 4096 < 2 ^ 64) (hapart : Apart t.toNat 32 k.current.toNat 32)
    (hcurrent : ∀ x, InThread k.current x → ¬InStack stack x) :
    (k.startThread trampoline t stack entry arg).current = k.current ∧
    ∃ m', (k.startThread trampoline t stack entry arg).heap = { k.heap with mem := m' } ∧
      AgreeBut (fun x => InStack stack x ∨ InThread t x ∨ InThread k.current x) k.mem m' ∧
      threadNext m' k.current = t ∧ threadNext m' t = threadNext k.mem k.current := by
  have htop : (stack + threadStackPages * pageSize).toNat = stack.toNat + 4 * 4096 := by
    rw [BitVec.toNat_add, show (threadStackPages * pageSize).toNat = 4 * 4096 from rfl,
      Nat.mod_eq_of_lt hstack]
  unfold startThread
  set words : List Word := [trampoline, 0, 0, entry, arg, 0, 0] with hwords
  have hpush := pushWords_agreeOff words k.mem (stack + threadStackPages * pageSize)
    (by rw [htop, hwords]; simp only [List.length_cons, List.length_nil]; omega)
  rw [htop, show words.length = 7 from rfl] at hpush
  rcases hp : pushWords k.mem (stack + threadStackPages * pageSize) words with ⟨m₁, sp⟩
  rw [hp] at hpush
  dsimp only at hpush ⊢
  set m₂ := setStackPointer m₁ t sp with hm₂
  set m₃ := setStackBase m₂ t stack with hm₃
  set m₄ := setThreadId m₃ t k.nextThreadId with hm₄
  -- nothing written so far is the running thread's
  have hfirst : AgreeBut (fun x => InStack stack x ∨ InThread t x) k.mem m₄ := by
    have hthread : AgreeOff t.toNat (t.toNat + 32) m₁ m₄ :=
      ((setStackPointer_agreeOff.mono (Nat.le_refl _) (by omega)).trans
        (setStackBase_agreeOff.mono (by omega) (by omega))).trans
        (setThreadId_agreeOff.mono (by omega) (by omega))
    have hframe : ∀ x, stack.toNat + 4 * 4096 - 8 * 7 ≤ x → x < stack.toNat + 4 * 4096 →
        InStack stack x ∨ InThread t x := fun x hlo hhi => .inl ⟨by omega, hhi⟩
    have hself : ∀ x, t.toNat ≤ x → x < t.toNat + 32 → InStack stack x ∨ InThread t x :=
      fun x hlo hhi => .inr ⟨hlo, hhi⟩
    exact (hpush.agreeBut hframe).trans (hthread.agreeBut hself)
  have hnext : threadNext m₄ k.current = threadNext k.mem k.current := by
    refine threadNext_congr (fun x hx => hfirst x ?_)
    rintro (hin | hin)
    · exact hcurrent x hx hin
    · unfold Apart at hapart
      unfold InThread at hx hin
      omega
  set m₅ := setThreadNext m₄ t (threadNext m₄ k.current) with hm₅
  refine ⟨rfl, setThreadNext m₅ k.current t, rfl, ?_, threadNext_setThreadNext, ?_⟩
  · have hnew : ∀ x, t.toNat + 24 ≤ x → x < t.toNat + 32 →
        InStack stack x ∨ InThread t x ∨ InThread k.current x :=
      fun x hlo hhi => .inr (.inl ⟨by omega, hhi⟩)
    have hrunning : ∀ x, k.current.toNat + 24 ≤ x → x < k.current.toNat + 32 →
        InStack stack x ∨ InThread t x ∨ InThread k.current x :=
      fun x hlo hhi => .inr (.inr ⟨by omega, hhi⟩)
    have hframe := hfirst.mono (fun x (hx : InStack stack x ∨ InThread t x) =>
      hx.imp_right (.inl : InThread t x → InThread t x ∨ InThread k.current x))
    exact (hframe.trans (setThreadNext_agreeOff.agreeBut hnew)).trans
      (setThreadNext_agreeOff.agreeBut hrunning)
  · unfold Apart at hapart
    rw [threadNext_agreeOff setThreadNext_agreeOff (by omega), hm₅, threadNext_setThreadNext, hnext]

/-- The stack `vmm_alloc_guarded` returns starts behind the first guard page. -/
theorem vmmAllocGuarded_start {v v' : Vmm} {count stack : Word} {flags : BitVec 32}
    (h : vmmAllocGuarded v count flags = .ok (some stack, v')) :
    stack = v.dynamicNextVaddr + pageSize := by
  unfold vmmAllocGuarded at h
  dsimp only at h
  split at h
  · cases h
  · exact (Option.some.inj (Prod.mk.inj (Except.ok.inj h)).1).symm
  · cases (Prod.mk.inj (Except.ok.inj h)).1

/-- What `thread_create` has got before it writes: a block `r` that is apart from
every thread of the ring `l`, and a stack that is apart from all of them. -/
structure NewThread (s : ThreadClient) (l : List Word) (k : ThreadState) (stack r : Word)
    (cs : List Chunk) : Prop where
  row : Represents ⟨k.heap, r :: s.live⟩ cs
  ring : ThreadRing k (r :: s.live) l
  placed : RowPlaced cs r
  placedOld : ∀ u ∈ l, RowPlaced cs u
  dynamic : ¬StaticThread r
  fresh : r ∉ l
  apart : ∀ u ∈ l, Apart r.toNat 32 u.toNat 32
  stackEnd : stack.toNat + 4 * 4096 < 2 ^ 64
  heapOff : ∀ x, x < heapVbase.toNat + heapSize.toNat → ¬InStack stack x
  threadOff : ∀ u ∈ l, ∀ x, InThread u x → ¬InStack stack x
  bytes : ∀ u ∈ l, ∀ x, InThread u x → k.mem x = s.kernel.mem x

/-- The way through `thread_create` that returns a thread. -/
theorem ThreadsInv.create_new (h : ThreadsInv bootstrapThread s cs l)
    (hboot : bootstrapThread.toNat + 32 ≤ heapVbase.toNat) {entry arg r : Word} {k' : ThreadState}
    (hfits : StackFits s (.create entry arg r))
    (hcall : s.kernel.threadCreate trampoline entry arg = some (.ok (r, k'))) (hr : r ≠ 0) :
    ∃ heap vmm stack cs', NewThread s l { s.kernel with heap, vmm } stack r cs' ∧
      k' = { s.kernel with heap, vmm }.startThread trampoline r stack entry arg := by
  obtain ⟨hlo, hhi⟩ := hfits hr
  obtain ⟨t, heap, hmalloc, ⟨-, h0, -⟩ | ⟨-, h0, -⟩ | ⟨ht, rfl, stack, vmm, halloc, hk⟩⟩ :=
    ThreadState.threadCreate_cases hcall
  · exact absurd h0 hr
  · exact absurd h0 hr
  obtain ⟨cs', hrow₁, -, hused, hnew⟩ := h.row.malloc_used hmalloc
  rw [if_neg ht] at hrow₁
  obtain ⟨n, hn, hmem⟩ := hnew ht
  rw [show (alignUp threadSize minSplitSize).toNat = 32 by decide] at hn
  have hplaced : RowPlaced cs' r := .inr ⟨n, hn, hmem⟩
  -- the ring, after `kmalloc`
  have hbytes : ∀ u ∈ l, ∀ x, InThread u x → heap.mem x = s.kernel.mem x := fun u hu x hx =>
    (h.row.malloc_frame hmalloc).1 x ((h.rowPlaced hu).not_own h.row.spans hx)
  have hring₁ : ThreadRing { s.kernel with heap, vmm } (r :: s.live) l := h.ring.congr h.row hrow₁ rfl
    hbytes (fun t ht => .imp_right (fun ⟨n, hn, hmem⟩ => ⟨n, hn, hused _ hmem⟩))
  have hplaced₁ : ∀ u ∈ l, RowPlaced cs' u := fun u hu => hrow₁.rowPlaced_iff.mpr (hring₁.placed u hu)
  have hin := used_end_le hmem
  rw [hrow₁.spans] at hin
  have hdynamic : ¬StaticThread r := by
    unfold StaticThread headerBytes at *
    omega
  have hfresh : r ∉ l := by
    intro hrl
    rcases h.ring.placed r hrl with hstatic | ⟨hlive, -⟩
    · exact hdynamic hstatic
    · have hnodup : (r :: s.live).Nodup :=
        hrow₁.live.nodup_iff.mpr (inUse_map_nodup hrow₁.fits)
      exact (List.nodup_cons.mp hnodup).1 hlive
  have hapart : ∀ u ∈ l, Apart r.toNat 32 u.toNat 32 := by
    intro u hu
    refine hplaced.apart (hplaced₁ u hu) hrow₁.spans (fun heq => hfresh (heq ▸ hu)) ?_
    exact fun hstatic => absurd hstatic hdynamic
  -- the stack lies in the dynamic window
  have hstart := congrArg BitVec.toNat (vmmAllocGuarded_start halloc)
  rw [BitVec.toNat_add, show pageSize.toNat = 4096 from rfl] at hstart
  have hheap : heapVbase.toNat + heapSize.toNat ≤ vmmDynamicVbase.toNat := by decide
  have hmmio : vmmMmioVbase.toNat < 2 ^ 64 := by decide
  rw [Nat.mod_eq_of_lt (by omega)] at hstart
  have hoffStack : ∀ x, x < heapVbase.toNat + heapSize.toNat → ¬InStack stack x := by
    intro x hx hstack
    unfold InStack at hstack
    omega
  have hthreadOff : ∀ u ∈ l, ∀ x, InThread u x → ¬InStack stack x := by
    intro u hu x hx
    refine hoffStack x ?_
    unfold InThread at hx
    rcases hplaced₁ u hu with hstatic | ⟨j, hj, hmem'⟩
    · obtain rfl := h.ring.oneStatic u hu _ h.bootstrap hstatic (.inl hboot)
      omega
    · have := used_end_le hmem'
      rw [hrow₁.spans] at this
      omega
  exact ⟨heap, vmm, stack, cs', ⟨hrow₁, hring₁, hplaced, hplaced₁, hdynamic, hfresh, hapart,
    by omega, hoffStack, hthreadOff, hbytes⟩, hk⟩

/-- **`thread_create` puts its thread into the ring**, behind the running one. -/
theorem ThreadsInv.create (h : ThreadsInv bootstrapThread s cs l)
    (hboot : bootstrapThread.toNat + 32 ≤ heapVbase.toNat) {entry arg r : Word} {k' : ThreadState}
    (hfits : StackFits s (.create entry arg r))
    (hcall : s.kernel.threadCreate trampoline entry arg = some (.ok (r, k'))) (hr : r ≠ 0) :
    ∃ cs', ThreadsInv bootstrapThread ⟨k', r :: s.live, s.threads ++ [r]⟩ cs'
      (s.kernel.current :: r :: l.tail) := by
  obtain ⟨heap, vmm, stack, cs', hnew, hk⟩ := h.create_new hboot hfits hcall hr
  obtain ⟨hrow₁, hring₁, hplaced, hplaced₁, hdynamic, hfresh, hapart, hend, hoffStack,
    hthreadOff, -⟩ := hnew
  set k₁ : ThreadState := { s.kernel with heap, vmm } with hk₁
  have hcurrent := h.current_mem
  obtain ⟨hcur, m', hheap', hagree, hlink, hlast⟩ := k₁.startThread_cases (t := r) entry arg
    hend (hapart _ hcurrent) (hthreadOff _ hcurrent)
  rw [← hk] at hcur hheap'
  have hm' : k'.mem = m' := congrArg Heap.mem hheap'
  subst hm'
  -- the stores reach the stack and two threads, never a header of the heap
  have hrow' : Represents ⟨k'.heap, r :: s.live⟩ cs' := by
    rw [hheap']
    refine hrow₁.congr (fun x hx => hagree x ?_)
    rintro (hin | hin | hin)
    · have := hx.lt
      rw [hrow₁.spans] at this
      exact hoffStack x this hin
    · exact hplaced.not_own hrow₁.spans hin hx
    · exact (hplaced₁ _ hcurrent).not_own hrow₁.spans hin hx
  refine ⟨cs', hrow', ⟨?_, fun u hu => ?_, fun u hu w hw => ?_⟩, ?_, ?_⟩
  · -- the links are those of an insertion behind the running thread
    rw [hcur]
    refine (hring₁.ring.insertAfter hfresh).congr (fun u hu => ?_)
    have hne : r ≠ s.kernel.current := fun heq => hfresh (heq ▸ hcurrent)
    rcases List.mem_cons.mp hu with rfl | hu
    · rw [insertAfter_self]
      exact hlink
    rcases List.mem_cons.mp hu with rfl | hu
    · rw [insertAfter_new _ hne]
      exact hlast
    have hul : u ∈ l := List.mem_of_mem_tail hu
    have hucur : u ≠ s.kernel.current := by
      rintro rfl
      obtain ⟨rest, rfl, -⟩ := hring₁.ring.exists_cons
      exact (List.nodup_cons.mp hring₁.ring.nodup).1 hu
    rw [insertAfter_other _ hucur (fun heq : u = r => hfresh (heq ▸ hul))]
    refine threadNext_congr (fun x hx => hagree x ?_)
    have hapartCurrent := h.apart hul hcurrent hucur
    have hapartNew := hapart u hul
    rintro (hin | hin | hin)
    · exact hthreadOff u hul x hx hin
    · unfold Apart InThread at *
      omega
    · unfold Apart at hapartCurrent
      have hin : InThread s.kernel.current x := hin
      unfold InThread at hx hin
      omega
  · refine hrow'.rowPlaced_iff.mp ?_
    rcases List.mem_cons.mp hu with rfl | hu
    · exact hplaced₁ _ hcurrent
    rcases List.mem_cons.mp hu with rfl | hu
    · exact hplaced
    · exact hplaced₁ u (List.mem_of_mem_tail hu)
  · -- the new thread is on the heap, so still at most one is static
    have hold : ∀ w ∈ s.kernel.current :: r :: l.tail, StaticThread w → w ∈ l := by
      intro w hw hstatic
      rcases List.mem_cons.mp hw with rfl | hw
      · exact hcurrent
      rcases List.mem_cons.mp hw with rfl | hw
      · exact absurd hstatic hdynamic
      · exact List.mem_of_mem_tail hw
    exact fun hu' hw' => h.ring.oneStatic u (hold u hu hu') w (hold w hw hw') hu' hw'
  · exact hring₁.ring.perm_insert.trans
      ((h.known.cons r).trans (List.perm_append_singleton ..).symm)
  · exact hring₁.ring.perm_insert.mem_iff.mpr (List.mem_cons_of_mem _ h.bootstrap)

/-- A `thread_create` that returns `NULL` changes nothing of this. -/
theorem ThreadsInv.create_null (h : ThreadsInv bootstrapThread s cs l) {entry arg : Word}
    {k' : ThreadState} (hcall : s.kernel.threadCreate trampoline entry arg = some (.ok (0, k'))) :
    ThreadsInv bootstrapThread { s with kernel := k' } cs l := by
  obtain ⟨hrow', hcurrent, -, hbytes⟩ := ThreadState.threadCreate_null h.row hcall
  exact ⟨hrow', h.ring.congr h.row hrow' hcurrent (fun t ht => hbytes t (h.rowPlaced ht))
    (fun _ _ ht => ht), h.known, h.bootstrap⟩

/-- `sched_init` makes the ring of the bootstrap thread alone. -/
theorem threadsInv_init (hboot : bootstrapThread.toNat + 32 ≤ heapVbase.toNat)
    (h : (threadSystem bootstrapThread trampoline).init s) :
    ∃ cs, ThreadsInv bootstrapThread s cs [bootstrapThread] := by
  obtain ⟨hthreads, k, hreach, -, hk⟩ := h
  obtain ⟨cs, hcs⟩ := represents_invariant _ hreach
  obtain ⟨kernel, live, threads⟩ := s
  dsimp only at hthreads hreach hk hcs
  subst hthreads hk
  have hoff : AgreeOff bootstrapThread.toNat (bootstrapThread.toNat + 32) k.mem
      (k.schedInit bootstrapThread).mem :=
    (setThreadId_agreeOff.mono (by omega) (by omega)).trans
      (setThreadNext_agreeOff.mono (by omega) (by omega))
  have hrow' : Represents ⟨(k.schedInit bootstrapThread).heap, live⟩ cs :=
    hcs.congr (fun x hx => hoff x (by have := hx.ge; omega))
  refine ⟨cs, hrow', ⟨.single threadNext_setThreadNext, fun t ht => ?_, fun t ht u hu _ _ => ?_⟩,
    .refl _, List.mem_singleton_self _⟩
  · rw [List.mem_singleton.mp ht]
    exact .inl (.inl hboot)
  · rw [List.mem_singleton.mp ht, List.mem_singleton.mp hu]

/-- **The ring lives in the heap.** In every run whose stacks stay in their window,
the heap is in order and the links from `current` form one ring through the
bootstrap thread and the threads created. -/
theorem threads_invariant (hboot : bootstrapThread.toNat + 32 ≤ heapVbase.toNat) :
    ((threadSystem bootstrapThread trampoline).restrict StackFits).Invariant
      (fun s => ∃ cs l, ThreadsInv bootstrapThread s cs l) := by
  refine System.Inductive.invariant ⟨fun s hinit => ?_, ?_⟩
  · have hinit : (threadSystem bootstrapThread trampoline).init s := hinit
    obtain ⟨cs, h⟩ := threadsInv_init hboot hinit
    exact ⟨cs, _, h⟩
  rintro s e s' ⟨cs, l, h⟩ ⟨hfits, hstep⟩
  cases e with
  | heap call =>
      obtain ⟨cs', h'⟩ := h.heap hstep.1 hstep.2.1 hstep.2.2.1 hstep.2.2.2
      exact ⟨cs', l, h'⟩
  | write x b =>
      obtain ⟨hheap, hx, rfl⟩ := hstep
      exact ⟨cs, l, h.write hboot b hheap hx⟩
  | yield sp =>
      obtain rfl : s' = { s with kernel := s.kernel.schedYield sp } := hstep
      exact ⟨cs, _, h.switch rfl⟩
  | tick sp =>
      obtain rfl : s' = { s with kernel := s.kernel.schedTick sp } := hstep
      obtain ⟨l', h'⟩ := h.tick sp
      exact ⟨cs, l', h'⟩
  | create entry arg result =>
      obtain ⟨hcall, hlive, hthreads⟩ := hstep
      obtain ⟨k', live', threads'⟩ := s'
      dsimp only at hcall hlive hthreads
      by_cases hr : result = 0
      · rw [if_pos hr] at hlive hthreads
        subst hr hlive hthreads
        exact ⟨cs, l, h.create_null hcall⟩
      · rw [if_neg hr] at hlive hthreads
        subst hlive hthreads
        obtain ⟨cs', h'⟩ := h.create hboot hfits hcall hr
        exact ⟨cs', _, h'⟩

end Steps

/-- A `thread_create` that returns `NULL` restores the block list and the ring. -/
theorem ThreadState.threadCreate_restores {k k' : ThreadState} {live : List Word} {cs : List Chunk}
    {trampoline entry arg : Word} (hrow : Represents ⟨k.heap, live⟩ cs)
    (hcall : k.threadCreate trampoline entry arg = some (.ok (0, k'))) :
    (∃ bs, SameBlocks k.heap k'.heap bs) ∧ ∀ l, ThreadRing k live l → SameRing k k' live l := by
  obtain ⟨hrow', hcurrent, hid, hbytes⟩ := threadCreate_null hrow hcall
  refine ⟨⟨_, hrow.sameBlocks hrow'⟩, fun l hring => ?_⟩
  have hthreads : ∀ t ∈ l, ∀ x, InThread t x → k'.mem x = k.mem x :=
    fun t ht => hbytes t (hrow.rowPlaced_iff.mpr (hring.placed t ht))
  exact ⟨hring.congr hrow hrow' hcurrent hthreads (fun _ _ ht => ht), hcurrent, hid, hthreads⟩

/-- In a run of the scheduler next to the heap, that is the ring of all threads. -/
theorem thread_create_null_restores {bootstrapThread trampoline : Word}
    (hboot : bootstrapThread.toNat + 32 ≤ heapVbase.toNat) {s : ThreadClient}
    (h : ((threadSystem bootstrapThread trampoline).restrict StackFits).Reachable s)
    {entry arg : Word} {k' : ThreadState}
    (hcall : s.kernel.threadCreate trampoline entry arg = some (.ok (0, k'))) :
    (∃ bs, SameBlocks s.kernel.heap k'.heap bs) ∧
    ∃ l, l.Perm s.threads ∧ SameRing s.kernel k' s.live l := by
  obtain ⟨cs, l, hinv⟩ := threads_invariant hboot s h
  obtain ⟨hblocks, hring⟩ := ThreadState.threadCreate_restores hinv.row hcall
  exact ⟨hblocks, l, hinv.known, hring l hinv.ring⟩

/-- **`kfree` undoes `kmalloc`.** In every reachable state of the heap, a `kfree`
of what a `kmalloc` has just returned leaves the block list there was before it:
the same headers with the same sizes, free flags and links. So a `thread_create`
that returns `NULL`, its stack not being allocated, leaves the block list and
the ready ring as they were. -/
theorem kfree_undoes_kmalloc {s : HeapClient} (h : heapSystem.Reachable s) :
    (∀ size p heap', kmalloc s.heap size = some (p, heap') → p ≠ 0 →
      ∃ bs, SameBlocks s.heap (kfree heap' p) bs) ∧
    ∀ (k k' : ThreadState) (trampoline entry arg : Word), k.heap = s.heap →
      k.threadCreate trampoline entry arg = some (.ok (0, k')) →
      (∃ bs, SameBlocks s.heap k'.heap bs) ∧
      ∀ l, ThreadRing k s.live l → SameRing k k' s.live l := by
  obtain ⟨cs, hcs⟩ := represents_invariant s h
  constructor
  · intro size p heap' hcall hp
    exact ⟨_, hcs.sameBlocks (hcs.malloc_free hcall hp)⟩
  · intro k k' trampoline entry arg hheap hcall
    obtain ⟨heap, live⟩ := s
    dsimp only at hheap
    subst hheap
    exact ThreadState.threadCreate_restores hcs hcall

/-- A fresh heap, the bootstrap thread alone in the ring, and no frame free. -/
def framelessKernel : ThreadState where
  heap := {
    mem := setNext (setPrev (setFree (setSize
      (setThreadNext (fun _ => 0) 0xffffffff80010000 0xffffffff80010000)
      heapVbase (heapSize - headerSize)) heapVbase true) heapVbase 0) heapVbase 0
    freeList := heapVbase }
  vmm := { emptyTables with pmm := { sevenFrames with mem := fun _ => 0xff, freeFrames := 0 } }
  current := 0xffffffff80010000
  nextThreadId := 1
  ticksSinceSwitch := 0

/-- Its first `thread_create` finds no stack. -/
theorem kfree_undoes_kmalloc_frameless : ∃ k' : ThreadState,
    framelessKernel.threadCreate 0 0 0 = some (.ok (0, k')) ∧
    (∃ bs, SameBlocks framelessKernel.heap k'.heap bs) ∧
    SameRing framelessKernel k' [] [0xffffffff80010000] := by
  have hinit : heapSystem.init ⟨framelessKernel.heap, []⟩ := ⟨rfl, emptyTables, _, _, rfl⟩
  obtain ⟨⟨t, heap⟩, hmalloc, rfl⟩ := Option.map_eq_some_iff.mp
    (by decide +kernel : (kmalloc framelessKernel.heap threadSize).map Prod.fst =
      some (heapVbase + headerSize))
  obtain ⟨vmm, halloc⟩ : ∃ vmm, vmmAllocGuarded framelessKernel.vmm threadStackPages vmmWritable =
    .ok (none, vmm) := ⟨_, rfl⟩
  have hcall : framelessKernel.threadCreate 0 0 0 =
      some (.ok (0, { framelessKernel with vmm, heap := kfree heap (heapVbase + headerSize) })) := by
    unfold ThreadState.threadCreate
    rw [hmalloc]
    dsimp only
    rw [if_neg (by decide), halloc]
  have hring : ThreadRing framelessKernel [] [0xffffffff80010000] := by
    refine ⟨.single (by decide +kernel), fun t ht => ?_, fun t ht u hu _ _ => ?_⟩
    · rw [List.mem_singleton.mp ht]
      exact .inl (.inl (by decide))
    · rw [List.mem_singleton.mp ht, List.mem_singleton.mp hu]
  obtain ⟨hblocks, hsame⟩ := (kfree_undoes_kmalloc (.init hinit)).2 framelessKernel _ 0 0 0 rfl hcall
  exact ⟨_, hcall, hblocks, hsame _ hring⟩

end QuinKernel
