import QuinKernel.Sched.Model
import QuinKernel.Machine.System

/-!
# The ready ring

`readySystem` runs the scheduler's calls one after the other, each of them
atomic. The label of a call that switches names the thread made current, so
`switchedTo` of a run is the sequence of threads it made current, and `added`
the threads it inserted.

`ReadyRing` is the invariant: the links from `current` form one ring through
the threads known so far. `ReadyRing.wait` is the bound on waiting: a thread
`d` links ahead is made current by switch number `d`, plus one for each thread
inserted in between.
-/

namespace QuinKernel

open Machine

variable {T : Type}

/-- The scheduler, and the threads it was given, the bootstrap thread first. -/
structure ReadyState (T : Type) where
  sched : Sched T
  threads : List T

/-- A call; where it switches, the thread made current. -/
inductive ReadyCall (T : Type)
  | add (thread : T)
  | yield (next : T)
  | tick (next : Option T)

/-- The thread a call inserts. -/
def ReadyCall.inserted : ReadyCall T → Option T
  | .add thread => some thread
  | .yield _ => none
  | .tick _ => none

/-- The thread a call makes current. -/
def ReadyCall.switched : ReadyCall T → Option T
  | .add _ => none
  | .yield next => some next
  | .tick next => next

/-- The threads a run inserts. -/
def added (es : List (ReadyCall T)) : List T := es.filterMap ReadyCall.inserted

/-- The threads a run makes current. -/
def switchedTo (es : List (ReadyCall T)) : List T := es.filterMap ReadyCall.switched

/-- The links from `current` form the ring `l` of the threads known. -/
structure ReadyRing (s : ReadyState T) (l : List T) : Prop where
  ring : LinkRing s.sched.next s.sched.current l
  known : l.Perm s.threads

/-- The ids given so far are `0` to one below `next_thread_id`. -/
structure ThreadIds (s : ReadyState T) : Prop where
  count : s.sched.nextThreadId.toNat = s.threads.length
  ids : s.threads.map s.sched.id = (List.range s.threads.length).map (BitVec.ofNat 64)

/-- The threads, their links and their ids are the same. -/
structure SameThreads (s s' : ReadyState T) : Prop where
  threads : s'.threads = s.threads
  next : s'.sched.next = s.sched.next
  id : s'.sched.id = s.sched.id
  nextThreadId : s'.sched.nextThreadId = s.sched.nextThreadId

section Links

variable {s s' : ReadyState T} {l : List T}

theorem ReadyRing.mem (h : ReadyRing s l) {t : T} : t ∈ l ↔ t ∈ s.threads :=
  h.known.mem_iff

/-- A switch turns the ring. -/
theorem ReadyRing.switch (h : ReadyRing s l) (hsame : SameThreads s s')
    (hcur : s'.sched.current = s.sched.next s.sched.current) : ReadyRing s' (l.rotate 1) := by
  constructor
  · rw [hsame.next, hcur]
    exact h.ring.advance
  · rw [hsame.threads]
    exact (List.rotate_perm l 1).trans h.known

theorem ReadyRing.stay (h : ReadyRing s l) (hsame : SameThreads s s')
    (hcur : s'.sched.current = s.sched.current) : ReadyRing s' l := by
  constructor
  · rw [hsame.next, hcur]
    exact h.ring
  · rw [hsame.threads]
    exact h.known

theorem ThreadIds.nodup (h : ThreadIds s) (hlt : s.threads.length < 2 ^ 64) :
    (s.threads.map s.sched.id).Nodup := by
  rw [h.ids]
  refine List.Nodup.map_on (fun i hi j hj hij => ?_) List.nodup_range
  have hi := List.mem_range.mp hi
  have hj := List.mem_range.mp hj
  have heq := congrArg BitVec.toNat hij
  rwa [BitVec.toNat_ofNat, BitVec.toNat_ofNat, Nat.mod_eq_of_lt (by omega),
    Nat.mod_eq_of_lt (by omega)] at heq

end Links

variable [DecidableEq T]

/-- One call. A thread is added once. -/
def ReadyState.Step (s : ReadyState T) (e : ReadyCall T) (s' : ReadyState T) : Prop :=
  match e with
  | .add thread =>
      thread ∉ s.threads ∧ s'.sched = schedAddThread s.sched thread ∧
        s'.threads = s.threads ++ [thread]
  | .yield next =>
      s'.sched = (schedYield s.sched).2 ∧ s'.threads = s.threads ∧ next = s'.sched.current
  | .tick next =>
      s'.sched = (schedTick s.sched).2 ∧ s'.threads = s.threads ∧
        next = if s.sched.countTick.SliceExpired then some s'.sched.current else none

/-- The scheduler after `sched_init`, with any client. -/
def readySystem (bootstrapThread : T) : System (ReadyState T) (ReadyCall T) where
  init s := s.threads = [bootstrapThread] ∧
    ∃ next id, s.sched = schedInit bootstrapThread (schedStatics bootstrapThread next id)
  step := ReadyState.Step

/-! ## What one call does -/

section Steps

variable {s s' : ReadyState T} {l : List T} {e : ReadyCall T}

/-- Every call inserts one thread, or advances `current` by one link, or does
neither. -/
theorem ReadyState.step_cases (h : s.Step e s') :
    (∃ thread, e = .add thread ∧ thread ∉ s.threads ∧
      s'.threads = s.threads ++ [thread] ∧ s'.sched = schedAddThread s.sched thread) ∨
    (e.inserted = none ∧ SameThreads s s' ∧
      ((e.switched = some s'.sched.current ∧
          s'.sched.current = s.sched.next s.sched.current) ∨
        (e.switched = none ∧ s'.sched.current = s.sched.current))) := by
  obtain ⟨sched', threads'⟩ := s'
  cases e with
  | add thread => exact .inl ⟨thread, rfl, h.1, h.2.2, h.2.1⟩
  | yield next =>
      obtain ⟨rfl, rfl, rfl⟩ := h
      exact .inr ⟨rfl, ⟨rfl, rfl, rfl, rfl⟩, .inl ⟨rfl, rfl⟩⟩
  | tick next =>
      obtain ⟨rfl, rfl, rfl⟩ := h
      refine .inr ⟨rfl, ?_⟩
      by_cases hexp : s.sched.countTick.SliceExpired
      · simp only [schedTick, if_pos hexp]
        exact ⟨⟨rfl, rfl, rfl, rfl⟩, .inl ⟨rfl, rfl⟩⟩
      · simp only [schedTick, if_neg hexp]
        exact ⟨⟨rfl, rfl, rfl, rfl⟩, .inr ⟨rfl, rfl⟩⟩

/-- A fresh thread is linked in behind the running one. -/
theorem ReadyRing.add {thread : T} (h : ReadyRing s l) (hfresh : thread ∉ s.threads)
    (hthreads : s'.threads = s.threads ++ [thread])
    (hsched : s'.sched = schedAddThread s.sched thread) :
    ReadyRing s' (s.sched.current :: thread :: l.tail) := by
  constructor
  · rw [hsched]
    exact h.ring.insertAfter (fun hmem => hfresh (h.mem.mp hmem))
  · rw [hthreads]
    exact h.ring.perm_insert.trans ((h.known.cons thread).trans (List.perm_append_singleton ..).symm)

/-- Every call keeps the ring. -/
theorem ReadyRing.step (h : ReadyRing s l) (hstep : s.Step e s') : ∃ l', ReadyRing s' l' := by
  rcases s.step_cases hstep with ⟨thread, -, hfresh, hthreads, hsched⟩ |
    ⟨-, hsame, ⟨-, hcur⟩ | ⟨-, hcur⟩⟩
  · exact ⟨_, h.add hfresh hthreads hsched⟩
  · exact ⟨_, h.switch hsame hcur⟩
  · exact ⟨_, h.stay hsame hcur⟩

theorem readyRing_init {bootstrapThread : T} (h : (readySystem bootstrapThread).init s) :
    ReadyRing s [bootstrapThread] := by
  obtain ⟨hthreads, next, id, hsched⟩ := h
  constructor
  · rw [hsched]
    exact .single (Function.update_self ..)
  · rw [hthreads]

/-- **The ring invariant.** -/
theorem readyRing_invariant (bootstrapThread : T) :
    (readySystem bootstrapThread).Invariant (fun s => ∃ l, ReadyRing s l) :=
  System.Inductive.invariant
    ⟨fun _ h => ⟨_, readyRing_init h⟩, fun _ _ _ ⟨_, h⟩ hstep => h.step hstep⟩

end Steps

/-! ## Ids -/

section Ids

variable {s s' : ReadyState T} {e : ReadyCall T} {es : List (ReadyCall T)}

/-- What a run adds is what it added to the threads known. -/
theorem threads_of_run {bootstrapThread : T}
    (hrun : (readySystem bootstrapThread).Run s es s') : s'.threads = s.threads ++ added es := by
  induction hrun with
  | nil => simp [added]
  | @cons s s₁ s' e es hstep _ ih =>
      rw [ih]
      rcases s.step_cases hstep with ⟨thread, rfl, -, hthreads, -⟩ | ⟨hins, hsame, -⟩
      · rw [hthreads, List.append_assoc]
        rfl
      · rw [hsame.threads, added, added, List.filterMap_cons_none hins]

theorem threadIds_init {bootstrapThread : T} (h : (readySystem bootstrapThread).init s) :
    ThreadIds s := by
  obtain ⟨hthreads, next, id, hsched⟩ := h
  constructor
  · rw [hsched, hthreads]
    rfl
  · rw [hsched, hthreads]
    simp [schedInit, schedStatics]

/-- Ids are handed out in order, as long as the counter does not wrap. -/
theorem ThreadIds.step (h : ThreadIds s) (hlt : s'.threads.length < 2 ^ 64)
    (hstep : s.Step e s') : ThreadIds s' := by
  rcases s.step_cases hstep with ⟨thread, -, hfresh, hthreads, hsched⟩ | ⟨-, hsame, -⟩
  · rw [hthreads, List.length_append, List.length_singleton] at hlt
    have hcount := h.count
    have hlast : s.sched.nextThreadId = BitVec.ofNat 64 s.threads.length := by
      rw [← hcount, BitVec.ofNat_toNat, BitVec.setWidth_eq]
    have hold : s.threads.map (schedAddThread s.sched thread).id = s.threads.map s.sched.id := by
      refine List.map_congr_left (fun t ht => ?_)
      exact Function.update_of_ne (fun heq : t = thread => hfresh (heq ▸ ht)) ..
    constructor
    · rw [hsched, hthreads, List.length_append, List.length_singleton]
      change (s.sched.nextThreadId + 1).toNat = _
      rw [BitVec.toNat_add, hcount]
      exact Nat.mod_eq_of_lt hlt
    · rw [hsched, hthreads, List.map_append, hold, h.ids, List.length_append,
        List.length_singleton, List.range_succ, List.map_append, List.map_singleton,
        List.map_singleton, ← hlast]
      congr 2
      exact Function.update_self ..
  · constructor
    · rw [hsame.nextThreadId, hsame.threads]
      exact h.count
    · rw [hsame.id, hsame.threads]
      exact h.ids

theorem threadIds_of_run {bootstrapThread : T} (h : ThreadIds s)
    (hrun : (readySystem bootstrapThread).Run s es s') (hlt : s'.threads.length < 2 ^ 64) :
    ThreadIds s' := by
  induction hrun with
  | nil => exact h
  | @cons s s₁ s' e es hstep hrest ih =>
      refine ih (h.step ?_ hstep) hlt
      have hlen := congrArg List.length (threads_of_run hrest)
      rw [List.length_append] at hlen
      omega

end Ids

/-! ## Waiting -/

section Waiting

variable {bootstrapThread : T} {s s' : ReadyState T} {l : List T} {es : List (ReadyCall T)}

/-- **Bounded waiting.** A thread `d` links ahead becomes current no later than
at switch number `d` plus the number of threads inserted before that. -/
theorem ReadyRing.wait (h : ReadyRing s l) (hrun : (readySystem bootstrapThread).Run s es s')
    {d : Nat} {t : T} (hd : 1 ≤ d) (hdl : d ≤ l.length)
    (ht : s.sched.next^[d] s.sched.current = t)
    (hlong : d + (added es).length ≤ (switchedTo es).length) :
    ∃ es₁ e es₂, es = es₁ ++ e :: es₂ ∧ e.switched = some t ∧
      (switchedTo es₁).length + 1 ≤ d + (added es₁).length := by
  induction hrun generalizing l d with
  | nil =>
      simp only [switchedTo, List.filterMap_nil, List.length_nil] at hlong
      omega
  | @cons s s₁ s' e es hstep hrest ih =>
      rcases s.step_cases hstep with ⟨thread, rfl, hfresh, hthreads, hsched⟩ |
        ⟨hins, hsame, ⟨hsw, hcur⟩ | ⟨hsw, hcur⟩⟩
      · -- an insertion moves the thread one link away
        have hring := h.add hfresh hthreads hsched
        have hpos := h.ring.length_pos
        have hfar : s₁.sched.next^[d + 1] s₁.sched.current = t := by
          rw [hsched, ← ht]
          exact h.ring.insertAfter_iterate (fun hmem => hfresh (h.mem.mp hmem)) hd hdl
        have hlen : d + 1 ≤ (s.sched.current :: thread :: l.tail).length := by
          rw [List.length_cons, List.length_cons, List.length_tail]
          omega
        have hadded : (added (.add thread :: es)).length = (added es).length + 1 := rfl
        have hsw : switchedTo (.add thread :: es) = switchedTo es := rfl
        obtain ⟨es₁, e', es₂, rfl, he', hbound⟩ :=
          ih hring (by omega) hlen hfar (by rw [hsw] at hlong; omega)
        refine ⟨.add thread :: es₁, e', es₂, rfl, he', ?_⟩
        change (switchedTo es₁).length + 1 ≤ d + ((added es₁).length + 1)
        omega
      · -- a switch brings it one link closer, or to it
        have hadded : ∀ fs, added (e :: fs) = added fs :=
          fun fs => List.filterMap_cons_none hins
        have hswitched : ∀ fs, switchedTo (e :: fs) = s₁.sched.current :: switchedTo fs :=
          fun fs => List.filterMap_cons_some hsw
        rw [hadded, hswitched, List.length_cons] at hlong
        obtain ⟨k, rfl⟩ : ∃ k, d = k + 1 := ⟨d - 1, by omega⟩
        rcases Nat.eq_zero_or_pos k with rfl | hk
        · refine ⟨[], e, es, rfl, ?_, by simp [switchedTo]⟩
          rw [hsw, hcur, ← ht]
          rfl
        · have hnear : s₁.sched.next^[k] s₁.sched.current = t := by
            rw [hsame.next, hcur, ← ht]
            rfl
          obtain ⟨es₁, e', es₂, rfl, he', hbound⟩ :=
            ih (h.switch hsame hcur) hk (by rw [List.length_rotate]; omega) hnear (by omega)
          refine ⟨e :: es₁, e', es₂, rfl, he', ?_⟩
          rw [hadded, hswitched, List.length_cons]
          omega
      · -- a tick inside the slice
        have hadded : ∀ fs, added (e :: fs) = added fs :=
          fun fs => List.filterMap_cons_none hins
        have hswitched : ∀ fs, switchedTo (e :: fs) = switchedTo fs :=
          fun fs => List.filterMap_cons_none hsw
        rw [hadded, hswitched] at hlong
        obtain ⟨es₁, e', es₂, rfl, he', hbound⟩ :=
          ih (h.stay hsame hcur) hd hdl (by rw [hsame.next, hcur, ht]) hlong
        exact ⟨e :: es₁, e', es₂, rfl, he', by rwa [hadded, hswitched]⟩

/-- Without insertions the threads made current are those met through `next`. -/
theorem switchedTo_eq_iterate (hrun : (readySystem bootstrapThread).Run s es s')
    (hadd : added es = []) :
    switchedTo es =
      List.iterate s.sched.next (s.sched.next s.sched.current) (switchedTo es).length := by
  induction hrun with
  | nil => rfl
  | @cons s s₁ s' e es hstep hrest ih =>
      rcases s.step_cases hstep with ⟨thread, rfl, -⟩ | ⟨hins, hsame, ⟨hsw, hcur⟩ | ⟨hsw, hcur⟩⟩
      · cases hadd
      · rw [added, List.filterMap_cons_none hins] at hadd
        have hrest := ih hadd
        rw [hsame.next, hcur] at hrest
        rw [switchedTo, List.filterMap_cons_some hsw, hcur, List.length_cons, List.iterate]
        exact congrArg _ hrest
      · rw [added, List.filterMap_cons_none hins] at hadd
        rw [switchedTo, List.filterMap_cons_none hsw]
        have hrest := ih hadd
        rwa [hsame.next, hcur] at hrest

/-- A full round makes each thread current once. -/
theorem ReadyRing.round (h : ReadyRing s l) (hrun : (readySystem bootstrapThread).Run s es s')
    (hadd : added es = []) (hlen : (switchedTo es).length = s.threads.length) :
    (switchedTo es).Perm s.threads := by
  have hturn := h.ring.advance.nodes
  rw [List.length_rotate, h.known.length_eq, ← hlen, ← switchedTo_eq_iterate hrun hadd] at hturn
  rw [hturn]
  exact (List.rotate_perm l 1).trans h.known

end Waiting

/-- **The ready ring.** After any run with fewer than `2^64 - 1` insertions the
links from `current` visit the bootstrap thread and every inserted thread once
and return, and all ids differ; from there on, a thread `d` links ahead is
current by switch number `d + a`, `a` threads having been inserted before it,
and as many switches as there are threads make each current once. -/
theorem sched_round_robin {bootstrapThread : T} {s₀ s : ReadyState T} {es : List (ReadyCall T)}
    (hinit : (readySystem bootstrapThread).init s₀)
    (hrun : (readySystem bootstrapThread).Run s₀ es s)
    (hadds : (added es).length < 2 ^ 64 - 1) :
    s.threads = bootstrapThread :: added es ∧ s.threads.Nodup ∧
    (List.iterate s.sched.next s.sched.current s.threads.length).Perm s.threads ∧
    s.sched.next^[s.threads.length] s.sched.current = s.sched.current ∧
    (s.threads.map s.sched.id).Nodup ∧
    ∀ es' s', (readySystem bootstrapThread).Run s es' s' →
      (∀ d t, 1 ≤ d → d ≤ s.threads.length → s.sched.next^[d] s.sched.current = t →
        d + (added es').length ≤ (switchedTo es').length →
        ∃ es₁ e es₂, es' = es₁ ++ e :: es₂ ∧ e.switched = some t ∧
          (switchedTo es₁).length + 1 ≤ d + (added es₁).length) ∧
      (added es' = [] → (switchedTo es').length = s.threads.length →
        (switchedTo es').Perm s.threads) := by
  obtain ⟨l, h⟩ := readyRing_invariant bootstrapThread s (hrun.reachable (.init hinit))
  have hthreads := threads_of_run hrun
  rw [hinit.1] at hthreads
  have hlt : s.threads.length < 2 ^ 64 := by
    rw [hthreads]
    simp only [List.singleton_append, List.length_cons]
    omega
  have hids := threadIds_of_run (threadIds_init hinit) hrun hlt
  have hlen := h.known.length_eq
  refine ⟨hthreads, h.known.nodup_iff.mp h.ring.nodup, ?_, ?_, hids.nodup hlt,
    fun es' s' hrun' => ⟨fun d t hd hdl ht hlong => ?_, fun hadd hround => h.round hrun' hadd hround⟩⟩
  · rw [← hlen, h.ring.nodes]
    exact h.known
  · rw [← hlen]
    exact h.ring.closed
  · exact h.wait hrun' hd (by omega) ht hlong

/-- Two threads are inserted, the second behind the first, which runs by then. -/
theorem sched_round_robin_twoThreads : ∃ s₀ s : ReadyState Nat, (readySystem 0).init s₀ ∧
    (readySystem 0).Run s₀ [.add 7, .yield 7, .add 8, .tick none, .yield 8] s ∧
    s.threads = [0, 7, 8] ∧ s.sched.current = 8 ∧ (s.threads.map s.sched.id).Nodup ∧
    (List.iterate s.sched.next 8 3).Perm [0, 7, 8] := by
  let s₀ : ReadyState Nat := ⟨schedInit 0 (schedStatics 0 (fun _ => 3) (fun _ => 9)), [0]⟩
  let s₁ : ReadyState Nat := ⟨schedAddThread s₀.sched 7, [0, 7]⟩
  let s₂ : ReadyState Nat := ⟨(schedYield s₁.sched).2, [0, 7]⟩
  let s₃ : ReadyState Nat := ⟨schedAddThread s₂.sched 8, [0, 7, 8]⟩
  let s₄ : ReadyState Nat := ⟨(schedTick s₃.sched).2, [0, 7, 8]⟩
  let s₅ : ReadyState Nat := ⟨(schedYield s₄.sched).2, [0, 7, 8]⟩
  have hinit : (readySystem 0).init s₀ := ⟨rfl, _, _, rfl⟩
  have hfirst : (readySystem 0).Run s₀ [.add 7] s₁ := .single ⟨by decide, rfl, rfl⟩
  have hyield : (readySystem 0).Run s₁ [.yield 7] s₂ := .single ⟨rfl, rfl, rfl⟩
  have hsecond : (readySystem 0).Run s₂ [.add 8] s₃ := .single ⟨by decide, rfl, rfl⟩
  have htick : (readySystem 0).Run s₃ [.tick none] s₄ := .single ⟨rfl, rfl, rfl⟩
  have hlast : (readySystem 0).Run s₄ [.yield 8] s₅ := .single ⟨rfl, rfl, rfl⟩
  have hrun := (((hfirst.append hyield).append hsecond).append htick).append hlast
  have h := sched_round_robin hinit hrun (by decide)
  exact ⟨s₀, s₅, hinit, hrun, rfl, rfl, h.2.2.2.2.1, h.2.2.1⟩

end QuinKernel
