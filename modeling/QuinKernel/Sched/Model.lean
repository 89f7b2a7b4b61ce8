import QuinKernel.Machine.Ring

/-!
# The scheduler (`sched.c`)

Threads are pointers of an arbitrary type `T`; `next` and `id` are the fields
of `struct thread` the scheduler reads and writes, as memory over all of them.
The functions here are the scheduler's statements between taking `ready_lock`
and the call of `context_switch`, which they return as the pair of threads it
is called for.
-/

namespace QuinKernel

open Machine

variable {T : Type} [DecidableEq T]

/-- `SCHED_TIME_SLICE_TICKS`. -/
def schedTimeSliceTicks : BitVec 64 := 10

/-- The links and ids of the threads, and the statics of `sched.c`. -/
structure Sched (T : Type) where
  next : T → T
  id : T → BitVec 64
  current : T
  nextThreadId : BitVec 64
  ticksSinceSwitch : BitVec 64

/-- The statics as they are initialised, over whatever the fields hold. -/
def schedStatics (bootstrapThread : T) (next : T → T) (id : T → BitVec 64) : Sched T where
  next := next
  id := id
  current := bootstrapThread
  nextThreadId := 1
  ticksSinceSwitch := 0

/-- `sched_init`. -/
def schedInit (bootstrapThread : T) (s : Sched T) : Sched T :=
  { s with
    id := Function.update s.id bootstrapThread 0
    next := Function.update s.next bootstrapThread bootstrapThread
    current := bootstrapThread }

/-- `sched_add_thread`, between acquiring and releasing the lock. -/
def schedAddThread (s : Sched T) (thread : T) : Sched T :=
  let s := { s with
    id := Function.update s.id thread s.nextThreadId
    nextThreadId := s.nextThreadId + 1 }
  let s := { s with next := Function.update s.next thread (s.next s.current) }
  { s with next := Function.update s.next s.current thread }

/-- `current = next`. -/
def Sched.advance (s : Sched T) : Sched T := { s with current := s.next s.current }

/-- `ticks_since_switch = 0`. -/
def Sched.resetTicks (s : Sched T) : Sched T := { s with ticksSinceSwitch := 0 }

/-- `++ticks_since_switch`. -/
def Sched.countTick (s : Sched T) : Sched T :=
  { s with ticksSinceSwitch := s.ticksSinceSwitch + 1 }

/-- `switch_to_next`, and the threads it calls `context_switch` for. -/
def switchToNext (s : Sched T) : Option (T × T) × Sched T :=
  let prev := s.current
  let next := s.next s.current
  let s := s.advance
  let s := s.resetTicks
  (if next ≠ prev then some (prev, next) else none, s)

/-- The test of `sched_tick`, after the increment. -/
abbrev Sched.SliceExpired (s : Sched T) : Prop := schedTimeSliceTicks ≤ s.ticksSinceSwitch

/-- `sched_tick`. -/
def schedTick (s : Sched T) : Option (T × T) × Sched T :=
  let s := s.countTick
  if s.SliceExpired then switchToNext s else (none, s)

/-- `sched_yield`. -/
def schedYield (s : Sched T) : Option (T × T) × Sched T := switchToNext s

end QuinKernel
