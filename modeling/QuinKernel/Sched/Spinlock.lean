import QuinKernel.Machine.System
import QuinKernel.Machine.X86

/-!
# The spinlocks on any number of CPUs

`spinlockSystem` interleaves the instructions of the four spinlock routines on
the CPUs `C`, with memory sequentially consistent. Each CPU runs one activation
(`Code`) over those its interrupts stopped; an interrupt is taken before any
instruction while `IF` is set. Between the calls an activation runs code of its
own, which may do anything to `RFLAGS` except, inside an irqsave section, to
`IF`.

An activation may release any lock it holds by either routine, and give
`spinlock_release_irqrestore` any flags; a handler releases what it holds before
it returns. `HeldBy` is the abstract view: an
`owner` for each lock that is taken. The exchange that returns 0 sets it, the
store clears it, and every other step leaves it (`HeldBy.step`), so no two
CPUs hold one lock (`mutuallyExclusive`).
-/

namespace QuinKernel

open Machine

/-- `IF` of a value of `RFLAGS`. -/
def interruptFlag (rflags : Word) : Bool := rflags.getLsbD 9

theorem interruptFlag_cli (rflags : Word) : interruptFlag (rflags &&& ~~~flagIf) = false := by
  have hbit : flagIf.getLsbD 9 = true := by decide
  simp [interruptFlag, hbit]

/-- What `spinlock_acquire_irqsave` returns, and the `IF` it was called with,
which only proofs read. -/
structure SavedFlags where
  flags : Word
  before : Bool
  deriving DecidableEq

/-- A lock that is held, with the flags if it was taken by the irqsave routine. -/
structure Section (L : Type) where
  lock : L
  saved : Option SavedFlags
  deriving DecidableEq

/-- The instruction an activation is at. -/
inductive SpinPc (L : Type)
  /-- Outside the spinlock routines. -/
  | rest
  | pushfq (lock : L) (before : Bool)
  | pop (lock : L) (saved : SavedFlags)
  | cli (lock : L) (saved : SavedFlags)
  | exchange (lock : L) (saved : Option SavedFlags)
  /-- The inner loop of `spinlock_acquire`. -/
  | read (lock : L) (saved : Option SavedFlags)
  | store (held : Section L) (flags : Option Word)
  | push (held : Section L) (flags : Word)
  | popfq (held : Section L) (flags : Word)
  deriving DecidableEq

/-- An activation: where it is, and the locks it holds, the last taken first. -/
structure Code (L : Type) where
  pc : SpinPc L
  held : List (Section L)

/-- A CPU. An activation that was interrupted has its `RFLAGS` on the stack. -/
structure Core (L : Type) where
  rflags : Word
  running : Code L
  interrupted : List (Code L × Word)

/-- The CPUs and the `locked` words they share. -/
structure Smp (C L : Type) where
  locked : L → BitVec 32
  core : C → Core L

/-- A call of one of the spinlock routines. -/
inductive Routine (L : Type)
  | acquire (lock : L)
  | release (lock : L)
  | acquireIrqsave (lock : L)
  | releaseIrqrestore (lock : L) (flags : Word)
  deriving DecidableEq

/-- What a CPU does next. -/
inductive SpinAct (L : Type)
  | call (routine : Routine L)
  /-- The next instruction of a spinlock routine. -/
  | exec
  /-- Other instructions, which leave `RFLAGS` at `rflags`. -/
  | other (rflags : Word)
  | interrupt
  | iretq
  deriving DecidableEq

/-- `SPINLOCK_INIT`. -/
def spinlockInit : BitVec 32 := 0

namespace Code

variable {L : Type}

def locks (c : Code L) : List L := c.held.map Section.lock

/-- The irqsave section that is being entered, past its `cli`, or left. -/
def pending (c : Code L) : Option SavedFlags :=
  match c.pc with
  | .exchange _ saved | .read _ saved => saved
  | .push held _ | .popfq held _ => held.saved
  | .rest | .pushfq _ _ | .pop _ _ | .cli _ _ | .store _ _ => none

/-- The irqsave sections from `cli` to `popfq`, the innermost first. -/
def saved (c : Code L) : List SavedFlags := c.pending.toList ++ c.held.filterMap Section.saved

/-- In the loop of `spinlock_acquire`. -/
def SpinsOn (c : Code L) (l : L) : Prop :=
  ∃ saved, c.pc = .exchange l saved ∨ c.pc = .read l saved

end Code

namespace Core

variable {L : Type}

/-- The activations, the running one first. -/
def codes (k : Core L) : List (Code L) := k.running :: k.interrupted.map Prod.fst

/-- The locks the CPU is between acquiring and releasing. -/
def locks (k : Core L) : List L := k.codes.flatMap Code.locks

/-- The running activation goes on at `pc`. -/
def goto (k : Core L) (pc : SpinPc L) : Core L := { k with running := { k.running with pc } }

/-- The running activation has taken a lock. -/
def take (k : Core L) (sec : Section L) : Core L :=
  { k with running := ⟨.rest, sec :: k.running.held⟩ }

variable [DecidableEq L]

/-- The running activation no longer holds a lock and goes on at `pc`. -/
def drop (k : Core L) (sec : Section L) (pc : SpinPc L) : Core L :=
  { k with running := ⟨pc, k.running.held.erase sec⟩ }

/-- The entry of a spinlock routine; only a lock that is held can be released. -/
def call (k : Core L) : Routine L → Option (Core L)
  | .acquire l => some (k.goto (.exchange l none))
  | .release l =>
      (k.running.held.find? (·.lock = l)).map (fun sec => k.goto (.store sec none))
  | .acquireIrqsave l => some (k.goto (.pushfq l (interruptFlag k.rflags)))
  | .releaseIrqrestore l flags =>
      (k.running.held.find? (·.lock = l)).map (fun sec => k.goto (.store sec (some flags)))

/-- The next instruction of the routine the running activation is in. -/
def exec (locked : L → BitVec 32) (k : Core L) : Option ((L → BitVec 32) × Core L) :=
  match k.running.pc with
  | .rest => none
  | .pushfq l before => some (locked, k.goto (.pop l ⟨k.rflags, before⟩))
  | .pop l saved => some (locked, k.goto (.cli l saved))
  | .cli l saved =>
      some (locked, { k.goto (.exchange l (some saved)) with rflags := k.rflags &&& ~~~flagIf })
  | .exchange l saved =>
      some (Function.update locked l 1,
        if locked l ≠ 0 then k.goto (.read l saved) else k.take ⟨l, saved⟩)
  | .read l saved =>
      some (locked, if locked l ≠ 0 then k else k.goto (.exchange l saved))
  | .store sec flags =>
      some (Function.update locked sec.lock 0,
        k.drop sec (match flags with
          | none => .rest
          | some flags => .push sec flags))
  | .push sec flags => some (locked, k.goto (.popfq sec flags))
  | .popfq _ flags => some (locked, { k.goto .rest with rflags := flags })

/-- One step of a CPU. -/
def after (locked : L → BitVec 32) (k : Core L) : SpinAct L → Option ((L → BitVec 32) × Core L)
  | .call routine =>
      if k.running.pc = .rest then (k.call routine).map (fun k' => (locked, k')) else none
  | .exec => k.exec locked
  | .other rflags =>
      if k.running.pc = .rest ∧
          (k.running.saved = [] ∨ interruptFlag rflags = interruptFlag k.rflags) then
        some (locked, { k with rflags })
      else none
  | .interrupt =>
      if interruptFlag k.rflags then
        some (locked, ⟨k.rflags &&& ~~~gateFlags, ⟨.rest, []⟩,
          (k.running, k.rflags) :: k.interrupted⟩)
      else none
  | .iretq =>
      match k.interrupted with
      | [] => none
      | (c, rflags) :: below =>
          if k.running.pc = .rest ∧ k.running.held = [] then some (locked, ⟨rflags, c, below⟩)
          else none

end Core

section System

variable {C L : Type} [DecidableEq C] [DecidableEq L]

/-- One step of CPU `e.1`. -/
def Smp.after (s : Smp C L) (e : C × SpinAct L) : Option (Smp C L) :=
  ((s.core e.1).after s.locked e.2).map
    (fun r => ⟨r.1, Function.update s.core e.1 r.2⟩)

variable (C L) in
/-- Any number of CPUs that use spinlocks, each starting outside every routine. -/
def spinlockSystem : System (Smp C L) (C × SpinAct L) where
  init s := (∀ l, s.locked l = spinlockInit) ∧
    ∀ p, (s.core p).running = ⟨.rest, []⟩ ∧ (s.core p).interrupted = []
  step s e s' := s.after e = some s'

end System

/-! ## What one step does -/

/-- The next instruction, by where the running activation is. -/
inductive Core.Executed {L : Type} [DecidableEq L] (locked : L → BitVec 32) (k : Core L) :
    (L → BitVec 32) → Core L → Prop
  | pushfq {l : L} {before : Bool} (pc : k.running.pc = .pushfq l before) :
      Executed locked k locked (k.goto (.pop l ⟨k.rflags, before⟩))
  | pop {l : L} {saved : SavedFlags} (pc : k.running.pc = .pop l saved) :
      Executed locked k locked (k.goto (.cli l saved))
  | cli {l : L} {saved : SavedFlags} (pc : k.running.pc = .cli l saved) :
      Executed locked k locked
        { k.goto (.exchange l (some saved)) with rflags := k.rflags &&& ~~~flagIf }
  | taken {l : L} {saved : Option SavedFlags} (pc : k.running.pc = .exchange l saved)
      (free : locked l = 0) : Executed locked k (Function.update locked l 1) (k.take ⟨l, saved⟩)
  | contended {l : L} {saved : Option SavedFlags} (pc : k.running.pc = .exchange l saved)
      (held : locked l ≠ 0) :
      Executed locked k (Function.update locked l 1) (k.goto (.read l saved))
  | spin {l : L} {saved : Option SavedFlags} (pc : k.running.pc = .read l saved) :
      Executed locked k locked k
  | retry {l : L} {saved : Option SavedFlags} (pc : k.running.pc = .read l saved) :
      Executed locked k locked (k.goto (.exchange l saved))
  | store {sec : Section L} (pc : k.running.pc = .store sec none) :
      Executed locked k (Function.update locked sec.lock 0) (k.drop sec .rest)
  | storeIrq {sec : Section L} {flags : Word} (pc : k.running.pc = .store sec (some flags)) :
      Executed locked k (Function.update locked sec.lock 0) (k.drop sec (.push sec flags))
  | push {sec : Section L} {flags : Word} (pc : k.running.pc = .push sec flags) :
      Executed locked k locked (k.goto (.popfq sec flags))
  | popfq {sec : Section L} {flags : Word} (pc : k.running.pc = .popfq sec flags) :
      Executed locked k locked { k.goto .rest with rflags := flags }

/-- The steps of a CPU. -/
inductive Core.Moved {L : Type} [DecidableEq L] (locked : L → BitVec 32) (k : Core L) :
    SpinAct L → (L → BitVec 32) → Core L → Prop
  | call {r : Routine L} {k' : Core L} (rest : k.running.pc = .rest) (enter : k.call r = some k') :
      Moved locked k (.call r) locked k'
  | exec {locked' : L → BitVec 32} {k' : Core L} (executed : k.Executed locked locked' k') :
      Moved locked k .exec locked' k'
  | other {rflags : Word} (rest : k.running.pc = .rest)
      (keeps : k.running.saved = [] ∨ interruptFlag rflags = interruptFlag k.rflags) :
      Moved locked k (.other rflags) locked { k with rflags }
  | interrupt (enabled : interruptFlag k.rflags = true) :
      Moved locked k .interrupt locked ⟨k.rflags &&& ~~~gateFlags, ⟨.rest, []⟩,
        (k.running, k.rflags) :: k.interrupted⟩
  | iretq {c : Code L} {rflags : Word} {below : List (Code L × Word)}
      (frames : k.interrupted = (c, rflags) :: below) (rest : k.running.pc = .rest)
      (released : k.running.held = []) : Moved locked k .iretq locked ⟨rflags, c, below⟩

section Inversion

variable {L : Type} [DecidableEq L] {locked locked' : L → BitVec 32} {k k' : Core L}

theorem Core.executed_of_exec (h : k.exec locked = some (locked', k')) :
    k.Executed locked locked' k' := by
  unfold Core.exec at h
  split at h
  · cases h
  · next pc =>
      cases h
      exact .pushfq pc
  · next pc =>
      cases h
      exact .pop pc
  · next pc =>
      cases h
      exact .cli pc
  · next pc =>
      cases h
      split
      · next held => exact .contended pc held
      · next free => exact .taken pc (not_not.mp free)
  · next pc =>
      cases h
      split
      · exact .spin pc
      · exact .retry pc
  · next flags pc =>
      cases h
      cases flags with
      | none => exact .store pc
      | some flags => exact .storeIrq pc
  · next pc =>
      cases h
      exact .push pc
  · next pc =>
      cases h
      exact .popfq pc

theorem Core.moved_of_after {a : SpinAct L} (h : k.after locked a = some (locked', k')) :
    k.Moved locked a locked' k' := by
  cases a with
  | call r =>
      obtain ⟨rest, h⟩ := Option.ite_none_right_eq_some.mp h
      obtain ⟨k₁, enter, hk₁⟩ := Option.map_eq_some_iff.mp h
      cases hk₁
      exact .call rest enter
  | exec => exact .exec (Core.executed_of_exec h)
  | other rflags =>
      obtain ⟨⟨rest, keeps⟩, h⟩ := Option.ite_none_right_eq_some.mp h
      cases h
      exact .other rest keeps
  | interrupt =>
      obtain ⟨enabled, h⟩ := Option.ite_none_right_eq_some.mp h
      cases h
      exact .interrupt enabled
  | iretq =>
      unfold Core.after at h
      dsimp only at h
      split at h
      · cases h
      · next frames =>
          obtain ⟨⟨rest, released⟩, h⟩ := Option.ite_none_right_eq_some.mp h
          cases h
          exact .iretq frames rest released

end Inversion

/-! ## Locks and their owners -/

/-- The abstract lock table: CPU `p` leaves it alone, takes a lock that has no
owner, or gives up one it owns. -/
inductive MutexStep {C L : Type} [DecidableEq L] (p : C) (owner : L → Option C) :
    (L → Option C) → Prop
  | idle : MutexStep p owner owner
  | take (l : L) : owner l = none → MutexStep p owner (Function.update owner l (some p))
  | drop (l : L) : owner l = some p → MutexStep p owner (Function.update owner l none)

/-- Every store is of a lock the activation holds. -/
def Core.Storing {L : Type} (k : Core L) : Prop :=
  ∀ c ∈ k.codes, ∀ sec flags, c.pc = .store sec flags → sec ∈ c.held

/-- Each lock is held by its owner, and its word says whether it has one. -/
structure HeldBy {C L : Type} (owner : L → Option C) (s : Smp C L) : Prop where
  holds : ∀ p l, l ∈ (s.core p).locks ↔ owner l = some p
  word : ∀ l, s.locked l = 0 ↔ owner l = none
  nodup : ∀ p, (s.core p).locks.Nodup
  storing : ∀ p, (s.core p).Storing

/-- What a step of one CPU does to the locks. -/
inductive LockEffect {L : Type} [DecidableEq L] (locked : L → BitVec 32) (k : Core L)
    (locked' : L → BitVec 32) (k' : Core L) : Prop
  | none : k'.locks = k.locks → (∀ l, locked' l = 0 ↔ locked l = 0) →
      LockEffect locked k locked' k'
  | take (l : L) : locked l = 0 → locked' = Function.update locked l 1 →
      k'.locks = l :: k.locks → LockEffect locked k locked' k'
  | drop (l : L) : locked' = Function.update locked l 0 → k.locks.Perm (l :: k'.locks) →
      LockEffect locked k locked' k'

section CoreSteps

variable {L : Type} {locked locked' : L → BitVec 32} {k k' : Core L} {sec : Section L}

theorem Core.Storing.goto (h : k.Storing) {pc : SpinPc L}
    (hpc : ∀ sec flags, pc = .store sec flags → sec ∈ k.running.held) : (k.goto pc).Storing := by
  intro c hc
  rcases List.mem_cons.mp hc with rfl | hc
  · exact hpc
  · exact h c (List.mem_cons_of_mem _ hc)

/-- A step that leaves the activations below alone. -/
theorem Core.Storing.running (h : k.Storing) {c : Code L} {rflags : Word}
    (hpc : ∀ sec flags, c.pc ≠ .store sec flags) :
    (⟨rflags, c, k.interrupted⟩ : Core L).Storing := by
  intro c' hc'
  rcases List.mem_cons.mp hc' with rfl | hc'
  · exact fun sec flags hstore => absurd hstore (hpc sec flags)
  · exact h c' (List.mem_cons_of_mem _ hc')

variable [DecidableEq L]

theorem locks_drop (hheld : sec ∈ k.running.held) (pc : SpinPc L) :
    k.locks.Perm (sec.lock :: (k.drop sec pc).locks) := by
  show (k.running.held.map Section.lock ++ _).Perm
    (sec.lock :: ((k.running.held.erase sec).map Section.lock ++ _))
  exact ((List.perm_cons_erase hheld).map Section.lock).append_right _

theorem Core.call_spec {r : Routine L} (hcall : k.call r = some k') :
    ∃ pc, k' = k.goto pc ∧ ∀ sec flags, pc = .store sec flags → sec ∈ k.running.held := by
  cases r with
  | acquire l =>
      obtain rfl := Option.some.inj hcall
      exact ⟨_, rfl, fun sec flags h => by cases h⟩
  | acquireIrqsave l =>
      obtain rfl := Option.some.inj hcall
      exact ⟨_, rfl, fun sec flags h => by cases h⟩
  | release l =>
      obtain ⟨sec, hfind, rfl⟩ := Option.map_eq_some_iff.mp hcall
      exact ⟨_, rfl, fun _ _ h => by cases h; exact List.mem_of_find?_eq_some hfind⟩
  | releaseIrqrestore l flags =>
      obtain ⟨sec, hfind, rfl⟩ := Option.map_eq_some_iff.mp hcall
      exact ⟨_, rfl, fun _ _ h => by cases h; exact List.mem_of_find?_eq_some hfind⟩

/-- **Instructions.** The exchange that returns 0 takes its lock, the store
drops it, nothing else does either. -/
theorem Core.Executed.locks (h : k.Executed locked locked' k') (hstoring : k.Storing) :
    k'.Storing ∧ LockEffect locked k locked' k' := by
  have hkeep : ∀ l, locked l = 0 ↔ locked l = 0 := fun _ => Iff.rfl
  cases h with
  | pushfq | pop | retry | push =>
      exact ⟨hstoring.goto (fun _ _ h => by cases h), .none rfl hkeep⟩
  | cli | popfq => exact ⟨hstoring.running (fun _ _ h => by cases h), .none rfl hkeep⟩
  | taken pc free =>
      exact ⟨hstoring.running (fun _ _ h => by cases h), .take _ free rfl rfl⟩
  | @contended l saved pc held =>
      refine ⟨hstoring.goto (fun _ _ h => by cases h), .none rfl fun l' => ?_⟩
      rcases eq_or_ne l' l with rfl | hl
      · rw [Function.update_self]
        exact ⟨fun h => absurd h (by decide), fun h => absurd h held⟩
      · rw [Function.update_of_ne hl]
  | spin => exact ⟨hstoring, .none rfl hkeep⟩
  | store pc | storeIrq pc =>
      have hheld := hstoring k.running List.mem_cons_self _ _ pc
      exact ⟨hstoring.running (fun _ _ h => by cases h), .drop _ rfl (locks_drop hheld _)⟩

/-- **One step of a CPU.** Interrupts, returns and other code leave the locks
alone. -/
theorem Core.Moved.locks {a : SpinAct L} (h : k.Moved locked a locked' k')
    (hstoring : k.Storing) : k'.Storing ∧ LockEffect locked k locked' k' := by
  have hkeep : ∀ l, locked l = 0 ↔ locked l = 0 := fun _ => Iff.rfl
  cases h with
  | call rest enter =>
      obtain ⟨pc, rfl, hpc⟩ := Core.call_spec enter
      exact ⟨hstoring.goto hpc, .none rfl hkeep⟩
  | exec executed => exact executed.locks hstoring
  | other rest keeps => exact ⟨hstoring, .none rfl hkeep⟩
  | interrupt enabled =>
      refine ⟨fun c hc => ?_, .none rfl hkeep⟩
      rcases List.mem_cons.mp hc with rfl | hc
      · exact fun _ _ h => by cases h
      · exact hstoring c hc
  | @iretq c rflags below frames rest released =>
      have hcodes : k.codes = k.running :: c :: below.map Prod.fst := by
        rw [Core.codes, frames, List.map_cons]
      refine ⟨fun c' hc' => hstoring c' ?_, .none ?_ hkeep⟩
      · rw [hcodes]
        exact List.mem_cons_of_mem _ hc'
      · show _ = k.codes.flatMap Code.locks
        rw [hcodes, List.flatMap_cons, Code.locks, released]
        rfl

end CoreSteps

section Owners

variable {C L : Type} [DecidableEq C] {owner : L → Option C} {s s' : Smp C L}

/-- A step of CPU `p` that changes no other CPU's ownership. -/
theorem HeldBy.update {owner' : L → Option C} {p : C} {locked' : L → BitVec 32} {k' : Core L}
    (h : HeldBy owner s) (hstoring : k'.Storing) (hnodup : k'.locks.Nodup)
    (hself : ∀ l, l ∈ k'.locks ↔ owner' l = some p)
    (hother : ∀ q, q ≠ p → ∀ l, owner l = some q ↔ owner' l = some q)
    (hword : ∀ l, locked' l = 0 ↔ owner' l = none) :
    HeldBy owner' ⟨locked', Function.update s.core p k'⟩ := by
  have hcore : ∀ q, q ≠ p → Function.update s.core p k' q = s.core q :=
    fun q hq => Function.update_of_ne hq _ _
  have hp : Function.update s.core p k' p = k' := Function.update_self ..
  constructor
  · intro q l
    show l ∈ (Function.update s.core p k' q).locks ↔ _
    by_cases hq : q = p
    · subst hq
      rw [hp, hself l]
    · rw [hcore q hq, h.holds q l, hother q hq l]
  · exact hword
  · intro q
    show (Function.update s.core p k' q).locks.Nodup
    by_cases hq : q = p
    · subst hq
      rwa [hp]
    · rw [hcore q hq]
      exact h.nodup q
  · intro q
    show (Function.update s.core p k' q).Storing
    by_cases hq : q = p
    · subst hq
      rwa [hp]
    · rw [hcore q hq]
      exact h.storing q

variable [DecidableEq L]

/-- **Every step of the CPUs is one of the lock table.** -/
theorem HeldBy.step {e : C × SpinAct L} (h : HeldBy owner s) (hstep : s.after e = some s') :
    ∃ owner', MutexStep e.1 owner owner' ∧ HeldBy owner' s' := by
  obtain ⟨p, a⟩ := e
  obtain ⟨⟨locked', k'⟩, hafter, rfl⟩ := Option.map_eq_some_iff.mp hstep
  obtain ⟨hstoring, heffect⟩ := (Core.moved_of_after hafter).locks (h.storing p)
  cases heffect with
  | none hlocks hword =>
      exact ⟨owner, .idle, h.update hstoring (hlocks ▸ h.nodup p) (hlocks ▸ h.holds p)
        (fun _ _ _ => Iff.rfl) (fun l => (hword l).trans (h.word l))⟩
  | take l hfree hword hlocks =>
      have hnone : owner l = none := (h.word l).mp hfree
      have hnew : l ∉ (s.core p).locks := by
        rw [h.holds p l, hnone]
        exact fun hsome => by cases hsome
      refine ⟨_, .take l hnone, h.update hstoring ?_ (fun l' => ?_) (fun q hq l' => ?_)
        (fun l' => ?_)⟩
      · rw [hlocks]
        exact List.nodup_cons.mpr ⟨hnew, h.nodup p⟩
      · rw [hlocks, List.mem_cons, h.holds p l']
        rcases eq_or_ne l' l with rfl | hl
        · simp
        · simp [hl]
      · rcases eq_or_ne l' l with rfl | hl
        · simp [hnone, Ne.symm hq]
        · simp [hl]
      · rw [hword]
        rcases eq_or_ne l' l with rfl | hl
        · simp
        · simpa [hl] using h.word l'
  | drop l hword hperm =>
      obtain ⟨hgone, hnodup⟩ := List.nodup_cons.mp (hperm.nodup_iff.mp (h.nodup p))
      have howner : owner l = some p :=
        (h.holds p l).mp (hperm.mem_iff.mpr List.mem_cons_self)
      refine ⟨_, .drop l howner, h.update hstoring hnodup (fun l' => ?_) (fun q hq l' => ?_)
        (fun l' => ?_)⟩
      · rcases eq_or_ne l' l with rfl | hl
        · simpa using hgone
        · rw [Function.update_of_ne hl, ← h.holds p l', hperm.mem_iff, List.mem_cons,
            or_iff_right hl]
      · rcases eq_or_ne l' l with rfl | hl
        · simp [howner, Ne.symm hq]
        · simp [hl]
      · rw [hword]
        rcases eq_or_ne l' l with rfl | hl
        · simp
        · simpa [hl] using h.word l'

/-- Every lock has at most one owner, who holds it once. -/
theorem heldBy_invariant :
    (spinlockSystem C L).Invariant (fun s => ∃ owner, HeldBy owner s) := by
  refine System.Inductive.invariant ⟨?_, ?_⟩
  · rintro s ⟨hlocked, hcore⟩
    have hlocks : ∀ p, (s.core p).locks = [] := by
      intro p
      obtain ⟨hrunning, hinterrupted⟩ := hcore p
      rw [Core.locks, Core.codes, hrunning, hinterrupted]
      rfl
    refine ⟨fun _ => none, fun p l => by simp [hlocks p], fun l => by simp [hlocked l,
      spinlockInit], fun p => by simp [hlocks p], fun p c hc sec flags hstore => ?_⟩
    obtain ⟨hrunning, hinterrupted⟩ := hcore p
    rw [Core.codes, hrunning, hinterrupted] at hc
    obtain rfl := List.mem_singleton.mp hc
    cases hstore
  · rintro s e s' ⟨owner, h⟩ hstep
    obtain ⟨owner', -, h'⟩ := h.step hstep
    exact ⟨owner', h'⟩

/-- **Mutual exclusion.** No two CPUs are between acquiring and releasing the
same spinlock, and none is twice. -/
theorem mutuallyExclusive (hs : (spinlockSystem C L).Reachable s) :
    (∀ p q l, l ∈ (s.core p).locks → l ∈ (s.core q).locks → p = q) ∧
      ∀ p, (s.core p).locks.Nodup := by
  obtain ⟨owner, h⟩ := heldBy_invariant s hs
  refine ⟨fun p q l hp hq => ?_, h.nodup⟩
  have howner := (h.holds p l).mp hp
  rw [(h.holds q l).mp hq] at howner
  exact (Option.some.inj howner).symm

end Owners

end QuinKernel
