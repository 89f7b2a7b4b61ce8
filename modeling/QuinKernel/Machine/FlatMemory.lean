import QuinKernel.Machine.Simulation

/-!
# Flat memory

What a memory is for: a cell of each address, zero at first, and a load returns
what was last stored. `flatMemory` is the machine, `lastStored` reads the answer
off the trace, and `flat_load` says they agree. `sim_load` carries that over a
simulation: whatever else a system does, what its loads return can be read off
its own trace.
-/

namespace QuinKernel.Machine

variable {A B : Type}

inductive FlatEvent (A B : Type)
  | load (a : A) (b : B)
  | store (a : A) (b : B)

variable [DecidableEq A]

/-- Every address has a cell of its own. -/
def flatMemory (A B : Type) [DecidableEq A] [Zero B] : System (A → B) (FlatEvent A B) where
  init m := ∀ a, m a = 0
  step m e m' :=
    match e with
    | .load a b => m' = m ∧ m a = b
    | .store a b => m' = Function.update m a b

/-- What a trace last stored at `a`, on top of `b`. -/
def lastStored (a : A) : List (FlatEvent A B) → B → B
  | [], b => b
  | .load _ _ :: fs, b => lastStored a fs b
  | .store a' b' :: fs, b => lastStored a fs (if a' = a then b' else b)

theorem lastStored_append (a : A) (fs gs : List (FlatEvent A B)) (b : B) :
    lastStored a (fs ++ gs) b = lastStored a gs (lastStored a fs b) := by
  induction fs generalizing b with
  | nil => rfl
  | cons f fs ih =>
      cases f with
      | load a' b' => exact ih b
      | store a' b' => exact ih _

variable [Zero B]

theorem flat_run {m m' : A → B} {fs : List (FlatEvent A B)}
    (hrun : (flatMemory A B).Run m fs m') (a : A) : m' a = lastStored a fs (m a) := by
  induction hrun with
  | nil => rfl
  | @cons m m₁ m' f fs hstep _ ih =>
      rw [ih]
      cases f with
      | load a' b' =>
          obtain ⟨rfl, -⟩ := hstep
          rfl
      | store a' b' =>
          obtain rfl : m₁ = Function.update m a' b' := hstep
          by_cases heq : a' = a
          · rw [lastStored, if_pos heq, heq, Function.update_self]
          · rw [lastStored, if_neg heq, Function.update_of_ne (Ne.symm heq)]

/-- A load returns what was last stored. -/
theorem flat_load {m m' : A → B} {fs gs : List (FlatEvent A B)} {a : A} {b : B}
    (hrun : (flatMemory A B).Run m (fs ++ .load a b :: gs) m') : b = lastStored a fs (m a) := by
  induction fs generalizing m with
  | nil =>
      cases hrun with
      | cons hstep _ => exact hstep.2.symm
  | cons f fs ih =>
      cases hrun with
      | cons hstep hrest =>
          have hload := ih hrest
          rw [flat_run (.single hstep) a] at hload
          rw [hload, ← lastStored_append]
          rfl

/-- **Loads of a system that simulates a flat memory** return what its trace last
stored. -/
theorem sim_load {S E : Type} {C : System S E} {access : E → Option (FlatEvent A B)}
    {R : S → (A → B) → Prop}
    (h : Simulation C (flatMemory A B) (fun e o => o = access e) R) {s s' : S} {es es' : List E}
    {e : E} {a : A} {b : B} (hinit : C.init s) (hrun : C.Run s (es ++ e :: es') s')
    (he : access e = some (.load a b)) : b = lastStored a (es.filterMap access) 0 := by
  obtain ⟨m, hm, hr⟩ := h.init s hinit
  obtain ⟨fs, m', hshows, hrun', -⟩ := h.run hrun hr
  obtain rfl := hshows.eq_filterMap
  rw [List.filterMap_append, List.filterMap_cons_some he] at hrun'
  rw [flat_load hrun', hm a]

end QuinKernel.Machine
