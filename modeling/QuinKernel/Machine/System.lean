import Mathlib

/-!
# Labelled systems and their invariants (L0 framework)

A `System` is a set of initial states and a labelled step relation; a label
records what a client of the system sees of the step (the call and its
result). `Run` is a finite run between two states, `Reachable` the states a
run from an initial state ends in.

`Inductive.invariant` is the one induction every safety result goes through:
a predicate that holds initially and is kept by each step holds of every
reachable state. `restrict` cuts a system down to the steps that meet a
condition; a run of the restricted system is exactly a run all of whose steps
meet it.
-/

namespace QuinKernel.Machine

/-- A labelled transition system. -/
structure System (S E : Type) where
  init : S → Prop
  step : S → E → S → Prop

namespace System

variable {S E : Type} (M : System S E)

/-- `M.Run s es s'`: the steps labelled `es`, in order, lead from `s` to `s'`. -/
inductive Run : S → List E → S → Prop
  | nil (s : S) : Run s [] s
  | cons {s s₁ s' : S} {e : E} {es : List E} :
      M.step s e s₁ → Run s₁ es s' → Run s (e :: es) s'

/-- The states a run from an initial state ends in. -/
inductive Reachable : S → Prop
  | init {s : S} : M.init s → Reachable s
  | step {s s' : S} {e : E} : Reachable s → M.step s e s' → Reachable s'

/-- `P` holds of every reachable state. -/
def Invariant (P : S → Prop) : Prop := ∀ s, M.Reachable s → P s

/-- `P` holds initially and every step keeps it. -/
structure Inductive (P : S → Prop) : Prop where
  init : ∀ s, M.init s → P s
  step : ∀ s e s', P s → M.step s e s' → P s'

/-- The system whose steps additionally meet `C`. -/
def restrict (C : S → E → Prop) : System S E where
  init := M.init
  step s e s' := C s e ∧ M.step s e s'

variable {M}

/-- **The invariant rule.** -/
theorem Inductive.invariant {P : S → Prop} (h : M.Inductive P) : M.Invariant P := by
  intro s hs
  induction hs with
  | init hinit => exact h.init _ hinit
  | step _ hstep ih => exact h.step _ _ _ ih hstep

/-- A run from a reachable state stays reachable. -/
theorem Run.reachable {s s' : S} {es : List E} (hrun : M.Run s es s')
    (hs : M.Reachable s) : M.Reachable s' := by
  induction hrun with
  | nil => exact hs
  | cons h _ ih => exact ih (hs.step h)

theorem Run.append {s s₁ s' : S} {es es' : List E} (h : M.Run s es s₁)
    (h' : M.Run s₁ es' s') : M.Run s (es ++ es') s' := by
  induction h with
  | nil => exact h'
  | cons hstep _ ih => exact .cons hstep (ih h')

theorem Run.single {s s' : S} {e : E} (h : M.step s e s') : M.Run s [e] s' :=
  .cons h (.nil s')

/-- Running an executable step function over the labels, while it gives a
state. -/
def runAll (after : S → E → Option S) : S → List E → Option S
  | s, [] => some s
  | s, e :: es => (after s e).bind (fun s₁ => runAll after s₁ es)

/-- What an executable step function runs to is a run, if its steps are steps. -/
theorem run_of_runAll {after : S → E → Option S}
    (hafter : ∀ s e s', after s e = some s' → M.step s e s') {es : List E} :
    ∀ {s s' : S}, runAll after s es = some s' → M.Run s es s' := by
  induction es with
  | nil =>
      intro s s' h
      cases h
      exact .nil s
  | cons e es ih =>
      intro s s' h
      obtain ⟨s₁, hstep, hrest⟩ := Option.bind_eq_some_iff.mp h
      exact .cons (hafter s e s₁ hstep) (ih hrest)

/-- An executable step function cut down to the steps that meet `C`. -/
def onlyIf (C : S → E → Prop) [∀ s e, Decidable (C s e)] (after : S → E → Option S) (s : S)
    (e : E) : Option S :=
  if C s e then after s e else none

theorem run_of_onlyIf {C : S → E → Prop} [∀ s e, Decidable (C s e)] {after : S → E → Option S}
    (hafter : ∀ s e s', after s e = some s' → M.step s e s') {s s' : S} {es : List E}
    (h : runAll (onlyIf C after) s es = some s') : (M.restrict C).Run s es s' := by
  refine run_of_runAll (fun s e s' hstep => ?_) h
  unfold onlyIf at hstep
  split at hstep
  · next hmeets => exact ⟨hmeets, hafter s e s' hstep⟩
  · cases hstep

end System

end QuinKernel.Machine
