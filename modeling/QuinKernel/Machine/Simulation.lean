import QuinKernel.Machine.System

/-!
# Simulations between systems (L0 framework)

A `Simulation` of `A` by `C` relates their states so that a step of `C` is one
step of `A` or leaves `A` where it is; `L` says which labels of `A` a label of
`C` may stand for. Every run of `C` then shows a run of `A` (`Simulation.run`),
what is reachable in `C` stands for something reachable in `A`
(`Simulation.invariant`), and a point of the run of `A` is a point of the run of
`C` (`Simulation.run_split`).
-/

namespace QuinKernel.Machine

variable {S E S' E' : Type}

/-- One step, or none. -/
def System.StepOrStay (M : System S E) (s : S) : Option E → S → Prop
  | none, s' => s' = s
  | some e, s' => M.step s e s'

/-- The steps of `C` are steps of `A`, or nothing to `A`. -/
structure Simulation (C : System S E) (A : System S' E') (L : E → Option E' → Prop)
    (R : S → S' → Prop) : Prop where
  init : ∀ s, C.init s → ∃ a, A.init a ∧ R s a
  step : ∀ s a e s', R s a → C.step s e s' →
    ∃ o a', L e o ∧ A.StepOrStay a o a' ∧ R s' a'

/-- The labels `fs` are what the labels `es` stand for, in order. -/
inductive Shows (L : E → Option E' → Prop) : List E → List E' → Prop
  | nil : Shows L [] []
  | stay {e : E} {es : List E} {fs : List E'} : L e none → Shows L es fs → Shows L (e :: es) fs
  | step {e : E} {f : E'} {es : List E} {fs : List E'} :
      L e (some f) → Shows L es fs → Shows L (e :: es) (f :: fs)

theorem Shows.eq_nil {L : E → Option E' → Prop} {fs : List E'} (h : Shows L [] fs) : fs = [] := by
  cases h
  rfl

/-- A label that stands for one label, or for none. -/
theorem Shows.eq_filterMap {g : E → Option E'} {es : List E} {fs : List E'}
    (h : Shows (fun e o => o = g e) es fs) : fs = es.filterMap g := by
  induction h with
  | nil => rfl
  | stay he _ ih => rw [List.filterMap_cons_none he.symm, ih]
  | step he _ ih => rw [List.filterMap_cons_some he.symm, ih]

namespace Simulation

variable {C : System S E} {A : System S' E'} {L : E → Option E' → Prop} {R : S → S' → Prop}

/-- **A run of the one shows a run of the other.** -/
theorem run (h : Simulation C A L R) {s s' : S} {a : S'} {es : List E} (hrun : C.Run s es s')
    (hr : R s a) : ∃ fs a', Shows L es fs ∧ A.Run a fs a' ∧ R s' a' := by
  induction hrun generalizing a with
  | nil => exact ⟨[], a, .nil, .nil a, hr⟩
  | cons hstep _ ih =>
      obtain ⟨o, a₁, hl, ha, hr₁⟩ := h.step _ _ _ _ hr hstep
      obtain ⟨fs, a', hshows, hrun', hr'⟩ := ih hr₁
      cases o with
      | none =>
          obtain rfl : a₁ = a := ha
          exact ⟨fs, a', .stay hl hshows, hrun', hr'⟩
      | some f => exact ⟨f :: fs, a', .step hl hshows, .cons ha hrun', hr'⟩

/-- Reachable states stand for reachable states. -/
theorem reachable (h : Simulation C A L R) {s : S} (hs : C.Reachable s) :
    ∃ a, A.Reachable a ∧ R s a := by
  induction hs with
  | init hinit =>
      obtain ⟨a, ha, hr⟩ := h.init _ hinit
      exact ⟨a, .init ha, hr⟩
  | step _ hstep ih =>
      obtain ⟨a, ha, hr⟩ := ih
      obtain ⟨o, a', -, hstay, hr'⟩ := h.step _ _ _ _ hr hstep
      cases o with
      | none =>
          obtain rfl : a' = a := hstay
          exact ⟨a', ha, hr'⟩
      | some f => exact ⟨a', ha.step hstay, hr'⟩

/-- **An invariant of the one** is an invariant of the other, seen through the
relation. -/
theorem invariant (h : Simulation C A L R) {P : S' → Prop} (hP : A.Invariant P) :
    C.Invariant (fun s => ∃ a, R s a ∧ P a) := by
  intro s hs
  obtain ⟨a, ha, hr⟩ := h.reachable hs
  exact ⟨a, hr, hP a ha⟩

/-- A run of `C` shows a run of `A` each point of which is a point of the run of `C`. -/
theorem run_split (h : Simulation C A L R) {s s' : S} {a : S'} {es : List E}
    (hrun : C.Run s es s') (hr : R s a) :
    ∃ fs a', Shows L es fs ∧ A.Run a fs a' ∧ R s' a' ∧
      ∀ fs₁ fs₂, fs = fs₁ ++ fs₂ → ∃ es₁ es₂ s₁ a₁, es = es₁ ++ es₂ ∧
        C.Run s es₁ s₁ ∧ C.Run s₁ es₂ s' ∧ Shows L es₁ fs₁ ∧ A.Run a fs₁ a₁ ∧
        A.Run a₁ fs₂ a' ∧ R s₁ a₁ := by
  induction hrun generalizing a with
  | nil =>
      refine ⟨[], a, .nil, .nil a, hr, fun fs₁ fs₂ hsplit => ?_⟩
      obtain ⟨rfl, rfl⟩ := List.append_eq_nil_iff.mp hsplit.symm
      exact ⟨[], [], _, a, rfl, .nil _, .nil _, .nil, .nil a, .nil a, hr⟩
  | @cons s s₁ s' e es hstep hrest ih =>
      obtain ⟨o, a₁, hl, ha, hr₁⟩ := h.step _ _ _ _ hr hstep
      obtain ⟨fs, a', hshows, hrun', hr', hpoints⟩ := ih hr₁
      cases o with
      | none =>
          obtain rfl : a₁ = a := ha
          refine ⟨fs, a', .stay hl hshows, hrun', hr', fun fs₁ fs₂ hsplit => ?_⟩
          obtain ⟨es₁, es₂, s₂, a₂, rfl, h₁, h₂, hs, ha₁, ha₂, hr₂⟩ := hpoints fs₁ fs₂ hsplit
          exact ⟨e :: es₁, es₂, s₂, a₂, rfl, .cons hstep h₁, h₂, .stay hl hs, ha₁, ha₂, hr₂⟩
      | some f =>
          have hrunA : A.Run a (f :: fs) a' := .cons ha hrun'
          refine ⟨f :: fs, a', .step hl hshows, hrunA, hr', fun fs₁ fs₂ hsplit => ?_⟩
          cases fs₁ with
          | nil =>
              obtain rfl : f :: fs = fs₂ := hsplit
              exact ⟨[], e :: es, s, a, rfl, .nil s, .cons hstep hrest, .nil, .nil a, hrunA, hr⟩
          | cons f₁ fs₁ =>
              obtain ⟨rfl, htail⟩ := List.cons.inj hsplit
              obtain ⟨es₁, es₂, s₂, a₂, rfl, h₁, h₂, hs, ha₁, ha₂, hr₂⟩ :=
                hpoints fs₁ fs₂ htail
              exact ⟨e :: es₁, es₂, s₂, a₂, rfl, .cons hstep h₁, h₂, .step hl hs, .cons ha ha₁,
                ha₂, hr₂⟩

end Simulation

end QuinKernel.Machine
