import QuinKernel.Interrupt.Model

/-!
# The EOI discipline

`isr_dispatch` sends the EOI before it calls the handler, so a vector is in
service only while its dispatcher is the topmost on the running stack and at
its first statements, with nothing above it but exceptions (`Pending`); `IF` is
clear all that time, also in what the exceptions will restore. In every other
state nothing is in service, whoever runs and whatever `IF` is (`Idle`).

A switch out of the timer handler leaves a dispatcher behind that is already
past its EOI. `Activation.Settled` says so of every dispatcher that is not the
pending one, on every stack.
-/

namespace QuinKernel

open Machine

variable {T : Type}

/-- Not the dispatcher of a vector that is in service. -/
def Activation.Settled : Activation → Prop
  | .dispatch d => d.pc ≠ .eoi ∧ (d.pc = .test → d.vector < 32)
  | _ => True

/-- An activation of an exception taken with `IF` clear, of its handler or of
the panic it ended in. -/
def Activation.Exceptional : Activation → Prop
  | .dispatch d => d.vector < 32 ∧ d.savedIf = false ∧ d.pc ≠ .eoi
  | .pageFaultIsr | .panic => True
  | _ => False

/-- Not an exception without a handler, nor the panic it ended in. -/
def Activation.Returns : Activation → Prop
  | .dispatch d => d.vector < 32 → handlers d.vector ≠ none
  | .panic => False
  | _ => True

/-- Each vector delivered, and right after it its EOI. -/
def acknowledged (vs : List Nat) : List LapicEvent :=
  vs.flatMap (fun v => [.delivered v, .eoi v v])

/-- Vectors of devices. -/
def DeviceVectors (vs : List Nat) : Prop := ∀ v ∈ vs, 32 ≤ v ∧ v ≤ 47

/-- Nothing is in service. -/
structure Idle (s : Interrupts T) : Prop where
  inService : s.lapic.inService = ∅
  log : ∃ vs, DeviceVectors vs ∧ s.lapic.log = acknowledged vs
  settled : ∀ t, ∀ a ∈ s.stackOf t, a.Settled

/-- `v` is in service and its dispatcher is on its way to the EOI. -/
structure Pending (s : Interrupts T) (v : Nat) : Prop where
  vector : 32 ≤ v ∧ v ≤ 47
  inService : s.lapic.inService = {v}
  log : ∃ vs, DeviceVectors vs ∧ s.lapic.log = acknowledged vs ++ [.delivered v]
  masked : s.iflag = false
  running : ∃ es d rest, s.stackOf s.running = es ++ .dispatch d :: rest ∧
    (∀ a ∈ es, a.Exceptional) ∧ d.vector = v ∧ (d.pc = .test ∨ d.pc = .eoi) ∧
    ∀ a ∈ rest, a.Settled
  others : ∀ t, t ≠ s.running → ∀ a ∈ s.stackOf t, a.Settled

namespace Activation

theorem body_settled : body.Settled := trivial
theorem panic_settled : panic.Settled := trivial
theorem pageFaultIsr_settled : pageFaultIsr.Settled := trivial
theorem spurious_settled (savedIf : Bool) : (spurious savedIf).Settled := trivial
theorem switchToNext_settled (pc : SwitchPc) (flags : Bool) : (switchToNext pc flags).Settled :=
  trivial
theorem exception_settled {v : Nat} (hv : v < 32) (savedIf : Bool) :
    (dispatch ⟨v, savedIf, .test⟩).Settled := ⟨DispatchPc.noConfusion, fun _ => hv⟩

end Activation

theorem handlers_settled {v : Nat} {a : Activation} (h : handlers v = some a) : a.Settled := by
  unfold handlers at h
  split_ifs at h <;> cases h <;> trivial

theorem handlers_exceptional {v : Nat} {a : Activation} (hv : v < 32)
    (h : handlers v = some a) : a = .pageFaultIsr := by
  unfold handlers at h
  rw [if_neg (by omega : ¬ v = 32), if_neg (by omega : ¬ v = 33)] at h
  split_ifs at h
  exact (Option.some.inj h).symm

section Steps

variable {s s' : Interrupts T} {fs : List Activation}

/-- What is below the top of the running stack is settled. -/
theorem Idle.below (h : Idle s) {a : Activation} (top : s.stackOf s.running = a :: fs) :
    a.Settled ∧ ∀ a ∈ fs, a.Settled :=
  List.forall_mem_cons.mp (top ▸ h.settled s.running)

theorem Idle.cons (h : Idle s) {a a' : Activation} (top : s.stackOf s.running = a :: fs)
    (ha' : a'.Settled) : ∀ a ∈ a' :: fs, a.Settled :=
  List.forall_mem_cons.mpr ⟨ha', (h.below top).2⟩

variable [DecidableEq T]

/-- Every stack is settled once the running one is replaced by a settled one. -/
theorem settled_setStack (hothers : ∀ t, t ≠ s.running → ∀ a ∈ s.stackOf t, a.Settled)
    (hfs : ∀ a ∈ fs, a.Settled) : ∀ t, ∀ a ∈ (s.setStack fs).stackOf t, a.Settled := by
  intro t
  show ∀ a ∈ Function.update s.stackOf s.running fs t, a.Settled
  by_cases ht : t = s.running
  · rw [ht, Function.update_self]
    exact hfs
  · rw [Function.update_of_ne ht]
    exact hothers t ht

namespace Idle

/-- A step that replaces the running stack by a settled one. -/
theorem setStack (h : Idle s) (hfs : ∀ a ∈ fs, a.Settled) (b : Bool) :
    Idle { s.setStack fs with iflag := b } :=
  ⟨h.inService, h.log, settled_setStack (fun t _ => h.settled t) hfs⟩

/-- A dispatcher past its EOI, or of an exception. -/
theorem execDispatch (h : Idle s) {d : Dispatch} (top : s.stackOf s.running = .dispatch d :: fs) :
    Idle (s.execDispatch d fs) := by
  obtain ⟨⟨hpast, hexception⟩, hfs⟩ := h.below top
  have hgoto : ∀ pc : DispatchPc, pc = .handler ∨ pc = .ret →
      (Activation.dispatch { d with pc }).Settled := by
    rintro pc (rfl | rfl) <;> exact ⟨DispatchPc.noConfusion, DispatchPc.noConfusion⟩
  unfold Interrupts.execDispatch
  split
  · next hpc =>
      rw [if_pos (hexception hpc)]
      exact h.setStack (h.cons top (hgoto _ (.inl rfl))) s.iflag
  · next hpc => exact absurd hpc hpast
  · split
    · next handler hhandler =>
        exact h.setStack (List.forall_mem_cons.mpr
          ⟨handlers_settled hhandler, h.cons top (hgoto _ (.inr rfl))⟩) s.iflag
    · split
      · exact h.setStack (List.forall_mem_cons.mpr
          ⟨Activation.panic_settled, h.cons top (hgoto _ (.inr rfl))⟩) s.iflag
      · exact h.setStack (h.cons top (hgoto _ (.inr rfl))) s.iflag
  · exact h.setStack hfs d.savedIf

theorem execSwitch (h : Idle s) {pc : SwitchPc} {flags : Bool}
    (top : s.stackOf s.running = .switchToNext pc flags :: fs)
    (hexec : s.execSwitch pc flags fs = some s') : Idle s' := by
  have hcons : ∀ pc flags, ∀ a ∈ Activation.switchToNext pc flags :: fs, a.Settled :=
    fun pc flags => h.cons top (Activation.switchToNext_settled pc flags)
  cases pc with
  | test | load => cases hexec
  | ret =>
      cases hexec
      exact h.setStack (h.below top).2 s.iflag
  | _ =>
      cases hexec
      exact h.setStack (hcons _ _) _

/-- **One step with nothing in service.** Only a delivery puts something there. -/
theorem step (h : Idle s) {e : InterruptEvent T} (hstep : s.after e = some s') :
    Idle s' ∨ ∃ v, Pending s' v := by
  have hbelow : ∀ {a fs}, s.stackOf s.running = a :: fs → ∀ a ∈ fs, a.Settled :=
    fun top => (h.below top).2
  unfold Interrupts.after at hstep
  split at hstep
  · -- a delivery: `v` is in service, and the running thread is in its dispatch
    next v =>
      obtain ⟨⟨-, hlow, hhigh, -⟩, hstep⟩ := Option.ite_none_right_eq_some.mp hstep
      cases hstep
      refine .inr ⟨v, ⟨hlow, hhigh⟩, ?_, ?_, rfl, ?_, fun t ht => ?_⟩
      · show insert v s.lapic.inService = {v}
        rw [h.inService]
        rfl
      · obtain ⟨vs, hvs, hlog⟩ := h.log
        refine ⟨vs, hvs, ?_⟩
        show s.lapic.log ++ _ = _
        rw [hlog]
      · refine ⟨[], _, s.stackOf s.running, Function.update_self .., List.forall_mem_nil _, rfl,
          .inl rfl, h.settled s.running⟩
      · have hother : Function.update s.stackOf s.running
            (.dispatch ⟨v, s.iflag, .test⟩ :: s.stackOf s.running) t = s.stackOf t :=
          Function.update_of_ne ht ..
        show ∀ a ∈ Function.update s.stackOf s.running _ t, a.Settled
        rw [hother]
        exact h.settled t
  · obtain ⟨-, hstep⟩ := Option.ite_none_right_eq_some.mp hstep
    cases hstep
    exact .inl (h.setStack (List.forall_mem_cons.mpr
      ⟨Activation.spurious_settled _, h.settled s.running⟩) false)
  · obtain ⟨hv, hstep⟩ := Option.ite_none_right_eq_some.mp hstep
    cases hstep
    exact .inl (h.setStack (List.forall_mem_cons.mpr
      ⟨Activation.exception_settled hv _, h.settled s.running⟩) false)
  · cases hstep
    exact .inl ⟨h.inService, h.log, h.settled⟩
  · next top =>
      cases hstep
      exact .inl (h.setStack (List.forall_mem_cons.mpr
        ⟨Activation.switchToNext_settled _ _, h.cons top Activation.body_settled⟩) s.iflag)
  · next thread fs top =>
      obtain ⟨-, hstep⟩ := Option.ite_none_right_eq_some.mp hstep
      cases hstep
      refine .inl ⟨h.inService, h.log, fun t => ?_⟩
      show ∀ a ∈ Function.update s.stackOf thread [.fresh] t, a.Settled
      by_cases ht : t = thread
      · rw [ht, Function.update_self]
        exact List.forall_mem_singleton.mpr trivial
      · rw [Function.update_of_ne ht]
        exact h.settled t
  · next top =>
      cases hstep
      exact .inl (h.setStack (List.forall_mem_cons.mpr
        ⟨Activation.panic_settled, h.cons top Activation.body_settled⟩) s.iflag)
  · next top =>
      cases hstep
      exact .inl (h.setStack (h.cons top Activation.body_settled) true)
  · next top =>
      cases hstep
      exact .inl (h.execDispatch top)
  · next top =>
      cases hstep
      exact .inl (h.setStack (hbelow top) _)
  · next top =>
      cases hstep
      exact .inl (h.setStack (hbelow top) s.iflag)
  · cases hstep
    exact .inl ⟨h.inService, h.log, h.settled⟩
  · next top => exact .inl (h.execSwitch top hstep)
  · next expired fs top =>
      cases hstep
      cases expired
      · exact .inl (h.setStack (hbelow top) s.iflag)
      · exact .inl (h.setStack (h.cons top (Activation.switchToNext_settled _ _)) s.iflag)
  · next handled fs top =>
      cases hstep
      cases handled
      · exact .inl (h.setStack (List.forall_mem_cons.mpr
          ⟨Activation.panic_settled, h.cons top Activation.pageFaultIsr_settled⟩) s.iflag)
      · exact .inl (h.setStack (hbelow top) s.iflag)
  · next top =>
      cases hstep
      exact .inl (h.setStack (h.cons top (Activation.switchToNext_settled _ _)) s.iflag)
  · -- a switch changes the running thread only
    next thread flags fs top =>
      obtain ⟨-, hstep⟩ := Option.ite_none_right_eq_some.mp hstep
      cases hstep
      have hsuspended := h.setStack (h.cons top (Activation.switchToNext_settled .ret flags)) s.iflag
      exact .inl ⟨hsuspended.inService, hsuspended.log, hsuspended.settled⟩
  · cases hstep

end Idle

/-- What a step of an exception taken with `IF` clear comes to: it changes nothing
but the top of the stack, where more of its kind may come. -/
def StaysExceptional (s : Interrupts T) (fs : List Activation) (s' : Interrupts T) : Prop :=
  s'.iflag = false ∧ s'.lapic = s.lapic ∧ s'.running = s.running ∧
    ∃ gs, (∀ g ∈ gs, g.Exceptional) ∧
      s'.stackOf = Function.update s.stackOf s.running (gs ++ fs)

theorem exceptional_execDispatch {d : Dispatch} (hd : (Activation.dispatch d).Exceptional)
    (hmasked : s.iflag = false) : StaysExceptional s fs (s.execDispatch d fs) := by
  obtain ⟨hv, hsaved, hpc⟩ := hd
  have hgoto : ∀ pc : DispatchPc, pc ≠ .eoi → (Activation.dispatch { d with pc }).Exceptional :=
    fun pc hpc => ⟨hv, hsaved, hpc⟩
  unfold Interrupts.execDispatch
  split
  · rw [if_pos hv]
    exact ⟨hmasked, rfl, rfl, [_], List.forall_mem_singleton.mpr
      (hgoto .handler DispatchPc.noConfusion), rfl⟩
  · next heoi => exact absurd heoi hpc
  · have hret := hgoto .ret DispatchPc.noConfusion
    split
    · next handler hhandler =>
        obtain rfl := handlers_exceptional hv hhandler
        exact ⟨hmasked, rfl, rfl, [.pageFaultIsr, _],
          List.forall_mem_cons.mpr ⟨trivial, List.forall_mem_singleton.mpr hret⟩, rfl⟩
    · rw [if_pos hv]
      exact ⟨hmasked, rfl, rfl, [.panic, _],
        List.forall_mem_cons.mpr ⟨trivial, List.forall_mem_singleton.mpr hret⟩, rfl⟩
  · exact ⟨hsaved, rfl, rfl, [], List.forall_mem_nil _, rfl⟩

/-- Only an exception comes while `IF` is clear. -/
theorem exceptional_exception {a : Activation} (top : s.stackOf s.running = a :: fs)
    (ha : a.Exceptional) (hmasked : s.iflag = false) {v : Nat} (hv : v < 32) :
    StaysExceptional s fs (s.enter (.dispatch ⟨v, s.iflag, .test⟩)) := by
  refine ⟨rfl, rfl, rfl, [.dispatch ⟨v, s.iflag, .test⟩, a], List.forall_mem_cons.mpr
    ⟨⟨hv, hmasked, DispatchPc.noConfusion⟩, List.forall_mem_singleton.mpr ha⟩, ?_⟩
  show Function.update s.stackOf s.running (_ :: s.stackOf s.running) = _
  rw [top]
  rfl

/-- **One step of an exception** taken with `IF` clear. -/
theorem exceptional_step {a : Activation} (top : s.stackOf s.running = a :: fs)
    (ha : a.Exceptional) (hmasked : s.iflag = false) {e : InterruptEvent T}
    (hstep : s.after e = some s') : StaysExceptional s fs s' := by
  have hkeep : s.stackOf = Function.update s.stackOf s.running ([a] ++ fs) := by
    rw [List.singleton_append, ← top, Function.update_eq_self]
  cases e with
  | deliver v =>
      obtain ⟨⟨hif, -⟩, -⟩ := Option.ite_none_right_eq_some.mp hstep
      rw [hmasked] at hif
      cases hif
  | spurious =>
      obtain ⟨hif, -⟩ := Option.ite_none_right_eq_some.mp hstep
      rw [hmasked] at hif
      cases hif
  | exception v =>
      obtain ⟨hv, hstep⟩ := Option.ite_none_right_eq_some.mp hstep
      cases hstep
      exact exceptional_exception top ha hmasked hv
  | exec =>
      cases a with
      | dispatch d =>
          simp only [Interrupts.after, top] at hstep
          cases hstep
          exact exceptional_execDispatch ha hmasked
      | panic =>
          simp only [Interrupts.after, top] at hstep
          cases hstep
          exact ⟨rfl, rfl, rfl, [.panic], List.forall_mem_singleton.mpr trivial, hkeep⟩
      | pageFaultIsr =>
          simp only [Interrupts.after, top] at hstep
          cases hstep
      | _ => exact ha.elim
  | faultHandled handled =>
      cases a with
      | dispatch d | panic =>
          simp only [Interrupts.after, top] at hstep
          cases hstep
      | pageFaultIsr =>
          simp only [Interrupts.after, top] at hstep
          cases hstep
          cases handled with
          | true => exact ⟨hmasked, rfl, rfl, [], List.forall_mem_nil _, rfl⟩
          | false =>
              exact ⟨hmasked, rfl, rfl, [.panic, .pageFaultIsr],
                List.forall_mem_cons.mpr ⟨trivial, List.forall_mem_singleton.mpr trivial⟩, rfl⟩
      | _ => exact ha.elim
  | _ =>
      cases a with
      | dispatch d | panic | pageFaultIsr =>
          simp only [Interrupts.after, top] at hstep
          cases hstep
      | _ => exact ha.elim

/-- The highest vector in service is the only one. -/
theorem lapicSendEoi_single {l : Lapic} {v : Nat} (hl : l.inService = {v}) :
    lapicSendEoi l v = ⟨∅, l.log ++ [.eoi v v]⟩ := by
  simp only [lapicSendEoi, hl, Finset.sup_singleton, id, Finset.erase_singleton]

theorem acknowledged_append {vs : List Nat} {v : Nat} :
    acknowledged vs ++ [.delivered v] ++ [.eoi v v] = acknowledged (vs ++ [v]) := by
  rw [acknowledged, acknowledged, List.flatMap_append, List.append_assoc]
  rfl

namespace Pending

/-- A step that keeps the dispatcher and all under it. -/
theorem keep (h : Pending s v) (es : List Activation) (d : Dispatch) {rest : List Activation}
    (hes : ∀ a ∈ es, a.Exceptional) (hd : d.vector = v) (hpc : d.pc = .test ∨ d.pc = .eoi)
    (hrest : ∀ a ∈ rest, a.Settled) (hif : s'.iflag = false) (hlapic : s'.lapic = s.lapic)
    (hrunning : s'.running = s.running)
    (hstack : s'.stackOf = Function.update s.stackOf s.running (es ++ .dispatch d :: rest)) :
    Pending s' v := by
  refine ⟨h.vector, hlapic ▸ h.inService, hlapic ▸ h.log, hif, ⟨es, d, rest, ?_, hes, hd, hpc,
    hrest⟩, fun t ht => ?_⟩
  · rw [hrunning, hstack, Function.update_self]
  · rw [hrunning] at ht
    rw [hstack, Function.update_of_ne ht]
    exact h.others t ht

/-- **One step with a vector in service.** The EOI takes it out; nothing else
happens but exceptions. -/
theorem step (h : Pending s v) {e : InterruptEvent T} (hstep : s.after e = some s') :
    Pending s' v ∨ Idle s' := by
  obtain ⟨es, d, rest, hstack, hes, hd, hpc, hrest⟩ := h.running
  cases es with
  | cons a es =>
      obtain ⟨ha, hes⟩ := List.forall_mem_cons.mp hes
      obtain ⟨hif, hlapic, hrunning, gs, hgs, hstack'⟩ :=
        exceptional_step hstack ha h.masked hstep
      refine .inl (h.keep (gs ++ es) d ?_ hd hpc hrest hif hlapic hrunning ?_)
      · exact List.forall_mem_append.mpr ⟨hgs, hes⟩
      · rw [hstack', List.append_assoc]
        rfl
  | nil =>
      have top : s.stackOf s.running = .dispatch d :: rest := hstack
      cases e with
      | deliver v' =>
          obtain ⟨⟨hif, -⟩, -⟩ := Option.ite_none_right_eq_some.mp hstep
          rw [h.masked] at hif
          cases hif
      | spurious =>
          obtain ⟨hif, -⟩ := Option.ite_none_right_eq_some.mp hstep
          rw [h.masked] at hif
          cases hif
      | exception v' =>
          obtain ⟨hv', hstep⟩ := Option.ite_none_right_eq_some.mp hstep
          cases hstep
          refine .inl (h.keep [.dispatch ⟨v', s.iflag, .test⟩] d
            (List.forall_mem_singleton.mpr ⟨hv', h.masked, DispatchPc.noConfusion⟩) hd hpc hrest
            rfl rfl rfl ?_)
          show Function.update s.stackOf s.running (_ :: s.stackOf s.running) = _
          rw [top]
          rfl
      | exec =>
          simp only [Interrupts.after, top] at hstep
          cases hstep
          rcases hpc with hpc | hpc
          · -- the dispatcher of a device's vector goes on to its EOI
            have hdevice : ¬ d.vector < 32 := by
              have := h.vector
              omega
            have hexec : s.execDispatch d rest =
                s.setStack (.dispatch { d with pc := .eoi } :: rest) := by
              simp only [Interrupts.execDispatch, hpc, if_neg hdevice]
            rw [hexec]
            exact .inl (h.keep [] { d with pc := .eoi } (List.forall_mem_nil _) hd
              (.inr rfl) hrest h.masked rfl rfl rfl)
          · have hexec : s.execDispatch d rest =
                { s.setStack (.dispatch { d with pc := .handler } :: rest) with
                  lapic := lapicSendEoi s.lapic d.vector } := by
              simp only [Interrupts.execDispatch, hpc]
            rw [hexec, hd, lapicSendEoi_single h.inService]
            obtain ⟨vs, hvs, hlog⟩ := h.log
            refine .inr ⟨rfl, ⟨vs ++ [v], ?_, ?_⟩, ?_⟩
            · exact List.forall_mem_append.mpr ⟨hvs, List.forall_mem_singleton.mpr h.vector⟩
            · show s.lapic.log ++ _ = _
              rw [hlog, acknowledged_append]
            · refine settled_setStack h.others (List.forall_mem_cons.mpr ⟨?_, hrest⟩)
              exact ⟨DispatchPc.noConfusion, DispatchPc.noConfusion⟩
      | _ =>
          simp only [Interrupts.after, top] at hstep
          cases hstep

end Pending

/-! ## The EOI is sent -/

/-- By its own statements alone the CPU gets from `s` to the activations `fs`,
with everything else as it was. -/
def ReturnsTo (b : T) (s : Interrupts T) (fs : List Activation) : Prop :=
  ∃ es s', (interruptSystem T b).Run s es s' ∧ (∀ e ∈ es, e = .exec ∨ e = .faultHandled true) ∧
    s'.iflag = false ∧ s'.lapic = s.lapic ∧ s'.running = s.running ∧
    s'.stackOf = Function.update s.stackOf s.running fs

variable {b : T}

/-- One statement, and what follows it. -/
theorem ReturnsTo.step {e : InterruptEvent T} (gs : List Activation)
    (hown : e = .exec ∨ e = .faultHandled true) (hstep : s.after e = some (s.setStack gs))
    (h : ReturnsTo b (s.setStack gs) fs) : ReturnsTo b s fs := by
  obtain ⟨es, s', hrun, hes, hif, hlapic, hrunning, hstack⟩ := h
  refine ⟨e :: es, s', .cons hstep hrun, List.forall_mem_cons.mpr ⟨hown, hes⟩, hif, hlapic,
    hrunning, ?_⟩
  rw [hstack]
  exact Function.update_idem ..

/-- The last statement. -/
theorem ReturnsTo.last {e : InterruptEvent T} (hown : e = .exec ∨ e = .faultHandled true)
    (hstep : s.after e = some { s.setStack fs with iflag := false }) : ReturnsTo b s fs :=
  ⟨[e], _, .single hstep, List.forall_mem_singleton.mpr hown, rfl, rfl, rfl, rfl⟩

theorem stackOf_setStack : (s.setStack fs).stackOf (s.setStack fs).running = fs :=
  Function.update_self ..

theorem returnsTo_pageFaultIsr (top : s.stackOf s.running = .pageFaultIsr :: fs)
    (hmasked : s.iflag = false) : ReturnsTo b s fs := by
  refine .last (.inr rfl) ?_
  simp only [Interrupts.after, top, if_true]
  rw [← hmasked]
  rfl

/-- A dispatcher of an exception that is handled returns. -/
theorem returnsTo_dispatch {d : Dispatch} (top : s.stackOf s.running = .dispatch d :: fs)
    (hd : (Activation.dispatch d).Exceptional) (hhandler : handlers d.vector = some .pageFaultIsr)
    (hmasked : s.iflag = false) : ReturnsTo b s fs := by
  obtain ⟨hv, hsaved, hpc⟩ := hd
  have hret : ∀ {s : Interrupts T}, s.stackOf s.running = .dispatch { d with pc := .ret } :: fs →
      ReturnsTo b s fs := by
    intro s top
    refine .last (.inl rfl) ?_
    simp only [Interrupts.after, top, Interrupts.execDispatch, hsaved]
  have hhandle : ∀ {s : Interrupts T}, s.iflag = false →
      s.stackOf s.running = .dispatch { d with pc := .handler } :: fs → ReturnsTo b s fs := by
    intro s hmasked top
    refine .step (.pageFaultIsr :: .dispatch { d with pc := .ret } :: fs) (.inl rfl) ?_ ?_
    · simp only [Interrupts.after, top, Interrupts.execDispatch, hhandler]
    · refine .step (.dispatch { d with pc := .ret } :: fs) (.inr rfl) ?_
        (hret stackOf_setStack)
      simp only [Interrupts.after, stackOf_setStack, if_true]
  cases hcase : d.pc with
  | test =>
      refine .step (.dispatch { d with pc := .handler } :: fs) (.inl rfl) ?_
        (hhandle hmasked stackOf_setStack)
      simp only [Interrupts.after, top, Interrupts.execDispatch, hcase, if_pos hv]
  | eoi => exact absurd hcase hpc
  | handler =>
      refine hhandle hmasked ?_
      rw [top, ← hcase]
  | ret =>
      refine hret ?_
      rw [top, ← hcase]

/-- An exception that is handled returns. -/
theorem returnsTo_below {a : Activation} (top : s.stackOf s.running = a :: fs)
    (ha : a.Exceptional) (hreturns : a.Returns) (hmasked : s.iflag = false) :
    ReturnsTo b s fs := by
  cases a with
  | dispatch d =>
      obtain ⟨handler, hhandler⟩ := Option.ne_none_iff_exists'.mp (hreturns ha.1)
      obtain rfl := handlers_exceptional ha.1 hhandler
      exact returnsTo_dispatch top ha hhandler hmasked
  | pageFaultIsr => exact returnsTo_pageFaultIsr top hmasked
  | panic => exact hreturns.elim
  | _ => exact ha.elim

/-- Exceptions that are handled return one after the other. -/
theorem returnsTo_all {es : List Activation} (hes : ∀ a ∈ es, a.Exceptional)
    (hreturns : ∀ a ∈ es, a.Returns) :
    ∀ {s : Interrupts T}, s.stackOf s.running = es ++ fs → s.iflag = false → ReturnsTo b s fs := by
  induction es with
  | nil =>
      intro s top hmasked
      refine ⟨[], s, .nil s, List.forall_mem_nil _, hmasked, rfl, rfl, ?_⟩
      rw [show fs = s.stackOf s.running from top.symm, Function.update_eq_self]
  | cons a es ih =>
      intro s hstack hmasked
      have top : s.stackOf s.running = a :: (es ++ fs) := hstack
      obtain ⟨ha, hes⟩ := List.forall_mem_cons.mp hes
      obtain ⟨hret, hreturns⟩ := List.forall_mem_cons.mp hreturns
      obtain ⟨es₁, s₁, hrun₁, hes₁, hif₁, hlapic₁, hrunning₁, hstack₁⟩ :=
        returnsTo_below (b := b) top ha hret hmasked
      have top₁ : s₁.stackOf s₁.running = es ++ fs := by
        rw [hrunning₁, hstack₁, Function.update_self]
      obtain ⟨es₂, s₂, hrun₂, hes₂, hif₂, hlapic₂, hrunning₂, hstack₂⟩ :=
        ih hes hreturns top₁ hif₁
      refine ⟨es₁ ++ es₂, s₂, hrun₁.append hrun₂, List.forall_mem_append.mpr ⟨hes₁, hes₂⟩, hif₂,
        hlapic₂.trans hlapic₁, hrunning₂.trans hrunning₁, ?_⟩
      rw [hstack₂, hstack₁, hrunning₁, Function.update_idem]

/-- **The EOI comes.** Unless an exception ends in a panic, the running
activations by themselves send the EOI of the vector in service. -/
theorem Pending.acknowledges {v : Nat} (h : Pending s v)
    (hreturns : ∀ a ∈ s.stackOf s.running, a.Returns) :
    ∃ es s', (interruptSystem T b).Run s es s' ∧ (∀ e ∈ es, e = .exec ∨ e = .faultHandled true) ∧
      s'.lapic = ⟨∅, s.lapic.log ++ [.eoi v v]⟩ := by
  obtain ⟨es, d, rest, hstack, hes, hd, hpc, -⟩ := h.running
  obtain ⟨es₁, s₁, hrun₁, hes₁, -, hlapic₁, hrunning₁, hstack₁⟩ :=
    returnsTo_all (b := b) hes
      (fun a ha => hreturns a (hstack ▸ List.mem_append_left _ ha)) hstack h.masked
  have top₁ : s₁.stackOf s₁.running = .dispatch d :: rest := by
    rw [hrunning₁, hstack₁, Function.update_self]
  have heoi : ∀ {s : Interrupts T} {l : Lapic}, s.lapic = l → l.inService = {v} →
      s.stackOf s.running = .dispatch { d with pc := .eoi } :: rest →
      ∃ s', (interruptSystem T b).step s .exec s' ∧ s'.lapic = ⟨∅, l.log ++ [.eoi v v]⟩ := by
    intro s l hlapic hl top
    refine ⟨s.execDispatch { d with pc := .eoi } rest, ?_, ?_⟩
    · show s.after .exec = _
      simp only [Interrupts.after, top]
    · show lapicSendEoi s.lapic d.vector = _
      rw [hlapic, hd, lapicSendEoi_single hl]
  rcases hpc with hpc | hpc
  · have hdevice : ¬ d.vector < 32 := by
      have := h.vector
      omega
    have htest : (interruptSystem T b).step s₁ .exec
        (s₁.setStack (.dispatch { d with pc := .eoi } :: rest)) := by
      show s₁.after .exec = _
      simp only [Interrupts.after, top₁, Interrupts.execDispatch, hpc, if_neg hdevice]
    obtain ⟨s', hstep, hlapic⟩ := heoi (s := s₁.setStack _) hlapic₁ h.inService stackOf_setStack
    refine ⟨es₁ ++ [.exec, .exec], s', hrun₁.append (.cons htest (.single hstep)), ?_, hlapic⟩
    exact List.forall_mem_append.mpr ⟨hes₁, by simp⟩
  · obtain ⟨s', hstep, hlapic⟩ := heoi hlapic₁ h.inService (by rw [top₁, ← hpc])
    refine ⟨es₁ ++ [.exec], s', hrun₁.append (.single hstep), ?_, hlapic⟩
    exact List.forall_mem_append.mpr ⟨hes₁, List.forall_mem_singleton.mpr (.inl rfl)⟩

/-! ## The discipline -/

/-- Every reachable state is idle or has one vector on the way to its EOI. -/
theorem idle_or_pending (h : (interruptSystem T b).Reachable s) : Idle s ∨ ∃ v, Pending s v := by
  induction h with
  | init hinit =>
      obtain ⟨hlapic, -, hstack⟩ := hinit
      refine .inl ⟨by rw [hlapic], ⟨[], List.forall_mem_nil _, by rw [hlapic]; rfl⟩,
        fun t => ?_⟩
      rw [hstack]
      by_cases ht : t = b
      · rw [ht, Function.update_self]
        exact List.forall_mem_singleton.mpr Activation.body_settled
      · rw [Function.update_of_ne ht]
        exact List.forall_mem_nil _
  | step _ hstep ih =>
      rcases ih with hidle | ⟨v, hpending⟩
      · exact hidle.step hstep
      · exact (hpending.step hstep).elim (fun h => .inr ⟨v, h⟩) .inl

/-- **The EOI discipline.** The LAPIC sees each vector delivered acknowledged once,
by its own dispatcher and before any other is delivered; the last may still be
on the way to its EOI, which the running activations send by themselves unless
an exception panics. While `IF` is set nothing is in service and no vector is
withheld, and neither is while a thread or `switch_to_next` runs. -/
theorem eoi_discipline (h : (interruptSystem T b).Reachable s) :
    (∃ vs, DeviceVectors vs ∧ (s.lapic = ⟨∅, acknowledged vs⟩ ∨
      ∃ v, (32 ≤ v ∧ v ≤ 47) ∧ s.lapic = ⟨{v}, acknowledged vs ++ [.delivered v]⟩ ∧
        ((∀ a ∈ s.stackOf s.running, a.Returns) →
          ∃ es s', (interruptSystem T b).Run s es s' ∧
            (∀ e ∈ es, e = .exec ∨ e = .faultHandled true) ∧
            s'.lapic = ⟨∅, acknowledged (vs ++ [v])⟩))) ∧
    (s.iflag = true → s.lapic.inService = ∅ ∧ ∀ v, ¬ s.lapic.Withholds v) ∧
    ∀ a fs, s.stackOf s.running = a :: fs →
      a = .body ∨ a = .fresh ∨ (∃ pc flags, a = .switchToNext pc flags) →
      s.lapic.inService = ∅ ∧ ∀ v, ¬ s.lapic.Withholds v := by
  have hfree : s.lapic.inService = ∅ →
      s.lapic.inService = ∅ ∧ ∀ v, ¬ s.lapic.Withholds v := by
    refine fun hnone => ⟨hnone, fun v ⟨w, hw, _⟩ => ?_⟩
    rw [hnone] at hw
    exact absurd hw (Finset.notMem_empty w)
  rcases idle_or_pending h with hidle | ⟨v, hpending⟩
  · obtain ⟨vs, hvs, hlog⟩ := hidle.log
    refine ⟨⟨vs, hvs, .inl ?_⟩, fun _ => hfree hidle.inService, fun _ _ _ _ =>
      hfree hidle.inService⟩
    rw [← hidle.inService, ← hlog]
  · obtain ⟨vs, hvs, hlog⟩ := hpending.log
    refine ⟨⟨vs, hvs, .inr ⟨v, hpending.vector, ?_, fun hreturns => ?_⟩⟩, fun hif => ?_,
      fun a fs top hthread => ?_⟩
    · rw [← hpending.inService, ← hlog]
    · obtain ⟨es, s', hrun, hes, hlapic⟩ := hpending.acknowledges (b := b) hreturns
      refine ⟨es, s', hrun, hes, ?_⟩
      rw [hlapic, hlog, acknowledged_append]
    · rw [hpending.masked] at hif
      cases hif
    · -- what runs is an exception or the dispatcher
      obtain ⟨es, d, rest, hstack, hes, -⟩ := hpending.running
      rw [hstack] at top
      cases es with
      | nil =>
          obtain ⟨rfl, -⟩ := List.cons.inj top
          rcases hthread with h | h | ⟨_, _, h⟩ <;> cases h
      | cons a' es =>
          obtain ⟨rfl, -⟩ := List.cons.inj top
          have ha := hes a' List.mem_cons_self
          rcases hthread with rfl | rfl | ⟨_, _, rfl⟩ <;> exact ha.elim

/-- The timer's handler switches to a fresh thread, which sets `IF`: further ticks
are not withheld from it. -/
theorem eoi_discipline_freshThread :
    ∃ s : Interrupts Nat, s.running = 1 ∧ s.iflag = true ∧
      s.lapic.log = [.delivered 32, .eoi 32 32] ∧ ¬ s.lapic.Withholds 32 := by
  let s₀ : Interrupts Nat := ⟨true, ⟨∅, []⟩, 0, Function.update (fun _ => []) 0 [.body]⟩
  let es : List (InterruptEvent Nat) := [.create 1, .deliver 32, .exec, .exec, .exec,
    .slice true, .exec, .exec, .exec, .exec, .exec, .exec, .exec, .other true, .exec, .exec,
    .switchTo 1, .exec]
  have hrun : ((System.runAll Interrupts.after s₀ es).map
      (fun s => (s.running, s.iflag, s.lapic.log))) =
      some (1, true, [.delivered 32, .eoi 32 32]) := by
    decide +kernel
  obtain ⟨s, hs, hview⟩ := Option.map_eq_some_iff.mp hrun
  obtain ⟨hrunning, hrest⟩ := Prod.mk.inj hview
  obtain ⟨hif, hlog⟩ := Prod.mk.inj hrest
  have hreach : (interruptSystem Nat 0).Reachable s :=
    (System.run_of_runAll (fun _ _ _ hstep => hstep) hs).reachable (.init ⟨rfl, rfl, rfl⟩)
  exact ⟨s, hrunning, hif, hlog, ((eoi_discipline hreach).2.1 hif).2 32⟩

end Steps

end QuinKernel
