import QuinKernel.Serial.Model

/-!
# Sharing the serial port

Nothing keeps two contexts from being in `serial_putc` at once: one may see the
transmit queue empty, and another write to it before the first does. What saves
the bytes is the FIFO that `serial_init` turns on. A context that has seen the
queue empty writes one byte, so with sixteen contexts there is room for all
(`PolledQueue`), and with one more there is a run that loses a byte.

`shared_run` splits a run in two: what the port saw of it is a run of the polled
queue, and what each context wrote in it, with what it still has to send, is what
its calls said.
-/

namespace QuinKernel

open Machine

/-- What `serial_init` leaves: 8N1 at 38400 baud, the FIFOs on and the loopback off.
Interrupts are off if offset 1 was not the divisor to start with: the write comes
before the one that makes sure of that. -/
theorem serialInit_regs (u : UartRegs) (echo : Byte) :
    (serialInit u echo).2 =
      { intEnable := if u.divisorLatch then u.intEnable else 0x00
        fifoCtrl := 0xc7
        lineCtrl := 0x03
        modemCtrl := 0x0f
        divisorLow := 0x03
        divisorHigh := 0x00 } := by
  -- from the second write on the divisor latch is what was written to it
  have hrest : ∀ v : UartRegs, serialInitWrites.tail.foldl (fun u w => u.outb w.1 w.2) v =
      ⟨v.intEnable, 0xc7, 0x03, 0x0f, 0x03, 0x00⟩ := by
    intro v
    simp [serialInitWrites, UartRegs.outb, UartRegs.divisorLatch, regIntEnable, regLineCtrl,
      regData, regFifoCtrl, regModemCtrl]
  have hfirst : (u.outb regIntEnable 0x00).intEnable =
      if u.divisorLatch then u.intEnable else 0x00 := by
    cases h : u.divisorLatch
    · simp [UartRegs.outb, regIntEnable, regData, h]
    · simp [UartRegs.outb, regIntEnable, regData, h]
  rw [← hfirst]
  exact hrest _

theorem serialInit_depth (u : UartRegs) (echo : Byte) : (serialInit u echo).2.depth = 16 := by
  have hfifo : (0xc7 : Byte).getLsbD 0 = true := by decide
  rw [serialInit_regs]
  exact if_pos hfifo

/-! ## What is said, and what is left to send -/

/-- The bytes an activation has still to send. -/
def PutcFrame.bytes (f : PutcFrame) : List Byte :=
  match f.pc with
  | .present | .newline => serialBytes f.c
  | .poll | .store => textBytes [f.c]

/-- The bytes a context has still to send. -/
def Writer.toSend (w : Writer) : List Byte :=
  w.frames.flatMap PutcFrame.bytes ++ w.text.flatMap serialBytes

/-- The bytes of one context. -/
def bytesFrom {T : Type} [DecidableEq T] (t : T) (ps : List (T × Byte)) : List Byte :=
  (ps.filter (fun p => p.1 = t)).map Prod.snd

/-- What a call of `t` says, at a minimum level. -/
def SerialEvent.text {T : Type} [DecidableEq T] (t : T) (minLevel : LogLevel) :
    SerialEvent T → List Char
  | .write u str => if u = t then str else []
  | .log u level fmt ap =>
      if u = t ∧ minLevel.value ≤ level.value then (logText level fmt ap).getD [] else []
  | _ => []

/-- The minimum level after an event. -/
def SerialEvent.minLevelAfter {T : Type} (minLevel : LogLevel) : SerialEvent T → LogLevel
  | .setMinLevel level => level
  | _ => minLevel

/-- What the calls of `t` say in a run. -/
def said {T : Type} [DecidableEq T] (t : T) : LogLevel → List (SerialEvent T) → List Char
  | _, [] => []
  | minLevel, e :: es => e.text t minLevel ++ said t (e.minLevelAfter minLevel) es

variable {T : Type} [DecidableEq T]

@[simp] theorem toSend_idle : Writer.idle.toSend = [] := rfl

@[simp] theorem bytesFrom_nil (t : T) : bytesFrom t [] = [] := rfl

theorem bytesFrom_append (t : T) (ps qs : List (T × Byte)) :
    bytesFrom t (ps ++ qs) = bytesFrom t ps ++ bytesFrom t qs := by
  simp [bytesFrom]

/-! ## The port's view -/

namespace SerialState

/-- The context has seen the queue empty and is about to write. -/
def aboutToStore (s : SerialState T) (t : T) : Bool :=
  match (s.writer t).frames with
  | ⟨.store, _⟩ :: _ => true
  | _ => false

/-- The port as a queue that contexts poll. -/
def view (s : SerialState T) : PolledQueue T Byte := ⟨s.queue, s.line, s.aboutToStore⟩

variable {s s' : SerialState T} {t : T} {w : Writer}

theorem goto_view (h : s.aboutToStore t = false)
    (hw : ∀ c rest, w.frames ≠ ⟨.store, c⟩ :: rest) : (s.goto t w).view = s.view := by
  have hready : (s.goto t w).aboutToStore = s.aboutToStore := by
    funext u
    by_cases hut : u = t
    · subst hut
      rw [h]
      unfold aboutToStore goto
      dsimp only
      rw [Function.update_self]
      split
      · next c rest heq => exact absurd heq (hw c rest)
      · rfl
    · unfold aboutToStore goto
      dsimp only
      rw [Function.update_of_ne hut]
  unfold view
  rw [hready]
  rfl

omit [DecidableEq T] in
theorem transmitEmpty_iff : s.transmitEmpty = true ↔ s.queue = [] := by
  unfold transmitEmpty lineStatus
  by_cases h : s.queue = []
  · simp [h]
  · simp [h]

end SerialState

/-! ## What a step shows -/

/-- What the port sees of a step, and what comes out of it for each context. -/
structure StepShows (s : SerialState T) (e : SerialEvent T) (s' : SerialState T) : Prop where
  present : s'.serialPresent = s.serialPresent
  uart : s'.uart = s.uart
  minLevel : s'.minLevel = e.minLevelAfter s.minLevel
  port : ∃ fs, (PolledQueue.system s.uart.depth).Run s.view fs s'.view ∧
    ∀ t, bytesFrom t (PolledQueue.written fs) ++ (s'.writer t).toSend =
      (s.writer t).toSend ++ (e.text t s.minLevel).flatMap serialBytes

variable {s s' : SerialState T} {e : SerialEvent T} {t : T} {w : Writer}

theorem toSend_goto (u : T) : ((s.goto t w).writer u).toSend =
    if u = t then w.toSend else (s.writer u).toSend := by
  unfold SerialState.goto
  dsimp only
  by_cases hut : u = t
  · rw [hut, Function.update_self, if_pos rfl]
  · rw [Function.update_of_ne hut, if_neg hut]

/-- A statement that does not touch the port. -/
theorem StepShows.quiet (hview : (s.goto t w).view = s.view)
    (hlevel : e.minLevelAfter s.minLevel = s.minLevel)
    (hsend : w.toSend = (s.writer t).toSend ++ (e.text t s.minLevel).flatMap serialBytes)
    (hother : ∀ u, u ≠ t → e.text u s.minLevel = []) : StepShows s e (s.goto t w) := by
  refine ⟨rfl, rfl, hlevel.symm, [], hview ▸ .nil _, fun u => ?_⟩
  rw [toSend_goto]
  by_cases hut : u = t
  · rw [hut, if_pos rfl, hsend]
    rfl
  · rw [if_neg hut, hother u hut]
    simp [PolledQueue.written]

/-- A poll that sees the queue empty. -/
theorem StepShows.poll {c : Char} {rest : List PutcFrame}
    (hframes : (s.writer t).frames = ⟨.poll, c⟩ :: rest) (hempty : s.queue = []) :
    StepShows s (.statement t) (s.goto t { s.writer t with frames := ⟨.store, c⟩ :: rest }) := by
  have hview : (s.goto t { s.writer t with frames := ⟨.store, c⟩ :: rest }).view =
      { s.view with ready := Function.update s.view.ready t true } := by
    refine congrArg (PolledQueue.mk s.queue s.line) (funext fun u => ?_)
    by_cases hut : u = t
    · simp [hut, SerialState.aboutToStore, SerialState.goto]
    · simp [hut, SerialState.aboutToStore, SerialState.goto, SerialState.view]
  refine ⟨rfl, rfl, rfl, [.poll t], .single ⟨hempty, hview⟩, fun u => ?_⟩
  rw [toSend_goto]
  by_cases hut : u = t
  · simp [hut, PolledQueue.written, SerialEvent.text, Writer.toSend, hframes, PutcFrame.bytes]
  · simp [hut, PolledQueue.written, SerialEvent.text]

/-- A byte handed to the port. -/
theorem StepShows.store {c : Char} {rest : List PutcFrame}
    (hframes : (s.writer t).frames = ⟨.store, c⟩ :: rest)
    (hrest : ∀ c' rest', rest ≠ ⟨.store, c'⟩ :: rest') :
    StepShows s (.statement t) { s.goto t { s.writer t with frames := rest } with
      queue := offer s.uart.depth s.queue (t, BitVec.ofNat 8 c.toNat) } := by
  have hready : s.view.ready t = true := by
    simp [SerialState.view, SerialState.aboutToStore, hframes]
  have hview : ∀ queue, ({ s.goto t { s.writer t with frames := rest } with
      queue := queue } : SerialState T).view =
      { s.view with queue := queue, ready := Function.update s.view.ready t false } := by
    intro queue
    refine congrArg (PolledQueue.mk queue s.line) (funext fun u => ?_)
    by_cases hut : u = t
    · simp [hut, SerialState.aboutToStore, SerialState.goto]
    · simp [hut, SerialState.aboutToStore, SerialState.goto, SerialState.view]
  refine ⟨rfl, rfl, rfl, [.write t (BitVec.ofNat 8 c.toNat)], .single ⟨hready, hview _⟩,
    fun u => ?_⟩
  have hsend := toSend_goto (s := s) (t := t) (w := { s.writer t with frames := rest }) u
  change _ ++ ((s.goto t { s.writer t with frames := rest }).writer u).toSend = _
  rw [hsend]
  by_cases hut : u = t
  · simp [hut, PolledQueue.written, SerialEvent.text, Writer.toSend, hframes, PutcFrame.bytes,
      bytesFrom, textBytes]
  · simp [hut, PolledQueue.written, SerialEvent.text, bytesFrom, Ne.symm hut]

/-- Only the innermost activation is past its own calls. -/
def Nested (frames : List PutcFrame) : Prop := ∀ f ∈ frames.tail, f.pc = .poll

/-- Every context's activations are nested. -/
def SerialState.Ok (s : SerialState T) : Prop := ∀ t, Nested (s.writer t).frames

theorem Nested.not_store {f : PutcFrame} {rest : List PutcFrame} (h : Nested (f :: rest)) (c : Char)
    (rest' : List PutcFrame) : rest ≠ ⟨.store, c⟩ :: rest' := by
  intro heq
  have hpoll := h ⟨.store, c⟩ (by simp [heq])
  cases hpoll

/-- **A statement**, with the port present. -/
theorem StepShows.statement (hs : s.Ok) (hpresent : s.serialPresent = true)
    (h : s.statement t = some s') : StepShows s (.statement t) s' := by
  unfold SerialState.statement at h
  dsimp only at h
  split at h
  · next hframes =>
      split at h
      · cases h
      · -- the next character of the text is handed to `serial_putc`
        next c text htext =>
          obtain rfl := Option.some.inj h
          refine .quiet (SerialState.goto_view ?_ ?_) rfl ?_ (fun _ _ => rfl)
          · simp [SerialState.aboutToStore, hframes]
          · simp
          · simp [Writer.toSend, hframes, htext, PutcFrame.bytes, SerialEvent.text]
  · next c rest hframes =>
      obtain rfl := Option.some.inj h
      rw [if_pos hpresent]
      refine .quiet (SerialState.goto_view ?_ ?_) rfl ?_ (fun _ _ => rfl)
      · simp [SerialState.aboutToStore, hframes]
      · simp
      · simp [Writer.toSend, hframes, PutcFrame.bytes, SerialEvent.text]
  · next c rest hframes =>
      obtain rfl := Option.some.inj h
      refine .quiet (SerialState.goto_view ?_ ?_) rfl ?_ (fun _ _ => rfl)
      · simp [SerialState.aboutToStore, hframes]
      · -- a line feed calls `serial_putc` for the carriage return first
        by_cases hc : c = '\n'
        · simp [hc]
        · simp [hc]
      · by_cases hc : c = '\n'
        · simp [Writer.toSend, hframes, hc, PutcFrame.bytes, SerialEvent.text, serialBytes,
            textBytes]
        · simp [Writer.toSend, hframes, hc, PutcFrame.bytes, SerialEvent.text, serialBytes]
  · next c rest hframes =>
      obtain rfl := Option.some.inj h
      by_cases hempty : s.transmitEmpty = true
      · rw [if_pos hempty]
        exact .poll hframes (SerialState.transmitEmpty_iff.mp hempty)
      · rw [if_neg hempty]
        -- the port is busy, and the poll is made again
        refine ⟨rfl, rfl, rfl, [], .nil _, fun u => ?_⟩
        simp [PolledQueue.written, SerialEvent.text]
  · next c rest hframes =>
      obtain rfl := Option.some.inj h
      have hnested := hs t
      rw [hframes] at hnested
      exact .store hframes hnested.not_store

theorem SerialState.Ok.goto (hs : s.Ok) (hw : Nested w.frames) : (s.goto t w).Ok := by
  intro u
  unfold SerialState.goto
  dsimp only
  by_cases hut : u = t
  · rwa [hut, Function.update_self]
  · rw [Function.update_of_ne hut]
    exact hs u

theorem SerialState.Ok.statement (hs : s.Ok) (h : s.statement t = some s') : s'.Ok := by
  have hnested := hs t
  unfold SerialState.statement at h
  dsimp only at h
  split at h
  · split at h
    · cases h
    · obtain rfl := Option.some.inj h
      exact hs.goto (by simp [Nested])
  · next c rest hframes =>
      rw [hframes] at hnested
      obtain rfl := Option.some.inj h
      refine hs.goto ?_
      split
      · exact hnested
      · exact fun f hf => hnested f (List.mem_of_mem_tail hf)
  · next c rest hframes =>
      rw [hframes] at hnested
      obtain rfl := Option.some.inj h
      refine hs.goto ?_
      dsimp only
      split
      · intro f hf
        rcases List.mem_cons.mp hf with rfl | hf
        · rfl
        · exact hnested f hf
      · exact hnested
  · next c rest hframes =>
      rw [hframes] at hnested
      obtain rfl := Option.some.inj h
      split
      · exact hs.goto hnested
      · exact hs
  · next c rest hframes =>
      rw [hframes] at hnested
      obtain rfl := Option.some.inj h
      have hrest : Nested rest := fun f hf => hnested f (List.mem_of_mem_tail hf)
      exact SerialState.Ok.goto (t := t) (w := { s.writer t with frames := rest }) hs hrest

/-- **One step**, with the port present: what the port sees, and that what is said
is written or still to be sent. -/
theorem step_shows (hs : s.Ok) (hpresent : s.serialPresent = true) (h : s.after e = some s') :
    StepShows s e s' ∧ s'.Ok := by
  cases e with
  | write t str =>
      simp only [SerialState.after] at h
      split at h
      · next hidle =>
          obtain rfl := Option.some.inj h
          refine ⟨.quiet (SerialState.goto_view ?_ ?_) rfl ?_ ?_, hs.goto (by simp [Nested])⟩
          · simp [SerialState.aboutToStore, hidle, Writer.idle]
          · simp
          · rw [hidle, toSend_idle]
            simp [Writer.toSend, SerialEvent.text]
          · intro u hu
            simp [SerialEvent.text, Ne.symm hu]
      · cases h
  | log t level fmt ap =>
      simp only [SerialState.after] at h
      split at h
      · next hidle =>
          split at h
          · -- below the minimum level nothing is said
            next hlow =>
              obtain rfl := Option.some.inj h
              refine ⟨⟨rfl, rfl, rfl, [], .nil _, fun u => ?_⟩, hs⟩
              have hdropped : ¬ s.minLevel.value ≤ level.value := by omega
              simp [PolledQueue.written, SerialEvent.text, hdropped]
          · next hhigh =>
              obtain ⟨text, htext, rfl⟩ := Option.map_eq_some_iff.mp h
              have hshown : s.minLevel.value ≤ level.value := by omega
              refine ⟨.quiet (SerialState.goto_view ?_ ?_) rfl ?_ ?_, hs.goto (by simp [Nested])⟩
              · simp [SerialState.aboutToStore, hidle, Writer.idle]
              · simp
              · rw [hidle, toSend_idle]
                simp [Writer.toSend, SerialEvent.text, hshown, htext]
              · intro u hu
                simp [SerialEvent.text, Ne.symm hu]
      · cases h
  | setMinLevel level =>
      obtain rfl := Option.some.inj h
      refine ⟨⟨rfl, rfl, rfl, [], .nil _, fun u => ?_⟩, hs⟩
      simp [PolledQueue.written, SerialEvent.text]
  | statement t => exact ⟨.statement hs hpresent h, hs.statement h⟩
  | send =>
      simp only [SerialState.after] at h
      split at h
      · cases h
      · next p rest hqueue =>
          obtain rfl := Option.some.inj h
          refine ⟨⟨rfl, rfl, rfl, [.send], .single ⟨p, rest, hqueue, rfl⟩, fun u => ?_⟩, hs⟩
          simp [PolledQueue.written, SerialEvent.text]

/-- **A run** of the port is a run of a polled queue, and what each context said is
written to it or still to be sent. -/
theorem shared_run {es : List (SerialEvent T)} (hrun : (serialSystem T).Run s es s') (hs : s.Ok)
    (hpresent : s.serialPresent = true) :
    ∃ fs, (PolledQueue.system s.uart.depth).Run s.view fs s'.view ∧
      ∀ t, bytesFrom t (PolledQueue.written fs) ++ (s'.writer t).toSend =
        (s.writer t).toSend ++ (said t s.minLevel es).flatMap serialBytes := by
  induction hrun with
  | nil =>
      refine ⟨[], .nil _, fun t => ?_⟩
      simp [PolledQueue.written, said]
  | @cons s s₁ s' e es hstep _ ih =>
      obtain ⟨hshows, hs₁⟩ := step_shows hs hpresent hstep
      obtain ⟨fs₁, hport₁, hwritten₁⟩ := hshows.port
      obtain ⟨fs₂, hport₂, hwritten₂⟩ := ih hs₁ (hshows.present.trans hpresent)
      rw [hshows.uart] at hport₂
      refine ⟨fs₁ ++ fs₂, hport₁.append hport₂, fun t => ?_⟩
      calc bytesFrom t (PolledQueue.written (fs₁ ++ fs₂)) ++ (s'.writer t).toSend
          = bytesFrom t (PolledQueue.written fs₁) ++
              (bytesFrom t (PolledQueue.written fs₂) ++ (s'.writer t).toSend) := by
            rw [PolledQueue.written_append, bytesFrom_append, List.append_assoc]
        _ = (bytesFrom t (PolledQueue.written fs₁) ++ (s₁.writer t).toSend) ++
              (said t s₁.minLevel es).flatMap serialBytes := by
            rw [hwritten₂, List.append_assoc]
        _ = (s.writer t).toSend ++ (said t s.minLevel (e :: es)).flatMap serialBytes := by
            rw [hwritten₁, hshows.minLevel, said, List.flatMap_append, List.append_assoc]

/-! ## A run that loses bytes -/

/-- A context writes one character, up to the store. -/
def armOne (t : T) : List (SerialEvent T) :=
  .write t ['x'] :: List.replicate 4 (.statement t)

theorem armOne_run (hidle : s.writer t = .idle) (hempty : s.queue = [])
    (hpresent : s.serialPresent = true) :
    (serialSystem T).Run s (armOne t) (s.goto t ⟨[⟨.store, 'x'⟩], []⟩) := by
  have hgoto : ∀ w w', (s.goto t w).goto t w' = s.goto t w' := by
    intro w w'
    simp [SerialState.goto]
  have hwriter : ∀ w, (s.goto t w).writer t = w := fun w => by simp [SerialState.goto]
  have hready : ∀ w, (s.goto t w).transmitEmpty = true := fun w =>
    SerialState.transmitEmpty_iff.mpr hempty
  have hthere : ∀ w, (s.goto t w).serialPresent = true := fun _ => hpresent
  refine System.run_of_runAll (fun _ _ _ h => h) ?_
  simp [armOne, System.runAll, SerialState.after, SerialState.statement, hidle, hwriter, hgoto,
    hready, hthere, List.replicate]

/-- Every context of a list is about to store. -/
theorem armAll_run (hpresent : s.serialPresent = true) (hempty : s.queue = []) :
    ∀ {ts : List T}, ts.Nodup → (∀ t ∈ ts, s.writer t = .idle) →
    ∃ s', (serialSystem T).Run s (ts.flatMap armOne) s' ∧ s'.queue = [] ∧ s'.line = s.line ∧
      s'.uart = s.uart ∧ s'.serialPresent = true ∧
      ∀ u, s'.writer u = if u ∈ ts then ⟨[⟨.store, 'x'⟩], []⟩ else s.writer u := by
  intro ts
  induction ts generalizing s with
  | nil => exact fun _ _ => ⟨s, .nil s, hempty, rfl, rfl, hpresent, fun u => by simp⟩
  | cons t ts ih =>
      intro hnodup hidle
      obtain ⟨hnew, hnodup⟩ := List.nodup_cons.mp hnodup
      have hrun := armOne_run (hidle t List.mem_cons_self) hempty hpresent
      obtain ⟨s', hrest, hqueue, hline, huart, hthere, hwriter⟩ :=
        ih (s := s.goto t ⟨[⟨.store, 'x'⟩], []⟩) hpresent hempty hnodup (fun u hu => by
          have hne : u ≠ t := fun heq => hnew (heq ▸ hu)
          simpa [SerialState.goto, hne] using hidle u (List.mem_cons_of_mem t hu))
      refine ⟨s', hrun.append hrest, hqueue, hline, huart, hthere, fun u => ?_⟩
      rw [hwriter]
      by_cases hut : u = t
      · simp [hut, hnew, SerialState.goto]
      · simp [hut, SerialState.goto]

/-- Every context of a list stores its byte, and the queue takes what it has room
for. -/
theorem storeAll_run :
    ∀ {ts : List T} {s : SerialState T}, ts.Nodup →
    (∀ t ∈ ts, s.writer t = ⟨[⟨.store, 'x'⟩], []⟩) → s.queue.length ≤ s.uart.depth →
    ∃ s', (serialSystem T).Run s (ts.map .statement) s' ∧ s'.line = s.line ∧
      s'.queue.length ≤ s.uart.depth ∧
      ∀ u, s'.writer u = if u ∈ ts then .idle else s.writer u := by
  intro ts
  induction ts with
  | nil => exact fun {s} _ _ hqueue => ⟨s, .nil s, rfl, hqueue, fun u => by simp⟩
  | cons t ts ih =>
      intro s hnodup hwriters hqueue
      obtain ⟨hnew, hnodup⟩ := List.nodup_cons.mp hnodup
      set s₁ : SerialState T := { s.goto t .idle with
        queue := offer s.uart.depth s.queue (t, BitVec.ofNat 8 'x'.toNat) } with hs₁
      have hstep : s.statement t = some s₁ := by
        simp [SerialState.statement, hwriters t List.mem_cons_self, Writer.idle, hs₁]
      obtain ⟨s', hrest, hline, hlength, hwriter⟩ := ih (s := s₁) hnodup (fun u hu => by
        have hne : u ≠ t := fun heq => hnew (heq ▸ hu)
        simpa [hs₁, SerialState.goto, hne] using hwriters u (List.mem_cons_of_mem t hu))
        (offer_length_le hqueue _)
      refine ⟨s', .cons hstep hrest, hline, hlength, fun u => ?_⟩
      rw [hwriter]
      by_cases hut : u = t
      · simp [hs₁, hut, hnew, SerialState.goto]
      · simp [hs₁, hut, SerialState.goto]

/-- Statements say nothing. -/
theorem said_statements (t : T) (ts : List T) (minLevel : LogLevel) (es : List (SerialEvent T)) :
    said t minLevel (es ++ ts.map .statement) = said t minLevel es := by
  induction es generalizing minLevel with
  | nil =>
      induction ts with
      | nil => rfl
      | cons u ts ih => simpa [said, SerialEvent.text, SerialEvent.minLevelAfter] using ih
  | cons e es ih => simp [said, ih]

theorem mem_of_bytesFrom {ps : List (T × Byte)} (h : bytesFrom t ps ≠ []) :
    t ∈ ps.map Prod.fst := by
  obtain ⟨b, hb⟩ := List.exists_mem_of_ne_nil _ h
  obtain ⟨p, hp, -⟩ := List.mem_map.mp hb
  obtain ⟨hmem, hfst⟩ := List.mem_filter.mp hp
  exact List.mem_map.mpr ⟨p, hmem, by simpa using hfst⟩

/-! ## How many contexts the port takes -/

/-- **The port loses nothing with up to sixteen contexts, and only then.** In every run
of contexts that write and log at any levels, interleaved statement by statement with
each other and with the port's sending, the bytes of a context on the line and in the
queue, with those it has still to send, are what its calls said, in order and with a
carriage return before each newline. -/
theorem serial_port_shared_iff [Fintype T] :
    (∀ s₀ es s, (serialSystem T).init s₀ → s₀.serialPresent = true →
      (serialSystem T).Run s₀ es s → ∀ t,
        bytesFrom t (s.line ++ s.queue) ++ (s.writer t).toSend =
          (said t s₀.minLevel es).flatMap serialBytes) ↔ Fintype.card T ≤ 16 := by
  have hdepth : ∀ {s : SerialState T}, (serialSystem T).init s → s.uart.depth = 16 := by
    rintro s ⟨⟨u, echo, hinit⟩, -⟩
    rw [← serialInit_depth u echo, hinit]
  constructor
  · intro hlossless
    -- all contexts see the queue empty, and then all of them write
    let s₀ : SerialState T :=
      ⟨true, .debug, (serialInit ⟨0, 0, 0, 0, 0, 0⟩ 0xae).2, [], [], fun _ => .idle⟩
    have hinit : (serialSystem T).init s₀ :=
      ⟨⟨⟨0, 0, 0, 0, 0, 0⟩, 0xae, rfl⟩, rfl, rfl, fun _ => rfl⟩
    have hnodup : (Finset.univ : Finset T).toList.Nodup := Finset.nodup_toList _
    obtain ⟨s₁, harm, hqueue₁, hline₁, huart₁, -, hwriter₁⟩ :=
      armAll_run (s := s₀) rfl rfl hnodup (fun _ _ => rfl)
    obtain ⟨s₂, hstore, hline₂, hlength, hwriter₂⟩ := storeAll_run (s := s₁) hnodup
      (fun t ht => by rw [hwriter₁, if_pos ht]) (by rw [hqueue₁]; exact Nat.zero_le _)
    rw [huart₁, hdepth hinit] at hlength
    -- the queue holds a byte of each, and no more than sixteen
    suffices hall : (Finset.univ : Finset T) ⊆ (s₂.queue.map Prod.fst).toFinset by
      calc Fintype.card T ≤ (s₂.queue.map Prod.fst).toFinset.card := Finset.card_le_card hall
        _ ≤ (s₂.queue.map Prod.fst).length := List.toFinset_card_le _
        _ ≤ 16 := by rwa [List.length_map]
    intro t _
    rw [List.mem_toFinset]
    apply mem_of_bytesFrom
    have hmem : t ∈ (Finset.univ : Finset T).toList := by simp
    have hbefore := hlossless s₀ _ s₁ hinit rfl harm t
    have hafter := hlossless s₀ _ s₂ hinit rfl (harm.append hstore) t
    rw [said_statements, ← hbefore, hwriter₁, hwriter₂, if_pos hmem, if_pos hmem, hline₁, hqueue₁,
      hline₂, hline₁, toSend_idle, List.append_nil] at hafter
    intro hnone
    rw [show s₀.line = [] from rfl, List.nil_append, hnone] at hafter
    cases hafter
  · intro hcard s₀ es s hinit hpresent hrun t
    obtain ⟨-, hqueue, hline, hidle⟩ := id hinit
    have hs₀ : s₀.Ok := fun u => by simp [hidle u, Writer.idle, Nested]
    have hport : (PolledQueue.system s₀.uart.depth).init s₀.view := by
      refine ⟨hqueue, hline, fun u => ?_⟩
      simp [SerialState.view, SerialState.aboutToStore, hidle u, Writer.idle]
    obtain ⟨fs, hrun', hwritten⟩ := shared_run hrun hs₀ hpresent
    have hall := PolledQueue.lossless (by rwa [hdepth hinit]) hrun' (.init hport)
    have hall : s.line ++ s.queue = PolledQueue.written fs := by
      simpa [SerialState.view, hqueue, hline] using hall
    rw [hall, hwritten, hidle t, toSend_idle, List.nil_append]

end QuinKernel
