import QuinKernel.Keyboard.Model
import QuinKernel.Machine.RingBuffer

/-!
# The keyboard buffer is a queue

Writer and reader share the two indices without a lock. What makes that sound
is that each index is moved by one side only, and each side moves its own after
it has used the cell: the interrupt stores before it moves `buffer_head`, the
reader loads before it moves `buffer_tail`. So at every statement of the reader
the cells between the indices hold exactly the accepted characters not yet
read (`KeyboardOk`), whatever interrupts came in between.
-/

namespace QuinKernel

open Machine

/-! ## The indices -/

theorem nextIndex_toNat (i : BitVec 32) :
    (Keyboard.nextIndex i).toNat = (i.toNat + 1) % 256 := by
  unfold Keyboard.nextIndex keyboardBufferSize
  rw [BitVec.toNat_umod, BitVec.toNat_add]
  show (i.toNat + 1) % 2 ^ 32 % 256 = _
  omega

/-- The ring of the driver holds `q`. -/
def Keyboard.Holds (k : Keyboard) (q : List Char) : Prop :=
  RingHolds 256 k.buffer k.bufferHead.toNat k.bufferTail.toNat q

namespace Keyboard.Holds

variable {k : Keyboard} {q : List Char}

theorem empty_iff (h : k.Holds q) : k.bufferTail = k.bufferHead ↔ q = [] := by
  rw [← BitVec.toNat_inj]
  exact RingHolds.empty_iff h

/-- `buffer_push` finds the buffer full exactly when 255 characters are in it. -/
theorem full_iff (h : k.Holds q) : k.Full ↔ q.length = 255 := by
  unfold Keyboard.Full
  rw [← BitVec.toNat_inj, nextIndex_toNat, RingHolds.full_iff h]
  omega

theorem length_le (h : k.Holds q) : q.length ≤ 255 := Nat.le_of_lt_succ h.room

theorem push (h : k.Holds q) (c : Char) :
    (bufferPush k c).Holds (if k.Full then q else q ++ [c]) := by
  unfold bufferPush
  split
  · exact h
  · next hfull =>
      have hroom := h.length_le
      rw [h.full_iff] at hfull
      have hpush := RingHolds.push h (by omega) c
      rw [← nextIndex_toNat] at hpush
      exact hpush

/-- The reader's last statement takes the oldest character out. -/
theorem pop {c : Char} (h : k.Holds (c :: q)) :
    Keyboard.Holds { k with bufferTail := nextIndex k.bufferTail } q := by
  have hpop := RingHolds.pop h
  rw [← nextIndex_toNat] at hpop
  exact hpop

end Keyboard.Holds

/-- What the interrupt does: `buffer_push` of the character it decodes, or
nothing to the buffer. -/
theorem keyboardIsr_cases (k : Keyboard) (scancode : BitVec 8) :
    (∃ c, decoded k scancode = some c ∧ c ≠ '\x00' ∧ keyboardIsr k scancode = bufferPush k c) ∨
    (decoded k scancode = none ∧ ∃ shift, keyboardIsr k scancode = { k with shiftHeld := shift }) := by
  unfold decoded keyboardIsr
  dsimp only
  by_cases hshift : scancode &&& ~~~scancodeReleaseBit = scancodeLeftShift ∨
      scancode &&& ~~~scancodeReleaseBit = scancodeRightShift
  · right
    rw [if_pos hshift, if_pos (by tauto)]
    exact ⟨rfl, _, rfl⟩
  · rw [if_neg hshift]
    by_cases hnone : scancode &&& scancodeReleaseBit ≠ 0 ∨
        (scancode &&& ~~~scancodeReleaseBit).toNat ≥ unshiftedTable.length
    · right
      rw [if_pos hnone, if_pos (by tauto)]
      exact ⟨rfl, k.shiftHeld, rfl⟩
    · rw [if_neg hnone, if_neg (by tauto)]
      generalize (if k.shiftHeld = true then shiftedTable else unshiftedTable).getD
        (scancode &&& ~~~scancodeReleaseBit).toNat '\x00' = c
      by_cases hc : c ≠ '\x00'
      · left
        rw [if_pos hc, if_pos hc]
        exact ⟨c, rfl, hc, rfl⟩
      · right
        rw [if_neg hc, if_neg hc]
        exact ⟨rfl, k.shiftHeld, rfl⟩

/-! ## The invariant -/

/-- What the reader knows between its statements, with `q` unread. -/
def ReaderOk (s : KeyboardState) (q : List Char) : Prop :=
  match s.reader with
  | .idle | .check => True
  | .fetch => q ≠ [] ∧ s.emptyAtCheck = false
  | .advance c => q.head? = some c ∧ s.emptyAtCheck = false
  | .ret c => c = '\x00' ↔ s.emptyAtCheck = true

/-- The buffer holds `q`, and every accepted character is read, in order, or in
`q`. -/
structure KeyboardOk (s : KeyboardState) (q : List Char) : Prop where
  ring : s.kbd.Holds q
  log : s.accepted = s.read ++ q
  chars : '\x00' ∉ s.accepted
  reader : ReaderOk s q

section Steps

variable {s s' : KeyboardState} {q : List Char}

/-- The unread characters are what the log has beyond those read. -/
theorem KeyboardOk.unread_eq (h : KeyboardOk s q) : s.unread = q := by
  unfold KeyboardState.unread
  rw [h.log, List.drop_left]

/-- More unread characters are no news to the reader. -/
theorem ReaderOk.grow (h : ReaderOk s q) (more : List Char) : ReaderOk s (q ++ more) := by
  unfold ReaderOk at h ⊢
  cases hreader : s.reader with
  | idle => trivial
  | check => trivial
  | fetch =>
      rw [hreader] at h
      exact ⟨List.append_ne_nil_of_left_ne_nil h.1 more, h.2⟩
  | advance c =>
      rw [hreader] at h
      refine ⟨?_, h.2⟩
      rw [List.head?_append, h.1]
      rfl
  | ret c =>
      rw [hreader] at h
      exact h

/-- The characters `buffer_push` stores for a scancode. -/
def KeyboardState.stores (s : KeyboardState) (scancode : BitVec 8) : List Char :=
  if s.kbd.Full then [] else (decoded s.kbd scancode).toList

/-- The interrupt appends the character it stores. -/
theorem isr_accepted (s : KeyboardState) (scancode : BitVec 8) :
    (s.isr scancode).accepted = s.accepted ++ s.stores scancode := by
  unfold KeyboardState.isr KeyboardState.stores
  cases decoded s.kbd scancode with
  | none =>
      dsimp only
      rw [Option.toList_none, ite_self, List.append_nil]
  | some c =>
      dsimp only
      split
      · exact (List.append_nil _).symm
      · rfl

/-- The interrupt appends the character it accepts to the unread ones. -/
theorem KeyboardOk.isr (h : KeyboardOk s q) (scancode : BitVec 8) :
    KeyboardOk (s.isr scancode) (q ++ s.stores scancode) := by
  have hacc := isr_accepted s scancode
  have hkbd : (s.isr scancode).kbd = keyboardIsr s.kbd scancode := rfl
  refine ⟨?_, ?_, ?_, h.reader.grow _⟩
  · rw [hkbd]
    unfold KeyboardState.stores
    rcases keyboardIsr_cases s.kbd scancode with ⟨c, hdec, -, heq⟩ | ⟨hdec, shift, heq⟩
    · rw [heq, hdec]
      have hpush := h.ring.push c
      split at hpush
      · next hfull =>
          rw [if_pos hfull, List.append_nil]
          exact hpush
      · next hfull =>
          rw [if_neg hfull]
          exact hpush
    · rw [heq, hdec, Option.toList_none, ite_self, List.append_nil]
      exact h.ring
  · rw [hacc, h.log, List.append_assoc]
    rfl
  · rw [hacc]
    intro hmem
    rcases List.mem_append.mp hmem with hmem | hmem
    · exact h.chars hmem
    · unfold KeyboardState.stores at hmem
      split at hmem
      · cases hmem
      · rcases keyboardIsr_cases s.kbd scancode with ⟨c, hdec, hc, -⟩ | ⟨hdec, -⟩
        · rw [hdec] at hmem
          exact hc (List.mem_singleton.mp hmem).symm
        · rw [hdec] at hmem
          cases hmem

/-- Every statement of the reader keeps the invariant; only the step of
`buffer_tail` takes a character out. -/
theorem KeyboardOk.statement (h : KeyboardOk s q) (hstep : s.statement = some s') :
    KeyboardOk s' (match s.reader with | .advance _ => q.tail | _ => q) := by
  have hreader := h.reader
  have hlog := h.log
  unfold KeyboardState.statement at hstep
  unfold ReaderOk at hreader
  unfold KeyboardState.read at hlog
  cases hpc : s.reader <;> rw [hpc] at hstep hreader hlog
  case idle => cases hstep
  case check =>
    obtain rfl := Option.some.inj hstep
    have hempty : s.kbd.bufferTail = s.kbd.bufferHead ↔ s.unread = [] := by
      rw [h.unread_eq]
      exact h.ring.empty_iff
    by_cases hq : s.unread = []
    · refine ⟨h.ring, ?_, h.chars, ?_⟩
      · unfold KeyboardState.read
        rw [if_pos (hempty.mpr hq)]
        exact hlog
      · unfold ReaderOk
        rw [if_pos (hempty.mpr hq)]
        exact iff_of_true rfl (decide_eq_true hq)
    · refine ⟨h.ring, ?_, h.chars, ?_⟩
      · unfold KeyboardState.read
        rw [if_neg (mt hempty.mp hq)]
        exact hlog
      · unfold ReaderOk
        rw [if_neg (mt hempty.mp hq)]
        exact ⟨h.unread_eq ▸ hq, decide_eq_false hq⟩
  case fetch =>
    obtain rfl := Option.some.inj hstep
    obtain ⟨hne, hcheck⟩ := hreader
    obtain ⟨c, rest, rfl⟩ := List.exists_cons_of_ne_nil hne
    refine ⟨h.ring, hlog, h.chars, ?_, hcheck⟩
    rw [List.head?_cons, RingHolds.front h.ring]
  case advance c =>
    obtain rfl := Option.some.inj hstep
    obtain ⟨hhead, hcheck⟩ := hreader
    obtain ⟨rest, rfl⟩ := List.head?_eq_some_iff.mp hhead
    -- the character was accepted, so it is not NUL
    have hc : c ≠ '\x00' := by
      rintro rfl
      exact h.chars (h.log ▸ List.mem_append_right _ List.mem_cons_self)
    refine ⟨h.ring.pop, ?_, h.chars, ?_⟩
    · unfold KeyboardState.read
      simp only [List.append_nil] at hlog
      simp [hlog, hc]
    · exact iff_of_false hc (by simp [hcheck])
  case ret c =>
    obtain rfl := Option.some.inj hstep
    refine ⟨h.ring, ?_, h.chars, trivial⟩
    unfold KeyboardState.read
    rw [List.filter_append, List.append_nil]
    exact hlog

/-- **The ring holds the unread characters** in every reachable state. -/
theorem keyboardOk_invariant : keyboardSystem.Invariant (fun s => ∃ q, KeyboardOk s q) := by
  refine System.Inductive.invariant ⟨?_, ?_⟩
  · rintro s rfl
    exact ⟨[], RingHolds.nil (by decide), rfl, List.not_mem_nil, trivial⟩
  · rintro s e s' ⟨q, h⟩ hstep
    cases e with
    | isr scancode =>
        obtain rfl := Option.some.inj hstep
        exact ⟨_, h.isr scancode⟩
    | call =>
        have hstep : (if s.reader = .idle then some { s with reader := .check } else none) =
          some s' := hstep
        split at hstep
        · next hidle =>
            obtain rfl := Option.some.inj hstep
            refine ⟨q, h.ring, ?_, h.chars, trivial⟩
            have hlog := h.log
            unfold KeyboardState.read at hlog ⊢
            rw [hidle] at hlog
            exact hlog
        · cases hstep
    | statement => exact ⟨_, h.statement hstep⟩

end Steps

/-- **The keyboard buffer is a FIFO queue of 255 characters**, whatever
interrupts come between the reader's statements. In every reachable state the
characters read, in order, and after them the unread ones are the accepted
ones; the reader is about to take the oldest unread one, and returns NUL
exactly when none was unread at its check; a decoded character joins the queue,
except that it is dropped when 255 are unread. -/
theorem keyboard_buffer_fifo {s : KeyboardState} (h : keyboardSystem.Reachable s) :
    s.accepted = s.read ++ s.unread ∧ s.unread.length ≤ 255 ∧
    (∀ c, s.reader = .advance c → s.unread.head? = some c) ∧
    (∀ c, s.reader = .ret c → (c = '\x00' ↔ s.emptyAtCheck = true)) ∧
    ∀ scancode, (s.isr scancode).unread =
      if s.unread.length = 255 then s.unread
      else s.unread ++ (decoded s.kbd scancode).toList := by
  obtain ⟨q, hok⟩ := keyboardOk_invariant s h
  have hunread := hok.unread_eq
  refine ⟨hunread ▸ hok.log, hunread ▸ hok.ring.length_le, ?_, ?_, ?_⟩
  · intro c hpc
    have hreader := hok.reader
    unfold ReaderOk at hreader
    rw [hpc] at hreader
    exact hunread ▸ hreader.1
  · intro c hpc
    have hreader := hok.reader
    unfold ReaderOk at hreader
    rw [hpc] at hreader
    exact hreader
  · intro scancode
    rw [(hok.isr scancode).unread_eq, hunread]
    unfold KeyboardState.stores
    by_cases hfull : s.kbd.Full
    · rw [if_pos hfull, if_pos (hok.ring.full_iff.mp hfull), List.append_nil]
    · rw [if_neg hfull, if_neg (mt hok.ring.full_iff.mpr hfull)]

/-- Two keystrokes and one call: the first character is read, the second waits. -/
theorem keyboard_buffer_fifo_twoKeys :
    ∃ s : KeyboardState, s.results = ['a'] ∧ s.unread = ['B'] ∧ s.accepted = s.read ++ s.unread := by
  let es : List KeyboardEvent := [.isr 0x1e, .call, .statement, .statement, .isr 0x2a,
    .isr 0x30, .statement, .statement]
  have hrun : (System.runAll KeyboardState.after KeyboardState.start es).map
      (fun s => (s.results, s.unread)) = some (['a'], ['B']) := by decide +kernel
  obtain ⟨s, hs, hview⟩ := Option.map_eq_some_iff.mp hrun
  have hreach : keyboardSystem.Reachable s :=
    (System.run_of_runAll (fun _ _ _ h => h) hs).reachable (.init rfl)
  obtain ⟨hresults, hunread⟩ := Prod.mk.inj hview
  exact ⟨s, hresults, hunread, (keyboard_buffer_fifo hreach).1⟩

end QuinKernel
