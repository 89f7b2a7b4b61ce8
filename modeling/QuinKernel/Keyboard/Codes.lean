import QuinKernel.Keyboard.Theorems

/-!
# Shift and the extended codes

`keyboard_isr` keeps one bit, `shift_held`, for two Shift keys, and none for
the prefix `0xe0`. The bit is the last Shift code seen (`shiftHeld_eq`): it
agrees with the keys unless one Shift was let go while the other stayed down,
and the second byte of an extended code is read as the ordinary code it shares
its value with.
-/

namespace QuinKernel

open Machine

/-! ## Scancodes -/

/-- A break code. -/
def isBreak (scancode : BitVec 8) : Bool := scancode &&& scancodeReleaseBit ≠ 0

/-- The key, make and break alike. -/
def keyOf (scancode : BitVec 8) : BitVec 8 := scancode &&& ~~~scancodeReleaseBit

/-- A code of one of the Shift keys. -/
def isShiftCode (scancode : BitVec 8) : Bool :=
  keyOf scancode = scancodeLeftShift ∨ keyOf scancode = scancodeRightShift

/-- The character of a make code in one of the tables. -/
def tableChar (shift : Bool) (scancode : BitVec 8) : Option Char :=
  if isBreak scancode then none
  else ((if shift then shiftedTable else unshiftedTable)[(keyOf scancode).toNat]?).filter
    (fun c => c ≠ '\x00')

/-- What is decoded is the table entry that `shift_held` selects. -/
theorem decoded_eq (k : Keyboard) (scancode : BitVec 8) :
    decoded k scancode = tableChar k.shiftHeld scancode := by
  have hall : ∀ (shift : Bool) (b : BitVec 8),
      decoded ⟨fun _ => '\x00', 0, 0, shift⟩ b = tableChar shift b := by
    decide +kernel
  exact hall k.shiftHeld scancode

/-- The Shift keys have no character. -/
theorem tableChar_shift {shift : Bool} {scancode : BitVec 8} (h : isShiftCode scancode = true) :
    tableChar shift scancode = none := by
  revert shift scancode
  decide +kernel

/-- `shift_held` after a scancode. -/
theorem keyboardIsr_shiftHeld (k : Keyboard) (scancode : BitVec 8) :
    (keyboardIsr k scancode).shiftHeld =
      if isShiftCode scancode then !isBreak scancode else k.shiftHeld := by
  have hpush : ∀ c, (bufferPush k c).shiftHeld = k.shiftHeld := by
    intro c
    unfold bufferPush
    split <;> rfl
  unfold keyboardIsr
  dsimp only
  by_cases hshift : scancode &&& ~~~scancodeReleaseBit = scancodeLeftShift ∨
      scancode &&& ~~~scancodeReleaseBit = scancodeRightShift
  · have hcode : isShiftCode scancode = true := decide_eq_true hshift
    rw [if_pos hshift, if_pos hcode]
    rfl
  · have hcode : ¬isShiftCode scancode = true := fun h => hshift (of_decide_eq_true h)
    rw [if_neg hshift, if_neg hcode]
    split_ifs
    exacts [rfl, hpush _, rfl, hpush _, rfl]

/-! ## The two Shift keys -/

/-- The latest code of `key` is a make. -/
def KeyDown (key : BitVec 8) (codes : List (BitVec 8)) : Bool :=
  (codes.filter (fun b => keyOf b = key)).getLast?.any (fun b => !isBreak b)

/-- Left or right Shift is down. -/
def shiftDown (codes : List (BitVec 8)) : Bool :=
  KeyDown scancodeLeftShift codes || KeyDown scancodeRightShift codes

/-- The last code of either Shift key. -/
def lastShiftCode (codes : List (BitVec 8)) : Option (BitVec 8) :=
  (codes.filter isShiftCode).getLast?

/-- The last Shift code is the release of one Shift key, and the other is down. -/
def OneShiftLeft (codes : List (BitVec 8)) : Prop :=
  ∃ b, lastShiftCode codes = some b ∧ isBreak b = true ∧ shiftDown codes = true

/-- No code has a prefix, and a key is released only when it is down. -/
structure SetOneCodes (codes : List (BitVec 8)) : Prop where
  unprefixed : ∀ b ∈ codes, b ≠ 0xe0 ∧ b ≠ 0xe1
  alternate : ∀ before b after, codes = before ++ b :: after → isBreak b = true →
    KeyDown (keyOf b) before = true

/-- The driver after it has read `codes`. -/
def afterCodes (codes : List (BitVec 8)) : Keyboard :=
  codes.foldl keyboardIsr KeyboardState.start.kbd

theorem afterCodes_concat (codes : List (BitVec 8)) (b : BitVec 8) :
    afterCodes (codes ++ [b]) = keyboardIsr (afterCodes codes) b := by
  unfold afterCodes
  rw [List.foldl_append, List.foldl_cons, List.foldl_nil]

theorem keyDown_concat (key : BitVec 8) (codes : List (BitVec 8)) (b : BitVec 8) :
    KeyDown key (codes ++ [b]) = if keyOf b = key then !isBreak b else KeyDown key codes := by
  unfold KeyDown
  rw [List.filter_append]
  by_cases hkey : keyOf b = key
  · have hlast : [b].filter (fun b => decide (keyOf b = key)) = [b] :=
      List.filter_cons_of_pos (decide_eq_true hkey)
    rw [if_pos hkey, hlast, List.getLast?_concat]
    rfl
  · have hnone : [b].filter (fun b => decide (keyOf b = key)) = [] :=
      List.filter_cons_of_neg (by simpa using hkey)
    rw [if_neg hkey, hnone, List.append_nil]

theorem lastShiftCode_concat (codes : List (BitVec 8)) (b : BitVec 8) :
    lastShiftCode (codes ++ [b]) = if isShiftCode b then some b else lastShiftCode codes := by
  unfold lastShiftCode
  rw [List.filter_append]
  split
  · next hcode =>
      rw [List.filter_cons_of_pos hcode, List.filter_nil, List.getLast?_concat]
  · next hcode =>
      rw [List.filter_cons_of_neg hcode, List.filter_nil, List.append_nil]

/-- **`shift_held` is the last Shift code.** -/
theorem shiftHeld_eq (codes : List (BitVec 8)) :
    (afterCodes codes).shiftHeld = (lastShiftCode codes).any (fun b => !isBreak b) := by
  induction codes using List.reverseRecOn with
  | nil => rfl
  | append_singleton codes b ih =>
      rw [afterCodes_concat, keyboardIsr_shiftHeld, lastShiftCode_concat, ih]
      split <;> rfl

/-- A Shift key is down when its make is the last Shift code; without a Shift
code none is. -/
theorem shiftDown_of_last (codes : List (BitVec 8)) :
    (lastShiftCode codes).any (fun b => !isBreak b) = true → shiftDown codes = true := by
  induction codes using List.reverseRecOn with
  | nil => exact fun h => h
  | append_singleton codes b ih =>
      intro h
      rw [lastShiftCode_concat] at h
      unfold shiftDown at ih ⊢
      rw [keyDown_concat, keyDown_concat]
      by_cases hshift : isShiftCode b = true
      · rw [if_pos hshift] at h
        have hmake : isBreak b = false := by simpa using h
        rcases of_decide_eq_true hshift with hkey | hkey
        · rw [if_pos hkey, hmake]
          rfl
        · rw [if_pos hkey, hmake, Bool.not_false, Bool.or_true]
      · rw [if_neg hshift] at h
        have hkeys : ¬(keyOf b = scancodeLeftShift ∨ keyOf b = scancodeRightShift) := by
          simpa [isShiftCode] using hshift
        rw [if_neg (fun hkey => hkeys (.inl hkey)), if_neg (fun hkey => hkeys (.inr hkey))]
        exact ih h

theorem shiftDown_of_none (codes : List (BitVec 8)) (h : lastShiftCode codes = none) :
    shiftDown codes = false := by
  have hnone : codes.filter isShiftCode = [] := List.getLast?_eq_none_iff.mp h
  have hkey : ∀ key, (∀ b, keyOf b = key → isShiftCode b = true) → KeyDown key codes = false := by
    intro key hcode
    have hempty : codes.filter (fun b => keyOf b = key) = [] := by
      rw [List.filter_eq_nil_iff] at hnone ⊢
      intro b hb hkey
      exact hnone b hb (hcode b (of_decide_eq_true hkey))
    unfold KeyDown
    rw [hempty]
    rfl
  unfold shiftDown
  rw [hkey _ (fun b hb => decide_eq_true (.inl hb)), hkey _ (fun b hb => decide_eq_true (.inr hb))]
  rfl

/-- **The flag is the disjunction of the two keys** except after the release of
one while the other is down. -/
theorem shiftHeld_eq_shiftDown_iff (codes : List (BitVec 8)) :
    (afterCodes codes).shiftHeld = shiftDown codes ↔ ¬OneShiftLeft codes := by
  rw [shiftHeld_eq]
  cases hlast : lastShiftCode codes with
  | none =>
      rw [shiftDown_of_none codes hlast]
      refine iff_of_true rfl ?_
      rintro ⟨b, hb, -⟩
      exact absurd (hlast.symm.trans hb) (by simp)
  | some b =>
      cases hbreak : isBreak b with
      | false =>
          have hdown := shiftDown_of_last codes (by rw [hlast]; simp [hbreak])
          rw [hdown]
          refine iff_of_true (by simp [hbreak]) ?_
          rintro ⟨b', hb', hbreak', -⟩
          rw [hlast] at hb'
          obtain rfl := Option.some.inj hb'
          rw [hbreak] at hbreak'
          cases hbreak'
      | true =>
          have hany : (some b).any (fun b => !isBreak b) = false := by simp [hbreak]
          rw [hany]
          constructor
          · rintro hdown ⟨-, -, -, hleft⟩
            rw [← hdown] at hleft
            cases hleft
          · intro hnot
            cases hdown : shiftDown codes with
            | false => rfl
            | true => exact absurd ⟨b, hlast, hbreak, hdown⟩ hnot

/-- Every character comes from `shifted_table` when a Shift key is down, and
from `unshifted_table` when none is. -/
def ShiftSelects (codes : List (BitVec 8)) : Prop :=
  ∀ before b after, codes = before ++ b :: after →
    decoded (afterCodes before) b = tableChar (shiftDown before) b

/-- **When Shift selects the table.** Of any sequence of scancodes, every
character comes from the table the two Shift keys select exactly when no key
whose characters differ is pressed while one Shift is down and the last Shift
code is the release of the other. -/
theorem keyboard_shift_selects_iff (codes : List (BitVec 8)) :
    ShiftSelects codes ↔
      ∀ before b after, codes = before ++ b :: after → tableChar true b ≠ tableChar false b →
        ¬OneShiftLeft before := by
  constructor
  · intro h before b after hsplit hdiffer
    have hsame := h before b after hsplit
    rw [decoded_eq] at hsame
    rw [← shiftHeld_eq_shiftDown_iff]
    cases hheld : (afterCodes before).shiftHeld <;> cases hdown : shiftDown before <;>
      rw [hheld, hdown] at hsame
    · exact absurd hsame.symm hdiffer
    · exact absurd hsame hdiffer
  · intro h before b after hsplit
    rw [decoded_eq]
    by_cases hdiffer : tableChar true b = tableChar false b
    · cases (afterCodes before).shiftHeld <;> cases shiftDown before
      exacts [rfl, hdiffer.symm, hdiffer, rfl]
    · rw [(shiftHeld_eq_shiftDown_iff before).mpr (h before b after hsplit hdiffer)]

/-- Both Shift keys down, the right one let go, then the A key: `a`, where the
left Shift is still down. -/
theorem keyboard_right_shift_released :
    ¬∀ codes, SetOneCodes codes → ShiftSelects codes := by
  intro h
  have hcodes : SetOneCodes [0x2a, 0x36, 0xb6, 0x1e] := by
    refine ⟨by decide, ?_⟩
    intro before b after hsplit hbreak
    -- the one break code is the third
    rcases before with _ | ⟨b₁, _ | ⟨b₂, _ | ⟨b₃, _ | ⟨b₄, rest⟩⟩⟩⟩
    all_goals
      simp only [List.nil_append, List.cons_append, List.cons.injEq] at hsplit
    · obtain ⟨rfl, -⟩ := hsplit
      exact absurd hbreak (by decide)
    · obtain ⟨rfl, rfl, -⟩ := hsplit
      exact absurd hbreak (by decide)
    · obtain ⟨rfl, rfl, rfl, -⟩ := hsplit
      decide
    · obtain ⟨rfl, rfl, rfl, rfl, -⟩ := hsplit
      exact absurd hbreak (by decide)
    · simp at hsplit
  have hchar := h _ hcodes [0x2a, 0x36, 0xb6] 0x1e [] rfl
  exact absurd hchar (by decide +kernel)

/-! ## Extended codes -/

/-- The second byte of an extended code does nothing when read as an ordinary
code: a Shift code that `shift_held` agrees with, a code without a character,
or one that finds the buffer full. -/
def SecondByteInert (k : Keyboard) (b : BitVec 8) : Prop :=
  if isShiftCode b then k.shiftHeld = !isBreak b
  else tableChar k.shiftHeld b = none ∨ k.Full

instance (k : Keyboard) (b : BitVec 8) : Decidable (SecondByteInert k b) :=
  inferInstanceAs (Decidable (ite _ _ _))

/-- What a code stores in the buffer. -/
theorem stores_eq (s : KeyboardState) (b : BitVec 8) :
    s.stores b = if s.kbd.Full then [] else (tableChar s.kbd.shiftHeld b).toList := by
  unfold KeyboardState.stores
  rw [decoded_eq]

/-- An inert byte leaves the driver as it is. -/
theorem isr_of_inert {s : KeyboardState} {b : BitVec 8} (h : SecondByteInert s.kbd b) :
    s.isr b = s := by
  have hshift : (keyboardIsr s.kbd b).shiftHeld = s.kbd.shiftHeld := by
    rw [keyboardIsr_shiftHeld]
    unfold SecondByteInert at h
    split
    · next hcode =>
        rw [if_pos hcode] at h
        exact h.symm
    · rfl
  have hstores : s.stores b = [] := by
    rw [stores_eq]
    unfold SecondByteInert at h
    split at h
    · next hcode => rw [tableChar_shift hcode, Option.toList_none, ite_self]
    · rcases h with hnone | hfull
      · rw [hnone, Option.toList_none, ite_self]
      · rw [if_pos hfull]
  have hkbd : keyboardIsr s.kbd b = s.kbd := by
    rcases keyboardIsr_cases s.kbd b with ⟨c, hc, -, heq⟩ | ⟨-, shift, heq⟩
    · have hfull : s.kbd.Full := by
        by_contra hroom
        unfold KeyboardState.stores at hstores
        rw [if_neg hroom, hc] at hstores
        cases hstores
      rw [heq]
      unfold bufferPush
      rw [if_pos hfull]
    · rw [heq] at hshift
      have hsame : shift = s.kbd.shiftHeld := hshift
      rw [heq, hsame]
  have hacc : (s.isr b).accepted = s.accepted := by
    rw [isr_accepted, hstores, List.append_nil]
  show { s with kbd := keyboardIsr s.kbd b, accepted := (s.isr b).accepted } = s
  rw [hacc, hkbd]

/-- The prefix alone does nothing. -/
theorem isr_e0 (s : KeyboardState) : s.isr 0xe0 = s :=
  isr_of_inert (.inl (by cases s.kbd.shiftHeld <;> rfl))

/-- An extended code does not disturb the driver in `s`: it stores no
character, and whatever the rest of the stream, read or typed, the same
characters are stored and `shift_held` is the same as without it. -/
def ExtendedDropped (s : KeyboardState) (b : BitVec 8) : Prop :=
  ((s.isr 0xe0).isr b).accepted = s.accepted ∧
  ∀ rest s', System.runAll KeyboardState.after s rest = some s' →
    ∃ s'', System.runAll KeyboardState.after ((s.isr 0xe0).isr b) rest = some s'' ∧
      s''.accepted = s'.accepted ∧ s''.kbd.shiftHeld = s'.kbd.shiftHeld

/-- A stream of events with extended codes between them. -/
inductive StreamItem
  | event (e : KeyboardEvent)
  | extended (b : BitVec 8)

/-- The events of the stream, the extended codes byte by byte. -/
def withExtended : List StreamItem → List KeyboardEvent
  | [] => []
  | .event e :: items => e :: withExtended items
  | .extended b :: items => .isr 0xe0 :: .isr b :: withExtended items

/-- The stream without its extended codes. -/
def withoutExtended : List StreamItem → List KeyboardEvent
  | [] => []
  | .event e :: items => e :: withoutExtended items
  | .extended _ :: items => withoutExtended items

/-- The second bytes are inert in the states that the stream without them
goes through. -/
def InertWhereMet : KeyboardState → List StreamItem → Prop
  | _, [] => True
  | s, .event e :: items => ∀ s', s.after e = some s' → InertWhereMet s' items
  | s, .extended b :: items => SecondByteInert s.kbd b ∧ InertWhereMet s items

theorem extendedDropped_iff (s : KeyboardState) (b : BitVec 8) :
    ExtendedDropped s b ↔ SecondByteInert s.kbd b := by
  unfold ExtendedDropped
  rw [isr_e0]
  constructor
  · rintro ⟨hacc, hrest⟩
    obtain ⟨s'', hs'', -, hshift⟩ := hrest [] s rfl
    obtain rfl := Option.some.inj hs''
    have hkbd : (s.isr b).kbd.shiftHeld = (keyboardIsr s.kbd b).shiftHeld := rfl
    rw [hkbd, keyboardIsr_shiftHeld] at hshift
    rw [isr_accepted, List.append_right_eq_self, stores_eq] at hacc
    unfold SecondByteInert
    split
    · next hcode =>
        rw [if_pos hcode] at hshift
        exact hshift.symm
    · by_cases hfull : s.kbd.Full
      · exact .inr hfull
      · rw [if_neg hfull] at hacc
        exact .inl (Option.toList_eq_nil_iff.mp hacc)
  · intro h
    rw [isr_of_inert h]
    exact ⟨rfl, fun rest s' hs' => ⟨s', hs', rfl, rfl⟩⟩

theorem runAll_withExtended (items : List StreamItem) :
    ∀ s, InertWhereMet s items →
      System.runAll KeyboardState.after s (withExtended items) =
        System.runAll KeyboardState.after s (withoutExtended items) := by
  induction items with
  | nil => exact fun s _ => rfl
  | cons item items ih =>
      intro s h
      cases item with
      | event e =>
          show (s.after e).bind _ = (s.after e).bind _
          cases hstep : s.after e with
          | none => rfl
          | some s' => exact ih s' (h s' hstep)
      | extended b =>
          show System.runAll _ ((s.isr 0xe0).isr b) _ = _
          rw [isr_e0, isr_of_inert h.1]
          exact ih s h.2

/-- **When extended codes are dropped.** Whatever the stream did before, an
extended code goes unnoticed in the rest of the stream exactly when its second
byte, read as an ordinary code, is inert in the state it meets; and a stream
all of whose extended codes are so runs as if they were not there. -/
theorem keyboard_extended_dropped_iff (s : KeyboardState) :
    (∀ b, ExtendedDropped s b ↔ SecondByteInert s.kbd b) ∧
    ∀ items, InertWhereMet s items →
      System.runAll KeyboardState.after s (withExtended items) =
        System.runAll KeyboardState.after s (withoutExtended items) :=
  ⟨extendedDropped_iff s, fun items => runAll_withExtended items s⟩

/-- The keypad's Enter, `e0 1c`, is read as Enter. -/
theorem keyboard_extended_enter :
    ¬∀ s, keyboardSystem.Reachable s → ∀ b, ExtendedDropped s b := by
  intro h
  have hdropped := h KeyboardState.start (.init rfl) 0x1c
  rw [extendedDropped_iff] at hdropped
  exact absurd hdropped (by decide)

end QuinKernel
