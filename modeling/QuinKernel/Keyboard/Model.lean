import QuinKernel.Machine.System
import Mathlib.Logic.Function.Basic

/-!
# `kernel/drivers/keyboard/keyboard.c`

The driver's statics, `buffer_push`, `keyboard_isr` on the scancode it reads
from the data port, and `keyboard_read_char` statement by statement: the
interrupt may come before any of them. The handler itself runs with `IF` clear
and is one step.
-/

namespace QuinKernel

open Machine

/-- `unshifted_table`, from scancode 0; `'\x00'` where it has no entry. -/
def unshiftedTable : List Char := [
  '\x00', '\x00', '1', '2', '3', '4', '5', '6',
  '7', '8', '9', '0', '-', '=', '\x08', '\t',
  'q', 'w', 'e', 'r', 't', 'y', 'u', 'i',
  'o', 'p', '[', ']', '\n', '\x00', 'a', 's',
  'd', 'f', 'g', 'h', 'j', 'k', 'l', ';',
  '\x27', '\x60', '\x00', '\x5c', 'z', 'x', 'c', 'v',
  'b', 'n', 'm', ',', '.', '/', '\x00', '\x00',
  '\x00', ' ']

/-- `shifted_table`, from scancode 0. -/
def shiftedTable : List Char := [
  '\x00', '\x00', '!', '@', '#', '$', '%', '^',
  '&', '*', '(', ')', '_', '+', '\x08', '\t',
  'Q', 'W', 'E', 'R', 'T', 'Y', 'U', 'I',
  'O', 'P', '\x7b', '\x7d', '\n', '\x00', 'A', 'S',
  'D', 'F', 'G', 'H', 'J', 'K', 'L', ':',
  '\x22', '\x7e', '\x00', '\x7c', 'Z', 'X', 'C', 'V',
  'B', 'N', 'M', '<', '>', '?', '\x00', '\x00',
  '\x00', ' ']

-- both tables have an entry for scancodes below `0x3a`
example : unshiftedTable.length = 0x3a ∧ shiftedTable.length = 0x3a := ⟨rfl, rfl⟩

/-- `BUFFER_SIZE`. -/
def keyboardBufferSize : BitVec 32 := 256

/-- `SCANCODE_LEFT_SHIFT`. -/
def scancodeLeftShift : BitVec 8 := 0x2a

/-- `SCANCODE_RIGHT_SHIFT`. -/
def scancodeRightShift : BitVec 8 := 0x36

/-- `SCANCODE_RELEASE_BIT`. -/
def scancodeReleaseBit : BitVec 8 := 0x80

/-- The driver's statics. -/
structure Keyboard where
  buffer : Nat → Char
  bufferHead : BitVec 32
  bufferTail : BitVec 32
  shiftHeld : Bool

namespace Keyboard

/-- The index after `i`. -/
def nextIndex (i : BitVec 32) : BitVec 32 := (i + 1) % keyboardBufferSize

/-- The test of `buffer_push`: one more character would make `head` meet `tail`. -/
def Full (k : Keyboard) : Prop := nextIndex k.bufferHead = k.bufferTail

instance (k : Keyboard) : Decidable k.Full := inferInstanceAs (Decidable (_ = _))

end Keyboard

/-- `buffer_push`. -/
def bufferPush (k : Keyboard) (c : Char) : Keyboard :=
  if k.Full then k -- the newest keystroke is dropped
  else { k with
    buffer := Function.update k.buffer k.bufferHead.toNat c
    bufferHead := Keyboard.nextIndex k.bufferHead }

/-- `keyboard_isr`, having read `scancode`. -/
def keyboardIsr (k : Keyboard) (scancode : BitVec 8) : Keyboard :=
  let released := scancode &&& scancodeReleaseBit ≠ 0
  let code := scancode &&& ~~~scancodeReleaseBit
  if code = scancodeLeftShift ∨ code = scancodeRightShift then { k with shiftHeld := !released }
  else if released ∨ code.toNat ≥ unshiftedTable.length then k
  else
    let c := (if k.shiftHeld then shiftedTable else unshiftedTable).getD code.toNat '\x00'
    if c ≠ '\x00' then bufferPush k c else k

/-- The character that `keyboard_isr` hands to `buffer_push`. -/
def decoded (k : Keyboard) (scancode : BitVec 8) : Option Char :=
  let released := scancode &&& scancodeReleaseBit ≠ 0
  let code := scancode &&& ~~~scancodeReleaseBit
  if code = scancodeLeftShift ∨ code = scancodeRightShift ∨ released ∨
      code.toNat ≥ unshiftedTable.length then none
  else
    let c := (if k.shiftHeld then shiftedTable else unshiftedTable).getD code.toNat '\x00'
    if c ≠ '\x00' then some c else none

/-- The statements of `keyboard_read_char`: the emptiness check, the read of
the buffer, the step of `buffer_tail`, the return. -/
inductive ReadPc
  | idle
  | check
  | fetch
  | advance (c : Char)
  | ret (c : Char)
  deriving DecidableEq

/-- The driver and its one reader, with what the history needs: the characters
`buffer_push` stored, the results of `keyboard_read_char`, and whether the
queue was empty at the last check. -/
structure KeyboardState where
  kbd : Keyboard
  reader : ReadPc
  accepted : List Char
  results : List Char
  emptyAtCheck : Bool

/-- What happens next: an interrupt, the reader calls `keyboard_read_char`, or
executes its next statement. -/
inductive KeyboardEvent
  | isr (scancode : BitVec 8)
  | call
  | statement
  deriving DecidableEq

namespace KeyboardState

/-- The characters that have left the buffer: the results, and the one about to
be returned. -/
def read (s : KeyboardState) : List Char :=
  s.results.filter (· ≠ '\x00') ++ match s.reader with
    | .ret c => [c].filter (· ≠ '\x00')
    | _ => []

/-- The accepted characters not yet read. -/
def unread (s : KeyboardState) : List Char := s.accepted.drop s.read.length

/-- The interrupt. -/
def isr (s : KeyboardState) (scancode : BitVec 8) : KeyboardState :=
  { s with
    kbd := keyboardIsr s.kbd scancode
    accepted := match decoded s.kbd scancode with
      | some c => if s.kbd.Full then s.accepted else s.accepted ++ [c]
      | none => s.accepted }

/-- The next statement of `keyboard_read_char`. -/
def statement (s : KeyboardState) : Option KeyboardState :=
  match s.reader with
  | .idle => none
  | .check => some { s with
      reader := if s.kbd.bufferTail = s.kbd.bufferHead then .ret '\x00' else .fetch
      emptyAtCheck := decide (s.unread = []) }
  | .fetch => some { s with reader := .advance (s.kbd.buffer s.kbd.bufferTail.toNat) }
  | .advance c => some { s with
      kbd := { s.kbd with bufferTail := Keyboard.nextIndex s.kbd.bufferTail }
      reader := .ret c }
  | .ret c => some { s with reader := .idle, results := s.results ++ [c] }

/-- One step. -/
def after (s : KeyboardState) : KeyboardEvent → Option KeyboardState
  | .isr scancode => some (s.isr scancode)
  | .call => if s.reader = .idle then some { s with reader := .check } else none
  | .statement => s.statement

/-- The statics are zero at boot. -/
def start : KeyboardState where
  kbd := ⟨fun _ => '\x00', 0, 0, false⟩
  reader := .idle
  accepted := []
  results := []
  emptyAtCheck := false

end KeyboardState

/-- The driver, its interrupts and its reader. -/
def keyboardSystem : System KeyboardState KeyboardEvent where
  init s := s = KeyboardState.start
  step s e s' := s.after e = some s'

end QuinKernel
