import QuinKernel.Lib.Snprintf
import QuinKernel.Machine.PolledQueue

/-!
# The serial port (`serial.c`) and the log (`log.c`)

The port is a 16550: registers, of which two are behind the divisor latch bit,
and a transmit queue that holds 16 bytes with the FIFO on and one without. Bit 5
of the line status says that the queue is empty.

There is no lock around the port. Any number of contexts (threads, and interrupt
handlers on top of them) are each in the middle of a call, and the next statement
may be anyone's; in between the port sends. `serial_putc` calls itself for the
`'\r'` of a newline, so a context has a stack of its activations.

What `log_write` draws on the framebuffer does not touch the port and is not part
of this model.
-/

namespace QuinKernel

open Machine

/-! ## The port -/

def regData : Nat := 0
def regIntEnable : Nat := 1
def regFifoCtrl : Nat := 2
def regLineCtrl : Nat := 3
def regModemCtrl : Nat := 4

/-- The registers of the port, but for the data. -/
structure UartRegs where
  intEnable : Byte
  fifoCtrl : Byte
  lineCtrl : Byte
  modemCtrl : Byte
  divisorLow : Byte
  divisorHigh : Byte
  deriving DecidableEq

namespace UartRegs

/-- Bit 7 of the line control register: offsets 0 and 1 are the divisor. -/
def divisorLatch (u : UartRegs) : Bool := u.lineCtrl.getLsbD 7

/-- `outb(COM1 + reg, value)`, but for a byte to transmit. -/
def outb (u : UartRegs) (reg : Nat) (value : Byte) : UartRegs :=
  if reg = regData then if u.divisorLatch then { u with divisorLow := value } else u
  else if reg = regIntEnable then
    if u.divisorLatch then { u with divisorHigh := value } else { u with intEnable := value }
  else if reg = regFifoCtrl then { u with fifoCtrl := value }
  else if reg = regLineCtrl then { u with lineCtrl := value }
  else if reg = regModemCtrl then { u with modemCtrl := value }
  else u

/-- The bytes the transmit queue has room for. -/
def depth (u : UartRegs) : Nat := if u.fifoCtrl.getLsbD 0 then 16 else 1

end UartRegs

/-- The `outb`s of `serial_init`, in order. The `inb` stands before the last. -/
def serialInitWrites : List (Nat × Byte) :=
  [(regIntEnable, 0x00), (regLineCtrl, 0x80), (regData, 0x03), (regIntEnable, 0x00),
    (regLineCtrl, 0x03), (regFifoCtrl, 0xc7), (regModemCtrl, 0x0b), (regModemCtrl, 0x1e),
    (regData, 0xae), (regModemCtrl, 0x0f)]

/-- `serial_init`: `serial_present` and the port's registers. `echo` is what the
`inb` of the loopback test reads. -/
def serialInit (u : UartRegs) (echo : Byte) : Bool × UartRegs :=
  (echo = 0xae, serialInitWrites.foldl (fun u w => u.outb w.1 w.2) u)

/-! ## Messages -/

/-- `enum log_level`. -/
inductive LogLevel
  | debug
  | info
  | warn
  deriving DecidableEq

/-- The enumeration's values. -/
def LogLevel.value : LogLevel → Nat
  | .debug => 0
  | .info => 1
  | .warn => 2

/-- The tags in `styles`. -/
def LogLevel.tag : LogLevel → List Char
  | .debug => "DEBUG".toList
  | .info => "INFO".toList
  | .warn => "WARN".toList

/-- What `log_write` emits at a level it does not drop. -/
def logText (level : LogLevel) (fmt : List Char) (ap : List VaArg) : Option (List Char) :=
  (kvprintf fmt ap).map (fun out => ['['] ++ level.tag ++ [']', ' '] ++ out ++ ['\n'])

/-- What a character becomes on the line. -/
def serialBytes (c : Char) : List Byte := textBytes (if c = '\n' then ['\r', c] else [c])

/-! ## Calls in progress -/

/-- The statements of `serial_putc`. -/
inductive PutcPc
  | present
  | newline
  | poll
  | store
  deriving DecidableEq

/-- An activation of `serial_putc`. -/
structure PutcFrame where
  pc : PutcPc
  c : Char
  deriving DecidableEq

/-- A context: its activations of `serial_putc`, the innermost first, and the
characters its call has still to hand to `serial_putc`. -/
structure Writer where
  frames : List PutcFrame
  text : List Char
  deriving DecidableEq

/-- In no call. -/
def Writer.idle : Writer := ⟨[], []⟩

/-- The port, the statics, and the contexts. Bytes in the queue and on the line
carry the context that wrote them. -/
structure SerialState (T : Type) where
  serialPresent : Bool
  minLevel : LogLevel
  uart : UartRegs
  queue : List (T × Byte)
  line : List (T × Byte)
  writer : T → Writer

/-- A context calls `serial_write` or `log_write`, or executes its next statement;
somebody calls `log_set_min_level`; the port sends a byte. -/
inductive SerialEvent (T : Type)
  | write (t : T) (str : List Char)
  | log (t : T) (level : LogLevel) (fmt : List Char) (ap : List VaArg)
  | setMinLevel (level : LogLevel)
  | statement (t : T)
  | send
  deriving DecidableEq

namespace SerialState

variable {T : Type} [DecidableEq T]

/-- The context goes on as `w`. -/
def goto (s : SerialState T) (t : T) (w : Writer) : SerialState T :=
  { s with writer := Function.update s.writer t w }

/-- `inb(COM1 + REG_LINE_STATUS)`, the bit that is looked at. -/
def lineStatus (s : SerialState T) : Byte := if s.queue = [] then 0x20 else 0

/-- `transmit_empty`. -/
def transmitEmpty (s : SerialState T) : Bool := (s.lineStatus &&& 0x20) != 0

/-- The next statement of a context that is in a call. -/
def statement (s : SerialState T) (t : T) : Option (SerialState T) :=
  let w := s.writer t
  match w.frames with
  | [] =>
      match w.text with
      | [] => none
      | c :: text => some (s.goto t ⟨[⟨.present, c⟩], text⟩)
  | ⟨.present, c⟩ :: rest =>
      some (s.goto t (if s.serialPresent then { w with frames := ⟨.newline, c⟩ :: rest }
        else { w with frames := rest }))
  | ⟨.newline, c⟩ :: rest =>
      some (s.goto t { w with
        frames := if c = '\n' then ⟨.present, '\r'⟩ :: ⟨.poll, c⟩ :: rest else ⟨.poll, c⟩ :: rest })
  | ⟨.poll, c⟩ :: rest =>
      some (if s.transmitEmpty then s.goto t { w with frames := ⟨.store, c⟩ :: rest } else s)
  | ⟨.store, c⟩ :: rest =>
      some { s.goto t { w with frames := rest } with
        queue := offer s.uart.depth s.queue (t, BitVec.ofNat 8 c.toNat) }

/-- One step. -/
def after (s : SerialState T) : SerialEvent T → Option (SerialState T)
  | .write t str => if s.writer t = .idle then some (s.goto t ⟨[], str⟩) else none
  | .log t level fmt ap =>
      if s.writer t = .idle then
        if level.value < s.minLevel.value then some s
        else (logText level fmt ap).map (fun text => s.goto t ⟨[], text⟩)
      else none
  | .setMinLevel level => some { s with minLevel := level }
  | .statement t => s.statement t
  | .send =>
      match s.queue with
      | [] => none
      | p :: rest => some { s with queue := rest, line := s.line ++ [p] }

end SerialState

/-- The port after `serial_init`, from any registers, and any contexts that use it. -/
def serialSystem (T : Type) [DecidableEq T] : System (SerialState T) (SerialEvent T) where
  init s := (∃ u echo, serialInit u echo = (s.serialPresent, s.uart)) ∧ s.queue = [] ∧
    s.line = [] ∧ ∀ t, s.writer t = .idle
  step s e s' := s.after e = some s'

end QuinKernel
