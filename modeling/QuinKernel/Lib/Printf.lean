import QuinKernel.Machine.Memory

/-!
# `printf.c`

The formatter every kernel message goes through. A C string is the list of its
characters before the terminator, and the characters handed to `emit` are the
result, in order. `va_arg` of an argument that is not there, or not of the type
asked for, and a read past the format's terminator are undefined in C: the
model gives `none`.

An `int` is 32 bits wide and wraps.
-/

namespace QuinKernel

open Machine

/-- One variable argument: an `int` or `unsigned int`, a `long` or
`unsigned long`, a string (`NULL` is `none`), or another pointer. -/
inductive VaArg
  | int (v : BitVec 32)
  | long (v : BitVec 64)
  | string (s : Option (List Char))
  | pointer (v : Word)
  deriving DecidableEq

/-- `va_arg(ap, int)`. -/
def vaInt : List VaArg → Option (BitVec 32 × List VaArg)
  | .int v :: ap => some (v, ap)
  | _ => none

/-- `va_arg(ap, long)`. -/
def vaLong : List VaArg → Option (BitVec 64 × List VaArg)
  | .long v :: ap => some (v, ap)
  | _ => none

/-- `va_arg(ap, const char *)`. -/
def vaString : List VaArg → Option (Option (List Char) × List VaArg)
  | .string s :: ap => some (s, ap)
  | _ => none

/-- `va_arg(ap, void *)`. -/
def vaPointer : List VaArg → Option (Word × List VaArg)
  | .pointer v :: ap => some (v, ap)
  | _ => none

/-- `length > 0 ? va_arg(ap, long) : va_arg(ap, int)`, as an `int64_t`. -/
def vaSigned (length : Nat) (ap : List VaArg) : Option (BitVec 64 × List VaArg) :=
  if 0 < length then vaLong ap
  else (vaInt ap).map (fun (v, ap) => (v.signExtend 64, ap))

/-- The same of the unsigned types, as a `uint64_t`. -/
def vaUnsigned (length : Nat) (ap : List VaArg) : Option (BitVec 64 × List VaArg) :=
  if 0 < length then vaLong ap
  else (vaInt ap).map (fun (v, ap) => (v.setWidth 64, ap))

/-! ## Emitting -/

/-- `emit_padded`. -/
def emitPadded (digits : List Char) (width : BitVec 32) (zeroPad : Bool) : List Char :=
  let pad := width - BitVec.ofNat 32 digits.length
  List.replicate pad.toInt.toNat (if zeroPad then '0' else ' ') ++ digits

/-- `lower` and `upper_digits` of `emit_unsigned`. -/
def digitTable (upper : Bool) : List Char :=
  (if upper then "0123456789ABCDEF" else "0123456789abcdef").toList

/-- The `do` loop of `emit_unsigned`, with room for `n` digits: the digits, least
significant first. -/
def digitLoop (table : List Char) (base : Word) : Nat → Word → List Char
  | 0, _ => []
  | n + 1, value =>
      table.getD (value % base).toNat '\x00' ::
        if value / base ≠ 0 then digitLoop table base n (value / base) else []

/-- `emit_unsigned`. -/
def emitUnsigned (value base : Word) (upper : Bool) (width : BitVec 32) (zeroPad : Bool) :
    List Char :=
  emitPadded (digitLoop (digitTable upper) base 32 value).reverse width zeroPad

/-- `emit_signed`. -/
def emitSigned (value : BitVec 64) (width : BitVec 32) (zeroPad : Bool) : List Char :=
  if value.slt 0 then
    let magnitude := -(value + 1) + 1
    '-' :: emitUnsigned magnitude 10 false (if (0 : BitVec 32).slt width then width - 1 else 0)
      zeroPad
  else emitUnsigned value 10 false width zeroPad

/-! ## The format -/

/-- The `'0'` flag. -/
def readFlag : List Char → Bool × List Char
  | '0' :: p => (true, p)
  | p => (false, p)

/-- The loop that reads the width. -/
def readWidth (width : BitVec 32) : List Char → BitVec 32 × List Char
  | [] => (width, [])
  | c :: p =>
      if '0' ≤ c ∧ c ≤ '9' then readWidth (width * 10 + BitVec.ofNat 32 (c.toNat - '0'.toNat)) p
      else (width, c :: p)

/-- The loop that counts the `l`s. -/
def readLength (length : Nat) : List Char → Nat × List Char
  | 'l' :: p => readLength (length + 1) p
  | p => (length, p)

/-- The `switch` on the conversion character. -/
def convert (zeroPad : Bool) (width : BitVec 32) (length : Nat) (c : Char) (ap : List VaArg) :
    Option (List Char × List VaArg) :=
  if c = 'd' ∨ c = 'i' then
    (vaSigned length ap).map (fun (value, ap) => (emitSigned value width zeroPad, ap))
  else if c = 'u' then
    (vaUnsigned length ap).map (fun (value, ap) => (emitUnsigned value 10 false width zeroPad, ap))
  else if c = 'x' ∨ c = 'X' then
    (vaUnsigned length ap).map
      (fun (value, ap) => (emitUnsigned value 16 (c = 'X') width zeroPad, ap))
  else if c = 'p' then
    (vaPointer ap).map (fun (ptr, ap) => ('0' :: 'x' :: emitUnsigned ptr 16 false 16 true, ap))
  else if c = 's' then
    (vaString ap).map (fun (str, ap) => (emitPadded (str.getD "(null)".toList) width false, ap))
  else if c = 'c' then
    (vaInt ap).map (fun (v, ap) => ([Char.ofNat (v.toNat % 256)], ap))
  else if c = '%' then some (['%'], ap)
  else some (['%', c], ap)

/-- The loop of `kvprintf` from `p` on, for at most `fuel` iterations. -/
def kvprintfFrom : Nat → List Char → List VaArg → Option (List Char)
  | 0, _, _ => none
  | _ + 1, [], _ => some []
  | fuel + 1, c :: p, ap =>
      if c ≠ '%' then (kvprintfFrom fuel p ap).map (c :: ·)
      else if p = [] then some []
      else
        let (zeroPad, p) := readFlag p
        let (width, p) := readWidth 0 p
        let (length, p) := readLength 0 p
        match p with
        | [] => none -- the terminator is taken for a conversion, and stepped over
        | c :: p =>
            (convert zeroPad width length c ap).bind (fun (out, ap) =>
              (kvprintfFrom fuel p ap).map (out ++ ·))

/-- `kvprintf`: the characters emitted. Every iteration moves on by a character. -/
def kvprintf (fmt : List Char) (ap : List VaArg) : Option (List Char) :=
  kvprintfFrom (fmt.length + 1) fmt ap

end QuinKernel
