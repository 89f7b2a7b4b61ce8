import QuinKernel.Machine.Memory

/-!
# `kernel.h` and `panic.h`

The alignment helpers every subsystem shares, and panics. A panic never
returns, so a function that can panic is an `Except Panic`; the message is
kept as the source writes it, with its arguments beside it.
-/

namespace QuinKernel

open Machine

/-- `panic(fmt, ...)`: the kernel stops with this message. -/
structure Panic where
  fmt : String
  args : List Word := []
  deriving DecidableEq, Repr

/-- `align_up`. The addition wraps, as `uint64_t` does. -/
def alignUp (value align : Word) : Word := (value + (align - 1)) &&& ~~~(align - 1)

/-- `align_down`. -/
def alignDown (value align : Word) : Word := value &&& ~~~(align - 1)

section Rounding

variable (v : Word)

theorem alignUp_16 : (alignUp v 16).toNat = (v.toNat + 15) % 2 ^ 64 / 16 * 16 := by
  have h := toNat_and_not_mask (v + 15) 4
  simpa [alignUp, BitVec.toNat_add] using h

theorem alignUp_8 : (alignUp v 8).toNat = (v.toNat + 7) % 2 ^ 64 / 8 * 8 := by
  have h := toNat_and_not_mask (v + 7) 3
  simpa [alignUp, BitVec.toNat_add] using h

theorem alignUp_4096 : (alignUp v 4096).toNat = (v.toNat + 4095) % 2 ^ 64 / 4096 * 4096 := by
  have h := toNat_and_not_mask (v + 4095) 12
  simpa [alignUp, BitVec.toNat_add] using h

theorem alignDown_4096 : (alignDown v 4096).toNat = v.toNat / 4096 * 4096 := by
  have h := toNat_and_not_mask v 12
  simpa [alignDown] using h

end Rounding

end QuinKernel
