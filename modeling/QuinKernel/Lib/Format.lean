import QuinKernel.Lib.Printf
import Mathlib

/-!
# `kvprintf` and the C standard

A format is a list of directives: literal characters and the conversions
`%d %i %u %x %X %s %c %%`, each with the argument it consumes. `standard` is
what the C standard has for a directive, `emitted` what the formatter's
functions emit for it; the formatter emits the directives' output in order
(`kvprintf_emits`). The two differ where `emit_signed` pads: the minus sign is
out before the spaces.
-/

namespace QuinKernel

open Machine

/-! ## Directives -/

/-- An integer argument, with the length modifier that matches it. -/
inductive IntArg
  | int (v : BitVec 32)
  | long (v : BitVec 64)
  | longLong (v : BitVec 64)

namespace IntArg

def modifier : IntArg → List Char
  | int _ => []
  | long _ => ['l']
  | longLong _ => ['l', 'l']

def arg : IntArg → VaArg
  | int v => .int v
  | long v => .long v
  | longLong v => .long v

/-- As a signed number. -/
def signedValue : IntArg → Int
  | int v => v.toInt
  | long v => v.toInt
  | longLong v => v.toInt

/-- As an unsigned number. -/
def unsignedValue : IntArg → Nat
  | int v => v.toNat
  | long v => v.toNat
  | longLong v => v.toNat

end IntArg

/-- The number that decimal digits denote, behind digits that denote `w`. -/
def decimalFrom (w : Nat) (digits : List (Fin 10)) : Nat :=
  digits.foldl (fun w (d : Fin 10) => w * 10 + (d : Nat)) w

/-- The number that decimal digits denote. -/
def decimalValue (digits : List (Fin 10)) : Nat := decimalFrom 0 digits

/-- Decimal digits as characters. -/
def digitText (digits : List (Fin 10)) : List Char :=
  digits.map (fun d : Fin 10 => Nat.digitChar d)

/-- The `'0'` flag and the width of a conversion. A width that starts with `0`
would be a flag. -/
structure FieldSpec where
  zero : Bool
  digits : List (Fin 10)
  leading : zero = false → digits.head? ≠ some 0
  bounded : decimalValue digits < 2 ^ 31

namespace FieldSpec

def width (field : FieldSpec) : Nat := decimalValue field.digits

def text (field : FieldSpec) : List Char :=
  (if field.zero then ['0'] else []) ++ digitText field.digits

theorem width_lt (field : FieldSpec) : field.width < 2 ^ 31 := field.bounded

/-- Neither flag nor width. -/
def none : FieldSpec := ⟨false, [], by decide, by decide⟩

end FieldSpec

/-- A piece of a format with the argument it consumes. -/
inductive Directive
  | literal (c : Char) (hc : c ≠ '%' ∧ c ≠ '\x00')
  | signed (field : FieldSpec) (arg : IntArg) (i : Bool)
  | unsigned (field : FieldSpec) (arg : IntArg)
  | hex (upper : Bool) (field : FieldSpec) (arg : IntArg)
  | string (field : FieldSpec) (hfield : field.zero = false) (s : List Char)
  | char (v : BitVec 32)
  | percent

namespace Directive

/-- A conversion as it stands in the format. -/
def conversion (field : FieldSpec) (modifier : List Char) (c : Char) : List Char :=
  '%' :: (field.text ++ (modifier ++ [c]))

/-- The characters of the format. -/
def text : Directive → List Char
  | literal c _ => [c]
  | signed field arg i => conversion field arg.modifier (if i then 'i' else 'd')
  | unsigned field arg => conversion field arg.modifier 'u'
  | hex upper field arg => conversion field arg.modifier (if upper then 'X' else 'x')
  | string field _ _ => conversion field [] 's'
  | char _ => conversion .none [] 'c'
  | percent => conversion .none [] '%'

/-- The argument consumed. -/
def args : Directive → List VaArg
  | literal _ _ => []
  | signed _ arg _ => [arg.arg]
  | unsigned _ arg => [arg.arg]
  | hex _ _ arg => [arg.arg]
  | string _ _ s => [.string (some s)]
  | char v => [.int v]
  | percent => []

end Directive

/-- The format string, and its arguments. -/
def formatText (ds : List Directive) : List Char := ds.flatMap Directive.text
def formatArgs (ds : List Directive) : List VaArg := ds.flatMap Directive.args

/-! ## The standard -/

/-- A number in its field: zeros go between the sign and the digits, spaces
before the sign. -/
def numberField (field : FieldSpec) (sign digits : List Char) : List Char :=
  let pad := field.width - (sign.length + digits.length)
  if field.zero then sign ++ (List.replicate pad '0' ++ digits)
  else List.replicate pad ' ' ++ (sign ++ digits)

/-- What the C standard has for a directive. -/
def Directive.standard : Directive → List Char
  | literal c _ => [c]
  | signed field arg _ =>
      numberField field (if arg.signedValue < 0 then ['-'] else [])
        (Nat.toDigits 10 arg.signedValue.natAbs)
  | unsigned field arg => numberField field [] (Nat.toDigits 10 arg.unsignedValue)
  | hex upper field arg =>
      numberField field [] ((Nat.toDigits 16 arg.unsignedValue).map
        (fun c => if upper then c.toUpper else c))
  | string field _ s => List.replicate (field.width - s.length) ' ' ++ s
  | char v => [Char.ofNat (v.toNat % 256)]
  | percent => ['%']

/-- What the formatter's functions emit for a directive. -/
def Directive.emitted : Directive → List Char
  | literal c _ => [c]
  | signed field (.int v) _ => emitSigned (v.signExtend 64) (BitVec.ofNat 32 field.width) field.zero
  | signed field (.long v) _ => emitSigned v (BitVec.ofNat 32 field.width) field.zero
  | signed field (.longLong v) _ => emitSigned v (BitVec.ofNat 32 field.width) field.zero
  | unsigned field arg =>
      emitUnsigned (BitVec.ofNat 64 arg.unsignedValue) 10 false (BitVec.ofNat 32 field.width)
        field.zero
  | hex upper field arg =>
      emitUnsigned (BitVec.ofNat 64 arg.unsignedValue) 16 upper (BitVec.ofNat 32 field.width)
        field.zero
  | string field _ s => emitPadded s (BitVec.ofNat 32 field.width) false
  | char v => [Char.ofNat (v.toNat % 256)]
  | percent => ['%']

/-- Where the formatter does what the standard has: no negative number is
padded with spaces, and no string is so long that its length, as an `int`,
leaves a padding. -/
def Directive.Conforms : Directive → Prop
  | signed field arg _ => ¬(arg.signedValue < 0 ∧ field.zero = false ∧
      (Nat.toDigits 10 arg.signedValue.natAbs).length + 1 < field.width)
  | string field _ s => ¬(2 ^ 31 ≤ s.length ∧
      0 < (BitVec.ofNat 32 field.width - BitVec.ofNat 32 s.length).toInt)
  | _ => True

/-! ## Digits -/

theorem digitTable_getD {d : Nat} (hd : d < 16) (upper : Bool) :
    (digitTable upper).getD d '\x00' =
      if upper then (Nat.digitChar d).toUpper else Nat.digitChar d := by
  revert upper
  interval_cases d <;> decide

/-- The loop's digits, reversed, are the number's. -/
theorem digitLoop_eq {base : Nat} (hbase : 1 < base) (hbase16 : base ≤ 16) (upper : Bool)
    (n : Nat) (value : Word) (h : value.toNat < base ^ (n + 1)) :
    (digitLoop (digitTable upper) (BitVec.ofNat 64 base) (n + 1) value).reverse =
      (Nat.toDigits base value.toNat).map (fun c => if upper then c.toUpper else c) := by
  induction n generalizing value with
  | zero =>
      have hmod : (value % BitVec.ofNat 64 base).toNat = value.toNat % base := by
        rw [BitVec.toNat_umod, toNat_ofNat_of_lt (by omega)]
      rw [Nat.zero_add, pow_one] at h
      rw [digitLoop, Nat.toDigits_of_lt_base h, hmod, Nat.mod_eq_of_lt h,
        digitTable_getD (by omega)]
      unfold digitLoop
      rw [ite_self]
      rfl
  | succ n ih =>
      have hmod : (value % BitVec.ofNat 64 base).toNat = value.toNat % base := by
        rw [BitVec.toNat_umod, toNat_ofNat_of_lt (by omega)]
      have hdiv : (value / BitVec.ofNat 64 base).toNat = value.toNat / base := by
        rw [BitVec.toNat_udiv, toNat_ofNat_of_lt (by omega)]
      have hdigit : value.toNat % base < 16 :=
        Nat.lt_of_lt_of_le (Nat.mod_lt _ (by omega)) hbase16
      have hzero : value / BitVec.ofNat 64 base ≠ 0 ↔ ¬value.toNat < base := by
        rw [ne_eq, ← BitVec.toNat_inj, hdiv, show (0 : Word).toNat = 0 from rfl,
          Nat.div_eq_zero_iff]
        omega
      rw [digitLoop, hmod, digitTable_getD hdigit, Nat.toDigits_eq_if hbase]
      by_cases hlast : value.toNat < base
      · rw [if_neg (mt hzero.mp (not_not.mpr hlast)), if_pos hlast, Nat.mod_eq_of_lt hlast]
        rfl
      · have hrest := ih (value / BitVec.ofNat 64 base) (by
          rw [hdiv]
          exact Nat.div_lt_of_lt_mul (by rwa [← Nat.pow_succ']))
        rw [if_pos (hzero.mpr hlast), if_neg hlast, List.reverse_cons, hrest, hdiv,
          List.map_append]
        rfl

/-! ## Padding -/

/-- An `int` that is not too large. -/
theorem intOfNat_toInt {n : Nat} (h : n < 2 ^ 31) : (BitVec.ofNat 32 n).toInt = n := by
  have hnat : (BitVec.ofNat 32 n).toNat = n := by
    rw [BitVec.toNat_ofNat, Nat.mod_eq_of_lt (by omega)]
  rw [BitVec.toInt_eq_toNat_of_lt (by rw [hnat]; omega), hnat]

theorem emitPadded_eq {digits : List Char} {w : Nat} (zero : Bool) (hw : w < 2 ^ 31)
    (hlen : digits.length < 2 ^ 31) :
    emitPadded digits (BitVec.ofNat 32 w) zero =
      List.replicate (w - digits.length) (if zero then '0' else ' ') ++ digits := by
  have hpad : (BitVec.ofNat 32 w - BitVec.ofNat 32 digits.length).toInt.toNat =
      w - digits.length := by
    rw [BitVec.toInt_sub, intOfNat_toInt hw, intOfNat_toInt hlen,
      Int.bmod_eq_of_le (by omega) (by omega)]
    omega
  unfold emitPadded
  dsimp only
  rw [hpad]

/-- A number of at most 64 bits has few digits. -/
theorem length_toDigits_le {base : Nat} (hbase : 2 ≤ base) {n : Nat} (h : n < 2 ^ 64) :
    (Nat.toDigits base n).length ≤ 64 := by
  rw [Nat.length_toDigits_le_iff (by omega) (by omega)]
  exact Nat.lt_of_lt_of_le h (Nat.pow_le_pow_left hbase 64)

theorem emitUnsigned_eq {base : Nat} (hbase : 4 ≤ base) (hbase16 : base ≤ 16) (value : Word)
    (upper : Bool) {w : Nat} (hw : w < 2 ^ 31) (zero : Bool) :
    emitUnsigned value (BitVec.ofNat 64 base) upper (BitVec.ofNat 32 w) zero =
      List.replicate (w - (Nat.toDigits base value.toNat).length) (if zero then '0' else ' ') ++
        (Nat.toDigits base value.toNat).map (fun c => if upper then c.toUpper else c) := by
  have hlt : value.toNat < base ^ 32 :=
    Nat.lt_of_lt_of_le value.isLt (Nat.pow_le_pow_left hbase 32)
  have hlen : (Nat.toDigits base value.toNat).length ≤ 64 :=
    length_toDigits_le (by omega) value.isLt
  unfold emitUnsigned
  rw [digitLoop_eq (by omega) hbase16 upper 31 value hlt,
    emitPadded_eq zero hw (by rw [List.length_map]; omega), List.length_map]

/-! ## The directives -/

section Directives

variable (field : FieldSpec)

theorem emitUnsigned_standard {base : Nat} (hbase : 4 ≤ base) (hbase16 : base ≤ 16) (value : Word)
    (upper : Bool) :
    emitUnsigned value (BitVec.ofNat 64 base) upper (BitVec.ofNat 32 field.width) field.zero =
      numberField field [] ((Nat.toDigits base value.toNat).map
        (fun c => if upper then c.toUpper else c)) := by
  rw [emitUnsigned_eq hbase hbase16 value upper field.width_lt]
  unfold numberField
  dsimp only
  rw [List.length_nil, Nat.zero_add, List.length_map]
  cases field.zero <;> rfl

/-- The magnitude of a negative number. -/
theorem magnitude_toNat {v : BitVec 64} (h : v.toInt < 0) :
    (-(v + 1) + 1).toNat = v.toInt.natAbs := by
  have hneg : -(v + 1) + 1 = -v := by
    rw [BitVec.neg_add, BitVec.sub_add_cancel]
  have hlt := v.isLt
  rw [hneg, BitVec.toNat_neg]
  rw [BitVec.toInt_eq_toNat_cond] at h ⊢
  split at h
  · omega
  · next hge =>
      rw [if_neg hge, Nat.mod_eq_of_lt (by omega)]
      omega

/-- **`emit_signed` puts the minus sign out first**, then pads to the width
less one. -/
theorem emitSigned_eq (v : BitVec 64) :
    emitSigned v (BitVec.ofNat 32 field.width) field.zero =
      if v.toInt < 0 then
        '-' :: (List.replicate (field.width - 1 - (Nat.toDigits 10 v.toInt.natAbs).length)
          (if field.zero then '0' else ' ') ++ Nat.toDigits 10 v.toInt.natAbs)
      else numberField field [] (Nat.toDigits 10 v.toInt.natAbs) := by
  have hslt : v.slt 0 = true ↔ v.toInt < 0 := by
    rw [BitVec.slt_iff_toInt_lt]
    rfl
  have hbound := field.width_lt
  unfold emitSigned
  by_cases hneg : v.toInt < 0
  · have hwidth : (if (0 : BitVec 32).slt (BitVec.ofNat 32 field.width) then
        BitVec.ofNat 32 field.width - 1 else 0) = BitVec.ofNat 32 (field.width - 1) := by
      have hpos : (0 : BitVec 32).slt (BitVec.ofNat 32 field.width) = true ↔ 0 < field.width := by
        rw [BitVec.slt_iff_toInt_lt, intOfNat_toInt hbound, show (0 : BitVec 32).toInt = 0 from rfl]
        omega
      split
      · next hslt =>
          have hwidth := hpos.mp hslt
          apply BitVec.eq_of_toNat_eq
          rw [BitVec.toNat_sub, BitVec.toNat_ofNat, BitVec.toNat_ofNat,
            show (1 : BitVec 32).toNat = 1 from rfl]
          omega
      · next hslt =>
          have hzero : field.width - 1 = 0 := by
            have := mt hpos.mpr hslt
            omega
          rw [hzero]
          rfl
    rw [if_pos (hslt.mpr hneg), if_pos hneg, hwidth]
    dsimp only
    rw [show (10 : Word) = BitVec.ofNat 64 10 from rfl,
      emitUnsigned_eq (by omega) (by omega) _ false (by omega), magnitude_toNat hneg]
    simp
  · have habs : v.toNat = v.toInt.natAbs := by
      rw [BitVec.toInt_eq_toNat_cond] at hneg ⊢
      split at hneg
      · next hlt => rw [if_pos hlt]; omega
      · omega
    rw [if_neg (mt hslt.mp hneg), if_neg hneg, show (10 : Word) = BitVec.ofNat 64 10 from rfl,
      emitUnsigned_standard field (by omega) (by omega), habs]
    simp

end Directives

theorem IntArg.signExtend_toInt (v : BitVec 32) : (v.signExtend 64).toInt = v.toInt :=
  BitVec.toInt_signExtend_of_le (by decide)

/-- What is emitted for a signed conversion, whatever its length modifier. -/
theorem emitted_signed (field : FieldSpec) (arg : IntArg) (i : Bool) :
    (Directive.signed field arg i).emitted =
      if arg.signedValue < 0 then
        '-' :: (List.replicate (field.width - 1 - (Nat.toDigits 10 arg.signedValue.natAbs).length)
          (if field.zero then '0' else ' ') ++ Nat.toDigits 10 arg.signedValue.natAbs)
      else numberField field [] (Nat.toDigits 10 arg.signedValue.natAbs) := by
  cases arg with
  | int v =>
      have hemit := emitSigned_eq field (v.signExtend 64)
      rw [IntArg.signExtend_toInt] at hemit
      exact hemit
  | long v => exact emitSigned_eq field v
  | longLong v => exact emitSigned_eq field v

theorem IntArg.unsignedValue_lt (arg : IntArg) : arg.unsignedValue < 2 ^ 64 := by
  cases arg with
  | int v =>
      have hlt := v.isLt
      show v.toNat < _
      omega
  | long v => exact v.isLt
  | longLong v => exact v.isLt

/-- A signed conversion differs from the standard where spaces follow the sign. -/
theorem signed_standard_iff (field : FieldSpec) (arg : IntArg) (i : Bool) :
    (Directive.signed field arg i).emitted = (Directive.signed field arg i).standard ↔
      (Directive.signed field arg i).Conforms := by
  rw [emitted_signed]
  unfold Directive.standard Directive.Conforms numberField
  dsimp only
  generalize Nat.toDigits 10 arg.signedValue.natAbs = digits
  by_cases hneg : arg.signedValue < 0
  · have hpad : field.width - 1 - digits.length = field.width - (1 + digits.length) := by omega
    rw [if_pos hneg, if_pos hneg, List.length_singleton, hpad]
    cases hzero : field.zero with
    | true => exact iff_of_true rfl (fun h => Bool.false_ne_true h.2.1.symm)
    | false =>
        have hspaces : ¬(arg.signedValue < 0 ∧ false = false ∧ digits.length + 1 < field.width) ↔
            field.width - (1 + digits.length) = 0 := by
          rw [and_iff_right hneg, and_iff_right rfl]
          omega
        rw [hspaces]
        cases hn : field.width - (1 + digits.length) with
        | zero => exact iff_of_true rfl rfl
        | succ n =>
            refine iff_of_false (fun heq => ?_) (Nat.succ_ne_zero n)
            -- one starts with the sign, the other with a space
            have hhead := (List.cons.inj heq).1
            exact absurd hhead (by decide)
  · rw [if_neg hneg, if_neg hneg]
    exact iff_of_true rfl (fun h => hneg h.1)

/-- A string differs where its length, as an `int`, leaves a padding. -/
theorem string_standard_iff (field : FieldSpec) (hfield : field.zero = false) (s : List Char) :
    (Directive.string field hfield s).emitted = (Directive.string field hfield s).standard ↔
      (Directive.string field hfield s).Conforms := by
  have hbound := field.width_lt
  unfold Directive.emitted Directive.standard Directive.Conforms
  dsimp only
  by_cases hlong : s.length < 2 ^ 31
  · rw [emitPadded_eq false hbound hlong]
    exact iff_of_true rfl (fun h => by omega)
  · rw [not_lt] at hlong
    rw [and_iff_right hlong, show field.width - s.length = 0 by omega]
    unfold emitPadded
    dsimp only
    rw [List.append_left_inj, List.replicate_zero, List.replicate_eq_nil_iff]
    omega

/-- A directive's output is the standard's where `Conforms` says so. -/
theorem emitted_eq_iff (d : Directive) : d.emitted = d.standard ↔ d.Conforms := by
  cases d with
  | literal c hc => exact iff_of_true rfl trivial
  | signed field arg i => exact signed_standard_iff field arg i
  | unsigned field arg =>
      refine iff_of_true ?_ trivial
      have hten : (4 : Nat) ≤ 10 ∧ 10 ≤ 16 := by decide
      have hemit := emitUnsigned_standard field hten.1 hten.2
        (BitVec.ofNat 64 arg.unsignedValue) false
      rw [toNat_ofNat_of_lt arg.unsignedValue_lt] at hemit
      refine hemit.trans ?_
      show numberField field [] (List.map (fun c => c) _) = _
      rw [List.map_id']
      rfl
  | hex upper field arg =>
      refine iff_of_true ?_ trivial
      have hsixteen : (4 : Nat) ≤ 16 ∧ 16 ≤ 16 := by decide
      have hemit := emitUnsigned_standard field hsixteen.1 hsixteen.2
        (BitVec.ofNat 64 arg.unsignedValue) upper
      rw [toNat_ofNat_of_lt arg.unsignedValue_lt] at hemit
      exact hemit
  | string field hfield s => exact string_standard_iff field hfield s
  | char v => exact iff_of_true rfl trivial
  | percent => exact iff_of_true rfl trivial

/-- Nothing is shorter than the standard has it. -/
theorem standard_length_le (d : Directive) : d.standard.length ≤ d.emitted.length := by
  by_cases hconforms : d.Conforms
  · rw [(emitted_eq_iff d).mpr hconforms]
  · cases d with
    | signed field arg i =>
        obtain ⟨hneg, hzero, -⟩ := not_not.mp hconforms
        rw [emitted_signed, if_pos hneg]
        unfold Directive.standard numberField
        dsimp only
        rw [if_pos hneg, hzero]
        simp only [Bool.false_eq_true, if_false, List.length_append, List.length_replicate,
          List.length_cons, List.length_nil]
        omega
    | string field hfield s =>
        obtain ⟨hlong, -⟩ := not_not.mp hconforms
        have hbound := field.width_lt
        unfold Directive.standard Directive.emitted emitPadded
        dsimp only
        rw [show field.width - s.length = 0 by omega, List.length_append, List.length_append,
          List.length_replicate]
        omega
    | literal c hc => exact absurd trivial hconforms
    | unsigned field arg => exact absurd trivial hconforms
    | hex upper field arg => exact absurd trivial hconforms
    | char v => exact absurd trivial hconforms
    | percent => exact absurd trivial hconforms

/-- Outputs that are piece by piece no shorter are the same only piece by
piece. -/
theorem flatMap_eq_iff {α β : Type} {f g : α → List β} (h : ∀ x, (g x).length ≤ (f x).length)
    (xs : List α) : xs.flatMap f = xs.flatMap g ↔ ∀ x ∈ xs, f x = g x := by
  have hle : ∀ xs : List α, (xs.flatMap g).length ≤ (xs.flatMap f).length := by
    intro xs
    induction xs with
    | nil => exact Nat.le_refl _
    | cons x xs ih =>
        have hx := h x
        rw [List.flatMap_cons, List.flatMap_cons, List.length_append, List.length_append]
        omega
  induction xs with
  | nil => exact iff_of_true rfl (fun x hx => absurd hx List.not_mem_nil)
  | cons x xs ih =>
      rw [List.flatMap_cons, List.flatMap_cons, List.forall_mem_cons]
      constructor
      · intro heq
        have hlen := congrArg List.length heq
        have hx := h x
        have hxs := hle xs
        rw [List.length_append, List.length_append] at hlen
        obtain ⟨hhead, htail⟩ := List.append_inj heq (by omega)
        exact ⟨hhead, ih.mp htail⟩
      · rintro ⟨hhead, htail⟩
        rw [hhead, ih.mpr htail]

/-! ## The parser -/

/-- The conversion characters of the directives. -/
def conversionChars : List Char := ['d', 'i', 'u', 'x', 'X', 's', 'c', '%']

/-- They are told from flag, width and length modifier. -/
theorem conversionChars_apart {c : Char} (hc : c ∈ conversionChars) :
    c ≠ '0' ∧ c ≠ 'l' ∧ ¬('0' ≤ c ∧ c ≤ '9') := by
  unfold conversionChars at hc
  simp only [List.mem_cons, List.not_mem_nil, or_false] at hc
  rcases hc with rfl | rfl | rfl | rfl | rfl | rfl | rfl | rfl <;> decide

section Parser

variable {c : Char} {p rest : List Char} {ap : List VaArg}

theorem readFlag_of_ne (h : c ≠ '0') : readFlag (c :: p) = (false, c :: p) := by
  unfold readFlag
  split
  · next heq => exact absurd (List.cons.inj heq).1 h
  · rfl

/-- Digits of the width. -/
theorem readWidth_digits (digits : List (Fin 10)) (w : Nat) :
    readWidth (BitVec.ofNat 32 w) (digitText digits ++ p) =
      readWidth (BitVec.ofNat 32 (decimalFrom w digits)) p := by
  induction digits generalizing w with
  | nil => rfl
  | cons d digits ih =>
      have hdigit : ∀ d : Fin 10, ('0' ≤ Nat.digitChar d ∧ Nat.digitChar d ≤ '9') ∧
          (Nat.digitChar d).toNat - '0'.toNat = (d : Nat) := by decide
      obtain ⟨hrange, hvalue⟩ := hdigit d
      have hfold : decimalFrom w (d :: digits) = decimalFrom (w * 10 + (d : Nat)) digits := rfl
      have htext : digitText (d :: digits) ++ p = Nat.digitChar d :: (digitText digits ++ p) := rfl
      rw [htext, readWidth, if_pos hrange, hvalue, hfold, ← ih, BitVec.ofNat_add, BitVec.ofNat_mul]
      rfl

theorem readWidth_stop (w : BitVec 32) (h : ¬('0' ≤ c ∧ c ≤ '9')) :
    readWidth w (c :: p) = (w, c :: p) := by
  rw [readWidth, if_neg h]

theorem readLength_stop (n : Nat) (h : c ≠ 'l') : readLength n (c :: p) = (n, c :: p) := by
  unfold readLength
  split
  · next heq => exact absurd (List.cons.inj heq).1 h
  · rfl

theorem readLength_modifier (arg : IntArg) (h : c ≠ 'l') :
    readLength 0 (arg.modifier ++ c :: p) = (arg.modifier.length, c :: p) := by
  cases arg <;> exact readLength_stop _ h

/-- What can stand after the width. -/
theorem modifier_head (arg : IntArg) (hc : c ∈ conversionChars) :
    ∃ x q, arg.modifier ++ c :: p = x :: q ∧ x ≠ '0' ∧ ¬('0' ≤ x ∧ x ≤ '9') := by
  obtain ⟨hzero, -, hdigit⟩ := conversionChars_apart hc
  cases arg with
  | int v => exact ⟨c, p, rfl, hzero, hdigit⟩
  | long v => exact ⟨'l', _, rfl, by decide, by decide⟩
  | longLong v => exact ⟨'l', _, rfl, by decide, by decide⟩

theorem readFlag_field (field : FieldSpec) (arg : IntArg) (hc : c ∈ conversionChars) :
    readFlag (field.text ++ (arg.modifier ++ c :: p)) =
      (field.zero, digitText field.digits ++ (arg.modifier ++ c :: p)) := by
  unfold FieldSpec.text
  cases hzero : field.zero with
  | true => rfl
  | false =>
      have hleading := field.leading hzero
      rw [if_neg Bool.false_ne_true, List.nil_append]
      cases hdigits : field.digits with
      | nil =>
          obtain ⟨x, q, heq, hx, -⟩ := modifier_head (p := p) arg hc
          show readFlag (arg.modifier ++ c :: p) = (false, arg.modifier ++ c :: p)
          rw [heq, readFlag_of_ne hx]
      | cons d digits =>
          rw [hdigits] at hleading
          have hne : ∀ d : Fin 10, d ≠ 0 → Nat.digitChar d ≠ '0' := by decide
          exact readFlag_of_ne (hne d (fun h => hleading (congrArg some h)))

theorem readWidth_field (field : FieldSpec) (arg : IntArg) (hc : c ∈ conversionChars) :
    readWidth 0 (digitText field.digits ++ (arg.modifier ++ c :: p)) =
      (BitVec.ofNat 32 field.width, arg.modifier ++ c :: p) := by
  have hread := readWidth_digits (p := arg.modifier ++ c :: p) field.digits 0
  obtain ⟨x, q, heq, -, hx⟩ := modifier_head (p := p) arg hc
  rw [show BitVec.ofNat 32 0 = (0 : BitVec 32) from rfl] at hread
  rw [hread, heq, readWidth_stop _ hx]
  rfl

/-- **A conversion is parsed as it was written.** -/
theorem kvprintfFrom_conversion (field : FieldSpec) (arg : IntArg) (hc : c ∈ conversionChars)
    (fuel : Nat) :
    kvprintfFrom (fuel + 1) (Directive.conversion field arg.modifier c ++ rest) ap =
      (convert field.zero (BitVec.ofNat 32 field.width) arg.modifier.length c ap).bind
        (fun (out, ap) => (kvprintfFrom fuel rest ap).map (out ++ ·)) := by
  have hshape : Directive.conversion field arg.modifier c ++ rest =
      '%' :: (field.text ++ (arg.modifier ++ c :: rest)) := by
    unfold Directive.conversion
    simp
  have hne : field.text ++ (arg.modifier ++ c :: rest) ≠ [] := by simp
  rw [hshape, kvprintfFrom, if_neg (by simp), if_neg hne, readFlag_field field arg hc]
  dsimp only
  rw [readWidth_field field arg hc]
  dsimp only
  rw [readLength_modifier arg (conversionChars_apart hc).2.1]

end Parser

theorem vaUnsigned_arg (arg : IntArg) (ap : List VaArg) :
    vaUnsigned arg.modifier.length (arg.arg :: ap) =
      some (BitVec.ofNat 64 arg.unsignedValue, ap) := by
  have hsame : ∀ v : BitVec 64, v = BitVec.ofNat 64 v.toNat := by
    intro v
    rw [BitVec.ofNat_toNat, BitVec.setWidth_eq]
  cases arg with
  | int v =>
      have hwiden : v.setWidth 64 = BitVec.ofNat 64 v.toNat := by
        apply BitVec.eq_of_toNat_eq
        rw [BitVec.toNat_setWidth, BitVec.toNat_ofNat]
      exact congrArg (fun w => some (w, ap)) hwiden
  | long v => exact congrArg (fun w => some (w, ap)) (hsame v)
  | longLong v => exact congrArg (fun w => some (w, ap)) (hsame v)

/-- What `convert` does for a directive. -/
theorem kvprintfFrom_directive (d : Directive) (fuel : Nat) (rest : List Char) (ap : List VaArg) :
    kvprintfFrom (fuel + 1) (d.text ++ rest) (d.args ++ ap) =
      (kvprintfFrom fuel rest ap).map (d.emitted ++ ·) := by
  cases d with
  | literal c hc =>
      show kvprintfFrom (fuel + 1) (c :: rest) ap = _
      rw [kvprintfFrom, if_pos hc.1]
      rfl
  | signed field arg i =>
      have hc : (if i then 'i' else 'd') ∈ conversionChars := by cases i <;> decide
      have hd : (if i then 'i' else 'd') = 'd' ∨ (if i then 'i' else 'd') = 'i' := by
        cases i <;> decide
      show kvprintfFrom (fuel + 1) (Directive.conversion _ _ _ ++ rest) (arg.arg :: ap) = _
      rw [kvprintfFrom_conversion field arg hc]
      unfold convert
      rw [if_pos hd]
      cases arg <;> rfl
  | unsigned field arg =>
      have hc : 'u' ∈ conversionChars := by decide
      show kvprintfFrom (fuel + 1) (Directive.conversion _ _ _ ++ rest) (arg.arg :: ap) = _
      rw [kvprintfFrom_conversion field arg hc]
      unfold convert
      rw [if_neg (by decide), if_pos rfl, vaUnsigned_arg]
      rfl
  | hex upper field arg =>
      have hc : (if upper then 'X' else 'x') ∈ conversionChars := by cases upper <;> decide
      show kvprintfFrom (fuel + 1) (Directive.conversion _ _ _ ++ rest) (arg.arg :: ap) = _
      rw [kvprintfFrom_conversion field arg hc]
      unfold convert
      rw [vaUnsigned_arg]
      cases upper <;> rfl
  | string field hfield s =>
      have hc : 's' ∈ conversionChars := by decide
      show kvprintfFrom (fuel + 1) (Directive.conversion field (IntArg.int 0).modifier 's' ++ rest)
        (.string (some s) :: ap) = _
      rw [kvprintfFrom_conversion field _ hc]
      rfl
  | char v =>
      have hc : 'c' ∈ conversionChars := by decide
      show kvprintfFrom (fuel + 1) (Directive.conversion .none (IntArg.int 0).modifier 'c' ++ rest)
        (.int v :: ap) = _
      rw [kvprintfFrom_conversion _ _ hc]
      rfl
  | percent =>
      have hc : '%' ∈ conversionChars := by decide
      show kvprintfFrom (fuel + 1) (Directive.conversion .none (IntArg.int 0).modifier '%' ++ rest)
        ap = _
      rw [kvprintfFrom_conversion _ _ hc]
      rfl

/-- **`kvprintf` emits the directives' output in order.** -/
theorem kvprintf_emits (ds : List Directive) :
    kvprintf (formatText ds) (formatArgs ds) = some (ds.flatMap Directive.emitted) := by
  have hrun : ∀ fuel, ds.length < fuel →
      kvprintfFrom fuel (formatText ds) (formatArgs ds) = some (ds.flatMap Directive.emitted) := by
    induction ds with
    | nil =>
        intro fuel hfuel
        obtain ⟨n, rfl⟩ := Nat.exists_eq_succ_of_ne_zero (Nat.ne_of_gt hfuel)
        rfl
    | cons d ds ih =>
        intro fuel hfuel
        obtain ⟨n, rfl⟩ := Nat.exists_eq_succ_of_ne_zero (Nat.ne_of_gt (Nat.zero_lt_of_lt hfuel))
        have hrest := ih n (by rw [List.length_cons] at hfuel; omega)
        have hstep := kvprintfFrom_directive d n (formatText ds) (formatArgs ds)
        rw [hrest] at hstep
        exact hstep
  -- every directive has a character at least
  have hlen : ds.length ≤ (formatText ds).length := by
    unfold formatText
    clear hrun
    induction ds with
    | nil => exact Nat.le_refl _
    | cons d ds ih =>
        have hpos : 1 ≤ d.text.length := by
          cases d <;> exact Nat.succ_le_succ (Nat.zero_le _)
        rw [List.flatMap_cons, List.length_append, List.length_cons]
        omega
  exact hrun _ (Nat.lt_succ_of_le hlen)

/-- **When `kvprintf` is `printf`.** For any literal text and conversions with
matching arguments, the characters emitted are those of the C standard exactly
when no negative number without the `'0'` flag is narrower than its width, and
no string is too long for an `int`. -/
theorem kvprintf_standard_iff (ds : List Directive) :
    kvprintf (formatText ds) (formatArgs ds) = some (ds.flatMap Directive.standard) ↔
      ∀ d ∈ ds, d.Conforms := by
  rw [kvprintf_emits, Option.some_inj, flatMap_eq_iff standard_length_le]
  exact forall₂_congr (fun d _ => emitted_eq_iff d)

/-- `"%5d"` of -3 has its spaces behind the minus sign. -/
theorem kvprintf_negative_padded :
    ¬∀ ds, kvprintf (formatText ds) (formatArgs ds) = some (ds.flatMap Directive.standard) := by
  intro h
  have hout := h [.signed ⟨false, [5], by decide, by decide⟩ (.int (-3)) false]
  exact absurd hout (by decide +kernel)

end QuinKernel
