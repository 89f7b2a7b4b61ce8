import QuinKernel.Lib.Format

/-!
# Numbers as text, read back

`decodeDigits` reads a row of digits as the number it denotes. The digits
`emit_unsigned` puts out denote its value, with no zero in front
(`unsignedDigits_numeral`); behind its sign, `emit_signed` puts out the digits
of the magnitude, which it finds without overflow.
-/

namespace QuinKernel

open Machine

/-- The value of a digit. -/
def digitValue (c : Char) : Nat :=
  if c ≤ '9' then c.toNat - '0'.toNat
  else if c ≤ 'F' then c.toNat - 'A'.toNat + 10
  else c.toNat - 'a'.toNat + 10

/-- The number digits denote, the most significant first. -/
def decodeDigits (base : Nat) (digits : List Char) : Nat :=
  digits.foldl (fun n c => base * n + digitValue c) 0

/-- `digits` is how `n` is written in a base: with digits of the base, and with a
leading zero only for zero itself. -/
structure Numeral (base : Nat) (upper : Bool) (digits : List Char) (n : Nat) : Prop where
  digit : ∀ c ∈ digits, c ∈ (digitTable upper).take base
  nonempty : digits ≠ []
  leading : digits.head? = some '0' → digits = ['0']
  value : decodeDigits base digits = n

/-- What `reversed` holds in `emit_unsigned`. -/
def unsignedDigits (value base : Word) (upper : Bool) : List Char :=
  (digitLoop (digitTable upper) base 32 value).reverse

/-- How many times `emit_padded` emits its padding. -/
def padLength (width : BitVec 32) (digits : List Char) : Nat :=
  (width - BitVec.ofNat 32 digits.length).toInt.toNat

/-- The number that `emit_unsigned` emits reads back: behind the padding comes its
numeral, and the buffers of 32 digits neither fill up nor cut it short. -/
structure UnsignedDecodes (base : Nat) (value : Word) (upper : Bool) (width : BitVec 32)
    (zeroPad : Bool) : Prop where
  text : emitUnsigned value (BitVec.ofNat 64 base) upper width zeroPad =
    List.replicate (padLength width (unsignedDigits value (BitVec.ofNat 64 base) upper))
      (if zeroPad then '0' else ' ') ++ unsignedDigits value (BitVec.ofNat 64 base) upper
  numeral : Numeral base upper (unsignedDigits value (BitVec.ofNat 64 base) upper) value.toNat
  unfilled : (unsignedDigits value (BitVec.ofNat 64 base) upper).length < 32
  whole : ∀ room, 32 ≤ room →
    digitLoop (digitTable upper) (BitVec.ofNat 64 base) room value =
      digitLoop (digitTable upper) (BitVec.ofNat 64 base) 32 value

/-! ## Digits of a number -/

/-- A digit in the case asked for. -/
def digitChar (upper : Bool) (d : Nat) : Char :=
  if upper then (Nat.digitChar d).toUpper else Nat.digitChar d

theorem digitValue_digitChar {d : Nat} (hd : d < 16) (upper : Bool) :
    digitValue (digitChar upper d) = d := by
  revert upper
  interval_cases d <;> decide

theorem digitChar_mem {d base : Nat} (hd : d < base) (hbase : base ≤ 16) (upper : Bool) :
    digitChar upper d ∈ (digitTable upper).take base := by
  have hlen : (digitTable upper).length = 16 := by cases upper <;> rfl
  have hlt : d < (digitTable upper).length := by omega
  have hget : (digitTable upper)[d] = digitChar upper d := by
    rw [← List.getD_eq_getElem _ '\x00' (by omega), digitTable_getD (by omega)]
    rfl
  exact List.mem_take_iff_getElem.mpr ⟨d, by omega, hget⟩

theorem decodeDigits_concat (base : Nat) (digits : List Char) (c : Char) :
    decodeDigits base (digits ++ [c]) = base * decodeDigits base digits + digitValue c := by
  unfold decodeDigits
  rw [List.foldl_append]
  rfl

section Digits

variable {base : Nat} (hbase : 1 < base) (hbase16 : base ≤ 16) (upper : Bool)

/-- The digits of a number in the case asked for. -/
def caseDigits (base : Nat) (upper : Bool) (n : Nat) : List Char :=
  (Nat.toDigits base n).map (fun c => if upper then c.toUpper else c)

include hbase in
/-- The last digit, and those in front of it. -/
theorem caseDigits_eq (n : Nat) :
    caseDigits base upper n =
      if n < base then [digitChar upper n]
      else caseDigits base upper (n / base) ++ [digitChar upper (n % base)] := by
  unfold caseDigits
  rw [Nat.toDigits_eq_if hbase]
  by_cases hlast : n < base
  · rw [if_pos hlast, if_pos hlast]
    rfl
  · rw [if_neg hlast, if_neg hlast, List.map_append]
    rfl

include hbase hbase16 in
/-- **The digits of a number are its numeral.** -/
theorem caseDigits_numeral (n : Nat) : Numeral base upper (caseDigits base upper n) n := by
  induction n using Nat.strong_induction_on with
  | _ n ih =>
      by_cases hlast : n < base
      · have heq := caseDigits_eq hbase upper n
        rw [if_pos hlast] at heq
        rw [heq]
        refine ⟨?_, List.cons_ne_nil _ _, ?_, ?_⟩
        · intro c hc
          rw [List.mem_singleton.mp hc]
          exact digitChar_mem hlast hbase16 upper
        · intro hhead
          exact congrArg (fun c => [c]) (Option.some.inj hhead)
        · show base * 0 + digitValue (digitChar upper n) = n
          rw [digitValue_digitChar (by omega), Nat.mul_zero, Nat.zero_add]
      · have hmod : n % base < base := Nat.mod_lt _ (by omega)
        have hfront : 0 < n / base := Nat.div_pos (by omega) (by omega)
        have hrest := ih (n / base) (Nat.div_lt_self (by omega) hbase)
        have heq := caseDigits_eq hbase upper n
        rw [if_neg hlast] at heq
        rw [heq]
        refine ⟨?_, by simp, ?_, ?_⟩
        · intro c hc
          rcases List.mem_append.mp hc with hc | hc
          · exact hrest.digit c hc
          · rw [List.mem_singleton.mp hc]
            exact digitChar_mem hmod hbase16 upper
        · -- the front is the numeral of a positive number
          intro hhead
          rw [List.head?_append_of_ne_nil _ hrest.nonempty] at hhead
          have hvalue := hrest.value
          rw [hrest.leading hhead] at hvalue
          exact absurd hvalue (Nat.ne_of_lt hfront)
        · rw [decodeDigits_concat, hrest.value, digitValue_digitChar (by omega)]
          exact Nat.div_add_mod n base

end Digits

/-! ## `emit_unsigned` -/

section Unsigned

variable {base : Nat} (hbase : base = 10 ∨ base = 16) (value : Word) (upper : Bool)

include hbase

/-- Twenty digits are enough. -/
theorem value_lt_base_pow : value.toNat < base ^ 20 := by
  have hlt := value.isLt
  rcases hbase with rfl | rfl <;> omega

/-- The digits in `reversed` are the number's. -/
theorem unsignedDigits_eq :
    unsignedDigits value (BitVec.ofNat 64 base) upper = caseDigits base upper value.toNat := by
  have hlt := value_lt_base_pow hbase value
  have hpow : base ^ 20 ≤ base ^ (31 + 1) := Nat.pow_le_pow_right (by omega) (by omega)
  exact digitLoop_eq (by omega) (by omega) upper 31 value (by omega)

theorem unsignedDigits_numeral :
    Numeral base upper (unsignedDigits value (BitVec.ofNat 64 base) upper) value.toNat := by
  rw [unsignedDigits_eq hbase]
  exact caseDigits_numeral (by omega) (by omega) upper value.toNat

/-- The buffers of 32 digits have room to spare. -/
theorem unsignedDigits_length :
    (unsignedDigits value (BitVec.ofNat 64 base) upper).length ≤ 20 := by
  rw [unsignedDigits_eq hbase, caseDigits, List.length_map,
    Nat.length_toDigits_le_iff (by omega) (by omega)]
  exact value_lt_base_pow hbase value

/-- A larger buffer would hold the same digits. -/
theorem digitLoop_room {room : Nat} (hroom : 32 ≤ room) :
    digitLoop (digitTable upper) (BitVec.ofNat 64 base) room value =
      digitLoop (digitTable upper) (BitVec.ofNat 64 base) 32 value := by
  have hlt := value_lt_base_pow hbase value
  have hall : ∀ n, 19 ≤ n →
      (digitLoop (digitTable upper) (BitVec.ofNat 64 base) (n + 1) value).reverse =
        caseDigits base upper value.toNat := by
    intro n hn
    have hpow : base ^ 20 ≤ base ^ (n + 1) := Nat.pow_le_pow_right (by omega) (by omega)
    exact digitLoop_eq (by omega) (by omega) upper n value (by omega)
  have hroom' := hall (room - 1) (by omega)
  rw [Nat.sub_add_cancel (by omega)] at hroom'
  exact List.reverse_injective (hroom'.trans (hall 31 (by omega)).symm)

/-- **`emit_unsigned` writes its value.** -/
theorem emitUnsigned_decodes (width : BitVec 32) (zeroPad : Bool) :
    UnsignedDecodes base value upper width zeroPad := by
  have hlen := unsignedDigits_length hbase value upper
  exact ⟨rfl, unsignedDigits_numeral hbase value upper, by omega,
    fun room hroom => digitLoop_room hbase value upper hroom⟩

end Unsigned

/-! ## `emit_signed` -/

/-- The `uint64_t` that `emit_signed` hands to `emit_unsigned`. -/
def magnitude (value : BitVec 64) : Word :=
  if value.slt 0 then -(value + 1) + 1 else value

/-- The width that `emit_signed` hands to `emit_unsigned`. -/
def magnitudeWidth (value : BitVec 64) (width : BitVec 32) : BitVec 32 :=
  if value.slt 0 then (if (0 : BitVec 32).slt width then width - 1 else 0) else width

/-- The number that `emit_signed` emits reads back: a sign if it is negative, the
padding, and the numeral of the magnitude. No signed operation on the value or the
width overflows, nor the padding's, unless the width of a number that is not
negative lies within its digits of the least `int`; a width read from a format
without overflow is not negative. -/
structure SignedDecodes (value : BitVec 64) (width : BitVec 32) (zeroPad : Bool) : Prop where
  text : emitSigned value width zeroPad = (if value.toInt < 0 then ['-'] else []) ++
    (List.replicate
        (padLength (magnitudeWidth value width) (unsignedDigits (magnitude value) 10 false))
        (if zeroPad then '0' else ' ') ++
      unsignedDigits (magnitude value) 10 false)
  numeral : Numeral 10 false (unsignedDigits (magnitude value) 10 false) value.toInt.natAbs
  decodes : (if value.toInt < 0
      then -(decodeDigits 10 (unsignedDigits (magnitude value) 10 false) : Int)
      else decodeDigits 10 (unsignedDigits (magnitude value) 10 false)) = value.toInt
  magnitude_fits : value.toInt < 0 →
    value.saddOverflow 1 = false ∧ (value + 1).negOverflow = false
  width_fits : 0 < width.toInt → width.ssubOverflow 1 = false
  pad_fits : value.toInt < 0 ∨ -2 ^ 31 + 20 ≤ width.toInt →
    (magnitudeWidth value width).ssubOverflow
      (BitVec.ofNat 32 (unsignedDigits (magnitude value) 10 false).length) = false

section Signed

variable (value : BitVec 64) (width : BitVec 32) (zeroPad : Bool)

theorem slt_zero_iff {w : Nat} (v : BitVec w) : v.slt 0 = true ↔ v.toInt < 0 := by
  rw [BitVec.slt_iff_toInt_lt, show (0 : BitVec w).toInt = 0 from BitVec.toInt_zero]

theorem magnitude_eq : (magnitude value).toNat = value.toInt.natAbs := by
  unfold magnitude
  by_cases hneg : value.toInt < 0
  · rw [if_pos ((slt_zero_iff value).mpr hneg), magnitude_toNat hneg]
  · rw [if_neg (mt (slt_zero_iff value).mp hneg)]
    rw [BitVec.toInt_eq_toNat_cond] at hneg ⊢
    split at hneg
    · next hlt =>
        rw [if_pos hlt]
        omega
    · omega

/-- The sign, and then the magnitude. -/
theorem emitSigned_sign :
    emitSigned value width zeroPad = (if value.toInt < 0 then ['-'] else []) ++
      emitUnsigned (magnitude value) 10 false (magnitudeWidth value width) zeroPad := by
  unfold emitSigned magnitude magnitudeWidth
  by_cases hneg : value.toInt < 0
  · have hslt := (slt_zero_iff value).mpr hneg
    rw [if_pos hslt, if_pos hneg, if_pos hslt, if_pos hslt]
    rfl
  · have hslt := mt (slt_zero_iff value).mp hneg
    rw [if_neg hslt, if_neg hneg, if_neg hslt, if_neg hslt]
    rfl

/-- No step to the magnitude of a negative number overflows. -/
theorem magnitude_fits (hneg : value.toInt < 0) :
    value.saddOverflow 1 = false ∧ (value + 1).negOverflow = false := by
  have hlo := BitVec.le_toInt value
  have hone : (1 : BitVec 64).toInt = 1 := rfl
  have hadd : value.saddOverflow 1 = false := by
    unfold BitVec.saddOverflow
    simp only [hone, Bool.or_eq_false_iff, decide_eq_false_iff_not]
    omega
  have hsum : (value + 1).toInt = value.toInt + 1 := by
    rw [BitVec.toInt_add_of_not_saddOverflow (Bool.eq_false_iff.mp hadd), hone]
  refine ⟨hadd, ?_⟩
  unfold BitVec.negOverflow
  rw [hsum, beq_eq_false_iff_ne]
  omega

/-- Nor does the width less one. -/
theorem width_fits (hpos : 0 < width.toInt) : width.ssubOverflow 1 = false := by
  have hhi := BitVec.toInt_lt (x := width)
  have hone : (1 : BitVec 32).toInt = 1 := rfl
  unfold BitVec.ssubOverflow
  simp only [hone, Bool.or_eq_false_iff, decide_eq_false_iff_not]
  omega

/-- Nor does `emit_padded`'s subtraction, for a few digits and a width that is not
within them of the least `int`. -/
theorem pad_fits {n : Nat} (hn : n ≤ 20) (hwidth : -2 ^ 31 + 20 ≤ width.toInt) :
    width.ssubOverflow (BitVec.ofNat 32 n) = false := by
  have hhi := BitVec.toInt_lt (x := width)
  have hlen := intOfNat_toInt (n := n) (by omega)
  unfold BitVec.ssubOverflow
  simp only [hlen, Bool.or_eq_false_iff, decide_eq_false_iff_not]
  omega

theorem magnitudeWidth_ge (hwidth : value.toInt < 0 ∨ -2 ^ 31 + 20 ≤ width.toInt) :
    -2 ^ 31 + 20 ≤ (magnitudeWidth value width).toInt := by
  have hzero : (0 : BitVec 32).toInt = 0 := rfl
  unfold magnitudeWidth
  split
  · split
    · next hpos =>
        rw [BitVec.slt_iff_toInt_lt, hzero] at hpos
        have hfits := Bool.eq_false_iff.mp (width_fits width hpos)
        rw [BitVec.toInt_sub_of_not_ssubOverflow hfits]
        show -2 ^ 31 + 20 ≤ width.toInt - 1
        omega
    · rw [hzero]
      omega
  · next hneg => exact hwidth.resolve_left (mt (slt_zero_iff value).mpr hneg)

/-- **`emit_signed` writes its value.** -/
theorem emitSigned_decodes : SignedDecodes value width zeroPad := by
  have hnumeral := unsignedDigits_numeral (.inl rfl) (magnitude value) false
  rw [magnitude_eq value] at hnumeral
  have hlen := unsignedDigits_length (.inl rfl) (magnitude value) false
  refine ⟨emitSigned_sign value width zeroPad, hnumeral, ?_, magnitude_fits value,
    width_fits width, fun hwidth => pad_fits _ hlen (magnitudeWidth_ge value width hwidth)⟩
  have hvalue : decodeDigits 10 (unsignedDigits (magnitude value) 10 false) =
    value.toInt.natAbs := hnumeral.value
  rw [hvalue]
  split <;> omega

end Signed

/-- **The numbers `kvprintf` writes**, for every value, either base, every width and
either padding. -/
theorem emitted_numbers_decode (value : BitVec 64) (width : BitVec 32) (zeroPad : Bool) :
    (∀ base : Nat, base = 10 ∨ base = 16 → ∀ upper : Bool,
      UnsignedDecodes base value upper width zeroPad) ∧
    SignedDecodes value width zeroPad :=
  ⟨fun _ hbase upper => emitUnsigned_decodes hbase value upper width zeroPad,
    emitSigned_decodes value width zeroPad⟩

/-- The least number, and 255 in capitals. -/
theorem emitted_numbers_decode_extremes :
    Numeral 16 true (unsignedDigits 255 16 true) 255 ∧
    Numeral 10 false (unsignedDigits (magnitude (BitVec.intMin 64)) 10 false) (2 ^ 63) ∧
    (BitVec.intMin 64).saddOverflow 1 = false := by
  have hleast : (BitVec.intMin 64).toInt = -2 ^ 63 := by decide +kernel
  have hsigned := (emitted_numbers_decode (BitVec.intMin 64) 0 false).2
  have hnumeral := hsigned.numeral
  rw [hleast] at hnumeral
  exact ⟨((emitted_numbers_decode 255 0 false).1 16 (.inr rfl) true).numeral, hnumeral,
    (hsigned.magnitude_fits (by rw [hleast]; decide)).1⟩

end QuinKernel
