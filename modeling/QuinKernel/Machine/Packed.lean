import QuinKernel.Machine.Memory

/-!
# Packed records

A packed record is a row of fields with no gap between them. `storeFields`
stores such a row, `packed` is the little-endian number its bytes make, and
`loadNat_storeFields` reads it back whole. A processor's descriptor is such a
number, of which it then takes the bits apart.
-/

namespace QuinKernel.Machine

theorem toNat_append_eq {n k : Nat} (x : BitVec n) (y : BitVec k) :
    (x ++ y).toNat = x.toNat * 2 ^ k + y.toNat := by
  rw [BitVec.toNat_append, ← Nat.shiftLeft_add_eq_or_of_lt y.isLt, Nat.shiftLeft_eq]

theorem toNat_and_mask (w : Word) {k : Nat} (hk : k ≤ 64) :
    (w &&& BitVec.ofNat 64 (2 ^ k - 1)).toNat = w.toNat % 2 ^ k := by
  have hlt : 2 ^ k ≤ 2 ^ 64 := Nat.pow_le_pow_right (by decide) hk
  have hpos : 0 < 2 ^ k := by positivity
  rw [BitVec.toNat_and, toNat_ofNat_of_lt (by omega), Nat.and_two_pow_sub_one_eq_mod]

/-- Store fields in a row, each a width in bytes and a value. -/
def storeFields (m : Mem) (a : Nat) : List (Nat × Nat) → Mem
  | [] => m
  | (width, value) :: fields => storeFields (storeNat m a width value) (a + width) fields

/-- The bytes of a row of fields. -/
def fieldsWidth : List (Nat × Nat) → Nat
  | [] => 0
  | (width, _) :: fields => width + fieldsWidth fields

/-- The number a row of fields makes, each cut to its width. -/
def packed : List (Nat × Nat) → Nat
  | [] => 0
  | (width, value) :: fields => value % 256 ^ width + 256 ^ width * packed fields

theorem loadNat_add (m : Mem) (a n k : Nat) :
    loadNat m a (n + k) = loadNat m a n + 256 ^ n * loadNat m (a + n) k := by
  induction n generalizing a with
  | zero => simp [loadNat]
  | succ n ih =>
      rw [show n + 1 + k = n + k + 1 by omega, loadNat, loadNat, ih, Nat.mul_add, ← Nat.mul_assoc,
        ← Nat.pow_succ', show a + 1 + n = a + (n + 1) by omega, Nat.add_assoc]

section Fields

variable {m : Mem} {a : Nat} {fields gields : List (Nat × Nat)}

theorem storeFields_append : storeFields m a (fields ++ gields) =
    storeFields (storeFields m a fields) (a + fieldsWidth fields) gields := by
  induction fields generalizing m a with
  | nil => rfl
  | cons f fields ih =>
      obtain ⟨width, value⟩ := f
      rw [List.cons_append, storeFields, ih, fieldsWidth, ← Nat.add_assoc]
      rfl

theorem storeFields_agreeOff : AgreeOff a (a + fieldsWidth fields) m (storeFields m a fields) := by
  induction fields generalizing m a with
  | nil => exact .refl _ _ _
  | cons f fields ih =>
      obtain ⟨width, value⟩ := f
      rw [fieldsWidth, ← Nat.add_assoc]
      exact ((storeNat_agreeOff m a width value).mono (Nat.le_refl _) (Nat.le_add_right _ _)).trans
        (ih.mono (Nat.le_add_right _ _) (Nat.le_refl _))

/-- **A record read back** is the number its fields make. -/
theorem loadNat_storeFields :
    loadNat (storeFields m a fields) a (fieldsWidth fields) = packed fields := by
  induction fields generalizing m a with
  | nil => rfl
  | cons f fields ih =>
      obtain ⟨width, value⟩ := f
      rw [storeFields, fieldsWidth, packed, loadNat_add, ih]
      congr 1
      rw [loadNat_congr width a (fun x _ hhi => storeFields_agreeOff x (.inl hhi)),
        loadNat_storeNat]

theorem load64_storeFields (h : fieldsWidth fields = 8) :
    load64 (storeFields m a fields) a = BitVec.ofNat 64 (packed fields) := by
  rw [load64, ← h, loadNat_storeFields]

/-- A record of two words. -/
theorem load64_storeFields_append (h : fieldsWidth fields = 8) (h' : fieldsWidth gields = 8) :
    load64 (storeFields m a (fields ++ gields)) a = BitVec.ofNat 64 (packed fields) ∧
    load64 (storeFields m a (fields ++ gields)) (a + 8) = BitVec.ofNat 64 (packed gields) := by
  rw [storeFields_append, h]
  constructor
  · rw [storeFields_agreeOff.load64 (.inl (Nat.le_refl _)), load64_storeFields h]
  · exact load64_storeFields h'

end Fields

end QuinKernel.Machine
