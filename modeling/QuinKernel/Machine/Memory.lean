import Mathlib

/-!
# Byte-addressed memory (L0 framework)

A memory is a total map from addresses to bytes. Multi-byte cells are stored
little-endian: `loadNat`/`storeNat` move `n` bytes at once, `load64`/`store64`
are the eight-byte words every pointer and counter of a 64-bit machine is.

The two facts all clients use are *read your write* (`load64_store64`) and the
*frame* (`load64_congr`: a load depends only on the bytes it covers). Writes
are described by the range they touch (`AgreeOff`), so a frame argument is
interval arithmetic and never looks inside a store.
-/

namespace QuinKernel.Machine

/-- A byte of memory. -/
abbrev Byte := BitVec 8

/-- A 64-bit machine word. -/
abbrev Word := BitVec 64

/-- A memory: every address holds a byte. -/
abbrev Mem := Nat → Byte

/-- The `n`-byte little-endian number at `a`. -/
def loadNat (m : Mem) : Nat → Nat → Nat
  | _, 0 => 0
  | a, n + 1 => (m a).toNat + 256 * loadNat m (a + 1) n

/-- Write the low `n` bytes of `v` at `a`, little-endian. -/
def storeNat (m : Mem) (a n v : Nat) : Mem := fun x =>
  if a ≤ x ∧ x < a + n then BitVec.ofNat 8 (v / 256 ^ (x - a)) else m x

/-- Write one byte. -/
def store8 (m : Mem) (a : Nat) (b : Byte) : Mem := fun x => if x = a then b else m x

/-- The word at `a`. -/
def load64 (m : Mem) (a : Nat) : Word := BitVec.ofNat 64 (loadNat m a 8)

/-- Write the word `w` at `a`. -/
def store64 (m : Mem) (a : Nat) (w : Word) : Mem := storeNat m a 8 w.toNat

/-- Two memories agree everywhere outside `[lo, hi)`. -/
def AgreeOff (lo hi : Nat) (m m' : Mem) : Prop :=
  ∀ x, x < lo ∨ hi ≤ x → m' x = m x

/-! ## Numbers as words -/

theorem toNat_ofNat_of_lt {n : Nat} (h : n < 2 ^ 64) : (BitVec.ofNat 64 n).toNat = n := by
  rw [BitVec.toNat_ofNat, Nat.mod_eq_of_lt h]

theorem ofNat_eq_iff {n k : Nat} (hn : n < 2 ^ 64) (hk : k < 2 ^ 64) :
    BitVec.ofNat 64 n = BitVec.ofNat 64 k ↔ n = k := by
  rw [← BitVec.toNat_inj, toNat_ofNat_of_lt hn, toNat_ofNat_of_lt hk]

/-- Masking off the low `k` bits rounds down to a multiple of `2 ^ k`. -/
theorem toNat_and_not_mask (x : Word) (k : Nat) :
    (x &&& ~~~(BitVec.ofNat 64 (2 ^ k - 1))).toNat = x.toNat / 2 ^ k * 2 ^ k := by
  have hshift : x &&& ~~~(BitVec.ofNat 64 (2 ^ k - 1)) = (x >>> k) <<< k := by
    apply BitVec.eq_of_getLsbD_eq
    intro i hi
    simp only [BitVec.getLsbD_and, BitVec.getLsbD_not, BitVec.getLsbD_shiftLeft,
      BitVec.getLsbD_ushiftRight, BitVec.getLsbD_ofNat, Nat.testBit_two_pow_sub_one]
    by_cases hik : i < k
    · simp [hik]
    · simp [hik, hi, show k + (i - k) = i by omega]
  rw [hshift, BitVec.toNat_shiftLeft, BitVec.toNat_ushiftRight, Nat.shiftLeft_eq,
    Nat.shiftRight_eq_div_pow]
  have hle : x.toNat / 2 ^ k * 2 ^ k ≤ x.toNat := Nat.div_mul_le_self _ _
  exact Nat.mod_eq_of_lt (Nat.lt_of_le_of_lt hle x.isLt)

/-! ## Loads depend on the bytes they cover -/

theorem loadNat_congr {m m' : Mem} : ∀ (n a : Nat),
    (∀ x, a ≤ x → x < a + n → m' x = m x) → loadNat m' a n = loadNat m a n
  | 0, _, _ => rfl
  | n + 1, a, h => by
    have hhead : m' a = m a := h a (Nat.le_refl _) (by omega)
    have htail : loadNat m' (a + 1) n = loadNat m (a + 1) n :=
      loadNat_congr n (a + 1) (fun x hlo hhi => h x (by omega) (by omega))
    simp only [loadNat, hhead, htail]

theorem loadNat_lt (m : Mem) : ∀ n a, loadNat m a n < 256 ^ n
  | 0, _ => by simp [loadNat]
  | n + 1, a => by
    have hhead := (m a).isLt
    have htail := loadNat_lt m n (a + 1)
    rw [loadNat, pow_succ]
    omega

/-- Reading at an offset is reading the shifted memory. -/
theorem loadNat_offset (m : Mem) (o : Nat) : ∀ n a,
    loadNat (fun x => m (o + x)) a n = loadNat m (o + a) n
  | 0, _ => rfl
  | n + 1, a => by
    rw [loadNat, loadNat, loadNat_offset m o n (a + 1), Nat.add_assoc]

theorem loadNat_zero {m : Mem} : ∀ (n a : Nat), (∀ x, a ≤ x → x < a + n → m x = 0) →
    loadNat m a n = 0
  | 0, _, _ => rfl
  | n + 1, a, h => by
    have htail := loadNat_zero n (a + 1) (fun x hlo hhi => h x (by omega) (by omega))
    simp [loadNat, h a (Nat.le_refl _) (by omega), htail]

/-- A word load depends only on the eight bytes it covers. -/
theorem load64_congr {m m' : Mem} {a : Nat}
    (h : ∀ x, a ≤ x → x < a + 8 → m' x = m x) : load64 m' a = load64 m a := by
  unfold load64
  rw [loadNat_congr 8 a h]

theorem AgreeOff.load64 {lo hi a : Nat} {m m' : Mem} (h : AgreeOff lo hi m m')
    (hd : a + 8 ≤ lo ∨ hi ≤ a) : load64 m' a = load64 m a :=
  load64_congr (fun x hlo hhi => h x (by omega))

/-! ## Read your write -/

theorem loadNat_shift (m : Mem) (v : Nat) : ∀ (n a : Nat),
    (∀ i, i < n → m (a + i) = BitVec.ofNat 8 (v / 256 ^ i)) →
      loadNat m a n = v % 256 ^ n
  | 0, _, _ => by simp [loadNat, Nat.mod_one]
  | n + 1, a, h => by
    have hhead : (m a).toNat = v % 256 := by
      have h0 := h 0 (by omega)
      simp only [Nat.add_zero, pow_zero, Nat.div_one] at h0
      simp [h0]
    have htail : loadNat m (a + 1) n = v / 256 % 256 ^ n := by
      refine loadNat_shift m (v / 256) n (a + 1) (fun i hi => ?_)
      have hi' := h (i + 1) (by omega)
      rw [show a + (i + 1) = a + 1 + i by omega] at hi'
      rw [hi', Nat.pow_succ', Nat.div_div_eq_div_mul]
    rw [loadNat, hhead, htail, Nat.pow_succ', Nat.mod_mul]

/-- A number read back is the number written, modulo its width. -/
theorem loadNat_storeNat (m : Mem) (a n v : Nat) :
    loadNat (storeNat m a n v) a n = v % 256 ^ n := by
  refine loadNat_shift _ v n a (fun i hi => ?_)
  simp only [storeNat]
  rw [if_pos ⟨by omega, by omega⟩, show a + i - a = i by omega]

/-- **Read your write.** -/
@[simp] theorem load64_store64 (m : Mem) (a : Nat) (w : Word) :
    load64 (store64 m a w) a = w := by
  unfold load64 store64
  rw [loadNat_storeNat]
  apply BitVec.eq_of_toNat_eq
  have hlt : w.toNat < 256 ^ 8 := by simpa using w.isLt
  rw [BitVec.toNat_ofNat, Nat.mod_eq_of_lt hlt, Nat.mod_eq_of_lt w.isLt]

/-! ## What a store touches -/

theorem storeNat_agreeOff (m : Mem) (a n v : Nat) : AgreeOff a (a + n) m (storeNat m a n v) := by
  intro x hx
  simp only [storeNat]
  rw [if_neg (by omega)]

theorem store64_agreeOff (m : Mem) (a : Nat) (w : Word) : AgreeOff a (a + 8) m (store64 m a w) :=
  storeNat_agreeOff m a 8 w.toNat

theorem store8_agreeOff (m : Mem) (a : Nat) (b : Byte) : AgreeOff a (a + 1) m (store8 m a b) := by
  intro x hx
  simp only [store8]
  rw [if_neg (by omega)]

@[simp] theorem store8_self (m : Mem) (a : Nat) (b : Byte) : store8 m a b a = b := by
  simp [store8]

theorem store8_other (m : Mem) {a x : Nat} (b : Byte) (h : x ≠ a) : store8 m a b x = m x := by
  simp [store8, h]

/-- A word store leaves every disjoint word alone. -/
theorem load64_store64_ne (m : Mem) {a b : Nat} (w : Word) (hd : b + 8 ≤ a ∨ a + 8 ≤ b) :
    load64 (store64 m a w) b = load64 m b :=
  (store64_agreeOff m a w).load64 hd

/-- A word store leaves every byte outside the word alone. -/
theorem store64_other (m : Mem) {a x : Nat} (w : Word) (h : x < a ∨ a + 8 ≤ x) :
    store64 m a w x = m x :=
  store64_agreeOff m a w x h

/-! ## Composing frames -/

theorem AgreeOff.refl (lo hi : Nat) (m : Mem) : AgreeOff lo hi m m := fun _ _ => rfl

theorem AgreeOff.trans {lo hi : Nat} {m₁ m₂ m₃ : Mem} (h₁ : AgreeOff lo hi m₁ m₂)
    (h₂ : AgreeOff lo hi m₂ m₃) : AgreeOff lo hi m₁ m₃ :=
  fun x hx => (h₂ x hx).trans (h₁ x hx)

theorem AgreeOff.mono {lo hi lo' hi' : Nat} {m m' : Mem} (h : AgreeOff lo hi m m')
    (hlo : lo' ≤ lo) (hhi : hi ≤ hi') : AgreeOff lo' hi' m m' :=
  fun x hx => h x (by omega)

/-- The two memories agree but for the bytes in `W`. -/
def AgreeBut (W : Nat → Prop) (m m' : Mem) : Prop := ∀ x, ¬ W x → m' x = m x

section AgreeBut

variable {W W' : Nat → Prop} {m m₁ m₂ m₃ m' : Mem}

theorem AgreeBut.refl (W : Nat → Prop) (m : Mem) : AgreeBut W m m := fun _ _ => rfl

theorem AgreeBut.trans (h₁ : AgreeBut W m₁ m₂) (h₂ : AgreeBut W m₂ m₃) : AgreeBut W m₁ m₃ :=
  fun x hx => (h₂ x hx).trans (h₁ x hx)

theorem AgreeBut.mono (h : AgreeBut W m m') (hW : ∀ x, W x → W' x) : AgreeBut W' m m' :=
  fun x hx => h x (fun hw => hx (hW x hw))

theorem AgreeOff.agreeBut {lo hi : Nat} (h : AgreeOff lo hi m m')
    (hW : ∀ x, lo ≤ x → x < hi → W x) : AgreeBut W m m' := by
  intro x hx
  refine h x ?_
  by_contra hin
  exact hx (hW x (by omega) (by omega))

end AgreeBut

end QuinKernel.Machine
