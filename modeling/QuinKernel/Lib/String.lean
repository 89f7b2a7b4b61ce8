import QuinKernel.Lib.Kernel

/-!
# `string.c`

The freestanding memory routines the memory managers, the table readers and the
console use.
-/

namespace QuinKernel

open Machine

/-- `memset`: the memory after `n` iterations of its loop. -/
def memset (m : Mem) (dest : Nat) (value : BitVec 32) : Nat → Mem
  | 0 => m
  | n + 1 => store8 (memset m dest value n) (dest + n) (value.setWidth 8)

/-- `memset` writes its byte to `[dest, dest + n)` and nothing else. -/
theorem memset_apply (m : Mem) (dest : Nat) (value : BitVec 32) (n x : Nat) :
    memset m dest value n x =
      if dest ≤ x ∧ x < dest + n then value.setWidth 8 else m x := by
  induction n with
  | zero => simp [memset]
  | succ n ih =>
      by_cases hx : x = dest + n
      · subst hx
        simp [memset]
      · rw [memset, store8_other _ _ hx, ih]
        congr 1
        simp only [eq_iff_iff]
        omega

theorem memset_agreeOff (m : Mem) (dest : Nat) (value : BitVec 32) (n : Nat) :
    AgreeOff dest (dest + n) m (memset m dest value n) := by
  intro x hx
  rw [memset_apply, if_neg (by omega)]

/-- The ascending loop of `memcpy` and `memmove` after `n` iterations. -/
def copyUp (m : Mem) (dest src : Nat) : Nat → Mem
  | 0 => m
  | n + 1 =>
      let m := copyUp m dest src n
      store8 m (dest + n) (m (src + n))

/-- The descending loop of `memmove` with `n` iterations to go. -/
def copyDown (m : Mem) (dest src : Nat) : Nat → Mem
  | 0 => m
  | n + 1 => copyDown (store8 m (dest + n) (m (src + n))) dest src n

/-- `memcpy`. -/
def memcpy (m : Mem) (dest src n : Nat) : Mem := copyUp m dest src n

/-- `memmove`. -/
def memmove (m : Mem) (dest src n : Nat) : Mem :=
  if dest = src ∨ n = 0 then m
  else if dest < src then copyUp m dest src n
  else copyDown m dest src n

/-- The ascending loop copies where the destination is below the source, or all
of it above the source's range. -/
theorem copyUp_apply (m : Mem) {dest src n : Nat} (h : dest < src ∨ src + n ≤ dest) (x : Nat) :
    copyUp m dest src n x =
      if dest ≤ x ∧ x < dest + n then m (src + (x - dest)) else m x := by
  induction n generalizing x with
  | zero => simp [copyUp]
  | succ n ih =>
      have ih := ih (by omega)
      rw [copyUp]
      by_cases hx : x = dest + n
      · -- the byte read is none of those written
        subst hx
        rw [store8_self, ih, if_neg (by omega), if_pos (by omega), Nat.add_sub_cancel_left]
      · rw [store8_other _ _ hx, ih]
        congr 1
        simp only [eq_iff_iff]
        omega

theorem copyDown_apply (m : Mem) {dest src : Nat} (h : src < dest) (n x : Nat) :
    copyDown m dest src n x =
      if dest ≤ x ∧ x < dest + n then m (src + (x - dest)) else m x := by
  induction n generalizing m with
  | zero => simp [copyDown]
  | succ n ih =>
      rw [copyDown, ih]
      by_cases hx : x = dest + n
      · subst hx
        rw [if_neg (by omega), if_pos (by omega), store8_self, Nat.add_sub_cancel_left]
      · by_cases hin : dest ≤ x ∧ x < dest + n
        · rw [if_pos hin, if_pos (by omega), store8_other _ _ (by omega)]
        · rw [if_neg hin, if_neg (by omega), store8_other _ _ hx]

/-- **`memmove` copies what its source held**, whether or not the two overlap. -/
theorem memmove_apply (m : Mem) (dest src n x : Nat) :
    memmove m dest src n x =
      if dest ≤ x ∧ x < dest + n then m (src + (x - dest)) else m x := by
  unfold memmove
  by_cases hnone : dest = src ∨ n = 0
  · rw [if_pos hnone]
    split
    · next hin =>
        have heq : dest = src := by omega
        rw [← heq, Nat.add_sub_cancel' hin.1]
    · rfl
  · rw [if_neg hnone]
    by_cases hlt : dest < src
    · rw [if_pos hlt, copyUp_apply m (.inl hlt)]
    · rw [if_neg hlt, copyDown_apply m (by omega)]

/-- `memcpy` ascends always, and so is `memmove` unless the destination starts
inside the source. -/
theorem memcpy_eq_memmove (m : Mem) {dest src n : Nat}
    (h : dest + n ≤ src ∨ src + n ≤ dest ∨ dest < src) :
    memcpy m dest src n = memmove m dest src n := by
  funext x
  rw [memmove_apply]
  unfold memcpy
  by_cases hn : n = 0
  · subst hn
    rw [if_neg (by omega)]
    rfl
  · exact copyUp_apply m (by omega) x

/-- **`memmove` and `memcpy`.** The destination ends with the bytes the source had
before the call, and no other byte changes, however the two overlap; `memcpy`
does the same when they are disjoint or the destination is the lower. -/
theorem memmove_copies (m : Mem) (dest src n : Nat) :
    (∀ i < n, memmove m dest src n (dest + i) = m (src + i)) ∧
    (∀ x, x < dest ∨ dest + n ≤ x → memmove m dest src n x = m x) ∧
    (dest + n ≤ src ∨ src + n ≤ dest ∨ dest < src →
      memcpy m dest src n = memmove m dest src n) := by
  refine ⟨fun i hi => ?_, fun x hx => ?_, memcpy_eq_memmove m⟩
  · rw [memmove_apply, if_pos (by omega), Nat.add_sub_cancel_left]
  · rw [memmove_apply, if_neg (by omega)]

/-- Four bytes moved up by two, and the same four down again. -/
theorem memmove_copies_overlapping :
    memmove (BitVec.ofNat 8) 2 0 4 5 = 3 ∧ memmove (BitVec.ofNat 8) 2 0 4 6 = 6 ∧
    memcpy (BitVec.ofNat 8) 0 2 4 = memmove (BitVec.ofNat 8) 0 2 4 := by
  obtain ⟨hcopied, hkept, -⟩ := memmove_copies (BitVec.ofNat 8) 2 0 4
  refine ⟨hcopied 3 (by decide), hkept 6 (by decide), ?_⟩
  exact (memmove_copies (BitVec.ofNat 8) 0 2 4).2.2 (by decide)

/-- The bytes from a pointer on. -/
def bytesAt (m : Mem) (p : Word) (i : Nat) : Byte := m (p + BitVec.ofNat 64 i).toNat

/-- Moving a pointer on shifts what it sees. -/
theorem bytesAt_add (m : Mem) (p : Word) (o i : Nat) :
    bytesAt m (p + BitVec.ofNat 64 o) i = bytesAt m p (o + i) := by
  unfold bytesAt
  rw [BitVec.ofNat_add, BitVec.add_assoc]

/-- The bytes of a string literal, with its terminator. -/
def literal (text : String) (i : Nat) : Byte :=
  (text.toList.map (fun c => BitVec.ofNat 8 c.toNat)).getD i 0

/-- The loop of `memcmp` from index `i`, with `n` bytes to go. -/
def memcmpFrom (a b : Nat → Byte) (i : Nat) : Nat → Int
  | 0 => 0
  | n + 1 => if a i ≠ b i then (a i).toNat - (b i).toNat else memcmpFrom a b (i + 1) n

/-- `memcmp`. -/
def memcmp (a b : Nat → Byte) (n : Nat) : Int := memcmpFrom a b 0 n

theorem memcmpFrom_eq_zero {a b : Nat → Byte} :
    ∀ {n i : Nat}, memcmpFrom a b i n = 0 ↔ ∀ j, i ≤ j → j < i + n → a j = b j := by
  intro n
  induction n with
  | zero =>
      intro i
      exact iff_of_true rfl (fun j hlo hhi => by omega)
  | succ n ih =>
      intro i
      unfold memcmpFrom
      by_cases hi : a i = b i
      · rw [if_neg (not_not.mpr hi), ih]
        constructor
        · intro h j hlo hhi
          by_cases hj : j = i
          · rw [hj, hi]
          · exact h j (by omega) (by omega)
        · intro h j hlo hhi
          exact h j (by omega) (by omega)
      · rw [if_pos hi]
        constructor
        · intro h
          have hne : (a i).toNat ≠ (b i).toNat := fun heq => hi (BitVec.eq_of_toNat_eq heq)
          omega
        · intro h
          exact absurd (h i (Nat.le_refl i) (by omega)) hi

/-- `memcmp` is zero exactly on equal bytes. -/
theorem memcmp_eq_zero {a b : Nat → Byte} {n : Nat} :
    memcmp a b n = 0 ↔ ∀ j, j < n → a j = b j := by
  unfold memcmp
  rw [memcmpFrom_eq_zero]
  constructor
  · intro h j hj
    exact h j (Nat.zero_le j) (by omega)
  · intro h j _ hj
    exact h j (by omega)

end QuinKernel
