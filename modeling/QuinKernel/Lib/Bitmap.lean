import QuinKernel.Lib.Kernel

/-!
# `bitmap.c`

A plain bit array over caller-owned bytes: bit `i` is bit `i % 8` of byte
`i / 8`. `bitmapTest_set` and `bitmapTest_clear` say that an update touches
one bit; `bitmapFindFirstClear_spec` says what the wrapping scan finds.
-/

namespace QuinKernel

open Machine

/-- The byte that holds `bit`. -/
def bitByte (bitmap : Nat) (bit : Word) : Nat := bitmap + (bit / 8).toNat

/-- `(uint8_t)(1U << (bit % 8))`. -/
def bitMask (bit : Word) : Byte := (1#32 <<< (bit % 8).toNat).setWidth 8

/-- `bitmap_set`. -/
def bitmapSet (m : Mem) (bitmap : Nat) (bit : Word) : Mem :=
  store8 m (bitByte bitmap bit) (m (bitByte bitmap bit) ||| bitMask bit)

/-- `bitmap_clear`. -/
def bitmapClear (m : Mem) (bitmap : Nat) (bit : Word) : Mem :=
  store8 m (bitByte bitmap bit) (m (bitByte bitmap bit) &&& ~~~(bitMask bit))

/-- `bitmap_test`. -/
def bitmapTest (m : Mem) (bitmap : Nat) (bit : Word) : Bool :=
  (m (bitByte bitmap bit) &&& bitMask bit) != 0

/-- The scan of `bitmap_find_first_clear` with `n` offsets left to try. -/
def findClearFrom (m : Mem) (bitmap : Nat) (bitCount start : Word) : Nat → Word → Word
  | 0, _ => bitCount
  | n + 1, offset =>
      let bit := (start + offset) % bitCount
      if !bitmapTest m bitmap bit then bit
      else findClearFrom m bitmap bitCount start n (offset + 1)

/-- `bitmap_find_first_clear`. -/
def bitmapFindFirstClear (m : Mem) (bitmap : Nat) (bitCount startHint : Word) : Word :=
  if bitCount = 0 then 0
  else findClearFrom m bitmap bitCount (startHint % bitCount) bitCount.toNat 0

/-- The bits the scan of `bitmap_find_first_clear` reads, in order. -/
def probesFrom (m : Mem) (bitmap : Nat) (bitCount start : Word) : Nat → Word → List Word
  | 0, _ => []
  | n + 1, offset =>
      let bit := (start + offset) % bitCount
      bit :: if !bitmapTest m bitmap bit then []
        else probesFrom m bitmap bitCount start n (offset + 1)

/-- The bits `bitmap_find_first_clear` reads. -/
def findFirstClearProbes (m : Mem) (bitmap : Nat) (bitCount startHint : Word) : List Word :=
  if bitCount = 0 then []
  else probesFrom m bitmap bitCount (startHint % bitCount) bitCount.toNat 0

/-! ## Single bits -/

theorem bitMask_getLsbD (bit : Word) {k : Nat} (hk : k < 8) :
    (bitMask bit).getLsbD k = decide (bit.toNat % 8 = k) := by
  have hlt : bit.toNat % 8 < 8 := Nat.mod_lt _ (by omega)
  have hmod : (bit % 8).toNat = bit.toNat % 8 := by simp
  unfold bitMask
  rw [hmod]
  simp only [BitVec.getLsbD_setWidth, BitVec.getLsbD_shiftLeft, BitVec.getLsbD_one]
  grind

theorem bitByte_eq (bitmap : Nat) (bit : Word) :
    bitByte bitmap bit = bitmap + bit.toNat / 8 := by
  simp [bitByte]

/-- `bitmap_test` reads one bit of one byte. -/
theorem bitmapTest_eq (m : Mem) (bitmap : Nat) (bit : Word) :
    bitmapTest m bitmap bit =
      (m (bitmap + bit.toNat / 8)).getLsbD (bit.toNat % 8) := by
  have hlt : bit.toNat % 8 < 8 := Nat.mod_lt _ (by omega)
  rw [bitmapTest, bitByte_eq]
  by_cases hbit : (m (bitmap + bit.toNat / 8)).getLsbD (bit.toNat % 8)
  · have hne : m (bitmap + bit.toNat / 8) &&& bitMask bit ≠ 0 := by
      intro hzero
      have := congrArg (fun x => x.getLsbD (bit.toNat % 8)) hzero
      simp [hbit, bitMask_getLsbD bit hlt] at this
    simpa [hbit] using hne
  · have heq : m (bitmap + bit.toNat / 8) &&& bitMask bit = 0 := by
      apply BitVec.eq_of_getLsbD_eq
      intro k hk
      rw [BitVec.getLsbD_and, bitMask_getLsbD bit hk]
      by_cases hkeq : bit.toNat % 8 = k
      · subst hkeq
        simp [hbit]
      · simp [hkeq]
    simp [hbit, heq]

/-- Setting a bit changes that bit only. -/
theorem bitmapTest_set (m : Mem) (bitmap : Nat) (i j : Word) :
    bitmapTest (bitmapSet m bitmap i) bitmap j = (decide (i = j) || bitmapTest m bitmap j) := by
  have hj : j.toNat % 8 < 8 := Nat.mod_lt _ (by omega)
  rw [bitmapTest_eq, bitmapTest_eq, bitmapSet, bitByte_eq]
  by_cases hbyte : j.toNat / 8 = i.toNat / 8
  · have heq : (i = j) ↔ i.toNat % 8 = j.toNat % 8 := by
      rw [← BitVec.toNat_inj]
      omega
    rw [hbyte, store8_self, BitVec.getLsbD_or, bitMask_getLsbD i hj, Bool.or_comm]
    simp [heq]
  · have hne : i ≠ j := fun h => hbyte (by rw [h])
    rw [store8_other _ _ (by omega)]
    simp [hne]

/-- Clearing a bit changes that bit only. -/
theorem bitmapTest_clear (m : Mem) (bitmap : Nat) (i j : Word) :
    bitmapTest (bitmapClear m bitmap i) bitmap j =
      (!decide (i = j) && bitmapTest m bitmap j) := by
  have hj : j.toNat % 8 < 8 := Nat.mod_lt _ (by omega)
  rw [bitmapTest_eq, bitmapTest_eq, bitmapClear, bitByte_eq]
  by_cases hbyte : j.toNat / 8 = i.toNat / 8
  · have heq : (i = j) ↔ i.toNat % 8 = j.toNat % 8 := by
      rw [← BitVec.toNat_inj]
      omega
    rw [hbyte, store8_self, BitVec.getLsbD_and, BitVec.getLsbD_not, bitMask_getLsbD i hj,
      Bool.and_comm]
    simp [heq, hj]
  · have hne : i ≠ j := fun h => hbyte (by rw [h])
    rw [store8_other _ _ (by omega)]
    simp [hne]

theorem bitmapSet_agreeOff (m : Mem) (bitmap : Nat) (i : Word) :
    AgreeOff (bitmap + i.toNat / 8) (bitmap + i.toNat / 8 + 1) m (bitmapSet m bitmap i) := by
  rw [bitmapSet, bitByte_eq]
  exact store8_agreeOff _ _ _

theorem bitmapClear_agreeOff (m : Mem) (bitmap : Nat) (i : Word) :
    AgreeOff (bitmap + i.toNat / 8) (bitmap + i.toNat / 8 + 1) m (bitmapClear m bitmap i) := by
  rw [bitmapClear, bitByte_eq]
  exact store8_agreeOff _ _ _

/-- `bitmap_test` depends only on the byte that holds the bit. -/
theorem bitmapTest_congr {m m' : Mem} {bitmap : Nat} {bit : Word}
    (h : m' (bitmap + bit.toNat / 8) = m (bitmap + bit.toNat / 8)) :
    bitmapTest m' bitmap bit = bitmapTest m bitmap bit := by
  rw [bitmapTest_eq, bitmapTest_eq, h]

/-! ## The wrapping scan -/

/-- What the scan returns: `bitCount` when every probed bit is set, else the
first probed bit that is clear. -/
theorem findClearFrom_spec (m : Mem) (bitmap : Nat) (bitCount start : Word) :
    ∀ (n : Nat) (offset : Word),
      (findClearFrom m bitmap bitCount start n offset = bitCount ∧
        ∀ k < n, bitmapTest m bitmap ((start + (offset + BitVec.ofNat 64 k)) % bitCount) = true) ∨
      (∃ k < n, findClearFrom m bitmap bitCount start n offset =
          (start + (offset + BitVec.ofNat 64 k)) % bitCount ∧
        bitmapTest m bitmap ((start + (offset + BitVec.ofNat 64 k)) % bitCount) = false ∧
        ∀ j < k, bitmapTest m bitmap ((start + (offset + BitVec.ofNat 64 j)) % bitCount) = true) := by
  intro n
  induction n with
  | zero => intro offset; exact .inl ⟨rfl, by omega⟩
  | succ n ih =>
      intro offset
      have hshift : ∀ k : Nat, offset + BitVec.ofNat 64 (k + 1) =
          offset + 1 + BitVec.ofNat 64 k := by
        intro k
        rw [BitVec.add_assoc, BitVec.add_comm 1, BitVec.ofNat_add]
        rfl
      by_cases hbit : bitmapTest m bitmap ((start + offset) % bitCount)
      · have hstep : findClearFrom m bitmap bitCount start (n + 1) offset =
            findClearFrom m bitmap bitCount start n (offset + 1) := by
          simp [findClearFrom, hbit]
        rw [hstep]
        rcases ih (offset + 1) with ⟨hres, hall⟩ | ⟨k, hk, hres, hclear, hbefore⟩
        · refine .inl ⟨hres, fun k hk => ?_⟩
          cases k with
          | zero => simpa using hbit
          | succ k => rw [hshift]; exact hall k (by omega)
        · refine .inr ⟨k + 1, by omega, by rw [hshift]; exact hres, by rw [hshift]; exact hclear, ?_⟩
          intro j hj
          cases j with
          | zero => simpa using hbit
          | succ j => rw [hshift]; exact hbefore j (by omega)
      · refine .inr ⟨0, by omega, ?_, by simpa using hbit, by omega⟩
        simp [findClearFrom, hbit]

/-- The offset from `start` at which a wrapping scan over `n` indices meets `i`. -/
theorem exists_scan_offset {n start i : Nat} (hstart : start < n) (hi : i < n) :
    ∃ k < n, (start + k) % n = i := by
  by_cases h : start ≤ i
  · exact ⟨i - start, by omega, by rw [show start + (i - start) = i by omega]; exact Nat.mod_eq_of_lt hi⟩
  · refine ⟨i + n - start, by omega, ?_⟩
    rw [show start + (i + n - start) = i + n by omega, Nat.add_mod_right]
    exact Nat.mod_eq_of_lt hi

/-- `bitmap_find_first_clear` over a nonempty range: `bitCount` when every bit
is set, else the clear bit met first going cyclically up from the hint. -/
theorem bitmapFindFirstClear_spec (m : Mem) (bitmap : Nat) {bitCount : Word} (hint : Word)
    (hpos : 0 < bitCount.toNat) (hlt : bitCount.toNat < 2 ^ 63) :
    (bitmapFindFirstClear m bitmap bitCount hint = bitCount ∧
      ∀ i < bitCount.toNat, bitmapTest m bitmap (BitVec.ofNat 64 i) = true) ∨
    (∃ k < bitCount.toNat,
      bitmapFindFirstClear m bitmap bitCount hint =
        BitVec.ofNat 64 ((hint.toNat % bitCount.toNat + k) % bitCount.toNat) ∧
      bitmapTest m bitmap (bitmapFindFirstClear m bitmap bitCount hint) = false ∧
      ∀ j < k, bitmapTest m bitmap
        (BitVec.ofNat 64 ((hint.toNat % bitCount.toNat + j) % bitCount.toNat)) = true) := by
  have hne : bitCount ≠ 0 := by
    intro h
    simp [h] at hpos
  have hmod : hint.toNat % bitCount.toNat < bitCount.toNat := Nat.mod_lt _ hpos
  -- below 2^63 the sum of start and offset does not wrap
  have hindex : ∀ k < bitCount.toNat, (hint % bitCount + (0 + BitVec.ofNat 64 k)) % bitCount =
      BitVec.ofNat 64 ((hint.toNat % bitCount.toNat + k) % bitCount.toNat) := by
    intro k hk
    apply BitVec.eq_of_toNat_eq
    have hsum : (hint.toNat % bitCount.toNat + k) % 2 ^ 64 =
        hint.toNat % bitCount.toNat + k := Nat.mod_eq_of_lt (by omega)
    have hres : (hint.toNat % bitCount.toNat + k) % bitCount.toNat < bitCount.toNat :=
      Nat.mod_lt _ hpos
    have hk64 : (0 + BitVec.ofNat 64 k : Word).toNat = k := by simp; omega
    rw [BitVec.toNat_umod, BitVec.toNat_add, BitVec.toNat_umod, hk64, hsum, BitVec.toNat_ofNat]
    exact (Nat.mod_eq_of_lt (by omega)).symm
  have hscan : bitmapFindFirstClear m bitmap bitCount hint =
      findClearFrom m bitmap bitCount (hint % bitCount) bitCount.toNat 0 := by
    rw [bitmapFindFirstClear, if_neg hne]
  rw [hscan]
  rcases findClearFrom_spec m bitmap bitCount (hint % bitCount) bitCount.toNat 0 with
    ⟨hres, hall⟩ | ⟨k, hk, hres, hclear, hbefore⟩
  · refine .inl ⟨hres, fun i hi => ?_⟩
    obtain ⟨k, hk, rfl⟩ := exists_scan_offset hmod hi
    rw [← hindex k hk]
    exact hall k hk
  · refine .inr ⟨k, hk, by rw [hres, hindex k hk], by rw [hres]; exact hclear, fun j hj => ?_⟩
    rw [← hindex j (by omega)]
    exact hbefore j hj

/-! ## What the scan reads -/

/-- The scan's answer is the first clear bit among those it reads. -/
theorem findClearFrom_eq_find (m : Mem) (bitmap : Nat) (bitCount start : Word) :
    ∀ (n : Nat) (offset : Word), findClearFrom m bitmap bitCount start n offset =
      ((probesFrom m bitmap bitCount start n offset).find?
        (fun bit => !bitmapTest m bitmap bit)).getD bitCount := by
  intro n
  induction n with
  | zero => intro offset; rfl
  | succ n ih =>
      intro offset
      rw [findClearFrom, probesFrom]
      cases hbit : bitmapTest m bitmap ((start + offset) % bitCount) with
      | false => simp [hbit]
      | true => simp [hbit, ih]

/-- Every bit read is an index modulo the bit count. -/
theorem probesFrom_lt (m : Mem) (bitmap : Nat) {bitCount : Word} (start : Word)
    (hpos : 0 < bitCount.toNat) :
    ∀ (n : Nat) (offset : Word), ∀ bit ∈ probesFrom m bitmap bitCount start n offset,
      bit.toNat < bitCount.toNat := by
  intro n
  induction n with
  | zero => intro offset bit hbit; exact absurd hbit List.not_mem_nil
  | succ n ih =>
      intro offset bit hbit
      rw [probesFrom] at hbit
      rcases List.mem_cons.mp hbit with rfl | hbit
      · rw [BitVec.toNat_umod]
        exact Nat.mod_lt _ hpos
      · split at hbit
        · exact absurd hbit List.not_mem_nil
        · exact ih (offset + 1) bit hbit

theorem findFirstClearProbes_lt (m : Mem) (bitmap : Nat) {bitCount : Word} (hint : Word)
    (hpos : 0 < bitCount.toNat) :
    ∀ bit ∈ findFirstClearProbes m bitmap bitCount hint, bit.toNat < bitCount.toNat := by
  unfold findFirstClearProbes
  split
  · intro bit hbit
    exact absurd hbit List.not_mem_nil
  · exact probesFrom_lt m bitmap _ hpos bitCount.toNat 0

theorem bitmapFindFirstClear_eq_find (m : Mem) (bitmap : Nat) {bitCount : Word} (hint : Word)
    (hpos : 0 < bitCount.toNat) :
    bitmapFindFirstClear m bitmap bitCount hint =
      ((findFirstClearProbes m bitmap bitCount hint).find?
        (fun bit => !bitmapTest m bitmap bit)).getD bitCount := by
  have hne : bitCount ≠ 0 := by
    intro h
    simp [h] at hpos
  rw [bitmapFindFirstClear, findFirstClearProbes, if_neg hne, if_neg hne]
  exact findClearFrom_eq_find m bitmap bitCount (hint % bitCount) bitCount.toNat 0

/-! ## The set of bits -/

/-- The set a `len`-byte array stands for. -/
def bitSet (m : Mem) (bitmap len : Nat) : Set Word :=
  {bit | bit.toNat < 8 * len ∧ bitmapTest m bitmap bit = true}

section BitSet

variable (m : Mem) (bitmap len : Nat)

theorem bitSet_bitmapSet {i : Word} (hi : i.toNat < 8 * len) :
    bitSet (bitmapSet m bitmap i) bitmap len = insert i (bitSet m bitmap len) := by
  ext j
  simp only [bitSet, Set.mem_ofPred_eq, Set.mem_insert_iff, bitmapTest_set, Bool.or_eq_true,
    decide_eq_true_eq]
  constructor
  · rintro ⟨hj, rfl | hbit⟩
    · exact .inl rfl
    · exact .inr ⟨hj, hbit⟩
  · rintro (rfl | ⟨hj, hbit⟩)
    · exact ⟨hi, .inl rfl⟩
    · exact ⟨hj, .inr hbit⟩

theorem bitSet_bitmapClear (i : Word) :
    bitSet (bitmapClear m bitmap i) bitmap len = bitSet m bitmap len \ {i} := by
  ext j
  simp only [bitSet, Set.mem_ofPred_eq, Set.mem_sdiff, Set.mem_singleton_iff, bitmapTest_clear,
    Bool.and_eq_true, Bool.not_eq_true', decide_eq_false_iff_not]
  constructor
  · rintro ⟨hj, hne, hbit⟩
    exact ⟨⟨hj, hbit⟩, fun h => hne h.symm⟩
  · rintro ⟨⟨hj, hbit⟩, hne⟩
    exact ⟨hj, fun h => hne h.symm, hbit⟩

/-- An index below the count is in the array. -/
theorem mem_bitSet_ofNat {bitCount : Word} (hlen : bitCount.toNat ≤ 8 * len) {i : Nat}
    (hi : i < bitCount.toNat) :
    BitVec.ofNat 64 i ∈ bitSet m bitmap len ↔
      bitmapTest m bitmap (BitVec.ofNat 64 i) = true := by
  have hlt := bitCount.isLt
  unfold bitSet
  rw [Set.mem_ofPred_eq, toNat_ofNat_of_lt (by omega)]
  exact and_iff_right (by omega)

/-- Updates stay within the array. -/
theorem bitmapSet_within {i : Word} (hi : i.toNat < 8 * len) :
    AgreeOff bitmap (bitmap + len) m (bitmapSet m bitmap i) :=
  (bitmapSet_agreeOff m bitmap i).mono (by omega) (by omega)

theorem bitmapClear_within {i : Word} (hi : i.toNat < 8 * len) :
    AgreeOff bitmap (bitmap + len) m (bitmapClear m bitmap i) :=
  (bitmapClear_agreeOff m bitmap i).mono (by omega) (by omega)

end BitSet

/-- The `k`-th index going cyclically up from the hint. -/
def cyclicIndex (bitCount hint : Word) (k : Nat) : Word :=
  BitVec.ofNat 64 ((hint.toNat % bitCount.toNat + k) % bitCount.toNat)

/-- What the scan finds, of the set. -/
theorem bitmapFindFirstClear_bitSet (m : Mem) (bitmap len : Nat) {bitCount : Word} (hint : Word)
    (hpos : 0 < bitCount.toNat) (hlen : bitCount.toNat ≤ 8 * len)
    (hlt : bitCount.toNat < 2 ^ 63) :
    (bitmapFindFirstClear m bitmap bitCount hint = bitCount ∧
      ∀ i < bitCount.toNat, BitVec.ofNat 64 i ∈ bitSet m bitmap len) ∨
    ∃ k < bitCount.toNat,
      bitmapFindFirstClear m bitmap bitCount hint = cyclicIndex bitCount hint k ∧
      cyclicIndex bitCount hint k ∉ bitSet m bitmap len ∧
      ∀ j < k, cyclicIndex bitCount hint j ∈ bitSet m bitmap len := by
  have hmem := fun k => mem_bitSet_ofNat m bitmap len hlen
    (Nat.mod_lt (hint.toNat % bitCount.toNat + k) hpos)
  rcases bitmapFindFirstClear_spec m bitmap hint hpos hlt with
    ⟨hres, hall⟩ | ⟨k, hk, hres, hclear, hbefore⟩
  · exact .inl ⟨hres, fun i hi => (mem_bitSet_ofNat m bitmap len hlen hi).mpr (hall i hi)⟩
  · refine .inr ⟨k, hk, hres, fun hin => ?_, fun j hj => (hmem j).mpr (hbefore j hj)⟩
    rw [hres, (hmem k).mp hin] at hclear
    exact Bool.false_ne_true hclear.symm

/-- **A bitmap is a set of bit indices.** Setting a bit inserts it, clearing one
removes it, within the array's bytes. The scan answers `bit_count` exactly when
every index below it is in the set, and else with the first index that is not,
going cyclically up from the hint; it reads no bit from `bit_count` on, and its
answer is the first clear one of those it reads. -/
theorem bitmap_implements_set (m : Mem) (bitmap len : Nat) :
    (∀ i : Word, i.toNat < 8 * len →
      bitSet (bitmapSet m bitmap i) bitmap len = insert i (bitSet m bitmap len) ∧
      bitSet (bitmapClear m bitmap i) bitmap len = bitSet m bitmap len \ {i} ∧
      AgreeOff bitmap (bitmap + len) m (bitmapSet m bitmap i) ∧
      AgreeOff bitmap (bitmap + len) m (bitmapClear m bitmap i)) ∧
    ∀ bitCount hint : Word, 0 < bitCount.toNat → bitCount.toNat ≤ 8 * len →
      bitCount.toNat < 2 ^ 63 →
      (bitmapFindFirstClear m bitmap bitCount hint = bitCount ↔
        ∀ i < bitCount.toNat, BitVec.ofNat 64 i ∈ bitSet m bitmap len) ∧
      ((¬∀ i < bitCount.toNat, BitVec.ofNat 64 i ∈ bitSet m bitmap len) →
        ∃ k < bitCount.toNat,
          bitmapFindFirstClear m bitmap bitCount hint = cyclicIndex bitCount hint k ∧
          cyclicIndex bitCount hint k ∉ bitSet m bitmap len ∧
          ∀ j < k, cyclicIndex bitCount hint j ∈ bitSet m bitmap len) ∧
      (∀ bit ∈ findFirstClearProbes m bitmap bitCount hint, bit.toNat < bitCount.toNat) ∧
      bitmapFindFirstClear m bitmap bitCount hint =
        ((findFirstClearProbes m bitmap bitCount hint).find?
          (fun bit => !bitmapTest m bitmap bit)).getD bitCount := by
  constructor
  · intro i hi
    exact ⟨bitSet_bitmapSet m bitmap len hi, bitSet_bitmapClear m bitmap len i,
      bitmapSet_within m bitmap len hi, bitmapClear_within m bitmap len hi⟩
  · intro bitCount hint hpos hlen hlt
    have hprobes := And.intro (findFirstClearProbes_lt m bitmap hint hpos)
      (bitmapFindFirstClear_eq_find m bitmap hint hpos)
    rcases bitmapFindFirstClear_bitSet m bitmap len hint hpos hlen hlt with
      ⟨hres, hall⟩ | ⟨k, hk, hfirst⟩
    · exact ⟨iff_of_true hres hall, fun hnot => absurd hall hnot, hprobes⟩
    · -- the index found is below the count, and not in the set
      have hindex : (hint.toNat % bitCount.toNat + k) % bitCount.toNat < bitCount.toNat :=
        Nat.mod_lt _ hpos
      have hne : bitmapFindFirstClear m bitmap bitCount hint ≠ bitCount := by
        intro heq
        have hnat := congrArg BitVec.toNat (hfirst.1.symm.trans heq)
        rw [cyclicIndex, toNat_ofNat_of_lt (by omega)] at hnat
        omega
      exact ⟨iff_of_false hne (fun hall => hfirst.2.1 (hall _ hindex)),
        fun _ => ⟨k, hk, hfirst⟩, hprobes⟩

/-- Bits 0 to 6 set of a byte: setting bit 7 adds it, and a scan of seven bits
answers 7 when all of them are in the set. -/
theorem bitmap_implements_set_byte :
    bitSet (bitmapSet (fun _ => 0x7f) 0 7) 0 1 = insert 7 (bitSet (fun _ => 0x7f) 0 1) ∧
    (bitmapFindFirstClear (fun _ => 0x7f) 0 7 12 = 7 ↔
      ∀ i < 7, BitVec.ofNat 64 i ∈ bitSet (fun _ => 0x7f) 0 1) ∧
    ∀ bit ∈ findFirstClearProbes (fun _ => 0x7f) 0 8 5, bit.toNat < 8 := by
  obtain ⟨hupdate, hscan⟩ := bitmap_implements_set (fun _ => 0x7f) 0 1
  have hseven := hscan 7 12 (by decide) (by decide) (by decide)
  have height := hscan 8 5 (by decide) (by decide) (by decide)
  exact ⟨(hupdate 7 (by decide)).1, hseven.1, height.2.2.1⟩

end QuinKernel
