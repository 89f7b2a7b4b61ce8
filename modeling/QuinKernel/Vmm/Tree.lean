import QuinKernel.Vmm.Model
import QuinKernel.Pmm.Frames

/-!
# The page-table tree

`Vmm.WF` is what the paging code relies on: the tables form a tree (each is
referenced once), no table is a free frame or part of the frame bitmap, and
physical addresses have at most 52 bits.

`Vmm.Keeps` is the frame of every paging operation: well-formedness survives,
frames only leave the free set, new tables come from it, and bytes that belong
to none of tables, free frames and bitmap are left alone. What an operation
does to translations is stated beside it, in terms of `Vmm.walk`.
-/

namespace QuinKernel

open Machine RadixTree

/-- The physical address of frame `t`. -/
def frameAddr (t : Nat) : Word := BitVec.ofNat 64 (t * 4096)

namespace Vmm

/-- The frame of the top table. -/
def root (v : Vmm) : Nat := entryFrame v.cr3

/-- The table the indices lead to. -/
def tableAt (v : Vmm) (p : List (Fin 512)) : Option Nat :=
  descend nextTable (tables v.pmm.mem) v.root p

/-- Frame `t` is a page table. -/
def Table (v : Vmm) (t : Nat) : Prop := IsTable nextTable (tables v.pmm.mem) 3 v.root t

/-- The processor's walk. -/
def walk (v : Vmm) (virt : Word) : Walk := hwWalk v.pmm.mem v.cr3 virt

/-- No upper-level entry on the existing path of `virt` maps a large page. -/
def NoLargePage (v : Vmm) (virt : Word) : Prop :=
  ∀ p i r t, upperIndices virt = p ++ i :: r → v.tableAt p = some t →
    entryPresent (tables v.pmm.mem t i) = true → entryLarge (tables v.pmm.mem t i) = false

/-- Well-formed page tables. -/
structure WF (v : Vmm) : Prop where
  pmm : v.pmm.Ok
  physical : v.pmm.frameCount.toNat ≤ 2 ^ 40
  tree : IsTree nextTable (tables v.pmm.mem) 3 v.root
  notFree : ∀ t, v.Table t → t ∉ v.pmm.freeSet
  offBitmap : ∀ t, v.Table t → ¬ v.pmm.HoldsBitmap t

/-- Address `x` belongs to a frame that is no table, not free and not part of
the bitmap. -/
def Data (v : Vmm) (f : Nat) : Prop :=
  ¬ v.Table f ∧ f ∉ v.pmm.freeSet ∧ ¬ v.pmm.HoldsBitmap f

/-- What every paging operation keeps. -/
structure Keeps (v v' : Vmm) : Prop where
  wf : v'.WF
  statics : v' = v.withPmm v'.pmm
  bitmap : v'.pmm.bitmap = v.pmm.bitmap
  frameCount : v'.pmm.frameCount = v.pmm.frameCount
  freeSet : v'.pmm.freeSet ⊆ v.pmm.freeSet
  newTable : ∀ t, v'.Table t → v.Table t ∨ t ∈ v.pmm.freeSet
  data : ∀ x, v.Data (x / 4096) → v'.pmm.mem x = v.pmm.mem x

end Vmm

/-! ## Entries -/

theorem toNat_frameAddr {t : Nat} (h : t < 2 ^ 52) : (frameAddr t).toNat = t * 4096 := by
  rw [frameAddr, toNat_ofNat_of_lt (by omega)]

theorem entryFrame_lt (e : Word) : entryFrame e < 2 ^ 40 := Nat.mod_lt _ (by decide)

/-- Bit 0 as the code tests it. -/
theorem and_ptePresent (e : Word) : e &&& ptePresent = 0 ↔ entryPresent e = false := by
  unfold ptePresent entryPresent
  constructor
  · intro h
    have := congrArg (fun w : Word => w.getLsbD 0) h
    simpa using this
  · intro h
    apply BitVec.eq_of_getLsbD_eq
    intro i hi
    rw [BitVec.getLsbD_and]
    by_cases hi0 : i = 0
    · subst hi0
      rw [h, Bool.false_and]
      rfl
    · simp [hi0]

/-- The address field as the code masks it. -/
theorem and_pteAddrMask (e : Word) : e &&& pteAddrMask = frameAddr (entryFrame e) := by
  apply BitVec.eq_of_toNat_eq
  rw [toNat_frameAddr (Nat.lt_trans (entryFrame_lt e) (by decide)), BitVec.toNat_and,
    show pteAddrMask.toNat = (2 ^ 40 - 1) <<< 12 by decide, entryFrame,
    show e.toNat / 4096 % 2 ^ 40 * 4096 = (e.toNat >>> 12 % 2 ^ 40) <<< 12 by
      rw [Nat.shiftLeft_eq, Nat.shiftRight_eq_div_pow]]
  apply Nat.eq_of_testBit_eq
  intro k
  rw [Nat.testBit_and, Nat.testBit_shiftLeft, Nat.testBit_shiftLeft, Nat.testBit_two_pow_sub_one,
    Nat.testBit_mod_two_pow, Nat.testBit_shiftRight]
  by_cases hk : 12 ≤ k
  · rw [show 12 + (k - 12) = k by omega]
    cases e.toNat.testBit k <;> simp
  · simp [hk]

theorem toNat_frameAddr_or {t : Nat} (ht : t < 2 ^ 52) {w : Word} (hw : w.toNat < 4096) :
    (frameAddr t ||| w).toNat = t * 4096 + w.toNat := by
  rw [BitVec.toNat_or, toNat_frameAddr ht, Nat.mul_comm, show 4096 = 2 ^ 12 by rfl]
  exact (Nat.two_pow_add_eq_or_of_lt hw t).symm

/-- The entry `ensure_next_level` writes links to its new table. -/
theorem nextTable_link {t : Nat} (ht : t < 2 ^ 40) :
    nextTable (frameAddr t ||| ptePresent ||| pteWritable ||| pteUser) = some t := by
  have hor : frameAddr t ||| ptePresent ||| pteWritable ||| pteUser = frameAddr t ||| 7 := by
    rw [BitVec.or_assoc, BitVec.or_assoc]
    rfl
  have hval : (frameAddr t ||| (7 : Word)).toNat = t * 4096 + 7 :=
    toNat_frameAddr_or (by omega) (by decide)
  rw [hor]
  have hpresent : entryPresent (frameAddr t ||| 7) = true := by
    rw [entryPresent, BitVec.getLsbD, hval, Nat.testBit_zero]
    simp
    omega
  have hlarge : entryLarge (frameAddr t ||| 7) = false := by
    rw [entryLarge, BitVec.getLsbD, hval, Nat.testBit_eq_decide_div_mod_eq]
    simp
    omega
  have hframe : entryFrame (frameAddr t ||| 7) = t := by
    rw [entryFrame, hval]
    omega
  rw [nextTable, hpresent, hlarge, hframe]
  rfl

/-- The flags of a leaf always mark it present. -/
theorem entryPresent_leaf (phys : Word) (flags : BitVec 32) :
    entryPresent ((phys &&& pteAddrMask) ||| translateFlags flags) = true := by
  have hflags : (translateFlags flags).getLsbD 0 = true := by
    unfold translateFlags
    dsimp only
    split <;> split <;> split <;> split <;> decide
  simp [entryPresent, hflags]

theorem frameAddr_injective {t u : Nat} (ht : t < 2 ^ 52) (hu : u < 2 ^ 52)
    (h : frameAddr t = frameAddr u) : t = u := by
  have := congrArg BitVec.toNat h
  rw [toNat_frameAddr ht, toNat_frameAddr hu] at this
  omega

theorem frameAddr_ne_zero {t : Nat} (h0 : t ≠ 0) (ht : t < 2 ^ 40) : frameAddr t ≠ 0 := by
  intro hz
  have := congrArg BitVec.toNat hz
  rw [toNat_frameAddr (by omega)] at this
  simp at this
  omega

theorem entryFrame_frameAddr {t : Nat} (ht : t < 2 ^ 40) : entryFrame (frameAddr t) = t := by
  rw [entryFrame, toNat_frameAddr (by omega)]
  omega

/-- The address field of a frame's address is the address. -/
theorem frameAddr_and_mask {t : Nat} (ht : t < 2 ^ 40) : frameAddr t &&& pteAddrMask = frameAddr t := by
  rw [and_pteAddrMask, entryFrame_frameAddr ht]

/-- A leaf names the frame it was given; the flags lie outside the address field. -/
theorem entryFrame_leaf {t : Nat} (ht : t < 2 ^ 40) (flags : BitVec 32) :
    entryFrame (frameAddr t ||| translateFlags flags) = t := by
  have hflags : translateFlags flags &&& pteAddrMask = 0 := by
    unfold translateFlags
    dsimp only
    split <;> split <;> split <;> split <;> decide
  have hmask : (frameAddr t ||| translateFlags flags) &&& pteAddrMask = frameAddr t := by
    rw [BitVec.and_comm, BitVec.and_or_distrib_left, BitVec.and_comm, and_pteAddrMask,
      BitVec.and_comm, hflags, entryFrame_frameAddr ht]
    exact BitVec.or_zero
  rw [and_pteAddrMask] at hmask
  exact frameAddr_injective (Nat.lt_trans (entryFrame_lt _) (by decide))
    (Nat.lt_trans ht (by decide)) hmask

/-- The four indices, as the processor takes them. -/
theorem tableIndex_eq (virt : Word) (shift : Nat) : tableIndex virt shift = virtIndex virt shift := by
  apply Fin.ext
  simp only [tableIndex, virtIndex, BitVec.toNat_and, BitVec.toNat_ushiftRight,
    Nat.shiftRight_eq_div_pow]
  exact Nat.and_two_pow_sub_one_eq_mod _ 9

/-! ## What reads the tables -/

namespace Vmm

variable {v v' : Vmm} {t : Nat} {virt a : Word} {p : List (Fin 512)} {i : Fin 512}

theorem walk_eq (v : Vmm) (virt : Word) :
    v.walk virt = classify (probe nextTable (tables v.pmm.mem) v.root (upperIndices virt)
      (virtIndex virt 12)) :=
  hwWalk_eq v.pmm.mem v.cr3 virt

/-- Tables are frames of the 52-bit physical address space. -/
theorem Table.lt (h : v.Table t) : t < 2 ^ 40 := by
  obtain ⟨p, _, hp⟩ := h
  rcases List.eq_nil_or_concat p with rfl | ⟨q, i, rfl⟩
  · rw [← Option.some.inj hp]
    exact entryFrame_lt v.cr3
  · rw [List.concat_eq_append, descend_append] at hp
    cases hq : descend nextTable (tables v.pmm.mem) v.root q with
    | none => simp [hq] at hp
    | some u =>
        rw [hq, Option.bind_some] at hp
        simp only [descend, nextTable] at hp
        split at hp
        · simp only [Option.bind_some, Option.some.injEq] at hp
          rw [← hp]
          exact entryFrame_lt _
        · simp at hp

/-- A path meets a large page exactly when the walk ends at one. -/
theorem noLargePage_iff : v.NoLargePage virt ↔
    v.walk virt = .notPresent ∨ ∃ e, v.walk virt = .leaf e := by
  rw [walk_eq]
  constructor
  · intro h
    rcases hprobe : probe nextTable (tables v.pmm.mem) v.root (upperIndices virt)
      (virtIndex virt 12) with ⟨e, levels⟩
    cases hpresent : entryPresent e
    · exact .inl (classify_of_not_present hpresent)
    cases levels with
    | zero => exact .inr ⟨e, by simp [classify, hpresent]⟩
    | succ n =>
        -- the walk stopped at a present entry, which must be large
        obtain ⟨p, i, r, t, hsplit, ht, rfl, hstop⟩ := exists_stop_of_probe hprobe
        have hsmall := h p i r t hsplit ht hpresent
        simp [nextTable, hpresent, hsmall] at hstop
  · intro h p i r t hsplit ht hpresent
    by_contra hlarge
    have hstop : nextTable (tables v.pmm.mem t i) = none := by
      simp [nextTable, hlarge]
    rw [hsplit, probe_of_stop ht hstop] at h
    rw [classify_of_stop hpresent] at h
    rcases h with h | ⟨e, h⟩
    · split at h <;> exact absurd h (by simp)
    · split at h <;> exact absurd h (by simp)

/-- A walk that ends at a leaf reads it in the page's bottom table. -/
theorem exists_table_of_leaf {e : Word} (h : v.walk virt = .leaf e) :
    ∃ t, v.tableAt (upperIndices virt) = some t ∧ tables v.pmm.mem t (virtIndex virt 12) = e := by
  rw [walk_eq] at h
  rcases hprobe : probe nextTable (tables v.pmm.mem) v.root (upperIndices virt)
    (virtIndex virt 12) with ⟨e', levels⟩
  rw [hprobe] at h
  cases levels with
  | succ n =>
      cases hpresent : entryPresent e'
      · rw [classify_of_not_present hpresent] at h
        exact absurd h (by simp)
      · rw [classify_of_stop hpresent] at h
        split at h <;> exact absurd h (by simp)
  | zero =>
      obtain ⟨t, ht⟩ := descend_of_probe (congrArg Prod.snd hprobe)
      refine ⟨t, ht, ?_⟩
      rw [probe_of_descend ht] at hprobe
      rw [(Prod.mk.inj hprobe).1]
      cases hpresent : entryPresent e'
      · rw [classify_of_not_present hpresent] at h
        exact absurd h (by simp)
      · simpa [classify, hpresent] using h

theorem NoLargePage.congr (h : v.NoLargePage virt) (hwalk : v'.walk virt = v.walk virt) :
    v'.NoLargePage virt := by
  rw [noLargePage_iff, hwalk]
  exact noLargePage_iff.mp h

end Vmm

end QuinKernel
