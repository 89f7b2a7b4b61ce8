import QuinKernel.Machine.Memory
import QuinKernel.Machine.RadixTree

/-!
# Four-level paging (L0 framework)

The translation the processor performs. Bits 51:12 of CR3 and of every
non-leaf entry name the frame of the next table; bits 47:39, 38:30, 29:21 and
20:12 of the virtual address index the four tables in turn. Bit 0 of an entry
says it is present, bit 7 of an upper-level entry that it maps a large page
(reserved in the top table).

`hwWalk` is that procedure written out; `hwWalk_eq` reads it as a lookup in the
radix tree whose tables are frames of memory.
-/

namespace QuinKernel.Machine

open RadixTree

/-- Bit 0: the entry is present. -/
def entryPresent (e : Word) : Bool := e.getLsbD 0

/-- Bit 7: an upper-level entry maps a large page. -/
def entryLarge (e : Word) : Bool := e.getLsbD 7

/-- Bits 51:12: the frame the entry names. -/
def entryFrame (e : Word) : Nat := e.toNat / 4096 % 2 ^ 40

/-- A table has entries. -/
instance neZero_entries : NeZero 512 := ⟨by decide⟩

/-- The nine index bits of `virt` from bit `shift` on. -/
def virtIndex (virt : Word) (shift : Nat) : Fin 512 :=
  ⟨virt.toNat / 2 ^ shift % 512, Nat.mod_lt _ (by decide)⟩

/-- Entry `i` of the table at physical address `table`. -/
def tableEntry (m : Mem) (table : Nat) (i : Fin 512) : Word := load64 m (table + 8 * i)

/-- What a translation ends at. -/
inductive Walk
  | notPresent
  /-- A present entry of the top table with bit 7 set. -/
  | reserved
  /-- A large page, that many levels above the last. -/
  | largePage (levels : Nat) (entry : Word)
  | leaf (entry : Word)
  deriving DecidableEq

/-- The processor's walk for `virt`. -/
def hwWalk (m : Mem) (cr3 virt : Word) : Walk :=
  let pml4e := tableEntry m (entryFrame cr3 * 4096) (virtIndex virt 39)
  if !entryPresent pml4e then .notPresent
  else if entryLarge pml4e then .reserved
  else
    let pdpte := tableEntry m (entryFrame pml4e * 4096) (virtIndex virt 30)
    if !entryPresent pdpte then .notPresent
    else if entryLarge pdpte then .largePage 2 pdpte
    else
      let pde := tableEntry m (entryFrame pdpte * 4096) (virtIndex virt 21)
      if !entryPresent pde then .notPresent
      else if entryLarge pde then .largePage 1 pde
      else
        let pte := tableEntry m (entryFrame pde * 4096) (virtIndex virt 12)
        if !entryPresent pte then .notPresent else .leaf pte

/-- Bits 63:47 are all equal. -/
def Canonical (virt : Word) : Prop := virt.toNat < 2 ^ 47 ∨ 2 ^ 64 - 2 ^ 47 ≤ virt.toNat

instance (virt : Word) : Decidable (Canonical virt) := inferInstanceAs (Decidable (_ ∨ _))

/-- The physical address of `virt`, for a walk that ends in a page: the page's
frames, and the bits of `virt` below. -/
def Walk.phys (virt : Word) : Walk → Option Nat
  | .leaf e => some (entryFrame e * 4096 + virt.toNat % 4096)
  | .largePage levels e =>
      some (entryFrame e / 512 ^ levels * (4096 * 512 ^ levels) +
        virt.toNat % (4096 * 512 ^ levels))
  | _ => none

/-- The translation of `virt`. -/
def hwTranslate (m : Mem) (cr3 virt : Word) : Option Nat :=
  if Canonical virt then (hwWalk m cr3 virt).phys virt else none

/-- Two addresses lie in the same 4 KiB page. -/
abbrev samePage (a b : Word) : Prop := a.toNat / 4096 = b.toNat / 4096

/-! ## The tables as a radix tree -/

/-- The tables in memory `m`, by frame. -/
def tables (m : Mem) (frame : Nat) (i : Fin 512) : Word := tableEntry m (frame * 4096) i

/-- The table an upper-level entry leads to. -/
def nextTable (e : Word) : Option Nat :=
  if entryPresent e && !entryLarge e then some (entryFrame e) else none

/-- The indices of the three upper tables. -/
def upperIndices (virt : Word) : List (Fin 512) :=
  [virtIndex virt 39, virtIndex virt 30, virtIndex virt 21]

/-- The result of a walk that stopped at an entry with `levels` levels to go. -/
def classify : Word × Nat → Walk
  | (e, levels) =>
      if !entryPresent e then .notPresent
      else if levels = 0 then .leaf e
      else if levels = 3 then .reserved
      else .largePage levels e

theorem classify_of_not_present {e : Word} {levels : Nat} (h : entryPresent e = false) :
    classify (e, levels) = .notPresent := by
  simp [classify, h]

theorem classify_of_stop {e : Word} {n : Nat} (h : entryPresent e = true) :
    classify (e, n + 1) = if n = 2 then .reserved else .largePage (n + 1) e := by
  simp [classify, h]

/-- One level of a lookup. -/
theorem classify_probe_cons (T : Nat → Fin 512 → Word) (frame : Nat) (i j : Fin 512)
    (p : List (Fin 512)) :
    classify (probe nextTable T frame (i :: p) j) =
      if !entryPresent (T frame i) then .notPresent
      else if entryLarge (T frame i) then classify (T frame i, p.length + 1)
      else classify (probe nextTable T (entryFrame (T frame i)) p j) := by
  generalize he : T frame i = e
  simp only [probe, he]
  cases hpresent : entryPresent e
  · simp [nextTable, hpresent, classify_of_not_present]
  · cases hlarge : entryLarge e <;> simp [nextTable, hpresent, hlarge]

/-- The walk is a lookup in the tree. -/
theorem hwWalk_eq (m : Mem) (cr3 virt : Word) :
    hwWalk m cr3 virt = classify
      (probe nextTable (tables m) (entryFrame cr3) (upperIndices virt) (virtIndex virt 12)) := by
  have hbranch : ∀ e levels (w : Walk), (if !entryPresent e then Walk.notPresent
      else if entryLarge e then classify (e, levels) else w) =
      if !entryPresent e then .notPresent
      else if entryLarge e then (if levels = 0 then .leaf e
        else if levels = 3 then .reserved else .largePage levels e) else w := by
    intro e levels w
    cases hpresent : entryPresent e <;> simp [classify, hpresent]
  unfold upperIndices
  rw [classify_probe_cons, hbranch, classify_probe_cons, hbranch, classify_probe_cons, hbranch]
  rfl

/-- The walk depends on the page only. -/
theorem hwWalk_samePage {a b : Word} (m : Mem) (cr3 : Word) (h : samePage a b) :
    hwWalk m cr3 a = hwWalk m cr3 b := by
  have hindex : ∀ shift, 12 ≤ shift → virtIndex a shift = virtIndex b shift := by
    intro shift hshift
    obtain ⟨k, rfl⟩ := Nat.exists_eq_add_of_le hshift
    simp only [virtIndex, Fin.mk.injEq, Nat.pow_add, ← Nat.div_div_eq_div_mul]
    rw [show (2 : Nat) ^ 12 = 4096 from rfl, h]
  simp only [hwWalk_eq, upperIndices, hindex 39 (by decide), hindex 30 (by decide),
    hindex 21 (by decide), hindex 12 (by decide)]

/-- The two addresses have the same four indices: the tables do not tell their
pages apart. -/
def sameIndices (a b : Word) : Prop :=
  upperIndices a = upperIndices b ∧ virtIndex a 12 = virtIndex b 12

instance (a b : Word) : Decidable (sameIndices a b) :=
  inferInstanceAs (Decidable (_ ∧ _))

/-- The indices are bits 47:12. -/
theorem sameIndices_iff {a b : Word} :
    sameIndices a b ↔ a.toNat / 4096 % 2 ^ 36 = b.toNat / 4096 % 2 ^ 36 := by
  simp only [sameIndices, upperIndices, List.cons.injEq, and_true, virtIndex, Fin.mk.injEq]
  constructor
  · rintro ⟨⟨h39, h30, h21⟩, h12⟩
    omega
  · intro h
    exact ⟨⟨by omega, by omega, by omega⟩, by omega⟩

/-- For canonical addresses the indices name the page. -/
theorem sameIndices_iff_samePage {a b : Word} (ha : Canonical a) (hb : Canonical b) :
    sameIndices a b ↔ samePage a b := by
  rw [sameIndices_iff]
  have ha64 := a.isLt
  have hb64 := b.isLt
  unfold Canonical at ha hb
  unfold samePage
  omega

theorem hwWalk_sameIndices {a b : Word} (m : Mem) (cr3 : Word) (h : sameIndices a b) :
    hwWalk m cr3 a = hwWalk m cr3 b := by
  rw [hwWalk_eq, hwWalk_eq, h.1, h.2]

/-! ## Access rights -/

/-- Bits 1, 2 and 63 of an entry: it allows writes, it allows user mode, it
forbids execution. Bit 4 of the last entry disables caching. -/
def entryWritable (e : Word) : Bool := e.getLsbD 1
def entryUser (e : Word) : Bool := e.getLsbD 2
def entryCacheDisable (e : Word) : Bool := e.getLsbD 4
def entryNoExecute (e : Word) : Bool := e.getLsbD 63

/-- What the processor lets an access do. -/
structure Rights where
  writable : Bool
  user : Bool
  noExecute : Bool
  deriving DecidableEq

/-- The rights a walk through the entries `es` gives: writes and user mode need
the leave of every entry, execution is forbidden by any. -/
def Rights.ofEntries (es : List Word) : Rights :=
  ⟨es.all entryWritable, es.all entryUser, es.any entryNoExecute⟩

/-- The entries the processor reads for `virt`. -/
def walkEntries (m : Mem) (cr3 virt : Word) : List Word :=
  trail nextTable (tables m) (entryFrame cr3) (upperIndices virt) (virtIndex virt 12)

/-- The processor's rights for `virt`. -/
def hwRights (m : Mem) (cr3 virt : Word) : Rights := Rights.ofEntries (walkEntries m cr3 virt)

/-- An entry that gives every right leaves the decision to the others. -/
theorem Rights.ofEntries_append {es : List Word} (e : Word)
    (h : ∀ d ∈ es, entryWritable d = true ∧ entryUser d = true ∧ entryNoExecute d = false) :
    Rights.ofEntries (es ++ [e]) = ⟨entryWritable e, entryUser e, entryNoExecute e⟩ := by
  have hwritable : es.all entryWritable = true := List.all_eq_true.mpr (fun d hd => (h d hd).1)
  have huser : es.all entryUser = true := List.all_eq_true.mpr (fun d hd => (h d hd).2.1)
  have hexecute : es.any entryNoExecute = false := by
    rw [List.any_eq_false]
    exact fun d hd => by simp [(h d hd).2.2]
  simp [Rights.ofEntries, hwritable, huser, hexecute]

/-! ## Storing an entry -/

/-- The tables after one entry is stored. -/
theorem tables_store64 (m : Mem) (t : Nat) (i : Fin 512) (e : Word) (u : Nat) (k : Fin 512) :
    tables (store64 m (t * 4096 + 8 * i) e) u k =
      if u = t ∧ k = i then e else tables m u k := by
  unfold tables tableEntry
  by_cases h : u = t ∧ k = i
  · obtain ⟨rfl, rfl⟩ := h
    simp
  · rw [if_neg h]
    refine load64_store64_ne m e ?_
    have hne : u ≠ t ∨ (k : Nat) ≠ i := by
      rw [← not_and_or, Fin.val_inj]
      exact h
    have := k.isLt
    have := i.isLt
    omega

/-- A table's entries depend on the bytes of its frame. -/
theorem tables_congr {m m' : Mem} {t : Nat}
    (h : ∀ x, t * 4096 ≤ x → x < (t + 1) * 4096 → m' x = m x) (i : Fin 512) :
    tables m' t i = tables m t i := by
  have := i.isLt
  unfold tables tableEntry
  refine load64_congr (fun x hlo hhi => ?_)
  exact h x (Nat.le_trans (Nat.le_add_right _ _) hlo) (by omega)

/-- A zeroed frame is an empty table. -/
theorem tables_zero {m : Mem} {t : Nat}
    (h : ∀ x, t * 4096 ≤ x → x < (t + 1) * 4096 → m x = 0) (i : Fin 512) : tables m t i = 0 := by
  have := i.isLt
  have hzero : loadNat m (t * 4096 + 8 * i) 8 = 0 := by
    refine loadNat_zero 8 _ (fun x hlo hhi => ?_)
    exact h x (Nat.le_trans (Nat.le_add_right _ _) hlo) (by omega)
  unfold tables tableEntry load64
  rw [hzero]
  rfl

end QuinKernel.Machine
