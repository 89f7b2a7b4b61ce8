import QuinKernel.Vmm.Tables

/-!
# What `vmm_map` and `vmm_unmap` do

`vmm_map` is up to three calls of `ensure_next_level` (`Makes`) and, unless one
of them ran out of frames, one leaf write. A table that is missing costs one
frame, and one that is there costs nothing (`Spent`), so it succeeds exactly when
the tables its path lacks are no more than the free frames. `vmm_unmap` is at most
one leaf write.
-/

namespace QuinKernel

open Machine RadixTree

namespace Vmm

variable {v v' v'' w : Vmm} {t : Nat} {virt a : Word} {p r : List (Fin 512)} {i : Fin 512}

/-- The current top table is where every path starts. -/
theorem tableAt_nil (v : Vmm) : v.tableAt [] = some v.root := rfl

theorem currentPml4_eq (v : Vmm) : v.currentPml4 = frameAddr v.root := and_pteAddrMask v.cr3

/-- The tables that the path of `virt` lacks. -/
def missingTables (v : Vmm) (virt : Word) : Nat :=
  (probe nextTable (tables v.pmm.mem) v.root (upperIndices virt) (virtIndex virt 12)).2

theorem missingTables_congr (hpmm : v'.pmm = v.pmm) (hcr3 : v'.cr3 = v.cr3) (virt : Word) :
    v'.missingTables virt = v.missingTables virt := by
  unfold missingTables root
  rw [hpmm, hcr3]

/-- A path that reaches its bottom table lacks none. -/
theorem missingTables_of_table (ht : v.tableAt (upperIndices virt) = some t) :
    v.missingTables virt = 0 := by
  unfold tableAt at ht
  rw [missingTables, probe_of_descend ht]

/-- The path of a mapped page lacks no table. -/
theorem missingTables_of_leaf {e : Word} (h : v.walk virt = .leaf e) : v.missingTables virt = 0 := by
  obtain ⟨t, ht, -⟩ := exists_table_of_leaf h
  exact missingTables_of_table ht

/-- Calls of `ensure_next_level` on tables above the bottom, at entries that map
no large page. -/
inductive Makes : Vmm → Vmm → Prop
  | refl (v : Vmm) : Makes v v
  | step {v v₁ : Vmm} {p : List (Fin 512)} {i : Fin 512} {t : Nat} :
      Makes v v₁ → p.length < 3 → v₁.tableAt p = some t →
      (entryPresent (tables v₁.pmm.mem t i) = true →
        entryLarge (tables v₁.pmm.mem t i) = false) →
      Makes v (ensureNextLevel v₁ (frameAddr t) i).2

theorem Makes.keeps (h : v.Makes v') (wf : v.WF) : v.Keeps v' := by
  induction h with
  | refl => exact Keeps.refl wf
  | step _ hp ht hsmall ih =>
      exact ih.trans (ensureNextLevel_spec ih.wf hp ht hsmall).1

theorem Makes.walk (h : v.Makes v') (wf : v.WF) (a : Word) : v'.walk a = v.walk a := by
  induction h with
  | refl => rfl
  | step h hp ht hsmall ih =>
      exact ((ensureNextLevel_spec (h.keeps wf).wf hp ht hsmall).2.1 a).trans ih

theorem Makes.linked (h : v.Makes v') (wf : v.WF) : v.Linked v' := by
  induction h with
  | refl => exact Linked.refl _
  | step h hp ht _ ih =>
      exact ih.trans (ensureNextLevel_linked (h.keeps wf).wf hp ht)

/-- Free frames and missing tables went down together. -/
def Spent (virt : Word) (v v' : Vmm) : Prop :=
  v'.missingTables virt + v.pmm.freeSet.card = v.missingTables virt + v'.pmm.freeSet.card

theorem Spent.trans (h : Spent virt v v') (h' : Spent virt v' v'') : Spent virt v v'' := by
  unfold Spent at *
  omega

/-- What is missing below a table on the path. -/
theorem missingTables_below (hsplit : upperIndices virt = p ++ r) (ht : v.tableAt p = some t) :
    v.missingTables virt = (probe nextTable (tables v.pmm.mem) t r (virtIndex virt 12)).2 := by
  unfold missingTables
  rw [hsplit, probe_append ht]

theorem length_lt_of_split (hsplit : upperIndices virt = p ++ i :: r) : p.length < 3 := by
  have hlen := congrArg List.length hsplit
  rw [List.length_append, List.length_cons, show (upperIndices virt).length = 3 from rfl] at hlen
  omega

/-- One level of the path: a frame for the table it lacks, or nothing at all. -/
theorem ensureNextLevel_spent (wf : v.WF) (hsplit : upperIndices virt = p ++ i :: r)
    (ht : v.tableAt p = some t) :
    Spent virt v (ensureNextLevel v (frameAddr t) i).2 ∧
    ((ensureNextLevel v (frameAddr t) i).1 = none →
      (ensureNextLevel v (frameAddr t) i).2.pmm.freeSet = ∅ ∧
      0 < (ensureNextLevel v (frameAddr t) i).2.missingTables virt) := by
  have hdepth := length_lt_of_split hsplit
  have hbefore : entryPresent (tables v.pmm.mem t i) = false →
      v.missingTables virt = r.length + 1 := by
    intro hempty
    have hstop : nextTable (tables v.pmm.mem t i) = none := by
      rw [nextTable, hempty]
      rfl
    rw [missingTables_below hsplit ht]
    simp only [probe, hstop]
  rcases ensureNextLevel_cases wf ⟨p, by omega, ht⟩ i with
    ⟨-, hcall⟩ | ⟨hempty, ⟨hnoFree, hcall⟩ | ⟨f, q, hok, hcall⟩⟩
  · rw [hcall]
    exact ⟨rfl, fun h => absurd h (by simp)⟩
  · rw [hcall]
    exact ⟨rfl, fun _ => ⟨hnoFree, (hbefore hempty).symm ▸ Nat.succ_pos _⟩⟩
  · have he := nextTable_linkEntry (alloc_lt wf hok)
    obtain ⟨-, hcard⟩ := linkTable_linked wf hok hdepth ht hempty he
    obtain ⟨-, hnext, -⟩ := linkTable wf hok hdepth ht hempty he
    obtain ⟨-, hzero⟩ := linkTable_link wf hok hdepth ht hempty he
    have hafter : ((v.withPmm q).setEntry (frameAddr t) i (linkEntry f)).missingTables virt =
        r.length := by
      have hsplit' : upperIndices virt = (p ++ [i]) ++ r := by
        rw [hsplit, List.append_assoc]
        rfl
      rw [missingTables_below hsplit' hnext]
      exact probe_of_empty (fun k => by rw [hzero]; rfl)
    rw [hcall]
    refine ⟨?_, fun h => absurd h (by simp)⟩
    unfold Spent
    dsimp only
    rw [hbefore hempty, hafter]
    omega

/-- The leaf `vmm_map` installs. -/
def leafEntry (phys : Word) (flags : BitVec 32) : Word :=
  (phys &&& pteAddrMask) ||| translateFlags flags

/-- One level of `vmm_map`'s path, after what it has made so far. -/
theorem Makes.level (h : v.Makes w) (hspent : Spent virt v w) (wf : v.WF)
    (hlarge : v.NoLargePage virt) (hsplit : upperIndices virt = p ++ i :: r)
    (ht : w.tableAt p = some t) :
    v.Makes (ensureNextLevel w (frameAddr t) i).2 ∧
    Spent virt v (ensureNextLevel w (frameAddr t) i).2 ∧
    ((ensureNextLevel w (frameAddr t) i).1 = none ∧
        (ensureNextLevel w (frameAddr t) i).2.pmm.freeSet = ∅ ∧
        0 < (ensureNextLevel w (frameAddr t) i).2.missingTables virt ∨
      ∃ t', (ensureNextLevel w (frameAddr t) i).1 = some (frameAddr t') ∧
        (ensureNextLevel w (frameAddr t) i).2.tableAt (p ++ [i]) = some t') := by
  have wf' := (h.keeps wf).wf
  have hdepth := length_lt_of_split hsplit
  have hsmall := hlarge.congr (h.walk wf virt) _ _ _ _ hsplit ht
  obtain ⟨hlevel, hnone⟩ := ensureNextLevel_spent wf' hsplit ht
  refine ⟨h.step hdepth ht hsmall, hspent.trans hlevel, ?_⟩
  rcases (ensureNextLevel_spec wf' hdepth ht hsmall).2.2 with hfail | hnext
  · exact .inl ⟨hfail, hnone hfail⟩
  · exact .inr hnext

/-- `vmm_map` makes the tables its path lacks, while there are frames for them,
and then writes the leaf. -/
theorem vmmMap_makes (wf : v.WF) (hlarge : v.NoLargePage virt) (phys : Word) (flags : BitVec 32) :
    ∃ v₁, v.Makes v₁ ∧ Spent virt v v₁ ∧
      (vmmMap v virt phys flags = (false, v₁) ∧ v₁.pmm.freeSet = ∅ ∧
          0 < v₁.missingTables virt ∨
        ∃ t, v₁.tableAt (upperIndices virt) = some t ∧
          vmmMap v virt phys flags =
            (true, v₁.setEntry (frameAddr t) (virtIndex virt 12) (leafEntry phys flags))) := by
  unfold vmmMap
  simp only [pageTableIndices, tableIndex_eq, currentPml4_eq]
  have hpath : upperIndices virt = [virtIndex virt 39, virtIndex virt 30, virtIndex virt 21] := rfl
  -- level by level: the path stays free of large pages, so each table is reached
  obtain ⟨hm₁, hs₁, hres₁⟩ := (Makes.refl v).level rfl wf hlarge hpath v.tableAt_nil
  rcases h₁ : ensureNextLevel v (frameAddr v.root) (virtIndex virt 39) with ⟨next₁, v₁⟩
  rw [h₁] at hm₁ hs₁ hres₁
  rcases hres₁ with ⟨rfl, hfail⟩ | ⟨t₁, rfl, ht₁⟩
  · exact ⟨v₁, hm₁, hs₁, .inl ⟨rfl, hfail⟩⟩
  obtain ⟨hm₂, hs₂, hres₂⟩ := hm₁.level hs₁ wf hlarge hpath ht₁
  dsimp only at hm₂ hs₂ hres₂ ⊢
  rcases h₂ : ensureNextLevel v₁ (frameAddr t₁) (virtIndex virt 30) with ⟨next₂, v₂⟩
  rw [h₂] at hm₂ hs₂ hres₂
  rcases hres₂ with ⟨rfl, hfail⟩ | ⟨t₂, rfl, ht₂⟩
  · exact ⟨v₂, hm₂, hs₂, .inl ⟨rfl, hfail⟩⟩
  obtain ⟨hm₃, hs₃, hres₃⟩ := hm₂.level hs₂ wf hlarge hpath ht₂
  dsimp only at hm₃ hs₃ hres₃ ⊢
  rcases h₃ : ensureNextLevel v₂ (frameAddr t₂) (virtIndex virt 21) with ⟨next₃, v₃⟩
  rw [h₃] at hm₃ hs₃ hres₃
  rcases hres₃ with ⟨rfl, hfail⟩ | ⟨t₃, rfl, ht₃⟩
  · exact ⟨v₃, hm₃, hs₃, .inl ⟨rfl, hfail⟩⟩
  · exact ⟨v₃, hm₃, hs₃, .inr ⟨t₃, ht₃, rfl⟩⟩

/-- **What `vmm_map` does.** On failure no translation changes; on success the
page of `virt` translates to the leaf and every other lookup is unchanged. -/
theorem vmmMap_spec (wf : v.WF) (hlarge : v.NoLargePage virt) (phys : Word) (flags : BitVec 32) :
    v.Keeps (vmmMap v virt phys flags).2 ∧
    ((vmmMap v virt phys flags).1 = false ∧
        (∀ a, (vmmMap v virt phys flags).2.walk a = v.walk a) ∨
      (vmmMap v virt phys flags).1 = true ∧
        (∀ a, upperIndices a = upperIndices virt → virtIndex a 12 = virtIndex virt 12 →
          (vmmMap v virt phys flags).2.walk a = .leaf (leafEntry phys flags)) ∧
        ∀ a, (upperIndices a ≠ upperIndices virt ∨ virtIndex a 12 ≠ virtIndex virt 12) →
          (vmmMap v virt phys flags).2.walk a = v.walk a) := by
  obtain ⟨v₁, hmakes, -, ⟨hcall, -⟩ | ⟨t, ht, hcall⟩⟩ := vmmMap_makes wf hlarge phys flags
  · rw [hcall]
    exact ⟨hmakes.keeps wf, .inl ⟨rfl, hmakes.walk wf⟩⟩
  · rw [hcall]
    have hkeeps := hmakes.keeps wf
    obtain ⟨hk, hself, hother⟩ := leafWrite hkeeps.wf rfl ht (virtIndex virt 12)
      (leafEntry phys flags)
    refine ⟨hkeeps.trans hk, .inr ⟨rfl, fun a hupper hlast => ?_, fun a hne => ?_⟩⟩
    · refine (hself a hupper hlast).trans ?_
      simp [classify, leafEntry, entryPresent_leaf]
    · exact (hother a hne).trans (hmakes.walk wf a)

/-- **The frames `vmm_map` takes are linked**, and it succeeds exactly when
there are enough of them for the tables the path lacks. -/
theorem vmmMap_linked (wf : v.WF) (hlarge : v.NoLargePage virt) (phys : Word)
    (flags : BitVec 32) :
    v.Linked (vmmMap v virt phys flags).2 ∧
    ((vmmMap v virt phys flags).1 = true ↔ v.missingTables virt ≤ v.pmm.freeSet.card) := by
  obtain ⟨v₁, hmakes, hspent, ⟨hcall, hempty, hlacks⟩ | ⟨t, ht, hcall⟩⟩ :=
    vmmMap_makes wf hlarge phys flags
  · rw [hcall]
    have hfew : v.pmm.freeSet.card < v.missingTables virt := by
      unfold Spent at hspent
      rw [hempty, Finset.card_empty] at hspent
      omega
    exact ⟨hmakes.linked wf, iff_of_false (by simp) (Nat.not_le.mpr hfew)⟩
  · rw [hcall]
    have henough : v.missingTables virt ≤ v.pmm.freeSet.card := by
      unfold Spent at hspent
      rw [missingTables_of_table ht] at hspent
      omega
    exact ⟨(hmakes.linked wf).trans (leafWrite_linked (hmakes.keeps wf).wf rfl ht _ _),
      iff_of_true rfl henough⟩

/-- A `vmm_map` that succeeds takes one frame for each table its path lacks. -/
theorem vmmMap_card (wf : v.WF) (hlarge : v.NoLargePage virt) {phys : Word} {flags : BitVec 32}
    (hok : (vmmMap v virt phys flags).1 = true) :
    (vmmMap v virt phys flags).2.pmm.freeSet.card + v.missingTables virt = v.pmm.freeSet.card := by
  obtain ⟨v₁, hmakes, hspent, ⟨hcall, -⟩ | ⟨t, ht, hcall⟩⟩ := vmmMap_makes wf hlarge phys flags
  · rw [hcall] at hok
    cases hok
  · have wf₁ := (hmakes.keeps wf).wf
    have htab : v₁.Table t := ⟨upperIndices virt, Nat.le_refl 3, ht⟩
    unfold Spent at hspent
    rw [missingTables_of_table ht] at hspent
    rw [hcall, (setEntry_pmm htab.lt (wf₁.offBitmap t htab) wf₁.pmm _ _).2]
    omega

/-! ## Mapping a fresh frame -/

/-- Frame `f`, free before, was taken to back `page`; `ok` if it does so now. -/
structure MappedFresh (v : Vmm) (page : Word) (f : Nat) (flags : BitVec 32) (ok : Bool)
    (v' : Vmm) : Prop where
  wasFree : f ∈ v.pmm.freeSet
  keeps : v.Keeps v'
  data : v'.Data f
  zeroed : ∀ x, x / 4096 = f → v'.pmm.mem x = 0
  mapped : ok = true → v'.walk page = .leaf (frameAddr f ||| translateFlags flags)
  failed : ok = false → ∀ a, v'.walk a = v.walk a
  other : ∀ a, ¬ sameIndices a page → v'.walk a = v.walk a
  /-- The other frames the call took are tables. -/
  frames : ∀ g ∈ v.pmm.freeSet, g ≠ f → g ∈ v'.pmm.freeSet ∨ v'.Table g
  tables : ∀ u, v.Table u → v'.Table u
  enough : ok = true ↔ v.missingTables page < v.pmm.freeSet.card

/-- An allocated frame leaves every path as it was, and one frame less free. -/
theorem alloc_spent {f : Nat} {q : Pmm} (wf : v.WF) (h : AllocOk v.pmm f q) (virt : Word) :
    (v.withPmm q).missingTables virt = v.missingTables virt ∧
    q.freeSet.card + 1 = v.pmm.freeSet.card := by
  refine ⟨congrArg Prod.snd ((alloc_keepsTables wf h).probe (Nat.le_refl 3)), ?_⟩
  rw [h.freeSet, Finset.card_erase_of_mem h.wasFree]
  have := Finset.card_pos.mpr ⟨f, h.wasFree⟩
  omega

/-- **Allocating a frame and mapping a page to it**, as a page fault and
`vmm_alloc_guarded` do. -/
theorem mapFresh_spec {page : Word} {f : Nat} {q : Pmm} (wf : v.WF) (h : AllocOk v.pmm f q)
    (hlarge : v.NoLargePage page) (flags : BitVec 32) :
    MappedFresh v page f flags (vmmMap (v.withPmm q) page (frameAddr f) flags).1
      (vmmMap (v.withPmm q) page (frameAddr f) flags).2 := by
  have hf40 := alloc_lt wf h
  have hkeeps := alloc_keeps wf h
  have hdata := alloc_data wf h
  have hwalk := alloc_walk wf h
  have htree := alloc_keepsTables wf h
  have hlarge' : (v.withPmm q).NoLargePage page := hlarge.congr (hwalk page)
  obtain ⟨hmissing, hcard⟩ := alloc_spent wf h page
  obtain ⟨hk, hcases⟩ := vmmMap_spec hkeeps.wf hlarge' (frameAddr f) flags
  obtain ⟨hlinked, henough⟩ := vmmMap_linked hkeeps.wf hlarge' (frameAddr f) flags
  have hleaf : leafEntry (frameAddr f) flags = frameAddr f ||| translateFlags flags := by
    rw [leafEntry, frameAddr_and_mask hf40]
  generalize vmmMap (v.withPmm q) page (frameAddr f) flags = result at hk hcases hlinked henough
  obtain ⟨ok, v'⟩ := result
  dsimp only at hk hcases hlinked henough ⊢
  refine ⟨h.wasFree, hkeeps.trans hk, hk.dataStays hdata, fun x hx => ?_, fun hok => ?_,
    fun hok a => ?_, fun a ha => ?_, fun g hg hgf => ?_, fun u hu => ?_, ?_⟩
  · rw [hk.data x (hx ▸ hdata)]
    exact h.zeroed x (by omega) (by omega)
  · rcases hcases with ⟨hfail, -⟩ | ⟨-, hself, -⟩
    · rw [hok] at hfail
      exact absurd hfail (by simp)
    · rw [← hleaf]
      exact hself page rfl rfl
  · rcases hcases with ⟨-, hsame⟩ | ⟨htrue, -, -⟩
    · exact (hsame a).trans (hwalk a)
    · rw [hok] at htrue
      exact absurd htrue (by simp)
  · rcases hcases with ⟨-, hsame⟩ | ⟨-, -, hother⟩
    · exact (hsame a).trans (hwalk a)
    · exact (hother a (by rw [← not_and_or]; exact ha)).trans (hwalk a)
  · refine hlinked.frames g ?_
    show g ∈ q.freeSet
    rw [h.freeSet]
    exact Finset.mem_erase.mpr ⟨hgf, hg⟩
  · exact hlinked.tables u (htree.isTable.mpr hu)
  · -- one frame went to the page, so tables are left with one less
    rw [henough, hmissing]
    show v.missingTables page ≤ q.freeSet.card ↔ _
    omega

/-! ## Unmapping -/

/-- The entries `vmm_unmap` reads. -/
theorem vmmUnmap_eq (v : Vmm) (virt : Word) :
    let e₁ := tables v.pmm.mem v.root (virtIndex virt 39)
    let e₂ := tables v.pmm.mem (entryFrame e₁) (virtIndex virt 30)
    let e₃ := tables v.pmm.mem (entryFrame e₂) (virtIndex virt 21)
    vmmUnmap v virt =
      if entryPresent e₁ = false then v
      else if entryPresent e₂ = false then v
      else if entryPresent e₃ = false then v
      else v.setEntry (frameAddr (entryFrame e₃)) (virtIndex virt 12) 0 := by
  have hread : ∀ {t : Nat} (i), t < 2 ^ 40 → v.entry (frameAddr t) i = tables v.pmm.mem t i := by
    intro t i ht
    rw [Vmm.entry, toNat_frameAddr (Nat.lt_trans ht (by decide))]
    rfl
  unfold vmmUnmap
  simp only [pageTableIndices, tableIndex_eq, currentPml4_eq, and_ptePresent, and_pteAddrMask,
    hread _ (entryFrame_lt _), hread _ (show v.root < 2 ^ 40 from entryFrame_lt _)]

/-- `vmm_unmap` clears the entry of the page, if its tables are there. -/
theorem vmmUnmap_cases (hlarge : v.NoLargePage virt) :
    vmmUnmap v virt = v ∧ (∀ a, upperIndices a = upperIndices virt → v.walk a = .notPresent) ∨
    ∃ t, v.tableAt (upperIndices virt) = some t ∧
      vmmUnmap v virt = v.setEntry (frameAddr t) (virtIndex virt 12) 0 := by
  -- an entry that is not present ends the walk, and nothing is written
  have hstop : ∀ {p i r t}, upperIndices virt = p ++ i :: r → v.tableAt p = some t →
      entryPresent (tables v.pmm.mem t i) = false →
      ∀ a, upperIndices a = upperIndices virt → v.walk a = .notPresent := by
    intro p i r t hsplit ht hpresent a ha
    rw [walk_eq, ha, hsplit]
    have hnone : nextTable (tables v.pmm.mem t i) = none := by
      rw [nextTable, hpresent]
      rfl
    exact (congrArg classify (probe_of_stop ht hnone)).trans (classify_of_not_present hpresent)
  have hnext : ∀ {p i r t}, upperIndices virt = p ++ i :: r → v.tableAt p = some t →
      entryPresent (tables v.pmm.mem t i) = true →
      v.tableAt (p ++ [i]) = some (entryFrame (tables v.pmm.mem t i)) := by
    intro p i r t hsplit ht hpresent
    refine (descend_snoc ht).trans ?_
    rw [nextTable, hpresent, hlarge p i r t hsplit ht hpresent]
    rfl
  rw [vmmUnmap_eq]
  split
  · next h₁ => exact .inl ⟨rfl, hstop (p := []) rfl v.tableAt_nil h₁⟩
  next h₁ =>
  have ht₁ := hnext (p := []) rfl v.tableAt_nil (Bool.not_eq_false _ ▸ h₁)
  split
  · next h₂ => exact .inl ⟨rfl, hstop rfl ht₁ h₂⟩
  next h₂ =>
  have ht₂ := hnext rfl ht₁ (Bool.not_eq_false _ ▸ h₂)
  split
  · next h₃ => exact .inl ⟨rfl, hstop rfl ht₂ h₃⟩
  next h₃ =>
  exact .inr ⟨_, hnext rfl ht₂ (Bool.not_eq_false _ ▸ h₃), rfl⟩

/-- **What `vmm_unmap` does.** -/
theorem vmmUnmap_spec (wf : v.WF) (hlarge : v.NoLargePage virt) :
    v.Keeps (vmmUnmap v virt) ∧
    (∀ a, upperIndices a = upperIndices virt → virtIndex a 12 = virtIndex virt 12 →
      (vmmUnmap v virt).walk a = .notPresent) ∧
    ∀ a, (upperIndices a ≠ upperIndices virt ∨ virtIndex a 12 ≠ virtIndex virt 12) →
      (vmmUnmap v virt).walk a = v.walk a := by
  rcases vmmUnmap_cases hlarge with ⟨hcall, hnone⟩ | ⟨t, ht, hcall⟩
  · rw [hcall]
    exact ⟨Keeps.refl wf, fun a ha _ => hnone a ha, fun _ _ => rfl⟩
  · rw [hcall]
    exact leafWrite wf rfl ht (virtIndex virt 12) 0

/-- `vmm_unmap` takes no frame. -/
theorem vmmUnmap_linked (wf : v.WF) (hlarge : v.NoLargePage virt) : v.Linked (vmmUnmap v virt) := by
  rcases vmmUnmap_cases hlarge with ⟨hcall, -⟩ | ⟨t, ht, hcall⟩
  · rw [hcall]
    exact Linked.refl v
  · rw [hcall]
    exact leafWrite_linked wf rfl ht _ _

end Vmm

end QuinKernel
