import QuinKernel.Vmm.Map
import QuinKernel.Machine.System

/-!
# `vmm_map` and `vmm_unmap` implement a partial map

`pagingSystem` performs the two operations in any order on canonical addresses
whose path meets no large page. `vmm_implements_page_map` says that what the
processor finds for a page is decided by the last operation that took effect
on it, and that nothing else moves.
-/

namespace QuinKernel

open Machine RadixTree

/-- The two operations on translations. -/
inductive PageOp
  | map (virt phys : Word) (flags : BitVec 32)
  | unmap (virt : Word)

namespace PageOp

/-- The address operated on. -/
def virt : PageOp → Word
  | map virt _ _ => virt
  | unmap virt => virt

/-- Perform the operation; `false` if it failed. -/
def perform (v : Vmm) : PageOp → Bool × Vmm
  | map virt phys flags => vmmMap v virt phys flags
  | unmap virt => (true, vmmUnmap v virt)

/-- What the page translates to once the operation took effect. -/
def result : PageOp → Walk
  | map _ phys flags => .leaf ((phys &&& pteAddrMask) ||| translateFlags flags)
  | unmap _ => .notPresent

end PageOp

/-- Operations on canonical addresses whose path meets no large page. The label
records the operation and whether it succeeded. -/
def pagingSystem (v₀ : Vmm) : System Vmm (PageOp × Bool) where
  init v := v = v₀
  step v e v' := Canonical e.1.virt ∧ v.NoLargePage e.1.virt ∧ e.1.perform v = (e.2, v')

/-- What the last effective operation on the page of `a` left there. -/
def lastEffect (a : Word) (es : List (PageOp × Bool)) (before : Walk) : Walk :=
  es.foldl (fun w e => if e.2 = true ∧ samePage a e.1.virt then e.1.result else w) before

section Pages

variable {v v' : Vmm} {virt a : Word}

/-- Canonical addresses of different pages differ in an index. -/
theorem indices_ne (ha : Canonical a) (hvirt : Canonical virt) (hne : ¬ samePage a virt) :
    upperIndices a ≠ upperIndices virt ∨ virtIndex a 12 ≠ virtIndex virt 12 := by
  by_contra hsame
  rw [not_or, not_not, not_not] at hsame
  exact hne ((sameIndices_iff_samePage ha hvirt).mp hsame)

theorem vmmMap_true (wf : v.WF) (hvirt : Canonical virt) (hlarge : v.NoLargePage virt)
    {phys : Word} {flags : BitVec 32} (hok : (vmmMap v virt phys flags).1 = true) :
    (vmmMap v virt phys flags).2.walk virt =
        .leaf ((phys &&& pteAddrMask) ||| translateFlags flags) ∧
    ∀ a, Canonical a → ¬ samePage a virt →
      (vmmMap v virt phys flags).2.walk a = v.walk a := by
  rcases (Vmm.vmmMap_spec wf hlarge phys flags).2 with ⟨hfail, _⟩ | ⟨_, hself, hother⟩
  · rw [hok] at hfail
    exact absurd hfail (by simp)
  · exact ⟨hself virt rfl rfl, fun a ha hne => hother a (indices_ne ha hvirt hne)⟩

theorem vmmMap_false (wf : v.WF) (hlarge : v.NoLargePage virt)
    {phys : Word} {flags : BitVec 32} (hfail : (vmmMap v virt phys flags).1 = false) (a : Word) :
    (vmmMap v virt phys flags).2.walk a = v.walk a := by
  rcases (Vmm.vmmMap_spec wf hlarge phys flags).2 with ⟨_, hwalk⟩ | ⟨hok, _⟩
  · exact hwalk a
  · rw [hfail] at hok
    exact absurd hok (by simp)

theorem vmmUnmap_walk (wf : v.WF) (hvirt : Canonical virt) (hlarge : v.NoLargePage virt) :
    (vmmUnmap v virt).walk virt = .notPresent ∧
    ∀ a, Canonical a → ¬ samePage a virt → (vmmUnmap v virt).walk a = v.walk a := by
  obtain ⟨_, hself, hother⟩ := Vmm.vmmUnmap_spec wf hlarge
  exact ⟨hself virt rfl rfl, fun a ha hne => hother a (indices_ne ha hvirt hne)⟩

/-- One operation keeps the tables well-formed. -/
theorem PageOp.perform_keeps (wf : v.WF) {op : PageOp} (hlarge : v.NoLargePage op.virt) :
    v.Keeps (op.perform v).2 := by
  cases op with
  | map virt phys flags => exact (Vmm.vmmMap_spec wf hlarge phys flags).1
  | unmap virt => exact (Vmm.vmmUnmap_spec wf hlarge).1

/-- **One operation, on every page at once.** What has the indices of the page
operated on translates to the operation's result, if it took effect. -/
theorem PageOp.perform_indices (wf : v.WF) {op : PageOp} (hlarge : v.NoLargePage op.virt)
    (a : Word) : (op.perform v).2.walk a =
      if (op.perform v).1 = true ∧ sameIndices a op.virt then op.result else v.walk a := by
  cases op with
  | map virt phys flags =>
      rcases (Vmm.vmmMap_spec wf hlarge phys flags).2 with ⟨hfail, hsame⟩ | ⟨hok, hself, hother⟩
      · rw [if_neg (fun h => absurd (hfail.symm.trans h.1) (by simp))]
        exact hsame a
      · by_cases hindices : sameIndices a virt
        · rw [if_pos ⟨hok, hindices⟩]
          exact hself a hindices.1 hindices.2
        · rw [if_neg (fun h => hindices h.2)]
          exact hother a (by rw [← not_and_or]; exact hindices)
  | unmap virt =>
      obtain ⟨-, hself, hother⟩ := Vmm.vmmUnmap_spec wf hlarge
      by_cases hindices : sameIndices a virt
      · rw [if_pos ⟨rfl, hindices⟩]
        exact hself a hindices.1 hindices.2
      · rw [if_neg (fun h => hindices h.2)]
        exact hother a (by rw [← not_and_or]; exact hindices)

theorem PageOp.perform_walk (wf : v.WF) {op : PageOp} (hvirt : Canonical op.virt)
    (hlarge : v.NoLargePage op.virt) (ha : Canonical a) :
    (op.perform v).2.walk a =
      if (op.perform v).1 = true ∧ samePage a op.virt then op.result else v.walk a := by
  rw [PageOp.perform_indices wf hlarge a]
  simp only [sameIndices_iff_samePage ha hvirt]

/-- A page translates as before unless the operation took effect on it. -/
theorem PageOp.perform_other (wf : v.WF) {op : PageOp} (hvirt : Canonical op.virt)
    (hlarge : v.NoLargePage op.virt) (ha : Canonical a)
    (h : (op.perform v).1 = true → ¬ samePage a op.virt) :
    (op.perform v).2.walk a = v.walk a := by
  rw [PageOp.perform_walk wf hvirt hlarge ha]
  exact if_neg (fun heffect => h heffect.1 heffect.2)

end Pages

/-- A run keeps the tables well-formed, and each page translates to what the
last effective operation on it left there. -/
theorem pagingSystem_run {v₀ v v' : Vmm} {es : List (PageOp × Bool)}
    (hrun : (pagingSystem v₀).Run v es v') (wf : v.WF) :
    v'.WF ∧ ∀ a, Canonical a → v'.walk a = lastEffect a es (v.walk a) := by
  induction hrun with
  | nil => exact ⟨wf, fun _ _ => rfl⟩
  | @cons v v₁ v' e es hstep _ ih =>
      obtain ⟨hvirt, hlarge, hperform⟩ := hstep
      have hkeeps := PageOp.perform_keeps wf hlarge
      have hwalk := fun a ha => PageOp.perform_walk (a := a) wf hvirt hlarge ha
      rw [hperform] at hkeeps hwalk
      obtain ⟨wf', hrest⟩ := ih hkeeps.wf
      refine ⟨wf', fun a ha => ?_⟩
      rw [hrest a ha, hwalk a ha]
      rfl

/-- **`vmm_map` and `vmm_unmap` implement a partial map** from pages to leaf
entries, over any well-formed tables and any sequence of the two operations. -/
theorem vmm_implements_page_map {v₀ : Vmm} (wf : v₀.WF) {es : List (PageOp × Bool)} {v : Vmm}
    (hrun : (pagingSystem v₀).Run v₀ es v) :
    v.WF ∧
    (∀ a, Canonical a → v.walk a = lastEffect a es (v₀.walk a)) ∧
    (∀ virt phys flags, Canonical virt → v.NoLargePage virt →
      (vmmMap v virt phys flags).2.WF ∧
      ((vmmMap v virt phys flags).1 = true →
        (vmmMap v virt phys flags).2.walk virt =
            .leaf ((phys &&& pteAddrMask) ||| translateFlags flags) ∧
        ∀ a, Canonical a → ¬ samePage a virt →
          (vmmMap v virt phys flags).2.walk a = v.walk a)) ∧
    (∀ virt, Canonical virt → v.NoLargePage virt →
      (vmmUnmap v virt).WF ∧
      (vmmUnmap v virt).walk virt = .notPresent ∧
      ∀ a, Canonical a → ¬ samePage a virt → (vmmUnmap v virt).walk a = v.walk a) := by
  obtain ⟨wf', hwalk⟩ := pagingSystem_run hrun wf
  refine ⟨wf', hwalk, fun virt phys flags hvirt hlarge => ⟨?_, ?_⟩, fun virt hvirt hlarge => ⟨?_, ?_⟩⟩
  · exact (Vmm.vmmMap_spec wf' hlarge phys flags).1.wf
  · exact vmmMap_true wf' hvirt hlarge
  · exact (Vmm.vmmUnmap_spec wf' hlarge).1.wf
  · exact vmmUnmap_walk wf' hvirt hlarge

/-! ## A concrete address space -/

/-- Seven free frames above a one-frame bitmap. -/
def sevenFrames : Pmm where
  mem x := if x = 0x1000 then 0x03 else if x = 0x1001 then 0xfe else 0
  bitmap := 0x1000
  frameCount := 9
  nextSearchIndex := 0
  freeFrames := 7

/-- An empty top table above the managed frames, and nothing registered. -/
def emptyTables : Vmm where
  pmm := sevenFrames
  cr3 := 0x100000
  dynamicNextVaddr := vmmDynamicVbase
  mmioNextVaddr := vmmMmioVbase
  lazyRegions := noLazyRegions

theorem sevenFrames_ok : sevenFrames.Ok :=
  ⟨by decide, by decide, by decide, by decide⟩

/-- A list of paths and frames that holds the top table and is closed under
links holds every table. -/
theorem tableAt_mem {v : Vmm} {l : List (List (Fin 512) × Nat)} (hroot : ([], v.root) ∈ l)
    (hnext : ∀ p t, (p, t) ∈ l → ∀ i u, nextTable (tables v.pmm.mem t i) = some u →
      (p ++ [i], u) ∈ l) {p : List (Fin 512)} {t : Nat} (h : v.tableAt p = some t) :
    (p, t) ∈ l := by
  induction p using List.reverseRecOn generalizing t with
  | nil =>
      rw [← Option.some.inj h]
      exact hroot
  | append_singleton p i ih =>
      unfold Vmm.tableAt at h ih
      rw [descend_append] at h
      obtain ⟨u, hu, h⟩ := Option.bind_eq_some_iff.mp h
      refine hnext p u (ih hu) i t ?_
      obtain ⟨w, hw, hwt⟩ := Option.bind_eq_some_iff.mp h
      rw [hw, Option.some.inj hwt]

/-- Tables so listed, in frames of their own above the managed ones, are
well-formed. -/
theorem wf_of_tables {v : Vmm} {l : List (List (Fin 512) × Nat)} (hok : v.pmm.Ok)
    (hphysical : v.pmm.frameCount.toNat ≤ 2 ^ 40) (hroot : ([], v.root) ∈ l)
    (hnext : ∀ p t, (p, t) ∈ l → ∀ i u, nextTable (tables v.pmm.mem t i) = some u →
      (p ++ [i], u) ∈ l) (hframes : (l.map Prod.snd).Nodup)
    (habove : ∀ x ∈ l, v.pmm.frameCount.toNat ≤ x.2) (hoff : ∀ x ∈ l, ¬ v.pmm.HoldsBitmap x.2) :
    v.WF := by
  refine ⟨hok, hphysical, fun p q t _ _ hp hq => ?_, ?_, ?_⟩
  · have hsame := List.inj_on_of_nodup_map hframes (tableAt_mem hroot hnext hp)
      (tableAt_mem hroot hnext hq) rfl
    exact congrArg Prod.fst hsame
  · rintro t ⟨p, _, hp⟩ hfree
    have hlt := Pmm.freeSet_lt hfree
    have hle := habove (p, t) (tableAt_mem hroot hnext hp)
    omega
  · rintro t ⟨p, _, hp⟩
    exact hoff (p, t) (tableAt_mem hroot hnext hp)

/-- An empty top table links to none. -/
theorem emptyRoot_next {v : Vmm} (hroot : ∀ i, tables v.pmm.mem v.root i = 0) (p : List (Fin 512))
    (t : Nat) (hpt : (p, t) ∈ [([], v.root)]) (i : Fin 512) :
    nextTable (tables v.pmm.mem t i) = none := by
  obtain ⟨rfl, rfl⟩ : p = [] ∧ t = v.root := by simpa using hpt
  rw [hroot]
  rfl

/-- An empty top table above the managed frames is a well-formed tree, in which
nothing is mapped. -/
theorem emptyRoot_wf {v : Vmm} (hok : v.pmm.Ok) (hphysical : v.pmm.frameCount.toNat ≤ 2 ^ 40)
    (hroot : ∀ i, tables v.pmm.mem v.root i = 0) (habove : v.pmm.frameCount.toNat ≤ v.root)
    (hoff : ¬ v.pmm.HoldsBitmap v.root) : v.WF ∧ ∀ virt, v.walk virt = .notPresent := by
  refine ⟨wf_of_tables (l := [([], v.root)]) hok hphysical (by simp) ?_ (by simp)
    (by simpa using habove) (by simpa using hoff), fun virt => ?_⟩
  · intro p t hpt i u hu
    rw [emptyRoot_next hroot p t hpt i] at hu
    exact absurd hu (by simp)
  · rw [Vmm.walk_eq]
    refine (congrArg classify (probe_of_stop (p := []) v.tableAt_nil ?_)).trans
      (classify_of_not_present ?_)
    · rw [hroot]
      rfl
    · rw [hroot]
      rfl

theorem emptyTables_root (i : Fin 512) : tables emptyTables.pmm.mem emptyTables.root i = 0 := by
  refine tables_zero (fun x hlo hhi => ?_) i
  have hroot : emptyTables.root = 0x100 := by decide
  rw [hroot] at hlo
  show (if x = 0x1000 then 0x03 else if x = 0x1001 then 0xfe else 0 : Byte) = 0
  rw [if_neg (by omega), if_neg (by omega)]

theorem emptyTables_spec : emptyTables.WF ∧ ∀ virt, emptyTables.walk virt = .notPresent :=
  emptyRoot_wf sevenFrames_ok (by decide) emptyTables_root (by decide)
    (by unfold Pmm.HoldsBitmap; decide)

theorem emptyTables_wf : emptyTables.WF := emptyTables_spec.1

theorem emptyTables_walk (virt : Word) : emptyTables.walk virt = .notPresent :=
  emptyTables_spec.2 virt

/-- Mapping one page of the empty address space, from the state after the run
that does so. -/
theorem vmm_implements_page_map_emptyTables :
    ∃ (ok : Bool) (v : Vmm), v.WF ∧ ∀ a, Canonical a → v.walk a =
      lastEffect a [(.map 0x400000 0xabc000 vmmWritable, ok)] (emptyTables.walk a) := by
  have hlarge : emptyTables.NoLargePage 0x400000 :=
    Vmm.noLargePage_iff.mpr (.inl (emptyTables_walk _))
  have hstep : ∀ op : PageOp, op.virt = 0x400000 →
      (pagingSystem emptyTables).step emptyTables (op, (op.perform emptyTables).1)
        (op.perform emptyTables).2 := by
    intro op hop
    refine ⟨?_, ?_, Prod.mk.eta.symm⟩
    · rw [hop]
      exact .inl (by decide)
    · rw [hop]
      exact hlarge
  have h := vmm_implements_page_map emptyTables_wf
    (.single (hstep (.map 0x400000 0xabc000 vmmWritable) rfl))
  exact ⟨_, _, h.1, h.2.1⟩

end QuinKernel
