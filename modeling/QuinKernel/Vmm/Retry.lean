import QuinKernel.Vmm.Accounting

/-!
# When `vmm_map` fails, and after

Every table that `vmm_map` links takes one free frame and is one table less that
the path lacks (`Spent`). So a call that fails has used up the free frames: the
path then lacks as many tables fewer as there were frames. No translation has
changed, whatever was linked, and while the rest of the kernel frees frames the
path stays as it is. The same page can be mapped once the tables still missing
have frames, and takes no more than these.
-/

namespace QuinKernel

open Machine RadixTree

namespace Vmm

variable {v v' v'' w : Vmm} {t : Nat} {virt a : Word} {p r : List (Fin 512)} {i : Fin 512}

/-- **What a call costs.** Free frames and missing tables go down together; a
failed call leaves no free frame, and a successful one no missing table. -/
theorem vmmMap_spent (wf : v.WF) (hlarge : v.NoLargePage virt) (phys : Word) (flags : BitVec 32) :
    Spent virt v (vmmMap v virt phys flags).2 ∧
    ((vmmMap v virt phys flags).1 = false → (vmmMap v virt phys flags).2.pmm.freeSet = ∅) ∧
    ((vmmMap v virt phys flags).1 = true →
      (vmmMap v virt phys flags).2.missingTables virt = 0) := by
  obtain ⟨v₁, hmakes, hspent, ⟨hcall, hempty, -⟩ | ⟨t, ht, hcall⟩⟩ :=
    vmmMap_makes wf hlarge phys flags
  · rw [hcall]
    exact ⟨hspent, fun _ => hempty, fun h => absurd h (by simp)⟩
  · -- the leaf is written in a table that the path now has
    have wf₁ := (hmakes.keeps wf).wf
    have htab : v₁.Table t := ⟨upperIndices virt, Nat.le_refl 3, ht⟩
    have hfree := (setEntry_pmm htab.lt (wf₁.offBitmap t htab) wf₁.pmm (virtIndex virt 12)
      (leafEntry phys flags)).2
    have hwrite := (leafWrite wf₁ rfl ht (virtIndex virt 12) (leafEntry phys flags)).2.1
      virt rfl rfl
    have hleaf : classify (leafEntry phys flags, 0) = .leaf (leafEntry phys flags) := by
      simp [classify, leafEntry, entryPresent_leaf]
    have hzero := missingTables_of_leaf (hwrite.trans hleaf)
    rw [hcall]
    refine ⟨hspent.trans ?_, fun h => absurd h (by simp), fun _ => hzero⟩
    unfold Spent
    dsimp only
    rw [missingTables_of_table ht]
    exact congrArg₂ (· + ·) hzero (congrArg Finset.card hfree.symm)

end Vmm

/-! ## Until the retry -/

/-- Calls of the rest of the kernel, not of `vmm.c`. -/
def VmmCall.Elsewhere : VmmCall → Prop
  | .allocFrame => True
  | .freeFrame _ => True
  | .store _ _ => True
  | _ => False

/-- The tables are as they were. -/
structure Vmm.Undisturbed (v v' : Vmm) : Prop where
  wf : v'.WF
  cr3 : v'.cr3 = v.cr3
  tables : RadixTree.Keeps nextTable 3 v.root (tables v.pmm.mem) (tables v'.pmm.mem)

section Retry

variable {v v' w : Vmm} {virt : Word}

theorem Vmm.Undisturbed.root (h : v.Undisturbed v') : v'.root = v.root :=
  congrArg entryFrame h.cr3

theorem Vmm.Undisturbed.walk (h : v.Undisturbed v') (a : Word) : v'.walk a = v.walk a := by
  rw [Vmm.walk_eq, Vmm.walk_eq, h.root]
  exact congrArg classify (h.tables.probe (Nat.le_refl 3))

theorem Vmm.Undisturbed.missingTables (h : v.Undisturbed v') (virt : Word) :
    v'.missingTables virt = v.missingTables virt := by
  unfold Vmm.missingTables
  rw [h.root]
  exact congrArg Prod.snd (h.tables.probe (Nat.le_refl 3))

theorem Vmm.Undisturbed.trans (h : v.Undisturbed v') (h' : v'.Undisturbed w) :
    v.Undisturbed w := by
  refine ⟨h'.wf, h'.cr3.trans h.cr3, fun t ht i => ?_⟩
  have hkeep := h'.tables t (by rw [h.root]; exact h.tables.isTable.mpr ht) i
  exact hkeep.trans (h.tables t ht i)

/-- One such call leaves every table alone. -/
theorem vmmSystem_elsewhere {v₀ : Vmm} {c : VmmCall} (wf : v.WF) (hc : c.Elsewhere)
    (hstep : (vmmSystem v₀).step v c v') : v.Undisturbed v' := by
  cases c with
  | allocFrame =>
      rw [show v' = _ from hstep]
      rcases Vmm.alloc_cases wf with ⟨-, hnone⟩ | ⟨f, q, halloc, -, hok⟩
      · rw [hnone]
        exact ⟨wf, rfl, fun _ _ _ => rfl⟩
      · rw [halloc]
        exact ⟨(Vmm.alloc_keeps wf hok).wf, rfl, Vmm.alloc_keepsTables wf hok⟩
  | freeFrame f =>
      obtain ⟨⟨hdata, hlt, hf0⟩, q, hq, rfl⟩ := hstep
      obtain ⟨q', hq', hwf, -, -, -, -, hmem, -⟩ := Vmm.free_spec wf hdata hlt hf0
      obtain rfl := Except.ok.inj (hq.symm.trans hq')
      refine ⟨hwf, rfl, fun t ht => tables_congr (fun x hlo hhi => hmem x ?_)⟩
      rw [show x / 4096 = t by omega]
      exact wf.offBitmap t ht
  | store x b =>
      obtain ⟨hdata, rfl⟩ := hstep
      have hother : ∀ y, ¬v.Data (y / 4096) → store8 v.pmm.mem x b y = v.pmm.mem y :=
        fun y hy => store8_other _ _ (fun heq => hy (heq ▸ hdata))
      refine ⟨(Vmm.withMem_spec wf hother).1, rfl, fun t ht => tables_congr (fun y hlo hhi => ?_)⟩
      refine hother y (fun hd => hd.1 ?_)
      rw [show y / 4096 = t by omega]
      exact ht
  | map virt phys flags => exact absurd hc not_false
  | unmap virt => exact absurd hc not_false
  | register start end_ flags => exact absurd hc not_false
  | fault faultAddr errorCode => exact absurd hc not_false
  | guarded count flags => exact absurd hc not_false
  | mmio phys => exact absurd hc not_false

theorem vmmSystem_run_elsewhere {v₀ : Vmm} {cs : List VmmCall} (wf : v.WF)
    (hrun : (vmmSystem v₀).Run v cs w) (hcs : ∀ c ∈ cs, c.Elsewhere) : v.Undisturbed w := by
  induction hrun with
  | nil v => exact ⟨wf, rfl, fun _ _ _ => rfl⟩
  | cons hstep _ ih =>
      have hfirst := vmmSystem_elsewhere wf (hcs _ List.mem_cons_self) hstep
      exact hfirst.trans (ih hfirst.wf (fun c hc => hcs c (List.mem_cons_of_mem _ hc)))

/-- What a failed `vmm_map` of `virt` leaves: the same translations on a
well-formed tree, and a path that lacks one table less for each frame there was. -/
structure MapFailed (v : Vmm) (virt : Word) (v' : Vmm) : Prop where
  wf : v'.WF
  walk : ∀ a, v'.walk a = v.walk a
  missing : v'.missingTables virt + v.pmm.freeSet.card = v.missingTables virt

/-- What `vmm_map` does with a path that lacks `m` tables: it succeeds exactly if
there are `m` free frames, and then takes these, maps the page, and no other. -/
structure MapNeeds (w : Vmm) (virt phys : Word) (flags : BitVec 32) (m : Nat) : Prop where
  succeeds : (vmmMap w virt phys flags).1 = true ↔ m ≤ w.pmm.freeSet.card
  takes : (vmmMap w virt phys flags).1 = true →
    (vmmMap w virt phys flags).2.pmm.freeSet.card + m = w.pmm.freeSet.card
  maps : (vmmMap w virt phys flags).1 = true →
    (vmmMap w virt phys flags).2.walk virt = .leaf (Vmm.leafEntry phys flags) ∧
    ∀ a, ¬sameIndices a virt → (vmmMap w virt phys flags).2.walk a = w.walk a

theorem vmmMap_needs (wf : v.WF) (hlarge : v.NoLargePage virt) (phys : Word) (flags : BitVec 32) :
    MapNeeds v virt phys flags (v.missingTables virt) := by
  obtain ⟨hspent, -, hzero⟩ := Vmm.vmmMap_spent wf hlarge phys flags
  unfold Vmm.Spent at hspent
  refine ⟨(Vmm.vmmMap_linked wf hlarge phys flags).2, fun hok => ?_, fun hok => ?_⟩
  · rw [hzero hok] at hspent
    omega
  · rcases (Vmm.vmmMap_spec wf hlarge phys flags).2 with ⟨hfail, -⟩ | ⟨-, hself, hother⟩
    · rw [hok] at hfail
      exact absurd hfail (by simp)
    · exact ⟨hself virt rfl rfl, fun a ha => hother a (not_and_or.mp ha)⟩

theorem vmmMap_failed (wf : v.WF) (hlarge : v.NoLargePage virt) {phys : Word} {flags : BitVec 32}
    (hfail : (vmmMap v virt phys flags).1 = false) :
    MapFailed v virt (vmmMap v virt phys flags).2 := by
  obtain ⟨hspent, hempty, -⟩ := Vmm.vmmMap_spent wf hlarge phys flags
  unfold Vmm.Spent at hspent
  rw [hempty hfail, Finset.card_empty] at hspent
  exact ⟨(Vmm.vmmMap_spec wf hlarge phys flags).1.wf, vmmMap_false wf hlarge hfail, hspent⟩

/-- **`vmm_map` fails cleanly and can be retried.** On any well-formed tree it
returns false exactly when the free frames are fewer than the tables the path
lacks. Then no translation has changed, the tree is well-formed, and once the rest
of the kernel has freed enough frames, the same page is mapped with the tables
still missing, whose number is `m` less the frames there were. -/
theorem vmm_map_fails_and_retries (wf : v.WF) (hlarge : v.NoLargePage virt) (phys : Word)
    (flags : BitVec 32) :
    ((vmmMap v virt phys flags).1 = false ↔ v.pmm.freeSet.card < v.missingTables virt) ∧
    ((vmmMap v virt phys flags).1 = false →
      MapFailed v virt (vmmMap v virt phys flags).2 ∧
      ∀ cs w, (vmmSystem v).Run (vmmMap v virt phys flags).2 cs w → (∀ c ∈ cs, c.Elsewhere) →
        ∀ phys' flags', MapNeeds w virt phys' flags'
          (v.missingTables virt - v.pmm.freeSet.card)) := by
  have henough := (Vmm.vmmMap_linked wf hlarge phys flags).2
  constructor
  · rw [← Bool.not_eq_true, henough, Nat.not_le]
  · intro hfail
    have hfailed := vmmMap_failed wf hlarge hfail
    refine ⟨hfailed, fun cs w hrun hcs phys' flags' => ?_⟩
    have hrest := vmmSystem_run_elsewhere hfailed.wf hrun hcs
    have hsmall : w.NoLargePage virt := hlarge.congr ((hrest.walk virt).trans (hfailed.walk virt))
    have hmissing : w.missingTables virt = v.missingTables virt - v.pmm.freeSet.card := by
      rw [hrest.missingTables, ← hfailed.missing, Nat.add_sub_cancel]
    rw [← hmissing]
    exact vmmMap_needs hrest.wf hsmall phys' flags'

end Retry

/-- Two free frames above a one-frame bitmap. -/
def twoFrames : Pmm where
  mem x := if x = 0x1000 then 0x3f else 0
  bitmap := 0x1000
  frameCount := 8
  nextSearchIndex := 0
  freeFrames := 2

/-- An empty address space with two frames left. -/
def shortTables : Vmm := { emptyTables with pmm := twoFrames }

theorem shortTables_root (i : Fin 512) : tables shortTables.pmm.mem shortTables.root i = 0 := by
  refine tables_zero (fun x hlo hhi => ?_) i
  have hroot : shortTables.root = 0x100 := by decide
  rw [hroot] at hlo
  show (if x = 0x1000 then 0x3f else 0 : Byte) = 0
  rw [if_neg (by omega)]

theorem shortTables_spec : shortTables.WF ∧ ∀ virt, shortTables.walk virt = .notPresent :=
  emptyRoot_wf ⟨by decide, by decide, by decide, by decide⟩ (by decide) shortTables_root
    (by decide) (by unfold Pmm.HoldsBitmap; decide)

theorem shortTables_data : shortTables.Data 5 := by
  refine ⟨?_, by decide, by unfold Pmm.HoldsBitmap; decide⟩
  rintro ⟨p, -, hp⟩
  have hmem := tableAt_mem (l := [([], shortTables.root)]) (by simp)
    (fun q t hqt i u hu => by
      rw [emptyRoot_next shortTables_root q t hqt i] at hu
      exact absurd hu (by simp)) hp
  have hfive : (5 : Nat) = shortTables.root := congrArg Prod.snd (List.mem_singleton.mp hmem)
  exact absurd hfive (by decide)

/-- Three tables are missing and two frames are left. Once a third frame is freed,
the page is mapped. -/
theorem vmm_map_fails_and_retries_shortTables :
    ∃ w, (vmmSystem shortTables).Run (vmmMap shortTables 0x400000 0xabc000 vmmWritable).2
        [.freeFrame 5] w ∧
      (vmmMap w 0x400000 0xabc000 vmmWritable).1 = true := by
  obtain ⟨wf, hunmapped⟩ := shortTables_spec
  have hlarge : shortTables.NoLargePage 0x400000 := Vmm.noLargePage_iff.mpr (.inl (hunmapped _))
  have hcard : shortTables.pmm.freeSet.card = 2 := by decide
  have hmissing : shortTables.missingTables 0x400000 = 3 := by decide
  obtain ⟨hfails, hretry⟩ := vmm_map_fails_and_retries wf hlarge 0xabc000 vmmWritable
  rw [hcard, hmissing] at hfails hretry
  have hkeeps := (Vmm.vmmMap_spec wf hlarge 0xabc000 vmmWritable).1
  have hdata := hkeeps.dataStays shortTables_data
  have hlt : 5 < (vmmMap shortTables 0x400000 0xabc000 vmmWritable).2.pmm.frameCount.toNat := by
    rw [hkeeps.frameCount]
    decide
  obtain ⟨q, hq, -, -, -, hfree, -⟩ := Vmm.free_spec hkeeps.wf hdata hlt (by decide)
  have hrun : (vmmSystem shortTables).Run (vmmMap shortTables 0x400000 0xabc000 vmmWritable).2
      [.freeFrame 5] (Vmm.withPmm _ q) := .single ⟨⟨hdata, hlt, by decide⟩, q, hq, rfl⟩
  have hneeds := (hretry (hfails.mpr (by decide))).2 _ _ hrun (by simp [VmmCall.Elsewhere]) 0xabc000
    vmmWritable
  refine ⟨_, hrun, hneeds.succeeds.mpr (Finset.card_pos.mpr ⟨5, ?_⟩)⟩
  show 5 ∈ q.freeSet
  rw [hfree]
  exact Finset.mem_insert_self _ _

end QuinKernel
