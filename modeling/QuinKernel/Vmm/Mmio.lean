import QuinKernel.Vmm.Windows

/-!
# What `vmm_map_mmio` returns

`vmm_map_mmio` maps the page of the address it is given and returns the start of
the virtual page, without the offset of the address in its page. So the pointer
translates to the address exactly if the address is a multiple of the page size
(`vmm_map_mmio_exact_iff`); `lapic_init` masks its address to one, `ioapic_init`
takes it from the MADT as it is.

The page stays mapped over later calls. The pointer they count up names another
page each time until it has gone through all `2 ^ 36` pages the tables tell apart
(`mmio_run`).
-/

namespace QuinKernel

open Machine RadixTree

/-- The translation by the current tables. -/
def Vmm.translate (v : Vmm) (virt : Word) : Option Nat := hwTranslate v.pmm.mem v.cr3 virt

/-- A state in which `vmm_map_mmio` can hand out its next page: the page is one the
processor translates, no large page is in the way, and frames suffice. -/
structure MmioReady (v : Vmm) : Prop where
  wf : v.WF
  aligned : v.mmioNextVaddr.toNat % 4096 = 0
  canonical : Canonical v.mmioNextVaddr
  small : v.NoLargePage v.mmioNextVaddr
  frames : v.missingTables v.mmioNextVaddr ≤ v.pmm.freeSet.card

/-- Calls of `vmm_map_mmio`, by address and result. -/
def mmioSystem (v₀ : Vmm) : System Vmm (Word × Word) where
  init v := v = v₀
  step v e v' := vmmMapMmio v e.1 = .ok (e.2, v')

/-- No large page is on the path of the page the call maps. -/
def SmallNext (v : Vmm) (_ : Word × Word) : Prop := v.NoLargePage v.mmioNextVaddr

/-- `virt` translates to `phys`, and so do the addresses behind it up to the end of
the page of `phys`, after any later calls: fewer than the tables have pages for, and
none through a large page. -/
def MmioExact (v : Vmm) (virt phys : Word) : Prop :=
  ∀ es w, ((mmioSystem v).restrict SmallNext).Run v es w → es.length < 2 ^ 36 →
    ∀ k, phys.toNat % 4096 + k < 4096 →
      w.translate (virt + BitVec.ofNat 64 k) = some (phys.toNat + k)

theorem Vmm.translate_of_leaf {v : Vmm} {virt e : Word} (hcanonical : Canonical virt)
    (h : v.walk virt = .leaf e) :
    v.translate virt = some (entryFrame e * 4096 + virt.toNat % 4096) := by
  have hwalk : hwWalk v.pmm.mem v.cr3 virt = .leaf e := h
  rw [Vmm.translate, hwTranslate, if_pos hcanonical, hwalk]
  rfl

/-- The leaf names the page of the address. -/
theorem entryFrame_mmioLeaf (phys : Word) : entryFrame (mmioLeaf phys) = entryFrame phys := by
  rw [mmioLeaf, Vmm.leafEntry, and_pteAddrMask, entryFrame_leaf (entryFrame_lt phys)]

section Calls

variable {v v' w : Vmm} {phys virt : Word}

/-- With enough frames the call returns the page its pointer is at. -/
theorem MmioReady.call (h : MmioReady v) (phys : Word) :
    ∃ v', vmmMapMmio v phys = .ok (v.mmioNextVaddr, v') := by
  unfold vmmMapMmio
  dsimp only
  set v₁ : Vmm := { v with mmioNextVaddr := v.mmioNextVaddr + pageSize } with hv₁
  have wf₁ : v₁.WF := h.wf.congr rfl rfl
  have hwalk : ∀ a, v₁.walk a = v.walk a := Vmm.walk_congr rfl rfl
  have hmissing : ∀ a, v₁.missingTables a = v.missingTables a := Vmm.missingTables_congr rfl rfl
  have henough := (Vmm.vmmMap_linked wf₁ (h.small.congr (hwalk _)) phys
    (vmmWritable ||| vmmNoCache ||| vmmNoExecute)).2
  rcases hmap : vmmMap v₁ v.mmioNextVaddr phys (vmmWritable ||| vmmNoCache ||| vmmNoExecute) with
    ⟨ok, w⟩
  rw [hmap, hmissing] at henough
  obtain rfl : ok = true := henough.mpr h.frames
  exact ⟨w, rfl⟩

/-- One page on: the number of the pointer's page, as the tables see it. -/
theorem add_pageSize_page (a : Word) :
    (a + pageSize).toNat / 4096 % 2 ^ 36 = (a.toNat / 4096 + 1) % 2 ^ 36 := by
  rw [BitVec.toNat_add, show pageSize.toNat = 4096 from rfl]
  omega

/-- **Later calls map other pages.** While the pointer, `n` pages past `virt`, has
not come round to it, the page of `virt` stays as it is. -/
theorem mmio_run {v₀ : Vmm} {es : List (Word × Word)}
    (hrun : ((mmioSystem v₀).restrict SmallNext).Run v es w) (wf : v.WF) {n : Nat}
    (hnext : v.mmioNextVaddr.toNat / 4096 % 2 ^ 36 = (virt.toNat / 4096 + n) % 2 ^ 36)
    (hn : 0 < n) (hlen : n + es.length ≤ 2 ^ 36) : w.walk virt = v.walk virt := by
  induction hrun generalizing n with
  | nil => rfl
  | @cons v v₁ w e es hstep _ ih =>
      obtain ⟨hsmall, hcall⟩ := hstep
      have hsmall : v.NoLargePage v.mmioNextVaddr := hsmall
      obtain ⟨-, hkeeps, -, hother⟩ := vmmMapMmio_page wf hsmall hcall
      have hnext₁ : v₁.mmioNextVaddr = v.mmioNextVaddr + pageSize := by
        rw [hkeeps.statics]
        rfl
      rw [List.length_cons] at hlen
      have hpage : v₁.mmioNextVaddr.toNat / 4096 % 2 ^ 36 = (virt.toNat / 4096 + (n + 1)) % 2 ^ 36 := by
        rw [hnext₁, add_pageSize_page]
        omega
      rw [ih hkeeps.wf hpage (by omega) (by omega)]
      refine hother virt (fun hsame => ?_)
      rw [sameIndices_iff] at hsame
      omega

/-- What the pointer translates to, offset by offset: the page of `phys` from its
start, after any later calls. -/
theorem MmioReady.translate (h : MmioReady v) (hcall : vmmMapMmio v phys = .ok (virt, v'))
    {es : List (Word × Word)} (hrun : ((mmioSystem v').restrict SmallNext).Run v' es w)
    (hlen : es.length < 2 ^ 36) {k : Nat} (hk : k < 4096) :
    w.translate (virt + BitVec.ofNat 64 k) = some (entryFrame phys * 4096 + k) := by
  obtain ⟨rfl, hkeeps, hleaf, -⟩ := vmmMapMmio_page h.wf h.small hcall
  have hnext : v'.mmioNextVaddr = v.mmioNextVaddr + pageSize := by
    rw [hkeeps.statics]
    rfl
  have hpage : v'.mmioNextVaddr.toNat / 4096 % 2 ^ 36 =
      (v.mmioNextVaddr.toNat / 4096 + 1) % 2 ^ 36 := by
    rw [hnext, add_pageSize_page]
  have hstays := mmio_run hrun hkeeps.wf hpage (by decide) (by omega)
  -- the offset stays inside the page
  have haligned := h.aligned
  have hcanonical := h.canonical
  have hlt := v.mmioNextVaddr.isLt
  unfold Canonical at hcanonical
  have haddr : (v.mmioNextVaddr + BitVec.ofNat 64 k).toNat = v.mmioNextVaddr.toNat + k := by
    rw [BitVec.toNat_add, toNat_ofNat_of_lt (by omega), Nat.mod_eq_of_lt (by omega)]
  have hsame : samePage (v.mmioNextVaddr + BitVec.ofNat 64 k) v.mmioNextVaddr := by
    unfold samePage
    rw [haddr]
    omega
  have hwalk : w.walk (v.mmioNextVaddr + BitVec.ofNat 64 k) = .leaf (mmioLeaf phys) :=
    (hwWalk_samePage _ _ hsame).trans (hstays.trans hleaf)
  rw [Vmm.translate_of_leaf (by unfold Canonical; rw [haddr]; omega) hwalk, entryFrame_mmioLeaf,
    haddr]
  exact congrArg some (by omega)

/-- In a run whose calls fit their windows the next call is ready, while there are
frames for it. -/
theorem WindowInv.mmioReady {s : GuardedState} (h : WindowInv s) (hroom : s.mmioCalls < mmioPages)
    (hframes : s.vmm.missingTables s.vmm.mmioNextVaddr ≤ s.vmm.pmm.freeSet.card) :
    MmioReady s.vmm := by
  have hpage := windowPage_toNat (j := dynamicPages + s.mmioCalls) (by omega)
  have hbase : vmmDynamicVbase.toNat % 4096 = 0 := by decide
  refine ⟨h.wf, ?_, ?_, ?_, hframes⟩
  · rw [h.mmioNext, hpage]
    omega
  · rw [h.mmioNext]
    exact windowPage_canonical (by omega)
  · rw [h.mmioNext]
    exact h.small _ hroom

end Calls

/-- **`vmm_map_mmio` is exact for whole pages.** In every state in which the next
page can be handed out, and for every 52-bit physical address, the call returns a
pointer, and the pointer translates to the address, with what follows it in its
page and after any later calls, if and only if the address is a multiple of 4096. -/
theorem vmm_map_mmio_exact_iff {v : Vmm} (h : MmioReady v) {phys : Word}
    (hphys : phys.toNat < 2 ^ 52) :
    ∃ virt v', vmmMapMmio v phys = .ok (virt, v') ∧
      (MmioExact v' virt phys ↔ phys.toNat % 4096 = 0) := by
  obtain ⟨v', hcall⟩ := h.call phys
  have hframe : entryFrame phys * 4096 = phys.toNat / 4096 * 4096 := by
    unfold entryFrame
    omega
  refine ⟨_, v', hcall, ?_, ?_⟩
  · intro hexact
    have hstart := hexact [] v' (.nil v') (by decide) 0 (by omega)
    rw [h.translate hcall (.nil v') (by decide) (by decide), hframe] at hstart
    have hstart := Option.some.inj hstart
    omega
  · intro haligned
    have hwhole := Nat.div_mul_cancel (Nat.dvd_of_mod_eq_zero haligned)
    intro es w hrun hlen k hk
    rw [h.translate hcall hrun hlen (by omega), hframe, hwhole]

theorem mmioTables_ready : MmioReady mmioTables := by
  have hinv : WindowInv ⟨mmioTables, [], 0, 0⟩ :=
    mmioTables_windowsReady.windowInv ⟨rfl, rfl, rfl, rfl⟩
  have hmissing : mmioTables.missingTables mmioTables.mmioNextVaddr = 0 := by decide
  exact hinv.mmioReady (by decide) (hmissing ▸ Nat.zero_le _)

/-- The default IOAPIC address, and its window register 16 bytes on. -/
theorem vmm_map_mmio_exact_ioapic : ∃ virt v',
    vmmMapMmio mmioTables 0xfec00000 = .ok (virt, v') ∧
      v'.translate (virt + BitVec.ofNat 64 16) = some 0xfec00010 := by
  obtain ⟨virt, v', hcall, hexact⟩ := vmm_map_mmio_exact_iff mmioTables_ready
    (show (0xfec00000 : Word).toNat < 2 ^ 52 by decide)
  exact ⟨virt, v', hcall, hexact.mpr (by decide) [] v' (.nil v') (by decide) 16 (by decide)⟩

/-- **An IOAPIC inside a page.** The pointer returned for `0xfec00400` translates to
the start of the page. -/
theorem vmm_map_mmio_drops_offset : ∃ virt v',
    vmmMapMmio mmioTables 0xfec00400 = .ok (virt, v') ∧
      v'.translate virt = some 0xfec00000 ∧ ¬MmioExact v' virt 0xfec00400 := by
  obtain ⟨v', hcall⟩ := mmioTables_ready.call 0xfec00400
  have hstart := mmioTables_ready.translate hcall (.nil v') (by decide) (k := 0) (by decide)
  rw [show entryFrame 0xfec00400 * 4096 + 0 = 0xfec00000 by decide] at hstart
  refine ⟨_, v', hcall, by rwa [BitVec.add_zero] at hstart, fun hexact => ?_⟩
  have hclaimed := hexact [] v' (.nil v') (by decide) 0 (by decide)
  rw [hstart] at hclaimed
  exact absurd (Option.some.inj hclaimed) (by decide)

end QuinKernel
