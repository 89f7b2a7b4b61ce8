import QuinKernel.Machine.FlatMemory
import QuinKernel.Vmm.Mmio
import QuinKernel.Vmm.Retry
import QuinKernel.Vmm.Rights

/-!
# A lazily backed region is flat memory

`demandSystem` is what a program in a lazy region lives in: its own loads and
stores, which go where the tables say; page faults; and every other call of
`vmm.c` and of the frame allocator, made elsewhere. `DemandView` reads a flat
memory off a state: a byte that no fault has backed yet is zero, every other is
the byte of a frame. Loads and stores of the one are loads and stores of the
other, and nothing else changes the view (`demandSimulation`). So a program
cannot tell a lazily backed region from memory that was always there.
-/

namespace QuinKernel

open Machine

/-! ## The system -/

/-- `a` lies in a registered region. -/
def InRegion (v : Vmm) (a : Word) : Prop :=
  Canonical a ∧ ∃ region ∈ v.lazyRegions, region.covers (alignDown a pageSize) = true

/-- A page of a region is in frame `f`. -/
def BacksRegion (v : Vmm) (f : Nat) : Prop :=
  ∃ a e, InRegion v a ∧ v.walk a = .leaf e ∧ entryFrame e = f

/-- The call is made for other pages and frames than the regions'. A region is
registered before a page of it is mapped. The addresses of the calls are canonical,
and no large page covers them; the pages of a guarded call are not mapped yet. -/
def ClearOfRegions (v : Vmm) : VmmCall → Prop
  | .map virt _ _ => Canonical virt ∧ v.NoLargePage virt ∧ OutsideRegions v virt
  | .unmap virt => Canonical virt ∧ v.NoLargePage virt ∧ OutsideRegions v virt
  | .register start end_ flags => ∀ a, Canonical a →
      LazyRegion.covers ⟨start, end_, flags, true⟩ (alignDown a pageSize) = true →
      v.walk a = .notPresent
  | .fault _ _ => True
  | .guarded count _ =>
      2 ^ 64 - 2 ^ 47 ≤ (v.dynamicNextVaddr + pageSize).toNat ∧
      (v.dynamicNextVaddr + pageSize).toNat + 4096 * count.toNat < 2 ^ 64 ∧
      ∀ k < count.toNat, v.walk (pageFrom (v.dynamicNextVaddr + pageSize) k) = .notPresent ∧
        OutsideRegions v (pageFrom (v.dynamicNextVaddr + pageSize) k)
  | .mmio _ => Canonical v.mmioNextVaddr ∧ v.NoLargePage v.mmioNextVaddr ∧
      OutsideRegions v v.mmioNextVaddr
  | .allocFrame => True
  | .freeFrame f => ¬BacksRegion v f
  | .store x _ => ¬BacksRegion v (x / 4096)

inductive DemandEvent
  /-- The program reads the byte `b`, or stores it. -/
  | load (a : Word) (b : Byte)
  | store (a : Word) (b : Byte)
  | call (c : VmmCall)

/-- A program in the lazy regions, the page faults it causes, and the rest of the
kernel. An access to a page that is not present is no step: it is a fault, and the
access comes again after it. -/
def demandSystem (v₀ : Vmm) : System Vmm DemandEvent where
  init v := v = v₀
  step v e v' :=
    match e with
    | .load a b => InRegion v a ∧ v' = v ∧ ∃ x, v.translate a = some x ∧ v.pmm.mem x = b
    | .store a b => InRegion v a ∧ (v.rights a).writable = true ∧
        ∃ x, v.translate a = some x ∧ v' = v.withPmm (v.pmm.withMem (store8 v.pmm.mem x b))
    | .call c => ClearOfRegions v c ∧ (vmmSystem v₀).step v c v'

/-- The program's own accesses. -/
def DemandEvent.access : DemandEvent → Option (FlatEvent Word Byte)
  | .load a b => some (.load a b)
  | .store a b => some (.store a b)
  | .call _ => none

/-- The flat memory `m` that a state shows. -/
structure DemandView (v : Vmm) (m : Word → Byte) : Prop where
  wf : v.WF
  permissive : v.Permissive
  walk : ∀ a, InRegion v a → v.walk a = .notPresent ∨ ∃ e, v.walk a = .leaf e
  /-- What is not backed is zero. -/
  blank : ∀ a, (∀ e, InRegion v a → v.walk a ≠ .leaf e) → m a = 0
  byte : ∀ a e, InRegion v a → v.walk a = .leaf e →
    m a = v.pmm.mem (entryFrame e * 4096 + a.toNat % 4096)
  data : ∀ a e, InRegion v a → v.walk a = .leaf e → v.Data (entryFrame e)
  /-- A page is mapped as its region says. -/
  leaf : ∀ a e, InRegion v a → v.walk a = .leaf e →
    ∃ region f, v.lazyRegions.find? (·.covers (alignDown a pageSize)) = some region ∧
      f < 2 ^ 40 ∧ e = frameAddr f ||| translateFlags region.flags
  /-- Pages have frames of their own. -/
  apart : ∀ a b e e', InRegion v a → InRegion v b → v.walk a = .leaf e → v.walk b = .leaf e' →
    entryFrame e = entryFrame e' → samePage a b

/-! ## Upper levels -/

section Permissive

variable {v v' : Vmm}

theorem Vmm.Permissive.congr (hperm : v.Permissive) (hpmm : v'.pmm = v.pmm)
    (hcr3 : v'.cr3 = v.cr3) : v'.Permissive := by
  intro p i t hp ht hlink
  unfold Vmm.tableAt Vmm.root at ht
  rw [hpmm, hcr3] at ht
  rw [hpmm] at hlink ⊢
  exact hperm p i t hp ht hlink

theorem Vmm.Undisturbed.permissive (h : v.Undisturbed v') (hperm : v.Permissive) :
    v'.Permissive := by
  intro p i t hp ht hlink
  have hold : v.tableAt p = some t := by
    rw [← ht]
    unfold Vmm.tableAt
    rw [h.root]
    exact (h.tables.descend (Nat.le_of_lt hp)).symm
  have hsame : Machine.tables v'.pmm.mem t i = Machine.tables v.pmm.mem t i :=
    h.tables t ⟨p, by omega, hold⟩ i
  rw [hsame] at hlink ⊢
  exact hperm p i t hp hold hlink

theorem Vmm.alloc_undisturbed {f : Nat} {q : Pmm} (wf : v.WF) (hok : AllocOk v.pmm f q) :
    v.Undisturbed (v.withPmm q) :=
  ⟨(Vmm.alloc_keeps wf hok).wf, rfl, Vmm.alloc_keepsTables wf hok⟩

/-- A fresh frame is allocated and mapped. -/
theorem Vmm.mapFresh_permissive {f : Nat} {q : Pmm} {page : Word} (hperm : v.Permissive)
    (wf : v.WF) (hok : AllocOk v.pmm f q) (hlarge : v.NoLargePage page) (phys : Word)
    (flags : BitVec 32) : (vmmMap (v.withPmm q) page phys flags).2.Permissive :=
  ((Vmm.alloc_undisturbed wf hok).permissive hperm).vmmMap (Vmm.alloc_keeps wf hok).wf
    (hlarge.congr (Vmm.alloc_walk wf hok page)) phys flags

theorem vmmHandlePageFault_permissive {faultAddr errorCode : Word} (hperm : v.Permissive) (wf : v.WF)
    (hcpu : CpuFault v faultAddr errorCode) :
    (vmmHandlePageFault v faultAddr errorCode).2.Permissive := by
  unfold vmmHandlePageFault
  by_cases herr : errorCode &&& 1 ≠ 0
  · rw [if_pos herr]
    exact hperm
  rw [if_neg herr]
  dsimp only
  rw [ne_eq, not_not] at herr
  cases hfind : v.lazyRegions.find? (·.covers (alignDown faultAddr pageSize)) with
  | none => exact hperm
  | some region =>
      rcases Vmm.alloc_cases wf with ⟨-, hnone⟩ | ⟨f, q, halloc, hne, hok⟩
      · simp only [hnone, if_true]
        exact hperm
      · have hwalk : v.walk (alignDown faultAddr pageSize) = .notPresent :=
          (hwWalk_samePage _ _ (alignDown_samePage faultAddr)).trans (hcpu.2.mp herr)
        simp only [halloc, if_neg hne]
        exact Vmm.mapFresh_permissive hperm wf hok (Vmm.noLargePage_iff.mpr (.inl hwalk)) _ _

/-- The loop of `vmm_alloc_guarded`. -/
theorem mapGuardedPages_permissive {base : Word} {flags : BitVec 32}
    (hbase : 2 ^ 64 - 2 ^ 47 ≤ base.toNat) {ok : Bool} :
    ∀ (n i : Nat) (v : Vmm), v.Permissive → v.WF → base.toNat + 4096 * (i + n) < 2 ^ 64 →
    (∀ k, i ≤ k → k < i + n → v.walk (pageFrom base k) = .notPresent) →
    mapGuardedPages base flags n (BitVec.ofNat 64 i) v = .ok (ok, v') → v'.Permissive := by
  intro n
  induction n with
  | zero =>
      intro i v hperm _ _ _ hcall
      obtain ⟨-, rfl⟩ := Prod.mk.inj (Except.ok.inj hcall)
      exact hperm
  | succ n ih =>
      intro i v hperm wf hfit hempty hcall
      have hcanon : ∀ k, k ≤ i + n → Canonical (pageFrom base k) := fun k hk =>
        canonical_of_ge (by rw [toNat_pageFrom (by omega)]; omega)
      simp only [mapGuardedPages, pageFrom_eq_loop, ofNat_add_one] at hcall
      rcases Vmm.alloc_cases wf with ⟨-, hnone⟩ | ⟨f, q, halloc, hne, hok⟩
      · simp only [hnone, if_true] at hcall
        obtain ⟨-, rfl⟩ := Prod.mk.inj (Except.ok.inj hcall)
        exact hperm
      have hlarge : v.NoLargePage (pageFrom base i) :=
        Vmm.noLargePage_iff.mpr (.inl (hempty i (Nat.le_refl i) (by omega)))
      have hfresh := Vmm.mapFresh_spec wf hok hlarge flags
      have hmapped := Vmm.mapFresh_permissive hperm wf hok hlarge (frameAddr f) flags
      simp only [halloc, if_neg hne] at hcall
      rcases hmap : vmmMap (v.withPmm q) (pageFrom base i) (frameAddr f) flags with ⟨ok', v₁⟩
      rw [hmap] at hfresh hmapped hcall
      cases ok' with
      | true =>
          refine ih (i + 1) v₁ hmapped hfresh.keeps.wf (by omega) (fun k hlo hhi => ?_) hcall
          rw [hfresh.other _ (fun hsame => pageFrom_ne (by omega) (by omega) (by omega)
            ((sameIndices_iff_samePage (hcanon k (by omega)) (hcanon i (by omega))).mp hsame))]
          exact hempty k (by omega) (by omega)
      | false =>
          obtain ⟨q', hq', hwf, -, -, -, -, hmem, -⟩ := hfresh.giveBack wf
          simp only [hq'] at hcall
          obtain ⟨-, rfl⟩ := Prod.mk.inj (Except.ok.inj hcall)
          have hback : v₁.Undisturbed (v₁.withPmm q') := by
            refine ⟨hwf, rfl, fun t ht => tables_congr (fun x hlo hhi => hmem x ?_)⟩
            rw [show x / 4096 = t by omega]
            exact hfresh.keeps.wf.offBitmap t ht
          exact hback.permissive hmapped

/-- Every call clear of the regions keeps the upper levels permissive. -/
theorem vmmSystem_permissive {v₀ : Vmm} {c : VmmCall} (hperm : v.Permissive) (wf : v.WF)
    (hclear : ClearOfRegions v c) (hstep : (vmmSystem v₀).step v c v') : v'.Permissive := by
  cases c with
  | map virt phys flags =>
      rw [show v' = _ from hstep]
      exact hperm.vmmMap wf hclear.2.1 phys flags
  | unmap virt =>
      rw [show v' = _ from hstep]
      exact hperm.vmmUnmap wf hclear.2.1
  | register start end_ flags =>
      rw [show v' = _ from hstep]
      unfold vmmRegisterLazyRegion
      split <;> exact hperm
  | fault faultAddr errorCode =>
      rw [show v' = _ from hstep.2]
      exact vmmHandlePageFault_permissive hperm wf hstep.1
  | guarded count flags =>
      obtain ⟨result, hcall⟩ := hstep
      obtain ⟨hbase, hfit, hempty⟩ := hclear
      unfold vmmAllocGuarded at hcall
      dsimp only at hcall
      generalize hv₁ : ({ v with dynamicNextVaddr := v.dynamicNextVaddr + pageSize +
        count * pageSize + pageSize } : Vmm) = v₁ at hcall
      have hpmm : v₁.pmm = v.pmm := by rw [← hv₁]
      have hcr3 : v₁.cr3 = v.cr3 := by rw [← hv₁]
      split at hcall
      · cases hcall
      all_goals
        next w hloop =>
          obtain ⟨-, rfl⟩ := Prod.mk.inj (Except.ok.inj hcall)
          refine mapGuardedPages_permissive hbase count.toNat 0 v₁ (hperm.congr hpmm hcr3)
            (wf.congr hpmm hcr3) (by omega) (fun k _ hk => ?_) hloop
          exact (Vmm.walk_congr hpmm hcr3 _).trans (hempty k (by omega)).1
  | mmio phys =>
      obtain ⟨virt, hcall⟩ := hstep
      unfold vmmMapMmio at hcall
      dsimp only at hcall
      generalize hv₁ : ({ v with mmioNextVaddr := v.mmioNextVaddr + pageSize } : Vmm) = v₁
        at hcall
      have hpmm : v₁.pmm = v.pmm := by rw [← hv₁]
      have hcr3 : v₁.cr3 = v.cr3 := by rw [← hv₁]
      split at hcall
      · cases hcall
      · next w hmap =>
          obtain ⟨-, rfl⟩ := Prod.mk.inj (Except.ok.inj hcall)
          have hmapped := Vmm.Permissive.vmmMap (hperm.congr hpmm hcr3) (wf.congr hpmm hcr3)
            (hclear.2.1.congr (Vmm.walk_congr hpmm hcr3 _)) phys
            (vmmWritable ||| vmmNoCache ||| vmmNoExecute)
          rw [hmap] at hmapped
          exact hmapped
  | allocFrame =>
      exact (vmmSystem_elsewhere (c := .allocFrame) wf trivial hstep).permissive hperm
  | freeFrame f =>
      exact (vmmSystem_elsewhere (c := .freeFrame f) wf trivial hstep).permissive hperm
  | store x b =>
      exact (vmmSystem_elsewhere (c := .store x b) wf trivial hstep).permissive hperm

end Permissive

/-! ## The view -/

section View

variable {v v' : Vmm} {m : Word → Byte} {a b : Word}

theorem OutsideRegions.not_samePage {virt : Word} (h : OutsideRegions v virt) (ha : InRegion v a) :
    ¬samePage a virt := by
  intro hsame
  obtain ⟨-, region, hregion, hcovers⟩ := ha
  rw [alignDown_congr hsame, h region hregion] at hcovers
  cases hcovers

theorem OutsideRegions.not_sameIndices {virt : Word} (h : OutsideRegions v virt)
    (hvirt : Canonical virt) (ha : InRegion v a) : ¬sameIndices a virt :=
  fun hsame => h.not_samePage ha ((sameIndices_iff_samePage ha.1 hvirt).mp hsame)

/-- The regions, their pages and the frames of these are as they were. -/
structure SparesRegions (v v' : Vmm) : Prop where
  wf : v'.WF
  permissive : v'.Permissive
  regions : v'.lazyRegions = v.lazyRegions
  walk : ∀ a, InRegion v a → v'.walk a = v.walk a
  frames : ∀ f, BacksRegion v f → v.Data f →
    v'.Data f ∧ ∀ x, x / 4096 = f → v'.pmm.mem x = v.pmm.mem x

theorem Vmm.Keeps.spares (h : v.Keeps v') (hperm : v'.Permissive)
    (hwalk : ∀ a, InRegion v a → v'.walk a = v.walk a) : SparesRegions v v' :=
  ⟨h.wf, hperm, h.lazyRegions, hwalk, fun _ _ hf =>
    ⟨h.dataStays hf, fun x hx => h.data x (hx ▸ hf)⟩⟩

/-- The statics of the bump allocators are nothing to the regions. -/
theorem SparesRegions.statics {v₁ : Vmm} (h : SparesRegions v₁ v') (hpmm : v₁.pmm = v.pmm)
    (hcr3 : v₁.cr3 = v.cr3) (hregions : v₁.lazyRegions = v.lazyRegions) : SparesRegions v v' := by
  have hwalk : ∀ a, v₁.walk a = v.walk a := Vmm.walk_congr hpmm hcr3
  have hin : ∀ a, InRegion v₁ a ↔ InRegion v a := fun a => by
    unfold InRegion
    rw [hregions]
  have hdata : ∀ f, v₁.Data f ↔ v.Data f := fun f => by
    unfold Vmm.Data Vmm.Table Vmm.root
    rw [hpmm, hcr3]
  refine ⟨h.wf, h.permissive, h.regions.trans hregions,
    fun a ha => (h.walk a ((hin a).mpr ha)).trans (hwalk a), fun f hback hf => ?_⟩
  obtain ⟨a, e, ha, hleaf, hframe⟩ := hback
  rw [← hpmm]
  exact h.frames f ⟨a, e, (hin a).mpr ha, (hwalk a).trans hleaf, hframe⟩ ((hdata f).mpr hf)

theorem frameByte_div (e a : Word) :
    (entryFrame e * 4096 + a.toNat % 4096) / 4096 = entryFrame e := by
  omega

/-- What spares the regions changes nothing in view. -/
theorem DemandView.spares (h : DemandView v m) (hs : SparesRegions v v') : DemandView v' m := by
  have hin : ∀ a, InRegion v' a ↔ InRegion v a := fun a => by
    unfold InRegion
    rw [hs.regions]
  have hold : ∀ {a e}, InRegion v' a → v'.walk a = .leaf e →
      InRegion v a ∧ v.walk a = .leaf e := fun ha hleaf =>
    ⟨(hin _).mp ha, (hs.walk _ ((hin _).mp ha)).symm.trans hleaf⟩
  have hframe : ∀ {a e}, InRegion v' a → v'.walk a = .leaf e → v'.Data (entryFrame e) ∧
      ∀ x, x / 4096 = entryFrame e → v'.pmm.mem x = v.pmm.mem x := fun ha hleaf =>
    have h' := hold ha hleaf
    hs.frames _ ⟨_, _, h'.1, h'.2, rfl⟩ (h.data _ _ h'.1 h'.2)
  refine ⟨hs.wf, hs.permissive, fun a ha => ?_, fun a ha => h.blank a (fun e hina hleaf => ?_),
    fun a e ha hleaf => ?_, fun a e ha hleaf => (hframe ha hleaf).1, fun a e ha hleaf => ?_,
    fun a b e e' ha hb hleaf hleaf' => ?_⟩
  · rw [hs.walk a ((hin a).mp ha)]
    exact h.walk a ((hin a).mp ha)
  · exact ha e ((hin a).mpr hina) ((hs.walk a hina).trans hleaf)
  · rw [(hframe ha hleaf).2 _ (frameByte_div e a)]
    exact h.byte a e (hold ha hleaf).1 (hold ha hleaf).2
  · rw [hs.regions]
    exact h.leaf a e (hold ha hleaf).1 (hold ha hleaf).2
  · exact h.apart a b e e' (hold ha hleaf).1 (hold hb hleaf').1 (hold ha hleaf).2
      (hold hb hleaf').2

/-- A call made elsewhere spares the regions. -/
theorem ClearOfRegions.spares {v₀ : Vmm} {c : VmmCall} (hclear : ClearOfRegions v c) (wf : v.WF)
    (hperm : v.Permissive) (hstep : (vmmSystem v₀).step v c v')
    (hfault : ∀ faultAddr errorCode, c ≠ .fault faultAddr errorCode)
    (hregister : ∀ start end_ flags, c ≠ .register start end_ flags) : SparesRegions v v' := by
  have hperm' := vmmSystem_permissive hperm wf hclear hstep
  cases c with
  | map virt phys flags =>
      obtain ⟨hcanon, hlarge, hout⟩ := hclear
      obtain rfl : v' = _ := hstep
      exact (Vmm.vmmMap_spec wf hlarge phys flags).1.spares hperm' (fun a ha =>
        (PageOp.map virt phys flags).perform_other wf hcanon hlarge ha.1
          (fun _ => hout.not_samePage ha))
  | unmap virt =>
      obtain ⟨hcanon, hlarge, hout⟩ := hclear
      obtain rfl : v' = _ := hstep
      exact (Vmm.vmmUnmap_spec wf hlarge).1.spares hperm' (fun a ha =>
        (PageOp.unmap virt).perform_other wf hcanon hlarge ha.1 (fun _ => hout.not_samePage ha))
  | register start end_ flags => exact absurd rfl (hregister start end_ flags)
  | fault faultAddr errorCode => exact absurd rfl (hfault faultAddr errorCode)
  | guarded count flags =>
      obtain ⟨result, hcall⟩ := hstep
      obtain ⟨hbase, hfit, hempty⟩ := hclear
      unfold vmmAllocGuarded at hcall
      dsimp only at hcall
      generalize hv₁ : ({ v with dynamicNextVaddr := v.dynamicNextVaddr + pageSize +
        count * pageSize + pageSize } : Vmm) = v₁ at hcall
      have hpmm : v₁.pmm = v.pmm := by rw [← hv₁]
      have hcr3 : v₁.cr3 = v.cr3 := by rw [← hv₁]
      have hregions : v₁.lazyRegions = v.lazyRegions := by rw [← hv₁]
      have hwalk : ∀ a, v₁.walk a = v.walk a := Vmm.walk_congr hpmm hcr3
      -- the pages of the call are empty before, and outside the regions
      obtain ⟨ok, w, hloop, hmapped⟩ := mapGuardedPages_spec flags hbase count.toNat 0 v₁
        (wf.congr hpmm hcr3) (by omega) (fun k _ hk => (hwalk _).trans (hempty k (by omega)).1)
      rw [show (0 : Word) = BitVec.ofNat 64 0 from rfl, hloop] at hcall
      obtain rfl : w = v' := by cases ok <;> exact (Prod.mk.inj (Except.ok.inj hcall)).2
      refine (hmapped.keeps.spares hperm' (fun a ha => ?_)).statics hpmm hcr3 hregions
      have ha : InRegion v a := by
        unfold InRegion at ha ⊢
        rwa [← hregions]
      exact hmapped.other a ha.1 (fun k _ hk => (hempty k (by omega)).2.not_samePage ha)
  | mmio phys =>
      obtain ⟨virt, hcall⟩ := hstep
      obtain ⟨hcanon, hlarge, hout⟩ := hclear
      obtain ⟨-, hkeeps, -, hother⟩ := vmmMapMmio_page wf hlarge hcall
      generalize hv₁ : ({ v with mmioNextVaddr := v.mmioNextVaddr + pageSize } : Vmm) = v₁
        at hkeeps
      have hpmm : v₁.pmm = v.pmm := by rw [← hv₁]
      have hcr3 : v₁.cr3 = v.cr3 := by rw [← hv₁]
      have hregions : v₁.lazyRegions = v.lazyRegions := by rw [← hv₁]
      refine (hkeeps.spares hperm' (fun a ha => ?_)).statics hpmm hcr3 hregions
      have ha : InRegion v a := by
        unfold InRegion at ha ⊢
        rwa [← hregions]
      exact (hother a (hout.not_sameIndices hcanon ha)).trans (Vmm.walk_congr hpmm hcr3 a).symm
  | allocFrame =>
      obtain rfl : v' = _ := hstep
      rcases Vmm.alloc_cases wf with ⟨-, hnone⟩ | ⟨f, q, halloc, -, hok⟩
      · rw [hnone] at hperm' ⊢
        exact (Vmm.Keeps.refl wf).spares hperm' (fun _ _ => rfl)
      · rw [halloc] at hperm' ⊢
        exact (Vmm.alloc_keeps wf hok).spares hperm' (fun a _ => Vmm.alloc_walk wf hok a)
  | freeFrame f =>
      obtain ⟨⟨hdata, hlt, hf0⟩, q, hq, rfl⟩ := hstep
      obtain ⟨q', hq', hwf, hbm, hfc, hfree, htable, hmem, hwalk⟩ := Vmm.free_spec wf hdata hlt hf0
      obtain rfl := Except.ok.inj (hq.symm.trans hq')
      refine ⟨hwf, hperm', rfl, fun a _ => hwalk a, fun g hback hg => ⟨⟨?_, ?_, ?_⟩, ?_⟩⟩
      · exact fun ht => hg.1 ((htable g).mp ht)
      · show g ∉ q.freeSet
        rw [hfree, Finset.mem_insert, not_or]
        -- the frame handed back is none that backs a region
        exact ⟨fun heq => hclear (heq ▸ hback), hg.2.1⟩
      · show ¬q.HoldsBitmap g
        rw [Vmm.holdsBitmap_congr hbm hfc]
        exact hg.2.2
      · exact fun x hx => hmem x (hx ▸ hg.2.2)
  | store x b =>
      obtain ⟨hdata, rfl⟩ := hstep
      obtain ⟨hwf, hwalk, hkeep⟩ := Vmm.withMem_spec wf (m := store8 v.pmm.mem x b)
        (fun y hy => store8_other _ _ (fun heq => hy (heq ▸ hdata)))
      refine ⟨hwf, hperm', rfl, fun a _ => hwalk a, fun g hback hg => ⟨hkeep g hg, fun y hy => ?_⟩⟩
      exact store8_other _ _ (fun heq => hclear (by rw [← heq, hy]; exact hback))

/-- A fault backs a page with zeroes, which is what was in view there. -/
theorem DemandView.fault (h : DemandView v m) {faultAddr errorCode : Word}
    (hcpu : CpuFault v faultAddr errorCode) :
    DemandView (vmmHandlePageFault v faultAddr errorCode).2 m := by
  have hperm' := vmmHandlePageFault_permissive h.permissive h.wf hcpu
  rcases vmmHandlePageFault_frames h.wf hcpu with
    ⟨-, hcall⟩ | ⟨hlazy, region, f, ok, v', hfind, hcall, hfresh⟩
  · rw [hcall]
    exact h
  rw [hcall] at hperm' ⊢
  cases ok with
  | false => exact h.spares (hfresh.keeps.spares hperm' (fun a _ => hfresh.failed rfl a))
  | true =>
      set page := alignDown faultAddr pageSize with hpage
      have hsame : samePage page faultAddr := alignDown_samePage faultAddr
      have hcanon : Canonical page := canonical_samePage hcpu.1 hsame
      have hf40 : f < 2 ^ 40 := Nat.lt_of_lt_of_le (Pmm.freeSet_lt hfresh.wasFree) h.wf.physical
      have hframe : entryFrame (frameAddr f ||| translateFlags region.flags) = f :=
        entryFrame_leaf hf40 region.flags
      have hempty : ∀ a, samePage a page → v.walk a = .notPresent := fun a ha =>
        (hwWalk_samePage _ _ (Eq.trans ha hsame)).trans (hcpu.2.mp hlazy.1)
      have hin : ∀ a, InRegion v' a ↔ InRegion v a := fun a => by
        unfold InRegion
        rw [hfresh.keeps.lazyRegions]
      have hmapped : ∀ a, samePage a page →
          v'.walk a = .leaf (frameAddr f ||| translateFlags region.flags) := fun a ha =>
        (hwWalk_samePage _ _ ha).trans (hfresh.mapped rfl)
      have hother : ∀ a, InRegion v a → ¬samePage a page → v'.walk a = v.walk a := fun a ha hne =>
        hfresh.other a (fun hindices => hne ((sameIndices_iff_samePage ha.1 hcanon).mp hindices))
      -- a page mapped now is the new one, or one that was in view before
      have hcases : ∀ a e, InRegion v' a → v'.walk a = .leaf e →
          (samePage a page ∧ e = frameAddr f ||| translateFlags region.flags) ∨
          (InRegion v a ∧ v.walk a = .leaf e) := by
        intro a e ha hleaf
        by_cases hp : samePage a page
        · rw [hmapped a hp] at hleaf
          exact .inl ⟨hp, (Walk.leaf.inj hleaf).symm⟩
        · exact .inr ⟨(hin a).mp ha, (hother a ((hin a).mp ha) hp).symm.trans hleaf⟩
      have hblank : ∀ a, samePage a page → m a = 0 := fun a ha => h.blank a (fun e _ hleaf => by
        rw [hempty a ha] at hleaf
        cases hleaf)
      have hnew : ∀ a e, InRegion v a → v.walk a = .leaf e → entryFrame e ≠ f :=
        fun a e ha hleaf heq => (h.data a e ha hleaf).2.1 (heq ▸ hfresh.wasFree)
      refine ⟨hfresh.keeps.wf, hperm', fun a ha => ?_, fun a ha => ?_, fun a e ha hleaf => ?_,
        fun a e ha hleaf => ?_, fun a e ha hleaf => ?_, fun a b e e' ha hb hleaf hleaf' heq => ?_⟩
      · by_cases hp : samePage a page
        · exact .inr ⟨_, hmapped a hp⟩
        · rw [hother a ((hin a).mp ha) hp]
          exact h.walk a ((hin a).mp ha)
      · by_cases hp : samePage a page
        · exact hblank a hp
        · exact h.blank a (fun e hina hleaf =>
            ha e ((hin a).mpr hina) ((hother a hina hp).trans hleaf))
      · rcases hcases a e ha hleaf with ⟨hp, rfl⟩ | ⟨hina, hold⟩
        · rw [hblank a hp, hframe]
          exact (hfresh.zeroed _ (by omega)).symm
        · rw [h.byte a e hina hold]
          refine (hfresh.keeps.data _ ?_).symm
          rw [frameByte_div]
          exact h.data a e hina hold
      · rcases hcases a e ha hleaf with ⟨-, rfl⟩ | ⟨hina, hold⟩
        · rw [hframe]
          exact hfresh.data
        · exact hfresh.keeps.dataStays (h.data a e hina hold)
      · rw [hfresh.keeps.lazyRegions]
        rcases hcases a e ha hleaf with ⟨hp, rfl⟩ | ⟨hina, hold⟩
        · rw [alignDown_congr (Eq.trans hp hsame : samePage a faultAddr)]
          exact ⟨region, f, hfind, hf40, rfl⟩
        · exact h.leaf a e hina hold
      · rcases hcases a e ha hleaf with ⟨hp, rfl⟩ | ⟨hina, hold⟩ <;>
          rcases hcases b e' hb hleaf' with ⟨hq, rfl⟩ | ⟨hinb, hold'⟩
        · exact Eq.trans hp hq.symm
        · exact absurd (heq.symm.trans hframe) (hnew b e' hinb hold')
        · exact absurd (heq.trans hframe) (hnew a e hina hold)
        · exact h.apart a b e e' hina hinb hold hold' heq

theorem takeSlot_mem {region : LazyRegion} : ∀ {slots slots' : List LazyRegion},
    takeSlot region slots = some slots' → ∀ r ∈ slots', r ∈ slots ∨ r = region
  | slot :: rest, slots', h => by
    intro r hr
    unfold takeSlot at h
    split at h
    · obtain rfl := Option.some.inj h
      rcases List.mem_cons.mp hr with rfl | hr
      · exact .inr rfl
      · exact .inl (List.mem_cons_of_mem _ hr)
    · obtain ⟨rest', hrest, rfl⟩ := Option.map_eq_some_iff.mp h
      rcases List.mem_cons.mp hr with rfl | hr
      · exact .inl List.mem_cons_self
      · exact (takeSlot_mem hrest r hr).imp_left (List.mem_cons_of_mem _)

/-- An unused slot covers nothing, so a page outside the new region is in the region
it was in. -/
theorem takeSlot_find {region : LazyRegion} {page : Word} (hcovers : region.covers page = false) :
    ∀ {slots slots' : List LazyRegion}, takeSlot region slots = some slots' →
    slots'.find? (·.covers page) = slots.find? (·.covers page)
  | slot :: rest, slots', h => by
    unfold takeSlot at h
    split at h
    · next hfree =>
        obtain rfl := Option.some.inj h
        have hslot : slot.covers page = false := by
          unfold LazyRegion.covers
          rw [Bool.not_eq_true'] at hfree
          rw [hfree]
          rfl
        rw [List.find?_cons_of_neg (by simp [hcovers]), List.find?_cons_of_neg (by simp [hslot])]
    · obtain ⟨rest', hrest, rfl⟩ := Option.map_eq_some_iff.mp h
      rw [List.find?_cons, List.find?_cons, takeSlot_find hcovers hrest]

/-- A region registered while no page of it is mapped is in view as zeroes. -/
theorem DemandView.register (h : DemandView v m) {start end_ : Word} {flags : BitVec 32}
    (hclear : ClearOfRegions v (.register start end_ flags)) :
    DemandView (vmmRegisterLazyRegion v start end_ flags).2 m := by
  unfold vmmRegisterLazyRegion
  cases htake : takeSlot ⟨start, end_, flags, true⟩ v.lazyRegions with
  | none => exact h
  | some regions =>
      set region : LazyRegion := ⟨start, end_, flags, true⟩ with hregion
      set v' : Vmm := { v with lazyRegions := regions } with hv'
      have hwalk : ∀ a, v'.walk a = v.walk a := fun _ => rfl
      have hregions : v'.lazyRegions = regions := rfl
      have hmore : ∀ a, InRegion v a → InRegion v' a := by
        rintro a ⟨hcanon, r, hr, hcovers⟩
        exact ⟨hcanon, r, takeSlot_used htake r hr (covers_used hcovers), hcovers⟩
      -- a mapped page was in view before
      have hold : ∀ a e, InRegion v' a → v'.walk a = .leaf e →
          InRegion v a ∧ region.covers (alignDown a pageSize) = false := by
        rintro a e ⟨hcanon, r, hr, hcovers⟩ hleaf
        have hnot : region.covers (alignDown a pageSize) = false := by
          by_contra hc
          rw [Bool.not_eq_false] at hc
          rw [hwalk, hclear a hcanon hc] at hleaf
          cases hleaf
        rcases takeSlot_mem htake r hr with hr | rfl
        · exact ⟨⟨hcanon, r, hr, hcovers⟩, hnot⟩
        · rw [hnot] at hcovers
          cases hcovers
      refine ⟨h.wf.congr rfl rfl, h.permissive.congr rfl rfl, fun a ha => ?_,
        fun a ha => h.blank a (fun e hina => ha e (hmore a hina)),
        fun a e ha hleaf => h.byte a e (hold a e ha hleaf).1 hleaf,
        fun a e ha hleaf => h.data a e (hold a e ha hleaf).1 hleaf, fun a e ha hleaf => ?_,
        fun a b e e' ha hb hleaf hleaf' =>
          h.apart a b e e' (hold a e ha hleaf).1 (hold b e' hb hleaf').1 hleaf hleaf'⟩
      · obtain ⟨hcanon, r, hr, hcovers⟩ := ha
        rcases takeSlot_mem htake r hr with hr | rfl
        · exact h.walk a ⟨hcanon, r, hr, hcovers⟩
        · exact .inl (hclear a hcanon hcovers)
      · rw [hregions, takeSlot_find (hold a e ha hleaf).2 htake]
        exact h.leaf a e (hold a e ha hleaf).1 hleaf

/-- Where an access to a region goes. -/
theorem DemandView.leaf_of_translate (h : DemandView v m) (ha : InRegion v a) {x : Nat}
    (hx : v.translate a = some x) :
    ∃ e, v.walk a = .leaf e ∧ x = entryFrame e * 4096 + a.toNat % 4096 := by
  rcases h.walk a ha with hnone | ⟨e, hleaf⟩
  · have hwalk : hwWalk v.pmm.mem v.cr3 a = .notPresent := hnone
    rw [Vmm.translate, hwTranslate, if_pos ha.1, hwalk] at hx
    cases hx
  · rw [Vmm.translate_of_leaf ha.1 hleaf] at hx
    exact ⟨e, hleaf, (Option.some.inj hx).symm⟩

/-- A store to a region is a store to the view. -/
theorem DemandView.store (h : DemandView v m) (ha : InRegion v a) {x : Nat} {c : Byte}
    (hx : v.translate a = some x) :
    DemandView (v.withPmm (v.pmm.withMem (store8 v.pmm.mem x c))) (Function.update m a c) := by
  obtain ⟨e, hleaf, rfl⟩ := h.leaf_of_translate ha hx
  have hdata := h.data a e ha hleaf
  have hstep : (vmmSystem v).step v (.store (entryFrame e * 4096 + a.toNat % 4096) c)
      (v.withPmm (v.pmm.withMem (store8 v.pmm.mem (entryFrame e * 4096 + a.toNat % 4096) c))) :=
    ⟨by rwa [frameByte_div], rfl⟩
  have hperm := (vmmSystem_elsewhere h.wf (c := .store (entryFrame e * 4096 + a.toNat % 4096) c)
    trivial hstep).permissive h.permissive
  obtain ⟨hwf, hwalk, hkeep⟩ := Vmm.withMem_spec h.wf
    (m := store8 v.pmm.mem (entryFrame e * 4096 + a.toNat % 4096) c)
    (fun y hy => store8_other _ _ (fun heq => hy (by rwa [heq, frameByte_div])))
  -- a store moves no translation
  have hold : ∀ b e', (v.withPmm (v.pmm.withMem (store8 v.pmm.mem
      (entryFrame e * 4096 + a.toNat % 4096) c))).walk b = .leaf e' → v.walk b = .leaf e' :=
    fun b e' hleaf' => (hwalk b).symm.trans hleaf'
  refine ⟨hwf, hperm, fun b hb => ?_, fun b hb => ?_, fun b e' hb hleaf' => ?_,
    fun b e' hb hleaf' => hkeep _ (h.data b e' hb (hold b e' hleaf')),
    fun b e' hb hleaf' => h.leaf b e' hb (hold b e' hleaf'),
    fun b b' e₁ e₂ hb hb' h₁ h₂ => h.apart b b' e₁ e₂ hb hb' (hold b e₁ h₁) (hold b' e₂ h₂)⟩
  · rw [hwalk]
    exact h.walk b hb
  · have hne : b ≠ a := by
      rintro rfl
      exact hb e ha ((hwalk b).trans hleaf)
    rw [Function.update_of_ne hne]
    exact h.blank b (fun e' hinb hleaf' => hb e' hinb ((hwalk b).trans hleaf'))
  · -- another byte of the view lies elsewhere: pages have frames of their own
    by_cases hba : b = a
    · subst hba
      obtain rfl := Walk.leaf.inj (hleaf.symm.trans (hold b e' hleaf'))
      rw [Function.update_self]
      exact (store8_self _ _ _).symm
    · rw [Function.update_of_ne hba, h.byte b e' hb (hold b e' hleaf')]
      refine (store8_other _ _ (fun heq => hba ?_)).symm
      have hframes : entryFrame e' = entryFrame e := by omega
      have hpage := h.apart b a e' e hb ha (hold b e' hleaf') hleaf hframes
      unfold samePage at hpage
      exact BitVec.eq_of_toNat_eq (by omega)

/-- **The simulation.** -/
theorem demandSimulation {v₀ : Vmm} (wf : v₀.WF) (hperm : v₀.Permissive)
    (hempty : ∀ a, InRegion v₀ a → v₀.walk a = .notPresent) :
    Simulation (demandSystem v₀) (flatMemory Word Byte) (fun e o => o = e.access)
      DemandView where
  init v hv := by
    obtain rfl : v = v₀ := hv
    have hnone : ∀ a e, InRegion v a → v.walk a ≠ .leaf e := fun a e ha hleaf => by
      rw [hempty a ha] at hleaf
      cases hleaf
    -- nothing is mapped yet, and the view is zero
    exact ⟨fun _ => 0, fun _ => rfl, wf, hperm, fun a ha => .inl (hempty a ha), fun _ _ => rfl,
      fun a e ha hleaf => absurd hleaf (hnone a e ha),
      fun a e ha hleaf => absurd hleaf (hnone a e ha),
      fun a e ha hleaf => absurd hleaf (hnone a e ha),
      fun a _ e _ ha _ hleaf _ => absurd hleaf (hnone a e ha)⟩
  step := by
    intro v m e v' h hstep
    cases e with
    | load a b =>
        obtain ⟨ha, rfl, x, hx, hb⟩ := hstep
        obtain ⟨e, hleaf, rfl⟩ := h.leaf_of_translate ha hx
        exact ⟨_, m, rfl, ⟨rfl, (h.byte a e ha hleaf).trans hb⟩, h⟩
    | store a b =>
        obtain ⟨ha, -, x, hx, rfl⟩ := hstep
        exact ⟨_, Function.update m a b, rfl, rfl, h.store ha hx⟩
    | call c =>
        obtain ⟨hclear, hstep⟩ := hstep
        refine ⟨none, m, rfl, rfl, ?_⟩
        cases c with
        | fault faultAddr errorCode =>
            obtain rfl : v' = _ := hstep.2
            exact h.fault hstep.1
        | register start end_ flags =>
            obtain rfl : v' = _ := hstep
            exact h.register hclear
        | _ =>
            exact h.spares (hclear.spares h.wf h.permissive hstep
              (fun _ _ heq => by cases heq) (fun _ _ _ heq => by cases heq))

end View

/-! ## Accesses go through -/

/-- An access to `a` meets no fault but for the rights of its region. -/
def Accessible (v : Vmm) (a : Word) (region : LazyRegion) : Prop :=
  (v.translate a).isSome = true ∧ v.rights a = requestedRights region.flags

section Progress

variable {v v' v₀ : Vmm} {m : Word → Byte} {a e : Word}

theorem DemandView.accessible (h : DemandView v m) (ha : InRegion v a) (hleaf : v.walk a = .leaf e)
    {region : LazyRegion}
    (hfind : v.lazyRegions.find? (·.covers (alignDown a pageSize)) = some region) :
    Accessible v a region := by
  obtain ⟨region', f, hfind', hf, rfl⟩ := h.leaf a e ha hleaf
  obtain rfl := Option.some.inj (hfind.symm.trans hfind')
  have hentry : frameAddr f ||| translateFlags region.flags =
      Vmm.leafEntry (frameAddr f) region.flags := by
    rw [Vmm.leafEntry, frameAddr_and_mask hf]
  refine ⟨?_, ?_⟩
  · rw [Vmm.translate_of_leaf ha.1 hleaf]
    rfl
  · rw [h.permissive.rights_of_leaf hleaf, hentry]
    exact (leafEntry_rights (frameAddr f) region.flags).1

/-- A fault in a region is handled if there are frames for the page and its tables. -/
theorem DemandView.fault_handled (h : DemandView v m) (ha : InRegion v a)
    (hnone : v.walk a = .notPresent) {errorCode : Word} (herr : errorCode &&& 1 = 0)
    {region : LazyRegion}
    (hfind : v.lazyRegions.find? (·.covers (alignDown a pageSize)) = some region) :
    ((vmmHandlePageFault v a errorCode).1 = true ↔
      v.missingTables (alignDown a pageSize) < v.pmm.freeSet.card) ∧
    ((vmmHandlePageFault v a errorCode).1 = true →
      Accessible (vmmHandlePageFault v a errorCode).2 a region) := by
  have hcpu : CpuFault v a errorCode := ⟨ha.1, iff_of_true herr hnone⟩
  have hview := h.fault hcpu
  rcases vmmHandlePageFault_frames h.wf hcpu with
    ⟨hnoFree, hcall⟩ | ⟨-, region', f, ok, v', hfind', hcall, hfresh⟩
  · rw [hcall]
    refine ⟨iff_of_false Bool.false_ne_true ?_, fun hfalse => absurd hfalse Bool.false_ne_true⟩
    rw [hnoFree ⟨herr, ha.2⟩]
    exact Nat.not_lt_zero _
  · rw [hcall] at hview ⊢
    refine ⟨hfresh.enough, fun hok => ?_⟩
    have hleaf : v'.walk a = _ :=
      (hwWalk_samePage _ _ (alignDown_samePage a).symm).trans (hfresh.mapped hok)
    refine hview.accessible ?_ hleaf ?_
    · unfold InRegion
      rw [hfresh.keeps.lazyRegions]
      exact ha
    · rw [hfresh.keeps.lazyRegions]
      exact hfind

/-- A page that is mapped stays where it is. -/
theorem DemandView.leaf_stays (h : DemandView v m) {event : DemandEvent}
    (hstep : (demandSystem v₀).step v event v') (ha : InRegion v a) (hleaf : v.walk a = .leaf e) :
    InRegion v' a ∧ v'.walk a = .leaf e := by
  cases event with
  | load b c =>
      obtain ⟨-, rfl, -⟩ := hstep
      exact ⟨ha, hleaf⟩
  | store b c =>
      obtain ⟨hb, -, x, hx, rfl⟩ := hstep
      obtain ⟨d, hd, rfl⟩ := h.leaf_of_translate hb hx
      refine ⟨ha, ((Vmm.withMem_spec h.wf (fun y hy => store8_other _ _ (fun heq => hy ?_))).2.1
        a).trans hleaf⟩
      rw [heq, frameByte_div]
      exact h.data b d hb hd
  | call c =>
      obtain ⟨hclear, hstep⟩ := hstep
      cases c with
      | fault faultAddr errorCode =>
          obtain ⟨hcpu, rfl⟩ := hstep
          rcases vmmHandlePageFault_frames h.wf hcpu with
            ⟨-, hcall⟩ | ⟨hlazy, region, f, ok, v', -, hcall, hfresh⟩
          · rw [hcall]
            exact ⟨ha, hleaf⟩
          · rw [hcall]
            have hregions := hfresh.keeps.lazyRegions
            refine ⟨⟨ha.1, by rw [hregions]; exact ha.2⟩, ?_⟩
            -- the page that faulted was not present, so it is another page
            refine (hfresh.other a (fun hsame => ?_)).trans hleaf
            have hnone : v.walk (alignDown faultAddr pageSize) = .notPresent :=
              (hwWalk_samePage _ _ (alignDown_samePage faultAddr)).trans (hcpu.2.mp hlazy.1)
            have hwalk : v.walk a = v.walk (alignDown faultAddr pageSize) :=
              hwWalk_sameIndices _ _ hsame
            rw [hleaf, hnone] at hwalk
            cases hwalk
      | register start end_ flags =>
          obtain rfl : v' = _ := hstep
          unfold vmmRegisterLazyRegion
          split
          · exact ⟨ha, hleaf⟩
          · next regions htake =>
              obtain ⟨hcanon, r, hr, hcovers⟩ := ha
              exact ⟨⟨hcanon, r, takeSlot_used htake r hr (covers_used hcovers), hcovers⟩, hleaf⟩
      | _ =>
          have hs := hclear.spares h.wf h.permissive hstep
            (fun _ _ heq => by cases heq) (fun _ _ _ heq => by cases heq)
          exact ⟨⟨ha.1, by rw [hs.regions]; exact ha.2⟩, (hs.walk a ha).trans hleaf⟩

theorem DemandView.leaf_of_run (h : DemandView v m)
    (hsim : Simulation (demandSystem v₀) (flatMemory Word Byte) (fun e o => o = e.access)
      DemandView) {es : List DemandEvent} (hrun : (demandSystem v₀).Run v es v')
    (ha : InRegion v a) (hleaf : v.walk a = .leaf e) : v'.walk a = .leaf e := by
  induction hrun generalizing m with
  | nil => exact hleaf
  | cons hstep _ ih =>
      obtain ⟨-, m', -, -, h'⟩ := hsim.step _ _ _ _ h hstep
      obtain ⟨ha', hleaf'⟩ := h.leaf_stays hstep ha hleaf
      exact ih h' ha' hleaf'

end Progress

/-! ## A first access -/

theorem emptyRoot_permissive {v : Vmm} (hroot : ∀ i, tables v.pmm.mem v.root i = 0) :
    v.Permissive := by
  intro p i t _ ht hlink
  have hnone := emptyRoot_next hroot
  have hmem := tableAt_mem (l := [([], v.root)]) (by simp)
    (fun p t hpt i u hu => by rw [hnone p t hpt i] at hu; exact absurd hu (by simp)) ht
  rw [hnone p t hmem i] at hlink
  exact absurd hlink (by simp)

theorem emptyTables_permissive : emptyTables.Permissive := emptyRoot_permissive emptyTables_root

theorem emptyTables_blank (a : Word) (_ : InRegion emptyTables a) :
    emptyTables.walk a = .notPresent := emptyTables_walk a

/-- The empty address space with one region registered. -/
def firstRegion : Vmm := (vmmRegisterLazyRegion emptyTables 0x400000 0x800000 vmmWritable).2

/-- Its page at `0x400abc` faults, a byte is stored there, and read back. -/
def firstAccesses : List DemandEvent :=
  [.call (.register 0x400000 0x800000 vmmWritable), .call (.fault 0x400abc 2), .store 0x400abc 7]

theorem firstRegion_view : DemandView firstRegion (fun _ => 0) ∧ InRegion firstRegion 0x400abc ∧
    firstRegion.lazyRegions.find? (·.covers (alignDown 0x400abc pageSize)) =
      some ⟨0x400000, 0x800000, vmmWritable, true⟩ := by
  obtain ⟨m, hm, h⟩ := (demandSimulation emptyTables_wf emptyTables_permissive
    emptyTables_blank).init emptyTables rfl
  obtain rfl : m = fun _ => 0 := funext hm
  exact ⟨h.register (fun a _ _ => emptyTables_walk a), ⟨.inl (by decide), _,
    List.mem_cons_self, by decide⟩, by decide⟩

theorem firstAccesses_run : ∃ v, (demandSystem emptyTables).Run emptyTables
    (firstAccesses ++ [.load 0x400abc 7]) v := by
  obtain ⟨hview, hin, hfind⟩ := firstRegion_view
  have hnone : firstRegion.walk 0x400abc = .notPresent := emptyTables_walk _
  obtain ⟨henough, haccess⟩ := hview.fault_handled hin hnone
    (show (2 : Word) &&& 1 = 0 by decide) hfind
  have hcard : firstRegion.pmm.freeSet.card = 7 := sevenFrames_ok.count.symm
  obtain ⟨htranslate, hrights⟩ := haccess (henough.mpr (by rw [hcard]; decide))
  obtain ⟨x, hx⟩ := Option.isSome_iff_exists.mp htranslate
  have hcpu : CpuFault firstRegion 0x400abc 2 := ⟨hin.1, iff_of_true (by decide) hnone⟩
  have hview₂ := hview.fault hcpu
  generalize hv₂ : (vmmHandlePageFault firstRegion 0x400abc 2).2 = v₂ at hview₂ hx hrights
  have hin₂ : InRegion v₂ 0x400abc := by
    have hkeeps := (vmmHandlePageFault_spec hview.wf hcpu).1
    rw [hv₂] at hkeeps
    exact ⟨hin.1, by rw [hkeeps.lazyRegions]; exact hin.2⟩
  obtain ⟨e, hleaf, hxe⟩ := hview₂.leaf_of_translate hin₂ hx
  have hstore : (demandSystem emptyTables).step v₂ (.store 0x400abc 7)
      (v₂.withPmm (v₂.pmm.withMem (store8 v₂.pmm.mem x 7))) :=
    ⟨hin₂, by rw [hrights]; decide, x, hx, rfl⟩
  obtain ⟨hin₃, hleaf₃⟩ := hview₂.leaf_stays hstore hin₂ hleaf
  refine ⟨_, .cons ⟨fun a _ _ => emptyTables_walk a, rfl⟩ (.cons ⟨trivial, hcpu, hv₂.symm⟩
    (.cons hstore (.single ⟨hin₃, rfl, x, ?_, store8_self _ _ _⟩)))⟩
  rw [Vmm.translate_of_leaf hin₃.1 hleaf₃, hxe]

/-- **A lazily backed region is flat memory.** From permissive tables that map no page of a
region, in every run of a program's loads and stores, page faults, further
registrations, and all other calls made for other pages and frames (`ClearOfRegions`),
a load returns the byte last stored at its address, or zero. -/
theorem lazy_region_is_flat_memory {v₀ v : Vmm} (wf : v₀.WF) (hperm : v₀.Permissive)
    (hempty : ∀ a, InRegion v₀ a → v₀.walk a = .notPresent) {es es' : List DemandEvent}
    {a : Word} {b : Byte} (hrun : (demandSystem v₀).Run v₀ (es ++ .load a b :: es') v) :
    b = lastStored a (es.filterMap DemandEvent.access) 0 :=
  sim_load (demandSimulation wf hperm hempty) rfl hrun rfl

theorem lazy_region_is_flat_memory_emptyTables : ∃ v,
    (demandSystem emptyTables).Run emptyTables (firstAccesses ++ [.load 0x400abc 7]) v ∧
    lastStored 0x400abc (firstAccesses.filterMap DemandEvent.access) 0 = (7 : Byte) := by
  obtain ⟨v, hrun⟩ := firstAccesses_run
  exact ⟨v, hrun, (lazy_region_is_flat_memory emptyTables_wf emptyTables_permissive
    emptyTables_blank hrun).symm⟩

/-- **An access faults once at most.** From permissive tables that map no page of a
region, in every reachable state a page of a region is mapped with the rights its
region asks for, and stays so; or it is not present, and the fault is handled, and
leaves it so mapped, exactly if there are more free frames than tables missing. -/
theorem lazy_access_faults_once {v₀ v : Vmm} (wf : v₀.WF) (hperm : v₀.Permissive)
    (hempty : ∀ a, InRegion v₀ a → v₀.walk a = .notPresent)
    (hv : (demandSystem v₀).Reachable v) {a : Word} (ha : InRegion v a) :
    ∃ region, v.lazyRegions.find? (·.covers (alignDown a pageSize)) = some region ∧
      ((v.walk a = .notPresent ∧ ∀ errorCode, errorCode &&& 1 = 0 →
          ((vmmHandlePageFault v a errorCode).1 = true ↔
            v.missingTables (alignDown a pageSize) < v.pmm.freeSet.card) ∧
          ((vmmHandlePageFault v a errorCode).1 = true →
            Accessible (vmmHandlePageFault v a errorCode).2 a region)) ∨
        (Accessible v a region ∧
          ∀ es v', (demandSystem v₀).Run v es v' → v'.walk a = v.walk a)) := by
  have hsim := demandSimulation wf hperm hempty
  obtain ⟨m, -, h⟩ := hsim.reachable hv
  obtain ⟨region, hfind⟩ : ∃ region,
      v.lazyRegions.find? (·.covers (alignDown a pageSize)) = some region :=
    Option.isSome_iff_exists.mp (List.find?_isSome.mpr ha.2)
  refine ⟨region, hfind, ?_⟩
  rcases h.walk a ha with hnone | ⟨e, hleaf⟩
  · exact .inl ⟨hnone, fun errorCode herr => h.fault_handled ha hnone herr hfind⟩
  · exact .inr ⟨h.accessible ha hleaf hfind, fun es v' hrun =>
      (h.leaf_of_run hsim hrun ha hleaf).trans hleaf.symm⟩

theorem lazy_access_faults_once_emptyTables : ∃ region,
    firstRegion.lazyRegions.find? (·.covers (alignDown 0x400abc pageSize)) = some region ∧
    Accessible (vmmHandlePageFault firstRegion 0x400abc 2).2 0x400abc region := by
  have hstep : (demandSystem emptyTables).step emptyTables
      (.call (.register 0x400000 0x800000 vmmWritable)) firstRegion :=
    ⟨fun a _ _ => emptyTables_walk a, rfl⟩
  obtain ⟨region, hfind, ⟨-, hfault⟩ | ⟨⟨hsome, -⟩, -⟩⟩ := lazy_access_faults_once emptyTables_wf
    emptyTables_permissive emptyTables_blank (.step (.init rfl) hstep) firstRegion_view.2.1
  · have hcard : firstRegion.pmm.freeSet.card = 7 := sevenFrames_ok.count.symm
    obtain ⟨henough, haccess⟩ := hfault 2 (by decide)
    exact ⟨region, hfind, haccess (henough.mpr (by rw [hcard]; decide))⟩
  · obtain ⟨e, hleaf, -⟩ := firstRegion_view.1.leaf_of_translate firstRegion_view.2.1
      (Option.some_get hsome).symm
    rw [show firstRegion.walk 0x400abc = .notPresent from emptyTables_walk _] at hleaf
    cases hleaf

end QuinKernel
