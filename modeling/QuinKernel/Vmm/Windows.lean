import QuinKernel.Vmm.Guarded
import QuinKernel.Vmm.LargePages

/-!
# The two windows

Guarded allocations and MMIO pages are taken from adjacent windows by two
pointers that only go up, and neither call checks that its pointer is still in
its own window. `Fits` is the missing check. In a run whose calls meet it, no
guarded call touches a page outside the dynamic window, and every page
`vmm_map_mmio` returned stays mapped to its device (`vmm_windows_apart`).
-/

namespace QuinKernel

open Machine RadixTree

/-- The page of `a` lies in the dynamic window. -/
def InDynamicWindow (a : Word) : Prop :=
  vmmDynamicVbase.toNat ≤ a.toNat ∧ a.toNat < vmmMmioVbase.toNat

/-- The pages of a guarded call end below the MMIO window; the MMIO pointer has
not passed the end of the address space. -/
def Fits (s : GuardedState) : GuardedCall → Prop
  | .alloc count _ _ =>
      s.vmm.dynamicNextVaddr.toNat + 4096 + 4096 * count.toNat ≤ vmmMmioVbase.toNat
  | .mmio _ _ => vmmMmioVbase.toNat ≤ s.vmm.mmioNextVaddr.toNat

/-- Both pointers are where the calls so far have taken them, and nothing ahead
of them is in the way. -/
structure WindowInv (s : GuardedState) : Prop where
  wf : s.vmm.WF
  dynamicNext : s.vmm.dynamicNextVaddr = windowPage s.pages
  mmioNext : s.vmm.mmioNextVaddr = windowPage (dynamicPages + s.mmioCalls)
  pages : s.pages ≤ dynamicPages + 1
  mmioCalls : s.mmioCalls ≤ mmioPages
  empty : ∀ j, s.pages ≤ j → j < dynamicPages → s.vmm.walk (windowPage j) = .notPresent
  small : ∀ j < mmioPages, s.vmm.NoLargePage (windowPage (dynamicPages + j))

section Steps

variable {v₀ : Vmm} {s s' : GuardedState}

theorem inDynamicWindow_windowPage {a : Word} {j : Nat} (hj : j < dynamicPages)
    (h : samePage a (windowPage j)) : InDynamicWindow a := by
  unfold samePage at h
  rw [windowPage_toNat (by unfold dynamicPages mmioPages at *; omega)] at h
  unfold InDynamicWindow
  rw [show vmmDynamicVbase.toNat = 0xffffffffb0000000 from rfl] at *
  rw [show vmmMmioVbase.toNat = 0xffffffffc0000000 from rfl]
  unfold dynamicPages at hj
  omega

theorem not_inDynamicWindow_mmio {a : Word} {j : Nat} (hj : j < mmioPages)
    (h : samePage a (windowPage (dynamicPages + j))) : ¬ InDynamicWindow a := by
  unfold samePage at h
  rw [windowPage_toNat (by omega)] at h
  unfold InDynamicWindow
  rw [show vmmDynamicVbase.toNat = 0xffffffffb0000000 from rfl] at *
  rw [show vmmMmioVbase.toNat = 0xffffffffc0000000 from rfl]
  unfold dynamicPages at h
  omega

/-- A guarded call that fits moves nothing outside the dynamic window. -/
theorem WindowInv.alloc (h : WindowInv s) {count : Word} {flags : BitVec 32} {result : Option Word}
    (hfits : Fits s (.alloc count flags result))
    (hstep : (guardedSystem v₀).step s (.alloc count flags result) s') :
    WindowInv s' ∧ ∀ a, Canonical a → ¬ InDynamicWindow a → s'.vmm.walk a = s.vmm.walk a := by
  obtain ⟨w, blocks, pages, mmioCalls⟩ := s'
  obtain ⟨hcall, -, hpages, hmmio⟩ := hstep
  obtain rfl : pages = s.pages + (count.toNat + 2) := hpages
  obtain rfl : mmioCalls = s.mmioCalls := hmmio
  dsimp only at hcall ⊢
  have hfit : s.pages + 1 + count.toNat ≤ dynamicPages := by
    have hbound := h.pages
    have hnext := congrArg BitVec.toNat h.dynamicNext
    rw [windowPage_toNat (by unfold dynamicPages mmioPages at *; omega),
      show vmmDynamicVbase.toNat = 0xffffffffb0000000 from rfl] at hnext
    unfold Fits at hfits
    rw [hnext, show vmmMmioVbase.toNat = 0xffffffffc0000000 from rfl] at hfits
    unfold dynamicPages
    omega
  obtain ⟨result', w', hspec, hmapped, -⟩ :=
    vmmAllocGuarded_spec h.wf count flags h.dynamicNext hfit h.empty
  obtain ⟨-, rfl⟩ := Prod.mk.inj (Except.ok.inj (hcall.symm.trans hspec))
  have hkeeps := hmapped.keeps
  have hother : ∀ a, Canonical a → (∀ j, s.pages + 1 ≤ j → j < s.pages + 1 + count.toNat →
      ¬ samePage a (windowPage j)) → w.walk a = s.vmm.walk a := by
    intro a ha hne
    refine hmapped.other a ha (fun k _ hk => ?_)
    rw [pageFrom_windowPage]
    exact hne _ (by omega) (by omega)
  have hdynamicNext : w.dynamicNextVaddr = windowPage (s.pages + (count.toNat + 2)) := by
    rw [hkeeps.statics]
    rfl
  have hmmioNext : w.mmioNextVaddr = s.vmm.mmioNextVaddr := by
    rw [hkeeps.statics]
    rfl
  have houtside : ∀ a, Canonical a → ¬ InDynamicWindow a → w.walk a = s.vmm.walk a := by
    intro a ha hout
    exact hother a ha (fun j _ hj hsame => hout (inDynamicWindow_windowPage (by omega) hsame))
  refine ⟨⟨hkeeps.wf, hdynamicNext, hmmioNext.trans h.mmioNext, ?_, h.mmioCalls, ?_, ?_⟩, houtside⟩
  · show s.pages + (count.toNat + 2) ≤ dynamicPages + 1
    omega
  · intro j hlo hhi
    show w.walk (windowPage j) = .notPresent
    have hlo' : s.pages + (count.toNat + 2) ≤ j := hlo
    rw [hother _ (windowPage_canonical (by omega))
      (fun k _ hk => windowPage_ne (by omega) (by omega) (by omega))]
    exact h.empty j (by omega) hhi
  · intro j hj
    refine (h.small j hj).congr (houtside _ (windowPage_canonical (by omega)) ?_)
    exact not_inDynamicWindow_mmio hj rfl

/-- An MMIO call that fits maps the next page of its window, and moves no other. -/
theorem WindowInv.mmio (h : WindowInv s) {phys result : Word} (hfits : Fits s (.mmio phys result))
    (hstep : (guardedSystem v₀).step s (.mmio phys result) s') :
    WindowInv s' ∧ s.mmioCalls < mmioPages ∧ s'.mmioCalls = s.mmioCalls + 1 ∧
      result = windowPage (dynamicPages + s.mmioCalls) ∧
      s'.vmm.walk result = .leaf (mmioLeaf phys) ∧
      ∀ a, Canonical a → ¬ samePage a result → s'.vmm.walk a = s.vmm.walk a := by
  obtain ⟨w, blocks, pages, mmioCalls⟩ := s'
  obtain ⟨hcall, -, hsame, hmmio⟩ := hstep
  obtain rfl : pages = s.pages := hsame
  obtain rfl : mmioCalls = s.mmioCalls + 1 := hmmio
  dsimp only at hcall ⊢
  have hroom : s.mmioCalls < mmioPages := by
    by_contra hfull
    have hcalls : s.mmioCalls = mmioPages := Nat.le_antisymm h.mmioCalls (Nat.not_lt.mp hfull)
    have hzero : windowPage (dynamicPages + mmioPages) = 0 := by
      rw [windowPage]
      decide
    have hpointer : vmmMmioVbase.toNat ≤ s.vmm.mmioNextVaddr.toNat := hfits
    rw [h.mmioNext, hcalls, hzero] at hpointer
    exact absurd hpointer (by decide)
  obtain ⟨hresult, hkeeps, hleaf, hother⟩ :=
    vmmMapMmio_spec h.wf h.mmioNext hroom (h.small _ hroom) hcall
  subst hresult
  have hdynamicNext : w.dynamicNextVaddr = s.vmm.dynamicNextVaddr := by
    rw [hkeeps.statics]
    rfl
  have hmmioNext : w.mmioNextVaddr = windowPage (dynamicPages + (s.mmioCalls + 1)) := by
    rw [hkeeps.statics]
    rfl
  refine ⟨⟨hkeeps.wf, hdynamicNext.trans h.dynamicNext, hmmioNext, h.pages, hroom, ?_, ?_⟩, hroom,
    rfl, rfl, hleaf, hother⟩
  · intro j hlo hhi
    refine (hother _ (windowPage_canonical (by omega)) ?_).trans (h.empty j hlo hhi)
    exact windowPage_ne (by omega) (by omega) (by omega)
  · intro j hj
    by_cases hcur : j = s.mmioCalls
    · rw [hcur]
      exact Vmm.noLargePage_iff.mpr (.inr ⟨_, hleaf⟩)
    · refine (h.small j hj).congr (hother _ (windowPage_canonical (by omega)) ?_)
      exact windowPage_ne (by omega) (by omega) (by omega)

/-- Runs: outside the dynamic window only the pages `vmm_map_mmio` returned have
moved, and these are mapped to their devices. -/
theorem WindowInv.run {es : List GuardedCall}
    (hrun : ((guardedSystem v₀).restrict Fits).Run s es s') (h : WindowInv s) :
    WindowInv s' ∧
    (∀ phys r, .mmio phys r ∈ es → (∃ j, s.mmioCalls ≤ j ∧ j < mmioPages ∧
      r = windowPage (dynamicPages + j)) ∧ s'.vmm.walk r = .leaf (mmioLeaf phys)) ∧
    ∀ a, Canonical a → ¬ InDynamicWindow a → (∀ phys r, .mmio phys r ∈ es → ¬ samePage a r) →
      s'.vmm.walk a = s.vmm.walk a := by
  induction hrun with
  | nil => exact ⟨h, fun _ _ hmem => absurd hmem (by simp), fun _ _ _ _ => rfl⟩
  | @cons s s₁ s' e es hstep hrest ih =>
      cases e with
      | alloc count flags result =>
          obtain ⟨h₁, houtside⟩ := h.alloc hstep.1 hstep.2
          obtain ⟨h', hmmio, hother⟩ := ih h₁
          have hcalls : s₁.mmioCalls = s.mmioCalls := hstep.2.2.2.2
          refine ⟨h', fun phys r hmem => ?_, fun a ha hout hne => ?_⟩
          · obtain ⟨⟨j, hj, hlt, hr⟩, hleaf⟩ := hmmio phys r (by simpa using hmem)
            exact ⟨⟨j, by omega, hlt, hr⟩, hleaf⟩
          · rw [hother a ha hout (fun phys r hmem => hne phys r (List.mem_cons_of_mem _ hmem)),
              houtside a ha hout]
      | mmio phys₁ result =>
          obtain ⟨h₁, hroom, hcalls, hresult, hleaf₁, hmoved⟩ := h.mmio hstep.1 hstep.2
          obtain ⟨h', hmmio, hother⟩ := ih h₁
          refine ⟨h', fun phys r hmem => ?_, fun a ha hout hne => ?_⟩
          · rcases List.mem_cons.mp hmem with heq | hmem
            · -- the later calls return later pages
              obtain ⟨rfl, rfl⟩ : phys = phys₁ ∧ r = result := by simpa using heq
              refine ⟨⟨s.mmioCalls, Nat.le_refl _, hroom, hresult⟩, ?_⟩
              rw [hother r (hresult ▸ windowPage_canonical (by omega))
                (not_inDynamicWindow_mmio hroom (by rw [hresult])) (fun phys' r' hmem' => ?_)]
              · exact hleaf₁
              · obtain ⟨⟨j, hj, hlt, rfl⟩, -⟩ := hmmio phys' r' hmem'
                rw [hresult]
                exact windowPage_ne (by omega) (by omega) (by omega)
            · obtain ⟨⟨j, hj, hlt, hr⟩, hleaf⟩ := hmmio phys r hmem
              exact ⟨⟨j, by omega, hlt, hr⟩, hleaf⟩
          · rw [hother a ha hout (fun phys r hmem => hne phys r (List.mem_cons_of_mem _ hmem)),
              hmoved a ha (hne phys₁ result List.mem_cons_self)]

theorem WindowsReady.windowInv (hready : WindowsReady v₀) (hs : (guardedSystem v₀).init s) :
    WindowInv s := by
  obtain ⟨v, blocks, pages, mmioCalls⟩ := s
  obtain ⟨hv, -, hpages, hmmio⟩ := hs
  dsimp only at hv hpages hmmio
  subst hv hpages hmmio
  refine ⟨hready.wf, ?_, ?_, Nat.zero_le _, Nat.zero_le _, fun j _ hj => hready.empty j hj,
    hready.small⟩
  · rw [windowPage]
    exact hready.dynamicNext
  · rw [Nat.add_zero, ← windowPage_mmio]
    exact hready.mmioNext

end Steps

/-- **The windows stay apart** in every run whose calls fit them: outside the
dynamic window nothing has moved but the pages `vmm_map_mmio` returned, these
are still mapped to their devices, and a further guarded call that fits moves
neither. -/
theorem vmm_windows_apart {v₀ : Vmm} (hready : WindowsReady v₀) {s₀ s : GuardedState}
    {es : List GuardedCall} (hinit : (guardedSystem v₀).init s₀)
    (hrun : ((guardedSystem v₀).restrict Fits).Run s₀ es s) :
    (∀ a, Canonical a → ¬ InDynamicWindow a → (∀ phys r, .mmio phys r ∈ es → ¬ samePage a r) →
      s.vmm.walk a = v₀.walk a) ∧
    (∀ phys r, .mmio phys r ∈ es → s.vmm.walk r = .leaf (mmioLeaf phys)) ∧
    ∀ count flags result s', Fits s (.alloc count flags result) →
      (guardedSystem v₀).step s (.alloc count flags result) s' →
      ∀ a, Canonical a → ¬ InDynamicWindow a → s'.vmm.walk a = s.vmm.walk a := by
  obtain ⟨h, hmmio, hother⟩ := WindowInv.run hrun (hready.windowInv hinit)
  refine ⟨fun a ha hout hne => ?_, fun phys r hmem => (hmmio phys r hmem).2,
    fun count flags result s' hfits hstep => (h.alloc hfits hstep).2⟩
  rw [hother a ha hout hne, show s₀.vmm = v₀ from hinit.1]

/-- One call for two pages of the empty address space. -/
theorem vmm_windows_apart_emptyTables :
    ∃ result v, vmmAllocGuarded emptyTables 2 vmmWritable = .ok (result, v) ∧
      ∀ a, Canonical a → ¬ InDynamicWindow a → v.walk a = .notPresent := by
  have hready := emptyTables_windowsReady
  obtain ⟨result, v, hcall, -⟩ := vmmAllocGuarded_spec (k := 0) hready.wf 2 vmmWritable
    (by rw [windowPage]; rfl) (by decide) (fun j _ hj => hready.empty j hj)
  have hstep : (guardedSystem emptyTables).step ⟨emptyTables, [], 0, 0⟩ (.alloc 2 vmmWritable result)
      ⟨v, _, 4, 0⟩ := ⟨hcall, rfl, rfl, rfl⟩
  have hfits : Fits ⟨emptyTables, [], 0, 0⟩ (.alloc 2 vmmWritable result) := by
    show vmmDynamicVbase.toNat + 4096 + 4096 * (2 : Word).toNat ≤ vmmMmioVbase.toNat
    decide
  have h := vmm_windows_apart hready ⟨rfl, rfl, rfl, rfl⟩ (.single ⟨hfits, hstep⟩)
  refine ⟨result, v, hcall, fun a ha hout => ?_⟩
  rw [← emptyTables_walk a]
  exact h.1 a ha hout (fun phys r hmem => absurd hmem (by simp))

/-! ## A request that leaves its window -/

section Overrun

variable {v : Vmm}

theorem firstPage (base : Word) : base + 0 * pageSize = base := by
  rw [show (0 : Word) * pageSize = 0 by decide]
  exact BitVec.add_zero base

/-- A request whose first page lacks at least as many tables as there are
frames returns `NULL`, hands its frame back and moves the pointer all the same. -/
theorem vmmAllocGuarded_null (wf : v.WF) (count : Word) (flags : BitVec 32)
    (hcount : 0 < count.toNat) (hsmall : v.NoLargePage (v.dynamicNextVaddr + pageSize))
    (hfew : v.pmm.freeSet.card ≤ v.missingTables (v.dynamicNextVaddr + pageSize)) :
    ∃ v', vmmAllocGuarded v count flags = .ok (none, v') ∧ v'.WF ∧
      (0 < v.pmm.freeSet.card → 0 < v'.pmm.freeSet.card) ∧
      v'.dynamicNextVaddr = v.dynamicNextVaddr + pageSize + count * pageSize + pageSize ∧
      ∀ a, v'.walk a = v.walk a := by
  obtain ⟨n, hn⟩ : ∃ n, count.toNat = n + 1 := ⟨count.toNat - 1, by omega⟩
  unfold vmmAllocGuarded
  simp only [hn, mapGuardedPages, firstPage]
  set base := v.dynamicNextVaddr + pageSize with hbase
  set v₁ : Vmm := { v with dynamicNextVaddr := base + count * pageSize + pageSize } with hv₁
  have wf₁ : v₁.WF := wf.congr rfl rfl
  have hwalk₁ : ∀ a, v₁.walk a = v.walk a := Vmm.walk_congr rfl rfl
  have hmissing₁ : ∀ a, v₁.missingTables a = v.missingTables a := Vmm.missingTables_congr rfl rfl
  rcases Vmm.alloc_cases wf₁ with ⟨-, hnone⟩ | ⟨f, q, halloc, hne, hok⟩
  · have hstay : v₁.withPmm v₁.pmm = v₁ := rfl
    rw [hnone]
    simp only [if_true, hstay]
    exact ⟨v₁, rfl, wf₁, fun h => h, rfl, hwalk₁⟩
  have hfresh := Vmm.mapFresh_spec wf₁ hok (hsmall.congr (hwalk₁ base)) flags
  rw [halloc]
  simp only [if_neg hne]
  rcases hcall : vmmMap (v₁.withPmm q) base (frameAddr f) flags with ⟨ok, w⟩
  rw [hcall] at hfresh
  cases ok with
  | true =>
      have henough := hfresh.enough.mp rfl
      rw [hmissing₁] at henough
      exact absurd henough (Nat.not_lt.mpr hfew)
  | false =>
      obtain ⟨q', hq', hwf, -, -, hfree, -, -, hwalk⟩ := hfresh.giveBack wf₁
      refine ⟨w.withPmm q', by simp only [hq'], hwf, fun _ => ?_, ?_, fun a => ?_⟩
      · show 0 < q'.freeSet.card
        rw [hfree]
        exact Finset.card_pos.mpr ⟨f, Finset.mem_insert_self _ _⟩
      · show w.dynamicNextVaddr = _
        rw [show w = _ from hfresh.keeps.statics]
        rfl
      · rw [hwalk, hfresh.failed rfl, hwalk₁]

/-- A request for one page that finds its tables, or the frames for them. -/
theorem vmmAllocGuarded_one (wf : v.WF) (flags : BitVec 32)
    (hsmall : v.NoLargePage (v.dynamicNextVaddr + pageSize))
    (henough : v.missingTables (v.dynamicNextVaddr + pageSize) < v.pmm.freeSet.card) :
    ∃ f v', vmmAllocGuarded v 1 flags = .ok (some (v.dynamicNextVaddr + pageSize), v') ∧
      f ∈ v.pmm.freeSet ∧
      v'.walk (v.dynamicNextVaddr + pageSize) = .leaf (frameAddr f ||| translateFlags flags) := by
  unfold vmmAllocGuarded
  rw [show (1 : Word).toNat = 0 + 1 from rfl]
  simp only [mapGuardedPages, firstPage]
  set base := v.dynamicNextVaddr + pageSize with hbase
  set v₁ : Vmm := { v with dynamicNextVaddr := base + 1 * pageSize + pageSize } with hv₁
  have wf₁ : v₁.WF := wf.congr rfl rfl
  have hwalk₁ : ∀ a, v₁.walk a = v.walk a := Vmm.walk_congr rfl rfl
  have hmissing₁ : ∀ a, v₁.missingTables a = v.missingTables a := Vmm.missingTables_congr rfl rfl
  rcases Vmm.alloc_cases wf₁ with ⟨hnoFree, -⟩ | ⟨f, q, halloc, hne, hok⟩
  · rw [show v.pmm.freeSet = ∅ from hnoFree] at henough
    exact absurd henough (by simp)
  have hfresh := Vmm.mapFresh_spec wf₁ hok (hsmall.congr (hwalk₁ base)) flags
  rw [halloc]
  simp only [if_neg hne]
  rcases hcall : vmmMap (v₁.withPmm q) base (frameAddr f) flags with ⟨ok, w⟩
  rw [hcall] at hfresh
  have hcount := hfresh.enough
  rw [hmissing₁] at hcount
  obtain rfl : ok = true := hcount.mpr henough
  exact ⟨f, w, rfl, hok.wasFree, hfresh.mapped rfl⟩

end Overrun

/-- The tables of the MMIO window's first pages are there, those of the dynamic
window are not, and one frame is free. -/
def mmioTables : Vmm :=
  ((({ emptyTables with pmm := { sevenFrames with
    mem := fun x => if x = 0x1000 then 0x7f else 0, frameCount := 8, freeFrames := 1 } }
    : Vmm).setEntry (frameAddr 0x100) 511 0x101007).setEntry (frameAddr 0x101) 511 0x102007).setEntry
    (frameAddr 0x102) 0 0x103007

theorem mmioTables_tables {t : Nat} (ht : 2 ≤ t) (i : Fin 512) :
    tables mmioTables.pmm.mem t i =
      if t = 0x102 ∧ i = 0 then 0x103007 else if t = 0x101 ∧ i = 511 then 0x102007
      else if t = 0x100 ∧ i = 511 then 0x101007 else 0 := by
  have hempty : tables (fun x => if x = 0x1000 then 0x7f else 0 : Mem) t i = 0 :=
    tables_zero (fun x hlo hhi => if_neg (by omega)) i
  unfold mmioTables
  rw [Vmm.setEntry_tables (by decide), Vmm.setEntry_tables (by decide),
    Vmm.setEntry_tables (by decide)]
  dsimp only
  rw [hempty]

def mmioTables_paths : List (List (Fin 512) × Nat) :=
  [([], 0x100), ([511], 0x101), ([511, 511], 0x102), ([511, 511, 0], 0x103)]

theorem mmioTables_next (p : List (Fin 512)) (t : Nat) (hpt : (p, t) ∈ mmioTables_paths)
    (i : Fin 512) (u : Nat) (hu : nextTable (tables mmioTables.pmm.mem t i) = some u) :
    (p ++ [i], u) ∈ mmioTables_paths := by
  simp only [mmioTables_paths, List.mem_cons, Prod.mk.injEq, List.not_mem_nil, or_false] at hpt
  rw [mmioTables_tables (by omega)] at hu
  have hnone : nextTable 0 = none := by decide
  split at hu
  · next h =>
    obtain ⟨rfl, rfl⟩ := h
    rw [← Option.some.inj hu]
    rcases hpt with ⟨-, h⟩ | ⟨-, h⟩ | ⟨rfl, -⟩ | ⟨-, h⟩ <;> first | decide | omega
  split at hu
  · next h =>
    obtain ⟨rfl, rfl⟩ := h
    rw [← Option.some.inj hu]
    rcases hpt with ⟨-, h⟩ | ⟨rfl, -⟩ | ⟨-, h⟩ | ⟨-, h⟩ <;> first | decide | omega
  split at hu
  · next h =>
    obtain ⟨rfl, rfl⟩ := h
    rw [← Option.some.inj hu]
    rcases hpt with ⟨rfl, -⟩ | ⟨-, h⟩ | ⟨-, h⟩ | ⟨-, h⟩ <;> first | decide | omega
  · rw [hnone] at hu
    exact absurd hu (by simp)

theorem mmioTables_tableAt {p : List (Fin 512)} {t : Nat} (h : mmioTables.tableAt p = some t) :
    (p, t) ∈ mmioTables_paths :=
  tableAt_mem (by decide) mmioTables_next h

/-- The bitmap of the eight frames lies in the second. -/
theorem off_bitmap_of_eight {q : Pmm} {t : Nat} (hbitmap : q.bitmap = 0x1000)
    (hcount : q.frameCount = 8) (ht : 2 ≤ t) : ¬ q.HoldsBitmap t := by
  intro h
  have hend : q.bitmapEnd = 0x1001 := by
    unfold Pmm.bitmapEnd
    rw [hbitmap, hcount]
    decide
  unfold Pmm.HoldsBitmap at h
  rw [hend] at h
  omega

theorem mmioTables_spec : mmioTables.WF ∧ mmioTables.pmm.freeSet.card = 1 := by
  have hok : Pmm.Ok { sevenFrames with
      mem := fun x => if x = 0x1000 then 0x7f else 0, frameCount := 8, freeFrames := 1 } :=
    ⟨by decide, by decide, by decide, by decide⟩
  obtain ⟨hok₁, hfree₁⟩ := Vmm.setEntry_pmm (v := { emptyTables with pmm := _ }) (t := 0x100)
    (by decide) (off_bitmap_of_eight rfl rfl (by decide)) hok 511 0x101007
  obtain ⟨hok₂, hfree₂⟩ := Vmm.setEntry_pmm (t := 0x101) (by decide)
    (off_bitmap_of_eight rfl rfl (by decide)) hok₁ 511 0x102007
  obtain ⟨hok₃, hfree₃⟩ := Vmm.setEntry_pmm (t := 0x102) (by decide)
    (off_bitmap_of_eight rfl rfl (by decide)) hok₂ 0 0x103007
  refine ⟨wf_of_tables hok₃ (by decide) (by decide) mmioTables_next (by decide) (by decide)
    (fun x hx => off_bitmap_of_eight rfl rfl ?_), ?_⟩
  · revert x
    decide
  · show (Vmm.pmm mmioTables).freeSet.card = 1
    rw [show (Vmm.pmm mmioTables).freeSet = _ from (hfree₃.trans hfree₂).trans hfree₁]
    decide

/-- None of the four tables maps a large page. -/
theorem mmioTables_noLargePage (virt : Word) : mmioTables.NoLargePage virt := by
  intro p i r t _ ht _
  have hmem := mmioTables_tableAt ht
  simp only [mmioTables_paths, List.mem_cons, Prod.mk.injEq, List.not_mem_nil, or_false] at hmem
  rw [mmioTables_tables (by omega)]
  split
  · decide
  split
  · decide
  split <;> decide

theorem mmioTables_windowsReady : WindowsReady mmioTables := by
  refine ⟨mmioTables_spec.1, rfl, rfl, fun j hj => ?_, fun j _ => mmioTables_noLargePage _⟩
  have haddr := windowPage_toNat (j := j) (by omega)
  rw [show vmmDynamicVbase.toNat = 0xffffffffb0000000 from rfl] at haddr
  unfold dynamicPages at hj
  have h39 : virtIndex (windowPage j) 39 = 511 := Fin.ext (by
    show (windowPage j).toNat / 2 ^ 39 % 512 = 511
    omega)
  have h30 : virtIndex (windowPage j) 30 = 510 := Fin.ext (by
    show (windowPage j).toNat / 2 ^ 30 % 512 = 510
    omega)
  -- the path stops in the second table
  have hentry : tables mmioTables.pmm.mem 0x101 510 = 0 := by
    rw [mmioTables_tables (by decide)]
    decide
  have htable : mmioTables.tableAt [511] = some 0x101 := by decide
  rw [Vmm.walk_eq, upperIndices, h39, h30]
  refine (congrArg classify (probe_of_stop (p := [511]) (q := [_]) htable ?_)).trans
    (classify_of_not_present ?_)
  · rw [hentry]
    decide
  · rw [hentry]
    decide

/-- **A guarded page over a device.** A request for 65533 pages fails for want of
frames but takes the pointer to the end of the dynamic window, and the next
request maps its page where the device is mapped. -/
theorem vmm_alloc_guarded_replaces_mmio :
    WindowsReady mmioTables ∧ ∃ s, (guardedSystem mmioTables).Run ⟨mmioTables, [], 0, 0⟩
      [.mmio 0xfee00000 0xffffffffc0000000, .alloc 65533 vmmWritable none,
       .alloc 1 vmmWritable (some 0xffffffffc0000000)] s ∧
      s.vmm.walk 0xffffffffc0000000 ≠ .leaf (mmioLeaf 0xfee00000) := by
  obtain ⟨hwf, hcard⟩ := mmioTables_spec
  have hready := mmioTables_windowsReady
  have hpage : windowPage (dynamicPages + 0) = 0xffffffffc0000000 := by
    rw [windowPage]
    decide
  have hpage₁ : windowPage 1 = 0xffffffffb0001000 := by
    rw [windowPage]
    decide
  -- the device
  obtain ⟨v₁, hmmio, hcard₁, hmissing₁⟩ : ∃ v₁,
      vmmMapMmio mmioTables 0xfee00000 = .ok (0xffffffffc0000000, v₁) ∧
      v₁.pmm.freeSet.card = 1 ∧ v₁.missingTables 0xffffffffb0001000 = 2 := by
    have h₁ : tables mmioTables.pmm.mem mmioTables.root (virtIndex vmmMmioVbase 39) = 0x101007 := by
      decide
    have h₂ : tables mmioTables.pmm.mem (entryFrame 0x101007) (virtIndex vmmMmioVbase 30) =
        0x102007 := by decide
    have h₃ : tables mmioTables.pmm.mem (entryFrame 0x102007) (virtIndex vmmMmioVbase 21) =
        0x103007 := by decide
    have hmap := vmmMap_of_present (v := { mmioTables with mmioNextVaddr := vmmMmioVbase + pageSize })
      h₁ h₂ h₃ (by decide) (by decide) (by decide) 0xfee00000
      (vmmWritable ||| vmmNoCache ||| vmmNoExecute)
    have hfree := (Vmm.setEntry_pmm
      (v := { mmioTables with mmioNextVaddr := vmmMmioVbase + pageSize }) (t := 0x103) (by decide)
      (off_bitmap_of_eight rfl rfl (by decide)) hwf.pmm (virtIndex vmmMmioVbase 12)
      (mmioLeaf 0xfee00000)).2
    unfold vmmMapMmio
    dsimp only
    rw [show mmioTables.mmioNextVaddr = vmmMmioVbase from rfl, hmap]
    exact ⟨_, rfl, (congrArg Finset.card hfree).trans hcard, by decide⟩
  obtain ⟨-, hkeeps, hleaf, hother⟩ := vmmMapMmio_spec (j := 0) hwf
    (hready.mmioNext.trans windowPage_mmio) (by decide) (mmioTables_noLargePage _) hmmio
  have hnext₁ : v₁.dynamicNextVaddr + pageSize = 0xffffffffb0001000 := by
    rw [hkeeps.statics]
    show mmioTables.dynamicNextVaddr + pageSize = 0xffffffffb0001000
    decide
  have hempty : v₁.walk 0xffffffffb0001000 = .notPresent := by
    rw [← hpage₁, hother _ (windowPage_canonical (by decide))
      (windowPage_ne (by decide) (by decide) (by decide))]
    exact hready.empty 1 (by decide)
  -- the request that fails
  obtain ⟨v₂, hnull, hwf₂, hcard₂, hnext₂, hwalk₂⟩ := vmmAllocGuarded_null hkeeps.wf 65533
    vmmWritable (by decide) (Vmm.noLargePage_iff.mpr (.inl (hnext₁ ▸ hempty)))
    (by rw [hnext₁]; omega)
  have hnext₂' : v₂.dynamicNextVaddr + pageSize = 0xffffffffc0000000 := by
    rw [hnext₂, hnext₁]
    decide
  have hleaf₂ : v₂.walk (v₂.dynamicNextVaddr + pageSize) = .leaf (mmioLeaf 0xfee00000) := by
    rw [hnext₂', hwalk₂, ← hpage]
    exact hleaf
  -- the request that takes the device's page
  obtain ⟨f, v₃, hone, hf, hmapped⟩ := vmmAllocGuarded_one hwf₂ vmmWritable
    (Vmm.noLargePage_iff.mpr (.inr ⟨_, hleaf₂⟩))
    (by rw [Vmm.missingTables_of_leaf hleaf₂]; exact hcard₂ (by omega))
  rw [hnext₂'] at hone hmapped
  have hstep₁ : (guardedSystem mmioTables).step ⟨mmioTables, [], 0, 0⟩
      (.mmio 0xfee00000 0xffffffffc0000000) ⟨v₁, [], 0, 1⟩ := ⟨hmmio, rfl, rfl, rfl⟩
  have hstep₂ : (guardedSystem mmioTables).step ⟨v₁, [], 0, 1⟩ (.alloc 65533 vmmWritable none)
      ⟨v₂, [], 65535, 1⟩ :=
    ⟨hnull, rfl, show 65535 = 0 + ((65533 : Word).toNat + 2) by decide, rfl⟩
  have hstep₃ : (guardedSystem mmioTables).step ⟨v₂, [], 65535, 1⟩
      (.alloc 1 vmmWritable (some 0xffffffffc0000000)) ⟨v₃, _, 65538, 1⟩ := ⟨hone, rfl, rfl, rfl⟩
  refine ⟨hready, _, .cons hstep₁ (.cons hstep₂ (.single hstep₃)), fun h => ?_⟩
  -- the device's leaf forbids execution, the new one does not
  have hsame : frameAddr f ||| translateFlags vmmWritable = mmioLeaf 0xfee00000 :=
    Walk.leaf.inj (hmapped.symm.trans h)
  have hlt := Pmm.freeSet_lt hf
  have hphysical := hwf₂.physical
  have hflags : (translateFlags vmmWritable).toNat = 3 := by decide
  have hlow := toNat_frameAddr_or (t := f) (by omega) (by rw [hflags]; decide)
  rw [hsame, hflags] at hlow
  have hhigh : 2 ^ 63 ≤ (mmioLeaf 0xfee00000).toNat := by decide
  omega

end QuinKernel
