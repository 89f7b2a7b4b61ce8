import QuinKernel.Vmm.Lazy

/-!
# Guarded allocations

`guardedSystem` runs `vmm_alloc_guarded` and `vmm_map_mmio` in any order from
an address space where nothing is mapped in the dynamic window. Each guarded
call takes its page count plus two pages from the window, whether or not it
succeeds, and maps pages strictly between the two it reserves as guards; so as
long as the pages taken fit the window, no call maps a page an earlier call
took (`GuardedInv`).
-/

namespace QuinKernel

open Machine

/-- The address `n` pages above `base`. -/
def pageFrom (base : Word) (n : Nat) : Word := base + BitVec.ofNat 64 (4096 * n)

section Pages

variable {v v' : Vmm} {f : Nat}

theorem toNat_pageFrom {base : Word} {n : Nat} (h : base.toNat + 4096 * n < 2 ^ 64) :
    (pageFrom base n).toNat = base.toNat + 4096 * n := by
  rw [pageFrom, BitVec.toNat_add, toNat_ofNat_of_lt (by omega), Nat.mod_eq_of_lt h]

/-- The page and the next counter of the loop of `vmm_alloc_guarded`. -/
theorem pageFrom_eq_loop (base : Word) (i : Nat) :
    base + BitVec.ofNat 64 i * pageSize = pageFrom base i := by
  rw [pageFrom, BitVec.ofNat_mul, BitVec.mul_comm]
  rfl

theorem ofNat_add_one (i : Nat) : (BitVec.ofNat 64 i + 1 : Word) = BitVec.ofNat 64 (i + 1) := by
  rw [BitVec.ofNat_add]
  rfl

/-- Handing back a frame that is in no use. -/
theorem Vmm.free_spec (wf : v.WF) (hf : v.Data f) (hlt : f < v.pmm.frameCount.toNat)
    (hf0 : f ≠ 0) :
    ∃ q, pmmFreeFrame v.pmm (frameAddr f) = .ok q ∧ (v.withPmm q).WF ∧
      q.bitmap = v.pmm.bitmap ∧ q.frameCount = v.pmm.frameCount ∧
      q.freeSet = insert f v.pmm.freeSet ∧
      (∀ t, (v.withPmm q).Table t ↔ v.Table t) ∧
      (∀ x, ¬ v.pmm.HoldsBitmap (x / 4096) → q.mem x = v.pmm.mem x) ∧
      ∀ a, (v.withPmm q).walk a = v.walk a := by
  have hphysical := wf.physical
  have haddr : (frameAddr f).toNat / 4096 = f := by
    rw [toNat_frameAddr (by omega)]
    omega
  have hbit : v.pmm.bit f = true := by
    by_contra hclear
    exact hf.2.1 (Pmm.mem_freeSet.mpr ⟨hlt, by simpa using hclear⟩)
  obtain ⟨q, hq⟩ : ∃ q, pmmFreeFrame v.pmm (frameAddr f) = .ok q := by
    rw [Pmm.pmmFreeFrame_eq, haddr, if_pos ⟨hlt, hbit⟩]
    exact ⟨_, rfl⟩
  have hok := Pmm.pmmFreeFrame_ok hq
  rw [haddr] at hok
  have hmem : ∀ x, ¬ v.pmm.HoldsBitmap (x / 4096) → q.mem x = v.pmm.mem x := by
    refine fun x hx => hok.frame x ?_
    unfold Pmm.HoldsBitmap at hx
    omega
  have hkeep : RadixTree.Keeps nextTable 3 v.root (tables v.pmm.mem) (tables q.mem) := by
    intro t ht
    refine tables_congr (fun x hlo hhi => hmem x ?_)
    rw [show x / 4096 = t by omega]
    exact wf.offBitmap t ht
  have htable : ∀ t, (v.withPmm q).Table t ↔ v.Table t := fun t => hkeep.isTable
  have hoff : (f + 1) * 4096 ≤ v.pmm.bitmap.toNat ∨ v.pmm.bitmapEnd ≤ f * 4096 := by
    have := hf.2.2
    unfold Pmm.HoldsBitmap at this
    omega
  refine ⟨q, hq, ⟨wf.pmm.free hok hf0 hoff, ?_, hkeep.isTree wf.tree, ?_, ?_⟩, hok.bitmap,
    hok.frameCount, hok.freeSet, htable, hmem, fun a => ?_⟩
  · change q.frameCount.toNat ≤ _
    rw [hok.frameCount]
    exact wf.physical
  · intro t ht
    change t ∉ q.freeSet
    rw [hok.freeSet, Finset.mem_insert, not_or]
    have htab := (htable t).mp ht
    exact ⟨fun heq => hf.1 (heq ▸ htab), wf.notFree t htab⟩
  · intro t ht
    change ¬ q.HoldsBitmap t
    rw [Vmm.holdsBitmap_congr hok.bitmap hok.frameCount]
    exact wf.offBitmap t ((htable t).mp ht)
  · rw [Vmm.walk_eq, Vmm.walk_eq]
    exact congrArg classify (hkeep.probe (Nat.le_refl 3))

/-- Mapping fails and the frame goes back: the net effect is a paging operation. -/
theorem Vmm.Keeps.free {q : Pmm} (h : v.Keeps v') (hwas : f ∈ v.pmm.freeSet)
    (hwf : (v'.withPmm q).WF) (hbm : q.bitmap = v'.pmm.bitmap)
    (hfc : q.frameCount = v'.pmm.frameCount) (hfree : q.freeSet = insert f v'.pmm.freeSet)
    (htable : ∀ t, (v'.withPmm q).Table t ↔ v'.Table t)
    (hmem : ∀ x, ¬ v'.pmm.HoldsBitmap (x / 4096) → q.mem x = v'.pmm.mem x) :
    v.Keeps (v'.withPmm q) := by
  refine ⟨hwf, ?_, hbm.trans h.bitmap, hfc.trans h.frameCount, ?_, ?_, ?_⟩
  · rw [h.statics]
    rfl
  · change q.freeSet ⊆ _
    rw [hfree]
    exact Finset.insert_subset hwas h.freeSet
  · exact fun t ht => h.newTable t ((htable t).mp ht)
  · intro x hx
    refine (hmem x ?_).trans (h.data x hx)
    rw [Vmm.holdsBitmap_congr h.bitmap h.frameCount]
    exact hx.2.2

/-- The frame taken for a page can be handed back. -/
theorem Vmm.MappedFresh.giveBack {page : Word} {flags : BitVec 32} {ok : Bool}
    (h : Vmm.MappedFresh v page f flags ok v') (wf : v.WF) :
    ∃ q, pmmFreeFrame v'.pmm (frameAddr f) = .ok q ∧ (v'.withPmm q).WF ∧
      q.bitmap = v'.pmm.bitmap ∧ q.frameCount = v'.pmm.frameCount ∧
      q.freeSet = insert f v'.pmm.freeSet ∧
      (∀ t, (v'.withPmm q).Table t ↔ v'.Table t) ∧
      (∀ x, ¬ v'.pmm.HoldsBitmap (x / 4096) → q.mem x = v'.pmm.mem x) ∧
      ∀ a, (v'.withPmm q).walk a = v'.walk a := by
  refine Vmm.free_spec h.keeps.wf h.data ?_ (fun hz => wf.pmm.nonzero (hz ▸ h.wasFree))
  rw [h.keeps.frameCount]
  exact Pmm.freeSet_lt h.wasFree

end Pages

/-! ## The loop of `vmm_alloc_guarded` -/

/-- What mapping pages `i` to `i + n` above `base` did. -/
structure PagesMapped (v : Vmm) (base : Word) (flags : BitVec 32) (i n : Nat) (ok : Bool)
    (v' : Vmm) : Prop where
  keeps : v.Keeps v'
  /-- No other page moved. -/
  other : ∀ a, Canonical a → (∀ k, i ≤ k → k < i + n → ¬ samePage a (pageFrom base k)) →
    v'.walk a = v.walk a
  /-- On success every page has a frame of its own. -/
  mapped : ok = true → ∃ fs : List Nat, fs.length = n ∧ fs.Nodup ∧
    (∀ f ∈ fs, f ∈ v.pmm.freeSet ∧ v'.Data f) ∧
    ∀ k (hk : k < fs.length), v'.walk (pageFrom base (i + k)) =
      .leaf (frameAddr fs[k] ||| translateFlags flags)

theorem canonical_of_ge {a : Word} (h : 2 ^ 64 - 2 ^ 47 ≤ a.toNat) : Canonical a := Or.inr h

theorem pageFrom_ne {base : Word} {j k : Nat} (hj : base.toNat + 4096 * j < 2 ^ 64)
    (hk : base.toNat + 4096 * k < 2 ^ 64) (hne : j ≠ k) :
    ¬ samePage (pageFrom base j) (pageFrom base k) := by
  unfold samePage
  rw [toNat_pageFrom hj, toNat_pageFrom hk]
  omega

/-- Mapping the first page, then the rest. -/
theorem PagesMapped.cons {v v₁ v' : Vmm} {base : Word} {flags : BitVec 32} {i n f : Nat} {ok : Bool}
    (hfit : base.toNat + 4096 * (i + (n + 1)) < 2 ^ 64) (hbase : 2 ^ 64 - 2 ^ 47 ≤ base.toNat)
    (hwas : f ∈ v.pmm.freeSet) (hkeeps : v.Keeps v₁) (hdata : v₁.Data f)
    (hself : v₁.walk (pageFrom base i) = .leaf (frameAddr f ||| translateFlags flags))
    (hother : ∀ a, Canonical a → ¬ samePage a (pageFrom base i) → v₁.walk a = v.walk a)
    (h : PagesMapped v₁ base flags (i + 1) n ok v') :
    PagesMapped v base flags i (n + 1) ok v' := by
  refine ⟨hkeeps.trans h.keeps, fun a ha hne => ?_, fun hok => ?_⟩
  · rw [h.other a ha (fun k hlo hhi => hne k (by omega) (by omega)),
      hother a ha (hne i (Nat.le_refl i) (by omega))]
  · obtain ⟨fs, hlen, hnodup, hfs, hwalk⟩ := h.mapped hok
    refine ⟨f :: fs, by simp [hlen], ?_, ?_, ?_⟩
    · exact List.nodup_cons.mpr ⟨fun hf => hdata.2.1 (hfs f hf).1, hnodup⟩
    · intro g hg
      rcases List.mem_cons.mp hg with rfl | hg
      · exact ⟨hwas, h.keeps.dataStays hdata⟩
      · exact ⟨hkeeps.freeSet (hfs g hg).1, (hfs g hg).2⟩
    · intro k hk
      cases k with
      | zero =>
          have hcanon : Canonical (pageFrom base i) :=
            canonical_of_ge (by rw [toNat_pageFrom (by omega)]; omega)
          refine (h.other _ hcanon (fun k hlo hhi => ?_)).trans hself
          exact pageFrom_ne (by omega) (by omega) (by omega)
      | succ k =>
          rw [show i + (k + 1) = i + 1 + k by omega]
          exact hwalk k (by simpa using hk)

theorem mapGuardedPages_spec {base : Word} (flags : BitVec 32)
    (hbase : 2 ^ 64 - 2 ^ 47 ≤ base.toNat) :
    ∀ (n i : Nat) (v : Vmm), v.WF → base.toNat + 4096 * (i + n) < 2 ^ 64 →
    (∀ k, i ≤ k → k < i + n → v.walk (pageFrom base k) = .notPresent) →
    ∃ ok v', mapGuardedPages base flags n (BitVec.ofNat 64 i) v = .ok (ok, v') ∧
      PagesMapped v base flags i n ok v' := by
  intro n
  induction n with
  | zero =>
      intro i v wf _ _
      exact ⟨true, v, rfl, .refl wf, fun _ _ _ => rfl, fun _ => ⟨[], rfl, .nil, by simp, by simp⟩⟩
  | succ n ih =>
      intro i v wf hfit hempty
      have hcanon : Canonical (pageFrom base i) :=
        canonical_of_ge (by rw [toNat_pageFrom (by omega)]; omega)
      simp only [mapGuardedPages, pageFrom_eq_loop, ofNat_add_one]
      rcases Vmm.alloc_cases wf with ⟨_, hnone⟩ | ⟨f, q, halloc, hne, hok⟩
      · refine ⟨false, v, ?_, .refl wf, fun _ _ _ => rfl, fun h => absurd h (by simp)⟩
        simp only [hnone, if_true]
        rfl
      have hlarge : v.NoLargePage (pageFrom base i) :=
        Vmm.noLargePage_iff.mpr (.inl (hempty i (Nat.le_refl i) (by omega)))
      have hfresh := Vmm.mapFresh_spec wf hok hlarge flags
      simp only [halloc, if_neg hne]
      rcases hcall : vmmMap (v.withPmm q) (pageFrom base i) (frameAddr f) flags with ⟨ok, v₁⟩
      rw [hcall] at hfresh
      have hother : ∀ a, Canonical a → ¬ samePage a (pageFrom base i) → v₁.walk a = v.walk a :=
        fun a ha hne => hfresh.other a (fun h => hne ((sameIndices_iff_samePage ha hcanon).mp h))
      cases ok with
      | true =>
          obtain ⟨ok', v', hrest, hmapped⟩ := ih (i + 1) v₁ hfresh.keeps.wf (by omega)
            (fun k hlo hhi => by
              rw [hother _ (canonical_of_ge (by rw [toNat_pageFrom (by omega)]; omega))
                (pageFrom_ne (by omega) (by omega) (by omega))]
              exact hempty k (by omega) (by omega))
          exact ⟨ok', v', hrest, .cons hfit hbase hfresh.wasFree hfresh.keeps hfresh.data
            (hfresh.mapped rfl) hother hmapped⟩
      | false =>
          -- the frame allocated for the page goes back
          obtain ⟨q', hq', hwf, hbm, hfc, hfree, htable, hmem, hwalk⟩ := hfresh.giveBack wf
          refine ⟨false, v₁.withPmm q', ?_, hfresh.keeps.free hfresh.wasFree hwf hbm hfc hfree htable
            hmem, fun a _ _ => ?_, fun h => absurd h (by simp)⟩
          · simp only [hq']
          · rw [hwalk, hfresh.failed rfl]

/-! ## The two windows -/

/-- Page `j` of the dynamic window; from page `2 ^ 16` on, of the MMIO window. -/
@[irreducible] def windowPage (j : Nat) : Word := pageFrom vmmDynamicVbase j

/-- The dynamic window's size in pages. -/
def dynamicPages : Nat := 2 ^ 16

/-- The MMIO window reaches to the end of the address space. -/
def mmioPages : Nat := 2 ^ 18

theorem windowPage_toNat {j : Nat} (h : j < dynamicPages + mmioPages) :
    (windowPage j).toNat = vmmDynamicVbase.toNat + 4096 * j := by
  unfold dynamicPages mmioPages at h
  rw [windowPage]
  exact toNat_pageFrom (by rw [show vmmDynamicVbase.toNat = 0xffffffffb0000000 from rfl]; omega)

theorem windowPage_canonical {j : Nat} (h : j < dynamicPages + mmioPages) :
    Canonical (windowPage j) := by
  refine canonical_of_ge ?_
  rw [windowPage_toNat h, show vmmDynamicVbase.toNat = 0xffffffffb0000000 from rfl]
  omega

theorem windowPage_ne {j k : Nat} (hj : j < dynamicPages + mmioPages)
    (hk : k < dynamicPages + mmioPages) (hne : j ≠ k) :
    ¬ samePage (windowPage j) (windowPage k) := by
  unfold samePage
  rw [windowPage_toNat hj, windowPage_toNat hk]
  omega

theorem pageFrom_windowPage (i j : Nat) : pageFrom (windowPage i) j = windowPage (i + j) := by
  simp only [windowPage, pageFrom, Nat.mul_add, BitVec.ofNat_add, BitVec.add_assoc]

theorem windowPage_add_pageSize (j : Nat) : windowPage j + pageSize = windowPage (j + 1) :=
  pageFrom_windowPage j 1

theorem windowPage_add_mul (j : Nat) (count : Word) :
    windowPage j + count * pageSize = windowPage (j + count.toNat) := by
  rw [← pageFrom_windowPage, pageFrom, BitVec.ofNat_mul, BitVec.ofNat_toNat, BitVec.setWidth_eq,
    BitVec.mul_comm]
  rfl

theorem windowPage_sub_pageSize (j : Nat) : windowPage (j + 1) - pageSize = windowPage j := by
  rw [← windowPage_add_pageSize, BitVec.add_sub_cancel]

theorem windowPage_mmio : vmmMmioVbase = windowPage dynamicPages := by
  rw [windowPage]
  decide

/-! ## Runs -/

/-- A non-`NULL` result, and the frames that were free when it was asked for. -/
structure GuardedBlock where
  start : Word
  count : Word
  flags : BitVec 32
  freeBefore : Finset Nat

/-- The paging state, the results so far, the pages taken from the dynamic
window (page counts plus two a call), and the number of MMIO calls. -/
structure GuardedState where
  vmm : Vmm
  blocks : List GuardedBlock
  pages : Nat
  mmioCalls : Nat

inductive GuardedCall
  | alloc (count : Word) (flags : BitVec 32) (result : Option Word)
  | mmio (phys : Word) (result : Word)

def guardedSystem (v₀ : Vmm) : System GuardedState GuardedCall where
  init s := s.vmm = v₀ ∧ s.blocks = [] ∧ s.pages = 0 ∧ s.mmioCalls = 0
  step s e s' :=
    match e with
    | .alloc count flags result =>
        vmmAllocGuarded s.vmm count flags = .ok (result, s'.vmm) ∧
        s'.blocks = (match result with
          | some start => ⟨start, count, flags, s.vmm.pmm.freeSet⟩ :: s.blocks
          | none => s.blocks) ∧
        s'.pages = s.pages + (count.toNat + 2) ∧ s'.mmioCalls = s.mmioCalls
    | .mmio phys result =>
        vmmMapMmio s.vmm phys = .ok (result, s'.vmm) ∧
        s'.blocks = s.blocks ∧ s'.pages = s.pages ∧ s'.mmioCalls = s.mmioCalls + 1

/-- The address space before the first call: nothing is mapped in the dynamic
window, and no large page covers the MMIO window. Below a large page `vmm_map` maps
nothing, so neither do the calls of `vmm_map_mmio` made in between. -/
structure WindowsReady (v : Vmm) : Prop where
  wf : v.WF
  dynamicNext : v.dynamicNextVaddr = vmmDynamicVbase
  mmioNext : v.mmioNextVaddr = vmmMmioVbase
  empty : ∀ j < dynamicPages, v.walk (windowPage j) = .notPresent
  small : ∀ j < mmioPages, v.NoLargePage (windowPage (dynamicPages + j))

/-- The block that takes pages `k` to `k + count + 1` of the window. -/
structure BlockAt (v : Vmm) (b : GuardedBlock) (k : Nat) : Prop where
  start : b.start = windowPage (k + 1)
  guardBefore : v.walk (windowPage k) = .notPresent
  guardAfter : v.walk (windowPage (k + 1 + b.count.toNat)) = .notPresent
  mapped : ∃ fs : List Nat, fs.length = b.count.toNat ∧ fs.Nodup ∧
    (∀ f ∈ fs, f ∈ b.freeBefore ∧ v.Data f) ∧
    ∀ j (hj : j < fs.length), v.walk (windowPage (k + 1 + j)) =
      .leaf (frameAddr fs[j] ||| translateFlags b.flags)

/-- The two blocks share no page. -/
def GuardedBlock.Apart (b b' : GuardedBlock) : Prop :=
  ∀ j j', j < b.count.toNat → j' < b'.count.toNat →
    ¬ samePage (pageFrom b.start j) (pageFrom b'.start j')

structure GuardedInv (s : GuardedState) : Prop where
  wf : s.vmm.WF
  dynamicNext : s.vmm.dynamicNextVaddr = windowPage s.pages
  mmioNext : s.vmm.mmioNextVaddr = windowPage (dynamicPages + s.mmioCalls)
  empty : ∀ j, s.pages ≤ j → j < dynamicPages → s.vmm.walk (windowPage j) = .notPresent
  small : ∀ j < mmioPages, s.vmm.NoLargePage (windowPage (dynamicPages + j))
  blocks : ∀ b ∈ s.blocks, ∃ k, k + (b.count.toNat + 2) ≤ s.pages ∧ BlockAt s.vmm b k
  apart : s.blocks.Pairwise GuardedBlock.Apart

section Runs

variable {v v' : Vmm} {s s' : GuardedState}

/-- An operation that moves none of the block's pages keeps it. -/
theorem BlockAt.keeps {b : GuardedBlock} {k : Nat} (h : BlockAt v b k) (hkeeps : v.Keeps v')
    (hwalk : ∀ j, k ≤ j → j < k + (b.count.toNat + 2) →
      v'.walk (windowPage j) = v.walk (windowPage j)) : BlockAt v' b k := by
  obtain ⟨fs, hlen, hnodup, hfs, hleaf⟩ := h.mapped
  refine ⟨h.start, ?_, ?_, fs, hlen, hnodup, ?_, ?_⟩
  · rw [hwalk k (by omega) (by omega)]
    exact h.guardBefore
  · rw [hwalk _ (by omega) (by omega)]
    exact h.guardAfter
  · exact fun f hf => ⟨(hfs f hf).1, hkeeps.dataStays (hfs f hf).2⟩
  · intro j hj
    rw [hwalk _ (by omega) (by omega)]
    exact hleaf j hj

/-- The statics do not matter to translations. -/
theorem BlockAt.congr {b : GuardedBlock} {k : Nat} (h : BlockAt v b k) (hpmm : v'.pmm = v.pmm)
    (hcr3 : v'.cr3 = v.cr3) : BlockAt v' b k := by
  obtain ⟨pmm, cr3, _, _, _⟩ := v
  obtain ⟨pmm', cr3', _, _, _⟩ := v'
  obtain rfl : pmm' = pmm := hpmm
  obtain rfl : cr3' = cr3 := hcr3
  exact ⟨h.start, h.guardBefore, h.guardAfter, h.mapped⟩

/-- A guarded call advances the window by its pages and its two guards, and
maps pages between the guards only. It never panics: the frame it hands back
when a mapping fails is the one it has just taken. -/
theorem vmmAllocGuarded_spec {k : Nat} (wf : v.WF) (count : Word) (flags : BitVec 32)
    (hnext : v.dynamicNextVaddr = windowPage k) (hfit : k + 1 + count.toNat ≤ dynamicPages)
    (hempty : ∀ j, k ≤ j → j < dynamicPages → v.walk (windowPage j) = .notPresent) :
    ∃ result v', vmmAllocGuarded v count flags = .ok (result, v') ∧
      PagesMapped { v with dynamicNextVaddr := windowPage (k + (count.toNat + 2)) }
        (windowPage (k + 1)) flags 0 count.toNat result.isSome v' ∧
      ∀ start, result = some start → start = windowPage (k + 1) := by
  have hstart : v.dynamicNextVaddr + pageSize = windowPage (k + 1) := by
    rw [hnext, windowPage_add_pageSize]
  have hend : windowPage (k + 1) + count * pageSize + pageSize =
      windowPage (k + (count.toNat + 2)) := by
    rw [windowPage_add_mul, windowPage_add_pageSize]
    congr 1
    omega
  simp only [vmmAllocGuarded, hstart, hend]
  set v₁ : Vmm := { v with dynamicNextVaddr := windowPage (k + (count.toNat + 2)) } with hv₁
  have wf₁ : v₁.WF := wf.congr rfl rfl
  unfold dynamicPages at hfit
  have hbase : (windowPage (k + 1)).toNat = vmmDynamicVbase.toNat + 4096 * (k + 1) :=
    windowPage_toNat (by unfold dynamicPages mmioPages; omega)
  rw [show vmmDynamicVbase.toNat = 0xffffffffb0000000 from rfl] at hbase
  have hge : 2 ^ 64 - 2 ^ 47 ≤ (windowPage (k + 1)).toNat := by
    rw [hbase]
    exact Nat.le_trans (by decide) (Nat.le_add_right _ _)
  have hroom : (windowPage (k + 1)).toNat + 4096 * (0 + count.toNat) < 2 ^ 64 := by
    rw [hbase]
    omega
  obtain ⟨ok, w, hloop, hmapped⟩ := mapGuardedPages_spec flags hge count.toNat 0 v₁ wf₁
    hroom (fun j _ hj => by
      rw [pageFrom_windowPage]
      exact hempty _ (by omega) (by unfold dynamicPages; omega))
  rw [show (BitVec.ofNat 64 0 : Word) = 0 from rfl] at hloop
  rw [hloop]
  cases ok with
  | true => exact ⟨_, w, rfl, hmapped, fun start h => (Option.some.inj h).symm⟩
  | false => exact ⟨_, w, rfl, hmapped, fun start h => absurd h (by simp)⟩

/-- The pages of the window a guarded call leaves alone. -/
theorem PagesMapped.window {k n : Nat} {flags : BitVec 32} {ok : Bool}
    (h : PagesMapped v (windowPage (k + 1)) flags 0 n ok v') (hn : k + 1 + n ≤ dynamicPages)
    {j : Nat} (hj : j < dynamicPages + mmioPages) (hout : j ≤ k ∨ k + 1 + n ≤ j) :
    v'.walk (windowPage j) = v.walk (windowPage j) := by
  refine h.other _ (windowPage_canonical hj) (fun i _ hi => ?_)
  rw [pageFrom_windowPage]
  exact windowPage_ne hj (by omega) (by omega)

/-- A block above the pages taken so far shares no page with an older one. -/
theorem apart_of_below {b b' : GuardedBlock} {k k' : Nat} (hb : b.start = windowPage (k + 1))
    (hb' : b'.start = windowPage (k' + 1)) (hbelow : k' + (b'.count.toNat + 2) ≤ k)
    (hfit : k + (b.count.toNat + 2) ≤ dynamicPages) : b.Apart b' := by
  intro j j' hj hj'
  rw [hb, hb', pageFrom_windowPage, pageFrom_windowPage]
  exact windowPage_ne (by omega) (by omega) (by omega)

theorem GuardedInv.alloc (h : GuardedInv s) {count : Word} {flags : BitVec 32}
    {result : Option Word} {v₀ : Vmm}
    (hstep : (guardedSystem v₀).step s (.alloc count flags result) s')
    (hfit : s'.pages ≤ dynamicPages) : GuardedInv s' := by
  obtain ⟨w, blocks, pages, mmioCalls⟩ := s'
  obtain ⟨hcall, hblocks, hpages, hmmio⟩ := hstep
  obtain rfl : pages = s.pages + (count.toNat + 2) := hpages
  obtain rfl : mmioCalls = s.mmioCalls := hmmio
  dsimp only at hblocks hfit
  change vmmAllocGuarded s.vmm count flags = .ok (result, w) at hcall
  obtain ⟨result', w', hspec, hmapped, hstart⟩ :=
    vmmAllocGuarded_spec h.wf count flags h.dynamicNext (by omega) h.empty
  obtain ⟨rfl, rfl⟩ := Prod.mk.inj (Except.ok.inj (hcall.symm.trans hspec))
  have hkeeps := hmapped.keeps
  have hwindow : ∀ j, j < dynamicPages + mmioPages → (j ≤ s.pages ∨ s.pages + 1 + count.toNat ≤ j) →
      w.walk (windowPage j) = s.vmm.walk (windowPage j) :=
    fun j hj hout => hmapped.window (by omega) hj hout
  -- earlier blocks end below the pages this call maps
  have hold : ∀ b ∈ s.blocks, ∃ k, k + (b.count.toNat + 2) ≤ s.pages ∧ BlockAt w b k := by
    intro b hb
    obtain ⟨k, hk, hblock⟩ := h.blocks b hb
    refine ⟨k, hk, BlockAt.keeps
      (v := { s.vmm with dynamicNextVaddr := windowPage (s.pages + (count.toNat + 2)) })
      (hblock.congr rfl rfl) hkeeps (fun j hlo hhi => ?_)⟩
    exact hwindow j (by omega) (by omega)
  -- the pages at both ends of the new block stay unmapped
  have hnew : ∀ start, result = some start →
      BlockAt w ⟨start, count, flags, s.vmm.pmm.freeSet⟩ s.pages := by
    intro start hresult
    obtain ⟨fs, hlen, hnodup, hfs, hleaf⟩ := hmapped.mapped (by rw [hresult]; rfl)
    refine ⟨hstart start hresult, ?_, ?_, fs, hlen, hnodup, hfs, fun j hj => ?_⟩
    · exact (hwindow _ (by omega) (by omega)).trans (h.empty _ (Nat.le_refl _) (by omega))
    · change w.walk (windowPage (s.pages + 1 + count.toNat)) = _
      exact (hwindow _ (by omega) (by omega)).trans (h.empty _ (by omega) (by omega))
    · have hj' := hleaf j hj
      rw [Nat.zero_add, pageFrom_windowPage] at hj'
      exact hj'
  have hnext : w.dynamicNextVaddr = windowPage (s.pages + (count.toNat + 2)) := by
    rw [hkeeps.statics]
    rfl
  have hmmioNext : w.mmioNextVaddr = s.vmm.mmioNextVaddr := by
    rw [hkeeps.statics]
    rfl
  refine ⟨hkeeps.wf, hnext, hmmioNext.trans h.mmioNext, ?_, ?_, ?_, ?_⟩
  · intro j hlo hhi
    change s.pages + (count.toNat + 2) ≤ j at hlo
    exact (hwindow j (by omega) (by omega)).trans (h.empty j (by omega) hhi)
  · intro j hj
    exact (h.small j hj).congr
      (hwindow (dynamicPages + j) (Nat.add_lt_add_left hj _) (.inr (by omega)))
  · intro b hb
    dsimp only at hb
    rw [hblocks] at hb
    change ∃ k, k + (b.count.toNat + 2) ≤ s.pages + (count.toNat + 2) ∧ BlockAt w b k
    have hmem : b ∈ s.blocks → ∃ k, k + (b.count.toNat + 2) ≤ s.pages + (count.toNat + 2) ∧
        BlockAt w b k := by
      intro hb
      obtain ⟨k, hk, hblock⟩ := hold b hb
      exact ⟨k, by omega, hblock⟩
    cases result with
    | none => exact hmem hb
    | some start =>
        rcases List.mem_cons.mp hb with rfl | hb
        · exact ⟨s.pages, Nat.le_refl _, hnew start rfl⟩
        · exact hmem hb
  · change blocks.Pairwise _
    rw [hblocks]
    cases result with
    | none => exact h.apart
    | some start =>
        refine List.pairwise_cons.mpr ⟨fun b hb => ?_, h.apart⟩
        obtain ⟨k, hk, hblock⟩ := h.blocks b hb
        exact apart_of_below (by rw [hstart start rfl]) hblock.start hk hfit

/-- The leaf `vmm_map_mmio` installs. -/
def mmioLeaf (phys : Word) : Word :=
  Vmm.leafEntry phys (vmmWritable ||| vmmNoCache ||| vmmNoExecute)

/-- `vmm_map_mmio` maps the page its pointer is at and no other. -/
theorem vmmMapMmio_page {phys virt : Word} (wf : v.WF) (hsmall : v.NoLargePage v.mmioNextVaddr)
    (hcall : vmmMapMmio v phys = .ok (virt, v')) :
    virt = v.mmioNextVaddr ∧
    Vmm.Keeps { v with mmioNextVaddr := v.mmioNextVaddr + pageSize } v' ∧
    v'.walk v.mmioNextVaddr = .leaf (mmioLeaf phys) ∧
    ∀ a, ¬ sameIndices a v.mmioNextVaddr → v'.walk a = v.walk a := by
  unfold vmmMapMmio at hcall
  dsimp only at hcall
  set v₁ : Vmm := { v with mmioNextVaddr := v.mmioNextVaddr + pageSize } with hv₁
  have hwalk : ∀ a, v₁.walk a = v.walk a := Vmm.walk_congr rfl rfl
  have hlarge : v₁.NoLargePage v.mmioNextVaddr := hsmall.congr (hwalk _)
  have wf₁ : v₁.WF := wf.congr rfl rfl
  obtain ⟨hkeeps, hcases⟩ := Vmm.vmmMap_spec wf₁ hlarge phys
    (vmmWritable ||| vmmNoCache ||| vmmNoExecute)
  rcases hmap : vmmMap v₁ v.mmioNextVaddr phys (vmmWritable ||| vmmNoCache ||| vmmNoExecute) with
    ⟨ok, w⟩
  rw [hmap] at hcall hkeeps hcases
  cases ok with
  | false => exact absurd hcall (by simp)
  | true =>
      obtain ⟨rfl, rfl⟩ := Prod.mk.inj (Except.ok.inj hcall)
      rcases hcases with ⟨hfail, -⟩ | ⟨-, hself, hother⟩
      · exact absurd hfail (by simp)
      · exact ⟨rfl, hkeeps, hself _ rfl rfl, fun a ha =>
          (hother a (by rw [← not_and_or]; exact ha)).trans (hwalk a)⟩

/-- In its window, that is the next page. -/
theorem vmmMapMmio_spec {j : Nat} {phys virt : Word} (wf : v.WF)
    (hnext : v.mmioNextVaddr = windowPage (dynamicPages + j)) (hj : j < mmioPages)
    (hsmall : v.NoLargePage (windowPage (dynamicPages + j)))
    (hcall : vmmMapMmio v phys = .ok (virt, v')) :
    virt = windowPage (dynamicPages + j) ∧
    Vmm.Keeps { v with mmioNextVaddr := windowPage (dynamicPages + (j + 1)) } v' ∧
    v'.walk (windowPage (dynamicPages + j)) = .leaf (mmioLeaf phys) ∧
    ∀ a, Canonical a → ¬ samePage a (windowPage (dynamicPages + j)) → v'.walk a = v.walk a := by
  obtain ⟨hresult, hkeeps, hleaf, hother⟩ := vmmMapMmio_page wf (hnext ▸ hsmall) hcall
  rw [hnext] at hresult hkeeps hleaf hother
  rw [windowPage_add_pageSize, show dynamicPages + j + 1 = dynamicPages + (j + 1) by omega]
    at hkeeps
  have hmem : dynamicPages + j < dynamicPages + mmioPages := by omega
  refine ⟨hresult, hkeeps, hleaf, fun a ha hne => hother a (fun hindices => hne ?_)⟩
  exact (sameIndices_iff_samePage ha (windowPage_canonical hmem)).mp hindices

theorem GuardedInv.mmio (h : GuardedInv s) {phys result : Word} {v₀ : Vmm}
    (hstep : (guardedSystem v₀).step s (.mmio phys result) s')
    (hpages : s.pages ≤ dynamicPages) (hfit : s'.mmioCalls ≤ mmioPages) : GuardedInv s' := by
  obtain ⟨w, blocks, pages, mmioCalls⟩ := s'
  obtain ⟨hcall, hblocks, hsame, hmmio⟩ := hstep
  obtain rfl : blocks = s.blocks := hblocks
  obtain rfl : pages = s.pages := hsame
  obtain rfl : mmioCalls = s.mmioCalls + 1 := hmmio
  dsimp only at hfit hcall
  obtain ⟨-, hkeeps, hleaf, hmoved⟩ :=
    vmmMapMmio_spec h.wf h.mmioNext (by omega) (h.small _ (by omega)) hcall
  have hother : ∀ k, k < dynamicPages + mmioPages → k ≠ dynamicPages + s.mmioCalls →
      w.walk (windowPage k) = s.vmm.walk (windowPage k) :=
    fun k hk hne => hmoved _ (windowPage_canonical hk) (windowPage_ne hk (by omega) hne)
  have hdynamic : ∀ j, j < dynamicPages → w.walk (windowPage j) = s.vmm.walk (windowPage j) :=
    fun j hj => hother j (by omega) (by omega)
  have hdynamicNext : w.dynamicNextVaddr = s.vmm.dynamicNextVaddr := by
    rw [hkeeps.statics]
    rfl
  have hmmioNext : w.mmioNextVaddr = windowPage (dynamicPages + (s.mmioCalls + 1)) := by
    rw [hkeeps.statics]
    rfl
  refine ⟨hkeeps.wf, hdynamicNext.trans h.dynamicNext, hmmioNext, ?_, ?_, ?_, h.apart⟩
  · exact fun j hlo hhi => (hdynamic j hhi).trans (h.empty j hlo hhi)
  · intro j hj
    by_cases hcur : j = s.mmioCalls
    · rw [hcur]
      exact Vmm.noLargePage_iff.mpr (.inr ⟨_, hleaf⟩)
    · exact (h.small j hj).congr (hother _ (Nat.add_lt_add_left hj _) (by omega))
  · intro b hb
    obtain ⟨k, hk, hblock⟩ := h.blocks b hb
    refine ⟨k, hk, BlockAt.keeps
      (v := { s.vmm with mmioNextVaddr := windowPage (dynamicPages + (s.mmioCalls + 1)) })
      (hblock.congr rfl rfl) hkeeps (fun j hlo hhi => ?_)⟩
    exact hdynamic j (by omega)

/-- The invariant holds for as long as the calls fit the windows. -/
theorem guardedInv_of_fits {v₀ : Vmm} (hready : WindowsReady v₀) :
    (guardedSystem v₀).Invariant
      (fun s => s.pages ≤ dynamicPages → s.mmioCalls ≤ mmioPages → GuardedInv s) := by
  refine System.Inductive.invariant ⟨?_, fun s e s' h hstep => ?_⟩
  · rintro ⟨v, blocks, pages, mmioCalls⟩ ⟨hv, hblocks, hpages, hmmio⟩ _ _
    dsimp only at hv hblocks hpages hmmio
    subst hv hblocks hpages hmmio
    refine ⟨hready.wf, ?_, ?_, fun j _ hj => hready.empty j hj, hready.small, by simp, .nil⟩
    · rw [windowPage]
      exact hready.dynamicNext
    · rw [Nat.add_zero, ← windowPage_mmio]
      exact hready.mmioNext
  · cases e with
    | alloc count flags result =>
        intro hpages hmmio
        have hgrow : s'.pages = s.pages + (count.toNat + 2) := hstep.2.2.1
        have hcalls : s'.mmioCalls = s.mmioCalls := hstep.2.2.2
        exact (h (by omega) (by omega)).alloc hstep hpages
    | mmio phys result =>
        intro hpages hmmio
        have hsame : s'.pages = s.pages := hstep.2.2.1
        have hgrow : s'.mmioCalls = s.mmioCalls + 1 := hstep.2.2.2
        exact (h (by omega) (by omega)).mmio hstep (by omega) hmmio

end Runs

/-- **Guarded allocations.** As long as the page counts plus two guard pages a
call fit the dynamic window and there are at most `2 ^ 18` MMIO calls, every
result so far is mapped, page by page, to frames that were free when it was
asked for and are nobody else's; no page of one result is a page of another;
and the pages right before and right after each result are not present. -/
theorem vmm_alloc_guarded_correct {v₀ : Vmm} (hready : WindowsReady v₀) {s : GuardedState}
    (hs : (guardedSystem v₀).Reachable s)
    (hpages : s.pages * 4096 ≤ vmmMmioVbase.toNat - vmmDynamicVbase.toNat)
    (hmmio : s.mmioCalls ≤ 2 ^ 18) :
    s.blocks.Pairwise GuardedBlock.Apart ∧
    ∀ b ∈ s.blocks,
      s.vmm.walk (b.start - pageSize) = .notPresent ∧
      s.vmm.walk (b.start + b.count * pageSize) = .notPresent ∧
      ∃ fs : List Nat, fs.length = b.count.toNat ∧ fs.Nodup ∧
        (∀ f ∈ fs, f ∈ b.freeBefore ∧ f ∉ s.vmm.pmm.freeSet) ∧
        ∀ j (hj : j < fs.length), s.vmm.walk (pageFrom b.start j) =
          .leaf (frameAddr fs[j] ||| translateFlags b.flags) := by
  have hfit : s.pages ≤ dynamicPages := by
    rw [show vmmMmioVbase.toNat - vmmDynamicVbase.toNat = 2 ^ 16 * 4096 from rfl] at hpages
    exact Nat.le_of_mul_le_mul_right hpages (by decide)
  have h := guardedInv_of_fits hready s hs hfit hmmio
  refine ⟨h.apart, fun b hb => ?_⟩
  obtain ⟨k, hk, hblock⟩ := h.blocks b hb
  obtain ⟨fs, hlen, hnodup, hfs, hleaf⟩ := hblock.mapped
  rw [hblock.start, windowPage_sub_pageSize, windowPage_add_mul]
  refine ⟨hblock.guardBefore, hblock.guardAfter, fs, hlen, hnodup, ?_, fun j hj => ?_⟩
  · exact fun f hf => ⟨(hfs f hf).1, (hfs f hf).2.2.1⟩
  · rw [pageFrom_windowPage]
    exact hleaf j hj

theorem emptyTables_windowsReady : WindowsReady emptyTables :=
  ⟨emptyTables_wf, rfl, rfl, fun _ _ => emptyTables_walk _,
   fun _ _ => Vmm.noLargePage_iff.mpr (.inl (emptyTables_walk _))⟩

/-- One call for two pages from the empty address space. -/
theorem vmm_alloc_guarded_correct_emptyTables :
    ∃ s : GuardedState, s.pages = 4 ∧ ∀ b ∈ s.blocks,
      s.vmm.walk (b.start - pageSize) = .notPresent ∧
      s.vmm.walk (b.start + b.count * pageSize) = .notPresent := by
  have hready := emptyTables_windowsReady
  obtain ⟨result, v, hcall, _⟩ := vmmAllocGuarded_spec (k := 0) hready.wf 2 vmmWritable
    (by rw [windowPage]; rfl) (by decide) (fun j _ hj => hready.empty j hj)
  have hstep : (guardedSystem emptyTables).step ⟨emptyTables, [], 0, 0⟩ (.alloc 2 vmmWritable result)
      ⟨v, _, 4, 0⟩ := ⟨hcall, rfl, rfl, rfl⟩
  have h := vmm_alloc_guarded_correct hready (.step (.init ⟨rfl, rfl, rfl, rfl⟩) hstep)
    (show 4 * 4096 ≤ vmmMmioVbase.toNat - vmmDynamicVbase.toNat by decide) (Nat.zero_le _)
  exact ⟨_, rfl, fun b hb => ⟨(h.2 b hb).1, (h.2 b hb).2.1⟩⟩

end QuinKernel
