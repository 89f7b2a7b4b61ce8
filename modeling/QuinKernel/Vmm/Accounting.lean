import QuinKernel.Vmm.Guarded

/-!
# Where allocated frames go

A frame taken from the frame allocator during a call of `vmm.c` should end up
as a table of the tree, as the frame behind one of the pages the call maps, or
free again (`Vmm.Accounts`). `vmm_map` takes frames for tables only, and links
every one. `vmm_alloc_guarded` hands the frame of a page back when mapping the
page fails. `vmm_handle_page_fault` does not: a fault that finds a frame for
the page but not enough for the tables above it loses that frame, and no other
fault does.
-/

namespace QuinKernel

open Machine RadixTree

namespace Vmm

/-- Page `virt` translates to frame `f`. -/
def Backs (v : Vmm) (f : Nat) (virt : Word) : Prop :=
  ∃ e, v.walk virt = .leaf e ∧ entryFrame e = f

/-- Every frame that was free before a call that maps `pages` is still free, a
table, or the frame behind one of these pages. -/
def Accounts (v v' : Vmm) (pages : Word → Prop) : Prop :=
  ∀ f ∈ v.pmm.freeSet, f ∈ v'.pmm.freeSet ∨ v'.Table f ∨ ∃ virt, pages virt ∧ v'.Backs f virt

end Vmm

section Calls

variable {v v' : Vmm} {f : Nat} {base virt : Word}

theorem Vmm.Linked.accounts (h : v.Linked v') (pages : Word → Prop) : v.Accounts v' pages := by
  intro f hf
  rcases h.frames f hf with hfree | htab
  · exact .inl hfree
  · exact .inr (.inl htab)

/-- A mapped leaf backs its page with the frame it was given. -/
theorem Vmm.MappedFresh.backs {page : Word} {flags : BitVec 32} (wf : v.WF)
    (h : Vmm.MappedFresh v page f flags true v') : v'.Backs f page :=
  ⟨_, h.mapped rfl,
    entryFrame_leaf (Nat.lt_of_lt_of_le (Pmm.freeSet_lt h.wasFree) wf.physical) flags⟩

/-! ## The loop of `vmm_alloc_guarded` -/

/-- Pages that are fewer than `2 ^ 36` apart have different indices. -/
theorem pageFrom_sameIndices {j k : Nat} (h : sameIndices (pageFrom base j) (pageFrom base k)) :
    j % 2 ^ 36 = k % 2 ^ 36 := by
  have htoNat : ∀ n, (pageFrom base n).toNat = (base.toNat + 4096 * n) % 2 ^ 64 := by
    intro n
    rw [pageFrom, BitVec.toNat_add, BitVec.toNat_ofNat, Nat.add_mod_mod]
  rw [sameIndices_iff, htoNat, htoNat] at h
  omega

/-- What mapping at most `m` pages from the `i`-th above `base` on did, in
terms of frames. -/
structure PagesAccounted (v : Vmm) (base : Word) (i m : Nat) (v' : Vmm) : Prop where
  wf : v'.WF
  tables : ∀ t, v.Table t → v'.Table t
  other : ∀ a, (∀ k, i ≤ k → k < i + m → ¬ sameIndices a (pageFrom base k)) →
    v'.walk a = v.walk a
  frames : ∀ f ∈ v.pmm.freeSet, f ∈ v'.pmm.freeSet ∨ v'.Table f ∨
    ∃ k, i ≤ k ∧ k < i + m ∧ v'.Backs f (pageFrom base k)

theorem PagesAccounted.refl (wf : v.WF) (base : Word) (i m : Nat) : PagesAccounted v base i m v :=
  ⟨wf, fun _ h => h, fun _ _ => rfl, fun _ h => .inl h⟩

/-- The first page was mapped, then the rest. -/
theorem PagesAccounted.cons {v₁ : Vmm} {flags : BitVec 32} {i m : Nat} (wf : v.WF)
    (hm : m + 1 ≤ 2 ^ 36) (hfresh : Vmm.MappedFresh v (pageFrom base i) f flags true v₁)
    (h : PagesAccounted v₁ base (i + 1) m v') : PagesAccounted v base i (m + 1) v' := by
  refine ⟨h.wf, fun t ht => h.tables t (hfresh.tables t ht), fun a ha => ?_, fun g hg => ?_⟩
  · rw [h.other a (fun k hlo hhi => ha k (by omega) (by omega)),
      hfresh.other a (ha i (Nat.le_refl i) (by omega))]
  · by_cases hgf : g = f
    · -- the later pages leave the first one alone
      obtain ⟨e, hleaf, he⟩ := hfresh.backs wf
      refine .inr (.inr ⟨i, Nat.le_refl i, by omega, e, ?_, by rw [he, hgf]⟩)
      rw [h.other _ (fun k hlo hhi hsame => ?_), hleaf]
      have := pageFrom_sameIndices hsame
      omega
    · rcases hfresh.frames g hg hgf with hfree | htab
      · rcases h.frames g hfree with hfree' | htab' | ⟨k, hlo, hhi, hbacks⟩
        · exact .inl hfree'
        · exact .inr (.inl htab')
        · exact .inr (.inr ⟨k, by omega, by omega, hbacks⟩)
      · exact .inr (.inl (h.tables g htab))

/-- The page could not be mapped, and its frame went back. -/
theorem PagesAccounted.giveBack {v₁ : Vmm} {flags : BitVec 32} {i m : Nat} {q : Pmm}
    (hfresh : Vmm.MappedFresh v (pageFrom base i) f flags false v₁) (hwf : (v₁.withPmm q).WF)
    (hfree : q.freeSet = insert f v₁.pmm.freeSet)
    (htable : ∀ t, (v₁.withPmm q).Table t ↔ v₁.Table t)
    (hwalk : ∀ a, (v₁.withPmm q).walk a = v₁.walk a) :
    PagesAccounted v base i m (v₁.withPmm q) := by
  refine ⟨hwf, fun t ht => (htable t).mpr (hfresh.tables t ht), fun a _ => ?_, fun g hg => ?_⟩
  · rw [hwalk, hfresh.failed rfl]
  · show g ∈ q.freeSet ∨ _
    rw [hfree, Finset.mem_insert]
    by_cases hgf : g = f
    · exact .inl (.inl hgf)
    · rcases hfresh.frames g hg hgf with hold | htab
      · exact .inl (.inr hold)
      · exact .inr (.inl ((htable g).mpr htab))

/-- Each page that is mapped uses up a free frame, so the loop reaches at most
as many pages as there were free frames. -/
theorem mapGuardedPages_accounted (base : Word) (flags : BitVec 32) :
    ∀ (n i m : Nat) (v : Vmm), v.WF → n ≤ m ∨ v.pmm.freeSet.card ≤ m → m ≤ 2 ^ 36 →
    (∀ k, i ≤ k → k < i + m → v.NoLargePage (pageFrom base k)) →
    ∃ ok v', mapGuardedPages base flags n (BitVec.ofNat 64 i) v = .ok (ok, v') ∧
      v.Keeps v' ∧ PagesAccounted v base i m v' := by
  intro n
  induction n with
  | zero =>
      intro i m v wf _ _ _
      exact ⟨true, v, rfl, .refl wf, .refl wf base i m⟩
  | succ n ih =>
      intro i m v wf hreach hm hsmall
      simp only [mapGuardedPages, pageFrom_eq_loop, ofNat_add_one]
      rcases Vmm.alloc_cases wf with ⟨_, hnone⟩ | ⟨f, q, halloc, hne, hok⟩
      · refine ⟨false, v, ?_, .refl wf, .refl wf base i m⟩
        simp only [hnone, if_true]
        rfl
      have hpos : 0 < v.pmm.freeSet.card := Finset.card_pos.mpr ⟨f, hok.wasFree⟩
      obtain ⟨m, rfl⟩ : ∃ k, m = k + 1 := ⟨m - 1, by omega⟩
      have hfresh := Vmm.mapFresh_spec wf hok (hsmall i (Nat.le_refl i) (by omega)) flags
      simp only [halloc, if_neg hne]
      rcases hcall : vmmMap (v.withPmm q) (pageFrom base i) (frameAddr f) flags with ⟨ok, v₁⟩
      rw [hcall] at hfresh
      cases ok with
      | true =>
          have hcard : v₁.pmm.freeSet.card < v.pmm.freeSet.card :=
            Finset.card_lt_card ⟨hfresh.keeps.freeSet, fun h => hfresh.data.2.1 (h hok.wasFree)⟩
          obtain ⟨ok', v', hrest, hkeeps, haccounted⟩ := ih (i + 1) m v₁ hfresh.keeps.wf
            (by omega) (by omega) (fun k hlo hhi => (hsmall k (by omega) (by omega)).congr
              (hfresh.other _ (fun hsame => by have := pageFrom_sameIndices hsame; omega)))
          exact ⟨ok', v', hrest, hfresh.keeps.trans hkeeps, .cons wf hm hfresh haccounted⟩
      | false =>
          obtain ⟨q', hq', hwf, hbm, hfc, hfree, htable, hmem, hwalk⟩ := hfresh.giveBack wf
          refine ⟨false, v₁.withPmm q', ?_,
            hfresh.keeps.free hfresh.wasFree hwf hbm hfc hfree htable hmem,
            .giveBack hfresh hwf hfree htable hwalk⟩
          simp only [hq']

/-- Pages below one table, with a frame for each and for the tables the first one
lacks, are all mapped. -/
theorem mapGuardedPages_enough (base : Word) (flags : BitVec 32) {p : List (Fin 512)} :
    ∀ (n i : Nat) (v : Vmm), v.WF → n ≤ 2 ^ 36 →
    (∀ k, i ≤ k → k < i + n → upperIndices (pageFrom base k) = p) →
    (∀ k, i ≤ k → k < i + n → v.NoLargePage (pageFrom base k)) →
    (0 < n → v.missingTables (pageFrom base i) + n ≤ v.pmm.freeSet.card) →
    ∃ v', mapGuardedPages base flags n (BitVec.ofNat 64 i) v = .ok (true, v') := by
  intro n
  induction n with
  | zero => exact fun i v _ _ _ _ _ => ⟨v, rfl⟩
  | succ n ih =>
      intro i v wf hn hpath hsmall henough
      have henough := henough n.succ_pos
      simp only [mapGuardedPages, pageFrom_eq_loop, ofNat_add_one]
      rcases Vmm.alloc_cases wf with ⟨hnone, -⟩ | ⟨f, q, halloc, hne, hok⟩
      · rw [hnone, Finset.card_empty] at henough
        omega
      have hsmall₀ := hsmall i (Nat.le_refl i) (by omega)
      have hfresh := Vmm.mapFresh_spec wf hok hsmall₀ flags
      obtain ⟨hmissing, hcard⟩ := Vmm.alloc_spent wf hok (pageFrom base i)
      have hmapped := hfresh.enough.mpr (by omega)
      have hleft := Vmm.vmmMap_card (Vmm.alloc_keeps wf hok).wf
        (hsmall₀.congr (Vmm.alloc_walk wf hok _)) hmapped
      simp only [halloc, if_neg hne]
      rcases hcall : vmmMap (v.withPmm q) (pageFrom base i) (frameAddr f) flags with ⟨ok, v₁⟩
      rw [hcall] at hfresh hmapped hleft
      obtain rfl : ok = true := hmapped
      -- the first page has made the tables of all of them
      obtain ⟨t, ht, -⟩ := Vmm.exists_table_of_leaf (hfresh.mapped rfl)
      refine ih (i + 1) v₁ hfresh.keeps.wf (by omega) (fun k hlo hhi => hpath k (by omega) (by omega))
        (fun k hlo hhi => (hsmall k (by omega) (by omega)).congr (hfresh.other _ (fun hsame => ?_)))
        (fun hpos => ?_)
      · have := pageFrom_sameIndices hsame
        omega
      · rw [hpath i (Nat.le_refl i) (by omega), ← hpath (i + 1) (by omega) (by omega)] at ht
        rw [Vmm.missingTables_of_table ht]
        dsimp only at hleft
        have hcard' : (v.withPmm q).pmm.freeSet.card = q.freeSet.card := rfl
        omega

/-- **`vmm_alloc_guarded` succeeds** for pages below one table, if there is a free
frame for each and for the tables the first one lacks. -/
theorem vmmAllocGuarded_enough (wf : v.WF) (count : Word) (flags : BitVec 32)
    {p : List (Fin 512)} (hfew : count.toNat ≤ 2 ^ 36)
    (hpath : ∀ k < count.toNat,
      upperIndices (pageFrom (v.dynamicNextVaddr + pageSize) k) = p)
    (hsmall : ∀ k < count.toNat, v.NoLargePage (pageFrom (v.dynamicNextVaddr + pageSize) k))
    (henough : v.missingTables (pageFrom (v.dynamicNextVaddr + pageSize) 0) + count.toNat ≤
      v.pmm.freeSet.card) :
    ∃ v', vmmAllocGuarded v count flags = .ok (some (v.dynamicNextVaddr + pageSize), v') := by
  unfold vmmAllocGuarded
  dsimp only
  set base := v.dynamicNextVaddr + pageSize with hbase
  set v₁ : Vmm := { v with dynamicNextVaddr := base + count * pageSize + pageSize } with hv₁
  have hwalk : ∀ a, v₁.walk a = v.walk a := Vmm.walk_congr rfl rfl
  have hmissing : ∀ a, v₁.missingTables a = v.missingTables a := Vmm.missingTables_congr rfl rfl
  obtain ⟨v', hloop⟩ := mapGuardedPages_enough base flags count.toNat 0 v₁ (wf.congr rfl rfl) hfew
    (fun k _ hk => hpath k (by omega))
    (fun k _ hk => Vmm.NoLargePage.congr (hsmall k (by omega)) (hwalk _))
    (fun _ => by
      rw [hmissing]
      exact henough)
  rw [show (BitVec.ofNat 64 0 : Word) = 0 from rfl] at hloop
  rw [hloop]
  exact ⟨v', rfl⟩

/-- The pages `vmm_alloc_guarded` maps before the free frames run out. -/
def guardedPages (v : Vmm) (count virt : Word) : Prop :=
  ∃ k < min count.toNat v.pmm.freeSet.card, virt = pageFrom (v.dynamicNextVaddr + pageSize) k

/-- A guarded call is a paging operation once its pointer has moved, and
accounts for its frames, whether or not it succeeds. -/
theorem vmmAllocGuarded_accounts (wf : v.WF) (count : Word) (flags : BitVec 32)
    (hfew : min count.toNat v.pmm.freeSet.card ≤ 2 ^ 36)
    (hsmall : ∀ a, guardedPages v count a → v.NoLargePage a) :
    ∃ result v', vmmAllocGuarded v count flags = .ok (result, v') ∧
      Vmm.Keeps { v with dynamicNextVaddr :=
        v.dynamicNextVaddr + pageSize + count * pageSize + pageSize } v' ∧
      v.Accounts v' (guardedPages v count) := by
  unfold vmmAllocGuarded
  dsimp only
  set base := v.dynamicNextVaddr + pageSize with hbase
  set v₁ : Vmm := { v with dynamicNextVaddr := base + count * pageSize + pageSize } with hv₁
  have hwalk : ∀ a, v₁.walk a = v.walk a := Vmm.walk_congr rfl rfl
  obtain ⟨ok, v', hloop, hkeeps, h⟩ := mapGuardedPages_accounted base flags count.toNat 0
    (min count.toNat v.pmm.freeSet.card) v₁ (wf.congr rfl rfl)
    (by show _ ∨ v.pmm.freeSet.card ≤ _; omega) hfew
    (fun k _ hk => Vmm.NoLargePage.congr (hsmall _ ⟨k, by omega, rfl⟩) (hwalk _))
  have haccounts : v.Accounts v' (guardedPages v count) := by
    intro f hf
    rcases h.frames f hf with hfree | htab | ⟨k, -, hk, hbacks⟩
    · exact .inl hfree
    · exact .inr (.inl htab)
    · exact .inr (.inr ⟨_, ⟨k, by omega, rfl⟩, hbacks⟩)
  rw [show (BitVec.ofNat 64 0 : Word) = 0 from rfl] at hloop
  rw [hloop]
  cases ok with
  | true => exact ⟨_, v', rfl, hkeeps, haccounts⟩
  | false => exact ⟨_, v', rfl, hkeeps, haccounts⟩

/-! ## Page faults -/

/-- The fault is for a page that is not present, in a registered region. -/
def LazyFault (v : Vmm) (faultAddr errorCode : Word) : Prop :=
  errorCode &&& 1 = 0 ∧ ∃ region ∈ v.lazyRegions, region.covers (alignDown faultAddr pageSize) = true

/-- A fault takes nothing, or takes a frame for its page. -/
theorem vmmHandlePageFault_frames (wf : v.WF) {faultAddr errorCode : Word}
    (hcpu : CpuFault v faultAddr errorCode) :
    (LazyFault v faultAddr errorCode → v.pmm.freeSet = ∅) ∧
        vmmHandlePageFault v faultAddr errorCode = (false, v) ∨
    LazyFault v faultAddr errorCode ∧ ∃ region f ok v',
      v.lazyRegions.find? (·.covers (alignDown faultAddr pageSize)) = some region ∧
      vmmHandlePageFault v faultAddr errorCode = (ok, v') ∧
      Vmm.MappedFresh v (alignDown faultAddr pageSize) f region.flags ok v' := by
  unfold vmmHandlePageFault
  by_cases herr : errorCode &&& 1 ≠ 0
  · rw [if_pos herr]
    exact .inl ⟨fun h => absurd h.1 herr, rfl⟩
  rw [if_neg herr]
  rw [ne_eq, not_not] at herr
  dsimp only
  cases hfind : v.lazyRegions.find? (·.covers (alignDown faultAddr pageSize)) with
  | none =>
      refine .inl ⟨?_, rfl⟩
      rintro ⟨-, region, hregion, hcovers⟩
      exact absurd hcovers (List.find?_eq_none.mp hfind region hregion)
  | some region =>
      have hlazy : LazyFault v faultAddr errorCode :=
        ⟨herr, region, List.mem_of_find?_eq_some hfind, by simpa using List.find?_some hfind⟩
      rcases Vmm.alloc_cases wf with ⟨hnoFree, hnone⟩ | ⟨f, q, halloc, hne, hok⟩
      · refine .inl ⟨fun _ => hnoFree, ?_⟩
        simp only [hnone, if_true]
        rfl
      · have hwalk : v.walk (alignDown faultAddr pageSize) = .notPresent :=
          (hwWalk_samePage _ _ (alignDown_samePage faultAddr)).trans (hcpu.2.mp herr)
        have hfresh := Vmm.mapFresh_spec wf hok (Vmm.noLargePage_iff.mpr (.inl hwalk)) region.flags
        simp only [halloc, if_neg hne]
        exact .inr ⟨hlazy, region, f, _, _, rfl, rfl, hfresh⟩

/-- A fault loses its frame exactly when there is one for the page, but not
enough for the tables the page lacks as well. -/
theorem vmmHandlePageFault_accounts (wf : v.WF) {faultAddr errorCode : Word}
    (hcpu : CpuFault v faultAddr errorCode) :
    v.Accounts (vmmHandlePageFault v faultAddr errorCode).2 (· = alignDown faultAddr pageSize) ↔
      ¬ (LazyFault v faultAddr errorCode ∧ 0 < v.pmm.freeSet.card ∧
        v.pmm.freeSet.card ≤ v.missingTables (alignDown faultAddr pageSize)) := by
  rcases vmmHandlePageFault_frames wf hcpu with
    ⟨hnoFree, hcall⟩ | ⟨hlazy, _, f, ok, v', -, hcall, hfresh⟩
  · rw [hcall]
    refine iff_of_true (Vmm.Linked.refl v |>.accounts _) ?_
    rintro ⟨hlazy, hpos, -⟩
    rw [hnoFree hlazy] at hpos
    exact absurd hpos (by simp)
  rw [hcall]
  have hpos : 0 < v.pmm.freeSet.card := Finset.card_pos.mpr ⟨f, hfresh.wasFree⟩
  have henough := hfresh.enough
  cases ok with
  | true =>
      refine iff_of_true (fun g hg => ?_) (fun h => Nat.not_le.mpr (henough.mp rfl) h.2.2)
      by_cases hgf : g = f
      · rw [hgf]
        exact .inr (.inr ⟨_, rfl, hfresh.backs wf⟩)
      · rcases hfresh.frames g hg hgf with hfree | htab
        · exact .inl hfree
        · exact .inr (.inl htab)
  | false =>
      have hfew : ¬ v.missingTables (alignDown faultAddr pageSize) < v.pmm.freeSet.card :=
        fun h => absurd (henough.mpr h) (by simp)
      refine iff_of_false (fun haccounts => ?_) (fun h => h ⟨hlazy, hpos, Nat.not_lt.mp hfew⟩)
      rcases haccounts f hfresh.wasFree with hfree | htab | ⟨virt, rfl, e, hleaf, -⟩
      · exact hfresh.data.2.1 hfree
      · exact hfresh.data.1 htab
      · -- the page is as unmapped as it was when it faulted
        rw [hfresh.failed rfl,
          show v.walk (alignDown faultAddr pageSize) = .notPresent from
            (hwWalk_samePage _ _ (alignDown_samePage faultAddr)).trans (hcpu.2.mp hlazy.1)] at hleaf
        exact absurd hleaf (by simp)

end Calls

/-! ## Runs -/

/-- The calls of `vmm.c`, and what the rest of the kernel does with frames. -/
inductive VmmCall
  | map (virt phys : Word) (flags : BitVec 32)
  | unmap (virt : Word)
  | register (start end_ : Word) (flags : BitVec 32)
  | fault (faultAddr errorCode : Word)
  | guarded (count : Word) (flags : BitVec 32)
  | mmio (phys : Word)
  /-- `pmm_alloc_frame`, from elsewhere. -/
  | allocFrame
  /-- `pmm_free_frame`, of a frame its owner no longer uses. -/
  | freeFrame (f : Nat)
  /-- A store to memory that is in use and holds no tables. -/
  | store (x : Nat) (b : Byte)

def vmmSystem (v₀ : Vmm) : System Vmm VmmCall where
  init v := v = v₀
  step v c v' :=
    match c with
    | .map virt phys flags => v' = (vmmMap v virt phys flags).2
    | .unmap virt => v' = vmmUnmap v virt
    | .register start end_ flags => v' = (vmmRegisterLazyRegion v start end_ flags).2
    | .fault faultAddr errorCode =>
        CpuFault v faultAddr errorCode ∧ v' = (vmmHandlePageFault v faultAddr errorCode).2
    | .guarded count flags => ∃ result, vmmAllocGuarded v count flags = .ok (result, v')
    | .mmio phys => ∃ virt, vmmMapMmio v phys = .ok (virt, v')
    | .allocFrame => v' = v.withPmm (pmmAllocFrame v.pmm).2
    | .freeFrame f => (v.Data f ∧ f < v.pmm.frameCount.toNat ∧ f ≠ 0) ∧
        ∃ q, pmmFreeFrame v.pmm (frameAddr f) = .ok q ∧ v' = v.withPmm q
    | .store x b => v.Data (x / 4096) ∧ v' = v.withPmm (v.pmm.withMem (store8 v.pmm.mem x b))

/-- The paths the call follows meet no large page, and a guarded call reaches
no page twice. -/
def SmallPaths (v : Vmm) : VmmCall → Prop
  | .map virt _ _ => v.NoLargePage virt
  | .unmap virt => v.NoLargePage virt
  | .guarded count _ => min count.toNat v.pmm.freeSet.card ≤ 2 ^ 36 ∧
      ∀ a, guardedPages v count a → v.NoLargePage a
  | .mmio _ => v.NoLargePage v.mmioNextVaddr
  | _ => True

section Runs

variable {v v' : Vmm}

/-- What one call can do: hand back a frame, store a byte, or, once a pointer
has moved or a slot is taken, a paging operation. -/
theorem vmmSystem_cases {v₀ : Vmm} {c : VmmCall} (wf : v.WF) (hsmall : SmallPaths v c)
    (hstep : (vmmSystem v₀).step v c v') :
    (∃ f q, c = .freeFrame f ∧ (v.Data f ∧ f < v.pmm.frameCount.toNat ∧ f ≠ 0) ∧
      pmmFreeFrame v.pmm (frameAddr f) = .ok q ∧ v' = v.withPmm q) ∨
    (∃ x b, c = .store x b ∧ v.Data (x / 4096) ∧
      v' = v.withPmm (v.pmm.withMem (store8 v.pmm.mem x b))) ∨
    ∃ w : Vmm, w.pmm = v.pmm ∧ w.cr3 = v.cr3 ∧ w.Keeps v' := by
  cases c with
  | freeFrame f =>
      obtain ⟨hf, q, hq, hv'⟩ := hstep
      exact .inl ⟨f, q, rfl, hf, hq, hv'⟩
  | store x b => exact .inr (.inl ⟨x, b, rfl, hstep.1, hstep.2⟩)
  | map virt phys flags =>
      rw [show v' = _ from hstep]
      exact .inr (.inr ⟨v, rfl, rfl, (Vmm.vmmMap_spec wf hsmall phys flags).1⟩)
  | unmap virt =>
      rw [show v' = _ from hstep]
      exact .inr (.inr ⟨v, rfl, rfl, (Vmm.vmmUnmap_spec wf hsmall).1⟩)
  | register start end_ flags =>
      -- the slot is all that changes, so `w` is the state after the call
      rw [show v' = _ from hstep]
      unfold vmmRegisterLazyRegion
      split
      · exact .inr (.inr ⟨v, rfl, rfl, .refl wf⟩)
      · next regions _ =>
          exact .inr (.inr ⟨{ v with lazyRegions := regions }, rfl, rfl, .refl (wf.congr rfl rfl)⟩)
  | fault faultAddr errorCode =>
      rw [show v' = _ from hstep.2]
      exact .inr (.inr ⟨v, rfl, rfl, (vmmHandlePageFault_spec wf hstep.1).1⟩)
  | guarded count flags =>
      obtain ⟨result, hcall⟩ := hstep
      obtain ⟨result', w, hspec, hkeeps, -⟩ :=
        vmmAllocGuarded_accounts wf count flags hsmall.1 hsmall.2
      obtain ⟨-, rfl⟩ := Prod.mk.inj (Except.ok.inj (hcall.symm.trans hspec))
      refine .inr (.inr ⟨_, ?_, ?_, hkeeps⟩) <;> rfl
  | mmio phys =>
      obtain ⟨virt, hcall⟩ := hstep
      have hkeeps := (vmmMapMmio_page wf hsmall hcall).2.1
      refine .inr (.inr ⟨_, ?_, ?_, hkeeps⟩) <;> rfl
  | allocFrame =>
      rw [show v' = _ from hstep]
      refine .inr (.inr ⟨v, rfl, rfl, ?_⟩)
      rcases Vmm.alloc_cases wf with ⟨-, hnone⟩ | ⟨f, q, halloc, -, hok⟩
      · rw [hnone]
        exact .refl wf
      · rw [halloc]
        exact Vmm.alloc_keeps wf hok

/-- Every call keeps the tables well-formed. -/
theorem vmmSystem_wf {v₀ : Vmm} {c : VmmCall} (wf : v.WF) (hsmall : SmallPaths v c)
    (hstep : (vmmSystem v₀).step v c v') : v'.WF := by
  rcases vmmSystem_cases wf hsmall hstep with
    ⟨f, q, -, ⟨hdata, hlt, hf0⟩, hq, rfl⟩ | ⟨x, b, -, hdata, rfl⟩ | ⟨w, -, -, hkeeps⟩
  · obtain ⟨q', hq', hwf, -⟩ := Vmm.free_spec wf hdata hlt hf0
    obtain rfl := Except.ok.inj (hq.symm.trans hq')
    exact hwf
  · refine (Vmm.withMem_spec wf (fun y hy => store8_other _ _ (fun heq => hy ?_))).1
    rw [heq]
    exact hdata
  · exact hkeeps.wf

end Runs

/-- **Frames are accounted for.** In every state reached by calls whose paths
meet no large page, `vmm_map` and `vmm_alloc_guarded` account for every frame
they allocate, and never panic; `vmm_handle_page_fault` does so unless the fault
is one it would handle and the free frames, though there is one for the page,
do not suffice for the tables the page lacks. -/
theorem vmm_frames_accounted {v₀ v : Vmm} (wf : v₀.WF)
    (hv : ((vmmSystem v₀).restrict SmallPaths).Reachable v) :
    (∀ virt phys flags, v.NoLargePage virt →
      v.Accounts (vmmMap v virt phys flags).2 (· = virt)) ∧
    (∀ count flags, min count.toNat v.pmm.freeSet.card ≤ 2 ^ 36 →
      (∀ a, guardedPages v count a → v.NoLargePage a) →
      ∃ result v', vmmAllocGuarded v count flags = .ok (result, v') ∧
        v.Accounts v' (guardedPages v count)) ∧
    ∀ faultAddr errorCode, CpuFault v faultAddr errorCode →
      (v.Accounts (vmmHandlePageFault v faultAddr errorCode).2 (· = alignDown faultAddr pageSize) ↔
        ¬ (LazyFault v faultAddr errorCode ∧ 0 < v.pmm.freeSet.card ∧
          v.pmm.freeSet.card ≤ v.missingTables (alignDown faultAddr pageSize))) := by
  have hwf : v.WF := by
    refine System.Inductive.invariant ⟨?_, ?_⟩ v hv
    · rintro s rfl
      exact wf
    · exact fun s c s' hs hstep => vmmSystem_wf hs hstep.1 hstep.2
  refine ⟨fun virt phys flags hsmall => ?_, fun count flags hfew hsmall => ?_,
    fun faultAddr errorCode hcpu => vmmHandlePageFault_accounts hwf hcpu⟩
  · exact (Vmm.vmmMap_linked hwf hsmall phys flags).1.accounts _
  · obtain ⟨result, v', hcall, -, haccounts⟩ :=
      vmmAllocGuarded_accounts hwf count flags hfew hsmall
    exact ⟨result, v', hcall, haccounts⟩

/-! ## A fault that runs out of frames -/

/-- Three free frames above a one-frame bitmap. -/
def threeFrames : Pmm where
  mem x := if x = 0x1000 then 0x1f else 0
  bitmap := 0x1000
  frameCount := 8
  nextSearchIndex := 0
  freeFrames := 3

/-- An empty address space with three frames left. -/
def tightTables : Vmm := { emptyTables with pmm := threeFrames }

theorem tightTables_spec : tightTables.WF ∧ ∀ virt, tightTables.walk virt = .notPresent := by
  refine emptyRoot_wf ⟨by decide, by decide, by decide, by decide⟩ (by decide)
    (tables_zero (fun x hlo hhi => ?_)) (by decide) (by unfold Pmm.HoldsBitmap; decide)
  have hroot : tightTables.root = 0x100 := by decide
  rw [hroot] at hlo
  show (if x = 0x1000 then 0x1f else 0 : Byte) = 0
  rw [if_neg (by omega)]

/-- The frames of the empty address space are accounted for by a fault in a
region registered there. -/
theorem vmm_frames_accounted_emptyTables :
    ∃ v : Vmm, LazyFault v 0x400abc 0x2 ∧
      v.Accounts (vmmHandlePageFault v 0x400abc 0x2).2 (· = alignDown 0x400abc pageSize) := by
  have hstep : ((vmmSystem emptyTables).restrict SmallPaths).step emptyTables
      (.register 0x400000 0x800000 vmmWritable)
      (vmmRegisterLazyRegion emptyTables 0x400000 0x800000 vmmWritable).2 := ⟨trivial, rfl⟩
  have h := vmm_frames_accounted emptyTables_wf (.step (.init rfl) hstep)
  refine ⟨_, ⟨by decide, ⟨0x400000, 0x800000, vmmWritable, true⟩, by decide, by decide⟩,
    (h.2.2 0x400abc 0x2 ⟨.inl (by decide), iff_of_true (by decide) (emptyTables_walk _)⟩).mpr ?_⟩
  rintro ⟨-, -, hfew⟩
  have hcard : emptyTables.pmm.freeSet.card = 7 := sevenFrames_ok.count.symm
  have hmissing : emptyTables.missingTables (alignDown 0x400abc pageSize) ≤ 3 := by decide
  have : emptyTables.pmm.freeSet.card ≤ 3 := Nat.le_trans hfew hmissing
  omega

/-- **A fault that loses a frame.** With three frames left, a write to a lazily
backed page takes one for the page and the other two for tables, and fails for
want of a third. The page's frame is then neither free nor a table, and no page
translates to it. -/
theorem vmm_handle_page_fault_loses_frame :
    tightTables.WF ∧ ∃ v : Vmm, (vmmSystem tightTables).Reachable v ∧ CpuFault v 0x400abc 0x2 ∧
      (vmmHandlePageFault v 0x400abc 0x2).1 = false ∧
      ∃ f ∈ v.pmm.freeSet, f ∉ (vmmHandlePageFault v 0x400abc 0x2).2.pmm.freeSet ∧
        ¬ (vmmHandlePageFault v 0x400abc 0x2).2.Table f ∧
        ∀ virt, ¬ (vmmHandlePageFault v 0x400abc 0x2).2.Backs f virt := by
  obtain ⟨hwf, hunmapped⟩ := tightTables_spec
  refine ⟨hwf, (vmmRegisterLazyRegion tightTables 0x400000 0x800000 vmmWritable).2,
    .step (e := .register 0x400000 0x800000 vmmWritable) (.init rfl) rfl, ?_⟩
  set v := (vmmRegisterLazyRegion tightTables 0x400000 0x800000 vmmWritable).2 with hv
  have wf : v.WF := hwf.congr rfl rfl
  have hpmm : v.pmm = threeFrames := rfl
  have hwalk : ∀ virt, v.walk virt = .notPresent :=
    fun virt => (Vmm.walk_congr (v := tightTables) rfl rfl virt).trans (hunmapped virt)
  have hcpu : CpuFault v 0x400abc 0x2 := ⟨.inl (by decide), iff_of_true (by decide) (hwalk _)⟩
  have hcard : v.pmm.freeSet.card = 3 := by
    rw [hpmm]
    decide
  have hlazy : LazyFault v 0x400abc 0x2 :=
    ⟨by decide, ⟨0x400000, 0x800000, vmmWritable, true⟩, by decide, by decide⟩
  rcases vmmHandlePageFault_frames wf hcpu with
    ⟨hnoFree, -⟩ | ⟨-, _, f, ok, v', -, hcall, hfresh⟩
  · rw [hnoFree hlazy] at hcard
    exact absurd hcard (by simp)
  · have hmissing : v.missingTables (alignDown 0x400abc pageSize) = 3 := by decide
    have hfailed : ok = false := by
      have henough := hfresh.enough
      rw [hmissing, hcard] at henough
      exact Bool.eq_false_iff.mpr (fun hok => absurd (henough.mp hok) (by decide))
    rw [hcall]
    refine ⟨hcpu, hfailed, f, hfresh.wasFree, hfresh.data.2.1, hfresh.data.1, ?_⟩
    rintro virt ⟨e, hleaf, -⟩
    rw [hfresh.failed hfailed, hwalk] at hleaf
    exact absurd hleaf (by simp)

end QuinKernel
