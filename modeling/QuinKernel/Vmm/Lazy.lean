import QuinKernel.Vmm.Theorems

/-!
# Lazily backed regions

`lazySystem` runs page faults, `vmm_map` calls outside the registered regions,
further registrations, and stores by the running program into pages that have
been backed. The state remembers, for each page a fault backed, the leaf that
fault installed. `BackedInv` says that the page still translates to that leaf
and that its frame is nobody else's.
-/

namespace QuinKernel

open Machine

/-- A page fault as the processor reports it: bit 0 of the error code is clear
exactly when the page is not present. -/
def CpuFault (v : Vmm) (faultAddr errorCode : Word) : Prop :=
  Canonical faultAddr ∧ (errorCode &&& 1 = 0 ↔ v.walk faultAddr = .notPresent)

/-- The page of an address lies in no registered region. -/
def OutsideRegions (v : Vmm) (virt : Word) : Prop :=
  ∀ region ∈ v.lazyRegions, region.covers (alignDown virt pageSize) = false

/-- What `vmm_handle_page_fault` did, `r` being its result and the state after. -/
structure FaultOutcome (v : Vmm) (faultAddr errorCode : Word) (r : Bool × Vmm) : Prop where
  /-- A handled fault maps the page to a fresh zeroed frame, as the first region says. -/
  handled : r.1 = true → errorCode &&& 1 = 0 ∧
    ∃ before region after f, v.lazyRegions = before ++ region :: after ∧
      (∀ q ∈ before, q.covers (alignDown faultAddr pageSize) = false) ∧
      region.covers (alignDown faultAddr pageSize) = true ∧
      f ∈ v.pmm.freeSet ∧ f ∉ r.2.pmm.freeSet ∧
      (∀ x, x / 4096 = f → r.2.pmm.mem x = 0) ∧
      r.2.walk faultAddr = .leaf (frameAddr f ||| translateFlags region.flags) ∧
      ∀ a, Canonical a → ¬ samePage a faultAddr → r.2.walk a = v.walk a
  /-- A refused fault changes no translation. -/
  refused : r.1 = false → ∀ a, r.2.walk a = v.walk a

section Fault

variable {v : Vmm} {a faultAddr errorCode : Word}

theorem alignDown_samePage (a : Word) : samePage (alignDown a pageSize) a := by
  have h := alignDown_4096 a
  change (alignDown a pageSize).toNat / 4096 = a.toNat / 4096
  rw [show pageSize = (4096 : Word) from rfl, h]
  omega

theorem canonical_samePage {b : Word} (ha : Canonical a) (h : samePage b a) : Canonical b := by
  unfold Canonical at ha ⊢
  unfold samePage at h
  omega

/-- Frame `f` was taken from the free frames and is in use from now on. -/
structure TookFrame (v v' : Vmm) (f : Nat) : Prop where
  wasFree : f ∈ v.pmm.freeSet
  data : v'.Data f
  zeroed : ∀ x, x / 4096 = f → v'.pmm.mem x = 0

theorem vmmHandlePageFault_spec (wf : v.WF) (hcpu : CpuFault v faultAddr errorCode) :
    v.Keeps (vmmHandlePageFault v faultAddr errorCode).2 ∧
    FaultOutcome v faultAddr errorCode (vmmHandlePageFault v faultAddr errorCode) ∧
    ((vmmHandlePageFault v faultAddr errorCode).1 = true →
      ∃ f flags, TookFrame v (vmmHandlePageFault v faultAddr errorCode).2 f ∧
        (vmmHandlePageFault v faultAddr errorCode).2.walk faultAddr =
          .leaf (frameAddr f ||| translateFlags flags)) := by
  obtain ⟨hcanon, hpresent⟩ := hcpu
  have hrefuse : ∀ v' : Vmm, v.Keeps v' → (∀ a, v'.walk a = v.walk a) →
      v.Keeps (false, v').2 ∧ FaultOutcome v faultAddr errorCode (false, v') ∧
      ((false, v').1 = true → ∃ f flags, TookFrame v (false, v').2 f ∧
        (false, v').2.walk faultAddr = .leaf (frameAddr f ||| translateFlags flags)) := by
    intro v' hkeeps hwalk
    exact ⟨hkeeps, ⟨fun h => absurd h (by simp), fun _ => hwalk⟩, fun h => absurd h (by simp)⟩
  unfold vmmHandlePageFault
  by_cases herr : errorCode &&& 1 ≠ 0
  · rw [if_pos herr]
    exact hrefuse v (Vmm.Keeps.refl wf) (fun _ => rfl)
  rw [if_neg herr]
  rw [ne_eq, not_not] at herr
  dsimp only
  set page := alignDown faultAddr pageSize with hpage
  have hsame : samePage page faultAddr := alignDown_samePage faultAddr
  have hpageWalk : v.walk page = .notPresent :=
    (hwWalk_samePage _ _ hsame).trans (hpresent.mp herr)
  cases hfind : v.lazyRegions.find? (·.covers page) with
  | none => exact hrefuse v (Vmm.Keeps.refl wf) (fun _ => rfl)
  | some region =>
      obtain ⟨hcovers, before, after, hsplit, hbefore⟩ := List.find?_eq_some_iff_append.mp hfind
      rcases Vmm.alloc_cases wf with ⟨_, hnone⟩ | ⟨f, q, halloc, hne, hok⟩
      · simp only [hnone, if_true]
        exact hrefuse v (Vmm.Keeps.refl wf) (fun _ => rfl)
      have hlarge : v.NoLargePage page := Vmm.noLargePage_iff.mpr (.inl hpageWalk)
      have hfresh := Vmm.mapFresh_spec wf hok hlarge region.flags
      simp only [halloc, if_neg hne]
      rcases hmap : vmmMap (v.withPmm q) page (frameAddr f) region.flags with ⟨ok, v'⟩
      rw [hmap] at hfresh
      cases ok with
      | false => exact hrefuse v' hfresh.keeps (hfresh.failed rfl)
      | true =>
          have hleaf := (hwWalk_samePage _ _ hsame).symm.trans (hfresh.mapped rfl)
          refine ⟨hfresh.keeps, ⟨fun _ => ⟨herr, before, region, after, f, hsplit, ?_, hcovers,
            hfresh.wasFree, hfresh.data.2.1, hfresh.zeroed, hleaf, ?_⟩, fun h => absurd h (by simp)⟩,
            fun _ => ⟨f, region.flags, ⟨hfresh.wasFree, hfresh.data, hfresh.zeroed⟩, hleaf⟩⟩
          · exact fun r hr => by simpa using hbefore r hr
          · intro a ha hne'
            refine hfresh.other a (fun hindices => hne' ?_)
            exact ((sameIndices_iff_samePage ha (canonical_samePage hcanon hsame)).mp
              hindices).trans hsame

end Fault

/-! ## Runs -/

/-- A page a fault backed, and the leaf the fault installed. -/
structure BackedPage where
  page : Nat
  leaf : Word

/-- The frame of a backed page. -/
def BackedPage.frame (b : BackedPage) : Nat := entryFrame b.leaf

/-- The paging state, and the pages faults have backed so far. -/
structure LazyState where
  vmm : Vmm
  backed : List BackedPage

/-- The entry a walk ended at. -/
def Walk.entry : Walk → Word
  | .leaf e => e
  | .largePage _ e => e
  | _ => 0

inductive LazyEvent
  | fault (faultAddr errorCode : Word) (handled : Bool)
  | map (virt phys : Word) (flags : BitVec 32) (ok : Bool)
  | register (start end_ : Word) (flags : BitVec 32) (ok : Bool)
  /-- The running program stores a byte into a backed page's frame. -/
  | store (x : Nat) (b : Byte)

/-- Faults as the processor reports them, `vmm_map` outside the regions,
registrations, and stores into backed pages. `vmm_map` is called, as in
`vmm_implements_page_map`, for canonical addresses that no large page covers. -/
def lazySystem (v₀ : Vmm) : System LazyState LazyEvent where
  init s := s.vmm = v₀ ∧ s.backed = []
  step s e s' :=
    match e with
    | .fault faultAddr errorCode handled =>
        CpuFault s.vmm faultAddr errorCode ∧
        vmmHandlePageFault s.vmm faultAddr errorCode = (handled, s'.vmm) ∧
        s'.backed = if handled then
          ⟨faultAddr.toNat / 4096, Walk.entry (s'.vmm.walk faultAddr)⟩ :: s.backed else s.backed
    | .map virt phys flags ok =>
        (Canonical virt ∧ s.vmm.NoLargePage virt ∧ OutsideRegions s.vmm virt) ∧
        vmmMap s.vmm virt phys flags = (ok, s'.vmm) ∧ s'.backed = s.backed
    | .register start end_ flags ok =>
        vmmRegisterLazyRegion s.vmm start end_ flags = (ok, s'.vmm) ∧ s'.backed = s.backed
    | .store x b =>
        (∃ p ∈ s.backed, x / 4096 = p.frame) ∧
        s'.vmm = s.vmm.withPmm (s.vmm.pmm.withMem (store8 s.vmm.pmm.mem x b)) ∧
        s'.backed = s.backed

/-- Every backed page still translates to the leaf its first fault installed,
and its frame is in no other use. -/
structure BackedInv (s : LazyState) : Prop where
  wf : s.vmm.WF
  walk : ∀ p ∈ s.backed, ∀ a, Canonical a → a.toNat / 4096 = p.page → s.vmm.walk a = .leaf p.leaf
  data : ∀ p ∈ s.backed, s.vmm.Data p.frame
  covered : ∀ p ∈ s.backed, ∃ region ∈ s.vmm.lazyRegions, region.used = true ∧
    ∀ a, a.toNat / 4096 = p.page → region.covers (alignDown a pageSize) = true
  pages : (s.backed.map BackedPage.page).Nodup
  frames : (s.backed.map BackedPage.frame).Nodup

section Runs

variable {v v' : Vmm} {s s' : LazyState}

/-- The page base depends on the page only. -/
theorem alignDown_congr {a b : Word} (h : samePage a b) :
    alignDown a pageSize = alignDown b pageSize := by
  apply BitVec.eq_of_toNat_eq
  rw [show pageSize = (4096 : Word) from rfl, alignDown_4096, alignDown_4096, h]

theorem covers_used {region : LazyRegion} {page : Word} (h : region.covers page = true) :
    region.used = true := by
  simp only [LazyRegion.covers, Bool.and_eq_true] at h
  exact h.1.1

theorem Vmm.Keeps.lazyRegions (h : v.Keeps v') : v'.lazyRegions = v.lazyRegions := by
  rw [h.statics]
  rfl

/-- An operation that moves no backed page keeps the invariant. -/
theorem BackedInv.keeps (h : BackedInv s) (hkeeps : s.vmm.Keeps s'.vmm)
    (hbacked : s'.backed = s.backed)
    (hwalk : ∀ p ∈ s.backed, ∀ a, Canonical a → a.toNat / 4096 = p.page →
      s'.vmm.walk a = s.vmm.walk a) : BackedInv s' := by
  refine ⟨hkeeps.wf, ?_, ?_, ?_, ?_, ?_⟩
  · rw [hbacked]
    exact fun p hp a ha hpage => (hwalk p hp a ha hpage).trans (h.walk p hp a ha hpage)
  · rw [hbacked]
    exact fun p hp => hkeeps.dataStays (h.data p hp)
  · rw [hbacked, hkeeps.lazyRegions]
    exact h.covered
  · rw [hbacked]
    exact h.pages
  · rw [hbacked]
    exact h.frames

/-- A handled fault adds the page it backed. -/
theorem BackedInv.fault (h : BackedInv s) {faultAddr errorCode : Word} {handled : Bool}
    (hstep : (lazySystem v).step s (.fault faultAddr errorCode handled) s') : BackedInv s' := by
  obtain ⟨hcpu, hcall, hbacked⟩ := hstep
  obtain ⟨hkeeps, hout, htook⟩ := vmmHandlePageFault_spec h.wf hcpu
  rw [hcall] at hkeeps hout htook
  cases handled with
  | false =>
      exact h.keeps hkeeps hbacked (fun _ _ a _ _ => hout.refused rfl a)
  | true =>
      obtain ⟨herr, before, region, after, f, hsplit, _, hcovers, hfree, hnow, _, _, hother⟩ :=
        hout.handled rfl
      obtain ⟨g, flags, htookg, hleaf⟩ := htook rfl
      have hg40 : g < 2 ^ 40 := Nat.lt_of_lt_of_le (Pmm.freeSet_lt htookg.wasFree) h.wf.physical
      have hnotPresent := hcpu.2.mp herr
      -- the faulting page was not backed before: it was not present
      have hnew : ∀ p ∈ s.backed, p.page ≠ faultAddr.toNat / 4096 := by
        intro p hp hpage
        rw [h.walk p hp faultAddr hcpu.1 hpage.symm] at hnotPresent
        exact absurd hnotPresent (by simp)
      rw [if_pos rfl] at hbacked
      change s'.backed = ⟨_, Walk.entry (s'.vmm.walk faultAddr)⟩ :: s.backed at hbacked
      change s'.vmm.walk faultAddr = _ at hleaf
      rw [hleaf] at hbacked
      simp only [Walk.entry] at hbacked
      have hframe : BackedPage.frame ⟨faultAddr.toNat / 4096,
          frameAddr g ||| translateFlags flags⟩ = g := entryFrame_leaf hg40 flags
      refine ⟨hkeeps.wf, ?_, ?_, ?_, ?_, ?_⟩
      · rw [hbacked]
        intro p hp a ha hpage
        rcases List.mem_cons.mp hp with rfl | hp
        · exact (hwWalk_samePage _ _ hpage).trans hleaf
        · have hne : ¬ samePage a faultAddr := fun hsame => hnew p hp (hpage.symm.trans hsame)
          exact (hother a ha hne).trans (h.walk p hp a ha hpage)
      · rw [hbacked]
        intro p hp
        rcases List.mem_cons.mp hp with rfl | hp
        · rw [hframe]
          exact htookg.data
        · exact hkeeps.dataStays (h.data p hp)
      · rw [hbacked, hkeeps.lazyRegions]
        intro p hp
        rcases List.mem_cons.mp hp with rfl | hp
        · refine ⟨region, by rw [hsplit]; simp, covers_used hcovers, fun a hpage => ?_⟩
          rw [alignDown_congr hpage]
          exact hcovers
        · exact h.covered p hp
      · rw [hbacked, List.map_cons, List.nodup_cons]
        refine ⟨fun hmem => ?_, h.pages⟩
        obtain ⟨p, hp, hpage⟩ := List.mem_map.mp hmem
        exact hnew p hp hpage
      · rw [hbacked, List.map_cons, List.nodup_cons]
        refine ⟨fun hmem => ?_, h.frames⟩
        obtain ⟨p, hp, hpf⟩ := List.mem_map.mp hmem
        rw [hframe] at hpf
        exact (h.data p hp).2.1 (hpf ▸ htookg.wasFree)

/-- A `vmm_map` outside the regions moves no backed page. -/
theorem BackedInv.map (h : BackedInv s) {virt phys : Word} {flags : BitVec 32} {ok : Bool}
    (hstep : (lazySystem v).step s (.map virt phys flags ok) s') : BackedInv s' := by
  obtain ⟨⟨hcanon, hlarge, houtside⟩, hcall, hbacked⟩ := hstep
  have hkeeps := (Vmm.vmmMap_spec h.wf hlarge phys flags).1
  have hother : ∀ a, Canonical a → ((vmmMap s.vmm virt phys flags).1 = true → ¬ samePage a virt) →
      (vmmMap s.vmm virt phys flags).2.walk a = s.vmm.walk a :=
    fun a ha => (PageOp.map virt phys flags).perform_other h.wf hcanon hlarge ha
  rw [hcall] at hkeeps hother
  refine h.keeps hkeeps hbacked (fun p hp a ha hpage => hother a ha (fun _ hsame => ?_))
  obtain ⟨region, hregion, _, hcovers⟩ := h.covered p hp
  have hnot := houtside region hregion
  rw [← alignDown_congr (show samePage a virt from hsame), hcovers a hpage] at hnot
  exact absurd hnot (by simp)

/-- Registering keeps every region that was in use. -/
theorem takeSlot_used {region : LazyRegion} : ∀ {slots slots' : List LazyRegion},
    takeSlot region slots = some slots' → ∀ r ∈ slots, r.used = true → r ∈ slots'
  | slot :: rest, slots', h => by
    intro r hr hused
    unfold takeSlot at h
    cases hslot : slot.used with
    | false =>
        rw [hslot] at h
        obtain rfl := Option.some.inj h
        rcases List.mem_cons.mp hr with rfl | hr
        · rw [hslot] at hused
          exact absurd hused (by simp)
        · exact List.mem_cons_of_mem _ hr
    | true =>
        rw [hslot] at h
        obtain ⟨rest', hrest, rfl⟩ := Option.map_eq_some_iff.mp h
        rcases List.mem_cons.mp hr with rfl | hr
        · exact List.mem_cons_self
        · exact List.mem_cons_of_mem _ (takeSlot_used hrest r hr hused)

theorem BackedInv.register (h : BackedInv s) {start end_ : Word} {flags : BitVec 32} {ok : Bool}
    (hstep : (lazySystem v).step s (.register start end_ flags ok) s') : BackedInv s' := by
  obtain ⟨w, backed⟩ := s'
  obtain ⟨hcall, hbacked⟩ := hstep
  change vmmRegisterLazyRegion s.vmm start end_ flags = (ok, w) at hcall
  obtain rfl : backed = s.backed := hbacked
  unfold vmmRegisterLazyRegion at hcall
  cases htake : takeSlot ⟨start, end_, flags, true⟩ s.vmm.lazyRegions with
  | none =>
      rw [htake] at hcall
      obtain rfl : s.vmm = w := (Prod.mk.inj hcall).2
      exact h
  | some regions =>
      rw [htake] at hcall
      obtain rfl := (Prod.mk.inj hcall).2
      refine ⟨h.wf.congr rfl rfl, h.walk, h.data, fun p hp => ?_, h.pages, h.frames⟩
      obtain ⟨region, hregion, hused, hcovers⟩ := h.covered p hp
      exact ⟨region, takeSlot_used htake region hregion hused, hused, hcovers⟩

/-- A store into a backed page's frame is a store to data. -/
theorem BackedInv.store (h : BackedInv s) {x : Nat} {b : Byte}
    (hstep : (lazySystem v).step s (.store x b) s') : BackedInv s' := by
  obtain ⟨w, backed⟩ := s'
  obtain ⟨⟨p, hp, hx⟩, hw, hbacked⟩ := hstep
  obtain rfl : backed = s.backed := hbacked
  obtain rfl : w = _ := hw
  have hmem : ∀ y, ¬ s.vmm.Data (y / 4096) → store8 s.vmm.pmm.mem x b y = s.vmm.pmm.mem y := by
    intro y hy
    refine store8_other _ _ (fun heq => hy ?_)
    rw [heq, hx]
    exact h.data p hp
  obtain ⟨hwf, hwalk, hdata⟩ := Vmm.withMem_spec h.wf hmem
  exact ⟨hwf, fun p hp a ha hpage => (hwalk a).trans (h.walk p hp a ha hpage),
    fun p hp => hdata _ (h.data p hp), h.covered, h.pages, h.frames⟩

/-- The invariant of lazily backed pages. -/
theorem backedInv_invariant {v₀ : Vmm} (wf : v₀.WF) : (lazySystem v₀).Invariant BackedInv := by
  refine System.Inductive.invariant ⟨?_, fun s e s' h hstep => ?_⟩
  · rintro s ⟨rfl, hbacked⟩
    refine ⟨wf, ?_, ?_, ?_, ?_, ?_⟩ <;> simp [hbacked]
  · cases e with
    | fault faultAddr errorCode handled => exact h.fault hstep
    | map virt phys flags ok => exact h.map hstep
    | register start end_ flags ok => exact h.register hstep
    | store x b => exact h.store hstep

/-- A step forgets no backed page, and only a store by the program changes the
bytes of one. -/
theorem BackedInv.step_data (h : BackedInv s) {e : LazyEvent} (hstep : (lazySystem v).step s e s') :
    ∀ p ∈ s.backed, p ∈ s'.backed ∧
      ∀ x, x / 4096 = p.frame → (∀ b, e ≠ .store x b) → s'.vmm.pmm.mem x = s.vmm.pmm.mem x := by
  intro p hp
  have hdata : ∀ x, x / 4096 = p.frame → s.vmm.Data (x / 4096) := by
    intro x hx
    rw [hx]
    exact h.data p hp
  cases e with
  | fault faultAddr errorCode handled =>
      obtain ⟨hcpu, hcall, hbacked⟩ := hstep
      have hkeeps := (vmmHandlePageFault_spec h.wf hcpu).1
      rw [hcall] at hkeeps
      refine ⟨?_, fun x hx _ => hkeeps.data x (hdata x hx)⟩
      rw [hbacked]
      cases handled
      · exact hp
      · exact List.mem_cons_of_mem _ hp
  | map virt phys flags ok =>
      obtain ⟨⟨_, hlarge, _⟩, hcall, hbacked⟩ := hstep
      have hkeeps := (Vmm.vmmMap_spec h.wf hlarge phys flags).1
      rw [hcall] at hkeeps
      exact ⟨hbacked ▸ hp, fun x hx _ => hkeeps.data x (hdata x hx)⟩
  | register start end_ flags ok =>
      obtain ⟨hcall, hbacked⟩ := hstep
      refine ⟨hbacked ▸ hp, fun x _ _ => ?_⟩
      have hpmm : s'.vmm.pmm = s.vmm.pmm := by
        unfold vmmRegisterLazyRegion at hcall
        split at hcall
        · rw [← (Prod.mk.inj hcall).2]
        · rw [← (Prod.mk.inj hcall).2]
      rw [hpmm]
  | store y b =>
      obtain ⟨_, hw, hbacked⟩ := hstep
      refine ⟨hbacked ▸ hp, fun x _ hne => ?_⟩
      rw [hw]
      exact store8_other _ _ (fun heq => hne b (heq ▸ rfl))

end Runs

/-- **Lazy backing.** In every reachable state: a fault is handled only if the
page was not present and lies in a registered region, and then that page alone
becomes mapped, to a fresh zeroed frame with the first such region's flags; a
refused fault moves nothing. Every page a fault has backed is listed once,
still translates to the leaf its first fault installed, and no later step
except the program's own stores changes a byte of its frame. -/
theorem vmm_lazy_backing {v₀ : Vmm} (wf : v₀.WF) {s : LazyState}
    (hs : (lazySystem v₀).Reachable s) :
    (∀ faultAddr errorCode, CpuFault s.vmm faultAddr errorCode →
      FaultOutcome s.vmm faultAddr errorCode (vmmHandlePageFault s.vmm faultAddr errorCode)) ∧
    (s.backed.map BackedPage.page).Nodup ∧ (s.backed.map BackedPage.frame).Nodup ∧
    (∀ p ∈ s.backed, ∀ a, Canonical a → a.toNat / 4096 = p.page → s.vmm.walk a = .leaf p.leaf) ∧
    ∀ e s', (lazySystem v₀).step s e s' → ∀ p ∈ s.backed, p ∈ s'.backed ∧
      ∀ x, x / 4096 = p.frame → (∀ b, e ≠ .store x b) → s'.vmm.pmm.mem x = s.vmm.pmm.mem x := by
  have h := backedInv_invariant wf s hs
  exact ⟨fun _ _ hcpu => (vmmHandlePageFault_spec h.wf hcpu).2.1, h.pages, h.frames, h.walk,
    fun _ _ hstep => h.step_data hstep⟩

/-- The empty address space after one region has been registered. -/
theorem vmm_lazy_backing_emptyTables :
    ∃ s : LazyState, s.vmm.lazyRegions.head? = some ⟨0x400000, 0x800000, vmmWritable, true⟩ ∧
      FaultOutcome s.vmm 0x400abc 0x2 (vmmHandlePageFault s.vmm 0x400abc 0x2) := by
  have hstep : (lazySystem emptyTables).step ⟨emptyTables, []⟩
      (.register 0x400000 0x800000 vmmWritable true)
      ⟨(vmmRegisterLazyRegion emptyTables 0x400000 0x800000 vmmWritable).2, []⟩ := ⟨rfl, rfl⟩
  have h := vmm_lazy_backing emptyTables_wf (.step (.init ⟨rfl, rfl⟩) hstep)
  refine ⟨_, rfl, h.1 0x400abc 0x2 ⟨.inl (by decide), ?_⟩⟩
  exact iff_of_true (by decide) (emptyTables_walk _)

end QuinKernel
