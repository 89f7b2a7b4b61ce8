import QuinKernel.Pmm.Client

/-!
# What the frame allocator guarantees

Clients that free only what they hold get an exact allocator
(`pmm_alloc_frame_correct`). Clients with arbitrary `pmm_free_frame` arguments
do not: the frame bit of page 0, of the bitmap's own frames and of every hole
in the memory map is set, so the check accepts an address in such a frame and
makes it free (`pmm_free_frame_accepts_page_zero`). `pmm_free_frame_exact`
says precisely which arguments the check gets right.
-/

namespace QuinKernel

open Machine

/-- Clients free only addresses they hold. -/
def freesHeld (s : PmmClient) (e : PmmCall) : Prop := ∀ a, e = .free a → a ∈ s.held

instance (s : PmmClient) : ∀ e, Decidable (freesHeld s e)
  | .alloc _ => isTrue (fun _ h => PmmCall.noConfusion h)
  | .free a => decidable_of_iff (a ∈ s.held)
      ⟨fun ha _ h => PmmCall.free.inj h ▸ ha, fun h => h a rfl⟩
  | .write _ _ => isTrue (fun _ h => PmmCall.noConfusion h)

/-- Clients free only releasable addresses. -/
def freesReleasable (memmap : List BootMemmapEntry) (s : PmmClient) (e : PmmCall) : Prop :=
  ∀ a, e = .free a → Releasable memmap s a

/-- `n` consecutive calls of `pmm_alloc_frame`. -/
def pmmAllocFrames : Nat → Pmm → List Word × Pmm
  | 0, p => ([], p)
  | n + 1, p =>
      let (phys, p) := pmmAllocFrame p
      let (rest, p) := pmmAllocFrames n p
      (phys :: rest, p)

/-- What a client that is handed `r`, leaving the allocator in state `p'`, may
rely on. -/
structure FreshFrame (memmap : List BootMemmapEntry) (s : PmmClient) (r : Word) (p' : Pmm) :
    Prop where
  nonzero : r ≠ 0
  aligned : r.toNat % 4096 = 0
  usable : InUsable memmap (r.toNat / 4096)
  notHeld : ∀ a ∈ s.held, ¬ sameFrame a r
  offBitmap : ¬ s.pmm.HoldsBitmap (r.toNat / 4096)
  zeroed : ∀ x, r.toNat ≤ x → x < r.toNat + 4096 → p'.mem x = 0
  taken : s.pmm.bit (r.toNat / 4096) = false ∧ p'.bit (r.toNat / 4096) = true
  storage : ∀ j < 8 * ((s.pmm.frameCount.toNat + 7) / 8), j ≠ r.toNat / 4096 →
    p'.bit j = s.pmm.bit j
  statics : p'.bitmap = s.pmm.bitmap ∧ p'.frameCount = s.pmm.frameCount

section Owned

variable {memmap : List BootMemmapEntry} {s s' : PmmClient}

theorem Owned.step {e : PmmCall} (h : Owned memmap s) (hfree : freesReleasable memmap s e)
    (hstep : s.Step e s') : Owned memmap s' := by
  cases e with
  | alloc r => exact h.alloc hstep
  | free a => exact h.free (hfree a rfl) hstep
  | write x b => exact h.write hstep

theorem owned_init (hmap : MemmapOk memmap) (h : (pmmSystem memmap).init s) :
    Owned memmap s := by
  obtain ⟨hheld, response, m, hboot, hinit⟩ := h
  have := (pmmInit_spec hboot hmap hinit).owned
  rwa [← hheld] at this

/-- Only held addresses that share a frame are equal. -/
theorem Owned.eq_of_sameFrame {a b : Word} (h : Owned memmap s) (ha : a ∈ s.held)
    (hb : b ∈ s.held) (hab : sameFrame a b) : a = b := by
  have ha4 := h.aligned a ha
  have hb4 := h.aligned b hb
  unfold sameFrame at hab
  exact BitVec.eq_of_toNat_eq (by omega)

theorem Owned.releasable {a : Word} (h : Owned memmap s) (ha : a ∈ s.held) :
    Releasable memmap s a :=
  ⟨fun _ => (h.managed _).mpr (.inr ⟨a, ha, rfl⟩), fun _ hb hba => h.eq_of_sameFrame hb ha hba⟩

/-- The invariant of clients whose frees are all releasable. -/
theorem owned_invariant (hmap : MemmapOk memmap) :
    ((pmmSystem memmap).restrict (freesReleasable memmap)).Invariant (Owned memmap) :=
  System.Inductive.invariant
    ⟨fun _ hinit => owned_init hmap hinit, fun _ _ _ h hstep => h.step hstep.1 hstep.2⟩

/-- Clients that free what they hold only make releasable frees. -/
theorem owned_invariant_of_freesHeld (hmap : MemmapOk memmap) :
    ((pmmSystem memmap).restrict freesHeld).Invariant (Owned memmap) :=
  System.Inductive.invariant
    ⟨fun _ hinit => owned_init hmap hinit,
     fun _ _ _ h hstep => h.step (fun a ha => h.releasable (hstep.1 a ha)) hstep.2⟩

/-- A run of such clients is a run of releasable frees. -/
theorem run_releasable_of_freesHeld (hmap : MemmapOk memmap) {es : List PmmCall}
    (hs : ((pmmSystem memmap).restrict freesHeld).Reachable s)
    (hrun : ((pmmSystem memmap).restrict freesHeld).Run s es s') :
    ((pmmSystem memmap).restrict (freesReleasable memmap)).Run s es s' := by
  induction hrun with
  | nil s => exact .nil s
  | cons hstep _ ih =>
      have h := owned_invariant_of_freesHeld hmap _ hs
      exact .cons ⟨fun a ha => h.releasable (hstep.1 a ha), hstep.2⟩ (ih (hs.step hstep))

/-- A frame's address determines the frame. -/
theorem frame_of_phys {p : Pmm} {f : Nat} (ok : p.Ok) (hf : f ∈ p.freeSet) :
    (BitVec.ofNat 64 (f * 4096)).toNat = f * 4096 := by
  have := ok.frames
  have := Pmm.freeSet_lt hf
  exact toNat_ofNat_of_lt (by omega)

/-- An allocation is a fresh frame. -/
theorem Owned.freshFrame {f : Nat} {p' : Pmm} (h : Owned memmap s) (hok : AllocOk s.pmm f p') :
    FreshFrame memmap s (BitVec.ofNat 64 (f * 4096)) p' := by
  have hr := frame_of_phys h.ok hok.wasFree
  have hdiv : f * 4096 / 4096 = f := by omega
  have hman := (h.managed f).mpr (.inl hok.wasFree)
  constructor
  · intro hzero
    have h0 := congrArg BitVec.toNat hzero
    rw [hr] at h0
    exact hman.1 (by simpa using h0)
  · omega
  · rw [hr, hdiv]
    exact hman.2.1
  · intro a ha hsame
    rw [sameFrame, hr, hdiv] at hsame
    exact h.notFree a ha (hsame ▸ hok.wasFree)
  · rw [hr, hdiv]
    exact hman.2.2
  · rw [hr]
    exact fun x hlo hhi => hok.zeroed x hlo (by omega)
  · rw [hr, hdiv]
    have hwas := Pmm.mem_freeSet.mp hok.wasFree
    refine ⟨hwas.2, ?_⟩
    by_contra hclear
    have hmem : f ∈ p'.freeSet :=
      Pmm.mem_freeSet.mpr ⟨by rw [hok.frameCount]; exact hwas.1, by simpa using hclear⟩
    rw [hok.freeSet] at hmem
    exact absurd rfl (Finset.ne_of_mem_erase hmem)
  · rw [hr, hdiv]
    exact hok.bits
  · exact ⟨hok.bitmap, hok.frameCount⟩

end Owned

/-- Consecutive calls hand out distinct free frames for as long as there are any. -/
theorem pmmAllocFrames_spec : ∀ {n : Nat} {p : Pmm}, p.Ok → n ≤ p.freeSet.card →
    ∃ fs : List Nat, (pmmAllocFrames n p).1 = fs.map (fun f => BitVec.ofNat 64 (f * 4096)) ∧
      fs.length = n ∧ fs.Nodup ∧ (∀ f ∈ fs, f ∈ p.freeSet) ∧
      (pmmAllocFrames n p).2.Ok ∧ (pmmAllocFrames n p).2.freeSet.card + n = p.freeSet.card := by
  intro n
  induction n with
  | zero => exact fun ok _ => ⟨[], rfl, rfl, .nil, by simp, ok, rfl⟩
  | succ n ih =>
      intro p ok hn
      rcases Pmm.pmmAllocFrame_cases ok with ⟨hnone, _⟩ | ⟨f, hphys, hok⟩
      · simp [hnone] at hn
      have hcard : (pmmAllocFrame p).2.freeSet.card + 1 = p.freeSet.card := by
        rw [hok.freeSet]
        exact Finset.card_erase_add_one hok.wasFree
      obtain ⟨fs, hres, hlen, hnodup, hmem, hfin, hleft⟩ := ih hok.ok (by omega)
      refine ⟨f :: fs, ?_, by simp [hlen], ?_, ?_, hfin, ?_⟩
      · simp only [pmmAllocFrames, hres, hphys, List.map_cons]
      · refine List.nodup_cons.mpr ⟨fun hf => ?_, hnodup⟩
        have := hmem f hf
        simp [hok.freeSet] at this
      · intro g hg
        rcases List.mem_cons.mp hg with rfl | hg
        · exact hok.wasFree
        · have := hmem g hg
          rw [hok.freeSet] at this
          exact Finset.mem_of_mem_erase this
      · change (pmmAllocFrames n (pmmAllocFrame p).2).2.freeSet.card + (n + 1) = _
        omega

/-- Exactly as many consecutive calls succeed as there are free frames. -/
theorem pmmAllocFrames_exact {p : Pmm} (ok : p.Ok) :
    (pmmAllocFrames p.freeSet.card p).1.length = p.freeSet.card ∧
    (pmmAllocFrames p.freeSet.card p).1.Nodup ∧
    0 ∉ (pmmAllocFrames p.freeSet.card p).1 ∧
    pmmAllocFrame (pmmAllocFrames p.freeSet.card p).2 =
      (0, (pmmAllocFrames p.freeSet.card p).2) := by
  obtain ⟨fs, hres, hlen, hnodup, hmem, hfin, hleft⟩ := pmmAllocFrames_spec ok (Nat.le_refl _)
  rw [hres]
  refine ⟨by simp [hlen], ?_, ?_, ?_⟩
  · refine hnodup.map_on (fun f hf g hg heq => ?_)
    have := congrArg BitVec.toNat heq
    rw [frame_of_phys ok (hmem f hf), frame_of_phys ok (hmem g hg)] at this
    omega
  · intro hzero
    obtain ⟨f, hf, hf0⟩ := List.mem_map.mp hzero
    have := congrArg BitVec.toNat hf0
    rw [frame_of_phys ok (hmem f hf)] at this
    have hfz : f = 0 := by simpa using this
    exact ok.nonzero (hfz ▸ hmem f hf)
  · rcases Pmm.pmmAllocFrame_cases hfin with ⟨_, hnone⟩ | ⟨f, _, hok⟩
    · exact hnone
    · have hpos := Finset.card_pos.mpr ⟨f, hok.wasFree⟩
      omega

/-! ## Clients that free what they hold -/

/-- **The frame allocator is exact.** In every state clients that free only
what they hold can reach: the counter counts the clear bits; a call fails
exactly when there are none, and otherwise returns a fresh frame; and wherever
the search cursor stands, exactly as many consecutive calls succeed as there
are free frames, with distinct results. -/
theorem pmm_alloc_frame_correct {memmap : List BootMemmapEntry} (hmap : MemmapOk memmap)
    {s : PmmClient} (hs : ((pmmSystem memmap).restrict freesHeld).Reachable s) :
    s.pmm.freeFrames.toNat = s.pmm.freeSet.card ∧
    ((pmmAllocFrame s.pmm).1 = 0 ↔ s.pmm.freeSet.card = 0) ∧
    ((pmmAllocFrame s.pmm).1 ≠ 0 →
      FreshFrame memmap s (pmmAllocFrame s.pmm).1 (pmmAllocFrame s.pmm).2) ∧
    ∀ cursor k, k = s.pmm.freeSet.card →
      let calls := pmmAllocFrames k { s.pmm with nextSearchIndex := cursor }
      calls.1.length = k ∧ calls.1.Nodup ∧ 0 ∉ calls.1 ∧ (pmmAllocFrame calls.2).1 = 0 := by
  have h := owned_invariant_of_freesHeld hmap s hs
  refine ⟨h.ok.count, ?_, ?_, ?_⟩
  · rcases Pmm.pmmAllocFrame_cases h.ok with ⟨hnone, hcall⟩ | ⟨f, hphys, hok⟩
    · simp [hnone, hcall]
    · have hfresh := (h.freshFrame hok).nonzero
      rw [hphys, Finset.card_eq_zero]
      exact iff_of_false hfresh (Finset.ne_empty_of_mem hok.wasFree)
  · intro hne
    rcases Pmm.pmmAllocFrame_cases h.ok with ⟨_, hcall⟩ | ⟨f, hphys, hok⟩
    · exact absurd (by rw [hcall]) hne
    · rw [hphys]
      exact h.freshFrame hok
  · rintro cursor k rfl
    -- the invariant does not mention the cursor
    have hok : ({ s.pmm with nextSearchIndex := cursor } : Pmm).Ok :=
      h.ok.congr rfl rfl rfl (fun _ _ _ => rfl)
    obtain ⟨hlen, hnodup, hzero, hnext⟩ := pmmAllocFrames_exact hok
    exact ⟨hlen, hnodup, hzero, congrArg Prod.fst hnext⟩

/-- Memory of eight usable pages, from page 1 on. -/
def eightPages : List BootMemmapEntry := [⟨0x1000, 0x8000, bootMemmapUsable⟩]

theorem eightPages_ok : MemmapOk eightPages := by
  constructor
  · simp [eightPages]
  · simp [eightPages]
  · exact List.pairwise_singleton _ _

theorem pmmInit_eightPages : ∃ p, pmmInit (some eightPages) (fun _ => 0) = .ok p := ⟨_, rfl⟩

/-- Two pages are allocated; one is written to and freed again. -/
def eightPagesCalls : List PmmCall :=
  [.alloc 0x2000, .write 0x2abc 7, .alloc 0x3000, .free 0x2000]

theorem eightPagesCalls_run : ∃ s₀ s, (pmmSystem eightPages).init s₀ ∧
    ((pmmSystem eightPages).restrict freesHeld).Run s₀ eightPagesCalls s ∧
    s.held = [0x3000] ∧ s.pmm.freeFrames = 6 := by
  obtain ⟨p, hp, hrun⟩ := Option.bind_eq_some_iff.mp
    (by decide +kernel : ((pmmInit (some eightPages) (fun _ => 0)).toOption.bind (fun p =>
      (System.runAll (System.onlyIf freesHeld PmmClient.after) ⟨p, []⟩ eightPagesCalls).map
        (fun s => (s.held, s.pmm.freeFrames)))) = some ([0x3000], 6))
  obtain ⟨s, hs, hfields⟩ := Option.map_eq_some_iff.mp hrun
  obtain ⟨hheld, hfree⟩ := Prod.mk.inj hfields
  have hinit : pmmInit (some eightPages) (fun _ => 0) = .ok p := by
    cases hcall : pmmInit (some eightPages) (fun _ => 0) with
    | error e =>
        rw [hcall] at hp
        cases hp
    | ok q =>
        rw [hcall] at hp
        cases hp
        rfl
  exact ⟨⟨p, []⟩, s, ⟨rfl, some eightPages, _, rfl, hinit⟩,
    System.run_of_onlyIf (fun _ _ _ h => PmmClient.step_of_after h) hs, hheld, hfree⟩

theorem pmm_alloc_frame_correct_eightPages : ∃ s₀ s, (pmmSystem eightPages).init s₀ ∧
    ((pmmSystem eightPages).restrict freesHeld).Run s₀ eightPagesCalls s ∧
    s.pmm.freeSet.card = 6 ∧
    FreshFrame eightPages s (pmmAllocFrame s.pmm).1 (pmmAllocFrame s.pmm).2 := by
  obtain ⟨s₀, s, hinit, hrun, -, hfree⟩ := eightPagesCalls_run
  obtain ⟨hcount, hzero, hfresh, -⟩ :=
    pmm_alloc_frame_correct eightPages_ok (hrun.reachable (.init hinit))
  rw [hfree] at hcount
  refine ⟨s₀, s, hinit, hrun, hcount.symm, hfresh (fun h => ?_)⟩
  rw [← hcount] at hzero
  exact absurd (hzero.mp h) (by decide)

/-! ## Clients that free anything -/

/-- **What the check in `pmm_free_frame` gets right.** As long as every
argument so far was releasable, a call panics or is handed an address a client
holds exactly when its argument is releasable; and then no reserved frame is
ever free, and 0 is returned only by a call that found no free frame. -/
theorem pmm_free_frame_exact {memmap : List BootMemmapEntry} (hmap : MemmapOk memmap)
    {s : PmmClient}
    (hs : ((pmmSystem memmap).restrict (freesReleasable memmap)).Reachable s) :
    (∀ a, ((∃ e, pmmFreeFrame s.pmm a = .error e) ∨ a ∈ s.held) ↔ Releasable memmap s a) ∧
    (∀ f, f = 0 ∨ s.pmm.HoldsBitmap f ∨ ¬ InUsable memmap f → f ∉ s.pmm.freeSet) ∧
    ((pmmAllocFrame s.pmm).1 = 0 → s.pmm.freeSet = ∅ ∧ (pmmAllocFrame s.pmm).2 = s.pmm) := by
  have h := owned_invariant hmap s hs
  refine ⟨fun a => ⟨?_, ?_⟩, ?_, ?_⟩
  · rintro (⟨e, herr⟩ | ha)
    · -- the call panics: the frame is out of range or free
      rw [Pmm.pmmFreeFrame_eq] at herr
      have hrej : ¬ (a.toNat / 4096 < s.pmm.frameCount.toNat ∧
          s.pmm.bit (a.toNat / 4096) = true) := by
        intro hacc
        rw [if_pos hacc] at herr
        exact absurd herr (by simp)
      have hfree : a.toNat / 4096 < s.pmm.frameCount.toNat → a.toNat / 4096 ∈ s.pmm.freeSet :=
        fun hlt => Pmm.mem_freeSet.mpr ⟨hlt, by simpa [hlt] using hrej⟩
      refine ⟨fun hlt => (h.managed _).mpr (.inl (hfree hlt)), fun b hb hba => ?_⟩
      have hman := (h.managed _).mpr (.inr ⟨b, hb, hba⟩)
      exact absurd (hba ▸ hfree (h.usable _ hman.2.1)) (h.notFree b hb)
    · exact h.releasable ha
  · intro hrel
    rw [Pmm.pmmFreeFrame_eq]
    by_cases hacc : a.toNat / 4096 < s.pmm.frameCount.toNat ∧ s.pmm.bit (a.toNat / 4096) = true
    · rcases (h.managed _).mp (hrel.1 hacc.1) with hfree | ⟨b, hb, hba⟩
      · have := (Pmm.mem_freeSet.mp hfree).2
        rw [hacc.2] at this
        exact absurd this (by simp)
      · exact .inr (hrel.2 b hb hba ▸ hb)
    · rw [if_neg hacc]
      exact .inl ⟨_, rfl⟩
  · intro f hres hf
    obtain ⟨hf0, husable, hoff⟩ := (h.managed f).mpr (.inl hf)
    rcases hres with rfl | hbitmap | hhole
    · exact hf0 rfl
    · exact hoff hbitmap
    · exact hhole husable
  · intro hzero
    rcases Pmm.pmmAllocFrame_cases h.ok with ⟨hnone, hcall⟩ | ⟨f, hphys, hok⟩
    · exact ⟨hnone, by rw [hcall]⟩
    · exact absurd (hphys ▸ hzero) (h.freshFrame hok).nonzero

theorem pmm_free_frame_exact_eightPages : ∃ s₀ s, (pmmSystem eightPages).init s₀ ∧
    ((pmmSystem eightPages).restrict (freesReleasable eightPages)).Run s₀ eightPagesCalls s ∧
    Releasable eightPages s 0x3000 ∧ 0 ∉ s.pmm.freeSet := by
  obtain ⟨s₀, s, hinit, hheldRun, hheld, -⟩ := eightPagesCalls_run
  have hrun := run_releasable_of_freesHeld eightPages_ok (.init hinit) hheldRun
  obtain ⟨hiff, hreserved, -⟩ :=
    pmm_free_frame_exact eightPages_ok (hrun.reachable (.init hinit))
  have hmem : (0x3000 : Word) ∈ s.held := by
    rw [hheld]
    exact List.mem_singleton_self _
  exact ⟨s₀, s, hinit, hrun, (hiff _).mp (.inr hmem), hreserved 0 (.inl rfl)⟩

/-- Right after `pmm_init`, freeing address 0, which nobody holds, is accepted;
page 0 is then free, and the next `pmm_alloc_frame` succeeds and returns 0. -/
theorem pmm_free_frame_accepts_page_zero :
    MemmapOk eightPages ∧ ∃ s s' s'' : PmmClient, (pmmSystem eightPages).Reachable s ∧
      s.Step (.free 0) s' ∧ (0 : Word) ∉ s.held ∧ 0 ∈ s'.pmm.freeSet ∧
      s'.Step (.alloc 0) s'' ∧ s'.pmm.freeFrames = 8 ∧ s''.pmm.freeFrames = 7 := by
  refine ⟨eightPages_ok, ⟨_, []⟩, ⟨_, []⟩, ⟨_, []⟩,
    .init ⟨rfl, some eightPages, fun _ => 0, rfl, rfl⟩, ⟨rfl, rfl⟩, by simp, ?_,
    ⟨rfl, rfl⟩, rfl, rfl⟩
  exact Pmm.mem_freeSet.mpr ⟨by decide, by decide⟩

end QuinKernel
