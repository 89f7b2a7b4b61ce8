import QuinKernel.Pmm.Frames
import QuinKernel.Machine.System

/-!
# `pmm_alloc_frame` under preemption

`pmm.c` has no lock. Here any number of threads run `pmm_alloc_frame` statement
by statement, and the scheduler may switch between any two statements. The
search and the claim of the frame it found are two statements: a thread that
searches in between may find the same frame, and both return it
(`pmm_alloc_frame_doubles`).

As long as no search finds a frame that another thread has found and not yet
marked (`searchesApart`), `AllocsOk` holds: every frame is free, or held by one
thread, and `free_frames` is behind the bits by the threads between
`bitmap_set` and the decrement.
-/

namespace QuinKernel

open Machine

/-- Where a thread is in `pmm_alloc_frame`, with its local `frame`. -/
inductive AllocPc
  | idle
  | search
  | test (frame : Word)
  | set (frame : Word)
  | count (frame : Word)
  | cursor (frame : Word)
  | zero (frame : Word)
  | ret (phys : Word)
  deriving DecidableEq

namespace AllocPc

/-- The frame a thread has marked and not yet returned, by address. -/
def claimed : AllocPc → List Word
  | .count frame | .cursor frame | .zero frame => [frame * pageSize]
  | .ret phys => [phys].filter (· ≠ 0)
  | _ => []

/-- A frame that is marked and still to be zeroed. -/
def pending : AllocPc → Option Word
  | .count frame | .cursor frame | .zero frame => some frame
  | _ => none

/-- `free_frames--` is next. -/
def isCount : AllocPc → Bool
  | .count _ => true
  | _ => false

end AllocPc

/-- The allocator, and for each thread where it is and what its calls returned. -/
structure AllocThreads (T : Type) where
  pmm : Pmm
  pc : T → AllocPc
  returned : T → List Word

/-- What happens next: a thread calls `pmm_alloc_frame`, or executes its next
statement. -/
inductive AllocEvent (T : Type)
  | call (t : T)
  | statement (t : T)
  deriving DecidableEq

variable {T : Type}

namespace AllocThreads

/-- What a search finds in this state. -/
def search (s : AllocThreads T) : Word :=
  bitmapFindFirstClear s.pmm.mem s.pmm.bitmap.toNat s.pmm.frameCount s.pmm.nextSearchIndex

/-- The thread has found `frame` and not yet marked it. -/
def Finding (s : AllocThreads T) (t : T) (frame : Word) : Prop :=
  (s.pc t = .test frame ∧ frame ≠ s.pmm.frameCount) ∨ s.pc t = .set frame

/-- The frames a thread holds: returned to it, or marked and on the way. -/
def held (s : AllocThreads T) (t : T) : List Word :=
  (s.returned t).filter (· ≠ 0) ++ (s.pc t).claimed

/-- The threads between `bitmap_set` and `free_frames--`. -/
def counting [Fintype T] (s : AllocThreads T) : Finset T :=
  Finset.univ.filter (fun t => (s.pc t).isCount)

instance (s : AllocThreads T) (t : T) (frame : Word) : Decidable (s.Finding t frame) :=
  inferInstanceAs (Decidable (_ ∨ _))

variable [DecidableEq T]

/-- The thread goes on at `pc`. -/
def goto (s : AllocThreads T) (t : T) (pc : AllocPc) : AllocThreads T :=
  { s with pc := Function.update s.pc t pc }

/-- The thread's next statement. -/
def statement (s : AllocThreads T) (t : T) : Option (AllocThreads T) :=
  match s.pc t with
  | .idle => none
  | .search => some (s.goto t (.test s.search))
  | .test frame => some (s.goto t (if frame = s.pmm.frameCount then .ret 0 else .set frame))
  | .set frame =>
      let pmm := { s.pmm with mem := bitmapSet s.pmm.mem s.pmm.bitmap.toNat frame }
      some ({ s with pmm := pmm }.goto t (.count frame))
  | .count frame =>
      let pmm := { s.pmm with freeFrames := s.pmm.freeFrames - 1 }
      some ({ s with pmm := pmm }.goto t (.cursor frame))
  | .cursor frame =>
      let pmm := { s.pmm with nextSearchIndex := frame + 1 }
      some ({ s with pmm := pmm }.goto t (.zero frame))
  | .zero frame =>
      let pmm := { s.pmm with mem := memset s.pmm.mem (frame * pageSize).toNat 0 pageSize.toNat }
      some ({ s with pmm := pmm }.goto t (.ret (frame * pageSize)))
  | .ret phys =>
      let returned := Function.update s.returned t (s.returned t ++ [phys])
      some ({ s with returned := returned }.goto t .idle)

/-- One step. -/
def after (s : AllocThreads T) : AllocEvent T → Option (AllocThreads T)
  | .call t => if s.pc t = .idle then some (s.goto t .search) else none
  | .statement t => s.statement t

end AllocThreads

/-- No search finds a frame that another thread has found and not yet marked. -/
def searchesApart (s : AllocThreads T) (e : AllocEvent T) : Prop :=
  ∀ t u, e = .statement t → s.pc t = .search → ¬ s.Finding u s.search

section System

variable [DecidableEq T]

instance [Fintype T] (s : AllocThreads T) (e : AllocEvent T) : Decidable (searchesApart s e) :=
  inferInstanceAs (Decidable (∀ _ _, _ → _))

/-- Any threads that allocate, from any allocator in order. -/
def allocSystem : System (AllocThreads T) (AllocEvent T) where
  init s := s.pmm.Ok ∧ ∀ t, s.pc t = .idle ∧ s.returned t = []
  step s e s' := s.after e = some s'

/-- **An uninterrupted call is the atomic one.** -/
theorem pmmAllocFrame_uninterrupted (s : AllocThreads T) (t : T) (h : s.pc t = .search) :
    ∃ n, System.runAll AllocThreads.after s (List.replicate n (.statement t)) =
      some { pmm := (pmmAllocFrame s.pmm).2
             pc := Function.update s.pc t .idle
             returned := Function.update s.returned t
               (s.returned t ++ [(pmmAllocFrame s.pmm).1]) } := by
  obtain ⟨pmm, pc, returned⟩ := s
  dsimp only at h
  by_cases hnone : bitmapFindFirstClear pmm.mem pmm.bitmap.toNat pmm.frameCount
      pmm.nextSearchIndex = pmm.frameCount
  · refine ⟨3, ?_⟩
    simp [System.runAll, List.replicate, AllocThreads.after, AllocThreads.statement,
      AllocThreads.goto, AllocThreads.search, pmmAllocFrame, h, hnone]
  · refine ⟨7, ?_⟩
    simp [System.runAll, List.replicate, AllocThreads.after, AllocThreads.statement,
      AllocThreads.goto, AllocThreads.search, pmmAllocFrame, h, hnone]

end System

/-! ## The invariant -/

/-- The frame does not overlap the bitmap. -/
def Pmm.OffBitmap (p : Pmm) (f : Nat) : Prop :=
  (f + 1) * 4096 ≤ p.bitmap.toNat ∨ p.bitmapEnd ≤ f * 4096

/-- Every frame is free or held by one thread; `free_frames` is behind the bits
by the threads that are about to decrement it. -/
structure AllocsOk [Fintype T] (s : AllocThreads T) : Prop where
  frames : s.pmm.frameCount.toNat ≤ 2 ^ 52
  nonzero : 0 ∉ s.pmm.freeSet
  offBitmap : ∀ f ∈ s.pmm.freeSet, s.pmm.OffBitmap f
  count : s.pmm.freeFrames.toNat = s.pmm.freeSet.card + s.counting.card
  finding : ∀ t frame, s.Finding t frame → frame.toNat ∈ s.pmm.freeSet
  apart : ∀ t u frame, s.Finding t frame → s.Finding u frame → t = u
  pending : ∀ t frame, (s.pc t).pending = some frame →
    frame ≠ 0 ∧ frame.toNat < s.pmm.frameCount.toNat ∧ s.pmm.OffBitmap frame.toNat
  claimed : ∀ t, ∀ a ∈ s.held t, ∃ frame : Word, frame.toNat < s.pmm.frameCount.toNat ∧
    frame.toNat ∉ s.pmm.freeSet ∧ a = frame * pageSize
  nodup : ∀ t, (s.held t).Nodup
  disjoint : ∀ t u, t ≠ u → ∀ a ∈ s.held t, a ∉ s.held u

/-- Frames below `2 ^ 52` have their own addresses. -/
theorem mul_pageSize_inj {f g : Word} (hf : f.toNat < 2 ^ 52) (hg : g.toNat < 2 ^ 52)
    (h : f * pageSize = g * pageSize) : f = g := by
  apply BitVec.eq_of_toNat_eq
  have htoNat := congrArg BitVec.toNat h
  rw [BitVec.toNat_mul, BitVec.toNat_mul, show pageSize.toNat = 4096 from rfl] at htoNat
  omega

section Facts

variable [Fintype T] {s : AllocThreads T} {t : T}

theorem mem_counting {u : T} : u ∈ s.counting ↔ (s.pc u).isCount = true := by
  unfold AllocThreads.counting
  rw [Finset.mem_filter, and_iff_right (Finset.mem_univ u)]

/-- The address of a free frame is held by nobody. -/
theorem AllocsOk.fresh (h : AllocsOk s) {frame : Word} (hfree : frame.toNat ∈ s.pmm.freeSet) (u : T) :
    frame * pageSize ∉ s.held u := by
  intro hmem
  obtain ⟨g, hlt, hused, heq⟩ := h.claimed u _ hmem
  have hframes := h.frames
  have hframe := Pmm.freeSet_lt hfree
  obtain rfl := mul_pageSize_inj (by omega) (by omega) heq
  exact hused hfree

/-- A successful search finds a free frame. -/
theorem AllocsOk.search_free (h : AllocsOk s) (hne : s.search ≠ s.pmm.frameCount) :
    s.search.toNat ∈ s.pmm.freeSet := by
  have hframes := h.frames
  have hpos : 0 < s.pmm.frameCount.toNat := by
    rw [Nat.pos_iff_ne_zero]
    intro hzero
    have hfc : s.pmm.frameCount = 0 := BitVec.eq_of_toNat_eq hzero
    apply hne
    unfold AllocThreads.search bitmapFindFirstClear
    rw [hfc, if_pos rfl]
  rcases bitmapFindFirstClear_spec s.pmm.mem s.pmm.bitmap.toNat s.pmm.nextSearchIndex hpos
    (by omega) with ⟨hfind, -⟩ | ⟨k, -, hfind, hclear, -⟩
  · exact absurd hfind hne
  · have hlt := Nat.mod_lt (s.pmm.nextSearchIndex.toNat % s.pmm.frameCount.toNat + k) hpos
    refine Pmm.mem_freeSet.mpr ⟨?_, ?_⟩
    · unfold AllocThreads.search
      rw [hfind, toNat_ofNat_of_lt (by omega)]
      exact hlt
    · unfold Pmm.bit
      rw [BitVec.ofNat_toNat, BitVec.setWidth_eq]
      exact hclear

/-- Zeroing a marked frame leaves the bits alone. -/
theorem AllocsOk.zero_freeSet (h : AllocsOk s) {frame : Word}
    (hpending : (s.pc t).pending = some frame) :
    Pmm.freeSet { s.pmm with
      mem := memset s.pmm.mem (frame * pageSize).toNat 0 pageSize.toNat } = s.pmm.freeSet := by
  obtain ⟨-, hlt, hoff⟩ := h.pending t frame hpending
  have hframes := h.frames
  have hphys : (frame * pageSize).toNat = frame.toNat * 4096 := by
    rw [BitVec.toNat_mul, show pageSize.toNat = 4096 from rfl]
    omega
  refine Pmm.freeSet_congr rfl rfl (fun x hlo hhi => ?_)
  apply memset_agreeOff
  rw [hphys, show pageSize.toNat = 4096 from rfl]
  unfold Pmm.OffBitmap at hoff
  omega

end Facts

/-! ## Every statement -/

section Steps

variable [DecidableEq T] {s s' : AllocThreads T} {t : T} {pc : AllocPc}

theorem held_of_claimed (hpc : s'.pc = Function.update s.pc t pc)
    (hreturned : s'.returned = s.returned) (hclaimed : pc.claimed = (s.pc t).claimed) (u : T) :
    s'.held u = s.held u := by
  unfold AllocThreads.held
  rw [hpc, hreturned]
  by_cases hut : u = t
  · rw [hut, Function.update_self, hclaimed]
  · rw [Function.update_of_ne hut]

theorem finding_of_ne {u : T} {frame : Word} (hu : u ≠ t) (hpc : s'.pc = Function.update s.pc t pc)
    (hfc : s'.pmm.frameCount = s.pmm.frameCount) : s'.Finding u frame ↔ s.Finding u frame := by
  unfold AllocThreads.Finding
  rw [hpc, Function.update_of_ne hu, hfc]

variable [Fintype T]

theorem counting_of_isCount (hpc : s'.pc = Function.update s.pc t pc)
    (hcount : pc.isCount = (s.pc t).isCount) : s'.counting = s.counting := by
  ext u
  rw [mem_counting, mem_counting, hpc]
  by_cases hut : u = t
  · rw [hut, Function.update_self, hcount]
  · rw [Function.update_of_ne hut]

/-- A statement that changes neither the bits nor what the threads hold. -/
theorem AllocsOk.local (h : AllocsOk s) (hset : s'.pmm.freeSet = s.pmm.freeSet)
    (hfc : s'.pmm.frameCount = s.pmm.frameCount) (hbm : s'.pmm.bitmap = s.pmm.bitmap)
    (hpc : s'.pc = Function.update s.pc t pc) (hheld : ∀ u, s'.held u = s.held u)
    (hcount : s'.pmm.freeFrames.toNat = s.pmm.freeSet.card + s'.counting.card)
    (hfinding : ∀ frame, (pc = .test frame ∧ frame ≠ s.pmm.frameCount) ∨ pc = .set frame →
      frame.toNat ∈ s.pmm.freeSet ∧ ∀ u, u ≠ t → ¬ s.Finding u frame)
    (hpending : ∀ frame, pc.pending = some frame → (s.pc t).pending = some frame) :
    AllocsOk s' := by
  have hend : s'.pmm.bitmapEnd = s.pmm.bitmapEnd := by
    unfold Pmm.bitmapEnd
    rw [hbm, hfc]
  have hself : s'.pc t = pc := by
    rw [hpc, Function.update_self]
  have hfound : ∀ {u frame}, s'.Finding u frame → u = t →
      frame.toNat ∈ s.pmm.freeSet ∧ ∀ v, v ≠ t → ¬ s.Finding v frame := by
    intro u frame hu hut
    apply hfinding frame
    unfold AllocThreads.Finding at hu
    rwa [hut, hself, hfc] at hu
  -- the bits are the same, so only what `t` has found can be new
  refine ⟨hfc ▸ h.frames, hset ▸ h.nonzero, ?_, hset ▸ hcount, ?_, ?_, ?_, ?_, ?_, ?_⟩
  · unfold Pmm.OffBitmap
    rw [hset, hbm, hend]
    exact h.offBitmap
  · intro u frame hu
    rw [hset]
    by_cases hut : u = t
    · exact (hfound hu hut).1
    · exact h.finding u frame ((finding_of_ne hut hpc hfc).mp hu)
  · intro u v frame hu hv
    by_cases hut : u = t <;> by_cases hvt : v = t
    · rw [hut, hvt]
    · exact absurd ((finding_of_ne hvt hpc hfc).mp hv) ((hfound hu hut).2 v hvt)
    · exact absurd ((finding_of_ne hut hpc hfc).mp hu) ((hfound hv hvt).2 u hut)
    · exact h.apart u v frame ((finding_of_ne hut hpc hfc).mp hu)
        ((finding_of_ne hvt hpc hfc).mp hv)
  · intro u frame hu
    unfold Pmm.OffBitmap
    rw [hfc, hbm, hend]
    apply h.pending u frame
    by_cases hut : u = t
    · subst hut
      rw [hself] at hu
      exact hpending frame hu
    · rwa [hpc, Function.update_of_ne hut] at hu
  · intro u
    rw [hheld, hset, hfc]
    exact h.claimed u
  · intro u
    rw [hheld]
    exact h.nodup u
  · intro u v huv
    rw [hheld, hheld]
    exact h.disjoint u v huv

/-- A statement after the claim: the thread has no frame found and unmarked. -/
theorem AllocsOk.quiet (h : AllocsOk s) (hset : s'.pmm.freeSet = s.pmm.freeSet)
    (hfc : s'.pmm.frameCount = s.pmm.frameCount) (hbm : s'.pmm.bitmap = s.pmm.bitmap)
    (hpc : s'.pc = Function.update s.pc t pc) (hheld : ∀ u, s'.held u = s.held u)
    (hcount : s'.pmm.freeFrames.toNat = s.pmm.freeSet.card + s'.counting.card)
    (hquiet : ∀ frame, pc ≠ .test frame ∧ pc ≠ .set frame)
    (hpending : ∀ frame, pc.pending = some frame → (s.pc t).pending = some frame) :
    AllocsOk s' := by
  refine h.local hset hfc hbm hpc hheld hcount ?_ hpending
  rintro frame (⟨htest, -⟩ | hset)
  · exact absurd htest (hquiet frame).1
  · exact absurd hset (hquiet frame).2

/-- `bitmap_set` takes the frame the thread found out of the free set; the
thread holds it from here on. -/
theorem AllocsOk.set (h : AllocsOk s) {frame : Word} (hpc : s.pc t = .set frame)
    (hs' : s'.pmm = { s.pmm with mem := bitmapSet s.pmm.mem s.pmm.bitmap.toNat frame })
    (hpc' : s'.pc = Function.update s.pc t (.count frame)) (hreturned : s'.returned = s.returned) :
    AllocsOk s' := by
  have hfinding : s.Finding t frame := .inr hpc
  have hfree := h.finding t frame hfinding
  have hlt := Pmm.freeSet_lt hfree
  have hframes := h.frames
  have hset : s'.pmm.freeSet = s.pmm.freeSet.erase frame.toNat := by
    refine Pmm.freeSet_of_set (by rw [hs']) (fun g hg => ?_)
    have hbit : s'.pmm.bit g = bitmapTest (bitmapSet s.pmm.mem s.pmm.bitmap.toNat frame)
        s.pmm.bitmap.toNat (BitVec.ofNat 64 g) := by
      rw [hs']
      rfl
    rw [hbit, bitmapTest_set]
    congr 1
    rw [decide_eq_decide, ← BitVec.toNat_inj, toNat_ofNat_of_lt (by omega)]
  have hfc : s'.pmm.frameCount = s.pmm.frameCount := by rw [hs']
  have hoff : ∀ f, s'.pmm.OffBitmap f ↔ s.pmm.OffBitmap f := by
    intro f
    rw [hs']
    rfl
  have hheld : s'.held t = s.held t ++ [frame * pageSize] := by
    unfold AllocThreads.held
    rw [hpc', hreturned, Function.update_self, hpc, List.append_assoc]
    rfl
  have hheldOther : ∀ u, u ≠ t → s'.held u = s.held u := by
    intro u hut
    unfold AllocThreads.held
    rw [hpc', hreturned, Function.update_of_ne hut]
  -- whoever still has a frame found is another thread, and had it found before
  have hother : ∀ u g, s'.Finding u g → u ≠ t ∧ s.Finding u g := by
    intro u g hu
    have hut : u ≠ t := by
      rintro rfl
      unfold AllocThreads.Finding at hu
      rw [hpc', Function.update_self] at hu
      rcases hu with ⟨hu, -⟩ | hu <;> cases hu
    exact ⟨hut, (finding_of_ne hut hpc' hfc).mp hu⟩
  -- `t` has taken the frame and not yet counted it
  have hcounting : s'.counting = insert t s.counting := by
    ext u
    rw [Finset.mem_insert, mem_counting, mem_counting, hpc']
    by_cases hut : u = t
    · rw [hut, Function.update_self]
      simp [AllocPc.isCount]
    · rw [Function.update_of_ne hut]
      simp [hut]
  have hnot : t ∉ s.counting := by
    rw [mem_counting, hpc]
    exact Bool.false_ne_true
  refine ⟨hfc ▸ h.frames, ?_, ?_, ?_, ?_, ?_, ?_, ?_, ?_, ?_⟩
  · rw [hset]
    exact fun hzero => h.nonzero (Finset.mem_of_mem_erase hzero)
  · rw [hset]
    intro f hf
    exact (hoff f).mpr (h.offBitmap f (Finset.mem_of_mem_erase hf))
  · have hcount := h.count
    have hpos := Finset.card_pos.mpr ⟨_, hfree⟩
    have hff : s'.pmm.freeFrames = s.pmm.freeFrames := by rw [hs']
    rw [hset, hcounting, Finset.card_erase_of_mem hfree, Finset.card_insert_of_notMem hnot, hff]
    omega
  · intro u g hu
    obtain ⟨hut, hu⟩ := hother u g hu
    rw [hset, Finset.mem_erase]
    -- two threads with one frame found would be apart by `h.apart`
    refine ⟨fun heq => hut ?_, h.finding u g hu⟩
    obtain rfl := BitVec.eq_of_toNat_eq heq
    exact h.apart u t g hu hfinding
  · intro u v g hu hv
    exact h.apart u v g (hother u g hu).2 (hother v g hv).2
  · intro u g hu
    rw [hfc, hoff]
    by_cases hut : u = t
    · subst hut
      rw [hpc', Function.update_self] at hu
      obtain rfl := Option.some.inj hu
      refine ⟨?_, hlt, h.offBitmap _ hfree⟩
      rintro rfl
      exact h.nonzero hfree
    · rw [hpc', Function.update_of_ne hut] at hu
      exact h.pending u g hu
  · intro u a ha
    rw [hset, hfc]
    -- what was held before is still in use
    have hold : a ∈ s.held u → ∃ g : Word, g.toNat < s.pmm.frameCount.toNat ∧
        g.toNat ∉ s.pmm.freeSet.erase frame.toNat ∧ a = g * pageSize := by
      intro ha
      obtain ⟨g, hglt, hused, heq⟩ := h.claimed u a ha
      exact ⟨g, hglt, fun hmem => hused (Finset.mem_of_mem_erase hmem), heq⟩
    by_cases hut : u = t
    · rw [hut, hheld] at ha
      rcases List.mem_append.mp ha with ha | ha
      · exact hold (hut ▸ ha)
      · exact ⟨frame, hlt, Finset.notMem_erase _ _, List.mem_singleton.mp ha⟩
    · rw [hheldOther u hut] at ha
      exact hold ha
  · intro u
    by_cases hut : u = t
    · rw [hut, hheld, ← List.concat_eq_append]
      exact (h.nodup t).concat (h.fresh hfree t)
    · rw [hheldOther u hut]
      exact h.nodup u
  · intro u v huv a hu hv
    by_cases hut : u = t
    · have hvt : v ≠ t := fun hvt => huv (hut.trans hvt.symm)
      rw [hut, hheld] at hu
      rw [hheldOther v hvt] at hv
      rcases List.mem_append.mp hu with hu | hu
      · exact h.disjoint t v (Ne.symm hvt) a hu hv
      · exact h.fresh hfree v (List.mem_singleton.mp hu ▸ hv)
    · rw [hheldOther u hut] at hu
      by_cases hvt : v = t
      · rw [hvt, hheld] at hv
        rcases List.mem_append.mp hv with hv | hv
        · exact h.disjoint u t hut a hu hv
        · exact h.fresh hfree u (List.mem_singleton.mp hv ▸ hu)
      · rw [hheldOther v hvt] at hv
        exact h.disjoint u v huv a hu hv

/-- Every statement keeps the invariant, if the search does not find what
another thread has found. -/
theorem AllocsOk.statement (h : AllocsOk s) (hapart : searchesApart s (.statement t))
    (hstep : s.statement t = some s') : AllocsOk s' := by
  have hframes := h.frames
  unfold AllocThreads.statement at hstep
  cases hpc : s.pc t <;> rw [hpc] at hstep
  case idle => cases hstep
  case search =>
    obtain rfl := Option.some.inj hstep
    refine h.local rfl rfl rfl rfl (held_of_claimed rfl rfl (by rw [hpc]; rfl)) ?_ ?_ ?_
    · rw [counting_of_isCount rfl (by rw [hpc]; rfl)]
      exact h.count
    · rintro frame (⟨htest, hne⟩ | hset)
      · obtain rfl := AllocPc.test.inj htest
        exact ⟨h.search_free hne, fun u _ => hapart t u rfl hpc⟩
      · cases hset
    · intro frame hpending
      cases hpending
  case test frame =>
    obtain rfl := Option.some.inj hstep
    refine h.local rfl rfl rfl rfl (held_of_claimed rfl rfl ?_) ?_ ?_ ?_
    · rw [hpc]
      split <;> rfl
    · rw [counting_of_isCount rfl (by rw [hpc]; split <;> rfl)]
      exact h.count
    · intro g hfinding
      -- the thread goes on with the frame it tested
      have hold : s.Finding t g := by
        rcases hfinding with ⟨htest, -⟩ | hset
        · split at htest <;> cases htest
        · split at hset
          · cases hset
          · next hne =>
              obtain rfl := AllocPc.set.inj hset
              exact .inl ⟨hpc, hne⟩
      exact ⟨h.finding t g hold, fun u hut hu => hut (h.apart u t g hu hold)⟩
    · intro g hpending
      split at hpending <;> cases hpending
  case set frame =>
    obtain rfl := Option.some.inj hstep
    exact h.set hpc rfl rfl rfl
  case count frame =>
    obtain rfl := Option.some.inj hstep
    refine h.quiet rfl rfl rfl rfl (held_of_claimed rfl rfl (by rw [hpc]; rfl)) ?_
      (fun _ => ⟨nofun, nofun⟩) ?_
    · have hmem : t ∈ s.counting := by
        rw [mem_counting, hpc]
        rfl
      have herase : AllocThreads.counting (AllocThreads.goto { s with
          pmm := { s.pmm with freeFrames := s.pmm.freeFrames - 1 } } t (.cursor frame)) =
          s.counting.erase t := by
        ext u
        rw [Finset.mem_erase, mem_counting, mem_counting]
        unfold AllocThreads.goto
        dsimp only
        by_cases hut : u = t
        · rw [hut, Function.update_self]
          simp [AllocPc.isCount]
        · rw [Function.update_of_ne hut]
          simp [hut]
      have hcount := h.count
      have hpos := Finset.card_pos.mpr ⟨t, hmem⟩
      rw [herase, Finset.card_erase_of_mem hmem]
      show (s.pmm.freeFrames - 1).toNat = _
      rw [BitVec.toNat_sub_of_le (by rw [BitVec.le_def, hcount]; show 1 ≤ _; omega), hcount]
      show _ - 1 = _
      omega
    · intro g hpending
      rw [hpc]
      exact hpending
  case cursor frame =>
    obtain rfl := Option.some.inj hstep
    refine h.quiet rfl rfl rfl rfl (held_of_claimed rfl rfl (by rw [hpc]; rfl)) ?_
      (fun _ => ⟨nofun, nofun⟩) ?_
    · rw [counting_of_isCount rfl (by rw [hpc]; rfl)]
      exact h.count
    · intro g hpending
      rw [hpc]
      exact hpending
  case zero frame =>
    obtain rfl := Option.some.inj hstep
    have hpending : (s.pc t).pending = some frame := by
      rw [hpc]
      rfl
    obtain ⟨hne, hlt, -⟩ := h.pending t frame hpending
    have hphys : frame * pageSize ≠ 0 := by
      intro hzero
      apply hne
      apply mul_pageSize_inj (by omega) (by decide)
      rw [hzero]
      rfl
    refine h.quiet (h.zero_freeSet hpending) rfl rfl rfl (held_of_claimed rfl rfl ?_) ?_
      (fun _ => ⟨nofun, nofun⟩) ?_
    · rw [hpc]
      show [frame * pageSize].filter (· ≠ 0) = [frame * pageSize]
      rw [List.filter_eq_self]
      intro a ha
      rw [List.mem_singleton.mp ha]
      exact decide_eq_true hphys
    · rw [counting_of_isCount rfl (by rw [hpc]; rfl)]
      exact h.count
    · intro g hpending
      cases hpending
  case ret phys =>
    obtain rfl := Option.some.inj hstep
    refine h.quiet rfl rfl rfl rfl ?_ ?_ (fun _ => ⟨nofun, nofun⟩) ?_
    · intro u
      unfold AllocThreads.held AllocThreads.goto
      dsimp only
      by_cases hut : u = t
      · rw [hut, Function.update_self, Function.update_self, hpc, List.filter_append,
          List.append_assoc]
        show _ ++ (_ ++ []) = _
        rw [List.append_nil]
        rfl
      · rw [Function.update_of_ne hut, Function.update_of_ne hut]
    · rw [counting_of_isCount rfl (by rw [hpc]; rfl)]
      exact h.count
    · intro g hpending
      cases hpending

/-- Calling starts with the search. -/
theorem AllocsOk.call (h : AllocsOk s) (hidle : s.pc t = .idle) : AllocsOk (s.goto t .search) := by
  refine h.quiet rfl rfl rfl rfl (held_of_claimed rfl rfl (by rw [hidle]; rfl)) ?_
    (fun _ => ⟨nofun, nofun⟩) nofun
  rw [counting_of_isCount rfl (by rw [hidle]; rfl)]
  exact h.count

theorem allocsOk_init (h : allocSystem.init s) : AllocsOk s := by
  obtain ⟨hok, hidle⟩ := h
  have hheld : ∀ t, s.held t = [] := by
    intro t
    unfold AllocThreads.held
    rw [(hidle t).1, (hidle t).2]
    rfl
  have hnone : ∀ t frame, ¬ s.Finding t frame := by
    intro t frame hfinding
    unfold AllocThreads.Finding at hfinding
    rw [(hidle t).1] at hfinding
    rcases hfinding with ⟨htest, -⟩ | hset
    · cases htest
    · cases hset
  have hcounting : s.counting = ∅ := by
    refine Finset.eq_empty_of_forall_notMem (fun t ht => ?_)
    rw [mem_counting, (hidle t).1] at ht
    cases ht
  refine ⟨hok.frames, hok.nonzero, hok.offBitmap, ?_, fun t frame h => absurd h (hnone t frame),
    fun t _ frame h => absurd h (hnone t frame), ?_, ?_, ?_, ?_⟩
  · rw [hcounting]
    exact hok.count
  · intro t frame hpending
    rw [(hidle t).1] at hpending
    cases hpending
  · intro t a ha
    rw [hheld] at ha
    cases ha
  · intro t
    rw [hheld]
    exact .nil
  · intro t u _ a ha
    rw [hheld] at ha
    cases ha

/-- **Every frame is free or held once**, under every schedule whose searches
stay apart. -/
theorem allocsOk_invariant :
    (allocSystem.restrict searchesApart).Invariant (AllocsOk : AllocThreads T → Prop) := by
  refine System.Inductive.invariant ⟨fun s h => allocsOk_init h, ?_⟩
  rintro s e s' h ⟨hapart, hstep⟩
  cases e with
  | call t =>
      have hstep : (if s.pc t = .idle then some (s.goto t .search) else none) = some s' := hstep
      split at hstep
      · next hidle =>
          obtain rfl := Option.some.inj hstep
          exact h.call hidle
      · cases hstep
  | statement t => exact h.statement hapart hstep

end Steps

/-- **No frame is handed out twice**, by any number of threads under any
schedule in which no search finds a frame another thread has found and not yet
marked; and whenever no call is in progress, `free_frames` is the number of
clear bits. -/
theorem pmm_alloc_frame_preempted [Fintype T] [DecidableEq T] {s : AllocThreads T}
    (h : (allocSystem.restrict searchesApart).Reachable s) :
    (∀ t u, t ≠ u → ∀ a ∈ s.returned t, a ≠ 0 → a ∉ s.returned u) ∧
    (∀ t, ((s.returned t).filter (· ≠ 0)).Nodup) ∧
    ((∀ t, s.pc t = .idle) → s.pmm.freeFrames.toNat = s.pmm.freeSet.card) := by
  have hok := allocsOk_invariant s h
  have hreturned : ∀ t, ∀ a ∈ s.returned t, a ≠ 0 → a ∈ s.held t := by
    intro t a ha hne
    exact List.mem_append_left _ (List.mem_filter.mpr ⟨ha, decide_eq_true hne⟩)
  refine ⟨?_, ?_, ?_⟩
  · intro t u htu a ha hne hu
    exact hok.disjoint t u htu a (hreturned t a ha hne) (hreturned u a hu hne)
  · intro t
    exact (hok.nodup t).sublist (List.sublist_append_left _ _)
  · intro hidle
    have hcounting : s.counting = ∅ := by
      refine Finset.eq_empty_of_forall_notMem (fun t ht => ?_)
      rw [mem_counting, hidle t] at ht
      cases ht
    have hcount := hok.count
    rwa [hcounting, Finset.card_empty, Nat.add_zero] at hcount

/-- Two threads that have called nothing yet, over seven free frames. -/
def twoAllocators : AllocThreads Bool where
  pmm := {
    mem := fun x => if x = 0x1000 then 0x03 else if x = 0x1001 then 0xfe else 0
    bitmap := 0x1000
    frameCount := 9
    nextSearchIndex := 0
    freeFrames := 7 }
  pc := fun _ => .idle
  returned := fun _ => []

theorem twoAllocators_init : allocSystem.init twoAllocators :=
  ⟨⟨by decide, by decide, by decide, by decide⟩, fun _ => ⟨rfl, rfl⟩⟩

/-- The second thread searches right after the first one has marked its frame. -/
theorem pmm_alloc_frame_preempted_twoAllocators :
    ∃ s : AllocThreads Bool, s.returned false = [0x2000] ∧ s.returned true = [0x3000] ∧
      (0x2000 : Word) ∉ s.returned true := by
  let es : List (AllocEvent Bool) := List.flatten [[.call false, .call true, .statement false,
    .statement false, .statement false], List.replicate 7 (.statement true),
    List.replicate 4 (.statement false)]
  have hrun : (System.runAll (System.onlyIf searchesApart AllocThreads.after) twoAllocators es).map
      (fun s => (s.returned false, s.returned true)) = some ([0x2000], [0x3000]) := by
    decide +kernel
  obtain ⟨s, hs, hview⟩ := Option.map_eq_some_iff.mp hrun
  obtain ⟨hfalse, htrue⟩ := Prod.mk.inj hview
  have hreach : (allocSystem.restrict searchesApart).Reachable s :=
    (System.run_of_onlyIf (fun _ _ _ h => h) hs).reachable (.init twoAllocators_init)
  have hapart := (pmm_alloc_frame_preempted hreach).1 false true Bool.false_ne_true 0x2000
    (by rw [hfalse]; exact List.mem_singleton.mpr rfl) (by decide)
  exact ⟨s, hfalse, htrue, hapart⟩

/-- **Both threads get the same frame**: the second one searches before the
first one has marked what it found. The counter is off afterwards. -/
theorem pmm_alloc_frame_doubles :
    ∃ s : AllocThreads Bool, allocSystem.Reachable s ∧ (∀ t, s.pc t = .idle) ∧
      s.returned false = [0x2000] ∧ s.returned true = [0x2000] ∧
      s.pmm.freeFrames.toNat = 5 ∧ s.pmm.freeSet.card = 6 := by
  let es : List (AllocEvent Bool) := List.flatten [[.call false, .call true, .statement false],
    List.replicate 7 (.statement true), List.replicate 6 (.statement false)]
  have hrun : (System.runAll AllocThreads.after twoAllocators es).map
      (fun s => ([s.pc false, s.pc true], [s.returned false, s.returned true],
        [s.pmm.freeFrames.toNat, s.pmm.freeSet.card])) =
      some ([.idle, .idle], [[0x2000], [0x2000]], [5, 6]) := by decide +kernel
  obtain ⟨s, hs, hview⟩ := Option.map_eq_some_iff.mp hrun
  simp only [Prod.mk.injEq, List.cons.injEq, and_true] at hview
  obtain ⟨⟨hpc₁, hpc₂⟩, ⟨hfalse, htrue⟩, hcounter, hbits⟩ := hview
  have hidle : ∀ t, s.pc t = .idle := by
    intro t
    cases t
    · exact hpc₁
    · exact hpc₂
  have hreach : allocSystem.Reachable s :=
    (System.run_of_runAll (fun _ _ _ h => h) hs).reachable (.init twoAllocators_init)
  exact ⟨s, hreach, hidle, hfalse, htrue, hcounter, hbits⟩

end QuinKernel
