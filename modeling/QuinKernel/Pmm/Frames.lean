import QuinKernel.Pmm.Model

/-!
# Frames, free sets, and what one call does

`Pmm.freeSet` is the abstract state of the allocator: the set of frames whose
bit is clear. Every client argues about it and never about bytes:
`pmmAllocFrame_cases` says that a call either finds the set empty and changes
nothing, or takes one frame out of it, zeroes that frame and touches nothing
else (`AllocOk`); `pmmFreeFrame_ok` puts one frame back.

`Pmm.Ok` is what makes these hold for an allocator whose bitmap lives in the
memory it hands out: no frame of the free set overlaps the bitmap, frame 0 is
never free, and the counter agrees with the bits.
-/

namespace QuinKernel

open Machine

namespace Pmm

/-- The bit of frame `f`: set when the frame is in use. -/
def bit (p : Pmm) (f : Nat) : Bool := bitmapTest p.mem p.bitmap.toNat (BitVec.ofNat 64 f)

/-- The frames below `frame_count` whose bit is clear. -/
def freeSet (p : Pmm) : Finset Nat :=
  (Finset.range p.frameCount.toNat).filter (fun f => p.bit f = false)

/-- One past the last byte of the bitmap. -/
def bitmapEnd (p : Pmm) : Nat := p.bitmap.toNat + (p.frameCount.toNat + 7) / 8

/-- Frame `f` holds part of the bitmap. -/
def HoldsBitmap (p : Pmm) (f : Nat) : Prop :=
  f * 4096 < p.bitmapEnd ∧ p.bitmap.toNat < (f + 1) * 4096

/-- The allocator invariant its callers rely on. -/
structure Ok (p : Pmm) : Prop where
  frames : p.frameCount.toNat ≤ 2 ^ 52
  count : p.freeFrames.toNat = p.freeSet.card
  nonzero : 0 ∉ p.freeSet
  offBitmap : ∀ f ∈ p.freeSet,
    (f + 1) * 4096 ≤ p.bitmap.toNat ∨ p.bitmapEnd ≤ f * 4096

end Pmm

/-- The effect of allocating frame `f`. -/
structure AllocOk (p : Pmm) (f : Nat) (p' : Pmm) : Prop where
  wasFree : f ∈ p.freeSet
  freeSet : p'.freeSet = p.freeSet.erase f
  ok : p'.Ok
  zeroed : ∀ x, f * 4096 ≤ x → x < (f + 1) * 4096 → p'.mem x = 0
  frame : ∀ x, (x < f * 4096 ∨ (f + 1) * 4096 ≤ x) →
    (x < p.bitmap.toNat ∨ p.bitmapEnd ≤ x) → p'.mem x = p.mem x
  bits : ∀ j < 8 * ((p.frameCount.toNat + 7) / 8), j ≠ f → p'.bit j = p.bit j
  bitmap : p'.bitmap = p.bitmap
  frameCount : p'.frameCount = p.frameCount

namespace Pmm

theorem mem_freeSet {p : Pmm} {f : Nat} :
    f ∈ p.freeSet ↔ f < p.frameCount.toNat ∧ p.bit f = false := by
  simp [freeSet]

theorem freeSet_lt {p : Pmm} {f : Nat} (h : f ∈ p.freeSet) : f < p.frameCount.toNat :=
  (mem_freeSet.mp h).1

theorem freeSet_card_le (p : Pmm) : p.freeSet.card ≤ p.frameCount.toNat := by
  have := Finset.card_filter_le (Finset.range p.frameCount.toNat) (fun f => p.bit f = false)
  rwa [Finset.card_range] at this

/-- The bitmap and everything read off it depend only on the bitmap's bytes. -/
theorem bit_congr {p p' : Pmm} {f : Nat} (hbm : p'.bitmap = p.bitmap) (hf : f < 2 ^ 64)
    (hmem : p'.mem (p.bitmap.toNat + f / 8) = p.mem (p.bitmap.toNat + f / 8)) :
    p'.bit f = p.bit f := by
  unfold bit
  rw [hbm]
  apply bitmapTest_congr
  rw [toNat_ofNat_of_lt hf]
  exact hmem

theorem freeSet_congr {p p' : Pmm} (hbm : p'.bitmap = p.bitmap)
    (hfc : p'.frameCount = p.frameCount)
    (hmem : ∀ x, p.bitmap.toNat ≤ x → x < p.bitmapEnd → p'.mem x = p.mem x) :
    p'.freeSet = p.freeSet := by
  ext f
  rw [mem_freeSet, mem_freeSet, hfc]
  refine and_congr_right (fun hf => ?_)
  have := p.frameCount.isLt
  rw [bit_congr hbm (by omega) (hmem _ (by omega) (by unfold bitmapEnd; omega))]

/-- Writes outside the bitmap keep the allocator invariant. -/
theorem Ok.congr {p p' : Pmm} (h : p.Ok) (hbm : p'.bitmap = p.bitmap)
    (hfc : p'.frameCount = p.frameCount) (hff : p'.freeFrames = p.freeFrames)
    (hmem : ∀ x, p.bitmap.toNat ≤ x → x < p.bitmapEnd → p'.mem x = p.mem x) : p'.Ok := by
  have hset := freeSet_congr hbm hfc hmem
  constructor
  · rw [hfc]; exact h.frames
  · rw [hff, hset]; exact h.count
  · rw [hset]; exact h.nonzero
  · rw [hset, hbm]
    have hend : p'.bitmapEnd = p.bitmapEnd := by simp [bitmapEnd, hbm, hfc]
    rw [hend]
    exact h.offBitmap

/-! ## What setting and clearing a bit does to the free set -/

theorem freeSet_of_set {p p' : Pmm} {f : Nat} (hfc : p'.frameCount = p.frameCount)
    (hbit : ∀ g < p.frameCount.toNat, p'.bit g = (decide (f = g) || p.bit g)) :
    p'.freeSet = p.freeSet.erase f := by
  ext g
  rw [Finset.mem_erase, mem_freeSet, mem_freeSet, hfc]
  by_cases hg : g < p.frameCount.toNat
  · rw [hbit g hg]
    have hcomm : f = g ↔ g = f := eq_comm
    cases hbg : p.bit g <;> simp [hg, hcomm]
  · simp [hg]

theorem freeSet_of_clear {p p' : Pmm} {f : Nat} (hf : f < p.frameCount.toNat)
    (hfc : p'.frameCount = p.frameCount)
    (hbit : ∀ g < p.frameCount.toNat, p'.bit g = (!decide (f = g) && p.bit g)) :
    p'.freeSet = insert f p.freeSet := by
  ext g
  rw [Finset.mem_insert, mem_freeSet, mem_freeSet, hfc]
  by_cases hg : g < p.frameCount.toNat
  · rw [hbit g hg]
    by_cases hfg : f = g
    · simp [hfg, hg]
    · simp [hfg, Ne.symm hfg, hg]
  · have hgf : g ≠ f := fun h => hg (h ▸ hf)
    simp [hg, hgf]

/-! ## `pmm_alloc_frame` -/

/-- The memory `pmm_alloc_frame` leaves when it hands out frame `f`. -/
theorem pmmAllocFrame_of_clear {p : Pmm} (ok : p.Ok) {f : Nat} (hf : f ∈ p.freeSet)
    (hfind : bitmapFindFirstClear p.mem p.bitmap.toNat p.frameCount p.nextSearchIndex =
      BitVec.ofNat 64 f) :
    (pmmAllocFrame p).1 = BitVec.ofNat 64 (f * 4096) ∧ AllocOk p f (pmmAllocFrame p).2 := by
  have hlt := freeSet_lt hf
  have hframes := ok.frames
  have hphys : (BitVec.ofNat 64 f * pageSize).toNat = f * 4096 := by
    simp [pageSize, BitVec.toNat_mul]
    omega
  have hne : BitVec.ofNat 64 f ≠ p.frameCount := by
    intro h
    have := congrArg BitVec.toNat h
    rw [toNat_ofNat_of_lt (by omega)] at this
    omega
  have hcall : pmmAllocFrame p = (BitVec.ofNat 64 f * pageSize,
      { p with
        mem := memset (bitmapSet p.mem p.bitmap.toNat (BitVec.ofNat 64 f))
          (BitVec.ofNat 64 f * pageSize).toNat 0 pageSize.toNat
        freeFrames := p.freeFrames - 1
        nextSearchIndex := BitVec.ofNat 64 f + 1 }) := by
    simp only [pmmAllocFrame, hfind, if_neg hne]
  rw [hcall]
  set p' : Pmm := { p with
    mem := memset (bitmapSet p.mem p.bitmap.toNat (BitVec.ofNat 64 f))
      (BitVec.ofNat 64 f * pageSize).toNat 0 pageSize.toNat
    freeFrames := p.freeFrames - 1
    nextSearchIndex := BitVec.ofNat 64 f + 1 } with hp'
  have hmem : ∀ x, p'.mem x = if f * 4096 ≤ x ∧ x < (f + 1) * 4096 then 0
      else bitmapSet p.mem p.bitmap.toNat (BitVec.ofNat 64 f) x := by
    intro x
    have hmemset : p'.mem x = if f * 4096 ≤ x ∧ x < f * 4096 + 4096 then (0 : BitVec 32).setWidth 8
        else bitmapSet p.mem p.bitmap.toNat (BitVec.ofNat 64 f) x := by
      rw [← memset_apply, hp', hphys]
      rfl
    rw [hmemset, show f * 4096 + 4096 = (f + 1) * 4096 by omega]
    rfl
  have hoff := ok.offBitmap f hf
  -- zeroing the frame does not reach the bitmap's storage
  have hbits : ∀ j < 8 * ((p.frameCount.toNat + 7) / 8),
      p'.bit j = (decide (f = j) || p.bit j) := by
    intro j hj
    have hj64 : j < 2 ^ 64 := by omega
    have hbyte : p'.mem (p.bitmap.toNat + j / 8) =
        bitmapSet p.mem p.bitmap.toNat (BitVec.ofNat 64 f) (p.bitmap.toNat + j / 8) := by
      rw [hmem, if_neg (by unfold bitmapEnd at hoff; omega)]
    have hcongr : p'.bit j = bitmapTest (bitmapSet p.mem p.bitmap.toNat (BitVec.ofNat 64 f))
        p.bitmap.toNat (BitVec.ofNat 64 j) := by
      unfold bit
      apply bitmapTest_congr
      rw [toNat_ofNat_of_lt hj64]
      exact hbyte
    rw [hcongr, bitmapTest_set]
    simp only [ofNat_eq_iff (show f < 2 ^ 64 by omega) hj64]
    rfl
  have hset : p'.freeSet = p.freeSet.erase f :=
    freeSet_of_set rfl (fun g hg => hbits g (by omega))
  refine ⟨BitVec.eq_of_toNat_eq (by rw [hphys, toNat_ofNat_of_lt (by omega)]), ?_⟩
  refine ⟨hf, hset, ?_, ?_, ?_, ?_, rfl, rfl⟩
  · constructor
    · exact ok.frames
    · have hpos : 0 < p.freeSet.card := Finset.card_pos.mpr ⟨f, hf⟩
      have hcount := ok.count
      rw [hset, Finset.card_erase_of_mem hf, ← hcount]
      exact BitVec.toNat_sub_of_le (by rw [BitVec.le_def, hcount]; exact hpos)
    · rw [hset]
      exact fun h => ok.nonzero (Finset.mem_of_mem_erase h)
    · rw [hset]
      exact fun g hg => ok.offBitmap g (Finset.mem_of_mem_erase hg)
  · intro x hlo hhi
    rw [hmem, if_pos ⟨hlo, hhi⟩]
  · intro x hpage hstore
    rw [hmem, if_neg (by omega)]
    apply bitmapSet_agreeOff
    rw [toNat_ofNat_of_lt (by omega)]
    unfold bitmapEnd at hstore
    omega
  · intro j hj hjf
    rw [hbits j hj]
    simp [Ne.symm hjf]

/-- **What `pmm_alloc_frame` does**: it fails exactly when no frame is free,
changing nothing, and otherwise hands out one free frame. -/
theorem pmmAllocFrame_cases {p : Pmm} (ok : p.Ok) :
    (p.freeSet = ∅ ∧ pmmAllocFrame p = (0, p)) ∨
    ∃ f, (pmmAllocFrame p).1 = BitVec.ofNat 64 (f * 4096) ∧ AllocOk p f (pmmAllocFrame p).2 := by
  have hframes := ok.frames
  by_cases hzero : p.frameCount = 0
  · refine .inl ⟨?_, by simp [pmmAllocFrame, bitmapFindFirstClear, hzero]⟩
    simp [freeSet, hzero]
  have hpos : 0 < p.frameCount.toNat := by
    rw [Nat.pos_iff_ne_zero]
    exact fun h => hzero (BitVec.eq_of_toNat_eq h)
  rcases bitmapFindFirstClear_spec p.mem p.bitmap.toNat p.nextSearchIndex hpos (by omega) with
    ⟨hfind, hall⟩ | ⟨k, hk, hfind, hclear, _⟩
  · refine .inl ⟨?_, by simp [pmmAllocFrame, hfind]⟩
    refine Finset.eq_empty_of_forall_notMem (fun f hf => ?_)
    obtain ⟨hlt, hbit⟩ := mem_freeSet.mp hf
    rw [bit, hall f hlt] at hbit
    exact absurd hbit (by simp)
  · refine .inr ⟨_, pmmAllocFrame_of_clear ok (mem_freeSet.mpr ⟨Nat.mod_lt _ hpos, ?_⟩) hfind⟩
    rw [hfind] at hclear
    exact hclear

/-! ## `pmm_free_frame` -/

/-- `pmm_free_frame` accepts exactly the addresses inside a frame below
`frame_count` whose bit is set, and clears that bit. -/
theorem pmmFreeFrame_eq (p : Pmm) (a : Word) :
    pmmFreeFrame p a =
      if a.toNat / 4096 < p.frameCount.toNat ∧ p.bit (a.toNat / 4096) = true then
        .ok { p with
          mem := bitmapClear p.mem p.bitmap.toNat (BitVec.ofNat 64 (a.toNat / 4096))
          freeFrames := p.freeFrames + 1 }
      else .error ⟨"pmm_free_frame: double free or invalid address 0x%lx", [a]⟩ := by
  have hlt := a.isLt
  have hframe : a / pageSize = BitVec.ofNat 64 (a.toNat / 4096) := by
    apply BitVec.eq_of_toNat_eq
    rw [toNat_ofNat_of_lt (by omega)]
    simp [pageSize]
  have hle : p.frameCount ≤ a / pageSize ↔ p.frameCount.toNat ≤ a.toNat / 4096 := by
    rw [hframe, BitVec.le_def, toNat_ofNat_of_lt (by omega)]
  have hbit : bitmapTest p.mem p.bitmap.toNat (a / pageSize) = p.bit (a.toNat / 4096) := by
    rw [hframe]
    rfl
  unfold pmmFreeFrame
  dsimp only
  by_cases hacc : a.toNat / 4096 < p.frameCount.toNat ∧ p.bit (a.toNat / 4096) = true
  · rw [if_pos hacc, if_neg, hframe]
    rw [hle, hbit, hacc.2]
    simpa using hacc.1
  · rw [if_neg hacc, if_pos]
    rw [hle, hbit]
    by_cases hf : a.toNat / 4096 < p.frameCount.toNat
    · simp only [hf, true_and, Bool.not_eq_true] at hacc
      simp [hacc]
    · exact .inl (by omega)

/-- Freeing frame `f`, when it is accepted. -/
structure FreeOk (p : Pmm) (f : Nat) (p' : Pmm) : Prop where
  wasUsed : f < p.frameCount.toNat ∧ p.bit f = true
  freeSet : p'.freeSet = insert f p.freeSet
  count : p.freeFrames.toNat = p.freeSet.card → p'.freeFrames.toNat = p'.freeSet.card
  frame : ∀ x, (x < p.bitmap.toNat ∨ p.bitmapEnd ≤ x) → p'.mem x = p.mem x
  bitmap : p'.bitmap = p.bitmap
  frameCount : p'.frameCount = p.frameCount

theorem pmmFreeFrame_ok {p p' : Pmm} {a : Word} (h : pmmFreeFrame p a = .ok p') :
    FreeOk p (a.toNat / 4096) p' := by
  have hfc := p.frameCount.isLt
  rw [pmmFreeFrame_eq] at h
  by_cases hacc : a.toNat / 4096 < p.frameCount.toNat ∧ p.bit (a.toNat / 4096) = true
  swap
  · simp [hacc] at h
  rw [if_pos hacc] at h
  set f := a.toNat / 4096 with hfdef
  have hp' := (Except.ok.inj h).symm
  have hmem : p'.mem = bitmapClear p.mem p.bitmap.toNat (BitVec.ofNat 64 f) := by rw [hp']
  have hset : p'.freeSet = insert f p.freeSet := by
    refine freeSet_of_clear hacc.1 (by rw [hp']) (fun g hg => ?_)
    have hbit : p'.bit g = bitmapTest (bitmapClear p.mem p.bitmap.toNat (BitVec.ofNat 64 f))
        p.bitmap.toNat (BitVec.ofNat 64 g) := by rw [hp']; rfl
    rw [hbit, bitmapTest_clear]
    simp only [ofNat_eq_iff (show f < 2 ^ 64 by omega) (show g < 2 ^ 64 by omega)]
    rfl
  refine ⟨hacc, hset, ?_, ?_, by rw [hp'], by rw [hp']⟩
  · intro hcount
    have hnot : f ∉ p.freeSet := by
      simp [mem_freeSet, hacc.2]
    have hlt : (insert f p.freeSet).card ≤ p.frameCount.toNat := by
      rw [← hset, ← show p'.frameCount = p.frameCount by rw [hp']]
      exact freeSet_card_le p'
    rw [hset]
    rw [Finset.card_insert_of_notMem hnot] at hlt ⊢
    rw [← hcount, hp']
    simp only [BitVec.toNat_add]
    rw [hcount]
    exact Nat.mod_eq_of_lt (by change _ + 1 < _; omega)
  · intro x hx
    rw [hmem]
    apply bitmapClear_agreeOff
    rw [toNat_ofNat_of_lt (by omega)]
    unfold bitmapEnd at hx
    omega

/-- Handing back a frame that overlaps neither frame 0 nor the bitmap keeps
the allocator invariant. -/
theorem Ok.free {p p' : Pmm} {f : Nat} (ok : p.Ok) (h : FreeOk p f p') (hf : f ≠ 0)
    (hoff : (f + 1) * 4096 ≤ p.bitmap.toNat ∨ p.bitmapEnd ≤ f * 4096) : p'.Ok := by
  have hend : p'.bitmapEnd = p.bitmapEnd := by simp [bitmapEnd, h.bitmap, h.frameCount]
  constructor
  · rw [h.frameCount]; exact ok.frames
  · exact h.count ok.count
  · rw [h.freeSet, Finset.mem_insert, not_or]
    exact ⟨Ne.symm hf, ok.nonzero⟩
  · rw [h.freeSet, h.bitmap, hend]
    intro g hg
    rcases Finset.mem_insert.mp hg with rfl | hg
    · exact hoff
    · exact ok.offBitmap g hg

end Pmm

end QuinKernel
