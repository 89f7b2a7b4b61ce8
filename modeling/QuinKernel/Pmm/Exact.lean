import QuinKernel.Pmm.Theorems

/-!
# The bitmap after `pmm_init`, bit by bit

After its `memset`, `pmm_init` does nothing but clear and claim single bits:
`initOps` lists them, loop by loop, and `pmmInit_ops` says that the state left
is theirs. So what `pmm_init` touches can be read off the list.
-/

namespace QuinKernel

open Machine

/-! ## The bits touched -/

/-- One operation on the bitmap. -/
inductive BitOp
  | free (frame : Word)
  | claim (frame : Word)
  deriving DecidableEq

namespace BitOp

/-- The bit index `bitmap_clear`, `bitmap_test` and `bitmap_set` are called with. -/
def frame : BitOp → Word
  | .free f => f
  | .claim f => f

/-- What it does: a loop body of `pmm_init`. -/
def apply (p : Pmm) : BitOp → Pmm
  | .free f => markFree p f
  | .claim f => claimFrame p f

end BitOp

/-- `n` frames from `frame` on. -/
def framesFrom : Nat → Word → List Word
  | 0, _ => []
  | n + 1, frame => frame :: framesFrom n (frame + 1)

/-- The frames the loop over a region frees. -/
def regionOps (entry : BootMemmapEntry) : List BitOp :=
  if entry.type ≠ bootMemmapUsable then []
  else
    (framesFrom (((entry.base + entry.length) / pageSize).toNat - (entry.base / pageSize).toNat)
      (entry.base / pageSize)).map BitOp.free

/-- `frame_count` of a memory map. -/
def initFrameCount (memmap : List BootMemmapEntry) : Word := memmap.foldl raiseHighest 0 / pageSize

/-- `bitmap_bytes`. -/
def initBitmapBytes (memmap : List BootMemmapEntry) : Word := alignUp (initFrameCount memmap) 8 / 8

/-- `bitmap_phys`. -/
def initBitmapPhys (memmap : List BootMemmapEntry) : Word :=
  findBitmapPhys (initBitmapBytes memmap) memmap

/-- The frames claimed back for the bitmap. -/
def bitmapOps (memmap : List BootMemmapEntry) : List BitOp :=
  let start := initBitmapPhys memmap / pageSize
  (framesFrom ((start + alignUp (initBitmapBytes memmap) pageSize / pageSize).toNat - start.toNat)
    start).map BitOp.claim

/-- All that `pmm_init` does to the bitmap after its `memset`. -/
def initOps (memmap : List BootMemmapEntry) : List BitOp :=
  memmap.flatMap regionOps ++ bitmapOps memmap ++ [.claim 0]

/-- The state after the `memset`. -/
def filledBitmap (memmap : List BootMemmapEntry) (m : Mem) : Pmm where
  mem := memset m (initBitmapPhys memmap).toNat 0xff (initBitmapBytes memmap).toNat
  bitmap := initBitmapPhys memmap
  frameCount := initFrameCount memmap
  nextSearchIndex := 0
  freeFrames := 0

theorem forFrames_eq (body : Pmm → Word → Pmm) (n : Nat) (frame : Word) (p : Pmm) :
    forFrames body n frame p = (framesFrom n frame).foldl body p := by
  induction n generalizing frame p with
  | zero => rfl
  | succ n ih => exact ih (frame + 1) (body p frame)

theorem freeRegion_eq (p : Pmm) (entry : BootMemmapEntry) :
    freeRegion p entry = (regionOps entry).foldl BitOp.apply p := by
  unfold freeRegion regionOps
  split
  · rfl
  · rw [forFrames_eq, List.foldl_map]
    rfl

theorem freeRegions_eq (memmap : List BootMemmapEntry) (p : Pmm) :
    memmap.foldl freeRegion p = (memmap.flatMap regionOps).foldl BitOp.apply p := by
  induction memmap generalizing p with
  | nil => rfl
  | cons e rest ih => rw [List.foldl_cons, List.flatMap_cons, List.foldl_append, ih, freeRegion_eq]

/-- Bit operations do not change `frame_count`. -/
theorem frameCount_foldl (ops : List BitOp) (p : Pmm) :
    (ops.foldl BitOp.apply p).frameCount = p.frameCount := by
  induction ops generalizing p with
  | nil => rfl
  | cons op ops ih =>
      rw [List.foldl_cons, ih]
      cases op with
      | free f => rfl
      | claim f =>
          unfold BitOp.apply claimFrame
          dsimp only
          split <;> rfl

/-- **`pmm_init` is its bit operations** on the filled bitmap. -/
theorem pmmInit_ops {response : Option (List BootMemmapEntry)} {memmap : List BootMemmapEntry}
    {m : Mem} {p : Pmm} (hboot : bootGetMemmap response = some memmap)
    (h : pmmInit response m = .ok p) :
    initBitmapPhys memmap ≠ 0 ∧ p = (initOps memmap).foldl BitOp.apply (filledBitmap memmap m) := by
  unfold pmmInit at h
  rw [hboot] at h
  dsimp only at h
  split at h
  · cases h
  · next hphys =>
      refine ⟨hphys, ?_⟩
      obtain rfl := Except.ok.inj h
      unfold initOps bitmapOps
      dsimp only
      rw [List.foldl_append, List.foldl_append, ← freeRegions_eq, List.foldl_map, forFrames_eq]
      rfl

/-! ## Their bounds -/

theorem mem_framesFrom {f : Word} : ∀ {n start : Nat},
    f ∈ framesFrom n (BitVec.ofNat 64 start) → ∃ i < n, f = BitVec.ofNat 64 (start + i)
  | 0, _, h => absurd h List.not_mem_nil
  | n + 1, start, h => by
    have hnext : BitVec.ofNat 64 start + 1 = BitVec.ofNat 64 (start + 1) := by
      rw [BitVec.ofNat_add]
      rfl
    rcases List.mem_cons.mp h with rfl | h
    · exact ⟨0, Nat.zero_lt_succ n, rfl⟩
    · rw [hnext] at h
      obtain ⟨i, hi, rfl⟩ := mem_framesFrom h
      exact ⟨i + 1, Nat.succ_lt_succ hi, by rw [Nat.add_assoc, Nat.add_comm 1]⟩

theorem pageFrame_eq (x : Word) : x / pageSize = BitVec.ofNat 64 (x.toNat / 4096) := by
  have hx := x.isLt
  apply BitVec.eq_of_toNat_eq
  rw [toNat_ofNat_of_lt (by omega)]
  rfl

/-- The frames from `start` on, by number. -/
theorem framesFrom_lt {f x : Word} {n k : Nat} (h : f ∈ framesFrom n (x / pageSize))
    (hk : x.toNat / 4096 + n ≤ k) (hbound : k < 2 ^ 64) : f.toNat < k := by
  rw [pageFrame_eq] at h
  obtain ⟨i, hi, rfl⟩ := mem_framesFrom h
  rw [toNat_ofNat_of_lt (by omega)]
  omega

section Bounds

variable {memmap : List BootMemmapEntry}

theorem initFrameCount_toNat (memmap : List BootMemmapEntry) :
    (initFrameCount memmap).toNat = (memmap.foldl raiseHighest 0).toNat / 4096 := by
  unfold initFrameCount
  rw [BitVec.toNat_udiv]
  rfl

theorem initFrameCount_lt (memmap : List BootMemmapEntry) :
    (initFrameCount memmap).toNat < 2 ^ 52 := by
  have hlt := (memmap.foldl raiseHighest 0).isLt
  rw [initFrameCount_toNat]
  omega

theorem initBitmapBytes_toNat (memmap : List BootMemmapEntry) :
    (initBitmapBytes memmap).toNat = ((initFrameCount memmap).toNat + 7) / 8 :=
  bitmapBytes_toNat (initFrameCount_lt memmap)

/-- A usable region ends at or below `frame_count`. -/
theorem usable_le_frameCount (hok : MemmapOk memmap) {e : BootMemmapEntry} (he : e ∈ memmap)
    (hty : e.type = bootMemmapUsable) :
    (e.base.toNat + e.length.toNat) / 4096 ≤ (initFrameCount memmap).toNat := by
  have hhigh := usable_le_highest hok 0 e he hty
  rw [initFrameCount_toNat]
  exact Nat.div_le_div_right hhigh

/-- **No bit index at or above `frame_count` is touched.** -/
theorem initOps_lt (hok : MemmapOk memmap) (hphys : initBitmapPhys memmap ≠ 0) :
    ∀ op ∈ initOps memmap, op.frame.toNat < (initFrameCount memmap).toNat := by
  have hfc := initFrameCount_lt memmap
  have hbytes := initBitmapBytes_toNat memmap
  obtain ⟨e, he, hty, hfits, hbase⟩ := findBitmapPhys_spec hphys
  obtain ⟨hb4, hl4⟩ := hok.aligned e he hty
  have hend := usable_le_frameCount hok he hty
  have hrange := hok.inRange e he hty
  have hphysNat : (initBitmapPhys memmap).toNat = e.base.toNat := congrArg BitVec.toNat hbase
  have hpos : (initBitmapPhys memmap).toNat ≠ 0 := fun hz => hphys (BitVec.eq_of_toNat_eq hz)
  intro op hop
  unfold initOps at hop
  rw [List.mem_append, List.mem_append, List.mem_flatMap, List.mem_singleton] at hop
  rcases hop with (⟨e', he', hop⟩ | hop) | rfl
  · unfold regionOps at hop
    split at hop
    · exact absurd hop List.not_mem_nil
    · next hty' =>
        obtain ⟨f, hf, rfl⟩ := List.mem_map.mp hop
        have hend' := usable_le_frameCount hok he' (Decidable.not_not.mp hty')
        have hrange' := hok.inRange e' he' (Decidable.not_not.mp hty')
        refine framesFrom_lt hf ?_ (by omega)
        rw [BitVec.toNat_udiv, BitVec.toNat_udiv, BitVec.toNat_add,
          show pageSize.toNat = 4096 from rfl]
        omega
  · unfold bitmapOps at hop
    obtain ⟨f, hf, rfl⟩ := List.mem_map.mp hop
    have hcount : ((initBitmapBytes memmap).toNat + 4095) / 4096 ≤ e.length.toNat / 4096 := by
      omega
    have hin : (initBitmapPhys memmap).toNat / 4096 + ((initBitmapBytes memmap).toNat + 4095) / 4096 ≤
        (initFrameCount memmap).toNat := by
      omega
    refine framesFrom_lt hf ?_ (by omega)
    rw [BitVec.toNat_add, bitmapFrames_toNat (by omega), BitVec.toNat_udiv,
      show pageSize.toNat = 4096 from rfl, Nat.mod_eq_of_lt (by omega)]
    omega
  · show (0 : Word).toNat < _
    rw [show (0 : Word).toNat = 0 from rfl]
    omega

end Bounds

/-- **`pmm_init` is exact.** When it returns on a memory map whose usable
regions are page-aligned and apart, of which the first 256 entries are kept: a
frame below `frame_count` is free exactly when it is not 0, lies in a kept
usable region and is none of the frames that hold the bitmap; `free_frames`
counts the free ones; every bit index touched is below `frame_count`; and the
bitmap lies in one usable region. -/
theorem pmm_init_exact {entries : List BootMemmapEntry} (hok : MemmapOk entries) {m : Mem}
    {p : Pmm} (h : pmmInit (some entries) m = .ok p) :
    let kept := entries.take 256
    let bitmapFrame := p.bitmap.toNat / 4096
    let bitmapBytes := (p.frameCount.toNat + 7) / 8
    (∀ f < p.frameCount.toNat, p.bit f = false ↔
      f ≠ 0 ∧ InUsable kept f ∧
        ¬(bitmapFrame ≤ f ∧ f < bitmapFrame + (bitmapBytes + 4095) / 4096)) ∧
    p.freeFrames.toNat =
      ((Finset.range p.frameCount.toNat).filter (fun f => p.bit f = false)).card ∧
    (p = (initOps kept).foldl BitOp.apply (filledBitmap kept m) ∧
      ∀ op ∈ initOps kept, op.frame.toNat < p.frameCount.toNat) ∧
    ∃ e ∈ kept, e.type = bootMemmapUsable ∧ e.base.toNat ≤ p.bitmap.toNat ∧
      p.bitmap.toNat + bitmapBytes ≤ e.base.toNat + e.length.toNat := by
  intro kept bitmapFrame bitmapBytes
  have hboot : bootGetMemmap (some entries) = some kept := rfl
  have hkept : MemmapOk kept := hok.take 256
  have hinit := pmmInit_spec hboot hkept h
  obtain ⟨hphys, hops⟩ := pmmInit_ops hboot h
  obtain ⟨e, he, hty, hbase, hend⟩ := hinit.region
  obtain ⟨hb4, -⟩ := hkept.aligned e he hty
  rw [hbase] at hb4 hend
  refine ⟨fun f hf => ?_, hinit.count, ⟨hops, ?_⟩, e, he, hty, ?_, ?_⟩
  · have hmem := hinit.freeSet f
    rw [Pmm.mem_freeSet, and_iff_right hf] at hmem
    rw [hmem]
    refine and_congr_right (fun _ => and_congr_right (fun _ => not_congr ?_))
    show f * 4096 < p.bitmap.toNat + bitmapBytes ∧ _ ↔ _
    omega
  · have hcount : p.frameCount = initFrameCount kept := by
      rw [hops]
      exact frameCount_foldl (initOps kept) (filledBitmap kept m)
    rw [hcount]
    exact initOps_lt hkept hphys
  · rw [hbase]
  · rw [hbase]
    exact hend

/-- A map of one region of eight pages. -/
theorem pmm_init_exact_eightPages : ∃ p, pmmInit (some eightPages) (fun _ => 0) = .ok p ∧
    p.freeFrames.toNat =
      ((Finset.range p.frameCount.toNat).filter (fun f => p.bit f = false)).card := by
  obtain ⟨p, hp⟩ := pmmInit_eightPages
  exact ⟨p, hp, (pmm_init_exact eightPages_ok hp).2.1⟩

end QuinKernel
