import QuinKernel.Pmm.Frames

/-!
# What `pmm_init` leaves behind

The boot-time loops are followed on the abstract state: `Tracks S p` says that
`S` is the free set and that the counter agrees with it. Clearing a region's
bits adds its frames, claiming a frame back erases it, so the state after
`pmm_init` is read off as a set expression (`pmmInit_spec`): the usable
frames, less the bitmap's own frames, less frame 0.
-/

namespace QuinKernel

open Machine

/-- Address `x` lies in the entry's range. -/
def BootMemmapEntry.Covers (entry : BootMemmapEntry) (x : Nat) : Prop :=
  entry.base.toNat ≤ x ∧ x < entry.base.toNat + entry.length.toNat

/-- What the bootloader promises of a memory map: usable regions are made of
whole pages, end inside the 64-bit physical address space, and do not overlap
each other. -/
structure MemmapOk (memmap : List BootMemmapEntry) : Prop where
  aligned : ∀ e ∈ memmap, e.type = bootMemmapUsable →
    e.base.toNat % 4096 = 0 ∧ e.length.toNat % 4096 = 0
  inRange : ∀ e ∈ memmap, e.type = bootMemmapUsable → e.base.toNat + e.length.toNat < 2 ^ 64
  disjoint : memmap.Pairwise (fun a b => a.type = bootMemmapUsable → b.type = bootMemmapUsable →
    ∀ x, ¬ (a.Covers x ∧ b.Covers x))

/-- Frame `f` lies inside a usable region. -/
def InUsable (memmap : List BootMemmapEntry) (f : Nat) : Prop :=
  ∃ e ∈ memmap, e.type = bootMemmapUsable ∧
    e.base.toNat ≤ f * 4096 ∧ (f + 1) * 4096 ≤ e.base.toNat + e.length.toNat

/-- The frames the allocator manages: the ones it may hand out. -/
def Managed (memmap : List BootMemmapEntry) (p : Pmm) (f : Nat) : Prop :=
  f ≠ 0 ∧ InUsable memmap f ∧ ¬ p.HoldsBitmap f

theorem MemmapOk.take {memmap : List BootMemmapEntry} (h : MemmapOk memmap) (n : Nat) :
    MemmapOk (memmap.take n) :=
  ⟨fun e he => h.aligned e (List.mem_of_mem_take he),
   fun e he => h.inRange e (List.mem_of_mem_take he),
   h.disjoint.sublist (List.take_sublist n memmap)⟩

theorem MemmapOk.tail {e : BootMemmapEntry} {rest : List BootMemmapEntry}
    (h : MemmapOk (e :: rest)) : MemmapOk rest :=
  ⟨fun e' he => h.aligned e' (List.mem_cons_of_mem _ he),
   fun e' he => h.inRange e' (List.mem_cons_of_mem _ he),
   (List.pairwise_cons.mp h.disjoint).2⟩

/-! ## The frames of a region -/

/-- The frames of a usable region; none for a region of another type. -/
def regionFrames (entry : BootMemmapEntry) : Finset Nat :=
  if entry.type = bootMemmapUsable then
    Finset.Ico (entry.base.toNat / 4096) ((entry.base.toNat + entry.length.toNat) / 4096)
  else ∅

/-- The frames of all usable regions. -/
def usableFrames (memmap : List BootMemmapEntry) : Finset Nat :=
  memmap.foldr (fun entry s => regionFrames entry ∪ s) ∅

theorem mem_regionFrames {e : BootMemmapEntry} {f : Nat} (ha : e.type = bootMemmapUsable →
    e.base.toNat % 4096 = 0 ∧ e.length.toNat % 4096 = 0) :
    f ∈ regionFrames e ↔ e.type = bootMemmapUsable ∧
      e.base.toNat ≤ f * 4096 ∧ (f + 1) * 4096 ≤ e.base.toNat + e.length.toNat := by
  unfold regionFrames
  by_cases hty : e.type = bootMemmapUsable
  · obtain ⟨hb, hl⟩ := ha hty
    rw [if_pos hty, Finset.mem_Ico]
    constructor
    · rintro ⟨hlo, hhi⟩
      exact ⟨hty, by omega, by omega⟩
    · rintro ⟨_, hlo, hhi⟩
      exact ⟨by omega, by omega⟩
  · simp [hty]

theorem mem_usableFrames {memmap : List BootMemmapEntry} (h : MemmapOk memmap) {f : Nat} :
    f ∈ usableFrames memmap ↔ InUsable memmap f := by
  induction memmap with
  | nil => simp [usableFrames, InUsable]
  | cons e rest ih =>
      have hhead := mem_regionFrames (f := f) (h.aligned e List.mem_cons_self)
      change f ∈ regionFrames e ∪ usableFrames rest ↔ _
      rw [Finset.mem_union, hhead, ih h.tail]
      simp [InUsable]

/-- Frames of two regions of a memory map are disjoint. -/
theorem regionFrames_notMem {e : BootMemmapEntry} {rest : List BootMemmapEntry}
    (h : MemmapOk (e :: rest)) {f : Nat} (hf : f ∈ regionFrames e) :
    f ∉ usableFrames rest := by
  rw [mem_usableFrames h.tail]
  rintro ⟨e', he', hty', hlo', hhi'⟩
  obtain ⟨hty, hlo, hhi⟩ :=
    (mem_regionFrames (h.aligned e List.mem_cons_self)).mp hf
  refine (List.pairwise_cons.mp h.disjoint).1 e' he' hty hty' (f * 4096) ⟨?_, ?_⟩
  · exact ⟨hlo, by omega⟩
  · exact ⟨hlo', by omega⟩

/-! ## Following the loops on the free set -/

/-- `S` is the free set, and the counter agrees with it. -/
structure Tracks (bitmap frameCount : Word) (S : Finset Nat) (p : Pmm) : Prop where
  bitmap : p.bitmap = bitmap
  frameCount : p.frameCount = frameCount
  freeSet : p.freeSet = S
  count : p.freeFrames.toNat = S.card

section Loops

variable {b fc : Word} {S : Finset Nat} {p : Pmm}

theorem Tracks.markFree (h : Tracks b fc S p) {f : Nat} (hf : f < fc.toNat) (hS : f ∉ S) :
    Tracks b fc (insert f S) (markFree p (BitVec.ofNat 64 f)) := by
  have hfc := fc.isLt
  have hset : (QuinKernel.markFree p (BitVec.ofNat 64 f)).freeSet = insert f S := by
    rw [← h.freeSet]
    refine Pmm.freeSet_of_clear (by rw [h.frameCount]; exact hf) rfl (fun g hg => ?_)
    rw [h.frameCount] at hg
    change bitmapTest (bitmapClear p.mem p.bitmap.toNat (BitVec.ofNat 64 f)) p.bitmap.toNat
      (BitVec.ofNat 64 g) = _
    rw [bitmapTest_clear]
    simp only [ofNat_eq_iff (show f < 2 ^ 64 by omega) (show g < 2 ^ 64 by omega)]
    rfl
  refine ⟨h.bitmap, h.frameCount, hset, ?_⟩
  have hle := Pmm.freeSet_card_le (QuinKernel.markFree p (BitVec.ofNat 64 f))
  rw [hset, show (QuinKernel.markFree p (BitVec.ofNat 64 f)).frameCount = fc from h.frameCount] at hle
  rw [Finset.card_insert_of_notMem hS] at hle ⊢
  change (p.freeFrames + 1).toNat = _
  rw [BitVec.toNat_add, h.count]
  exact Nat.mod_eq_of_lt (by change S.card + 1 < _; omega)

theorem Tracks.claimFrame (h : Tracks b fc S p) {f : Nat} (hf : f < fc.toNat) :
    Tracks b fc (S.erase f) (claimFrame p (BitVec.ofNat 64 f)) := by
  have hfc := fc.isLt
  unfold QuinKernel.claimFrame
  by_cases hbit : bitmapTest p.mem p.bitmap.toNat (BitVec.ofNat 64 f) = true
  · have hS : f ∉ S := by
      rw [← h.freeSet, Pmm.mem_freeSet]
      rintro ⟨_, hclear⟩
      rw [Pmm.bit, hbit] at hclear
      exact absurd hclear (by simp)
    rw [if_neg (by simp [hbit]), Finset.erase_eq_of_notMem hS]
    exact h
  · have hS : f ∈ S := by
      rw [← h.freeSet, Pmm.mem_freeSet]
      exact ⟨by rw [h.frameCount]; exact hf, by simpa [Pmm.bit] using hbit⟩
    rw [if_pos (by simp [hbit])]
    refine ⟨h.bitmap, h.frameCount, ?_, ?_⟩
    · rw [← h.freeSet]
      refine Pmm.freeSet_of_set rfl (fun g hg => ?_)
      rw [h.frameCount] at hg
      change bitmapTest (bitmapSet p.mem p.bitmap.toNat (BitVec.ofNat 64 f)) p.bitmap.toNat
        (BitVec.ofNat 64 g) = _
      rw [bitmapTest_set]
      simp only [ofNat_eq_iff (show f < 2 ^ 64 by omega) (show g < 2 ^ 64 by omega)]
      rfl
    · rw [Finset.card_erase_of_mem hS, ← h.count]
      have hpos : 0 < S.card := Finset.card_pos.mpr ⟨f, hS⟩
      exact BitVec.toNat_sub_of_le (by rw [BitVec.le_def, h.count]; exact hpos)

/-- The loop rule for `forFrames`: `P f` holds when frame `f` is next. -/
theorem forFrames_rule {body : Pmm → Word → Pmm} {P : Nat → Pmm → Prop} :
    ∀ (n start : Nat) (p : Pmm), P start p →
    (∀ f p, start ≤ f → f < start + n → P f p → P (f + 1) (body p (BitVec.ofNat 64 f))) →
    P (start + n) (forFrames body n (BitVec.ofNat 64 start) p) := by
  intro n
  induction n with
  | zero => intro start p hp _; exact hp
  | succ n ih =>
      intro start p hp hbody
      have hnext : BitVec.ofNat 64 start + 1 = BitVec.ofNat 64 (start + 1) := by
        rw [BitVec.ofNat_add]
        rfl
      rw [forFrames, hnext, show start + (n + 1) = start + 1 + n by omega]
      refine ih (start + 1) _ (hbody start p (Nat.le_refl _) (by omega) hp) ?_
      exact fun f p hlo hhi => hbody f p (by omega) (by omega)

/-- A region's loop adds the region's frames to the free set. -/
theorem Tracks.freeRange (h : Tracks b fc S p) {start n : Nat}
    (hS : ∀ f ∈ Finset.Ico start (start + n), f < fc.toNat ∧ f ∉ S) :
    Tracks b fc (S ∪ Finset.Ico start (start + n))
      (forFrames QuinKernel.markFree n (BitVec.ofNat 64 start) p) := by
  refine forFrames_rule (P := fun f p => Tracks b fc (S ∪ Finset.Ico start f) p) n start p
    (by simpa using h) (fun f p hlo hhi hp => ?_)
  obtain ⟨hlt, hfS⟩ := hS f (Finset.mem_Ico.mpr ⟨hlo, hhi⟩)
  have hstep := hp.markFree hlt (show f ∉ S ∪ Finset.Ico start f by simp [hfS])
  rwa [← Finset.union_insert, Finset.insert_Ico_right_eq_Ico_add_one hlo] at hstep

/-- The loop that claims frames back takes them out of the free set. -/
theorem Tracks.claimRange (h : Tracks b fc S p) (start n : Nat) (hend : start + n ≤ fc.toNat) :
    Tracks b fc (S \ Finset.Ico start (start + n))
      (forFrames QuinKernel.claimFrame n (BitVec.ofNat 64 start) p) := by
  refine forFrames_rule (P := fun f p => Tracks b fc (S \ Finset.Ico start f) p) n start p
    (by simpa using h) (fun f p hlo hhi hp => ?_)
  have hstep := hp.claimFrame (show f < fc.toNat by omega)
  rwa [← Finset.sdiff_insert, Finset.insert_Ico_right_eq_Ico_add_one hlo] at hstep

/-- Freeing every usable region of the map. -/
theorem Tracks.freeRegions {memmap : List BootMemmapEntry} (hmap : MemmapOk memmap) :
    ∀ {S : Finset Nat} {p : Pmm}, Tracks b fc S p →
    (∀ f ∈ usableFrames memmap, f < fc.toNat ∧ f ∉ S) →
    Tracks b fc (S ∪ usableFrames memmap) (memmap.foldl freeRegion p) := by
  induction memmap with
  | nil => intro S p h _; simpa [usableFrames] using h
  | cons e rest ih =>
      intro S p h hbound
      have hunion : usableFrames (e :: rest) = regionFrames e ∪ usableFrames rest := rfl
      have hhead : Tracks b fc (S ∪ regionFrames e) (freeRegion p e) := by
        by_cases hty : e.type = bootMemmapUsable
        · obtain ⟨hb4, hl4⟩ := hmap.aligned e List.mem_cons_self hty
          have hrange := hmap.inRange e List.mem_cons_self hty
          have hstart : e.base / pageSize = BitVec.ofNat 64 (e.base.toNat / 4096) := by
            apply BitVec.eq_of_toNat_eq
            rw [toNat_ofNat_of_lt (by omega)]
            simp [pageSize]
          have hcount : ((e.base + e.length) / pageSize).toNat - (e.base / pageSize).toNat =
              (e.base.toNat + e.length.toNat) / 4096 - e.base.toNat / 4096 := by
            simp [pageSize, BitVec.toNat_add]
            omega
          have hregion : regionFrames e = Finset.Ico (e.base.toNat / 4096)
              (e.base.toNat / 4096 +
                ((e.base.toNat + e.length.toNat) / 4096 - e.base.toNat / 4096)) := by
            rw [regionFrames, if_pos hty]
            congr 1
            omega
          have hin : ∀ f ∈ regionFrames e, f < fc.toNat ∧ f ∉ S :=
            fun f hf => hbound f (by rw [hunion]; exact Finset.mem_union_left _ hf)
          rw [freeRegion, if_neg (by simpa using hty)]
          dsimp only
          rw [hcount, hstart, hregion]
          rw [hregion] at hin
          exact h.freeRange hin
        · rw [freeRegion, if_pos hty, regionFrames, if_neg hty, Finset.union_empty]
          exact h
      rw [List.foldl_cons, hunion, ← Finset.union_assoc]
      refine ih hmap.tail hhead (fun f hf => ?_)
      have hf' := hbound f (by rw [hunion]; exact Finset.mem_union_right _ hf)
      refine ⟨hf'.1, ?_⟩
      rw [Finset.mem_union, not_or]
      exact ⟨hf'.2, fun hr => regionFrames_notMem hmap hr hf⟩

end Loops

/-! ## The pieces of `pmm_init` -/

theorem raiseHighest_ge (highest : Word) (e : BootMemmapEntry) :
    highest.toNat ≤ (raiseHighest highest e).toNat := by
  unfold raiseHighest
  split
  · exact Nat.le_refl _
  · dsimp only
    split
    · next h => exact Nat.le_of_lt h
    · exact Nat.le_refl _

theorem foldl_raiseHighest_ge (memmap : List BootMemmapEntry) (highest : Word) :
    highest.toNat ≤ (memmap.foldl raiseHighest highest).toNat := by
  induction memmap generalizing highest with
  | nil => exact Nat.le_refl _
  | cons e rest ih => exact Nat.le_trans (raiseHighest_ge highest e) (ih _)

/-- No usable region ends above `highest_addr`. -/
theorem usable_le_highest {memmap : List BootMemmapEntry} (h : MemmapOk memmap) (highest : Word) :
    ∀ e ∈ memmap, e.type = bootMemmapUsable →
      e.base.toNat + e.length.toNat ≤ (memmap.foldl raiseHighest highest).toNat := by
  induction memmap generalizing highest with
  | nil => intro e he; exact absurd he (List.not_mem_nil)
  | cons e' rest ih =>
      intro e he hty
      rcases List.mem_cons.mp he with rfl | he
      · have hrange := h.inRange e List.mem_cons_self hty
        have hsum : (e.base + e.length).toNat = e.base.toNat + e.length.toNat := by
          rw [BitVec.toNat_add]
          exact Nat.mod_eq_of_lt hrange
        have hraise : e.base.toNat + e.length.toNat ≤ (raiseHighest highest e).toNat := by
          rw [raiseHighest, if_neg (by simp [hty]), ← hsum]
          dsimp only
          split
          · exact Nat.le_refl _
          · next hge => exact Nat.not_lt.mp hge
        exact Nat.le_trans hraise (foldl_raiseHighest_ge rest _)
      · exact ih h.tail _ e he hty

/-- The bitmap goes to the base of a usable region it fits in. -/
theorem findBitmapPhys_spec {bytes : Word} {memmap : List BootMemmapEntry}
    (h : findBitmapPhys bytes memmap ≠ 0) :
    ∃ e ∈ memmap, e.type = bootMemmapUsable ∧ bytes.toNat ≤ e.length.toNat ∧
      findBitmapPhys bytes memmap = e.base := by
  induction memmap with
  | nil => exact absurd rfl h
  | cons e rest ih =>
      unfold findBitmapPhys at h ⊢
      by_cases he : e.type = bootMemmapUsable ∧ bytes ≤ e.length
      · rw [if_pos he]
        exact ⟨e, List.mem_cons_self, he.1, he.2, rfl⟩
      · rw [if_neg he] at h ⊢
        obtain ⟨e', hmem, hrest⟩ := ih h
        exact ⟨e', List.mem_cons_of_mem _ hmem, hrest⟩

/-- The state `pmm_init` leaves on a memory map. -/
structure InitOk (memmap : List BootMemmapEntry) (p : Pmm) : Prop where
  frames : p.frameCount.toNat < 2 ^ 52
  region : ∃ e ∈ memmap, e.type = bootMemmapUsable ∧ e.base = p.bitmap ∧
    p.bitmapEnd ≤ e.base.toNat + e.length.toNat
  usable : ∀ f, InUsable memmap f → f < p.frameCount.toNat
  freeSet : ∀ f, f ∈ p.freeSet ↔ Managed memmap p f
  count : p.freeFrames.toNat = p.freeSet.card

theorem allOnes_getLsbD {k : Nat} (hk : k < 8) :
    ((0xff : BitVec 32).setWidth 8 : Byte).getLsbD k = true := by
  have hones : ((0xff : BitVec 32).setWidth 8 : Byte) = BitVec.allOnes 8 := by decide
  rw [hones, BitVec.getLsbD_allOnes]
  simpa using hk

/-- After the `memset` every frame is in use. -/
theorem Tracks.filled (m : Mem) (b fc bytes : Word)
    (hbytes : bytes.toNat = (fc.toNat + 7) / 8) :
    Tracks b fc ∅
      { mem := memset m b.toNat 0xff bytes.toNat
        bitmap := b, frameCount := fc, nextSearchIndex := 0, freeFrames := 0 } := by
  have hfc := fc.isLt
  refine ⟨rfl, rfl, ?_, rfl⟩
  refine Finset.eq_empty_of_forall_notMem (fun f hf => ?_)
  obtain ⟨hlt, hbit⟩ := Pmm.mem_freeSet.mp hf
  dsimp only at hlt
  unfold Pmm.bit at hbit
  dsimp only at hbit
  rw [bitmapTest_eq, memset_apply, toNat_ofNat_of_lt (by omega), if_pos (by omega),
    allOnes_getLsbD (Nat.mod_lt _ (by omega))] at hbit
  exact absurd hbit (by simp)

theorem bitmapBytes_toNat {fc : Word} (hfc : fc.toNat < 2 ^ 52) :
    (alignUp fc 8 / 8).toNat = (fc.toNat + 7) / 8 := by
  rw [BitVec.toNat_udiv, alignUp_8, Nat.mod_eq_of_lt (show fc.toNat + 7 < 2 ^ 64 by omega)]
  exact Nat.mul_div_cancel _ (by decide)

theorem bitmapFrames_toNat {bytes : Word} (hbytes : bytes.toNat < 2 ^ 63) :
    (alignUp bytes pageSize / pageSize).toNat = (bytes.toNat + 4095) / 4096 := by
  rw [BitVec.toNat_udiv, show pageSize = (4096 : Word) from rfl, alignUp_4096,
    Nat.mod_eq_of_lt (show bytes.toNat + 4095 < 2 ^ 64 by omega)]
  exact Nat.mul_div_cancel _ (by decide)

/-- **What `pmm_init` leaves behind**: the free frames are exactly the managed
ones, and the counter counts them. -/
theorem pmmInit_spec {response : Option (List BootMemmapEntry)} {memmap : List BootMemmapEntry}
    {m : Mem} {p : Pmm} (hboot : bootGetMemmap response = some memmap) (hok : MemmapOk memmap)
    (h : pmmInit response m = .ok p) : InitOk memmap p := by
  simp only [pmmInit, hboot] at h
  set fc := memmap.foldl raiseHighest 0 / pageSize with hfcdef
  set bytes := alignUp fc 8 / 8 with hbytesdef
  set b := findBitmapPhys bytes memmap with hbdef
  by_cases hb : b = 0
  · simp [hb] at h
  rw [if_neg hb] at h
  have hfcNat : fc.toNat = (memmap.foldl raiseHighest 0).toNat / 4096 := by
    rw [hfcdef, BitVec.toNat_udiv]
    rfl
  have hfc : fc.toNat < 2 ^ 52 := by
    have := (memmap.foldl raiseHighest 0).isLt
    omega
  have hbytes : bytes.toNat = (fc.toNat + 7) / 8 := bitmapBytes_toNat hfc
  obtain ⟨e, he, hty, hfits, hbase⟩ := findBitmapPhys_spec hb
  obtain ⟨hb4, hl4⟩ := hok.aligned e he hty
  have hhigh := usable_le_highest hok 0 e he hty
  have hrange := hok.inRange e he hty
  have hbe : b.toNat = e.base.toNat := congrArg BitVec.toNat hbase
  have husable : ∀ f, InUsable memmap f → f < fc.toNat := by
    rintro f ⟨e', he', hty', _, hhi'⟩
    have := usable_le_highest hok 0 e' he' hty'
    omega
  -- the three loops, on the free set
  have hfilled := Tracks.filled m b fc bytes hbytes
  have hfreed := hfilled.freeRegions hok (fun f hf =>
    ⟨husable f ((mem_usableFrames hok).mp hf), Finset.notMem_empty f⟩)
  rw [Finset.empty_union] at hfreed
  have hstart : b / pageSize = BitVec.ofNat 64 (b.toNat / 4096) := by
    apply BitVec.eq_of_toNat_eq
    have := b.isLt
    rw [toNat_ofNat_of_lt (by omega)]
    simp [pageSize]
  have hcount : (b / pageSize + alignUp bytes pageSize / pageSize).toNat -
      (b / pageSize).toNat = (bytes.toNat + 4095) / 4096 := by
    rw [BitVec.toNat_add, bitmapFrames_toNat (by omega), hstart,
      toNat_ofNat_of_lt (by omega)]
    omega
  rw [hcount, hstart] at h
  have hpos : b.toNat ≠ 0 := fun hz => hb (BitVec.eq_of_toNat_eq hz)
  have hclaimed := hfreed.claimRange (b.toNat / 4096) ((bytes.toNat + 4095) / 4096) (by omega)
  have hfinal := hclaimed.claimFrame (f := 0) (by omega)
  obtain rfl := Except.ok.inj h
  change Tracks b fc _ (claimFrame _ 0) at hfinal
  set q := claimFrame _ 0 with hq
  have hend : q.bitmapEnd = b.toNat + bytes.toNat := by
    rw [Pmm.bitmapEnd, hfinal.bitmap, hfinal.frameCount, hbytes]
  refine ⟨by rw [hfinal.frameCount]; exact hfc, ⟨e, he, hty, ?_, ?_⟩, ?_, ?_, ?_⟩
  · rw [hfinal.bitmap]
    exact hbase.symm
  · omega
  · rw [hfinal.frameCount]
    exact husable
  · intro f
    rw [hfinal.freeSet, Finset.mem_erase, Finset.mem_sdiff, mem_usableFrames hok,
      Finset.mem_Ico, Managed, Pmm.HoldsBitmap, hend, hfinal.bitmap]
    refine and_congr_right (fun _ => and_congr_right (fun _ => not_congr ?_))
    omega
  · rw [hfinal.freeSet]
    exact hfinal.count

end QuinKernel
